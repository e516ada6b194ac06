import Mathlib.Data.List.Nodup
import Mathlib.Logic.Function.Basic
import Mathlib.Tactic.Common

/-! `process_wait` (`userprog/process.c`) on the children of the calling process.  The call may block
on a child, so it takes what the children do in the meantime as a parameter: `exits tid` is the status
with which the running child `tid` exits, or `none` if it keeps running. -/

namespace Pintos

/-- The fields of a child's `struct thread` that `process_wait` uses, with the values of its
semaphores. -/
structure Child where
  tid : Int
  waited : Bool
  exitStatus : Int
  exitSema : Nat
  exitStatusReadSema : Nat

/-- The threads at their addresses and the `children_list` of the calling process. -/
structure Family where
  thread : Nat → Child
  childrenList : List Nat

/-- `allocate_tid` gives each thread its own `tid`. -/
def Family.Wf (s : Family) : Prop := (s.childrenList.map fun c => (s.thread c).tid).Nodup

/-- The loop of `process_wait`, where `chld` is the child visited last. -/
def findChild (thread : Nat → Child) (childThreadId : Int) : Option Nat → List Nat → Option Nat
  | chld, [] => chld
  | _, c :: rest =>
    if (thread c).tid = childThreadId then some c
    else findChild thread childThreadId (some c) rest

/-- What a child does while the parent is blocked. -/
def Child.run (exits : Int → Option Int) (c : Child) : Child :=
  match exits c.tid with
  | some status => if c.exitSema = 0 then { c with exitStatus := status, exitSema := 1 } else c
  | none => c

/-- `sema_down (&chld->exit_sema)`: the threads when it returns, or `none` if the child never
exits. -/
def downExitSema (exits : Int → Option Int) (chld : Nat) (thread : Nat → Child) :
    Option (Nat → Child) :=
  let thread := if (thread chld).exitSema = 0 then fun c => (thread c).run exits else thread
  if (thread chld).exitSema = 0 then none
  else some (Function.update thread chld
    { thread chld with exitSema := (thread chld).exitSema - 1 })

/-- `process_wait`: its result and the state after it, or `none` if it never returns. -/
def processWait (exits : Int → Option Int) (s : Family) (childThreadId : Int) :
    Option (Int × Family) :=
  match findChild s.thread childThreadId none s.childrenList with
  | none => some (-1, s)
  | some chld =>
    if (s.thread chld).waited then some (-1, s)
    else
      let thread := Function.update s.thread chld { s.thread chld with waited := true }
      match downExitSema exits chld thread with
      | none => none
      | some thread =>
        some ((thread chld).exitStatus,
          { childrenList := s.childrenList.erase chld
            thread := Function.update thread chld
              { thread chld with exitStatusReadSema := (thread chld).exitStatusReadSema + 1 } })

/-- The status with which a child exits, if it does. -/
def Child.exitsWith (exits : Int → Option Int) (c : Child) : Option Int :=
  if c.exitSema = 0 then exits c.tid else some c.exitStatus

/-- A call of `process_wait` answers for the child it names, and for no other: then it neither blocks
nor changes anything. -/
structure WaitAnswers (s : Family) (childThreadId : Int) : Prop where
  child : ∀ c ∈ s.childrenList, (s.thread c).tid = childThreadId → (s.thread c).waited = false →
    ∀ exits, (processWait exits s childThreadId).map Prod.fst = (s.thread c).exitsWith exits
  other : (∀ c ∈ s.childrenList, (s.thread c).tid = childThreadId → (s.thread c).waited = true) →
    ∀ exits, processWait exits s childThreadId = some (-1, s)

section

variable {thread : Nat → Child} {children : List Nat} {tid : Int} {c : Nat} {s : Family}
  {exits : Int → Option Int}

theorem findChild_of_mem (hc : c ∈ children) (htid : (thread c).tid = tid)
    (hnodup : (children.map fun c => (thread c).tid).Nodup) (prev : Option Nat) :
    findChild thread tid prev children = some c := by
  induction children generalizing prev with
  | nil => nomatch hc
  | cons d rest ih =>
    rw [List.map_cons, List.nodup_cons] at hnodup
    rw [findChild]
    by_cases hd : (thread d).tid = tid
    · rw [if_pos hd]
      rcases List.mem_cons.mp hc with rfl | hrest
      · rfl
      · exact absurd (List.mem_map.mpr ⟨c, hrest, htid.trans hd.symm⟩) hnodup.1
    · rw [if_neg hd]
      rcases List.mem_cons.mp hc with rfl | hrest
      · exact absurd htid hd
      · exact ih hrest hnodup.2 _

/-- Without a match the cursor stays on the last child. -/
theorem findChild_of_forall_ne (h : ∀ c ∈ children, (thread c).tid ≠ tid) (prev : Option Nat) :
    findChild thread tid prev children = children.getLast?.or prev := by
  induction children generalizing prev with
  | nil => rfl
  | cons d rest ih =>
    rw [findChild, if_neg (h d List.mem_cons_self), ih fun c hc => h c (List.mem_cons_of_mem _ hc),
      List.getLast?_cons]
    cases rest.getLast? <;> rfl

/-- `sema_down` returns exactly if the child exits, with its status in place. -/
theorem downExitSema_status (exits : Int → Option Int) (c : Nat) (thread : Nat → Child) :
    (downExitSema exits c thread).map (fun thread => (thread c).exitStatus) =
      (thread c).exitsWith exits := by
  unfold downExitSema Child.exitsWith
  by_cases hsema : (thread c).exitSema = 0
  · simp only [hsema, if_true, Child.run]
    cases exits (thread c).tid <;> simp [hsema]
  · simp [hsema]

/-- A call whose loop stops at a child that was not waited for returns the status of this child. -/
theorem processWait_status (hfind : findChild s.thread tid none s.childrenList = some c)
    (hwaited : (s.thread c).waited = false) (exits : Int → Option Int) :
    (processWait exits s tid).map Prod.fst = (s.thread c).exitsWith exits := by
  have hstatus := downExitSema_status exits c
    (Function.update s.thread c { s.thread c with waited := true })
  rw [Function.update_self] at hstatus
  rw [processWait, hfind]
  dsimp only
  rw [hwaited, if_neg Bool.false_ne_true]
  rw [show (s.thread c).exitsWith exits =
    ({ s.thread c with waited := true } : Child).exitsWith exits from rfl, ← hstatus]
  cases downExitSema exits c (Function.update s.thread c { s.thread c with waited := true }) <;> rfl

/-- Such a call takes the child off the list. -/
theorem processWait_erase (hfind : findChild s.thread tid none s.childrenList = some c)
    (hwaited : (s.thread c).waited = false) {status : Int} {s' : Family}
    (h : processWait exits s tid = some (status, s')) :
    s'.childrenList = s.childrenList.erase c := by
  rw [processWait, hfind] at h
  dsimp only at h
  rw [hwaited, if_neg Bool.false_ne_true] at h
  cases hdown : downExitSema exits c
      (Function.update s.thread c { s.thread c with waited := true }) with
  | none =>
    rw [hdown] at h
    nomatch h
  | some thread =>
    rw [hdown] at h
    cases h
    rfl

theorem processWait_of_waited (hfind : findChild s.thread tid none s.childrenList = some c)
    (hwaited : (s.thread c).waited = true) : processWait exits s tid = some (-1, s) := by
  rw [processWait, hfind]
  dsimp only
  rw [if_pos hwaited]

theorem processWait_of_nil (h : s.childrenList = []) : processWait exits s tid = some (-1, s) := by
  rw [processWait, h]
  rfl

end

/-- `process_wait` answers for the child it names and for no other exactly if the `tid` is that of a
child on the list, or there is no child, or the last one was waited for. -/
theorem process_wait_iff (s : Family) (hs : s.Wf) (tid : Int) :
    WaitAnswers s tid ↔ (∃ c ∈ s.childrenList, (s.thread c).tid = tid) ∨
      ∀ c, s.childrenList.getLast? = some c → (s.thread c).waited = true := by
  constructor
  · intro h
    by_contra hnot
    obtain ⟨hne, hlast⟩ := not_or.mp hnot
    have hne : ∀ c ∈ s.childrenList, (s.thread c).tid ≠ tid := fun c hc heq => hne ⟨c, hc, heq⟩
    obtain ⟨c, hc, hwaited⟩ : ∃ c, s.childrenList.getLast? = some c ∧
        (s.thread c).waited = false := by simpa using hlast
    have hfind := findChild_of_forall_ne hne none
    rw [hc] at hfind
    have hother := h.other (fun c hc heq => absurd heq (hne c hc)) fun _ => none
    have herase := processWait_erase hfind hwaited hother
    have hmem := List.mem_of_getLast? hc
    have hlength := List.length_erase_of_mem hmem
    rw [← herase] at hlength
    have hpos := List.length_pos_of_mem hmem
    omega
  · intro hcond
    by_cases hmatch : ∃ c ∈ s.childrenList, (s.thread c).tid = tid
    · obtain ⟨c, hc, htid⟩ := hmatch
      have hfind := findChild_of_mem hc htid hs none
      refine ⟨fun d hd hdtid hwaited exits => ?_, fun hall exits => ?_⟩
      · exact processWait_status (findChild_of_mem hd hdtid hs none) hwaited exits
      · exact processWait_of_waited hfind (hall c hc htid)
    · have hlast := hcond.resolve_left hmatch
      have hne : ∀ c ∈ s.childrenList, (s.thread c).tid ≠ tid := fun c hc heq =>
        hmatch ⟨c, hc, heq⟩
      refine ⟨fun c hc heq => absurd heq (hne c hc), fun _ exits => ?_⟩
      have hfind := findChild_of_forall_ne hne none
      cases hc : s.childrenList.getLast? with
      | none => exact processWait_of_nil (List.getLast?_eq_none_iff.mp hc)
      | some c =>
        rw [hc] at hfind
        exact processWait_of_waited hfind (hlast c hc)

/-- A parent with one child, which is still running. -/
def oneRunningChild : Family where
  thread _ := ⟨3, false, 0, 0, 0⟩
  childrenList := [0]

/-- `process_wait` for a `tid` that is nobody's waits for the child. -/
theorem wait_for_stranger_blocks : ¬ WaitAnswers oneRunningChild 99 := by
  intro h
  have hnone : processWait (fun _ => none) oneRunningChild 99 = none := rfl
  have hother := h.other (by decide) fun _ => none
  rw [hnone] at hother
  nomatch hother

theorem process_wait_iff_oneRunningChild :
    WaitAnswers oneRunningChild 3 ↔
      (∃ c ∈ oneRunningChild.childrenList, (oneRunningChild.thread c).tid = 3) ∨
        ∀ c, oneRunningChild.childrenList.getLast? = some c →
          (oneRunningChild.thread c).waited = true :=
  process_wait_iff oneRunningChild (by simp [Family.Wf, oneRunningChild]) 3

end Pintos
