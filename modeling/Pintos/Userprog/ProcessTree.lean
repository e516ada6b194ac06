import Pintos.Library.Routine
import Mathlib.Data.List.Nodup
import Mathlib.Logic.Function.Basic

/-! A parent and its children (`process_execute`, `process_wait` and `process_exit` of
`userprog/process.c`, with the end of `thread_exit`).  Each step is one access to the struct of a child
or one operation on a semaphore, and the threads may be switched between any two of them.  Threads are
numbered in the order of their creation, and a number is used once. -/

namespace Pintos

/-- How far a thread is as a child: not created, before the two semaphore operations at the end of
`process_exit`, before the second, after both, and freed by `thread_schedule_tail`. -/
inductive ChildPc where
  | unborn
  | running
  | exitUp
  | exitDown
  | dying
  | destroyed
  deriving DecidableEq

/-- The part of a child's `struct thread` that its parent uses, and where the child is. -/
structure ChildThread where
  pc : ChildPc
  waited : Bool
  exitSema : Nat
  exitStatusReadSema : Nat

/-- What the parent does next.  `user` stands for everything outside the three functions. -/
inductive ParentPc where
  | user
  | executeLookup (chld : Nat)
  | executePush (chld : Nat)
  | waitLoop (childThreadId chld : Nat)
  | waitNext (childThreadId chld : Nat)
  | waitCheck (chld : Nat)
  | waitDown (chld : Nat)
  | waitStatus (chld : Nat)
  | waitRemove (chld : Nat)
  | waitUp (chld : Nat)
  | exitUp (chld : Nat)
  | exitNext (chld : Nat)
  | exited
  deriving DecidableEq

structure ProcessTree where
  parent : ParentPc
  childrenList : List Nat
  thread : Nat → ChildThread
  nextTid : Nat

/-- A step: the parent calls one of the functions or goes on in it, or a child goes on. -/
inductive TreeStep where
  | execute
  | wait (childThreadId : Nat)
  | exit
  | parent
  | child (tid : Nat)

abbrev TreeRoutine := Routine Unit ProcessTree Unit

namespace ProcessTree

/-- `list_next` of an element of the list. -/
def listNext (l : List Nat) (c : Nat) : Option Nat := (l.dropWhile (· ≠ c)).tail.head?

/-- The thread that `thread_create` makes. -/
def created : ChildThread := ⟨.running, false, 0, 0⟩

def setThread (w : ProcessTree) (c : Nat) (thread : ChildThread) : ProcessTree :=
  { w with thread := Function.update w.thread c thread }

@[simp] theorem setThread_thread_self (w : ProcessTree) (c : Nat) (thread : ChildThread) :
    (w.setThread c thread).thread c = thread := by
  simp [setThread]

theorem setThread_thread_ne (w : ProcessTree) {c d : Nat} (thread : ChildThread) (h : d ≠ c) :
    (w.setThread c thread).thread d = w.thread d := by
  simp [setThread, h]

/-- What the parent does next at a position of a list walk. -/
def walk (atEnd : ParentPc) (pc : Nat → ParentPc) : Option Nat → ParentPc
  | none => atEnd
  | some c => pc c

/-- The step of the parent inside one of the functions; `sema_down` may block. -/
def parentStep : TreeRoutine := do
  let w ← get
  match w.parent with
  | .user => throw ()
  | .executeLookup c => set { w with parent := .executePush c }
  | .executePush c => set { w with parent := .user, childrenList := w.childrenList ++ [c] }
  -- the loop moves on before it tests the result of the comparison
  | .waitLoop tid c => set { w with parent := .waitNext tid c }
  | .waitNext tid c =>
    if c = tid then set { w with parent := .waitCheck c }
    else set { w with parent := walk (.waitCheck c) (.waitLoop tid) (listNext w.childrenList c) }
  | .waitCheck c =>
    if (w.thread c).waited then set { w with parent := .user }
    else set { w.setThread c { w.thread c with waited := true } with parent := .waitDown c }
  | .waitDown c =>
    if (w.thread c).exitSema = 0 then throw ()
    else set { w.setThread c { w.thread c with exitSema := (w.thread c).exitSema - 1 } with
      parent := .waitStatus c }
  | .waitStatus c => set { w with parent := .waitRemove c }
  | .waitRemove c => set { w with parent := .waitUp c, childrenList := w.childrenList.erase c }
  | .waitUp c =>
    set { w.setThread c
        { w.thread c with exitStatusReadSema := (w.thread c).exitStatusReadSema + 1 } with
      parent := .user }
  | .exitUp c =>
    set { w.setThread c
        { w.thread c with exitStatusReadSema := (w.thread c).exitStatusReadSema + 1 } with
      parent := .exitNext c }
  | .exitNext c => set { w with parent := walk .exited .exitUp (listNext w.childrenList c) }
  | .exited => throw ()

/-- The step of a child. -/
def childStep (c : Nat) : TreeRoutine := do
  let w ← get
  let t := w.thread c
  match t.pc with
  | .running => set (w.setThread c { t with pc := .exitUp })
  | .exitUp => set (w.setThread c { t with pc := .exitDown, exitSema := t.exitSema + 1 })
  | .exitDown =>
    if t.exitStatusReadSema = 0 then throw ()
    else set (w.setThread c
      { t with pc := .dying, exitStatusReadSema := t.exitStatusReadSema - 1 })
  | .dying => set (w.setThread c { t with pc := .destroyed })
  | .unborn | .destroyed => throw ()

/-- A call of a function from user code. -/
def call (next : ProcessTree → ProcessTree) : TreeRoutine := do
  let w ← get
  if w.parent = .user then set (next w) else throw ()

def exec : TreeStep → TreeRoutine
  | .execute => call fun w =>
    { w.setThread w.nextTid created with
      parent := .executeLookup w.nextTid, nextTid := w.nextTid + 1 }
  | .wait tid => call fun w =>
    { w with parent := walk .user (.waitLoop tid) w.childrenList.head? }
  | .exit => call fun w => { w with parent := walk .exited .exitUp w.childrenList.head? }
  | .parent => parentStep
  | .child c => childStep c

/-- A parent without children. -/
def init : ProcessTree := ⟨.user, [], fun _ => ⟨.unborn, false, 0, 0⟩, 0⟩

/-- The children whose structs the next step of the parent reads or writes. -/
def touches (w : ProcessTree) : List Nat :=
  match w.parent with
  | .user | .exited => []
  | .executePush c => c :: w.childrenList.getLast?.toList
  | .waitRemove c =>
    c :: ((listNext w.childrenList c).toList ++ (listNext w.childrenList.reverse c).toList)
  | .executeLookup c | .waitLoop _ c | .waitNext _ c | .waitCheck c | .waitDown c | .waitStatus c
  | .waitUp c | .exitUp c | .exitNext c => [c]

/-- The next step of the parent touches no struct that was freed. -/
def Safe (w : ProcessTree) : Prop := ∀ c ∈ w.touches, (w.thread c).pc ≠ .destroyed

/-! ### The invariant -/

end ProcessTree

/-- The child cannot get past `sema_down (&exit_status_read_sema)`. -/
structure ChildThread.Quiet (t : ChildThread) : Prop where
  sema : t.exitStatusReadSema = 0
  not_dying : t.pc ≠ .dying
  not_destroyed : t.pc ≠ .destroyed

namespace ProcessTree

/-- The children whose `exit_status_read_sema` the parent has not raised. -/
def held (w : ProcessTree) : List Nat :=
  match w.parent with
  | .executeLookup c | .executePush c | .waitUp c => c :: w.childrenList
  | .exitUp c => w.childrenList.dropWhile (· ≠ c)
  | .exitNext c => (w.childrenList.dropWhile (· ≠ c)).tail
  | .exited => []
  | .user | .waitLoop _ _ | .waitNext _ _ | .waitCheck _ | .waitDown _ | .waitStatus _
  | .waitRemove _ => w.childrenList

/-- The child that the parent is at is on the list, or not yet or no longer. -/
def Placed (w : ProcessTree) : Prop :=
  match w.parent with
  | .user | .exited => True
  | .executeLookup c | .executePush c | .waitUp c => c ∉ w.childrenList
  | .waitLoop _ c | .waitNext _ c | .waitCheck c | .waitDown c | .waitStatus c | .waitRemove c
  | .exitUp c | .exitNext c => c ∈ w.childrenList

structure Inv (w : ProcessTree) : Prop where
  nodup : w.childrenList.Nodup
  lt : ∀ c ∈ w.childrenList, c < w.nextTid
  heldLt : ∀ c ∈ w.held, c < w.nextTid
  quiet : ∀ c ∈ w.held, (w.thread c).Quiet
  placed : w.Placed
  next : ∀ c, w.parent = .exitNext c → (w.thread c).pc ≠ .destroyed

variable {w w' : ProcessTree} {c d : Nat}

theorem mem_dropWhile {l : List Nat} (h : c ∈ l) :
    ∃ rest, l.dropWhile (· ≠ c) = c :: rest := by
  induction l with
  | nil => nomatch h
  | cons a l ih =>
    by_cases hac : a = c
    · subst hac
      exact ⟨l, by simp⟩
    · obtain ⟨rest, hrest⟩ := ih ((List.mem_cons.mp h).resolve_left (Ne.symm hac))
      exact ⟨rest, by simpa [hac] using hrest⟩

theorem mem_of_listNext {l : List Nat} (h : listNext l c = some d) : d ∈ l := by
  have hmem : d ∈ (l.dropWhile (· ≠ c)).tail := List.mem_of_mem_head? h
  exact (List.dropWhile_sublist _).mem (List.mem_of_mem_tail hmem)

/-- The walk goes on with what follows. -/
theorem dropWhile_listNext {l : List Nat} (hnodup : l.Nodup) (hc : c ∈ l)
    (h : listNext l c = some d) :
    l.dropWhile (· ≠ d) = (l.dropWhile (· ≠ c)).tail := by
  induction l with
  | nil => nomatch hc
  | cons a l ih =>
    rw [List.nodup_cons] at hnodup
    by_cases hac : a = c
    · subst hac
      have hdrop : (a :: l).dropWhile (· ≠ a) = a :: l := by simp
      rw [listNext, hdrop, List.tail_cons] at h
      rw [hdrop, List.tail_cons]
      cases l with
      | nil => nomatch h
      | cons b l =>
        obtain rfl := Option.some.inj h
        have hab : a ≠ b := fun hab => hnodup.1 (hab ▸ List.mem_cons_self)
        simp [hab]
    · have hdrop : (a :: l).dropWhile (· ≠ c) = l.dropWhile (· ≠ c) := by simp [hac]
      rw [listNext, hdrop] at h
      rw [hdrop]
      have hda : a ≠ d := fun had => hnodup.1 (had ▸ mem_of_listNext h)
      have hrest := ih hnodup.2 ((List.mem_cons.mp hc).resolve_left (Ne.symm hac)) h
      simpa [hda] using hrest

theorem Inv.safe (h : w.Inv) : w.Safe := by
  intro c hc
  by_cases hnext : w.parent = .exitNext c
  · exact h.next c hnext
  · refine (h.quiet c ?_).not_destroyed
    have hplaced := h.placed
    unfold touches at hc
    unfold held
    unfold Placed at hplaced
    cases hp : w.parent with
    | exitNext d =>
      rw [hp] at hc hnext
      obtain rfl := List.mem_singleton.mp hc
      exact absurd rfl hnext
    | executePush d =>
      rw [hp] at hc
      rcases List.mem_cons.mp hc with rfl | hlast
      · exact List.mem_cons_self
      · exact List.mem_cons_of_mem _ (List.mem_of_getLast? (Option.mem_toList.mp hlast))
    | waitRemove d =>
      rw [hp] at hc hplaced
      rcases List.mem_cons.mp hc with rfl | hother
      · exact hplaced
      · rcases List.mem_append.mp hother with h' | h'
        · exact mem_of_listNext (Option.mem_toList.mp h')
        · exact List.mem_reverse.mp (mem_of_listNext (Option.mem_toList.mp h'))
    | exitUp d =>
      rw [hp] at hc hplaced
      obtain rfl := List.mem_singleton.mp hc
      obtain ⟨rest, hrest⟩ := mem_dropWhile hplaced
      dsimp only
      rw [hrest]
      exact List.mem_cons_self
    | _ => simp_all

theorem Inv.init : ProcessTree.init.Inv :=
  ⟨List.nodup_nil, nofun, nofun, nofun, trivial, nofun⟩

/-- A step that leaves the list alone. -/
theorem Inv.move (h : w.Inv) (hlist : w'.childrenList = w.childrenList)
    (htid : w'.nextTid = w.nextTid)
    (hheld : ∀ c ∈ w'.held, c ∈ w.held ∧ ((w.thread c).Quiet → (w'.thread c).Quiet))
    (hplaced : w'.Placed) (hnext : ∀ c, w'.parent = .exitNext c → (w'.thread c).pc ≠ .destroyed) :
    w'.Inv where
  nodup := by rw [hlist]; exact h.nodup
  lt c hc := by
    rw [hlist] at hc
    rw [htid]
    exact h.lt c hc
  heldLt c hc := by
    rw [htid]
    exact h.heldLt c (hheld c hc).1
  quiet c hc := (hheld c hc).2 (h.quiet c (hheld c hc).1)
  placed := hplaced
  next := hnext

theorem quiet_setThread {t : ChildThread} (ht : (w.thread c).Quiet → t.Quiet)
    (hd : (w.thread d).Quiet) : ((w.setThread c t).thread d).Quiet := by
  by_cases hdc : d = c
  · subst hdc
    rw [setThread_thread_self]
    exact ht hd
  · rwa [setThread_thread_ne _ _ hdc]

/-- A step of a child, which is not freed while the parent is about to follow its link. -/
theorem Inv.child (h : w.Inv)
    (hmay : (w.thread c).pc = .dying → w.parent ≠ .exitNext c) (hrun : childStep c w = .ok ((), w')) :
    w'.Inv := by
  have hset : ∀ t : ChildThread, ((w.thread c).Quiet → t.Quiet) →
      (t.pc = .destroyed → w.parent ≠ .exitNext c) → (w.setThread c t).Inv := by
    intro t hquiet hpc
    refine h.move rfl rfl (fun d hd => ⟨hd, quiet_setThread hquiet⟩) h.placed fun d hd => ?_
    by_cases hdc : d = c
    · subst hdc
      rw [setThread_thread_self]
      exact fun hd' => hpc hd' hd
    · rw [setThread_thread_ne _ _ hdc]
      exact h.next d hd
  rw [childStep, Routine.get_bind_apply] at hrun
  cases hpc : (w.thread c).pc with
  | running =>
    rw [hpc] at hrun
    cases hrun
    exact hset _ (fun hq => ⟨hq.sema, nofun, nofun⟩) nofun
  | exitUp =>
    rw [hpc] at hrun
    cases hrun
    exact hset _ (fun hq => ⟨hq.sema, nofun, nofun⟩) nofun
  | exitDown =>
    rw [hpc] at hrun
    dsimp only at hrun
    split at hrun
    · nomatch hrun
    · rename_i hsema
      cases hrun
      exact hset _ (fun hq => absurd hq.sema hsema) nofun
  | dying =>
    rw [hpc] at hrun
    cases hrun
    exact hset _ (fun hq => absurd hpc hq.not_dying) fun _ => hmay hpc
  | unborn =>
    rw [hpc] at hrun
    nomatch hrun
  | destroyed =>
    rw [hpc] at hrun
    nomatch hrun

/-- A step of the parent. -/
theorem Inv.parent (h : w.Inv) (hrun : parentStep w = .ok ((), w')) : w'.Inv := by
  have hplaced := h.placed
  have hquiet := h.quiet
  rw [parentStep, Routine.get_bind_apply] at hrun
  unfold Placed at hplaced
  unfold held at hquiet
  cases hp : w.parent with
  | user =>
    rw [hp] at hrun
    nomatch hrun
  | exited =>
    rw [hp] at hrun
    nomatch hrun
  | executeLookup c =>
    rw [hp] at hrun hplaced
    cases hrun
    refine h.move rfl rfl (fun d hd => ⟨?_, id⟩) hplaced nofun
    rwa [held, hp]
  | executePush c =>
    rw [hp] at hrun hplaced hquiet
    have hlt := h.heldLt
    rw [held, hp] at hlt
    cases hrun
    have hmem : ∀ d ∈ w.childrenList ++ [c], d ∈ c :: w.childrenList := fun d hd => by
      rw [List.mem_append, List.mem_singleton, or_comm] at hd
      exact List.mem_cons.mpr hd
    refine ⟨?_, fun d hd => hlt d (hmem d hd), fun d hd => hlt d (hmem d hd),
      fun d hd => hquiet d (hmem d hd), trivial, nofun⟩
    refine List.nodup_append.mpr ⟨h.nodup, List.nodup_singleton c, fun a ha b hb => ?_⟩
    obtain rfl := List.mem_singleton.mp hb
    rintro rfl
    exact hplaced ha
  | waitLoop tid c =>
    rw [hp] at hrun hplaced
    cases hrun
    refine h.move rfl rfl (fun d hd => ⟨?_, id⟩) hplaced nofun
    rwa [held, hp]
  | waitNext tid c =>
    rw [hp] at hrun hplaced
    dsimp only at hrun
    split at hrun
    · cases hrun
      refine h.move rfl rfl (fun d hd => ⟨?_, id⟩) hplaced nofun
      rwa [held, hp]
    · cases hrun
      cases hnext : listNext w.childrenList c with
      | none =>
        refine h.move rfl rfl (fun d hd => ⟨?_, id⟩) hplaced nofun
        rwa [held, hp]
      | some e =>
        refine h.move rfl rfl (fun d hd => ⟨?_, id⟩) (mem_of_listNext hnext) nofun
        rwa [held, hp]
  | waitCheck c =>
    rw [hp] at hrun hplaced
    dsimp only at hrun
    split at hrun
    · cases hrun
      refine h.move rfl rfl (fun d hd => ⟨?_, id⟩) trivial nofun
      rwa [held, hp]
    · cases hrun
      refine h.move rfl rfl (fun d hd => ⟨?_, quiet_setThread fun hq => ⟨hq.1, hq.2, hq.3⟩⟩)
        hplaced nofun
      rwa [held, hp]
  | waitDown c =>
    rw [hp] at hrun hplaced
    dsimp only at hrun
    split at hrun
    · nomatch hrun
    · cases hrun
      refine h.move rfl rfl (fun d hd => ⟨?_, quiet_setThread fun hq => ⟨hq.1, hq.2, hq.3⟩⟩)
        hplaced nofun
      rwa [held, hp]
  | waitStatus c =>
    rw [hp] at hrun hplaced
    cases hrun
    refine h.move rfl rfl (fun d hd => ⟨?_, id⟩) hplaced nofun
    rwa [held, hp]
  | waitRemove c =>
    rw [hp] at hrun hplaced hquiet
    cases hrun
    have hmem : ∀ d ∈ c :: w.childrenList.erase c, d ∈ w.childrenList := fun d hd => by
      rcases List.mem_cons.mp hd with rfl | hd
      · exact hplaced
      · exact List.mem_of_mem_erase hd
    exact ⟨h.nodup.erase c, fun d hd => h.lt d (List.mem_of_mem_erase hd),
      fun d hd => h.lt d (hmem d hd), fun d hd => hquiet d (hmem d hd), h.nodup.not_mem_erase,
      nofun⟩
  | waitUp c =>
    rw [hp] at hrun hplaced
    cases hrun
    refine h.move rfl rfl (fun d hd => ⟨?_, fun hq => ?_⟩) trivial nofun
    · rw [held, hp]
      exact List.mem_cons_of_mem c hd
    · have hdc : d ≠ c := by
        rintro rfl
        exact hplaced hd
      exact (setThread_thread_ne w _ hdc).symm ▸ hq
  | exitUp c =>
    rw [hp] at hrun hplaced hquiet
    cases hrun
    obtain ⟨rest, hrest⟩ := mem_dropWhile hplaced
    have hnodup := h.nodup.sublist (List.dropWhile_sublist (· ≠ c))
    rw [hrest, List.nodup_cons] at hnodup
    refine h.move rfl rfl (fun d hd => ⟨?_, fun hq => ?_⟩) hplaced fun d hd => ?_
    · rw [held, hp]
      exact List.mem_of_mem_tail hd
    · have hmem : d ∈ (w.childrenList.dropWhile (· ≠ c)).tail := hd
      rw [hrest, List.tail_cons] at hmem
      have hdc : d ≠ c := by
        rintro rfl
        exact hnodup.1 hmem
      exact (setThread_thread_ne w _ hdc).symm ▸ hq
    · obtain rfl : c = d := ParentPc.exitNext.inj hd
      have hc := hquiet c (by dsimp only; rw [hrest]; exact List.mem_cons_self)
      exact (setThread_thread_self w c _).symm ▸ hc.not_destroyed
  | exitNext c =>
    rw [hp] at hrun hplaced
    cases hrun
    cases hnext : listNext w.childrenList c with
    | none => exact h.move rfl rfl nofun trivial nofun
    | some e =>
      refine h.move rfl rfl (fun d hd => ⟨?_, id⟩) (mem_of_listNext hnext) nofun
      have hmem : d ∈ w.childrenList.dropWhile (· ≠ e) := hd
      rw [dropWhile_listNext h.nodup hplaced hnext] at hmem
      rwa [held, hp]

theorem call_ok {next : ProcessTree → ProcessTree} (hrun : call next w = .ok ((), w')) :
    w.parent = .user ∧ w' = next w := by
  rw [call, Routine.get_bind_apply] at hrun
  split at hrun
  · rename_i hp
    cases hrun
    exact ⟨hp, rfl⟩
  · nomatch hrun

theorem Inv.execute (h : w.Inv) (hrun : exec .execute w = .ok ((), w')) : w'.Inv := by
  obtain ⟨hp, rfl⟩ := call_ok hrun
  have hquiet := h.quiet
  rw [held, hp] at hquiet
  have hne : ∀ d ∈ w.childrenList, d ≠ w.nextTid := fun d hd => Nat.ne_of_lt (h.lt d hd)
  have hlt : ∀ d ∈ w.nextTid :: w.childrenList, d < w.nextTid + 1 := fun d hd => by
    rcases List.mem_cons.mp hd with rfl | hd
    · omega
    · have := h.lt d hd
      omega
  refine ⟨h.nodup, fun d hd => hlt d (List.mem_cons_of_mem _ hd), hlt, fun d hd => ?_,
    fun hmem => hne _ hmem rfl, nofun⟩
  rcases List.mem_cons.mp hd with rfl | hd
  · exact (setThread_thread_self w w.nextTid created).symm ▸ ⟨rfl, nofun, nofun⟩
  · exact (setThread_thread_ne w created (hne d hd)).symm ▸ hquiet d hd

theorem Inv.wait (h : w.Inv) {tid : Nat} (hrun : exec (.wait tid) w = .ok ((), w')) : w'.Inv := by
  obtain ⟨hp, rfl⟩ := call_ok hrun
  cases hhead : w.childrenList.head? with
  | none =>
    refine h.move rfl rfl (fun d hd => ⟨?_, id⟩) trivial nofun
    rwa [held, hp]
  | some c =>
    refine h.move rfl rfl (fun d hd => ⟨?_, id⟩) (List.mem_of_mem_head? hhead) nofun
    rwa [held, hp]

theorem Inv.exit (h : w.Inv) (hrun : exec .exit w = .ok ((), w')) : w'.Inv := by
  obtain ⟨hp, rfl⟩ := call_ok hrun
  cases hhead : w.childrenList.head? with
  | none => exact h.move rfl rfl nofun trivial nofun
  | some c =>
    refine h.move rfl rfl (fun d hd => ⟨?_, id⟩) (List.mem_of_mem_head? hhead) nofun
    rw [held, hp]
    exact (List.dropWhile_sublist _).mem hd

/-- A child is freed while the parent is about to follow its link. -/
def FreesTooEarly (i : TreeStep) (w : ProcessTree) : Prop :=
  ∃ c, i = .child c ∧ (w.thread c).pc = .dying ∧ w.parent = .exitNext c

theorem Inv.step {i : TreeStep} (h : w.Inv) (hmay : ¬ FreesTooEarly i w)
    (hrun : exec i w = .ok ((), w')) : w'.Inv := by
  cases i with
  | execute => exact h.execute hrun
  | wait tid => exact h.wait hrun
  | exit => exact h.exit hrun
  | parent => exact h.parent hrun
  | child c => exact h.child (fun hpc hp => hmay ⟨c, rfl, hpc, hp⟩) hrun

end ProcessTree

open ProcessTree

/-- The parent never touches the struct of a freed child, in any run, exactly if no child is freed
between the `sema_up` on it and the `list_next` from it in the parent's `process_exit`. -/
theorem children_outlive_use_iff (steps : List TreeStep) :
    (∀ w, Routine.Visits ProcessTree.exec steps ProcessTree.init w → w.Safe) ↔
      ∀ i w, Routine.Takes ProcessTree.exec steps ProcessTree.init i w →
        ¬ FreesTooEarly i w := by
  constructor
  · rintro hsafe i w htakes ⟨c, rfl, hpc, hp⟩
    have hrun : exec (.child c) w =
        .ok ((), w.setThread c { w.thread c with pc := .destroyed }) := by
      rw [exec, childStep, Routine.get_bind_apply, hpc]
      rfl
    have htouches : (w.setThread c { w.thread c with pc := .destroyed }).touches = [c] := by
      rw [touches, show (w.setThread c _).parent = _ from hp]
    have hfreed := hsafe _ (htakes.visits hrun) c (by rw [htouches]; exact List.mem_singleton_self c)
    rw [setThread_thread_self] at hfreed
    exact hfreed rfl
  · intro hmay w hvisits
    exact (Routine.Visits.invariant (fun w i _ w' h hi hrun => h.step hi hrun) hmay Inv.init
      hvisits).safe

/-- A parent with one child exits; the child has reached its last `sema_down`, and is freed before
the parent moves on in its list. -/
def exitWithChild : List TreeStep :=
  [.execute, .parent, .parent, .child 0, .child 0, .exit, .parent, .child 0, .child 0]

/-- The parent then reads the link in the freed struct. -/
theorem exit_reads_freed_child :
    ¬ ∀ w, Routine.Visits ProcessTree.exec exitWithChild ProcessTree.init w → w.Safe := by
  intro h
  have hvisits := h _ ⟨exitWithChild, [], _, (List.append_nil _).symm, rfl⟩ 0 List.mem_cons_self
  exact hvisits rfl

end Pintos
