import Pintos.Filesys.Descriptors

/-! Descriptors over whole runs.  What a process has open is read off the calls made so far and their
results; the list of descriptors has exactly that, for every process and every order of the calls. -/

namespace Pintos

namespace OpenFiles

open Routine

/-- A call that has been made, with its result. -/
abbrev Event := (Nat × Call) × Int

/-- The process has opened something and was given the number. -/
def Opened (e : Event) (current : Nat) (fdNum : Int) : Prop :=
  (∃ found, e.1 = (current, .openFileOrDir found)) ∧ e.2 = fdNum ∧ fdNum ≠ -1

/-- The process has closed the number, or has exited. -/
def Closed (e : Event) (current : Nat) (fdNum : Int) : Prop :=
  e.1 = (current, .closeOpenFileOrDir fdNum) ∨ ∃ pages, e.1 = (current, .threadExit pages)

/-- The process has opened the number and not closed it since. -/
def HasOpen (trace : List Event) (current : Nat) (fdNum : Int) : Prop :=
  ∃ before e after, trace = before ++ e :: after ∧ Opened e current fdNum ∧
    ∀ e' ∈ after, ¬ Closed e' current fdNum

/-- The numbers that were handed out. -/
def handedOut (trace : List Event) : List Int :=
  trace.filterMap fun e =>
    match e with
    | ((_, .openFileOrDir _), fdNum) => if fdNum = -1 then none else some fdNum
    | _ => none

/-- What holds of the descriptors after the calls of `trace`. -/
structure Isolated (calls : FreeMapCalls) (trace : List Event) (s : State) : Prop where
  new : (handedOut trace).Nodup
  found : ∀ current fdNum, ∃ r, getFileDescriptor current fdNum s = .ok (r, s) ∧
    (r.isSome ↔ HasOpen trace current fdNum) ∧ ∀ p ∈ r, s.isFd current fdNum p
  exit : ∀ current pages s', closeAllFilesAndDir calls current pages s = .ok ((), s') →
    ∃ l, s.Table l ∧ s'.Table (l.filter fun p => !s.isOwned current p) ∧
      ∀ p ∈ l.filter fun p => !s.isOwned current p, s'.fds p = s.fds p
  others : ∀ current fdNum, ¬ HasOpen trace current fdNum →
    closeOpenFileOrDir calls current fdNum s = .ok ((), s)

variable {calls : FreeMapCalls} {input : Nat → UInt8} {current : Nat} {fdNum : Int}
  {trace : List Event} {e : Event} {s s' : State}

/-! ### Events -/

theorem hasOpen_nil : ¬ HasOpen [] current fdNum := by
  rintro ⟨before, e, after, h, -⟩
  simp at h

/-- What a process has open after one more call. -/
theorem hasOpen_concat : HasOpen (trace ++ [e]) current fdNum ↔
    Opened e current fdNum ∨ HasOpen trace current fdNum ∧ ¬ Closed e current fdNum := by
  constructor
  · rintro ⟨before, e', after, h, hopened, hafter⟩
    rcases List.eq_nil_or_concat after with rfl | ⟨after', e'', rfl⟩
    · obtain ⟨-, heq⟩ := List.append_inj' h rfl
      cases heq
      exact .inl hopened
    · rw [List.concat_eq_append, ← List.cons_append, ← List.append_assoc] at h
      obtain ⟨rfl, heq⟩ := List.append_inj' h rfl
      cases heq
      rw [List.concat_eq_append] at hafter
      exact .inr ⟨⟨before, e', after', rfl, hopened, fun d hd =>
        hafter d (List.mem_append_left _ hd)⟩, hafter e (by simp)⟩
  · rintro (hopened | ⟨⟨before, e', after, rfl, hopened, hafter⟩, hclosed⟩)
    · exact ⟨trace, e, [], rfl, hopened, nofun⟩
    · refine ⟨before, e', after ++ [e], by simp, hopened, fun d hd => ?_⟩
      rcases List.mem_append.mp hd with hd | hd
      · exact hafter d hd
      · rw [List.mem_singleton] at hd
        rw [hd]
        exact hclosed

theorem handedOut_concat_of_not (trace : List Event) (h : ∀ current n, ¬ Opened e current n) :
    handedOut (trace ++ [e]) = handedOut trace := by
  have hnone : handedOut [e] = [] := by
    obtain ⟨⟨current, call⟩, n⟩ := e
    cases call with
    | openFileOrDir found =>
      have hn : n = -1 := by
        by_contra hne
        exact h current n ⟨⟨found, rfl⟩, rfl, hne⟩
      simp [handedOut, hn]
    | _ => rfl
  rw [handedOut, List.filterMap_append, ← handedOut, ← handedOut, hnone, List.append_nil]

theorem handedOut_concat_of_opened (trace : List Event) (h : Opened e current fdNum) :
    handedOut (trace ++ [e]) = handedOut trace ++ [fdNum] := by
  obtain ⟨⟨current', call⟩, n⟩ := e
  obtain ⟨⟨found, hcall⟩, rfl, hne⟩ := h
  cases hcall
  rw [handedOut, List.filterMap_append, ← handedOut]
  simp [hne]

/-! ### The invariant -/

/-- The descriptor that is opened when `k` were opened before has this number. -/
def fdNumAt (k : Nat) : Int := toOff (2 + k : Nat)

theorem fdNumAt_inj {j k : Nat} (hj : j < 2 ^ 31) (hk : k < 2 ^ 31) (h : fdNumAt j = fdNumAt k) :
    j = k := by
  unfold fdNumAt toOff at h
  omega

theorem fdNumAt_ne {k : Nat} (hk : k < 2 ^ 31) : fdNumAt k ≠ -1 := by
  unfold fdNumAt toOff
  omega

/-- The list `l` of descriptors after the calls of `trace`. -/
structure Inv (trace : List Event) (s : State) (l : List Nat) : Prop where
  table : s.Table l
  fdCount : s.fdCount = 2 + (handedOut trace).length
  numbers : handedOut trace = (List.range (handedOut trace).length).map fdNumAt
  number : ∀ p ∈ l, ∀ fd, s.fds p = some fd → ∃ k < (handedOut trace).length, fd.fdNum = fdNumAt k
  unique : ∀ p ∈ l, ∀ q ∈ l, ∀ fd fd', s.fds p = some fd → s.fds q = some fd' →
    fd.fdNum = fd'.fdNum → p = q
  hasOpen : ∀ current fdNum, (∃ p ∈ l, s.isFd current fdNum p = true) ↔ HasOpen trace current fdNum
  alive : ∀ p ∈ l, ∀ fd, s.fds p = some fd → s.exited fd.owner = false

variable {l l' : List Nat} {p : Nat}

theorem isFd_iff {fd : FileDescriptor} (h : s.fds p = some fd) :
    s.isFd current fdNum p = true ↔ fd.fdNum = fdNum ∧ fd.owner = current := by
  simp [State.isFd, h]

theorem isOwned_iff {fd : FileDescriptor} (h : s.fds p = some fd) :
    s.isOwned current p = true ↔ fd.owner = current := by
  simp [State.isOwned, h]

/-- A call that opens nothing, and leaves the descriptors `l'` as they are. -/
theorem Inv.kept (h : Inv trace s l) (hmem : ∀ p ∈ l', p ∈ l) (htable : s'.Table l')
    (hfds : ∀ p ∈ l', s'.fds p = s.fds p) (hcount : s'.fdCount = s.fdCount)
    (halive : ∀ p ∈ l', ∀ fd, s.fds p = some fd → s'.exited fd.owner = false)
    (hopened : ∀ current n, ¬ Opened e current n)
    (hopen : ∀ current n, (∃ p ∈ l', s.isFd current n p = true) ↔
      HasOpen trace current n ∧ ¬ Closed e current n) : Inv (trace ++ [e]) s' l' := by
  have hout := handedOut_concat_of_not trace hopened
  refine ⟨htable, ?_, ?_, fun p hp fd hfd => ?_, fun p hp q hq fd fd' hfd hfd' => ?_,
    fun current n => ?_, fun p hp fd hfd => ?_⟩
  · rw [hcount, hout]
    exact h.fdCount
  · rw [hout]
    exact h.numbers
  · rw [hfds p hp] at hfd
    rw [hout]
    exact h.number p (hmem p hp) fd hfd
  · rw [hfds p hp] at hfd
    rw [hfds q hq] at hfd'
    exact h.unique p (hmem p hp) q (hmem q hq) fd fd' hfd hfd'
  · rw [hasOpen_concat, or_iff_right (hopened current n), ← hopen]
    refine exists_congr fun p => and_congr_right fun hp => ?_
    rw [State.isFd, State.isFd, hfds p hp]
  · rw [hfds p hp] at hfd
    exact halive p hp fd hfd

/-- A call that does not change the list, and neither opens nor closes. -/
theorem Inv.sameTable (h : Inv trace s l) (hsame : SameTable s s')
    (hopened : ∀ current n, ¬ Opened e current n)
    (hclosed : ∀ current n, HasOpen trace current n → ¬ Closed e current n) :
    Inv (trace ++ [e]) s' l := by
  refine h.kept (fun _ hp => hp) (h.table.sameTable hsame) (fun p _ => by rw [hsame.fds])
    hsame.fdCount (fun p hp fd hfd => ?_) hopened fun current n => ?_
  · rw [hsame.exited]
    exact h.alive p hp fd hfd
  · rw [h.hasOpen]
    exact (and_iff_left_of_imp (hclosed current n)).symm

/-- A new descriptor at the front of the list. -/
theorem Inv.opened (h : Inv trace s l) (hfew : (handedOut trace).length < 2 ^ 31) {found : Found}
    {fd : FileDescriptor} (hnum : fd.fdNum = toOff s.fdCount) (howner : fd.owner = current)
    (hnew : p ∉ l) (htable : s'.Table (p :: l)) (hfds : s'.fds = Function.update s.fds p (some fd))
    (hcount : s'.fdCount = (s.fdCount + 1) % 2 ^ 32) (hexited : s'.exited = s.exited)
    (halive : s.exited current = false) :
    Inv (trace ++ [((current, .openFileOrDir found), fd.fdNum)]) s' (p :: l) := by
  have hfdNum : fd.fdNum = fdNumAt (handedOut trace).length := by rw [hnum, h.fdCount, fdNumAt]
  have hopened : Opened ((current, .openFileOrDir found), fd.fdNum) current fd.fdNum :=
    ⟨⟨found, rfl⟩, rfl, by rw [hfdNum]; exact fdNumAt_ne hfew⟩
  have hout := handedOut_concat_of_opened trace hopened
  have hself : s'.fds p = some fd := by rw [hfds, Function.update_self]
  have hold : ∀ q ∈ l, s'.fds q = s.fds q := fun q hq => by
    rw [hfds, Function.update_of_ne]
    rintro rfl
    exact hnew hq
  have hother : ∀ q ∈ l, ∀ fd', s.fds q = some fd' → fd'.fdNum ≠ fd.fdNum := by
    intro q hq fd' hfd' heq
    obtain ⟨k, hk, hnumber⟩ := h.number q hq fd' hfd'
    rw [hnumber, hfdNum] at heq
    exact absurd (fdNumAt_inj (by omega) hfew heq) (by omega)
  refine ⟨htable, ?_, ?_, fun q hq fd' hfd' => ?_, fun q hq r hr fq fr hfq hfr heq => ?_,
    fun P n => ?_, fun q hq fd' hfd' => ?_⟩
  · rw [hcount, hout, h.fdCount, List.length_append, List.length_singleton]
    omega
  · rw [hout, List.length_append, List.length_singleton, List.range_succ, List.map_append,
      ← h.numbers, hfdNum]
    rfl
  · rw [hout, List.length_append, List.length_singleton]
    rcases List.mem_cons.mp hq with rfl | hq
    · rw [hself] at hfd'
      obtain rfl := Option.some.inj hfd'
      exact ⟨_, Nat.lt_succ_self _, hfdNum⟩
    · rw [hold q hq] at hfd'
      obtain ⟨k, hk, hnumber⟩ := h.number q hq fd' hfd'
      exact ⟨k, by omega, hnumber⟩
  · rcases List.mem_cons.mp hq with hqp | hq <;> rcases List.mem_cons.mp hr with hrp | hr
    · rw [hqp, hrp]
    · rw [hqp, hself] at hfq
      rw [hold r hr] at hfr
      obtain rfl := Option.some.inj hfq
      exact absurd heq.symm (hother r hr fr hfr)
    · rw [hold q hq] at hfq
      rw [hrp, hself] at hfr
      obtain rfl := Option.some.inj hfr
      exact absurd heq (hother q hq fq hfq)
    · rw [hold q hq] at hfq
      rw [hold r hr] at hfr
      exact h.unique q hq r hr fq fr hfq hfr heq
  · have hclosed : ¬ Closed ((current, .openFileOrDir found), fd.fdNum) P n := by
      rintro (hcall | ⟨pages, hcall⟩) <;> nomatch hcall
    rw [hasOpen_concat, ← h.hasOpen, and_iff_left hclosed]
    constructor
    · rintro ⟨q, hq, hfd⟩
      rcases List.mem_cons.mp hq with rfl | hq
      · obtain ⟨rfl, rfl⟩ := (isFd_iff hself).mp hfd
        rw [howner]
        exact .inl hopened
      · rw [State.isFd, hold q hq] at hfd
        exact .inr ⟨q, hq, hfd⟩
    · rintro (⟨⟨found', hcall⟩, hn, -⟩ | ⟨q, hq, hfd⟩)
      · cases hcall
        exact ⟨p, List.mem_cons_self, (isFd_iff hself).mpr ⟨hn, howner⟩⟩
      · refine ⟨q, List.mem_cons_of_mem _ hq, ?_⟩
        rwa [State.isFd, hold q hq]
  · rw [hexited]
    rcases List.mem_cons.mp hq with rfl | hq
    · rw [hself] at hfd'
      obtain rfl := Option.some.inj hfd'
      rwa [howner]
    · rw [hold q hq] at hfd'
      exact h.alive q hq fd' hfd'

/-! ### What the calls do to the list -/

variable {n : Int}

/-- The descriptor that `open_file_or_dir` adds. -/
structure Added (current : Nat) (l : List Nat) (s s' : State) (n : Int) (p : Nat)
    (fd : FileDescriptor) : Prop where
  fdNum : fd.fdNum = n
  next : fd.fdNum = toOff s.fdCount
  owner : fd.owner = current
  fresh : p ∉ l
  table : s'.Table (p :: l)
  fds : s'.fds = Function.update s.fds p (some fd)
  fdCount : s'.fdCount = (s.fdCount + 1) % 2 ^ 32
  exited : s'.exited = s.exited

theorem addDescriptor_added {openFile openDir : Option Nat} {isDir : Bool} (h : s.Table l)
    (hnew : p ∉ l) (hlt : p < s.nextPtr)
    (hrun : addDescriptor current p openFile openDir isDir s = .ok (n, s')) :
    ∃ fd, Added current l s s' n p fd := by
  let fd : FileDescriptor := ⟨toOff s.fdCount, openFile, openDir, current, isDir⟩
  let s1 : State := { s with fds := Function.update s.fds p (some fd) }
  have hnext : s1.openFiles.next .head = some (firstElem l) := h.next_head
  have hprev : s1.openFiles.prev (firstElem l) = some .head := h.prev_first
  have hpush : listPushFront (.fd p) s1 =
      .ok ((), { s1 with openFiles := s1.openFiles.insertBefore (firstElem l) (.fd p) }) := by
    rw [listPushFront, bind_of_ok (listNext_of_some hnext), get_bind_apply]
    simp only [hprev]
    rfl
  rw [addDescriptor, get_bind_apply, set_bind_apply, bind_of_ok hpush] at hrun
  obtain ⟨hn, hs'⟩ := Prod.mk.inj (Except.ok.inj hrun)
  subst hs'
  refine ⟨fd, hn, rfl, rfl, hnew, ⟨?_, fun q hq => ?_, fun q hq => ?_⟩, rfl, rfl, rfl⟩
  · have hspells := h.spells
    have hnot : Elem.fd p ∉ Elem.head :: (l.map Elem.fd ++ [Elem.tail]) := by simp [hnew]
    rw [firstElem_restElems, ← List.nil_append (Elem.head :: _)] at hspells hnot
    have hinsert := hspells.insertBefore hnot
    rwa [← firstElem_restElems, List.nil_append] at hinsert
  · rcases List.mem_cons.mp hq with rfl | hq
    · exact ⟨fd, Function.update_self ..⟩
    · have hne : q ≠ p := fun heq => hnew (heq ▸ hq)
      change ∃ fd', Function.update s.fds p (some fd) q = some fd'
      rw [Function.update_of_ne hne]
      exact h.fds q hq
  · rcases List.mem_cons.mp hq with rfl | hq
    · exact hlt
    · exact h.lt q hq

theorem Added.of_sameTable {s1 : State} {fd : FileDescriptor} (hsame : SameTable s s1)
    (h : Added current l s1 s' n p fd) : Added current l s s' n p fd where
  fdNum := h.fdNum
  next := by rw [h.next, hsame.fdCount]
  owner := h.owner
  fresh := h.fresh
  table := h.table
  fds := by rw [h.fds, hsame.fds]
  fdCount := by rw [h.fdCount, hsame.fdCount]
  exited := by rw [h.exited, hsame.exited]

/-- `open_file_or_dir` fails without a change, or adds a descriptor. -/
theorem openFileOrDir_added {found : Found} (h : s.Table l)
    (hrun : openFileOrDir current found s = .ok (n, s')) :
    n = -1 ∧ s' = s ∨ ∃ p fd, Added current l s s' n p fd := by
  -- the descriptor's memory is handed out first
  have hstep : ∀ s1 openFile openDir isDir, SameTable s s1 → s.nextPtr < s1.nextPtr →
      addDescriptor current s.nextPtr openFile openDir isDir s1 = .ok (n, s') →
      ∃ p fd, Added current l s s' n p fd := by
    intro s1 openFile openDir isDir hsame hlt hadd
    have hfresh : s.nextPtr ∉ l := fun hmem => Nat.lt_irrefl _ (h.lt _ hmem)
    obtain ⟨fd, hadded⟩ := addDescriptor_added (h.sameTable hsame) hfresh hlt hadd
    exact ⟨_, fd, hadded.of_sameTable hsame⟩
  have hfirst : SameTable s { s with nextPtr := s.nextPtr + 1 } :=
    ⟨rfl, rfl, rfl, rfl, Nat.le_succ _⟩
  cases found with
  | nothing =>
    cases hrun
    exact .inl ⟨rfl, rfl⟩
  | dir sector =>
    rw [openFileOrDir] at hrun
    obtain ⟨p, s1, hptr, hrun⟩ := bind_ok.mp hrun
    cases hptr
    obtain ⟨d, s2, hptr, hrun⟩ := bind_ok.mp hrun
    obtain ⟨⟨⟩, s3, hdir, hrun⟩ := bind_ok.mp hrun
    obtain ⟨⟨⟩, s4, hcnt, hrun⟩ := bind_ok.mp hrun
    have hsame2 := newPtr_sameTable _ _ _ hptr
    have hsame3 := setDir_sameTable _ _ _ _ _ hdir
    have hsame4 : SameTable s3 s4 := by
      cases hcnt
      exact ⟨rfl, rfl, rfl, rfl, le_rfl⟩
    have hsame := trans_of SameTable hfirst
      (trans_of SameTable hsame2 (trans_of SameTable hsame3 hsame4))
    have hlt := hsame2.nextPtr.trans (hsame3.nextPtr.trans hsame4.nextPtr)
    exact .inr (hstep _ _ _ _ hsame hlt hrun)
  | file sector =>
    rw [openFileOrDir] at hrun
    obtain ⟨p, s1, hptr, hrun⟩ := bind_ok.mp hrun
    cases hptr
    obtain ⟨⟨⟩, s2, hinode, hrun⟩ := bind_ok.mp hrun
    obtain ⟨f, s3, hfile, hrun⟩ := bind_ok.mp hrun
    have hsame2 := onFs_sameTable _ _ _ _ hinode
    have hsame3 := fileOpen_sameTable _ _ _ _ hfile
    have hlt := hsame2.nextPtr.trans hsame3.nextPtr
    have hsame := trans_of SameTable hfirst (trans_of SameTable hsame2 hsame3)
    exact .inr (hstep _ _ _ _ hsame hlt hrun)

/-- `close_open_file_or_dir` finds no descriptor and does nothing, or takes the one that it finds out
of the list. -/
theorem closeOpenFileOrDir_cases (h : s.Table l)
    (hrun : closeOpenFileOrDir calls current fdNum s = .ok ((), s')) :
    (∀ p ∈ l, s.isFd current fdNum p = false) ∧ s' = s ∨
      ∃ xs p ys, l = xs ++ p :: ys ∧ s.isFd current fdNum p = true ∧ s'.Table (xs ++ ys) ∧
        (∀ q ∈ xs ++ ys, s'.fds q = s.fds q) ∧ s'.fdCount = s.fdCount ∧ s'.exited = s.exited := by
  rw [closeOpenFileOrDir, bind_of_ok (getFileDescriptor_eq h current fdNum)] at hrun
  cases hfind : l.reverse.find? (s.isFd current fdNum) with
  | none =>
    rw [hfind] at hrun
    cases hrun
    refine .inl ⟨fun p hp => ?_, rfl⟩
    simpa using List.find?_eq_none.mp hfind p (List.mem_reverse.mpr hp)
  | some p =>
    rw [hfind] at hrun
    obtain ⟨hmatch, ys, xs, hsplit, -⟩ := List.find?_eq_some_iff_append.mp hfind
    have hl : l = xs.reverse ++ p :: ys.reverse := by
      have hreverse := congrArg List.reverse hsplit
      rwa [List.reverse_reverse, List.reverse_append, List.reverse_cons, List.append_assoc,
        List.singleton_append] at hreverse
    rw [hl] at h
    obtain ⟨fd, hfd⟩ := h.fds p (by simp)
    dsimp only at hrun
    rw [bind_of_ok (getFd_of_some hfd), if_pos ((isFd_iff hfd).mp hmatch).2] at hrun
    obtain ⟨⟨⟩, s1, hclose, hrun⟩ := bind_ok.mp hrun
    have hsame := closeOpened_sameTable fd s () s1 hclose
    have h1 := h.sameTable hsame
    rw [listRemove_freeFd h1] at hrun
    cases hrun
    refine .inr ⟨xs.reverse, p, ys.reverse, hl, hmatch, h1.remove, fun q hq => ?_, hsame.fdCount,
      hsame.exited⟩
    have hne : q ≠ p := by
      rintro rfl
      have hnodup := h.nodup
      rw [List.nodup_append, List.nodup_cons] at hnodup
      rcases List.mem_append.mp hq with hq | hq
      · exact hnodup.2.2 q hq q List.mem_cons_self rfl
      · exact hnodup.2.1.1 hq
    change Function.update s1.fds p none q = s.fds q
    rw [Function.update_of_ne hne, hsame.fds]

/-! ### One call -/

/-- What a call returns that an exited process makes. -/
theorem exec_exited {call : Call} {r : Int} (hexited : s.exited current = true)
    (hrun : exec calls input (current, call) s = .ok (r, s')) : r = -1 ∧ s' = s := by
  rw [exec, get_bind_apply, if_pos hexited] at hrun
  cases hrun
  exact ⟨rfl, rfl⟩

theorem map_ok {α β : Type} {f : α → β} {m : OpenRoutine α} {b : β}
    (h : (f <$> m) s = .ok (b, s')) : ∃ a, m s = .ok (a, s') ∧ f a = b := by
  rw [map_apply] at h
  cases hm : m s with
  | error e => simp [hm] at h
  | ok r =>
    rw [hm] at h
    cases h
    exact ⟨r.1, rfl, rfl⟩

theorem not_opened {call : Call} {r : Int} (h : ∀ found, call ≠ .openFileOrDir found) (P : Nat)
    (n : Int) : ¬ Opened ((current, call), r) P n := by
  rintro ⟨⟨found, hcall⟩, -⟩
  exact h found (Prod.mk.inj hcall).2

/-- A process that has exited has nothing open. -/
theorem Inv.not_hasOpen (h : Inv trace s l) (hexited : s.exited current = true) :
    ¬ HasOpen trace current fdNum := by
  rw [← h.hasOpen]
  rintro ⟨p, hp, hfd⟩
  obtain ⟨fd, hsome⟩ := h.table.fds p hp
  have hfalse := h.alive p hp fd hsome
  rw [((isFd_iff hsome).mp hfd).2, hexited] at hfalse
  nomatch hfalse

theorem Inv.close {r : Int} (h : Inv trace s l)
    (hrun : closeOpenFileOrDir calls current fdNum s = .ok ((), s')) :
    ∃ l', Inv (trace ++ [((current, .closeOpenFileOrDir fdNum), r)]) s' l' := by
  have hopened : ∀ P n, ¬ Opened ((current, .closeOpenFileOrDir fdNum), r) P n := not_opened nofun
  have hclosed : ∀ P n, Closed ((current, .closeOpenFileOrDir fdNum), r) P n ↔
      P = current ∧ n = fdNum := by
    intro P n
    constructor
    · rintro (hcall | ⟨pages, hcall⟩)
      · cases hcall
        exact ⟨rfl, rfl⟩
      · nomatch hcall
    · rintro ⟨rfl, rfl⟩
      exact .inl rfl
  rcases closeOpenFileOrDir_cases h.table hrun with
    ⟨hnone, rfl⟩ | ⟨xs, p, ys, rfl, hmatch, htable, hfds, hcount, hexited⟩
  · refine ⟨l, h.sameTable (refl_of SameTable _) hopened fun P n hopen hclose => ?_⟩
    obtain ⟨rfl, rfl⟩ := (hclosed P n).mp hclose
    obtain ⟨p, hp, hfd⟩ := (h.hasOpen P n).mpr hopen
    rw [hnone p hp] at hfd
    nomatch hfd
  · have hmem : ∀ q ∈ xs ++ ys, q ∈ xs ++ p :: ys := fun q hq =>
      List.mem_append.mpr ((List.mem_append.mp hq).imp_right (List.mem_cons_of_mem _))
    refine ⟨xs ++ ys, h.kept hmem htable hfds hcount (fun q hq fd hfd => ?_) hopened fun P n => ?_⟩
    · rw [hexited]
      exact h.alive q (hmem q hq) fd hfd
    · obtain ⟨fd, hfd⟩ := h.table.fds p (by simp)
      obtain ⟨hnum, howner⟩ := (isFd_iff hfd).mp hmatch
      rw [← h.hasOpen, hclosed]
      constructor
      · rintro ⟨q, hq, hq'⟩
        refine ⟨⟨q, hmem q hq, hq'⟩, ?_⟩
        rintro ⟨rfl, rfl⟩
        -- no other descriptor has the number
        obtain ⟨fd', hfd'⟩ := h.table.fds q (hmem q hq)
        have heq := h.unique q (hmem q hq) p (by simp) fd' fd hfd' hfd
          (((isFd_iff hfd').mp hq').1.trans hnum.symm)
        have hnodup := h.table.nodup
        rw [List.nodup_append, List.nodup_cons] at hnodup
        rcases List.mem_append.mp hq with hq | hq
        · exact hnodup.2.2 q hq p List.mem_cons_self heq
        · exact hnodup.2.1.1 (heq ▸ hq)
      · rintro ⟨⟨q, hq, hq'⟩, hnot⟩
        refine ⟨q, ?_, hq'⟩
        rcases List.mem_append.mp hq with hq | hq
        · exact List.mem_append_left _ hq
        · rcases List.mem_cons.mp hq with rfl | hq
          · obtain ⟨hnum', howner'⟩ := (isFd_iff hfd).mp hq'
            exact absurd ⟨howner'.symm.trans howner, hnum'.symm.trans hnum⟩ hnot
          · exact List.mem_append_right _ hq

theorem Inv.exit {pages : Nat → List (Int × List UInt8)} {r : Int} (h : Inv trace s l)
    (hrun : threadExit calls current pages s = .ok ((), s')) :
    ∃ l', Inv (trace ++ [((current, .threadExit pages), r)]) s' l' := by
  rw [threadExit] at hrun
  obtain ⟨⟨⟩, s1, hclose, hrest⟩ := bind_ok.mp hrun
  have hswept := closeAllFilesAndDir_swept h.table hclose
  rw [get_bind_apply] at hrest
  obtain ⟨⟨⟩, s2, hfile, hexit⟩ := bind_ok.mp hrest
  have hsame := fileClose_sameTable _ _ _ _ hfile
  cases hexit
  have htable := hswept.table
  have hfds := hswept.fds
  rw [List.append_nil] at htable hfds
  have hmem : ∀ q ∈ l.filter (fun p => !s.isOwned current p), q ∈ l ∧ s.isOwned current q = false := by
    intro q hq
    obtain ⟨hq, hnot⟩ := List.mem_filter.mp hq
    exact ⟨hq, by simpa using hnot⟩
  refine ⟨l.filter fun p => !s.isOwned current p, h.kept (fun q hq => (hmem q hq).1)
    ⟨(htable.sameTable hsame).spells, (htable.sameTable hsame).fds, (htable.sameTable hsame).lt⟩
    (fun q hq => ?_) (hsame.fdCount.trans hswept.fdCount) (fun q hq fd hfd => ?_)
    (not_opened nofun) fun P n => ?_⟩
  · change s2.fds q = s.fds q
    rw [hsame.fds, hfds q hq]
  · obtain ⟨hq, hnot⟩ := hmem q hq
    have hne : fd.owner ≠ current := fun heq => by
      rw [(isOwned_iff hfd).mpr heq] at hnot
      nomatch hnot
    change Function.update s2.exited current true fd.owner = false
    rw [Function.update_of_ne hne, hsame.exited, hswept.exited]
    exact h.alive q hq fd hfd
  · have hclosed : Closed ((current, .threadExit pages), r) P n ↔ P = current := by
      constructor
      · rintro (hcall | ⟨pages', hcall⟩)
        · nomatch hcall
        · cases hcall
          rfl
      · rintro rfl
        exact .inr ⟨pages, rfl⟩
    rw [← h.hasOpen, hclosed]
    constructor
    · rintro ⟨q, hq, hq'⟩
      obtain ⟨hql, hnot⟩ := hmem q hq
      refine ⟨⟨q, hql, hq'⟩, ?_⟩
      rintro rfl
      obtain ⟨fd, hfd⟩ := h.table.fds q hql
      rw [(isOwned_iff hfd).mpr ((isFd_iff hfd).mp hq').2] at hnot
      nomatch hnot
    · rintro ⟨⟨q, hq, hq'⟩, hne⟩
      obtain ⟨fd, hfd⟩ := h.table.fds q hq
      refine ⟨q, List.mem_filter.mpr ⟨hq, ?_⟩, hq'⟩
      have hnot : ¬ s.isOwned current q = true := fun howned =>
        hne (((isFd_iff hfd).mp hq').2.symm.trans ((isOwned_iff hfd).mp howned))
      simpa using hnot

/-- A call keeps the invariant. -/
theorem Inv.step {call : Call} {r : Int} (h : Inv trace s l)
    (hfew : (handedOut trace).length < 2 ^ 31)
    (hrun : exec calls input (current, call) s = .ok (r, s')) :
    ∃ l', Inv (trace ++ [((current, call), r)]) s' l' := by
  by_cases hexited : s.exited current = true
  · obtain ⟨rfl, rfl⟩ := exec_exited hexited hrun
    refine ⟨l, h.sameTable (refl_of SameTable _) (fun P n => ?_) fun P n hopen => ?_⟩
    · rintro ⟨-, hn, hne⟩
      exact hne hn.symm
    · rintro (hcall | ⟨pages, hcall⟩) <;>
      · cases hcall
        exact h.not_hasOpen hexited hopen
  · have halive : s.exited current = false := by simpa using hexited
    cases hchanges : call.changesTable with
    | false =>
      have hsame := exec_sameTable hchanges s r s' hrun
      refine ⟨l, h.sameTable hsame (not_opened ?_) fun P n _ => ?_⟩
      · rintro found rfl
        nomatch hchanges
      · rintro (hcall | ⟨pages, hcall⟩) <;>
        · obtain ⟨-, rfl⟩ := Prod.mk.inj hcall
          nomatch hchanges
    | true =>
      rw [exec, get_bind_apply, if_neg hexited] at hrun
      cases call with
      | openFileOrDir found =>
        rcases openFileOrDir_added h.table hrun with ⟨rfl, rfl⟩ | ⟨p, fd, hadded⟩
        · refine ⟨l, h.sameTable (refl_of SameTable _) (fun P n => ?_) fun P n _ => ?_⟩
          · rintro ⟨-, hn, hne⟩
            exact hne hn.symm
          · rintro (hcall | ⟨pages, hcall⟩) <;> nomatch hcall
        · refine ⟨p :: l, ?_⟩
          rw [← hadded.fdNum]
          exact h.opened hfew hadded.next hadded.owner hadded.fresh hadded.table hadded.fds
            hadded.fdCount hadded.exited halive
      | closeOpenFileOrDir fdNum =>
        obtain ⟨⟨⟩, hclose, -⟩ := map_ok hrun
        exact h.close hclose
      | threadExit pages =>
        obtain ⟨⟨⟩, hexit, -⟩ := map_ok hrun
        exact h.exit hexit
      | _ => nomatch hchanges

/-! ### Runs -/

theorem init_table (fs : FileSys) (memory : Nat → Nat → UInt8) : (init fs memory).Table [] where
  spells := by
    refine ⟨List.isChain_pair.mpr ⟨rfl, rfl⟩, by simp, fun a ha => ?_, fun a ha => ?_⟩
    · obtain rfl := Option.some.inj ha
      rfl
    · obtain rfl := Option.some.inj ha
      rfl
  fds := nofun
  lt := nofun

theorem init_inv (fs : FileSys) (memory : Nat → Nat → UInt8) : Inv [] (init fs memory) [] where
  table := init_table fs memory
  fdCount := rfl
  numbers := rfl
  number := nofun
  unique := nofun
  hasOpen current fdNum := by
    refine iff_of_false ?_ hasOpen_nil
    rintro ⟨p, hp, -⟩
    nomatch hp
  alive := nofun

theorem length_handedOut_append (trace trace' : List Event) :
    (handedOut trace).length ≤ (handedOut (trace ++ trace')).length := by
  rw [handedOut, handedOut, List.filterMap_append, List.length_append]
  exact Nat.le_add_right _ _

/-- The invariant holds after every run. -/
theorem inv_of_run {requests : List (Nat × Call)} {results : List Int} {fs : FileSys}
    {memory : Nat → Nat → UInt8}
    (hrun : execAll (exec calls input) requests (init fs memory) = .ok (results, s))
    (hfew : (handedOut (requests.zip results)).length < 2 ^ 31) :
    requests.length = results.length ∧ ∃ l, Inv (requests.zip results) s l := by
  induction requests using List.reverseRecOn generalizing results s with
  | nil =>
    cases hrun
    exact ⟨rfl, [], init_inv fs memory⟩
  | append_singleton requests request ih =>
    obtain ⟨results', last, s1, hbefore, hlast, rfl⟩ := execAll_append_ok.mp hrun
    obtain ⟨r, rest, s2, hexec, hnil, rfl⟩ := execAll_cons_ok.mp hlast
    cases hnil
    have hlength : requests.length = results'.length := execAll_length hbefore
    rw [List.zip_append hlength] at hfew ⊢
    have hshort := (length_handedOut_append _ _).trans_lt hfew
    obtain ⟨-, l, hinv⟩ := ih hbefore hshort
    exact ⟨by simp [hlength], hinv.step hshort hexec⟩

theorem Inv.isolated (h : Inv trace s l) (hfew : (handedOut trace).length < 2 ^ 31) :
    Isolated calls trace s where
  new := by
    rw [h.numbers]
    refine List.Nodup.map_on (fun j hj k hk heq => ?_) List.nodup_range
    rw [List.mem_range] at hj hk
    exact fdNumAt_inj (by omega) (by omega) heq
  found current fdNum := by
    refine ⟨_, getFileDescriptor_eq h.table current fdNum, ?_, fun p hp => List.find?_some hp⟩
    rw [List.find?_isSome, ← h.hasOpen]
    simp only [List.mem_reverse]
  exit current pages s' hrun := by
    have hswept := closeAllFilesAndDir_swept h.table hrun
    have htable := hswept.table
    have hfds := hswept.fds
    rw [List.append_nil] at htable hfds
    exact ⟨l, h.table, htable, hfds⟩
  others current fdNum hnot := by
    have hnone : l.reverse.find? (s.isFd current fdNum) = none := by
      rw [List.find?_eq_none]
      intro p hp hfd
      exact hnot ((h.hasOpen current fdNum).mp ⟨p, List.mem_reverse.mp hp, hfd⟩)
    rw [closeOpenFileOrDir, bind_of_ok (getFileDescriptor_eq h.table current fdNum), hnone]
    rfl

/-- As long as fewer than `2 ^ 31` opens have succeeded, no number is handed out twice, a process finds
exactly the descriptors that it has opened and not closed, an exit takes out those of the process and
no others, and a process that does not have a number open changes nothing by closing it. -/
theorem descriptors_isolated (calls : FreeMapCalls) (input : Nat → UInt8) (fs : FileSys)
    (memory : Nat → Nat → UInt8) (requests : List (Nat × Call)) (results : List Int) (s : State)
    (hrun : execAll (exec calls input) requests (init fs memory) = .ok (results, s))
    (hfew : (handedOut (requests.zip results)).length < 2 ^ 31) :
    Isolated calls (requests.zip results) s := by
  obtain ⟨-, l, hinv⟩ := inv_of_run hrun hfew
  exact hinv.isolated hfew

/-- What a run returns, if it does not stop with a fault. -/
def resultsOf (calls : FreeMapCalls) (input : Nat → UInt8) (requests : List (Nat × Call))
    (s : State) : Option (List Int) :=
  match execAll (exec calls input) requests s with
  | .ok (results, _) => some results
  | .error _ => none

theorem run_of_resultsOf {requests : List (Nat × Call)} {results : List Int}
    (h : resultsOf calls input requests s = some results) :
    ∃ s', execAll (exec calls input) requests s = .ok (results, s') := by
  unfold resultsOf at h
  split at h
  · rename_i hrun
    obtain rfl := Option.some.inj h
    exact ⟨_, hrun⟩
  · nomatch h

/-- A device of 16 sectors of zeros, with nothing open. -/
def blankFs : FileSys :=
  FileSys.init (fun _ => SectorData.zeros) ⟨16, by decide, fun _ => SectorData.zeros⟩

/-- Process 1 opens a file and process 2 a directory; process 2 tries to close the file, process 1
closes it, and process 2 exits. -/
def twoProcesses : List (Nat × Call) :=
  [(1, .openFileOrDir (.file 5)), (2, .openFileOrDir (.dir 1)), (1, .openFileOrDir .nothing),
    (2, .closeOpenFileOrDir 2), (1, .closeOpenFileOrDir 2), (2, .threadExit fun _ => [])]

theorem descriptors_isolated_twoProcesses :
    ∃ s, Isolated (freeMapCalls 0) (twoProcesses.zip [2, 3, -1, 0, 0, 0]) s := by
  have hresults : resultsOf (freeMapCalls 0) (fun _ => 0) twoProcesses
      (init blankFs fun _ _ => 0) = some [2, 3, -1, 0, 0, 0] := by decide +kernel
  obtain ⟨s, hrun⟩ := run_of_resultsOf hresults
  exact ⟨s, descriptors_isolated _ _ _ _ _ _ _ hrun (by decide)⟩

end OpenFiles

end Pintos
