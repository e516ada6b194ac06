import Pintos.Devices.Block
import Pintos.Library.DoublyLinked
import Pintos.Library.Runs
import Pintos.Library.Weakest

/-! Rearranging doubly linked lists (`lib/kernel/list.c`): `list_reverse`, `list_splice` and
`list_sort`.  A list is the cells from its head to its tail, both of which are no elements.  The
loops get fuel; a loop that has used it up spins. -/

namespace Pintos

namespace KernelList

open Routine (wp)

variable {α : Type}

/-- `struct list`. -/
structure ListHeader (α : Type) where
  head : α
  tail : α

abbrev ListRoutine (α : Type) := Routine Fault (Links α)

section

variable [DecidableEq α]

/-- `is_head`. -/
def isHead (m : Links α) (elem : α) : Bool := m.prev elem = none ∧ m.next elem ≠ none

/-- `is_interior`. -/
def isInterior (m : Links α) (elem : α) : Bool := m.prev elem ≠ none ∧ m.next elem ≠ none

/-- `is_tail`. -/
def isTail (m : Links α) (elem : α) : Bool := m.prev elem ≠ none ∧ m.next elem = none

def assertThat (condition : String) (c : Bool) : ListRoutine α Unit :=
  if c then pure () else throw (.assertion condition)

/-- `elem->next`, to be used as a cell. -/
def next (elem : α) : ListRoutine α α := do
  let m ← get
  match m.next elem with
  | some e => pure e
  | none => throw (.undefined "null pointer")

/-- `elem->prev`, to be used as a cell. -/
def prev (elem : α) : ListRoutine α α := do
  let m ← get
  match m.prev elem with
  | some e => pure e
  | none => throw (.undefined "null pointer")

def setNext (elem : α) (e : Option α) : ListRoutine α Unit :=
  modify fun m => { m with next := Function.update m.next elem e }

def setPrev (elem : α) (e : Option α) : ListRoutine α Unit :=
  modify fun m => { m with prev := Function.update m.prev elem e }

/-- `list_begin`. -/
def listBegin (list : ListHeader α) : ListRoutine α α := next list.head

/-- `list_end`. -/
def listEnd (list : ListHeader α) : α := list.tail

/-- `list_next`. -/
def listNext (elem : α) : ListRoutine α α := do
  let m ← get
  assertThat "is_head (elem) || is_interior (elem)" (isHead m elem || isInterior m elem)
  next elem

/-- `list_prev`. -/
def listPrev (elem : α) : ListRoutine α α := do
  let m ← get
  assertThat "is_interior (elem) || is_tail (elem)" (isInterior m elem || isTail m elem)
  prev elem

/-- `list_empty`. -/
def listEmpty (list : ListHeader α) : ListRoutine α Bool := do
  let first ← listBegin list
  pure (first = listEnd list)

/-- `list_splice`. -/
def listSplice (before first last : α) : ListRoutine α Unit := do
  let m ← get
  assertThat "is_interior (before) || is_tail (before)" (isInterior m before || isTail m before)
  if first = last then pure ()
  else do
    let last ← listPrev last
    let m ← get
    assertThat "is_interior (first)" (isInterior m first)
    assertThat "is_interior (last)" (isInterior m last)
    -- remove `first` to `last` from their list
    setNext (← prev first) (m.next last)
    setPrev (← next last) (m.prev first)
    -- and put them into the new one
    let m ← get
    setPrev first (m.prev before)
    setNext last (some before)
    setNext (← prev before) (some first)
    setPrev before (some last)

/-- `swap (&elem->prev, &elem->next)`. -/
def swapLinks (elem : α) : ListRoutine α Unit :=
  modify fun m => {
    prev := Function.update m.prev elem (m.next elem)
    next := Function.update m.next elem (m.prev elem) }

/-- The loop of `list_reverse`. -/
def reverseLoop (list : ListHeader α) : Nat → α → ListRoutine α Unit
  | 0, _ => throw .spin
  | fuel + 1, e =>
    if e = listEnd list then pure ()
    else do
      swapLinks e
      let e ← prev e
      reverseLoop list fuel e

/-- The swaps after the loop of `list_reverse`. -/
def swapEnds (list : ListHeader α) : ListRoutine α Unit := do
  -- `swap (&list->head.next, &list->tail.prev)`
  let m ← get
  setNext list.head (m.prev list.tail)
  setPrev list.tail (m.next list.head)
  -- `swap (&list->head.next->prev, &list->tail.prev->next)`
  let first ← next list.head
  let last ← prev list.tail
  let m ← get
  setPrev first (m.next last)
  setNext last (m.prev first)

/-- `list_reverse`. -/
def listReverse (fuel : Nat) (list : ListHeader α) : ListRoutine α Unit := do
  if ← listEmpty list then pure ()
  else do
    reverseLoop list fuel (← listBegin list)
    swapEnds list

section

variable (less : α → α → Bool)

/-- The loop of `is_sorted`. -/
def sortedLoop (b : α) : Nat → α → ListRoutine α Bool
  | 0, _ => throw .spin
  | fuel + 1, a => do
    let a ← listNext a
    if a ≠ b then do
      if less a (← listPrev a) then pure false else sortedLoop b fuel a
    else pure true

/-- `is_sorted`. -/
def isSorted (fuel : Nat) (a b : α) : ListRoutine α Bool :=
  if a ≠ b then sortedLoop less b fuel a else pure true

/-- The loop of `find_end_of_run`. -/
def endOfRunLoop (b : α) : Nat → α → ListRoutine α α
  | 0, _ => throw .spin
  | fuel + 1, a => do
    let a ← listNext a
    if a ≠ b then do
      if less a (← listPrev a) then pure a else endOfRunLoop b fuel a
    else pure a

/-- `find_end_of_run`. -/
def findEndOfRun (fuel : Nat) (a b : α) : ListRoutine α α := do
  assertThat "a != b" (a ≠ b)
  endOfRunLoop less b fuel a

/-- The loop of `inplace_merge`. -/
def mergeLoop (b1 : α) : Nat → α → α → ListRoutine α Unit
  | 0, _, _ => throw .spin
  | fuel + 1, a0, a1b0 =>
    if a0 ≠ a1b0 ∧ a1b0 ≠ b1 then
      if ¬ less a1b0 a0 then do
        let a0 ← listNext a0
        mergeLoop b1 fuel a0 a1b0
      else do
        let a1b0 ← listNext a1b0
        listSplice a0 (← listPrev a1b0) a1b0
        mergeLoop b1 fuel a0 a1b0
    else pure ()

/-- `inplace_merge`. -/
def inplaceMerge (fuel : Nat) (a0 a1b0 b1 : α) : ListRoutine α Unit := do
  assertThat "is_sorted (a0, a1b0, less, aux)" (← isSorted less fuel a0 a1b0)
  assertThat "is_sorted (a1b0, b1, less, aux)" (← isSorted less fuel a1b0 b1)
  mergeLoop less b1 fuel a0 a1b0

/-- One pass over the list in `list_sort`, and `output_run_cnt` after it. -/
def sortPass (list : ListHeader α) (fuel : Nat) : Nat → α → Nat → ListRoutine α Nat
  | 0, _, _ => throw .spin
  | n + 1, a0, outputRunCnt =>
    if a0 ≠ listEnd list then do
      let a1b0 ← findEndOfRun less fuel a0 (listEnd list)
      if a1b0 = listEnd list then pure (outputRunCnt + 1)
      else do
        let b1 ← findEndOfRun less fuel a1b0 (listEnd list)
        inplaceMerge less fuel a0 a1b0 b1
        sortPass list fuel n b1 (outputRunCnt + 1)
    else pure outputRunCnt

/-- The passes of `list_sort`. -/
def sortLoop (list : ListHeader α) (fuel : Nat) : Nat → ListRoutine α Unit
  | 0 => throw .spin
  | n + 1 => do
    let outputRunCnt ← sortPass less list fuel fuel (← listBegin list) 0
    if 1 < outputRunCnt then sortLoop list fuel n else pure ()

/-- `list_sort`. -/
def listSort (fuel : Nat) (list : ListHeader α) : ListRoutine α Unit := do
  sortLoop less list fuel fuel
  assertThat "is_sorted (list_begin (list), list_end (list), less, aux)"
    (← isSorted less fuel (← listBegin list) (listEnd list))

end

end

/-! ### Reading links -/

variable {m m' : Links α} {xs ys l r us vs : List α} {a b c first last before : α}

theorem next_ok (h : m.Before a b) : next a m = .ok (b, m) := by
  rw [next, Routine.get_bind_apply, h.1]
  rfl

theorem prev_ok (h : m.Before a b) : prev b m = .ok (a, m) := by
  rw [prev, Routine.get_bind_apply, h.2]
  rfl

theorem assertThat_ok {condition : String} {c : Bool} (h : c = true) :
    assertThat condition c m = .ok ((), m) := by
  rw [assertThat, if_pos h]
  rfl

theorem listNext_ok (h : m.Before a b) : listNext a m = .ok (b, m) := by
  have hcheck : (isHead m a || isInterior m a) = true := by
    simp only [isHead, isInterior, h.1]
    by_cases hprev : m.prev a = none <;> simp [hprev]
  rw [listNext, Routine.get_bind_apply, Routine.bind_of_ok (assertThat_ok hcheck), next_ok h]

theorem listPrev_ok (h : m.Before a b) : listPrev b m = .ok (a, m) := by
  have hcheck : (isInterior m b || isTail m b) = true := by
    simp only [isInterior, isTail, h.2]
    by_cases hnext : m.next b = none <;> simp [hnext]
  rw [listPrev, Routine.get_bind_apply, Routine.bind_of_ok (assertThat_ok hcheck), prev_ok h]

theorem listBegin_ok {list : ListHeader α} (h : m.Spells (list.head :: a :: ys)) :
    listBegin list m = .ok (a, m) :=
  next_ok (List.isChain_cons_cons.mp h.chain).1

/-! ### Moving a range -/

/-- Only cells of `l` have other links than before. -/
def SameOutside (l : List α) (m m' : Links α) : Prop :=
  ∀ c ∉ l, m'.prev c = m.prev c ∧ m'.next c = m.next c

theorem SameOutside.refl (l : List α) (m : Links α) : SameOutside l m m := fun _ _ => ⟨rfl, rfl⟩

theorem SameOutside.trans {m'' : Links α} (h : SameOutside l m m') (h' : SameOutside l m' m'') :
    SameOutside l m m'' :=
  fun c hc => ⟨(h' c hc).1.trans (h c hc).1, (h' c hc).2.trans (h c hc).2⟩

theorem SameOutside.mono (h : SameOutside l m m') (hsub : ∀ c ∈ l, c ∈ r) : SameOutside r m m' :=
  fun c hc => h c fun hmem => hc (hsub c hmem)

/-- Other lists are as before. -/
theorem SameOutside.spells (h : SameOutside l m m') (hr : m.Spells r) (hdisjoint : l.Disjoint r) :
    m'.Spells r :=
  hr.congr (fun c hc => (h c fun hmem => hdisjoint hmem hc).1)
    fun c hc => (h c fun hmem => hdisjoint hmem hc).2

variable [DecidableEq α]

theorem sameOutside_link (ha : a ∈ l) (hb : b ∈ l) : SameOutside l m (m.link a b) := by
  intro c hc
  refine ⟨Function.update_of_ne ?_ .., Function.update_of_ne ?_ ..⟩
  · rintro rfl
    exact hc hb
  · rintro rfl
    exact hc ha

/-- The links after `list_splice` of a range that is not empty. -/
theorem listSplice_links {q f e : α} (haf : m.Before a f) (heb : m.Before e b)
    (hf : m.next f ≠ none) (he : m.prev e ≠ none) (hbefore : m.prev before ≠ none)
    (hq : (m.link a b).Before q before) (hfb : f ≠ b) (hea : e ≠ a) (hef : before ≠ f)
    (hqe : q ≠ e) :
    listSplice before f b m = .ok ((), ((m.link a b).link q f).link e before) := by
  have hcheck : (isInterior m before || isTail m before) = true := by
    simp only [isInterior, isTail]
    by_cases hnext : m.next before = none <;> simp [hnext, hbefore]
  have hinteriorF : isInterior m f = true := by
    simp only [isInterior, haf.2]
    simp [hf]
  have hinteriorE : isInterior m e = true := by
    simp only [isInterior, heb.1]
    simp [he]
  rw [listSplice, Routine.get_bind_apply, Routine.bind_of_ok (assertThat_ok hcheck), if_neg hfb,
    Routine.bind_of_ok (listPrev_ok heb), Routine.get_bind_apply,
    Routine.bind_of_ok (assertThat_ok hinteriorF), Routine.bind_of_ok (assertThat_ok hinteriorE),
    Routine.bind_of_ok (prev_ok haf), setNext, Routine.modify_bind_apply, heb.1, haf.2]
  have hnextE : KernelList.next e { m with next := Function.update m.next a (some b) } =
      .ok (b, { m with next := Function.update m.next a (some b) }) := by
    rw [KernelList.next, Routine.get_bind_apply]
    dsimp only
    rw [Function.update_of_ne hea, heb.1]
    rfl
  rw [Routine.bind_of_ok hnextE, setPrev, Routine.modify_bind_apply, Routine.get_bind_apply]
  have hm1 : ({ prev := Function.update m.prev b (some a)
                next := Function.update m.next a (some b) } : Links α) = m.link a b := rfl
  rw [hm1, setPrev, Routine.modify_bind_apply, setNext, Routine.modify_bind_apply, hq.2]
  generalize hm2 : ({
    prev := Function.update (m.link a b).prev f (some q)
    next := Function.update (m.link a b).next e (some before) } : Links α) = m2
  have hprevBefore : KernelList.prev before m2 = .ok (q, m2) := by
    rw [KernelList.prev, Routine.get_bind_apply, ← hm2]
    dsimp only
    rw [Function.update_of_ne hef, hq.2]
    rfl
  rw [Routine.bind_of_ok hprevBefore, setNext, Routine.modify_bind_apply, setPrev,
    Routine.modify_apply, ← hm2]
  dsimp only
  rw [Function.update_comm hqe.symm]
  rfl

omit [DecidableEq α] in
theorem prev_ne_none (h : m.Spells l) (hc : c ∈ l) (hfirst : l.head? ≠ some c) :
    m.prev c ≠ none := by
  obtain ⟨pre, post, rfl⟩ := List.append_of_mem hc
  rcases pre.eq_nil_or_concat with rfl | ⟨pre, d, rfl⟩
  · exact absurd rfl hfirst
  · rw [List.concat_eq_append, List.append_assoc] at h
    rw [h.before.2]
    nofun

omit [DecidableEq α] in
theorem next_ne_none (h : m.Spells l) (hc : c ∈ l) (hlast : l.getLast? ≠ some c) :
    m.next c ≠ none := by
  obtain ⟨pre, post, rfl⟩ := List.append_of_mem hc
  cases post with
  | nil => exact absurd List.getLast?_concat hlast
  | cons d post =>
    rw [h.before.1]
    nofun

/-- The range is taken out of its list, and put in between two cells that are then linked. -/
theorem splice_into {f q : α} (h : m.Spells (xs ++ a :: (r ++ b :: ys))) (hfirst : r.head? = some f)
    (hplace : (m.link a b).Spells (us ++ q :: before :: vs))
    (hout : ∀ c ∈ us ++ q :: before :: vs, c ∉ r) (hbefore : m.prev before ≠ none) :
    ∃ m', listSplice before f b m = .ok ((), m') ∧
      m'.Spells (us ++ q :: (r ++ before :: vs)) ∧
      SameOutside (us ++ q :: (r ++ before :: vs)) (m.link a b) m' := by
  obtain ⟨-, hchain⟩ := h.cut
  have hdistinct := h.nodup
  simp only [List.nodup_append, List.nodup_cons, List.mem_append, List.mem_cons, not_or]
    at hdistinct
  have hplaceNodup := hplace.nodup
  simp only [List.nodup_append, List.nodup_cons, List.mem_cons, not_or] at hplaceNodup
  have hnodup : (us ++ q :: (r ++ before :: vs)).Nodup := by
    simp only [List.mem_append, List.mem_cons] at hout
    simp only [List.nodup_append, List.nodup_cons, List.mem_append, List.mem_cons, not_or]
    grind
  obtain ⟨r', rfl⟩ : ∃ r', r = f :: r' := by
    cases r with
    | nil => nomatch hfirst
    | cons c r' =>
      cases hfirst
      exact ⟨r', rfl⟩
  obtain ⟨init, e, he⟩ : ∃ init e, f :: r' = init ++ [e] :=
    ⟨_, _, (List.dropLast_append_getLast (List.cons_ne_nil f r')).symm⟩
  have hef : e ∈ f :: r' := by simp [he]
  have haf : m.Before a f := h.before
  have heb : m.Before e b := by
    have h' := h
    rw [he] at h'
    have hsplit : xs ++ a :: (init ++ [e] ++ b :: ys) = (xs ++ a :: init) ++ e :: b :: ys := by simp
    exact (hsplit ▸ h').before
  have hqf : q ∉ f :: r' := hout q (by simp)
  have hbf : before ∉ f :: r' := hout before (by simp)
  refine ⟨_, listSplice_links haf heb ?_ ?_ hbefore hplace.before ?_ ?_ ?_ ?_,
    hplace.paste hchain rfl (by rw [he, List.getLast?_concat]) hnodup, ?_⟩
  · refine next_ne_none h (by simp) ?_
    have hend : (xs ++ a :: (f :: r' ++ b :: ys)).getLast? = (b :: ys).getLast? := by
      have hsplit : xs ++ a :: (f :: r' ++ b :: ys) = (xs ++ a :: f :: r') ++ b :: ys := by simp
      rw [hsplit, List.getLast?_append_of_ne_nil _ (List.cons_ne_nil b ys)]
    rw [hend]
    intro heq
    have := List.mem_of_mem_getLast? heq
    grind
  · refine prev_ne_none h (by simp only [List.mem_append, List.mem_cons] at hef ⊢; tauto) ?_
    have hbegin : (xs ++ a :: (f :: r' ++ b :: ys)).head? = (xs ++ [a]).head? := by
      cases xs <;> rfl
    rw [hbegin]
    intro heq
    have := List.mem_of_mem_head? heq
    simp only [List.mem_append, List.mem_cons, List.not_mem_nil, or_false] at this
    grind
  · grind
  · grind
  · rintro rfl
    exact hbf List.mem_cons_self
  · rintro rfl
    exact hqf hef
  · refine (sameOutside_link (by simp) (by simp)).trans (sameOutside_link ?_ (by simp))
    simp only [List.mem_append, List.mem_cons] at hef ⊢
    tauto

omit [DecidableEq α] in
/-- The range may be anywhere in the list. -/
theorem range_perm (xs : List α) (a : α) (r ys : List α) :
    (xs ++ a :: (r ++ ys)).Perm (r ++ (xs ++ a :: ys)) := by
  have hperm := List.perm_append_comm_assoc (xs ++ [a]) r ys
  simpa using hperm

/-- `list_splice` within one list. -/
theorem listSplice_same {f q : α} (h : m.Spells (xs ++ a :: (r ++ b :: ys)))
    (hfirst : r.head? = some f) (hplace : xs ++ a :: b :: ys = us ++ q :: before :: vs) :
    ∃ m', listSplice before f b m = .ok ((), m') ∧
      m'.Spells (us ++ q :: (r ++ before :: vs)) ∧
      SameOutside (xs ++ a :: (r ++ b :: ys)) m m' := by
  have hcut := h.cut.1
  rw [hplace] at hcut
  have hapart : (r ++ (xs ++ a :: b :: ys)).Nodup := (range_perm ..).nodup_iff.mp h.nodup
  have hmem : ∀ c ∈ us ++ q :: (r ++ before :: vs), c ∈ xs ++ a :: (r ++ b :: ys) := by
    intro c hc
    rw [(range_perm us q r _).mem_iff, ← hplace] at hc
    exact (range_perm xs a r _).mem_iff.mpr hc
  have hout : ∀ c ∈ us ++ q :: before :: vs, c ∉ r := by
    rw [← hplace]
    exact fun c hc hr => (List.nodup_append.mp hapart).2.2 c hr c hc rfl
  have hbefore : m.prev before ≠ none := by
    refine prev_ne_none h (hmem before (by simp)) fun heq => ?_
    have hbegin : (xs ++ a :: (r ++ b :: ys)).head? = (xs ++ a :: b :: ys).head? := by
      cases xs <;> rfl
    rw [hbegin, hplace] at heq
    have hnodup := hcut.nodup
    cases us with
    | nil =>
      obtain rfl : q = before := Option.some.inj heq
      simp at hnodup
    | cons u us =>
      obtain rfl : u = before := Option.some.inj heq
      simp at hnodup
  obtain ⟨m', hrun, hspells, hsame⟩ := splice_into h hfirst hcut hout hbefore
  refine ⟨m', hrun, hspells, SameOutside.trans (sameOutside_link ?_ ?_) (hsame.mono hmem)⟩
  · simp
  · simp

/-- `list_splice` from one list into another. -/
theorem listSplice_other {f q : α} (h : m.Spells (xs ++ a :: (r ++ b :: ys)))
    (hfirst : r.head? = some f) (h' : m.Spells (us ++ q :: before :: vs))
    (hdisjoint : (xs ++ a :: (r ++ b :: ys)).Disjoint (us ++ q :: before :: vs)) :
    ∃ m', listSplice before f b m = .ok ((), m') ∧ m'.Spells (xs ++ a :: b :: ys) ∧
      m'.Spells (us ++ q :: (r ++ before :: vs)) ∧
      SameOutside (xs ++ a :: (r ++ b :: ys) ++ (us ++ q :: before :: vs)) m m' := by
  have hcut := h.cut.1
  have hlink : SameOutside (xs ++ a :: (r ++ b :: ys)) m (m.link a b) :=
    sameOutside_link (by simp) (by simp)
  have hout : ∀ c ∈ us ++ q :: before :: vs, c ∉ r := fun c hc hr =>
    hdisjoint (by simp [hr]) hc
  obtain ⟨m', hrun, hspells, hsame⟩ := splice_into h hfirst (hlink.spells h' hdisjoint) hout (by
    rw [h'.before.2]
    nofun)
  have hapart : (r ++ (xs ++ a :: b :: ys)).Nodup := (range_perm ..).nodup_iff.mp h.nodup
  refine ⟨m', hrun, hsame.spells hcut fun c hc hc' => ?_, hspells, (hlink.mono ?_).trans
    (hsame.mono ?_)⟩
  · rw [(range_perm us q r _).mem_iff, List.mem_append] at hc
    rcases hc with hr | hc
    · exact (List.nodup_append.mp hapart).2.2 c hr c hc' rfl
    · refine hdisjoint ?_ hc
      rw [(range_perm xs a r _).mem_iff]
      exact List.mem_append_right _ hc'
  · exact fun c hc => List.mem_append_left _ hc
  · intro c hc
    rw [(range_perm us q r _).mem_iff, List.mem_append] at hc
    rcases hc with hr | hc
    · exact List.mem_append_left _ (by simp [hr])
    · exact List.mem_append_right _ hc

/-! ### Runs and merging -/

section

variable {less : α → α → Bool} {fuel : Nat}

theorem sortedLoop_ok (h : m.Spells (xs ++ a :: (l ++ b :: ys)))
    (hsorted : (a :: l).IsChain fun c d => ¬ less d c) (hfuel : l.length < fuel) :
    sortedLoop less b fuel a m = .ok (true, m) := by
  induction l generalizing xs a fuel with
  | nil =>
    cases fuel with
    | zero => nomatch hfuel
    | succ fuel =>
      rw [sortedLoop, Routine.bind_of_ok (listNext_ok h.before), if_neg (not_not.mpr rfl)]
      rfl
  | cons c l ih =>
    cases fuel with
    | zero => nomatch hfuel
    | succ fuel =>
      have hac := h.before
      have hsplit : xs ++ a :: (c :: l ++ b :: ys) = (xs ++ [a]) ++ c :: (l ++ b :: ys) := by simp
      rw [hsplit] at h
      have hcb : c ≠ b := by
        have hdistinct := h.nodup
        simp only [List.nodup_append, List.nodup_cons, List.mem_append, List.mem_cons] at hdistinct
        grind
      obtain ⟨hle, hsorted⟩ := List.isChain_cons_cons.mp hsorted
      rw [sortedLoop, Routine.bind_of_ok (listNext_ok hac), if_pos hcb,
        Routine.bind_of_ok (listPrev_ok hac), if_neg hle]
      exact ih h hsorted (by simpa using hfuel)

/-- A range that is in order passes the check. -/
theorem isSorted_ok (h : m.Spells (xs ++ (l ++ b :: ys))) (ha : (l ++ [b]).head? = some a)
    (hsorted : l.IsChain fun c d => ¬ less d c) (hfuel : l.length < fuel) :
    isSorted less fuel a b m = .ok (true, m) := by
  cases l with
  | nil =>
    obtain rfl : b = a := Option.some.inj ha
    rw [isSorted, if_neg (not_not.mpr rfl)]
    rfl
  | cons c l =>
    obtain rfl : c = a := Option.some.inj ha
    have hcb : c ≠ b := by
      have hdistinct := h.nodup
      simp only [List.cons_append, List.nodup_append, List.nodup_cons, List.mem_append,
        List.mem_cons] at hdistinct
      grind
    rw [isSorted, if_pos hcb]
    exact sortedLoop_ok h hsorted (by simp only [List.length_cons] at hfuel; omega)

/-- The run from `a` on ends before a lesser cell or at `b`. -/
theorem endOfRunLoop_ok (h : m.Spells (xs ++ a :: (l ++ b :: ys))) (hfuel : l.length < fuel) :
    ∃ l₁ l₂ e, l = l₁ ++ l₂ ∧ (a :: l₁).IsChain (fun c d => ¬ less d c) ∧
      (l₂ ++ [b]).head? = some e ∧
      (∀ c ∈ l₂.head?, less c ((a :: l₁).getLast (List.cons_ne_nil a l₁))) ∧
      endOfRunLoop less b fuel a m = .ok (e, m) := by
  induction l generalizing xs a fuel with
  | nil =>
    cases fuel with
    | zero => nomatch hfuel
    | succ fuel =>
      refine ⟨[], [], b, rfl, .singleton a, rfl, nofun, ?_⟩
      rw [endOfRunLoop, Routine.bind_of_ok (listNext_ok h.before), if_neg (not_not.mpr rfl)]
      rfl
  | cons c l ih =>
    cases fuel with
    | zero => nomatch hfuel
    | succ fuel =>
      have hac := h.before
      have hsplit : xs ++ a :: (c :: l ++ b :: ys) = (xs ++ [a]) ++ c :: (l ++ b :: ys) := by simp
      rw [hsplit] at h
      have hcb : c ≠ b := by
        have hdistinct := h.nodup
        simp only [List.nodup_append, List.nodup_cons, List.mem_append, List.mem_cons] at hdistinct
        grind
      rw [endOfRunLoop, Routine.bind_of_ok (listNext_ok hac), if_pos hcb,
        Routine.bind_of_ok (listPrev_ok hac)]
      by_cases hless : less c a
      · refine ⟨[], c :: l, c, rfl, .singleton a, rfl, ?_, ?_⟩
        · intro d hd
          cases hd
          exact hless
        · rw [if_pos hless]
          rfl
      · obtain ⟨l₁, l₂, e, rfl, hchain, he, hend, hrun⟩ := ih h (by simpa using hfuel)
        refine ⟨c :: l₁, l₂, e, rfl, List.isChain_cons_cons.mpr ⟨hless, hchain⟩, he, ?_, ?_⟩
        · rw [List.getLast_cons (List.cons_ne_nil c l₁)]
          exact hend
        · rw [if_neg hless]
          exact hrun

/-- Merging in place: what is left of the first run starts at `a0`, what is left of the second one
at `a1b0`. -/
theorem mergeLoop_ok {b1 a0 a1b0 : α} {l₁ l₂ : List α} {q : α}
    (h : m.Spells (xs ++ q :: (l₁ ++ (l₂ ++ b1 :: ys))))
    (ha0 : (l₁ ++ (l₂ ++ [b1])).head? = some a0) (ha1b0 : (l₂ ++ [b1]).head? = some a1b0)
    (hfuel : l₁.length + l₂.length < fuel) :
    ∃ m', mergeLoop less b1 fuel a0 a1b0 m = .ok ((), m') ∧
      m'.Spells (xs ++ q :: (Runs.merge less l₁ l₂ ++ b1 :: ys)) ∧
      SameOutside (xs ++ q :: (l₁ ++ (l₂ ++ b1 :: ys))) m m' := by
  induction fuel generalizing m xs q l₁ l₂ a0 a1b0 with
  | zero => nomatch hfuel
  | succ fuel ih =>
    cases l₁ with
    | nil =>
      obtain rfl : a0 = a1b0 := Option.some.inj (ha0.symm.trans ha1b0)
      rw [mergeLoop, if_neg fun hand => hand.1 rfl, Runs.merge, List.nil_merge]
      exact ⟨m, rfl, h, .refl _ m⟩
    | cons x l₁ =>
      obtain rfl : x = a0 := Option.some.inj ha0
      cases l₂ with
      | nil =>
        obtain rfl : b1 = a1b0 := Option.some.inj ha1b0
        rw [mergeLoop, if_neg fun hand => hand.2 rfl, Runs.merge, List.merge_right]
        exact ⟨m, rfl, h, .refl _ m⟩
      | cons y l₂ =>
        obtain rfl : y = a1b0 := Option.some.inj ha1b0
        have hdistinct := h.nodup
        simp only [List.nodup_append, List.nodup_cons, List.mem_append, List.mem_cons]
          at hdistinct
        have hxy : x ≠ y := by grind
        have hyb : y ≠ b1 := by grind
        rw [mergeLoop, if_pos ⟨hxy, hyb⟩]
        by_cases hless : less y x
        · -- the cell from the second run is put before `x`
          have hlast : ∃ e, (l₂ ++ [b1]).head? = some e := by
            cases l₂ with
            | nil => exact ⟨b1, rfl⟩
            | cons e l₂ => exact ⟨e, rfl⟩
          obtain ⟨e, he⟩ := hlast
          obtain ⟨post, hpost⟩ : ∃ post, l₂ ++ b1 :: ys = e :: post := by
            cases l₂ with
            | nil =>
              cases he
              exact ⟨ys, rfl⟩
            | cons d l₂ =>
              cases he
              exact ⟨_, rfl⟩
          obtain ⟨init, d, hinit⟩ : ∃ init d, x :: l₁ = init ++ [d] :=
            ⟨_, _, (List.dropLast_append_getLast (List.cons_ne_nil x l₁)).symm⟩
          have hsource : xs ++ q :: (x :: l₁ ++ (y :: l₂ ++ b1 :: ys)) =
              (xs ++ q :: init) ++ d :: ([y] ++ e :: post) := by
            have hsecond : y :: l₂ ++ b1 :: ys = [y] ++ e :: post := by
              rw [← hpost]
              rfl
            rw [hsecond, hinit]
            simp
          have hye : m.Before y e := by
            have hsplit : (xs ++ q :: init) ++ d :: ([y] ++ e :: post) =
                ((xs ++ q :: init) ++ [d]) ++ y :: e :: post := by simp
            rw [hsource, hsplit] at h
            exact h.before
          have hplace : (xs ++ q :: init) ++ d :: e :: post =
              xs ++ q :: x :: (l₁ ++ (l₂ ++ b1 :: ys)) := by
            have hcons : x :: (l₁ ++ (l₂ ++ b1 :: ys)) = x :: l₁ ++ (l₂ ++ b1 :: ys) := rfl
            rw [hcons, hinit, hpost]
            simp
          rw [hsource] at h
          obtain ⟨m1, hsplice, hspells, hsame⟩ := listSplice_same h rfl hplace
          have hnext : xs ++ q :: ([y] ++ x :: (l₁ ++ (l₂ ++ b1 :: ys))) =
              (xs ++ [q]) ++ y :: (x :: l₁ ++ (l₂ ++ b1 :: ys)) := by simp
          rw [hnext] at hspells
          obtain ⟨m', hrun, hmerged, hsame'⟩ := ih hspells rfl he
            (by simp only [List.length_cons] at hfuel ⊢; omega)
          refine ⟨m', ?_, ?_, ?_⟩
          · rw [if_neg (not_not.mpr hless), Routine.bind_of_ok (listNext_ok hye),
              Routine.bind_of_ok (listPrev_ok hye), Routine.bind_of_ok hsplice]
            exact hrun
          · rw [Runs.merge, List.cons_merge_cons_neg _ _ _ (by simpa using hless)]
            simpa [Runs.merge] using hmerged
          · rw [hsource]
            refine hsame.trans (hsame'.mono fun c hc => ?_)
            rw [← hnext, (range_perm xs q [y] _).mem_iff, ← hplace] at hc
            exact (range_perm _ d [y] _).mem_iff.mpr hc
        · have hnext : ∃ e, (l₁ ++ (y :: l₂ ++ [b1])).head? = some e ∧ m.Before x e := by
            cases l₁ with
            | nil =>
              refine ⟨y, rfl, ?_⟩
              have hsplit : xs ++ q :: ([x] ++ (y :: l₂ ++ b1 :: ys)) =
                  (xs ++ [q]) ++ x :: y :: (l₂ ++ b1 :: ys) := by simp
              exact (hsplit ▸ h).before
            | cons e l₁ =>
              refine ⟨e, rfl, ?_⟩
              have hsplit : xs ++ q :: (x :: e :: l₁ ++ (y :: l₂ ++ b1 :: ys)) =
                  (xs ++ [q]) ++ x :: e :: (l₁ ++ (y :: l₂ ++ b1 :: ys)) := by simp
              exact (hsplit ▸ h).before
          obtain ⟨e, he, hxe⟩ := hnext
          have hsplit : xs ++ q :: (x :: l₁ ++ (y :: l₂ ++ b1 :: ys)) =
              (xs ++ [q]) ++ x :: (l₁ ++ (y :: l₂ ++ b1 :: ys)) := by simp
          rw [hsplit] at h ⊢
          obtain ⟨m', hrun, hmerged, hsame⟩ := ih h he rfl
            (by simp only [List.length_cons] at hfuel ⊢; omega)
          refine ⟨m', ?_, ?_, hsame⟩
          · rw [if_pos hless, Routine.bind_of_ok (listNext_ok hxe)]
            exact hrun
          · rw [Runs.merge, List.cons_merge_cons_pos _ _ _ (by simpa using hless)]
            simpa [Runs.merge] using hmerged

end

/-! ### Sorting -/

section

variable {less : α → α → Bool} [IsStrictWeakOrder α fun a b => less a b] {fuel : Nat}

omit [IsStrictWeakOrder α fun a b => less a b] in
theorem inplaceMerge_ok {b1 a0 a1b0 q : α} {l₁ l₂ : List α}
    (h : m.Spells (xs ++ q :: (l₁ ++ (l₂ ++ b1 :: ys))))
    (ha0 : (l₁ ++ (l₂ ++ [b1])).head? = some a0) (ha1b0 : (l₂ ++ [b1]).head? = some a1b0)
    (h₁ : l₁.IsChain fun c d => ¬ less d c) (h₂ : l₂.IsChain fun c d => ¬ less d c)
    (hne : l₂ ≠ []) (hfuel : l₁.length + l₂.length < fuel) :
    ∃ m', inplaceMerge less fuel a0 a1b0 b1 m = .ok ((), m') ∧
      m'.Spells (xs ++ q :: (Runs.merge less l₁ l₂ ++ b1 :: ys)) ∧
      SameOutside (xs ++ q :: (l₁ ++ (l₂ ++ b1 :: ys))) m m' := by
  obtain ⟨y, l₂, rfl⟩ := List.exists_cons_of_ne_nil hne
  obtain rfl : y = a1b0 := Option.some.inj ha1b0
  have hsplit₁ : xs ++ q :: (l₁ ++ (y :: l₂ ++ b1 :: ys)) =
      (xs ++ [q]) ++ (l₁ ++ y :: (l₂ ++ b1 :: ys)) := by simp
  have hsplit₂ : xs ++ q :: (l₁ ++ (y :: l₂ ++ b1 :: ys)) =
      (xs ++ q :: l₁) ++ (y :: l₂ ++ b1 :: ys) := by simp
  have hhead : (l₁ ++ [y]).head? = some a0 := by
    cases l₁ with
    | nil => exact ha0
    | cons x l₁ => exact ha0
  have hfuel₁ : l₁.length < fuel := by omega
  have hfuel₂ : (y :: l₂).length < fuel := by omega
  have hcheck₁ := isSorted_ok (hsplit₁ ▸ h) hhead h₁ hfuel₁
  have hcheck₂ := isSorted_ok (hsplit₂ ▸ h) rfl h₂ hfuel₂
  rw [inplaceMerge, Routine.bind_of_ok hcheck₁, Routine.bind_of_ok (assertThat_ok rfl),
    Routine.bind_of_ok hcheck₂, Routine.bind_of_ok (assertThat_ok rfl)]
  exact mergeLoop_ok h ha0 rfl hfuel

/-- A pass merges runs two by two. -/
theorem sortPass_ok {list : ListHeader α} {n cnt : Nat} {a0 q : α}
    (h : m.Spells (xs ++ q :: (l ++ [list.tail]))) (ha0 : (l ++ [list.tail]).head? = some a0)
    (hn : l.length < n) (hfuel : l.length < fuel) :
    ∃ m' l' k, sortPass less list fuel n a0 cnt m = .ok (cnt + k, m') ∧
      m'.Spells (xs ++ q :: (l' ++ [list.tail])) ∧ Runs.Stably less l l' ∧
      Runs.runs less l' ≤ k ∧ 2 * k ≤ Runs.runs less l + 1 ∧
      SameOutside (xs ++ q :: (l ++ [list.tail])) m m' := by
  induction n generalizing m xs q l a0 cnt with
  | zero => nomatch hn
  | succ n ih =>
    cases l with
    | nil =>
      obtain rfl : list.tail = a0 := Option.some.inj ha0
      refine ⟨m, [], 0, ?_, h, .refl, Nat.le_refl 0, Nat.zero_le _, .refl _ m⟩
      rw [sortPass, listEnd, if_neg (not_not.mpr rfl)]
      rfl
    | cons a l =>
      obtain rfl : a = a0 := Option.some.inj ha0
      have hdistinct := h.nodup
      simp only [List.nodup_append, List.nodup_cons, List.mem_append, List.mem_cons] at hdistinct
      have hat : a ≠ list.tail := by grind
      have hsplit : xs ++ q :: (a :: l ++ [list.tail]) =
          (xs ++ [q]) ++ a :: (l ++ list.tail :: []) := by simp
      have hfuel₁ : l.length < fuel := by
        simp only [List.length_cons] at hfuel
        omega
      obtain ⟨l₁, l₂, e, rfl, hchain₁, he, hend₁, hrun₁⟩ :
          ∃ l₁ l₂ e, l = l₁ ++ l₂ ∧ (a :: l₁).IsChain (fun c d => ¬ less d c) ∧ _ :=
        endOfRunLoop_ok (hsplit ▸ h) hfuel₁
      have hfirst : findEndOfRun less fuel a list.tail m = .ok (e, m) := by
        rw [findEndOfRun, Routine.bind_of_ok (assertThat_ok (by simpa using hat))]
        exact hrun₁
      rw [sortPass, listEnd, if_pos hat, Routine.bind_of_ok hfirst]
      cases l₂ with
      | nil =>
        -- one run is left
        obtain rfl : list.tail = e := Option.some.inj he
        rw [if_pos rfl, List.append_nil]
        have hone := Runs.runs_of_chain hchain₁
        refine ⟨m, a :: l₁, 1, rfl, ?_, .refl, hone.le, by omega, .refl _ m⟩
        simpa using h
      | cons c l₂ =>
        obtain rfl : c = e := Option.some.inj he
        have hct : c ≠ list.tail := by grind
        have hsplit₂ : xs ++ q :: (a :: (l₁ ++ c :: l₂) ++ [list.tail]) =
            (xs ++ q :: a :: l₁) ++ c :: (l₂ ++ list.tail :: []) := by simp
        have hfuel₂ : l₂.length < fuel := by
          simp only [List.length_cons, List.length_append] at hfuel
          omega
        obtain ⟨l₃, l₄, b1, rfl, hchain₂, hb1, hend₂, hrun₂⟩ :
            ∃ l₃ l₄ b1, l₂ = l₃ ++ l₄ ∧ (c :: l₃).IsChain (fun c d => ¬ less d c) ∧ _ :=
          endOfRunLoop_ok (hsplit₂ ▸ h) hfuel₂
        have hsecond : findEndOfRun less fuel c list.tail m = .ok (b1, m) := by
          rw [findEndOfRun, Routine.bind_of_ok (assertThat_ok (by simpa using hct))]
          exact hrun₂
        rw [if_neg hct, Routine.bind_of_ok hsecond]
        obtain ⟨post, hpost⟩ : ∃ post, l₄ ++ [list.tail] = b1 :: post := by
          cases l₄ with
          | nil =>
            cases hb1
            exact ⟨[], rfl⟩
          | cons d l₄ =>
            cases hb1
            exact ⟨_, rfl⟩
        have hsplit₃ : xs ++ q :: (a :: (l₁ ++ c :: (l₃ ++ l₄)) ++ [list.tail]) =
            xs ++ q :: (a :: l₁ ++ (c :: l₃ ++ b1 :: post)) := by
          rw [← hpost]
          simp
        have hfuel₃ : (a :: l₁).length + (c :: l₃).length < fuel := by
          simp only [List.length_cons, List.length_append] at hfuel ⊢
          omega
        obtain ⟨m1, hmerge, hspells, hsame⟩ := inplaceMerge_ok (hsplit₃ ▸ h) rfl rfl hchain₁ hchain₂
          (List.cons_ne_nil c l₃) hfuel₃
        rw [Routine.bind_of_ok hmerge]
        generalize hmerged : Runs.merge less (a :: l₁) (c :: l₃) = merged at hspells
        have hstably : Runs.Stably less (a :: l₁ ++ c :: l₃) merged :=
          hmerged ▸ Runs.stably_merge (Runs.sorted_of_chain hchain₁)
        have hsorted : Runs.Sorted less merged :=
          hmerged ▸ Runs.sorted_merge (Runs.sorted_of_chain hchain₁) (Runs.sorted_of_chain hchain₂)
        obtain ⟨init, q', rfl⟩ : ∃ init q', merged = init ++ [q'] := by
          have hne : merged ≠ [] := fun hnil => by
            have := hstably.perm.length_eq
            rw [hnil] at this
            nomatch this
          exact ⟨_, _, (List.dropLast_append_getLast hne).symm⟩
        have hnext : xs ++ q :: (init ++ [q'] ++ b1 :: post) =
            (xs ++ q :: init) ++ q' :: (l₄ ++ [list.tail]) := by
          rw [hpost]
          simp
        rw [hnext] at hspells
        obtain ⟨m', l', k, hrun, hfinal, hstably', hruns, htwo, hsame'⟩ := ih hspells hb1
          (by simp only [List.length_cons, List.length_append] at hn; omega)
          (by simp only [List.length_cons, List.length_append] at hfuel; omega)
        have hwhole : a :: (l₁ ++ c :: (l₃ ++ l₄)) = (a :: l₁ ++ c :: l₃) ++ l₄ := by simp
        have hone : Runs.runs less (init ++ [q']) ≤ 1 := Runs.runs_of_sorted hsorted
        have happend : Runs.runs less (init ++ [q'] ++ l') ≤ _ := Runs.runs_append_le ..
        have hbreak : Runs.runs less (a :: (l₁ ++ c :: (l₃ ++ l₄))) =
            1 + Runs.runs less (c :: (l₃ ++ l₄)) := Runs.runs_break hchain₁ (hend₁ c rfl)
        have hrest : 1 + Runs.runs less l₄ ≤ Runs.runs less (c :: (l₃ ++ l₄)) := by
          cases l₄ with
          | nil => exact Runs.runs_cons_pos
          | cons d l₄ => exact (Runs.runs_break hchain₂ (hend₂ d rfl)).ge
        have hcells := ((hstably.perm.append_right (b1 :: post)).cons q).append_left xs
        rw [hnext, List.append_assoc (a :: l₁)] at hcells
        refine ⟨m', init ++ [q'] ++ l', k + 1, ?_, ?_, ?_, by omega, by omega, ?_⟩
        · rw [hrun, Nat.add_assoc, Nat.add_comm 1]
        · simpa using hfinal
        · rw [hwhole]
          exact hstably.append hstably'
        · rw [hsplit₃]
          exact hsame.trans (hsame'.mono fun x hx => hcells.mem_iff.mp hx)

/-- Each pass at least halves the runs, and the passes end with one. -/
theorem sortLoop_ok {list : ListHeader α} {n : Nat}
    (h : m.Spells (list.head :: (l ++ [list.tail]))) (hn : Runs.runs less l < n)
    (hfuel : l.length < fuel) :
    ∃ m' l', sortLoop less list fuel n m = .ok ((), m') ∧
      m'.Spells (list.head :: (l' ++ [list.tail])) ∧ Runs.Stably less l l' ∧
      Runs.runs less l' ≤ 1 ∧ SameOutside (list.head :: (l ++ [list.tail])) m m' := by
  induction n generalizing m l with
  | zero => nomatch hn
  | succ n ih =>
    obtain ⟨a, ys, hl⟩ := List.exists_cons_of_ne_nil (List.append_ne_nil_of_right_ne_nil l
      (List.cons_ne_nil list.tail []))
    have hbegin : listBegin list m = .ok (a, m) := listBegin_ok (hl ▸ h)
    obtain ⟨m1, l1, k, hpass, hspells, hstably, hruns, htwo, hsame⟩ :=
      @sortPass_ok _ m [] l _ less _ fuel list fuel 0 a list.head h (by rw [hl]; rfl) hfuel hfuel
    rw [sortLoop, Routine.bind_of_ok hbegin, Routine.bind_of_ok hpass, Nat.zero_add]
    by_cases hk : 1 < k
    · have hlength := hstably.perm.length_eq
      obtain ⟨m', l', hrun, hfinal, hstably', hone, hsame'⟩ := ih hspells (by omega) (by omega)
      have hcells := ((hstably.perm.append_right [list.tail]).cons list.head)
      refine ⟨m', l', ?_, hfinal, hstably.trans hstably', hone,
        hsame.trans (hsame'.mono fun x hx => hcells.mem_iff.mp hx)⟩
      rw [if_pos hk, hrun]
    · refine ⟨m1, l1, ?_, hspells, hstably, by omega, hsame⟩
      rw [if_neg hk]
      rfl

theorem listSort_ok {list : ListHeader α} (h : m.Spells (list.head :: (l ++ [list.tail])))
    (hfuel : l.length < fuel) :
    ∃ m' l', listSort less fuel list m = .ok ((), m') ∧
      m'.Spells (list.head :: (l' ++ [list.tail])) ∧ Runs.Sorted less l' ∧
      Runs.Stably less l l' ∧ SameOutside (list.head :: (l ++ [list.tail])) m m' := by
  have hruns : Runs.runs less l < fuel := (Runs.runs_le_length l).trans_lt hfuel
  obtain ⟨m', l', hloop, hspells, hstably, hone, hsame⟩ := sortLoop_ok h hruns hfuel
  have hchain := Runs.chain_of_runs hone
  refine ⟨m', l', ?_, hspells, Runs.sorted_of_chain hchain, hstably, hsame⟩
  obtain ⟨a, ys, hl⟩ := List.exists_cons_of_ne_nil (List.append_ne_nil_of_right_ne_nil l'
    (List.cons_ne_nil list.tail []))
  have hbegin : listBegin list m' = .ok (a, m') := listBegin_ok (hl ▸ hspells)
  have hlength := hstably.perm.length_eq
  have hcheck : isSorted less fuel a list.tail m' = .ok (true, m') :=
    @isSorted_ok _ m' [list.head] [] l' a list.tail _ less fuel hspells (by rw [hl]; rfl) hchain
      (by omega)
  rw [listSort, Routine.bind_of_ok hloop, Routine.bind_of_ok hbegin, listEnd,
    Routine.bind_of_ok hcheck, assertThat_ok rfl]

end

/-! ### Reversing -/

/-- What the loop of `list_reverse` has done when the cells of `l` are behind it. -/
def swapped (m : Links α) (l : List α) : Links α where
  prev c := if c ∈ l then m.next c else m.prev c
  next c := if c ∈ l then m.prev c else m.next c

theorem reverseLoop_ok {list : ListHeader α} {fuel : Nat} (h : (l ++ [list.tail]).IsChain m.Before)
    (hnodup : (l ++ [list.tail]).Nodup) (ha : (l ++ [list.tail]).head? = some a)
    (hfuel : l.length < fuel) :
    reverseLoop list fuel a m = .ok ((), swapped m l) := by
  induction fuel generalizing m l a with
  | zero => nomatch hfuel
  | succ fuel ih =>
    cases l with
    | nil =>
      obtain rfl : list.tail = a := Option.some.inj ha
      rw [reverseLoop, listEnd, if_pos rfl]
      rfl
    | cons x l =>
      obtain rfl : x = a := Option.some.inj ha
      obtain ⟨hout, hnodup⟩ := List.nodup_cons.mp hnodup
      have hxt : x ≠ list.tail := by
        rintro rfl
        exact hout (by simp)
      obtain ⟨b, ys, hl⟩ := List.exists_cons_of_ne_nil (List.append_ne_nil_of_right_ne_nil l
        (List.cons_ne_nil list.tail []))
      have hxb : m.Before x b := by
        rw [List.cons_append, hl] at h
        exact (List.isChain_cons_cons.mp h).1
      generalize hm1 : ({
        prev := Function.update m.prev x (m.next x)
        next := Function.update m.next x (m.prev x) } : Links α) = m1
      have hprev : prev x m1 = .ok (b, m1) := by
        rw [prev, Routine.get_bind_apply, ← hm1]
        dsimp only
        rw [Function.update_self, hxb.1]
        rfl
      have hchain : (l ++ [list.tail]).IsChain m1.Before := by
        refine h.tail.imp_of_mem_imp fun c d hc hd hcd => ?_
        rw [← hm1]
        refine ⟨(Function.update_of_ne ?_ ..).trans hcd.1,
          (Function.update_of_ne ?_ ..).trans hcd.2⟩
        · rintro rfl
          exact hout hc
        · rintro rfl
          exact hout hd
      have hrest := ih hchain hnodup (by rw [hl]; rfl) (by simpa using hfuel)
      have hswapped : swapped m1 l = swapped m (x :: l) := by
        have hxl : x ∉ l := fun hx => hout (List.mem_append_left _ hx)
        rw [← hm1, swapped, swapped]
        congr 1
        · funext c
          by_cases hcx : c = x <;> simp [hcx, hxl]
        · funext c
          by_cases hcx : c = x <;> simp [hcx, hxl]
      rw [reverseLoop, listEnd, if_neg hxt, swapLinks, Routine.modify_bind_apply, hm1,
        Routine.bind_of_ok hprev, hrest, hswapped]

/-- The cells of a list that are behind the loop are linked the other way round. -/
theorem swapped_chain {l : List α} (h : l.IsChain m.Before) :
    l.reverse.IsChain (swapped m l).Before := by
  rw [List.isChain_reverse]
  refine h.imp_of_mem_imp fun c d hc hd hcd => ⟨?_, ?_⟩
  · exact (if_pos hd).trans hcd.2
  · exact (if_pos hc).trans hcd.1

theorem link_link (m : Links α) (q f e b : α) :
    ((m.link q b).link q f).link e b = (m.link q f).link e b := by
  refine congrArg₂ Links.mk ?_ ?_
  · funext c
    simp only [Links.link, Function.update_apply]
    split_ifs <;> rfl
  · funext c
    simp only [Links.link, Function.update_apply]
    split_ifs <;> rfl

theorem swapEnds_ok {list : ListHeader α} {e : α} (hfirst : m.next list.head = some a)
    (hlast : m.prev list.tail = some e) (hnext : m.next a = some list.head)
    (hprev : m.prev e = some list.tail) (ha : a ≠ list.head) (he : e ≠ list.tail) :
    swapEnds list m = .ok ((), (m.link list.head e).link a list.tail) := by
  rw [swapEnds, Routine.get_bind_apply, setNext, Routine.modify_bind_apply, setPrev,
    Routine.modify_bind_apply, hfirst, hlast]
  generalize hm1 : ({
    prev := Function.update m.prev list.tail (some a)
    next := Function.update m.next list.head (some e) } : Links α) = m1
  have hnextHead : next list.head m1 = .ok (e, m1) := by
    rw [next, Routine.get_bind_apply, ← hm1]
    dsimp only
    rw [Function.update_self]
    rfl
  have hprevTail : prev list.tail m1 = .ok (a, m1) := by
    rw [prev, Routine.get_bind_apply, ← hm1]
    dsimp only
    rw [Function.update_self]
    rfl
  rw [Routine.bind_of_ok hnextHead, Routine.bind_of_ok hprevTail, Routine.get_bind_apply, setPrev,
    Routine.modify_bind_apply, setNext, Routine.modify_apply, ← hm1]
  dsimp only
  rw [Function.update_of_ne ha, hnext, Function.update_of_ne he, hprev,
    Function.update_comm he.symm]
  rfl

theorem listReverse_ok {list : ListHeader α} {fuel : Nat}
    (h : m.Spells (list.head :: (l ++ [list.tail]))) (hfuel : l.length < fuel) :
    ∃ m', listReverse fuel list m = .ok ((), m') ∧
      m'.Spells (list.head :: (l.reverse ++ [list.tail])) ∧
      SameOutside (list.head :: (l ++ [list.tail])) m m' := by
  obtain ⟨a, ys, hl⟩ := List.exists_cons_of_ne_nil (List.append_ne_nil_of_right_ne_nil l
    (List.cons_ne_nil list.tail []))
  have hbegin : listBegin list m = .ok (a, m) := listBegin_ok (hl ▸ h)
  have hempty : listEmpty list m = .ok (decide (a = list.tail), m) := by
    rw [listEmpty, Routine.bind_of_ok hbegin]
    rfl
  rw [listReverse, Routine.bind_of_ok hempty]
  rcases l.eq_nil_or_concat with rfl | ⟨init, e, rfl⟩
  · cases hl
    rw [if_pos (by simp)]
    exact ⟨m, rfl, h, .refl _ m⟩
  · rw [List.concat_eq_append] at *
    have hdistinct := h.nodup
    simp only [List.nodup_cons, List.nodup_append, List.mem_append, List.mem_cons] at hdistinct
    have ha : a ∈ init ++ [e] := by
      cases init with
      | nil =>
        cases hl
        simp
      | cons b init =>
        cases hl
        simp
    have hhead : list.head ∉ init ++ [e] := by simp only [List.mem_append, List.mem_cons]; tauto
    have htail : list.tail ∉ init ++ [e] := by
      intro hmem
      exact hdistinct.2.2.2 _ (by simpa using hmem) _ (.inl rfl) rfl
    have hheadTail : list.head ≠ list.tail := by tauto
    have hloop : reverseLoop list fuel a m = .ok ((), swapped m (init ++ [e])) :=
      reverseLoop_ok h.chain.tail (List.nodup_cons.mp h.nodup).2 (by rw [hl]; rfl) hfuel
    have hne : ¬ decide (a = list.tail) = true := by
      rw [decide_eq_true_eq]
      rintro rfl
      exact htail ha
    have haHead : m.Before list.head a := (List.isChain_cons_cons.mp (hl ▸ h.chain)).1
    have heTail : m.Before e list.tail := by
      have hsplit : list.head :: (init ++ [e] ++ [list.tail]) =
          (list.head :: init) ++ e :: list.tail :: [] := by simp
      exact (hsplit ▸ h).before
    have he : e ∈ init ++ [e] := by simp
    have hends : swapEnds list (swapped m (init ++ [e])) = .ok ((),
        ((swapped m (init ++ [e])).link list.head e).link a list.tail) :=
      swapEnds_ok ((if_neg hhead).trans haHead.1) ((if_neg htail).trans heTail.2)
        ((if_pos ha).trans haHead.2) ((if_pos he).trans heTail.1)
        (fun heq => hhead (heq ▸ ha)) fun heq => htail (heq ▸ he)
    rw [if_neg hne, Routine.bind_of_ok hbegin, Routine.bind_of_ok hloop, hends]
    refine ⟨_, rfl, ?_, ?_⟩
    · rw [← link_link _ list.head e a list.tail]
      have hcut : (m.link list.head list.tail).Spells [list.head, list.tail] :=
        (@Links.Spells.cut _ m [] [] (init ++ [e]) list.head list.tail _ h).1
      have hplace : ((swapped m (init ++ [e])).link list.head list.tail).Spells
          [list.head, list.tail] := by
        refine hcut.congr (fun c hc => ?_) fun c hc => ?_
        · rcases List.mem_cons.mp hc with rfl | hc
          · exact (Function.update_of_ne hheadTail ..).trans
              ((if_neg hhead).trans (Function.update_of_ne hheadTail ..).symm)
          · obtain rfl := List.mem_singleton.mp hc
            exact (Links.link_before ..).2.trans (Links.link_before ..).2.symm
        · rcases List.mem_cons.mp hc with rfl | hc
          · exact (Links.link_before ..).1.trans (Links.link_before ..).1.symm
          · obtain rfl := List.mem_singleton.mp hc
            exact (Function.update_of_ne hheadTail.symm ..).trans
              ((if_neg htail).trans (Function.update_of_ne hheadTail.symm ..).symm)
      have hinner : (init ++ [e]).IsChain m.Before := (List.isChain_append.mp h.chain.tail).1
      have hchain : (init ++ [e]).reverse.IsChain
          ((swapped m (init ++ [e])).link list.head list.tail).Before := by
        refine (swapped_chain hinner).imp_of_mem_imp fun c d hc hd hcd => hcd.link ?_ ?_
        · rintro rfl
          exact hhead (List.mem_reverse.mp hc)
        · rintro rfl
          exact htail (List.mem_reverse.mp hd)
      have hfirst : (init ++ [e]).reverse.head? = some e := by simp
      have hlast : (init ++ [e]).reverse.getLast? = some a := by
        rw [List.getLast?_reverse]
        have hheads : (init ++ [e] ++ [list.tail]).head? = some a := by
          rw [hl]
          rfl
        cases init with
        | nil => exact hheads
        | cons b init => exact hheads
      have hperm := (((init ++ [e]).reverse_perm.append_right [list.tail]).cons list.head)
      exact @Links.Spells.paste _ _ [] [] (init ++ [e]).reverse list.head list.tail _ e a hplace
        hchain hfirst hlast (hperm.nodup_iff.mpr h.nodup)
    · have hswapped : SameOutside (list.head :: (init ++ [e] ++ [list.tail])) m
          (swapped m (init ++ [e])) := by
        intro c hc
        have hout : c ∉ init ++ [e] := fun hmem =>
          hc (List.mem_cons_of_mem _ (List.mem_append_left _ hmem))
        exact ⟨if_neg hout, if_neg hout⟩
      have haMem := List.mem_cons_of_mem list.head (List.mem_append_left [list.tail] ha)
      have heMem := List.mem_cons_of_mem list.head (List.mem_append_left [list.tail] he)
      exact hswapped.trans ((sameOutside_link (List.mem_cons_self ..) heMem).trans
        (sameOutside_link haMem (by simp)))

/-! ### Splicing any range -/

theorem listSplice_empty (h : m.prev before ≠ none) : listSplice before a a m = .ok ((), m) := by
  have hcheck : (isInterior m before || isTail m before) = true := by
    simp only [isInterior, isTail]
    by_cases hnext : m.next before = none <;> simp [hnext, h]
  rw [listSplice, Routine.get_bind_apply, Routine.bind_of_ok (assertThat_ok hcheck), if_pos rfl]
  rfl

omit [DecidableEq α] in
/-- A cell behind the head of a list is behind some cell. -/
theorem cons_split (a : α) (xs : List α) : ∃ init b, ∀ ys, a :: (xs ++ ys) = init ++ b :: ys := by
  obtain ⟨init, b, h⟩ : ∃ init b, a :: xs = init ++ [b] :=
    ⟨_, _, (List.dropLast_append_getLast (List.cons_ne_nil a xs)).symm⟩
  refine ⟨init, b, fun ys => ?_⟩
  rw [← List.cons_append, h, List.append_assoc, List.singleton_append]

end KernelList

open KernelList in
/-- `list_reverse`, `list_splice` and `list_sort` only rearrange the cells of well-formed lists. -/
theorem lists_rearranged {α : Type} [DecidableEq α] {m : Links α} {list : ListHeader α}
    {xs : List α} (h : m.Spells (list.head :: (xs ++ [list.tail]))) :
    (∀ fuel, xs.length < fuel → ∃ m', listReverse fuel list m = .ok ((), m') ∧
      m'.Spells (list.head :: (xs.reverse ++ [list.tail])) ∧
      SameOutside (list.head :: (xs ++ [list.tail])) m m') ∧
    (∀ pre range last post first, xs ++ [list.tail] = pre ++ (range ++ last :: post) →
      (range ++ [last]).head? = some first →
      -- before a cell of the same list, or the tail
      (∀ us before vs, pre ++ last :: post = us ++ before :: vs →
        ∃ m', listSplice before first last m = .ok ((), m') ∧
          m'.Spells (list.head :: (us ++ (range ++ before :: vs))) ∧
          SameOutside (list.head :: (xs ++ [list.tail])) m m') ∧
      -- or of another one
      (∀ other us before vs, m.Spells (other :: (us ++ before :: vs)) →
        (list.head :: (xs ++ [list.tail])).Disjoint (other :: (us ++ before :: vs)) →
        ∃ m', listSplice before first last m = .ok ((), m') ∧
          m'.Spells (list.head :: (pre ++ last :: post)) ∧
          m'.Spells (other :: (us ++ (range ++ before :: vs))) ∧
          SameOutside (list.head :: (xs ++ [list.tail]) ++ other :: (us ++ before :: vs)) m m')) ∧
    ∀ (less : α → α → Bool) [IsStrictWeakOrder α fun a b => less a b] (fuel : Nat),
      xs.length < fuel → ∃ m' xs', listSort less fuel list m = .ok ((), m') ∧
        m'.Spells (list.head :: (xs' ++ [list.tail])) ∧
        Runs.Sorted less xs' ∧ Runs.Stably less xs xs' ∧
        SameOutside (list.head :: (xs ++ [list.tail])) m m' := by
  refine ⟨fun fuel hfuel => listReverse_ok h hfuel, fun pre range last post first hxs hfirst =>
    ⟨fun us before vs hbefore => ?_, fun other us before vs hother hdisjoint => ?_⟩,
    fun less _ fuel hfuel => ?_⟩
  · rw [hxs] at h ⊢
    obtain ⟨init, b, hinit⟩ := cons_split list.head pre
    obtain ⟨init', q, hinit'⟩ := cons_split list.head us
    cases range with
    | nil =>
      obtain rfl : last = first := Option.some.inj hfirst
      rw [List.nil_append, hbefore] at h
      rw [List.nil_append, List.nil_append, hbefore]
      refine ⟨m, listSplice_empty ?_, h, .refl _ m⟩
      rw [hinit'] at h
      rw [h.before.2]
      nofun
    | cons f range =>
      obtain rfl : f = first := Option.some.inj hfirst
      have hplace : init ++ b :: last :: post = init' ++ q :: before :: vs := by
        rw [← hinit, ← hinit', hbefore]
      rw [hinit] at h ⊢
      rw [hinit']
      exact listSplice_same h rfl hplace
  · rw [hxs] at h hdisjoint ⊢
    obtain ⟨init, b, hinit⟩ := cons_split list.head pre
    obtain ⟨init', q, hinit'⟩ := cons_split other us
    cases range with
    | nil =>
      obtain rfl : last = first := Option.some.inj hfirst
      refine ⟨m, listSplice_empty ?_, h, hother, .refl _ m⟩
      rw [hinit'] at hother
      rw [hother.before.2]
      nofun
    | cons f range =>
      obtain rfl : f = first := Option.some.inj hfirst
      rw [hinit] at h hdisjoint ⊢
      rw [hinit'] at hother hdisjoint ⊢
      rw [hinit, hinit']
      exact listSplice_other h rfl hother hdisjoint
  · exact listSort_ok h hfuel

/-- The cells 3, 4, 2 between the head 0 and the tail 1. -/
def threeCells : Links Nat where
  next
    | 0 => some 3
    | 3 => some 4
    | 4 => some 2
    | 2 => some 1
    | _ => none
  prev
    | 3 => some 0
    | 4 => some 3
    | 2 => some 4
    | 1 => some 2
    | _ => none

theorem threeCells_spells : threeCells.Spells [0, 3, 4, 2, 1] where
  chain := by simp [threeCells, Links.Before]
  nodup := by decide
  first := by simp [threeCells]
  last := by simp [threeCells]

/-- By halves, 3 is the same as 2. -/
def lessHalf (a b : Nat) : Bool := a / 2 < b / 2

instance : IsStrictWeakOrder Nat fun a b => lessHalf a b where
  irrefl a := by simp [lessHalf]
  trans a b c := by simp only [lessHalf, decide_eq_true_eq]; omega
  incomp_trans a b c := by simp only [lessHalf, decide_eq_true_eq]; omega

open KernelList in
theorem lists_rearranged_threeCells :
    (∃ m', listReverse 4 ⟨0, 1⟩ threeCells = .ok ((), m') ∧ m'.Spells [0, 2, 4, 3, 1] ∧
      SameOutside [0, 3, 4, 2, 1] threeCells m') ∧
    ∃ m' xs', listSort lessHalf 4 ⟨0, 1⟩ threeCells = .ok ((), m') ∧
      m'.Spells (0 :: (xs' ++ [1])) ∧ Runs.Sorted lessHalf xs' ∧
      Runs.Stably lessHalf [3, 4, 2] xs' ∧ SameOutside [0, 3, 4, 2, 1] threeCells m' := by
  have h := @lists_rearranged Nat _ threeCells ⟨0, 1⟩ [3, 4, 2] threeCells_spells
  exact ⟨h.1 4 (by decide), h.2.2 lessHalf 4 (by decide)⟩

end Pintos
