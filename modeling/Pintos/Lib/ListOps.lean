import Pintos.Lib.KernelList
import Mathlib.Data.List.Destutter

/-! The other operations of `lib/kernel/list.c`.  `Rep` says that the links of any number of lists
spell a sequence of elements each, in cells of their own; the rules say what one operation makes of
one of the sequences, and that the others stay. -/

namespace Pintos

namespace KernelList

section

variable {α : Type} [DecidableEq α]

/-- `list_init`. -/
def listInit (list : ListHeader α) : ListRoutine α Unit := do
  setPrev list.head none
  setNext list.head (some list.tail)
  setPrev list.tail (some list.head)
  setNext list.tail none

/-- `list_insert`. -/
def listInsert (before elem : α) : ListRoutine α Unit := do
  let m ← get
  assertThat "is_interior (before) || is_tail (before)" (isInterior m before || isTail m before)
  setPrev elem (m.prev before)
  setNext elem (some before)
  setNext (← prev before) (some elem)
  setPrev before (some elem)

/-- `list_push_front`. -/
def listPushFront (list : ListHeader α) (elem : α) : ListRoutine α Unit := do
  listInsert (← listBegin list) elem

/-- `list_push_back`. -/
def listPushBack (list : ListHeader α) (elem : α) : ListRoutine α Unit :=
  listInsert (listEnd list) elem

/-- `list_remove`. -/
def listRemove (elem : α) : ListRoutine α α := do
  let m ← get
  assertThat "is_interior (elem)" (isInterior m elem)
  setNext (← prev elem) (m.next elem)
  setPrev (← next elem) (m.prev elem)
  next elem

/-- `list_front`. -/
def listFront (list : ListHeader α) : ListRoutine α α := do
  assertThat "!list_empty (list)" (!(← listEmpty list))
  next list.head

/-- `list_back`. -/
def listBack (list : ListHeader α) : ListRoutine α α := do
  assertThat "!list_empty (list)" (!(← listEmpty list))
  prev list.tail

/-- `list_pop_front`. -/
def listPopFront (list : ListHeader α) : ListRoutine α α := do
  let front ← listFront list
  let _ ← listRemove front
  pure front

/-- `list_pop_back`. -/
def listPopBack (list : ListHeader α) : ListRoutine α α := do
  let back ← listBack list
  let _ ← listRemove back
  pure back

/-- The loop of `list_size`. -/
def sizeLoop (list : ListHeader α) : Nat → α → Nat → ListRoutine α Nat
  | 0, _, _ => throw .spin
  | fuel + 1, e, cnt =>
    if e = listEnd list then pure cnt
    else do
      sizeLoop list fuel (← listNext e) (cnt + 1)

/-- `list_size`. -/
def listSize (fuel : Nat) (list : ListHeader α) : ListRoutine α Nat := do
  sizeLoop list fuel (← listBegin list) 0

/-- `list_unique` with a duplicate that it has taken out. -/
def keepDuplicate (duplicates : Option (ListHeader α)) (elem : α) : ListRoutine α Unit :=
  match duplicates with
  | some duplicates => listPushBack duplicates elem
  | none => pure ()

section

variable (less : α → α → Bool)

/-- The loop of `list_insert_ordered`. -/
def placeLoop (list : ListHeader α) (elem : α) : Nat → α → ListRoutine α α
  | 0, _ => throw .spin
  | fuel + 1, e =>
    if e = listEnd list then pure e
    else if less elem e then pure e
    else do
      placeLoop list elem fuel (← listNext e)

/-- `list_insert_ordered`. -/
def listInsertOrdered (fuel : Nat) (list : ListHeader α) (elem : α) : ListRoutine α Unit := do
  let e ← placeLoop less list elem fuel (← listBegin list)
  listInsert e elem

/-- The loop of `list_unique`. -/
def uniqueLoop (list : ListHeader α) (duplicates : Option (ListHeader α)) :
    Nat → α → ListRoutine α Unit
  | 0, _ => throw .spin
  | fuel + 1, elem => do
    let next ← listNext elem
    if next = listEnd list then pure ()
    else if !less elem next && !less next elem then do
      let _ ← listRemove next
      keepDuplicate duplicates next
      uniqueLoop list duplicates fuel elem
    else uniqueLoop list duplicates fuel next

/-- `list_unique`. -/
def listUnique (fuel : Nat) (list : ListHeader α) (duplicates : Option (ListHeader α)) :
    ListRoutine α Unit := do
  if ← listEmpty list then pure ()
  else do
    uniqueLoop less list duplicates fuel (← listBegin list)

end

section

variable (better : α → α → Bool)

/-- The loop of `list_max` and `list_min`. -/
def bestLoop (list : ListHeader α) : Nat → α → α → ListRoutine α α
  | 0, _, _ => throw .spin
  | fuel + 1, best, e =>
    if e = listEnd list then pure best
    else do
      bestLoop list fuel (if better best e then e else best) (← listNext e)

/-- What `list_max` and `list_min` share: the first cell that no later one is better than. -/
def listBest (fuel : Nat) (list : ListHeader α) : ListRoutine α α := do
  let best ← listBegin list
  if best ≠ listEnd list then do
    bestLoop better list fuel best (← listNext best)
  else pure best

end

/-- `list_max`. -/
def listMax (less : α → α → Bool) (fuel : Nat) (list : ListHeader α) : ListRoutine α α :=
  listBest (fun max e => less max e) fuel list

/-- `list_min`. -/
def listMin (less : α → α → Bool) (fuel : Nat) (list : ListHeader α) : ListRoutine α α :=
  listBest (fun min e => less e min) fuel list

end

/-! ### One list -/

variable {α : Type} {m m' : Links α} {xs ys us vs l : List α} {a b e x : α} {list : ListHeader α}

/-- Where a pass over a list is: at the first of the cells of `l`, or at the tail. -/
def Ahead (m : Links α) (tail : α) (l : List α) : Prop :=
  (l ++ [tail]).IsChain m.Before ∧ (l ++ [tail]).Nodup

theorem Ahead.of_spells (h : m.Spells (a :: (l ++ [e]))) : Ahead m e l :=
  ⟨h.chain.tail, (List.nodup_cons.mp h.nodup).2⟩

/-- One step of a pass. -/
theorem Ahead.step (h : Ahead m e (x :: l)) :
    x ≠ e ∧ m.Before x (l.headD e) ∧ Ahead m e l := by
  obtain ⟨hchain, hnodup⟩ := h
  obtain ⟨hout, hnodup⟩ := List.nodup_cons.mp hnodup
  refine ⟨?_, ?_, hchain.tail, hnodup⟩
  · rintro rfl
    exact hout (by simp)
  · cases l with
    | nil => exact (List.isChain_cons_cons.mp hchain).1
    | cons b l => exact (List.isChain_cons_cons.mp hchain).1

theorem before_head (h : m.Spells (list.head :: (l ++ [list.tail]))) :
    m.Before list.head (l.headD list.tail) := by
  cases l with
  | nil => exact (List.isChain_cons_cons.mp h.chain).1
  | cons b l => exact (List.isChain_cons_cons.mp h.chain).1

theorem listBegin_headD (h : m.Spells (list.head :: (l ++ [list.tail]))) :
    listBegin list m = .ok (l.headD list.tail, m) :=
  next_ok (before_head h)

variable [DecidableEq α]

theorem listEmpty_ok (h : m.Spells (list.head :: (l ++ [list.tail]))) :
    listEmpty list m = .ok (l.isEmpty, m) := by
  rw [listEmpty, Routine.bind_of_ok (listBegin_headD h), Routine.pure_apply]
  cases l with
  | nil =>
    have hsame : decide (([] : List α).headD list.tail = listEnd list) = true := decide_eq_true rfl
    rw [hsame]
    rfl
  | cons x l =>
    have hne : x ≠ list.tail := (Ahead.of_spells h).step.1
    have hother : decide ((x :: l).headD list.tail = listEnd list) = false := decide_eq_false hne
    rw [hother]
    rfl

theorem listFront_ok (h : m.Spells (list.head :: (e :: l ++ [list.tail]))) :
    listFront list m = .ok (e, m) := by
  have hcheck : (!(e :: l).isEmpty) = true := rfl
  rw [listFront, Routine.bind_of_ok (listEmpty_ok h), Routine.bind_of_ok (assertThat_ok hcheck),
    next_ok (before_head h)]
  rfl

theorem listBack_ok (h : m.Spells (list.head :: (l ++ [e] ++ [list.tail]))) :
    listBack list m = .ok (e, m) := by
  have hcheck : (!(l ++ [e]).isEmpty) = true := by simp
  have hsplit : list.head :: (l ++ [e] ++ [list.tail]) = (list.head :: l) ++ [e, list.tail] := by
    simp
  rw [listBack, Routine.bind_of_ok (listEmpty_ok h), Routine.bind_of_ok (assertThat_ok hcheck),
    prev_ok (hsplit ▸ h).before]

theorem sizeLoop_ok {fuel cnt : Nat} (h : Ahead m list.tail l) (hfuel : l.length < fuel) :
    sizeLoop list fuel (l.headD list.tail) cnt m = .ok (cnt + l.length, m) := by
  induction l generalizing fuel cnt with
  | nil =>
    obtain ⟨fuel, rfl⟩ := Nat.exists_eq_succ_of_ne_zero (Nat.ne_zero_of_lt hfuel)
    simp [sizeLoop, listEnd]
  | cons x l ih =>
    obtain ⟨hne, hnext, hrest⟩ := h.step
    obtain ⟨fuel, rfl⟩ := Nat.exists_eq_succ_of_ne_zero (Nat.ne_zero_of_lt hfuel)
    rw [List.headD_cons, sizeLoop, listEnd, if_neg hne, Routine.bind_of_ok (listNext_ok hnext),
      ih hrest (Nat.lt_of_succ_lt_succ hfuel), List.length_cons]
    congr 2
    omega

theorem placeLoop_ok {less : α → α → Bool} {elem : α} {fuel : Nat} (h : Ahead m list.tail l)
    (hfuel : l.length < fuel) : placeLoop less list elem fuel (l.headD list.tail) m =
      .ok ((l.dropWhile fun e => !less elem e).headD list.tail, m) := by
  induction l generalizing fuel with
  | nil =>
    obtain ⟨fuel, rfl⟩ := Nat.exists_eq_succ_of_ne_zero (Nat.ne_zero_of_lt hfuel)
    simp [placeLoop, listEnd]
  | cons x l ih =>
    obtain ⟨hne, hnext, hrest⟩ := h.step
    obtain ⟨fuel, rfl⟩ := Nat.exists_eq_succ_of_ne_zero (Nat.ne_zero_of_lt hfuel)
    rw [List.headD_cons, placeLoop, listEnd, if_neg hne, List.dropWhile_cons]
    by_cases hless : less elem x = true
    · rw [if_pos hless, if_neg (by simp [hless])]
      rfl
    · rw [if_neg hless, if_pos (by simpa using hless), Routine.bind_of_ok (listNext_ok hnext),
        ih hrest (Nat.lt_of_succ_lt_succ hfuel)]

theorem bestLoop_ok {better : α → α → Bool} {best : α} {fuel : Nat} (h : Ahead m list.tail l)
    (hfuel : l.length < fuel) : bestLoop better list fuel best (l.headD list.tail) m =
      .ok (l.foldl (fun best e => if better best e then e else best) best, m) := by
  induction l generalizing fuel best with
  | nil =>
    obtain ⟨fuel, rfl⟩ := Nat.exists_eq_succ_of_ne_zero (Nat.ne_zero_of_lt hfuel)
    simp [bestLoop, listEnd]
  | cons x l ih =>
    obtain ⟨hne, hnext, hrest⟩ := h.step
    obtain ⟨fuel, rfl⟩ := Nat.exists_eq_succ_of_ne_zero (Nat.ne_zero_of_lt hfuel)
    rw [List.headD_cons, bestLoop, listEnd, if_neg hne, Routine.bind_of_ok (listNext_ok hnext),
      ih hrest (Nat.lt_of_succ_lt_succ hfuel), List.foldl_cons]

/-- The first of the best elements, and the tail of an empty list. -/
def firstBest (better : α → α → Bool) (tail : α) : List α → α
  | [] => tail
  | x :: l => l.foldl (fun best e => if better best e then e else best) x

theorem listBest_ok {better : α → α → Bool} {fuel : Nat}
    (h : m.Spells (list.head :: (l ++ [list.tail]))) (hfuel : l.length < fuel) :
    listBest better fuel list m = .ok (firstBest better list.tail l, m) := by
  rw [listBest, Routine.bind_of_ok (listBegin_headD h)]
  cases l with
  | nil => simp [listEnd, firstBest]
  | cons x l =>
    obtain ⟨hne, hnext, hrest⟩ := (Ahead.of_spells h).step
    rw [List.headD_cons, listEnd, if_pos hne, Routine.bind_of_ok (listNext_ok hnext),
      bestLoop_ok hrest (Nat.lt_of_succ_lt hfuel)]
    rfl

/-! ### One element -/

theorem listInsert_ok (h : m.Spells (xs ++ a :: b :: ys)) (he : e ∉ xs ++ a :: b :: ys) :
    listInsert b e m = .ok ((), m.insertBefore b e) := by
  have hab := h.before
  have hcheck : (isInterior m b || isTail m b) = true := by
    simp only [isInterior, isTail, hab.2]
    by_cases hnext : m.next b = none <;> simp [hnext]
  have hbe : b ≠ e := by
    rintro rfl
    exact he (by simp)
  rw [listInsert, Routine.get_bind_apply, Routine.bind_of_ok (assertThat_ok hcheck), setPrev,
    Routine.modify_bind_apply, setNext, Routine.modify_bind_apply]
  generalize hm1 : ({
    prev := Function.update m.prev e (m.prev b)
    next := Function.update m.next e (some b) } : Links α) = m1
  have hprev : prev b m1 = .ok (a, m1) := by
    rw [prev, Routine.get_bind_apply, ← hm1]
    dsimp only
    rw [Function.update_of_ne hbe, hab.2]
    rfl
  rw [Routine.bind_of_ok hprev, setNext, Routine.modify_bind_apply, setPrev, Routine.modify_apply,
    ← hm1, Links.insertBefore, hab.2]

theorem sameOutside_insertBefore (h : m.Before a b) (ha : a ∈ l) (hb : b ∈ l) (he : e ∈ l) :
    SameOutside l m (m.insertBefore b e) := by
  intro c hc
  have hca : c ≠ a := fun heq => hc (heq ▸ ha)
  have hcb : c ≠ b := fun heq => hc (heq ▸ hb)
  have hce : c ≠ e := fun heq => hc (heq ▸ he)
  rw [Links.insertBefore, h.2]
  exact ⟨(Function.update_of_ne hcb ..).trans (Function.update_of_ne hce ..),
    (Function.update_of_ne hca ..).trans (Function.update_of_ne hce ..)⟩

theorem listRemove_ok (h : m.Spells (xs ++ a :: e :: b :: ys)) :
    listRemove e m = .ok (b, m.unlink e) := by
  have hae := h.before
  have hsplit : xs ++ a :: e :: b :: ys = (xs ++ [a]) ++ e :: b :: ys := by simp
  have heb : m.Before e b := (hsplit ▸ h).before
  have hdistinct := h.nodup
  simp only [List.nodup_append, List.nodup_cons, List.mem_cons, not_or] at hdistinct
  have hea : e ≠ a := fun heq => hdistinct.2.1.1.1 heq.symm
  have hcheck : isInterior m e = true := by
    simp [isInterior, hae.2, heb.1]
  rw [listRemove, Routine.get_bind_apply, Routine.bind_of_ok (assertThat_ok hcheck),
    Routine.bind_of_ok (prev_ok hae), setNext, Routine.modify_bind_apply]
  generalize hm1 : ({ prev := m.prev, next := Function.update m.next a (m.next e) } : Links α) = m1
  have hnext1 : next e m1 = .ok (b, m1) := by
    rw [next, Routine.get_bind_apply, ← hm1]
    dsimp only
    rw [Function.update_of_ne hea, heb.1]
    rfl
  rw [Routine.bind_of_ok hnext1, setPrev, Routine.modify_bind_apply]
  have hunlink : ({ m1 with prev := Function.update m1.prev b (m.prev e) } : Links α) =
      m.unlink e := by
    rw [← hm1, Links.unlink, hae.2, heb.1]
  rw [hunlink, next, Routine.get_bind_apply]
  have hnext2 : (m.unlink e).next e = some b := by
    rw [Links.unlink, hae.2]
    exact (Function.update_of_ne hea ..).trans heb.1
  rw [hnext2]
  rfl

theorem sameOutside_unlink (h : m.Before a e) (h' : m.Before e b) (ha : a ∈ l) (hb : b ∈ l) :
    SameOutside l m (m.unlink e) := by
  intro c hc
  have hca : c ≠ a := fun heq => hc (heq ▸ ha)
  have hcb : c ≠ b := fun heq => hc (heq ▸ hb)
  rw [Links.unlink, h.2, h'.1]
  exact ⟨Function.update_of_ne hcb .., Function.update_of_ne hca ..⟩

theorem listInit_ok (h : list.head ≠ list.tail) : ∃ m', listInit list m = .ok ((), m') ∧
    m'.Spells [list.head, list.tail] ∧ SameOutside [list.head, list.tail] m m' := by
  refine ⟨_, rfl, ⟨?_, ?_, ?_, ?_⟩, fun c hc => ?_⟩
  · simp [Links.Before, Function.update_of_ne h]
  · simpa using h
  · simp [Function.update_of_ne h]
  · simp
  · simp only [List.mem_cons, List.not_mem_nil, or_false, not_or] at hc
    exact ⟨(Function.update_of_ne hc.2 ..).trans (Function.update_of_ne hc.1 ..),
      (Function.update_of_ne hc.2 ..).trans (Function.update_of_ne hc.1 ..)⟩

/-! ### Many lists -/

variable {ι : Type} [DecidableEq ι] {header : ι → ListHeader α} {lists : ι → List α} {i : ι}
  {S : List α} {less : α → α → Bool} {fuel : Nat}

/-- The cells of a list, with its head and its tail. -/
def cells (header : ι → ListHeader α) (lists : ι → List α) (i : ι) : List α :=
  (header i).head :: (lists i ++ [(header i).tail])

/-- The cell is in no list. -/
def Free (header : ι → ListHeader α) (lists : ι → List α) (e : α) : Prop :=
  ∀ i, e ∉ cells header lists i

/-- The links spell the sequences, in cells of their own. -/
structure Rep (header : ι → ListHeader α) (lists : ι → List α) (m : Links α) : Prop where
  spells : ∀ i, m.Spells (cells header lists i)
  disjoint : ∀ i j, i ≠ j → (cells header lists i).Disjoint (cells header lists j)

omit [DecidableEq α] in
/-- The frame rule: one list has changed, in its own cells and cells that were free. -/
theorem Rep.change (h : Rep header lists m)
    (hspells : m'.Spells ((header i).head :: (l ++ [(header i).tail])))
    (hsame : SameOutside S m m') (hS : ∀ c ∈ S, c ∈ cells header lists i ∨ Free header lists c)
    (hl : ∀ c ∈ l, c ∈ lists i ∨ Free header lists c) :
    Rep header (Function.update lists i l) m' := by
  have hself : cells header (Function.update lists i l) i =
      (header i).head :: (l ++ [(header i).tail]) := by
    rw [cells, Function.update_self]
  have hother : ∀ j, j ≠ i → cells header (Function.update lists i l) j = cells header lists j := by
    intro j hj
    rw [cells, Function.update_of_ne hj, cells]
  have hapart : ∀ j, j ≠ i → ∀ c, (c ∈ cells header lists i ∨ Free header lists c) →
      c ∉ cells header lists j := by
    rintro j hj c (hc | hc)
    · exact fun hcj => h.disjoint i j hj.symm hc hcj
    · exact hc j
  have hdisjoint : ∀ j, j ≠ i → (cells header (Function.update lists i l) i).Disjoint
      (cells header (Function.update lists i l) j) := by
    intro j hj c hc
    rw [hother j hj]
    refine hapart j hj c ?_
    rw [hself] at hc
    rw [cells]
    simp only [List.mem_cons, List.mem_append, List.not_mem_nil, or_false] at hc ⊢
    rcases hc with hc | hc | hc
    · exact .inl (.inl hc)
    · exact (hl c hc).imp_left fun hmem => .inr (.inl hmem)
    · exact .inl (.inr (.inr hc))
  refine ⟨fun j => ?_, fun j k hjk => ?_⟩
  · by_cases hj : j = i
    · rw [hj, hself]
      exact hspells
    · rw [hother j hj]
      exact hsame.spells (h.spells j) fun c hc => hapart j hj c (hS c hc)
  · by_cases hj : j = i
    · rw [hj]
      exact hdisjoint k fun hk => hjk (hj.trans hk.symm)
    · by_cases hk : k = i
      · rw [hk]
        exact (hdisjoint j hj).symm
      · rw [hother j hj, hother k hk]
        exact h.disjoint j k hjk

omit [DecidableEq α] [DecidableEq ι] in
/-- The cell that a place between two elements is before. -/
theorem Rep.place (h : Rep header lists m) (hl : lists i = us ++ vs) :
    ∃ init a ys, cells header lists i = init ++ a :: vs.headD (header i).tail :: ys ∧
      (∀ l, (header i).head :: (us ++ l) = init ++ a :: l) ∧
      vs ++ [(header i).tail] = vs.headD (header i).tail :: ys ∧
      m.Spells (init ++ a :: vs.headD (header i).tail :: ys) := by
  obtain ⟨init, a, hinit⟩ := cons_split (header i).head us
  obtain ⟨ys, hys⟩ : ∃ ys, vs ++ [(header i).tail] = vs.headD (header i).tail :: ys := by
    cases vs with
    | nil => exact ⟨[], rfl⟩
    | cons b vs => exact ⟨vs ++ [(header i).tail], rfl⟩
  have hcells : cells header lists i = init ++ a :: vs.headD (header i).tail :: ys := by
    rw [cells, hl, List.append_assoc, hinit, hys]
  exact ⟨init, a, ys, hcells, hinit, hys, hcells ▸ h.spells i⟩

theorem Rep.insert (h : Rep header lists m) (hl : lists i = us ++ vs) (he : Free header lists e) :
    ∃ m', listInsert (vs.headD (header i).tail) e m = .ok ((), m') ∧
      Rep header (Function.update lists i (us ++ e :: vs)) m' := by
  obtain ⟨init, a, ys, hcells, hinit, hys, hspells⟩ := h.place hl
  have hout := he i
  rw [hcells] at hout
  refine ⟨_, listInsert_ok hspells hout, ?_⟩
  refine h.change (S := e :: cells header lists i) ?_ ?_ ?_ ?_
  · rw [List.append_assoc, List.cons_append, hinit, hys]
    exact hspells.insertBefore hout
  · refine sameOutside_insertBefore hspells.before ?_ ?_ List.mem_cons_self
    · rw [hcells]
      simp
    · rw [hcells]
      simp
  · intro c hc
    rcases List.mem_cons.mp hc with rfl | hc
    · exact .inr he
    · exact .inl hc
  · intro c hc
    rw [hl]
    simp only [List.mem_append, List.mem_cons] at hc ⊢
    rcases hc with hc | rfl | hc
    · exact .inl (.inl hc)
    · exact .inr he
    · exact .inl (.inr hc)

theorem Rep.remove (h : Rep header lists m) (hl : lists i = us ++ e :: vs) :
    ∃ m', listRemove e m = .ok (vs.headD (header i).tail, m') ∧
      Rep header (Function.update lists i (us ++ vs)) m' := by
  have hl' : lists i = (us ++ [e]) ++ vs := by
    rw [hl]
    simp
  obtain ⟨init, a, hinit⟩ := cons_split (header i).head us
  obtain ⟨-, -, ys, -, -, hys, -⟩ := h.place hl'
  have hcells : cells header lists i =
      init ++ a :: e :: vs.headD (header i).tail :: ys := by
    rw [cells, hl, List.append_assoc, List.cons_append, hinit, hys]
  have hspells := h.spells i
  rw [hcells] at hspells
  have hsplit : init ++ a :: e :: vs.headD (header i).tail :: ys =
      (init ++ [a]) ++ e :: vs.headD (header i).tail :: ys := by simp
  refine ⟨_, listRemove_ok hspells, ?_⟩
  refine h.change (S := cells header lists i) ?_ ?_ (fun c hc => .inl hc) ?_
  · rw [List.append_assoc, hinit, hys]
    exact hspells.unlink
  · refine sameOutside_unlink hspells.before (hsplit ▸ hspells).before ?_ ?_
    · rw [hcells]
      simp
    · rw [hcells]
      simp
  · intro c hc
    rw [hl]
    simp only [List.mem_append, List.mem_cons] at hc ⊢
    tauto

theorem Rep.init (h : Rep header lists m) (hne : (header i).head ≠ (header i).tail) :
    ∃ m', listInit (header i) m = .ok ((), m') ∧
      Rep header (Function.update lists i []) m' := by
  obtain ⟨m', hinit, hspells, hsame⟩ := @listInit_ok _ m (header i) _ hne
  refine ⟨m', hinit, h.change hspells hsame (fun c hc => .inl ?_) fun c hc => ?_⟩
  · rw [cells]
    simp only [List.mem_cons, List.mem_append, List.not_mem_nil, or_false] at hc ⊢
    tauto
  · cases hc

theorem Rep.reverse (h : Rep header lists m) (hfuel : (lists i).length < fuel) :
    ∃ m', listReverse fuel (header i) m = .ok ((), m') ∧
      Rep header (Function.update lists i (lists i).reverse) m' := by
  obtain ⟨m', hreverse, hspells, hsame⟩ := listReverse_ok (h.spells i) hfuel
  exact ⟨m', hreverse, h.change hspells hsame (fun c hc => .inl hc) fun c hc =>
    .inl (List.mem_reverse.mp hc)⟩

theorem Rep.popFront (h : Rep header lists m) (hl : lists i = e :: vs) :
    ∃ m', listPopFront (header i) m = .ok (e, m') ∧
      Rep header (Function.update lists i vs) m' := by
  obtain ⟨m', hremove, hrep⟩ := @Rep.remove _ _ [] vs e _ _ _ header lists i h hl
  refine ⟨m', ?_, hrep⟩
  have hfront : listFront (header i) m = .ok (e, m) := by
    refine listFront_ok (l := vs) ?_
    rw [← hl]
    exact h.spells i
  rw [listPopFront, Routine.bind_of_ok hfront, Routine.bind_of_ok hremove]
  rfl

theorem Rep.popBack (h : Rep header lists m) (hl : lists i = us ++ [e]) :
    ∃ m', listPopBack (header i) m = .ok (e, m') ∧
      Rep header (Function.update lists i us) m' := by
  obtain ⟨m', hremove, hrep⟩ := h.remove hl
  rw [List.append_nil] at hrep
  refine ⟨m', ?_, hrep⟩
  have hback : listBack (header i) m = .ok (e, m) := by
    refine listBack_ok (l := us) ?_
    rw [← hl]
    exact h.spells i
  rw [listPopBack, Routine.bind_of_ok hback, Routine.bind_of_ok hremove]
  rfl

/-! ### Duplicates -/

/-- Two elements that are not equal according to `less`. -/
def differ (less : α → α → Bool) (a b : α) : Bool := less a b || less b a

/-- The elements that `list_unique` takes out behind the element `a`. -/
def stuttersFrom (less : α → α → Bool) : α → List α → List α
  | _, [] => []
  | a, b :: l => if differ less a b then stuttersFrom less b l else b :: stuttersFrom less a l

/-- The elements that `list_unique` takes out. -/
def stutters (less : α → α → Bool) : List α → List α
  | [] => []
  | a :: l => stuttersFrom less a l

/-- The elements are appended to a list, if there is one for them. -/
def collect (lists : ι → List α) (duplicates : Option ι) (removed : List α) : ι → List α :=
  match duplicates with
  | some j => Function.update lists j (lists j ++ removed)
  | none => lists

omit [DecidableEq α] in
theorem collect_collect (lists : ι → List α) {duplicates : Option ι} (h : duplicates ≠ some i)
    (l l' xs ys : List α) :
    collect (Function.update (collect (Function.update lists i l) duplicates xs) i l')
      duplicates ys = collect (Function.update lists i l') duplicates (xs ++ ys) := by
  cases duplicates with
  | none =>
    simp [collect]
  | some j =>
    have hj : j ≠ i := fun heq => h (congrArg some heq)
    funext k
    by_cases hkj : k = j <;> by_cases hki : k = i <;>
      simp_all [collect, Function.update_apply]

theorem Rep.pushBack {j : ι} (h : Rep header lists m) (he : Free header lists e) :
    ∃ m', listPushBack (header j) e m = .ok ((), m') ∧
      Rep header (Function.update lists j (lists j ++ [e])) m' :=
  h.insert (List.append_nil _).symm he

omit [DecidableEq α] in
/-- An element that was removed is in no list. -/
theorem Rep.free_removed (h : Rep header lists m) (hl : lists i = us ++ e :: vs) :
    Free header (Function.update lists i (us ++ vs)) e := by
  have he : e ∈ cells header lists i := by
    rw [cells, hl]
    simp
  intro j hj
  by_cases hji : j = i
  · rw [hji, cells, Function.update_self] at hj
    have hnodup := (h.spells i).nodup
    rw [cells, hl] at hnodup
    simp only [List.nodup_cons, List.nodup_append, List.mem_append, List.mem_cons,
      List.not_mem_nil, or_false] at hnodup hj
    grind
  · rw [cells, Function.update_of_ne hji] at hj
    exact h.disjoint i j (Ne.symm hji) he hj

omit [DecidableEq α] [DecidableEq ι] in
theorem Rep.before_next (h : Rep header lists m) (hl : lists i = us ++ e :: vs) :
    m.Before e (vs.headD (header i).tail) := by
  have hl' : lists i = (us ++ [e]) ++ vs := by
    rw [hl]
    simp
  obtain ⟨init, a, hinit⟩ := cons_split (header i).head us
  obtain ⟨-, -, ys, -, -, hys, -⟩ := h.place hl'
  have hspells := h.spells i
  have hsplit : cells header lists i =
      (init ++ [a]) ++ e :: vs.headD (header i).tail :: ys := by
    rw [cells, hl, List.append_assoc, List.cons_append, hinit, hys]
    simp
  exact (hsplit ▸ hspells).before

omit [DecidableEq α] [DecidableEq ι] in
theorem Rep.ne_tail (h : Rep header lists m) (he : e ∈ lists i) : e ≠ (header i).tail := by
  have hnodup := (List.nodup_cons.mp (h.spells i).nodup).2
  rintro rfl
  exact List.disjoint_of_nodup_append hnodup he (List.mem_singleton_self _)

theorem Rep.uniqueLoop {duplicates : Option ι} (hdup : duplicates ≠ some i)
    (h : Rep header lists m) (hl : lists i = us ++ e :: vs) (hfuel : vs.length < fuel) :
    ∃ m', uniqueLoop less (header i) (duplicates.map header) fuel e m = .ok ((), m') ∧
      Rep header (collect
        (Function.update lists i (us ++ List.destutter' (fun a b => differ less a b) e vs))
        duplicates (stuttersFrom less e vs)) m' := by
  induction vs generalizing fuel us e lists m with
  | nil =>
    obtain ⟨fuel, rfl⟩ := Nat.exists_eq_succ_of_ne_zero (Nat.ne_zero_of_lt hfuel)
    refine ⟨m, ?_, ?_⟩
    · rw [KernelList.uniqueLoop, Routine.bind_of_ok (listNext_ok (h.before_next hl)),
        List.headD_nil, listEnd, if_pos rfl]
      rfl
    · have hsame : Function.update lists i
          (us ++ List.destutter' (fun a b => differ less a b) e []) = lists := by
        rw [List.destutter'_nil, ← hl, Function.update_eq_self]
      rw [hsame, stuttersFrom]
      cases duplicates with
      | none => exact h
      | some j =>
        rw [collect, List.append_nil, Function.update_eq_self]
        exact h
  | cons x vs ih =>
    obtain ⟨fuel, rfl⟩ := Nat.exists_eq_succ_of_ne_zero (Nat.ne_zero_of_lt hfuel)
    have hx : x ≠ (header i).tail := h.ne_tail (by rw [hl]; simp)
    have hl' : lists i = (us ++ [e]) ++ x :: vs := by
      rw [hl]
      simp
    rw [KernelList.uniqueLoop, Routine.bind_of_ok (listNext_ok (h.before_next hl)),
      List.headD_cons, listEnd, if_neg hx, List.destutter'_cons, stuttersFrom]
    by_cases hdiffer : differ less e x = true
    · have hdistinct : ¬ (!less e x && !less x e) = true := by
        rw [differ] at hdiffer
        simp only [Bool.and_eq_true, Bool.not_eq_true', not_and, Bool.not_eq_false]
        intro hex
        simpa [hex] using hdiffer
      rw [if_neg hdistinct, if_pos hdiffer, if_pos hdiffer]
      obtain ⟨m', hloop, hrep⟩ := ih h hl' (Nat.lt_of_succ_lt_succ hfuel)
      refine ⟨m', hloop, ?_⟩
      rw [List.append_assoc] at hrep
      exact hrep
    · have hequal : (!less e x && !less x e) = true := by
        rw [differ] at hdiffer
        simpa using hdiffer
      rw [if_pos hequal, if_neg hdiffer, if_neg hdiffer]
      -- the duplicate is taken out of the one list, and put at the end of the other
      obtain ⟨m1, hremove, h1⟩ := h.remove hl'
      have hfree := h.free_removed hl'
      rw [List.append_assoc, List.singleton_append] at h1 hfree
      obtain ⟨m2, hpush, h2⟩ : ∃ m2, keepDuplicate (duplicates.map header) x m1 = .ok ((), m2) ∧
          Rep header (collect (Function.update lists i (us ++ e :: vs)) duplicates [x]) m2 := by
        cases duplicates with
        | none => exact ⟨m1, rfl, h1⟩
        | some j => exact h1.pushBack hfree
      have hl2 : collect (Function.update lists i (us ++ e :: vs)) duplicates [x] i =
          us ++ e :: vs := by
        cases duplicates with
        | none => exact Function.update_self ..
        | some j =>
          have hij : i ≠ j := fun heq => hdup (congrArg some heq.symm)
          exact (Function.update_of_ne hij ..).trans (Function.update_self ..)
      obtain ⟨m', hloop, hrep⟩ := ih h2 hl2 (Nat.lt_of_succ_lt_succ hfuel)
      rw [collect_collect lists hdup] at hrep
      refine ⟨m', ?_, hrep⟩
      rw [Routine.bind_of_ok hremove, Routine.bind_of_ok hpush, hloop]

theorem Rep.unique {duplicates : Option ι} (hdup : duplicates ≠ some i) (h : Rep header lists m)
    (hfuel : (lists i).length < fuel) :
    ∃ m', listUnique less fuel (header i) (duplicates.map header) m = .ok ((), m') ∧
      Rep header (collect
        (Function.update lists i ((lists i).destutter fun a b => differ less a b))
        duplicates (stutters less (lists i))) m' := by
  have hempty := listEmpty_ok (h.spells i)
  have hbegin := listBegin_headD (h.spells i)
  rw [listUnique, Routine.bind_of_ok hempty]
  rcases hl : lists i with _ | ⟨e, vs⟩
  · refine ⟨m, rfl, ?_⟩
    have hsame : Function.update lists i (List.destutter (fun a b => differ less a b) []) =
        lists := by
      rw [List.destutter_nil, ← hl, Function.update_eq_self]
    rw [hsame, stutters]
    cases duplicates with
    | none => exact h
    | some j =>
      rw [collect, List.append_nil, Function.update_eq_self]
      exact h
  · rw [hl] at hfuel hbegin
    obtain ⟨m', hloop, hrep⟩ := @Rep.uniqueLoop _ m [] vs e _ _ _ header lists i less fuel
      duplicates hdup h hl (Nat.lt_of_succ_lt hfuel)
    have hsome : ¬ (e :: vs).isEmpty = true := by simp
    refine ⟨m', ?_, hrep⟩
    rw [if_neg hsome, Routine.bind_of_ok hbegin]
    exact hloop

end KernelList

end Pintos
