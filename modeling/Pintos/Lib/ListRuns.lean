import Pintos.Lib.ListOps
import Pintos.Library.Coupling
import Mathlib.Data.Fintype.Card

/-! Runs of list operations.  Whatever is done with the lists, their links spell the sequences that
the same operations on sequences give.  The loops get as much fuel as there are cells. -/

namespace Pintos

namespace KernelList

variable {ι α : Type} [DecidableEq ι] [DecidableEq α] {header : ι → ListHeader α}
  {lists : ι → List α} {i : ι} {m : Links α} {l : List α} {less : α → α → Bool} {fuel : Nat}

/-- The calls of `lib/kernel/list.c`.  The list of an element that is given as such is named for
the sequences only. -/
inductive Op (ι α : Type) where
  | init (i : ι)
  | insert (i : ι) (before elem : α)
  | pushFront (i : ι) (elem : α)
  | pushBack (i : ι) (elem : α)
  | remove (i : ι) (elem : α)
  | popFront (i : ι)
  | popBack (i : ι)
  | front (i : ι)
  | back (i : ι)
  | size (i : ι)
  | empty (i : ι)
  | reverse (i : ι)
  | insertOrdered (less : α → α → Bool) (i : ι) (elem : α)
  | unique (less : α → α → Bool) (i : ι) (duplicates : Option ι)
  | max (less : α → α → Bool) (i : ι)
  | min (less : α → α → Bool) (i : ι)

inductive Answer (α : Type) where
  | done
  | cell (e : α)
  | count (n : Nat)
  | truth (b : Bool)
  deriving DecidableEq

/-- A call, as the links are changed. -/
def exec (header : ι → ListHeader α) (fuel : Nat) : Op ι α → ListRoutine α (Answer α)
  | .init i => do
    listInit (header i)
    pure .done
  | .insert _ before elem => do
    listInsert before elem
    pure .done
  | .pushFront i elem => do
    listPushFront (header i) elem
    pure .done
  | .pushBack i elem => do
    listPushBack (header i) elem
    pure .done
  | .remove _ elem => do
    pure (.cell (← listRemove elem))
  | .popFront i => do
    pure (.cell (← listPopFront (header i)))
  | .popBack i => do
    pure (.cell (← listPopBack (header i)))
  | .front i => do
    pure (.cell (← listFront (header i)))
  | .back i => do
    pure (.cell (← listBack (header i)))
  | .size i => do
    pure (.count (← listSize fuel (header i)))
  | .empty i => do
    pure (.truth (← listEmpty (header i)))
  | .reverse i => do
    listReverse fuel (header i)
    pure .done
  | .insertOrdered less i elem => do
    listInsertOrdered less fuel (header i) elem
    pure .done
  | .unique less i duplicates => do
    listUnique less fuel (header i) (duplicates.map header)
    pure .done
  | .max less i => do
    pure (.cell (← listMax less fuel (header i)))
  | .min less i => do
    pure (.cell (← listMin less fuel (header i)))

/-- A call, on sequences. -/
def effect (header : ι → ListHeader α) (lists : ι → List α) : Op ι α → Answer α × (ι → List α)
  | .init i => (.done, Function.update lists i [])
  | .insert i before elem => (.done, Function.update lists i
      ((lists i).takeWhile (· ≠ before) ++ elem :: (lists i).dropWhile (· ≠ before)))
  | .pushFront i elem => (.done, Function.update lists i (elem :: lists i))
  | .pushBack i elem => (.done, Function.update lists i (lists i ++ [elem]))
  | .remove i elem => (.cell (((lists i).dropWhile (· ≠ elem)).tail.headD (header i).tail),
      Function.update lists i ((lists i).erase elem))
  | .popFront i => (.cell ((lists i).headD (header i).tail),
      Function.update lists i (lists i).tail)
  | .popBack i => (.cell ((lists i).getLastD (header i).head),
      Function.update lists i (lists i).dropLast)
  | .front i => (.cell ((lists i).headD (header i).tail), lists)
  | .back i => (.cell ((lists i).getLastD (header i).head), lists)
  | .size i => (.count (lists i).length, lists)
  | .empty i => (.truth (lists i).isEmpty, lists)
  | .reverse i => (.done, Function.update lists i (lists i).reverse)
  | .insertOrdered less i elem => (.done, Function.update lists i
      (((lists i).takeWhile fun e => !less elem e) ++
        elem :: (lists i).dropWhile fun e => !less elem e))
  | .unique less i duplicates => (.done, collect
      (Function.update lists i ((lists i).destutter fun a b => differ less a b))
      duplicates (stutters less (lists i)))
  | .max less i => (.cell (firstBest (fun max e => less max e) (header i).tail (lists i)), lists)
  | .min less i => (.cell (firstBest (fun min e => less e min) (header i).tail (lists i)), lists)

/-- What the comments of `list.c` ask of the caller. -/
def Allowed (header : ι → ListHeader α) (lists : ι → List α) : Op ι α → Prop
  | .insert i before elem => before ∈ lists i ∧ Free header lists elem
  | .pushFront _ elem | .pushBack _ elem | .insertOrdered _ _ elem => Free header lists elem
  | .remove i elem => elem ∈ lists i
  | .popFront i | .popBack i | .front i | .back i => lists i ≠ []
  | .unique _ i duplicates => duplicates ≠ some i
  | _ => True

theorem exec_ok {op : Op ι α} (h : Rep header lists m) (hop : Allowed header lists op)
    (hfuel : ∀ i, (lists i).length < fuel) :
    ∃ m', exec header fuel op m = .ok ((effect header lists op).1, m') ∧
      Rep header (effect header lists op).2 m' := by
  cases op with
  | init i =>
    have hne : (header i).head ≠ (header i).tail := by
      have hnodup := (h.spells i).nodup
      rw [cells] at hnodup
      simp only [List.nodup_cons, List.mem_append, List.mem_singleton, not_or] at hnodup
      exact hnodup.1.2
    obtain ⟨m', hinit, hrep⟩ := h.init hne
    exact ⟨m', Routine.bind_of_ok hinit _, hrep⟩
  | insert i before elem =>
    obtain ⟨us, vs, hl, hout⟩ := List.eq_append_cons_of_mem hop.1
    obtain ⟨m', hinsert, hrep⟩ := h.insert hl hop.2
    have hne : ∀ x ∈ us, decide (x ≠ before) = true := fun x hx =>
      decide_eq_true fun heq => hout (heq ▸ hx)
    have hself : ¬ (fun a => decide (a ≠ before)) before = true := by simp
    refine ⟨m', Routine.bind_of_ok hinsert _, ?_⟩
    rw [effect, hl, List.takeWhile_append_of_pos hne, List.dropWhile_append_of_pos hne,
      @List.takeWhile_cons_of_neg _ (fun a => decide (a ≠ before)) _ _ hself,
      @List.dropWhile_cons_of_neg _ (fun a => decide (a ≠ before)) _ _ hself, List.append_nil]
    exact hrep
  | pushFront i elem =>
    obtain ⟨m', hinsert, hrep⟩ := @Rep.insert _ m [] (lists i) elem _ _ _ header lists i h rfl hop
    refine ⟨m', ?_, hrep⟩
    rw [exec, listPushFront]
    exact Routine.bind_of_ok ((Routine.bind_of_ok (listBegin_headD (h.spells i)) _).trans hinsert) _
  | pushBack i elem =>
    obtain ⟨m', hpush, hrep⟩ := @Rep.pushBack _ m elem _ _ _ header lists i h hop
    exact ⟨m', Routine.bind_of_ok hpush _, hrep⟩
  | remove i elem =>
    obtain ⟨us, vs, hl, hout⟩ := List.eq_append_cons_of_mem hop
    obtain ⟨m', hremove, hrep⟩ := h.remove hl
    have hne : ∀ x ∈ us, decide (x ≠ elem) = true := fun x hx =>
      decide_eq_true fun heq => hout (heq ▸ hx)
    have hself : ¬ (fun a => decide (a ≠ elem)) elem = true := by simp
    refine ⟨m', ?_, ?_⟩
    · rw [effect, hl, List.dropWhile_append_of_pos hne,
        @List.dropWhile_cons_of_neg _ (fun a => decide (a ≠ elem)) _ _ hself]
      exact Routine.bind_of_ok hremove _
    · rw [effect, hl, List.erase_append_right _ hout, List.erase_cons_head]
      exact hrep
  | popFront i =>
    obtain ⟨e, vs, hl⟩ := List.exists_cons_of_ne_nil hop
    obtain ⟨m', hpop, hrep⟩ := h.popFront hl
    rw [effect, hl]
    exact ⟨m', Routine.bind_of_ok hpop _, hrep⟩
  | popBack i =>
    obtain ⟨us, e, hl⟩ := (List.eq_nil_or_concat (lists i)).resolve_left hop
    rw [List.concat_eq_append] at hl
    obtain ⟨m', hpop, hrep⟩ := h.popBack hl
    rw [effect, hl, List.dropLast_concat, List.getLastD_concat]
    exact ⟨m', Routine.bind_of_ok hpop _, hrep⟩
  | front i =>
    obtain ⟨e, vs, hl⟩ := List.exists_cons_of_ne_nil hop
    have hfront : listFront (header i) m = .ok (e, m) := by
      refine listFront_ok (l := vs) ?_
      rw [← hl]
      exact h.spells i
    rw [effect, hl]
    exact ⟨m, Routine.bind_of_ok hfront _, h⟩
  | back i =>
    obtain ⟨us, e, hl⟩ := (List.eq_nil_or_concat (lists i)).resolve_left hop
    rw [List.concat_eq_append] at hl
    have hback : listBack (header i) m = .ok (e, m) := by
      refine listBack_ok (l := us) ?_
      rw [← hl]
      exact h.spells i
    rw [effect, hl, List.getLastD_concat]
    exact ⟨m, Routine.bind_of_ok hback _, h⟩
  | size i =>
    have hsize : listSize fuel (header i) m = .ok ((lists i).length, m) := by
      rw [listSize, Routine.bind_of_ok (listBegin_headD (h.spells i)),
        sizeLoop_ok (.of_spells (h.spells i)) (hfuel i), Nat.zero_add]
    exact ⟨m, Routine.bind_of_ok hsize _, h⟩
  | empty i => exact ⟨m, Routine.bind_of_ok (listEmpty_ok (h.spells i)) _, h⟩
  | reverse i =>
    obtain ⟨m', hreverse, hrep⟩ := h.reverse (hfuel i)
    exact ⟨m', Routine.bind_of_ok hreverse _, hrep⟩
  | insertOrdered less i elem =>
    have hplace := @placeLoop_ok _ m (lists i) (header i) _ less elem fuel
      (.of_spells (h.spells i)) (hfuel i)
    obtain ⟨m', hinsert, hrep⟩ := h.insert
      (List.takeWhile_append_dropWhile (p := fun e => !less elem e) (l := lists i)).symm hop
    refine ⟨m', ?_, hrep⟩
    rw [exec, listInsertOrdered]
    exact Routine.bind_of_ok ((Routine.bind_of_ok (listBegin_headD (h.spells i)) _).trans
      ((Routine.bind_of_ok hplace _).trans hinsert)) _
  | unique less i duplicates =>
    obtain ⟨m', hunique, hrep⟩ := @Rep.unique _ m _ _ _ header lists i less fuel duplicates hop h
      (hfuel i)
    exact ⟨m', Routine.bind_of_ok hunique _, hrep⟩
  | max less i => exact ⟨m, Routine.bind_of_ok (listBest_ok (h.spells i) (hfuel i)) _, h⟩
  | min less i => exact ⟨m, Routine.bind_of_ok (listBest_ok (h.spells i) (hfuel i)) _, h⟩

/-- The machine whose state is the sequences. -/
def onSequences (header : ι → ListHeader α) (op : Op ι α) :
    Routine Fault (ι → List α) (Answer α) := fun lists => .ok (effect header lists op)

omit [DecidableEq α] [DecidableEq ι] in
/-- There are more cells than elements in any list. -/
theorem Rep.length_lt [Fintype α] (h : Rep header lists m) (i : ι) :
    (lists i).length < Fintype.card α := by
  have hle := (h.spells i).nodup.length_le_card
  rw [cells, List.length_cons, List.length_append] at hle
  exact Nat.lt_of_lt_of_le (Nat.lt_succ_of_le (Nat.le_add_right _ _)) hle

instance decidableFree [Fintype ι] (lists : ι → List α) (e : α) : Decidable (Free header lists e) :=
  inferInstanceAs (Decidable (∀ i, e ∉ cells header lists i))

instance decidableAllowed [Fintype ι] (lists : ι → List α) :
    (op : Op ι α) → Decidable (Allowed header lists op)
  | .insert i before elem =>
    inferInstanceAs (Decidable (before ∈ lists i ∧ Free header lists elem))
  | .pushFront _ elem => inferInstanceAs (Decidable (Free header lists elem))
  | .pushBack _ elem => inferInstanceAs (Decidable (Free header lists elem))
  | .insertOrdered _ _ elem => inferInstanceAs (Decidable (Free header lists elem))
  | .remove i elem => inferInstanceAs (Decidable (elem ∈ lists i))
  | .popFront i => inferInstanceAs (Decidable (lists i ≠ []))
  | .popBack i => inferInstanceAs (Decidable (lists i ≠ []))
  | .front i => inferInstanceAs (Decidable (lists i ≠ []))
  | .back i => inferInstanceAs (Decidable (lists i ≠ []))
  | .unique _ i duplicates => inferInstanceAs (Decidable (duplicates ≠ some i))
  | .init _ | .size _ | .empty _ | .reverse _ | .max _ _ | .min _ _ => .isTrue trivial

/-! ### Ordered lists -/

/-- The call leaves the list `i` in order if it was. -/
def Op.KeepsOrder (less : α → α → Bool) (i : ι) : Op ι α → Prop
  | .insert j _ _ | .pushFront j _ | .pushBack j _ | .reverse j => j ≠ i
  | .insertOrdered less' j _ => j = i → less' = less
  | .unique _ _ duplicates => duplicates ≠ some i
  | _ => True

omit [DecidableEq α] in
/-- Taking elements out of a list keeps it in order. -/
theorem sorted_update {j : ι} (h : Runs.Sorted less (lists i))
    (hsub : j = i → l.Sublist (lists j)) : Runs.Sorted less (Function.update lists j l i) := by
  by_cases hji : j = i
  · cases hji
    rw [Function.update_self]
    exact h.sublist (hsub rfl)
  · rw [Function.update_of_ne (Ne.symm hji)]
    exact h

theorem sorted_effect [IsStrictWeakOrder α fun a b => less a b] {op : Op ι α}
    (h : Runs.Sorted less (lists i)) (hop : op.KeepsOrder less i) :
    Runs.Sorted less ((effect header lists op).2 i) := by
  cases op with
  | init j => exact sorted_update h fun _ => List.nil_sublist _
  | insert j before elem => exact sorted_update h fun hji => absurd hji hop
  | pushFront j elem => exact sorted_update h fun hji => absurd hji hop
  | pushBack j elem => exact sorted_update h fun hji => absurd hji hop
  | reverse j => exact sorted_update h fun hji => absurd hji hop
  | remove j elem => exact sorted_update h fun _ => List.erase_sublist
  | popFront j => exact sorted_update h fun _ => List.tail_sublist _
  | popBack j => exact sorted_update h fun _ => List.dropLast_sublist _
  | insertOrdered less' j elem =>
    by_cases hji : j = i
    · obtain rfl : less' = less := hop hji
      cases hji
      rw [effect]
      dsimp only
      rw [Function.update_self]
      exact Runs.sorted_insert h elem
    · rw [effect]
      dsimp only
      rw [Function.update_of_ne (Ne.symm hji)]
      exact h
  | unique less' j duplicates =>
    have hunique : Runs.Sorted less (Function.update lists j
        ((lists j).destutter fun a b => differ less' a b) i) :=
      sorted_update h fun _ => List.destutter_sublist _ _
    cases duplicates with
    | none => exact hunique
    | some k =>
      have hik : i ≠ k := fun heq => hop (congrArg some heq.symm)
      rw [effect]
      dsimp only
      rw [collect, Function.update_of_ne hik]
      exact hunique
  | front | back | size | empty | max | min => exact h

end KernelList

/-- Whatever is done with the lists of a kernel, they are the sequences that the same calls on
sequences give, and every call answers what it does there: no assertion fails, no null pointer is
followed and every loop ends. -/
theorem lists_are_sequences {ι α : Type} [DecidableEq ι] [DecidableEq α] [Fintype α]
    {header : ι → KernelList.ListHeader α} {lists : ι → List α} {m : Links α}
    {ops : List (KernelList.Op ι α)} (h : KernelList.Rep header lists m)
    (hallowed : ∀ op lists', Routine.Takes (KernelList.onSequences header) ops lists op lists' →
      KernelList.Allowed header lists' op) :
    ∃ answers lists' m',
      Routine.execAll (KernelList.onSequences header) ops lists = .ok (answers, lists') ∧
      Routine.execAll (KernelList.exec header (Fintype.card α)) ops m = .ok (answers, m') ∧
      KernelList.Rep header lists' m' := by
  have hstep : ∀ lists m op, KernelList.Rep header lists m → KernelList.Allowed header lists op →
      ∃ answer lists' m', KernelList.onSequences header op lists = .ok (answer, lists') ∧
        KernelList.exec header (Fintype.card α) op m = .ok (answer, m') ∧
        KernelList.Rep header lists' m' := by
    intro lists m op h hop
    obtain ⟨m', hexec, hrep⟩ := KernelList.exec_ok h hop h.length_lt
    exact ⟨_, _, m', rfl, hexec, hrep⟩
  exact Routine.execAll_coupled hstep hallowed h

/-- Two lists, in the cells 0 to 3. -/
def twoHeaders (second : Bool) : KernelList.ListHeader (Fin 8) :=
  if second then ⟨2, 3⟩ else ⟨0, 1⟩

/-- Both are empty. -/
def twoEmpty : Links (Fin 8) where
  next c := if c = 0 then some 1 else if c = 2 then some 3 else none
  prev c := if c = 1 then some 0 else if c = 3 then some 2 else none

theorem twoEmpty_rep : KernelList.Rep twoHeaders (fun _ => []) twoEmpty where
  spells i := by
    cases i
    · exact ⟨by simp [KernelList.cells, twoHeaders, twoEmpty, Links.Before], by decide,
        by simp [KernelList.cells, twoHeaders, twoEmpty],
        by simp [KernelList.cells, twoHeaders, twoEmpty]⟩
    · exact ⟨by simp [KernelList.cells, twoHeaders, twoEmpty, Links.Before], by decide,
        by simp [KernelList.cells, twoHeaders, twoEmpty],
        by simp [KernelList.cells, twoHeaders, twoEmpty]⟩
  disjoint i j hij := by
    have h : ∀ i j : Bool, i ≠ j → (KernelList.cells twoHeaders (fun _ => []) i).Disjoint
        (KernelList.cells twoHeaders (fun _ => []) j) := by
      simp only [List.disjoint_left]
      decide
    exact h i j hij

/-- By halves, 4 and 5 are the same. -/
def byHalves (a b : Fin 8) : Bool := a.val / 2 < b.val / 2

instance isStrictWeakOrder_byHalves : IsStrictWeakOrder (Fin 8) fun a b => byHalves a b where
  irrefl a := by simp [byHalves]
  trans a b c := by simp only [byHalves, decide_eq_true_eq]; omega
  incomp_trans a b c := by simp only [byHalves, decide_eq_true_eq]; omega

/-- Three elements are put in order, and the second of two that are the same goes to the other
list. -/
def orderedCalls : List (KernelList.Op Bool (Fin 8)) :=
  [.insertOrdered byHalves false 6, .insertOrdered byHalves false 4,
    .insertOrdered byHalves false 5, .unique byHalves false (some true), .popFront true,
    .back false, .size false]

theorem orderedCalls_allowed : ∀ op lists, Routine.Takes (KernelList.onSequences twoHeaders)
    orderedCalls (fun _ => []) op lists → KernelList.Allowed twoHeaders lists op := by
  intro op lists htakes
  have hcheck : Routine.checkAll (KernelList.onSequences twoHeaders)
      (fun op lists => decide (KernelList.Allowed twoHeaders lists op)) orderedCalls
      (fun _ => []) = true := by
    decide +kernel
  have hop := Routine.of_checkAll hcheck htakes
  exact of_decide_eq_true hop

theorem lists_are_sequences_two : ∃ lists m', Routine.execAll (KernelList.exec twoHeaders 8)
    orderedCalls twoEmpty =
      .ok ([.done, .done, .done, .done, .cell 5, .cell 6, .count 2], m') ∧
    KernelList.Rep twoHeaders lists m' := by
  obtain ⟨answers, lists, m', hseq, hexec, hrep⟩ :=
    lists_are_sequences twoEmpty_rep orderedCalls_allowed
  have hanswers : (Routine.execAll (KernelList.onSequences twoHeaders) orderedCalls
      fun _ => []).map Prod.fst =
      .ok [.done, .done, .done, .done, .cell 5, .cell 6, .count 2] := by
    decide +kernel
  rw [hseq] at hanswers
  cases hanswers
  exact ⟨lists, m', hexec, hrep⟩

/-- A list that is only changed by `list_insert_ordered` and by taking elements out is in order
whenever it is looked at, whatever is done with other lists. -/
theorem ordered_lists_stay_ordered {ι α : Type} [DecidableEq ι] [DecidableEq α] [Fintype α]
    {less : α → α → Bool} [IsStrictWeakOrder α fun a b => less a b]
    {header : ι → KernelList.ListHeader α} {lists : ι → List α} {m v : Links α}
    {ops : List (KernelList.Op ι α)} {i : ι} (h : KernelList.Rep header lists m)
    (hallowed : ∀ op lists', Routine.Takes (KernelList.onSequences header) ops lists op lists' →
      KernelList.Allowed header lists' op)
    (hsorted : Runs.Sorted less (lists i)) (hkeeps : ∀ op ∈ ops, op.KeepsOrder less i)
    (hvisits : Routine.Visits (KernelList.exec header (Fintype.card α)) ops m v) :
    ∃ lists', KernelList.Rep header lists' v ∧ Runs.Sorted less (lists' i) := by
  obtain ⟨before, after, answers, rfl, hrun⟩ := hvisits
  have hstep : ∀ lists m op, (KernelList.Rep header lists m ∧ Runs.Sorted less (lists i)) →
      (KernelList.Allowed header lists op ∧ op.KeepsOrder less i) →
      ∃ answer lists' m', KernelList.onSequences header op lists = .ok (answer, lists') ∧
        KernelList.exec header (Fintype.card α) op m = .ok (answer, m') ∧
        KernelList.Rep header lists' m' ∧ Runs.Sorted less (lists' i) := by
    intro lists m op h hop
    obtain ⟨m', hexec, hrep⟩ := KernelList.exec_ok h.1 hop.1 h.1.length_lt
    exact ⟨_, _, m', rfl, hexec, hrep, KernelList.sorted_effect h.2 hop.2⟩
  have hmay : ∀ op lists', Routine.Takes (KernelList.onSequences header) before lists op lists' →
      KernelList.Allowed header lists' op ∧ op.KeepsOrder less i := by
    rintro op lists' ⟨first, rest, as, rfl, hfirst⟩
    have hsplit : (first ++ op :: rest) ++ after = first ++ op :: (rest ++ after) := by simp
    exact ⟨hallowed op lists' ⟨first, rest ++ after, as, hsplit, hfirst⟩, hkeeps op (by simp)⟩
  obtain ⟨_, lists', m', -, hrun', hrep, hordered⟩ :=
    Routine.execAll_coupled hstep hmay ⟨h, hsorted⟩
  cases hrun.symm.trans hrun'
  exact ⟨lists', hrep, hordered⟩

/-- The three insertions have been done. -/
theorem ordered_lists_stay_ordered_three : ∃ answers v lists,
    Routine.execAll (KernelList.exec twoHeaders 8) (orderedCalls.take 3) twoEmpty =
      .ok (answers, v) ∧ KernelList.Rep twoHeaders lists v ∧ Runs.Sorted byHalves (lists false) := by
  obtain ⟨⟨answers, v⟩, hrun⟩ := Routine.ok_of_toBool (show (Routine.execAll
    (KernelList.exec twoHeaders 8) (orderedCalls.take 3) twoEmpty).toBool = true by decide +kernel)
  have hvisits : Routine.Visits (KernelList.exec twoHeaders 8) orderedCalls twoEmpty v :=
    ⟨orderedCalls.take 3, orderedCalls.drop 3, answers, rfl, hrun⟩
  have hkeeps : ∀ op ∈ orderedCalls, op.KeepsOrder byHalves false := by
    simp [orderedCalls, KernelList.Op.KeepsOrder]
  obtain ⟨lists, hrep, hsorted⟩ := @ordered_lists_stay_ordered Bool (Fin 8) _ _ _ byHalves _
    twoHeaders (fun _ => []) twoEmpty v orderedCalls false twoEmpty_rep orderedCalls_allowed
    List.Pairwise.nil hkeeps hvisits
  exact ⟨answers, v, lists, hrun, hrep, hsorted⟩

end Pintos
