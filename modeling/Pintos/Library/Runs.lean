import Mathlib.Data.List.Chain
import Mathlib.Order.Defs.Unbundled

/-! Runs of nondecreasing elements in lists, and merging them stably.  The order is given as a test
for less. -/

namespace Runs

variable {α : Type} (less : α → α → Bool)

/-- No element is less than one before it. -/
def Sorted (l : List α) : Prop := l.Pairwise fun a b => ¬ less b a

/-- Neither is less than the other. -/
def same (a b : α) : Bool := !less a b && !less b a

/-- The elements of `l` are rearranged, and those that are the same are still in order. -/
structure Stably (l l' : List α) : Prop where
  perm : l'.Perm l
  kept : ∀ a, l'.filter (same less a) = l.filter (same less a)

/-- How many runs there are. -/
def runs : List α → Nat
  | [] => 0
  | [_] => 1
  | a :: b :: l => runs (b :: l) + if less b a then 1 else 0

/-- Of two elements that are the same, the one on the left comes first. -/
def merge (l l' : List α) : List α := l.merge l' fun a b => !less b a

variable {less} {l l' l₁ l₂ l₁' l₂' : List α} {a b c : α}

theorem Stably.refl : Stably less l l := ⟨.refl l, fun _ => rfl⟩

theorem Stably.trans (h : Stably less l l₁) (h' : Stably less l₁ l₂) : Stably less l l₂ :=
  ⟨h'.perm.trans h.perm, fun a => (h'.kept a).trans (h.kept a)⟩

theorem Stably.append (h : Stably less l₁ l₁') (h' : Stably less l₂ l₂') :
    Stably less (l₁ ++ l₂) (l₁' ++ l₂') := by
  refine ⟨h.perm.append h'.perm, fun a => ?_⟩
  rw [List.filter_append, List.filter_append, h.kept, h'.kept]

/-! ### Counting runs -/

theorem runs_le_length (l : List α) : runs less l ≤ l.length := by
  induction l with
  | nil => exact Nat.le_refl 0
  | cons a l ih =>
    cases l with
    | nil => exact Nat.le_refl 1
    | cons b l =>
      rw [runs, List.length_cons]
      split_ifs <;> omega

theorem runs_append_le (l l' : List α) : runs less (l ++ l') ≤ runs less l + runs less l' := by
  induction l with
  | nil =>
    rw [List.nil_append]
    exact Nat.le_add_left ..
  | cons a l ih =>
    cases l with
    | nil =>
      cases l' with
      | nil => exact Nat.le_refl 1
      | cons b l' =>
        rw [List.singleton_append, runs, runs]
        split_ifs <;> omega
    | cons b l =>
      rw [List.cons_append, List.cons_append, runs, runs, ← List.cons_append]
      omega

theorem runs_cons_pos : 0 < runs less (a :: l) := by
  induction l generalizing a with
  | nil => exact Nat.one_pos
  | cons b l ih =>
    rw [runs]
    have := ih (a := b)
    omega

/-- Elements in order are one run. -/
theorem runs_of_chain (h : (a :: l).IsChain fun a b => ¬ less b a) : runs less (a :: l) = 1 := by
  induction l generalizing a with
  | nil => rfl
  | cons b l ih =>
    obtain ⟨hab, h⟩ := List.isChain_cons_cons.mp h
    rw [runs, if_neg hab, ih h]

theorem chain_of_runs (h : runs less l ≤ 1) : l.IsChain fun a b => ¬ less b a := by
  induction l with
  | nil => exact .nil
  | cons a l ih =>
    cases l with
    | nil => exact .singleton a
    | cons b l =>
      rw [runs] at h
      have hpos : 0 < runs less (b :: l) := runs_cons_pos
      refine List.isChain_cons_cons.mpr ⟨fun hless => ?_, ih (by omega)⟩
      rw [if_pos hless] at h
      omega

theorem runs_of_sorted (h : Sorted less l) : runs less l ≤ 1 := by
  cases l with
  | nil => exact Nat.zero_le 1
  | cons a l => exact (runs_of_chain h.isChain).le

/-- A run ends before a lesser element. -/
theorem runs_break (h : (a :: l).IsChain fun a b => ¬ less b a)
    (hless : less b ((a :: l).getLast (List.cons_ne_nil a l))) :
    runs less (a :: l ++ b :: l') = 1 + runs less (b :: l') := by
  induction l generalizing a with
  | nil =>
    rw [List.singleton_append, runs, if_pos (by simpa using hless), Nat.add_comm]
  | cons c l ih =>
    obtain ⟨hac, h⟩ := List.isChain_cons_cons.mp h
    rw [List.getLast_cons (List.cons_ne_nil c l)] at hless
    rw [List.cons_append, List.cons_append, runs, if_neg hac, ← List.cons_append, ih h hless]
    rfl

/-- The first element that `dropWhile` keeps. -/
theorem dropWhile_head {p : α → Bool} {a : α} {r : List α} (h : l.dropWhile p = a :: r) :
    p a = false := by
  induction l with
  | nil => cases h
  | cons b l ih =>
    rw [List.dropWhile_cons] at h
    split_ifs at h with hb
    · exact ih h
    · cases h
      exact Bool.eq_false_iff.mpr hb

/-! ### Merging -/

section

variable [IsStrictWeakOrder α fun a b => less a b]

theorem not_less_self (a : α) : ¬ less a a := irrefl_of (fun a b => less a b = true) a

theorem less_trans (hab : less a b) (hbc : less b c) : less a c :=
  trans_of (fun a b => less a b = true) hab hbc

theorem not_less_trans (hab : ¬ less b a) (hbc : ¬ less c b) : ¬ less c a := by
  intro hca
  have hab' : ¬ less a b := fun h => hbc (less_trans hca h)
  have hbc' : ¬ less b c := fun h => hab (less_trans h hca)
  have hincomp := @IsStrictWeakOrder.incomp_trans α (fun a b => less a b = true) _ a b c
    ⟨hab', hab⟩ ⟨hbc', hbc⟩
  exact hincomp.2 hca

theorem less_of_less_of_not_less (hab : less a b) (hbc : ¬ less c b) : less a c := by
  by_contra hac
  exact not_less_trans hbc hac hab

theorem sorted_of_chain (h : l.IsChain fun a b => ¬ less b a) : Sorted less l := by
  have : IsTrans α fun a b => ¬ less b a := ⟨fun _ _ _ hab hbc => not_less_trans hab hbc⟩
  exact List.isChain_iff_pairwise.mp h

theorem sorted_merge (h : Sorted less l) (h' : Sorted less l') : Sorted less (merge less l l') := by
  have hle : ∀ {l : List α}, Sorted less l ↔ l.Pairwise fun a b => !less b a := by
    intro l
    simp [Sorted]
  rw [hle] at h h' ⊢
  refine List.pairwise_merge (fun a b c hab hbc => ?_) (fun a b => ?_) l l' h h'
  · simp only [Bool.not_eq_true', Bool.eq_false_iff] at hab hbc ⊢
    exact not_less_trans hab hbc
  · simp only [Bool.or_eq_true, Bool.not_eq_true', Bool.eq_false_iff]
    by_contra hnot
    obtain ⟨hba, hab⟩ := not_or.mp hnot
    exact not_less_self a (less_trans (not_not.mp hab) (not_not.mp hba))

/-- An element is put right before the first that is greater. -/
theorem sorted_insert (h : Sorted less l) (a : α) :
    Sorted less ((l.takeWhile fun b => !less a b) ++ a :: l.dropWhile fun b => !less a b) := by
  have hsplit : Sorted less ((l.takeWhile fun b => !less a b) ++
      l.dropWhile fun b => !less a b) := by
    rw [List.takeWhile_append_dropWhile]
    exact h
  obtain ⟨htake, hdrop, hacross⟩ := List.pairwise_append.mp hsplit
  have hafter : ∀ c ∈ l.dropWhile fun b => !less a b, ¬ less c a := by
    intro c hc hca
    rcases hrest : l.dropWhile fun b => !less a b with _ | ⟨b, r⟩
    · rw [hrest] at hc
      cases hc
    · have hab : less a b = true := by simpa using dropWhile_head hrest
      rw [hrest] at hc hdrop
      rcases List.mem_cons.mp hc with rfl | hc
      · exact not_less_self a (less_trans hab hca)
      · exact (List.pairwise_cons.mp hdrop).1 c hc (less_trans hca hab)
  refine List.pairwise_append.mpr ⟨htake, List.pairwise_cons.mpr ⟨hafter, hdrop⟩, ?_⟩
  intro b hb c hc
  rcases List.mem_cons.mp hc with rfl | hc
  · have hall := List.all_takeWhile (p := fun b => !less c b) (l := l)
    simpa using List.all_eq_true.mp hall b hb
  · exact hacross b hb c hc

theorem merge_kept (h : Sorted less l) (c : α) : (merge less l l').filter (same less c) =
    l.filter (same less c) ++ l'.filter (same less c) := by
  induction l generalizing l' with
  | nil => rw [merge, List.nil_merge, List.filter_nil, List.nil_append]
  | cons x l ih =>
    induction l' with
    | nil => rw [merge, List.merge_right, List.filter_nil, List.append_nil]
    | cons y l' ih' =>
      by_cases hless : less y x
      · -- nothing on the left is the same as `y`
        have hnone : ∀ z ∈ x :: l, ¬ less y z = false := by
          intro z hz hyz
          have hxz : ¬ less z x := by
            rcases List.mem_cons.mp hz with rfl | hz
            · exact not_less_self z
            · exact (List.pairwise_cons.mp h).1 z hz
          rw [less_of_less_of_not_less hless hxz] at hyz
          nomatch hyz
        rw [merge, List.cons_merge_cons_neg _ _ _ (by simpa using hless)]
        by_cases hy : same less c y
        · have hempty : (x :: l).filter (same less c) = [] := by
            rw [List.filter_eq_nil_iff]
            intro z hz hcz
            simp only [same, Bool.and_eq_true, Bool.not_eq_true'] at hy hcz
            refine hnone z hz (Bool.eq_false_iff.mpr ?_)
            exact not_less_trans (Bool.eq_false_iff.mp hcz.1) (Bool.eq_false_iff.mp hy.2)
          rw [List.filter_cons_of_pos hy, List.filter_cons_of_pos hy, ← merge, ih', hempty]
          rfl
        · rw [List.filter_cons_of_neg hy, List.filter_cons_of_neg hy, ← merge, ih']
      · have hih := @ih (y :: l') (List.pairwise_cons.mp h).2
        rw [merge, List.cons_merge_cons_pos _ _ _ (by simpa using hless), ← merge]
        by_cases hx : same less c x
        · rw [List.filter_cons_of_pos hx, List.filter_cons_of_pos hx, hih, List.cons_append]
        · rw [List.filter_cons_of_neg hx, List.filter_cons_of_neg hx, hih]

theorem stably_merge (h : Sorted less l) : Stably less (l ++ l') (merge less l l') where
  perm := List.merge_perm_append _
  kept c := by rw [merge_kept h, List.filter_append]

end

end Runs
