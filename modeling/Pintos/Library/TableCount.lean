import Mathlib.Data.Set.Card
import Mathlib.Logic.Function.Basic

/-! Counting in a table: how many of the places that are taken have a property, and how an update
changes that. -/

namespace TableCount

variable {ι α : Type}

/-- The places of the table `m` with an element that has the property `P`. -/
def having (m : ι → Option α) (P : α → Bool) : Set ι := {i | (m i).any P = true}

/-- One for an element with the property `P`. -/
def count (P : α → Bool) (o : Option α) : Nat := if o.any P then 1 else 0

variable {m : ι → Option α} {P Q : α → Bool} {i : ι}

theorem mem_having : i ∈ having m P ↔ ∃ a, m i = some a ∧ P a = true := by
  rw [having, Set.mem_ofPred_eq, Option.any_eq_true]

theorem having_mono (h : ∀ a, P a = true → Q a = true) : having m P ⊆ having m Q := by
  intro i hi
  obtain ⟨a, hm, hP⟩ := mem_having.mp hi
  exact mem_having.mpr ⟨a, hm, h a hP⟩

@[simp] theorem count_none : count P none = 0 := rfl

@[simp] theorem count_some (a : α) : count P (some a) = if P a then 1 else 0 := rfl

theorem count_eq_zero {o : Option α} (h : ∀ a ∈ o, P a = false) : count P o = 0 := by
  cases o with
  | none => rfl
  | some a => rw [count_some, h a rfl, if_neg Bool.false_ne_true]

theorem ncard_diff_add_count (h : (having m P).Finite) :
    (having m P \ {i}).ncard + count P (m i) = (having m P).ncard := by
  by_cases hi : (m i).any P = true
  · rw [count, if_pos hi]
    exact Set.ncard_sdiff_singleton_add_one hi h
  · have hnot : i ∉ having m P := hi
    rw [count, if_neg hi, Set.sdiff_singleton_eq_self hnot, Nat.add_zero]

variable [DecidableEq ι]

theorem having_update_diff (m : ι → Option α) (i : ι) (o : Option α) :
    having (Function.update m i o) P \ {i} = having m P \ {i} := by
  ext j
  refine and_congr_left fun hj => ?_
  rw [having, having, Set.mem_ofPred_eq, Set.mem_ofPred_eq, Function.update_of_ne hj]

theorem finite_having_update (h : (having m P).Finite) (i : ι) (o : Option α) :
    (having (Function.update m i o) P).Finite := by
  refine (h.insert i).subset fun j hj => ?_
  by_cases hji : j = i
  · exact .inl hji
  · refine .inr ?_
    have hdiff : j ∈ having (Function.update m i o) P \ {i} := ⟨hj, hji⟩
    rw [having_update_diff] at hdiff
    exact hdiff.1

/-- What an update does to a count. -/
theorem ncard_having_update (h : (having m P).Finite) (i : ι) (o : Option α) :
    (having (Function.update m i o) P).ncard + count P (m i) =
      (having m P).ncard + count P o := by
  have hold := ncard_diff_add_count (i := i) h
  have hnew := ncard_diff_add_count (i := i) (finite_having_update h i o)
  rw [having_update_diff, Function.update_self] at hnew
  omega

end TableCount
