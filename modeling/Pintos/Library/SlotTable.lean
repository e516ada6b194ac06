import Mathlib.Data.List.Nodup
import Mathlib.Logic.Function.Basic
import Mathlib.Tactic.Common

/-! Tables of slots that implement a map: a slot is free or carries a key and a value, and a key is
in at most one slot.  A new key goes to any free slot; the slot of a removed key is free again. -/

/-- What each slot carries, with `none` for a free one. -/
abbrev SlotTable (κ ν : Type) := Nat → Option (κ × ν)

namespace SlotTable

variable {κ ν : Type}

/-- Key `k` has value `v` in some slot. -/
def Finds (t : SlotTable κ ν) (k : κ) (v : ν) : Prop := ∃ i, t i = some (k, v)

/-- No two slots carry the same key. -/
def Distinct (t : SlotTable κ ν) : Prop :=
  ∀ i j k v v', t i = some (k, v) → t j = some (k, v') → i = j

/-- The table stands for the map `m`. -/
structure Represents (t : SlotTable κ ν) (m : κ → Option ν) : Prop where
  finds : ∀ k v, m k = some v ↔ t.Finds k v
  distinct : t.Distinct

variable {t : SlotTable κ ν} {m : κ → Option ν} {i : Nat} {k : κ} {v : ν}

theorem Represents.none_iff (h : t.Represents m) : m k = none ↔ ∀ i v, t i ≠ some (k, v) := by
  constructor
  · intro hnone i v hi
    have hsome := (h.finds k v).mpr ⟨i, hi⟩
    rw [hnone] at hsome
    nomatch hsome
  · intro hfree
    cases hk : m k with
    | none => rfl
    | some v =>
      obtain ⟨i, hi⟩ := (h.finds k v).mp hk
      exact absurd hi (hfree i v)

/-- A key that is in no slot goes to a free one. -/
theorem Represents.insert [DecidableEq κ] (h : t.Represents m) (hfree : t i = none)
    (hk : m k = none) (v : ν) :
    Represents (Function.update t i (some (k, v))) (Function.update m k (some v)) := by
  have hnot := h.none_iff.mp hk
  refine ⟨fun k' v' => ?_, fun a b k' v1 v2 ha hb => ?_⟩
  · constructor
    · intro hm
      by_cases hkk : k' = k
      · subst hkk
        rw [Function.update_self] at hm
        exact ⟨i, by rw [Function.update_self, Option.some.inj hm]⟩
      · rw [Function.update_of_ne hkk] at hm
        obtain ⟨j, hj⟩ := (h.finds k' v').mp hm
        have hji : j ≠ i := by
          rintro rfl
          rw [hfree] at hj
          nomatch hj
        exact ⟨j, by rw [Function.update_of_ne hji, hj]⟩
    · rintro ⟨j, hj⟩
      by_cases hji : j = i
      · rw [hji, Function.update_self] at hj
        cases hj
        rw [Function.update_self]
      · rw [Function.update_of_ne hji] at hj
        have hkk : k' ≠ k := by
          rintro rfl
          exact hnot j v' hj
        rw [Function.update_of_ne hkk]
        exact (h.finds k' v').mpr ⟨j, hj⟩
  · by_cases hai : a = i
    · by_cases hbi : b = i
      · rw [hai, hbi]
      · rw [hai, Function.update_self] at ha
        rw [Function.update_of_ne hbi] at hb
        cases ha
        exact absurd hb (hnot b v2)
    · rw [Function.update_of_ne hai] at ha
      by_cases hbi : b = i
      · rw [hbi, Function.update_self] at hb
        cases hb
        exact absurd ha (hnot a v1)
      · rw [Function.update_of_ne hbi] at hb
        exact h.distinct a b k' v1 v2 ha hb

/-- The slot of a key is freed. -/
theorem Represents.erase [DecidableEq κ] (h : t.Represents m) (hi : t i = some (k, v)) :
    Represents (Function.update t i none) (Function.update m k none) := by
  refine ⟨fun k' v' => ?_, fun a b k' v1 v2 ha hb => ?_⟩
  · constructor
    · intro hm
      by_cases hkk : k' = k
      · subst hkk
        rw [Function.update_self] at hm
        nomatch hm
      · rw [Function.update_of_ne hkk] at hm
        obtain ⟨j, hj⟩ := (h.finds k' v').mp hm
        have hji : j ≠ i := by
          rintro rfl
          rw [hi] at hj
          cases hj
          exact hkk rfl
        exact ⟨j, by rw [Function.update_of_ne hji, hj]⟩
    · rintro ⟨j, hj⟩
      by_cases hji : j = i
      · rw [hji, Function.update_self] at hj
        nomatch hj
      · rw [Function.update_of_ne hji] at hj
        have hkk : k' ≠ k := by
          rintro rfl
          exact hji (h.distinct j i k' v' v hj hi)
        rw [Function.update_of_ne hkk]
        exact (h.finds k' v').mpr ⟨j, hj⟩
  · have hai : a ≠ i := by
      rintro rfl
      rw [Function.update_self] at ha
      nomatch ha
    have hbi : b ≠ i := by
      rintro rfl
      rw [Function.update_self] at hb
      nomatch hb
    rw [Function.update_of_ne hai] at ha
    rw [Function.update_of_ne hbi] at hb
    exact h.distinct a b k' v1 v2 ha hb

/-! ### The keys in order -/

/-- The keys of slots `i` to `n - 1`, in order. -/
def keysFrom (t : SlotTable κ ν) (i n : Nat) : List κ :=
  (List.range' i (n - i)).filterMap fun j => (t j).map Prod.fst

theorem mem_keysFrom {n : Nat} :
    k ∈ t.keysFrom i n ↔ ∃ j v, i ≤ j ∧ j < n ∧ t j = some (k, v) := by
  simp only [keysFrom, List.mem_filterMap, List.mem_range'_1, Option.map_eq_some_iff]
  constructor
  · rintro ⟨j, hj, ⟨k', v⟩, hslot, rfl⟩
    exact ⟨j, v, hj.1, by omega, hslot⟩
  · rintro ⟨j, v, hij, hjn, hslot⟩
    exact ⟨j, ⟨hij, by omega⟩, (k, v), hslot, rfl⟩

theorem keysFrom_end (t : SlotTable κ ν) {n : Nat} (h : n ≤ i) : t.keysFrom i n = [] := by
  rw [keysFrom, Nat.sub_eq_zero_of_le h]
  rfl

theorem keysFrom_succ (t : SlotTable κ ν) {n : Nat} (h : i < n) :
    t.keysFrom i n = ((t i).map Prod.fst).toList ++ t.keysFrom (i + 1) n := by
  obtain ⟨j, hj⟩ : ∃ j, n - i = j + 1 := ⟨n - i - 1, by omega⟩
  rw [keysFrom, keysFrom, hj, show n - (i + 1) = j by omega, List.range'_succ,
    List.filterMap_cons]
  cases (t i).map Prod.fst <;> rfl

end SlotTable
