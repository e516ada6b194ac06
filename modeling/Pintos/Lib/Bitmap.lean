import Mathlib.Data.List.Range
import Mathlib.Tactic.Common

/-! Bitmaps (`lib/kernel/bitmap.c`) as arrays of bits, without the words they are packed into. -/

namespace Pintos

/-- `struct bitmap`. -/
structure Bitmap where
  bitCnt : Nat
  bits : Nat → Bool

namespace Bitmap

/-- `bitmap_set_all` on a bitmap of `bitCnt` bits. -/
def ofAll (bitCnt : Nat) (value : Bool) : Bitmap := ⟨bitCnt, fun _ => value⟩

/-- `bitmap_set_multiple`. -/
def setMultiple (b : Bitmap) (start cnt : Nat) (value : Bool) : Bitmap :=
  { b with bits := fun i => if start ≤ i ∧ i < start + cnt then value else b.bits i }

/-- `bitmap_flip`. -/
def flip (b : Bitmap) (i : Nat) : Bitmap :=
  { b with bits := fun j => if j = i then !b.bits i else b.bits j }

/-- `bitmap_contains`. -/
def contains (b : Bitmap) (start cnt : Nat) (value : Bool) : Bool :=
  (List.range cnt).any fun i => b.bits (start + i) == value

/-- `bitmap_all`. -/
def all (b : Bitmap) (start cnt : Nat) : Bool := !b.contains start cnt false

/-- `bitmap_scan`, with `none` for `BITMAP_ERROR`. -/
def scan (b : Bitmap) (start cnt : Nat) (value : Bool) : Option Nat :=
  if cnt ≤ b.bitCnt then
    (List.range (b.bitCnt - cnt + 1)).find? fun i => start ≤ i && !b.contains i cnt !value
  else none

/-- `bitmap_scan_and_flip`. -/
def scanAndFlip (b : Bitmap) (start cnt : Nat) (value : Bool) : Option (Nat × Bitmap) :=
  (b.scan start cnt value).map fun i => (i, b.setMultiple i cnt !value)

variable {b : Bitmap} {i : Nat} {value : Bool}

/-- A scan for one bit finds one. -/
theorem scan_one (h : b.scan 0 1 value = some i) : i < b.bitCnt ∧ b.bits i = value := by
  rw [scan] at h
  split at h
  · have hmem := List.mem_range.mp (List.mem_of_find?_eq_some h)
    have hbit := List.find?_some h
    refine ⟨by omega, ?_⟩
    simpa [contains] using hbit
  · cases h

/-- A scan for one bit fails only if there is none. -/
theorem scan_one_none (h : b.scan 0 1 value = none) (hi : i < b.bitCnt) : b.bits i ≠ value := by
  intro hbit
  rw [scan, if_pos (show 1 ≤ b.bitCnt by omega), List.find?_eq_none] at h
  have hnot := h i (List.mem_range.mpr (by omega))
  simp [contains, hbit] at hnot

/-! ### What a scan finds -/

variable {start cnt : Nat}

/-- The group of `cnt` bits from `i` on, each of which is `value`. -/
def IsGroup (b : Bitmap) (i cnt : Nat) (value : Bool) : Prop :=
  i + cnt ≤ b.bitCnt ∧ ∀ j, i ≤ j → j < i + cnt → b.bits j = value

theorem not_contains : b.contains i cnt (!value) = false ↔
    ∀ j, i ≤ j → j < i + cnt → b.bits j = value := by
  rw [contains, List.any_eq_false]
  constructor
  · intro h j hij hj
    have hbit := h (j - i) (List.mem_range.mpr (by omega))
    rw [Nat.add_sub_cancel' hij, beq_iff_eq] at hbit
    simpa using hbit
  · intro h k hk
    rw [List.mem_range] at hk
    rw [h (i + k) (by omega) (by omega)]
    simp

theorem all_iff : b.all i cnt = true ↔ ∀ j, i ≤ j → j < i + cnt → b.bits j = true := by
  have hall : b.contains i cnt (!true) = false ↔ _ := not_contains
  rw [all, Bool.not_eq_true']
  exact hall

theorem find_from (p : Nat → Bool) (first n : Nat) :
    (List.range' first n).find? (fun i => start ≤ i && p i) =
      (List.range' (max first start) (first + n - max first start)).find? p := by
  induction n generalizing first with
  | zero =>
    rw [Nat.sub_eq_zero_of_le (by omega)]
    rfl
  | succ n ih =>
    rw [List.range'_succ]
    by_cases hfirst : start ≤ first
    · have hleft : first + (n + 1) - max first start = n + 1 := by omega
      have hnext := ih (first + 1)
      rw [Nat.max_eq_left (by omega), Nat.add_sub_cancel_left] at hnext
      rw [hleft, Nat.max_eq_left hfirst, List.range'_succ, List.find?_cons, List.find?_cons, hnext,
        decide_eq_true hfirst, Bool.true_and]
    · have hnext := ih (first + 1)
      have hmax : max (first + 1) start = max first start := by omega
      rw [hmax, Nat.add_right_comm] at hnext
      rw [List.find?_cons_of_neg (by simp [hfirst]), hnext]
      rfl

/-- The scan tries the indices from `start` on. -/
theorem scan_eq_range' : b.scan start cnt value =
    if cnt ≤ b.bitCnt then
      (List.range' start (b.bitCnt - cnt + 1 - start)).find? fun i => !b.contains i cnt !value
    else none := by
  rw [scan, List.range_eq_range', find_from, Nat.zero_max, Nat.zero_add]

/-- The scan finds the first group. -/
theorem scan_some (h : b.scan start cnt value = some i) :
    start ≤ i ∧ b.IsGroup i cnt value ∧ ∀ j, start ≤ j → j < i → ¬ b.IsGroup j cnt value := by
  rw [scan] at h
  split_ifs at h with hcnt
  obtain ⟨hi, hmem, hbefore⟩ := List.find?_range_eq_some.mp h
  rw [Bool.and_eq_true, decide_eq_true_eq, Bool.not_eq_true', not_contains] at hi
  rw [List.mem_range] at hmem
  refine ⟨hi.1, ⟨by omega, hi.2⟩, fun j hj hji hgroup => ?_⟩
  have hnot := hbefore j hji
  rw [decide_eq_true hj, Bool.true_and, Bool.not_not, ← Bool.not_eq_false, not_contains] at hnot
  exact hnot hgroup.2

theorem scan_none (h : b.scan start cnt value = none) (hi : start ≤ i) :
    ¬ b.IsGroup i cnt value := by
  intro hgroup
  have hfits := hgroup.1
  rw [scan, if_pos (by omega), List.find?_eq_none] at h
  have hnot := h i (List.mem_range.mpr (by omega))
  rw [decide_eq_true hi, Bool.true_and, Bool.not_eq_true', not_contains] at hnot
  exact hnot hgroup.2

end Bitmap

end Pintos
