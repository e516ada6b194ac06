import Mathlib.Data.Nat.Digits.Lemmas
import Mathlib.Tactic.Common

/-! Numbers written from their last digit on, with a separator between groups of digits. -/

namespace Grouping

variable {α : Type} {sep : α} {g cnt : Nat} {ds buf : List α}

/-- The digits `ds`, the last one first, written before `buf`, where `cnt` digits are already. -/
def grouped (sep : α) (g : Nat) : (cnt : Nat) → (ds buf : List α) → List α
  | _, [], buf => buf
  | cnt, d :: ds, buf =>
    grouped sep g (cnt + 1) ds (d :: if 0 < cnt ∧ cnt % g = 0 then sep :: buf else buf)

/-- The separators among `n` digits. -/
def separators (g n : Nat) : Nat := (n - 1) / g

/-- Another digit comes with a separator after each full group. -/
theorem separators_succ (g cnt : Nat) :
    separators g (cnt + 1) = separators g cnt + if 0 < cnt ∧ cnt % g = 0 then 1 else 0 := by
  cases cnt with
  | zero => simp [separators]
  | succ cnt =>
    simp only [separators, Nat.add_sub_cancel, Nat.succ_pos, true_and, ← Nat.dvd_iff_mod_eq_zero]
    exact Nat.succ_div

theorem length_grouped (sep : α) (g cnt : Nat) (ds buf : List α) :
    (grouped sep g cnt ds buf).length + separators g cnt =
      ds.length + separators g (cnt + ds.length) + buf.length := by
  induction ds generalizing cnt buf with
  | nil => simp [grouped, Nat.add_comm]
  | cons d ds ih =>
    have hrest := ih (cnt + 1) (d :: if 0 < cnt ∧ cnt % g = 0 then sep :: buf else buf)
    rw [separators_succ, Nat.add_right_comm, List.length_cons] at hrest
    rw [grouped, List.length_cons, ← Nat.add_assoc, Nat.add_right_comm cnt]
    split_ifs at hrest ⊢
    · rw [List.length_cons] at hrest
      omega
    · omega

/-- Without the separators, the digits are left. -/
theorem filter_grouped {p : α → Bool} (hsep : p sep = false) (hds : ∀ d ∈ ds, p d = true) :
    (grouped sep g cnt ds buf).filter p = ds.reverse ++ buf.filter p := by
  induction ds generalizing cnt buf with
  | nil => rfl
  | cons d ds ih =>
    rw [grouped, ih fun x hx => hds x (List.mem_cons_of_mem d hx),
      List.filter_cons_of_pos (hds d List.mem_cons_self), List.reverse_cons, List.append_assoc]
    split_ifs with hfull
    · simp [hsep]
    · rfl

/-- The first character is the last digit written. -/
theorem head?_grouped (hds : ds ≠ []) : (grouped sep g cnt ds buf).head? = ds.getLast? := by
  induction ds generalizing cnt buf with
  | nil => exact absurd rfl hds
  | cons d ds ih =>
    rw [grouped]
    cases ds with
    | nil => rfl
    | cons d' ds => rw [ih (List.cons_ne_nil _ _), List.getLast?_cons_cons]

/-- The digits `ds` denote `n` in base `b`. -/
structure Denotes (b : Nat) (ds : List Nat) (n : Nat) : Prop where
  digit_lt : ∀ d ∈ ds, d < b
  value : Nat.ofDigits b ds.reverse = n

/-- Zeros in front of a number's digits do not count. -/
theorem denotes_digits {b : Nat} (hb : 1 < b) (k n : Nat) :
    Denotes b (List.replicate k 0 ++ (Nat.digits b n).reverse) n := by
  refine ⟨fun d hd => ?_, ?_⟩
  · rcases List.mem_append.mp hd with hzero | hdigit
    · rw [List.eq_of_mem_replicate hzero]
      exact Nat.zero_lt_of_lt hb
    · exact Nat.digits_lt_base hb (List.mem_reverse.mp hdigit)
  · rw [List.reverse_append, List.reverse_reverse, List.reverse_replicate,
      Nat.ofDigits_append_replicate_zero, Nat.ofDigits_digits]

end Grouping
