import Mathlib.Data.Finset.Basic
import Mathlib.Order.Defs.Unbundled

/-! Finite sets of representatives: at most one element of every class of an equivalence.  Looking
an element up returns the representative of its class; adding one replaces the representative. -/

/-- Elements that a strict weak order does not separate are equivalent. -/
def incompSetoid {α : Type} (r : α → α → Prop) [IsStrictWeakOrder α r] : Setoid α where
  r x y := ¬ r x y ∧ ¬ r y x
  iseqv := {
    refl := fun x => ⟨irrefl x, irrefl x⟩
    symm := fun h => ⟨h.2, h.1⟩
    trans := fun h1 h2 => IsStrictWeakOrder.incomp_trans _ _ _ h1 h2 }

structure Representatives (α : Type) [Setoid α] where
  carrier : Finset α
  unique : ∀ x ∈ carrier, ∀ y ∈ carrier, x ≈ y → x = y

namespace Representatives

variable {α : Type} [Setoid α]

@[ext] theorem ext {R R' : Representatives α} (h : ∀ x, x ∈ R.carrier ↔ x ∈ R'.carrier) :
    R = R' := by
  obtain ⟨S, _⟩ := R
  obtain ⟨S', _⟩ := R'
  obtain rfl : S = S' := Finset.ext h
  rfl

def empty : Representatives α := ⟨∅, fun _ hx => absurd hx (Finset.notMem_empty _)⟩

open Classical in
/-- The representative of the class of `e`. -/
noncomputable def find (R : Representatives α) (e : α) : Option α :=
  if h : ∃ x ∈ R.carrier, x ≈ e then some h.choose else none

open Classical in
/-- The class of `e` loses its representative. -/
noncomputable def delete (R : Representatives α) (e : α) : Representatives α where
  carrier := R.carrier.filter (¬ · ≈ e)
  unique x hx y hy := R.unique x (Finset.mem_of_mem_filter x hx) y (Finset.mem_of_mem_filter y hy)

@[simp] theorem mem_delete {R : Representatives α} {e x : α} :
    x ∈ (R.delete e).carrier ↔ x ∈ R.carrier ∧ ¬ x ≈ e := by
  classical
  exact Finset.mem_filter

open Classical in
/-- `e` becomes the representative of its class. -/
noncomputable def replace (R : Representatives α) (e : α) : Representatives α where
  carrier := insert e (R.delete e).carrier
  unique x hx y hy hxy := by
    rw [Finset.mem_insert, mem_delete] at hx hy
    rcases hx with rfl | ⟨hx, hxe⟩
    · rcases hy with rfl | ⟨-, hye⟩
      · rfl
      · exact absurd (Setoid.symm hxy) hye
    · rcases hy with rfl | ⟨hy, -⟩
      · exact absurd hxy hxe
      · exact R.unique x hx y hy hxy

@[simp] theorem mem_replace {R : Representatives α} {e x : α} :
    x ∈ (R.replace e).carrier ↔ x = e ∨ x ∈ R.carrier ∧ ¬ x ≈ e := by
  classical
  rw [← mem_delete]
  exact Finset.mem_insert

open Classical in
/-- `e` becomes the representative of a class that has none. -/
noncomputable def insert (R : Representatives α) (e : α) : Representatives α :=
  if R.find e = none then R.replace e else R

variable {R : Representatives α} {e x : α}

theorem find_eq_some_iff : R.find e = some x ↔ x ∈ R.carrier ∧ x ≈ e := by
  rw [find]
  constructor
  · intro h
    split at h
    · rename_i hex
      rw [← Option.some.inj h]
      exact hex.choose_spec
    · cases h
  · intro hx
    have hex : ∃ x ∈ R.carrier, x ≈ e := ⟨x, hx⟩
    rw [dif_pos hex, Option.some.injEq]
    obtain ⟨hmem, heq⟩ := hex.choose_spec
    exact R.unique _ hmem x hx.1 (Setoid.trans heq (Setoid.symm hx.2))

theorem find_eq_none_iff : R.find e = none ↔ ∀ x ∈ R.carrier, ¬ x ≈ e := by
  rw [find]
  constructor
  · intro h x hx heq
    rw [dif_pos ⟨x, hx, heq⟩] at h
    cases h
  · intro h
    rw [dif_neg]
    rintro ⟨x, hx, heq⟩
    exact h x hx heq

/-- What `find` returns, from any element of the class and from the absence of one. -/
theorem find_eq_of {o : Option α} (hsome : ∀ y, o = some y → y ∈ R.carrier ∧ y ≈ e)
    (hnone : o = none → ∀ y ∈ R.carrier, ¬ y ≈ e) : R.find e = o := by
  cases o with
  | none => exact find_eq_none_iff.mpr (hnone rfl)
  | some y => exact find_eq_some_iff.mpr (hsome y rfl)

theorem find_delete_self : (R.delete e).find e = none :=
  find_eq_none_iff.mpr fun _ hx => (mem_delete.mp hx).2

theorem delete_eq_self (h : R.find e = none) : R.delete e = R := by
  ext x
  rw [mem_delete]
  exact and_iff_left_of_imp (find_eq_none_iff.mp h x)

theorem replace_delete : (R.delete e).replace e = R.replace e := by
  ext x
  rw [mem_replace, mem_replace, mem_delete]
  tauto

end Representatives
