import Mathlib.Tactic.Common

/-! Cells with owners.  A cell is used exactly if somebody owns it, and nobody else does then.
Owners take cells that are not used, drop their own, and hand all of them over. -/

namespace Ownership

/-- Every used cell has one owner, and no other cell has any. -/
structure Exclusive {X ι : Type} (owns : X → ι → Prop) (used : ι → Prop) : Prop where
  used_iff : ∀ i, used i ↔ ∃ x, owns x i
  unique : ∀ {x y i}, owns x i → owns y i → x = y

variable {X ι : Type} {owns owns' : X → ι → Prop} {used used' : ι → Prop} {x y : X} {i : ι}

theorem Exclusive.congr (h : Exclusive owns used) (howns : ∀ z j, owns' z j ↔ owns z j)
    (hused : ∀ j, used' j ↔ used j) : Exclusive owns' used' where
  used_iff j := by
    rw [hused, h.used_iff]
    exact exists_congr fun z => (howns z j).symm
  unique hx hy := h.unique ((howns _ _).mp hx) ((howns _ _).mp hy)

/-- A cell that is not used is taken. -/
theorem Exclusive.take (h : Exclusive owns used) (hfree : ¬ used i)
    (howns : ∀ z j, owns' z j ↔ owns z j ∨ z = x ∧ j = i)
    (hused : ∀ j, used' j ↔ used j ∨ j = i) : Exclusive owns' used' where
  used_iff j := by
    rw [hused, h.used_iff]
    constructor
    · rintro (⟨z, hz⟩ | rfl)
      · exact ⟨z, (howns z j).mpr (.inl hz)⟩
      · exact ⟨x, (howns x j).mpr (.inr ⟨rfl, rfl⟩)⟩
    · rintro ⟨z, hz⟩
      rcases (howns z j).mp hz with hz | ⟨-, hj⟩
      · exact .inl ⟨z, hz⟩
      · exact .inr hj
  unique {z z' j} hz hz' := by
    have hnew : ∀ {u}, owns u i → False := fun hu => hfree ((h.used_iff i).mpr ⟨_, hu⟩)
    rcases (howns z j).mp hz with hz | ⟨rfl, rfl⟩
    · rcases (howns z' j).mp hz' with hz' | ⟨-, rfl⟩
      · exact h.unique hz hz'
      · exact (hnew hz).elim
    · rcases (howns z' j).mp hz' with hz' | ⟨rfl, -⟩
      · exact (hnew hz').elim
      · rfl

/-- A cell is dropped. -/
theorem Exclusive.drop (h : Exclusive owns used)
    (howns : ∀ z j, owns' z j ↔ owns z j ∧ j ≠ i)
    (hused : ∀ j, used' j ↔ used j ∧ j ≠ i) : Exclusive owns' used' where
  used_iff j := by
    rw [hused, h.used_iff]
    constructor
    · rintro ⟨⟨z, hz⟩, hj⟩
      exact ⟨z, (howns z j).mpr ⟨hz, hj⟩⟩
    · rintro ⟨z, hz⟩
      obtain ⟨hz, hj⟩ := (howns z j).mp hz
      exact ⟨⟨z, hz⟩, hj⟩
  unique hz hz' := h.unique ((howns _ _).mp hz).1 ((howns _ _).mp hz').1

/-- All cells of `x` are handed over to `y`, which had none. -/
theorem Exclusive.handOver (h : Exclusive owns used) (hnone : ∀ j, ¬ owns y j)
    (hx : ∀ j, ¬ owns' x j) (hy : ∀ j, owns' y j ↔ owns x j)
    (hothers : ∀ z j, z ≠ x → z ≠ y → (owns' z j ↔ owns z j))
    (hused : ∀ j, used' j ↔ used j) : Exclusive owns' used' where
  used_iff j := by
    rw [hused, h.used_iff]
    constructor
    · rintro ⟨z, hz⟩
      by_cases hzx : z = x
      · exact ⟨y, (hy j).mpr (hzx ▸ hz)⟩
      · have hzy : z ≠ y := fun heq => hnone j (heq ▸ hz)
        exact ⟨z, (hothers z j hzx hzy).mpr hz⟩
    · rintro ⟨z, hz⟩
      have hzx : z ≠ x := fun heq => hx j (heq ▸ hz)
      by_cases hzy : z = y
      · exact ⟨x, (hy j).mp (hzy ▸ hz)⟩
      · exact ⟨z, (hothers z j hzx hzy).mp hz⟩
  unique {z z' j} hz hz' := by
    have hzx : z ≠ x := fun heq => hx j (heq ▸ hz)
    have hzx' : z' ≠ x := fun heq => hx j (heq ▸ hz')
    by_cases hzy : z = y
    · by_cases hzy' : z' = y
      · exact hzy.trans hzy'.symm
      · have hold := (hy j).mp (hzy ▸ hz)
        exact absurd (h.unique hold ((hothers z' j hzx' hzy').mp hz')).symm hzx'
    · have hold := (hothers z j hzx hzy).mp hz
      by_cases hzy' : z' = y
      · exact absurd (h.unique hold ((hy j).mp (hzy' ▸ hz'))) hzx
      · exact h.unique hold ((hothers z' j hzx' hzy').mp hz')

end Ownership
