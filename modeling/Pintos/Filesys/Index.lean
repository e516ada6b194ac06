import Pintos.Filesys.FlatFs
import Mathlib.Data.Set.Basic

/-! The index of an inode as a table of slots: data sector `j`, and the index block of entry `k` of
`main_index`.  `slotOf` looks a slot up, `Layout` says that no sector is in two slots of live inodes,
and `slotOf_store` that a store at the place of a slot changes this slot only. -/

namespace Pintos

/-- A slot of the index of an inode. -/
inductive Slot where
  | data (j : Nat)
  | index (k : Nat)
  deriving DecidableEq

/-- The slots that the first two ranges of `inode_pos_to_real_sector` reach. -/
def Slot.Valid : Slot → Prop
  | data j => j ≤ 4170
  | index k => 11 ≤ k ∧ k ≤ 75

/-- The entry of `main_index` for sector `j` of the indirect range. -/
def mainIdx (j : Nat) : Nat := divRoundUp (j - inodeAccessDirect) indexBlockEntries + inodeAccessDirect

/-- The entry of the index block for sector `j` of the indirect range. -/
def innerIdx (j : Nat) : Nat := j - (directBlocks + indexBlockEntries * (mainIdx j - directBlocks))

/-- In the indirect range the two subscripts are in their tables and determine the sector. -/
theorem mainIdx_innerIdx {j : Nat} (h : 10 < j) (h' : j ≤ 4170) :
    11 ≤ mainIdx j ∧ mainIdx j ≤ 75 ∧ innerIdx j < 64 ∧
      j = 11 + 64 * (mainIdx j - 11) + innerIdx j := by
  unfold innerIdx mainIdx divRoundUp inodeAccessDirect directBlocks indexBlockEntries
  omega

open InodeDisk (entry)

/-- The sector and the entry in which a slot is kept, if there is an index block for it. -/
def place (cur : Nat → SectorData) (t : Nat) : Slot → Option (Nat × Nat)
  | .index k => some (t, k)
  | .data j =>
    if j ≤ 10 then some (t, j)
    else if entry (cur t) (mainIdx j) = sectorError then none
    else some (entry (cur t) (mainIdx j), innerIdx j)

/-- The sector in a slot of inode `t`, or `SECTOR_ERROR`. -/
def slotOf (cur : Nat → SectorData) (t : Nat) (a : Slot) : Nat :=
  match place cur t a with
  | some (o, i) => entry (cur o) i
  | none => sectorError

section

variable {cur cur' : Nat → SectorData} {t u b o i j k : Nat} {a c : Slot}

theorem slotOf_index (cur : Nat → SectorData) (t k : Nat) :
    slotOf cur t (.index k) = entry (cur t) k := rfl

theorem slotOf_direct (h : j ≤ 10) : slotOf cur t (.data j) = entry (cur t) j := by
  rw [slotOf, place, if_pos h]

theorem slotOf_indirect (h : 10 < j) (hx : slotOf cur t (.index (mainIdx j)) ≠ sectorError) :
    slotOf cur t (.data j) = entry (cur (slotOf cur t (.index (mainIdx j)))) (innerIdx j) := by
  rw [slotOf_index] at hx ⊢
  rw [slotOf, place, if_neg (by omega), if_neg hx]

theorem slotOf_no_index (h : 10 < j) (hx : slotOf cur t (.index (mainIdx j)) = sectorError) :
    slotOf cur t (.data j) = sectorError := by
  rw [slotOf_index] at hx
  rw [slotOf, place, if_neg (by omega), if_pos hx]

theorem place_indirect (h : 10 < j) (hx : slotOf cur t (.index (mainIdx j)) ≠ sectorError) :
    place cur t (.data j) = some (slotOf cur t (.index (mainIdx j)), innerIdx j) := by
  rw [slotOf_index] at hx ⊢
  rw [place, if_neg (by omega), if_neg hx]

theorem slotOf_of_place (h : place cur t a = some (o, i)) : slotOf cur t a = entry (cur o) i := by
  rw [slotOf, h]

theorem index_valid (h : 10 < j) (h' : j ≤ 4170) : (Slot.index (mainIdx j)).Valid := by
  obtain ⟨h1, h2, -⟩ := mainIdx_innerIdx h h'
  exact ⟨h1, h2⟩

/-- A place is in the inode itself or in an index block. -/
theorem place_cases (ha : a.Valid) (h : place cur t a = some (o, i)) :
    (o = t ∧ (a = .index i ∧ 11 ≤ i ∧ i ≤ 75 ∨ a = .data i ∧ i ≤ 10)) ∨
      ∃ j, 10 < j ∧ j ≤ 4170 ∧ a = .data j ∧ slotOf cur t (.index (mainIdx j)) ≠ sectorError ∧
        o = slotOf cur t (.index (mainIdx j)) ∧ i = innerIdx j := by
  cases a with
  | index k =>
    cases h
    exact .inl ⟨rfl, .inl ⟨rfl, ha⟩⟩
  | data j =>
    by_cases hj : j ≤ 10
    · rw [place, if_pos hj] at h
      cases h
      exact .inl ⟨rfl, .inr ⟨rfl, hj⟩⟩
    · by_cases hnone : slotOf cur t (.index (mainIdx j)) = sectorError
      · rw [slotOf_index] at hnone
        rw [place, if_neg hj, if_pos hnone] at h
        cases h
      · rw [place_indirect (by omega) hnone] at h
        cases h
        exact .inr ⟨j, by omega, ha, rfl, hnone, rfl, rfl⟩

/-- The entry of a place is in its table. -/
theorem place_lt (ha : a.Valid) (h : place cur t a = some (o, i)) : i < 79 := by
  rcases place_cases ha h with ⟨-, ⟨-, -, hi⟩ | ⟨-, hi⟩⟩ | ⟨j, hj, hj', -, -, -, rfl⟩
  · omega
  · omega
  · have := (mainIdx_innerIdx hj hj').2.2.1
    omega

/-- Slots agree when the entries of the inode and of its index blocks do. -/
theorem slotOf_congr (ha : a.Valid) (ht : ∀ k, entry (cur' t) k = entry (cur t) k)
    (hx : ∀ k, (Slot.index k).Valid → slotOf cur t (.index k) ≠ sectorError → ∀ i,
      entry (cur' (slotOf cur t (.index k))) i = entry (cur (slotOf cur t (.index k))) i) :
    slotOf cur' t a = slotOf cur t a := by
  have hindex : ∀ k, slotOf cur' t (.index k) = slotOf cur t (.index k) := ht
  cases a with
  | index k => exact hindex k
  | data j =>
    by_cases hj : j ≤ 10
    · rw [slotOf_direct hj, slotOf_direct hj, ht]
    · by_cases hnone : slotOf cur t (.index (mainIdx j)) = sectorError
      · rw [slotOf_no_index (by omega) hnone,
          slotOf_no_index (by omega) ((hindex _).trans hnone)]
      · rw [slotOf_indirect (by omega) hnone,
          slotOf_indirect (by omega) (by rwa [hindex]), hindex]
        exact hx _ (index_valid (by omega) ha) hnone _

end

/-- The sectors of the inodes in `live` are used, and each is in one place only. -/
structure Layout (live : Set Nat) (cur : Nat → SectorData) (used : Nat → Bool) : Prop where
  inode : ∀ t ∈ live, used t = true
  slot : ∀ t ∈ live, ∀ a : Slot, a.Valid → slotOf cur t a ≠ sectorError →
    used (slotOf cur t a) = true
  inj : ∀ t ∈ live, ∀ u ∈ live, ∀ a c : Slot, a.Valid → c.Valid →
    slotOf cur t a = slotOf cur u c → slotOf cur t a ≠ sectorError → t = u ∧ a = c
  apart : ∀ t ∈ live, ∀ u ∈ live, ∀ a : Slot, a.Valid → slotOf cur u a ≠ sectorError →
    slotOf cur u a ≠ t
  flag : ∀ t ∈ live, ∀ k, (Slot.index k).Valid → slotOf cur t (.index k) ≠ sectorError →
    InodeDisk.isIndexBlock (cur (slotOf cur t (.index k))) ≠ 0

namespace Layout

variable {live : Set Nat} {cur cur' : Nat → SectorData} {used used' : Nat → Bool}
  {t u b o i : Nat} {a c : Slot}

/-- The place of a slot is the place of no other slot. -/
theorem place_inj (h : Layout live cur used) (ht : t ∈ live) (hu : u ∈ live) (ha : a.Valid)
    (hc : c.Valid) (hta : place cur t a = some (o, i)) (huc : place cur u c = some (o, i)) :
    t = u ∧ a = c := by
  rcases place_cases ha hta with ⟨rfl, hka⟩ | ⟨j, hj, hj', rfl, hx, rfl, rfl⟩
  · rcases place_cases hc huc with ⟨rfl, hkc⟩ | ⟨l, hl, hl', rfl, hy, hoy, -⟩
    · refine ⟨rfl, ?_⟩
      rcases hka with ⟨rfl, hi⟩ | ⟨rfl, hi⟩ <;> rcases hkc with ⟨rfl, hi'⟩ | ⟨rfl, hi'⟩
      · rfl
      · omega
      · omega
      · rfl
    · exact absurd hoy.symm (h.apart _ ht _ hu _ (index_valid hl hl') hy)
  · rcases place_cases hc huc with ⟨hou, -⟩ | ⟨l, hl, hl', rfl, hy, hoy, hil⟩
    · exact absurd hou (h.apart _ hu _ ht _ (index_valid hj hj') hx)
    · obtain ⟨rfl, heq⟩ := h.inj _ ht _ hu _ _ (index_valid hj hj') (index_valid hl hl') hoy hx
      have hmain := Slot.index.inj heq
      obtain ⟨-, -, -, hj1⟩ := mainIdx_innerIdx hj hj'
      obtain ⟨-, -, -, hl1⟩ := mainIdx_innerIdx hl hl'
      exact ⟨rfl, by rw [hj1, hl1, hmain, hil]⟩

/-- The sector that holds the place of a slot is used. -/
theorem place_used (h : Layout live cur used) (ht : t ∈ live) (ha : a.Valid)
    (hplace : place cur t a = some (o, i)) : used o = true := by
  rcases place_cases ha hplace with ⟨rfl, -⟩ | ⟨j, hj, hj', -, hx, rfl, -⟩
  · exact h.inode o ht
  · exact h.slot t ht _ (index_valid hj hj') hx

/-- The sector of a data slot holds the place of no slot. -/
theorem place_ne_data (h : Layout live cur used) (ht : t ∈ live) (hu : u ∈ live) (ha : a.Valid)
    (hplace : place cur t a = some (o, i)) {j : Nat} (hj : j ≤ 4170)
    (hdata : slotOf cur u (.data j) ≠ sectorError) : slotOf cur u (.data j) ≠ o := by
  rcases place_cases ha hplace with ⟨rfl, -⟩ | ⟨l, hl, hl', -, hx, rfl, -⟩
  · exact h.apart o ht u hu _ hj hdata
  · intro heq
    nomatch (h.inj u hu t ht (.data j) _ hj (index_valid hl hl') heq hdata).2

/-- A store of `b` at the place of an empty slot, and of `z` in the unused sector `b`, changes this
slot only. -/
theorem slotOf_store (h : Layout live cur used) (ht : t ∈ live) (ha : a.Valid)
    (hplace : place cur t a = some (o, i)) (hempty : slotOf cur t a = sectorError)
    (hb32 : b < 2 ^ 32) {z : SectorData}
    (hz : ∀ k, a = .index k → ∀ l < 64, entry z l = sectorError)
    (hcur : cur' o = InodeDisk.setEntry (cur o) i b) (hcurb : cur' b = z)
    (hsame : ∀ x, used x = true → x ≠ o →
      (x ∈ live ∨ ∃ u ∈ live, ∃ k, (Slot.index k).Valid ∧ x = slotOf cur u (.index k)) →
      cur' x = cur x)
    (hu : u ∈ live) (hc : c.Valid) :
    slotOf cur' u c = if u = t ∧ c = a then b else slotOf cur u c := by
  -- an entry of a sector that the slots of live inodes are kept in
  have hentry : ∀ {v e x l}, v ∈ live → e.Valid → place cur v e = some (x, l) →
      entry (cur' x) l = if v = t ∧ e = a then b else entry (cur x) l := by
    intro v e x l hv he hplace'
    by_cases hxo : x = o
    · subst hxo
      rw [hcur]
      by_cases hli : l = i
      · subst hli
        obtain ⟨rfl, rfl⟩ := h.place_inj hv ht he ha hplace' hplace
        rw [if_pos ⟨rfl, rfl⟩, InodeDisk.entry_setEntry_self _ (place_lt ha hplace) hb32]
      · rw [InodeDisk.entry_setEntry_ne _ _ hli, if_neg]
        rintro ⟨rfl, rfl⟩
        rw [hplace] at hplace'
        cases hplace'
        exact hli rfl
    · rw [if_neg, hsame x (h.place_used hv he hplace') hxo]
      · rcases place_cases he hplace' with ⟨rfl, -⟩ | ⟨j, hj, hj', -, -, rfl, -⟩
        · exact .inl hv
        · exact .inr ⟨v, hv, _, index_valid hj hj', rfl⟩
      · rintro ⟨rfl, rfl⟩
        rw [hplace] at hplace'
        cases hplace'
        exact hxo rfl
  cases c with
  | index k => exact hentry (e := .index k) hu hc rfl
  | data j =>
    by_cases hj : j ≤ 10
    · rw [slotOf_direct hj, slotOf_direct hj]
      exact hentry hu hc (by rw [place, if_pos hj])
    · have hidx := hentry (e := .index (mainIdx j)) hu (index_valid (by omega) hc) rfl
      rw [← slotOf_index, ← slotOf_index] at hidx
      by_cases hnew : u = t ∧ Slot.index (mainIdx j) = a
      · -- the new index block is empty
        obtain ⟨rfl, rfl⟩ := hnew
        rw [if_pos ⟨rfl, rfl⟩] at hidx
        rw [if_neg (by rintro ⟨-, hcontra⟩; nomatch hcontra), slotOf_no_index (by omega) hempty]
        by_cases hberr : b = sectorError
        · exact slotOf_no_index (by omega) (hidx.trans hberr)
        · rw [slotOf_indirect (by omega) (by rwa [hidx]), hidx, hcurb]
          exact hz _ rfl _ (mainIdx_innerIdx (by omega) hc).2.2.1
      · rw [if_neg hnew] at hidx
        by_cases hnone : slotOf cur u (.index (mainIdx j)) = sectorError
        · rw [slotOf_no_index (by omega) hnone, slotOf_no_index (by omega) (hidx.trans hnone),
            if_neg]
          rintro ⟨rfl, rfl⟩
          rw [slotOf_index] at hnone
          rw [place, if_neg hj, if_pos hnone] at hplace
          cases hplace
        · rw [slotOf_indirect (by omega) hnone, slotOf_indirect (by omega) (by rwa [hidx]), hidx]
          exact hentry hu hc (place_indirect (by omega) hnone)

/-- The layout after such a store. -/
theorem store (h : Layout live cur used) (ht : t ∈ live) (ha : a.Valid)
    (hplace : place cur t a = some (o, i)) (hempty : slotOf cur t a = sectorError)
    (hb : used b = false) (hb32 : b < 2 ^ 32) {z : SectorData}
    (hz : ∀ k, a = .index k → (∀ l < 64, entry z l = sectorError) ∧ InodeDisk.isIndexBlock z ≠ 0)
    (hcur : cur' o = InodeDisk.setEntry (cur o) i b) (hcurb : cur' b = z)
    (hsame : ∀ x, used x = true → x ≠ o →
      (x ∈ live ∨ ∃ u ∈ live, ∃ k, (Slot.index k).Valid ∧ x = slotOf cur u (.index k)) →
      cur' x = cur x)
    (hused : ∀ x, used' x = true ↔ used x = true ∨ x = b) : Layout live cur' used' := by
  have hslot : ∀ {v e}, v ∈ live → e.Valid →
      slotOf cur' v e = if v = t ∧ e = a then b else slotOf cur v e := fun hv he =>
    h.slotOf_store ht ha hplace hempty hb32 (fun k hk => (hz k hk).1) hcur hcurb hsame hv he
  have hbused : ∀ {v e}, v ∈ live → e.Valid → slotOf cur v e ≠ sectorError →
      slotOf cur v e ≠ b := by
    intro v e hv he hne heq
    have := h.slot v hv e he hne
    rw [heq, hb] at this
    nomatch this
  refine ⟨fun v hv => (hused v).mpr (.inl (h.inode v hv)), ?_, ?_, ?_, ?_⟩
  · intro v hv e he hne
    rw [hslot hv he] at hne ⊢
    by_cases hva : v = t ∧ e = a
    · rw [if_pos hva]
      exact (hused b).mpr (.inr rfl)
    · rw [if_neg hva] at hne ⊢
      exact (hused _).mpr (.inl (h.slot v hv e he hne))
  · intro v hv w hw e f he hf heq hne
    rw [hslot hv he, hslot hw hf] at heq
    rw [hslot hv he] at hne
    by_cases hva : v = t ∧ e = a
    · by_cases hwa : w = t ∧ f = a
      · exact ⟨hva.1.trans hwa.1.symm, hva.2.trans hwa.2.symm⟩
      · rw [if_pos hva, if_neg hwa] at heq
        rw [if_pos hva] at hne
        exact absurd heq.symm (hbused hw hf (by rwa [← heq]))
    · rw [if_neg hva] at heq hne
      by_cases hwa : w = t ∧ f = a
      · rw [if_pos hwa] at heq
        exact absurd heq (hbused hv he hne)
      · rw [if_neg hwa] at heq
        exact h.inj v hv w hw e f he hf heq hne
  · intro v hv w hw e he hne
    rw [hslot hw he] at hne ⊢
    by_cases hwa : w = t ∧ e = a
    · rw [if_pos hwa]
      rintro rfl
      have := h.inode b hv
      rw [hb] at this
      nomatch this
    · rw [if_neg hwa] at hne ⊢
      exact h.apart v hv w hw e he hne
  · intro v hv k hk hne
    rw [hslot hv hk] at hne ⊢
    by_cases hva : v = t ∧ Slot.index k = a
    · rw [if_pos hva, hcurb]
      exact (hz k hva.2.symm).2
    · rw [if_neg hva] at hne ⊢
      by_cases hxo : slotOf cur v (.index k) = o
      · rw [hxo, hcur, InodeDisk.isIndexBlock_setEntry _ _ (place_lt ha hplace), ← hxo]
        exact h.flag v hv k hk hne
      · rw [hsame _ (h.slot v hv _ hk hne) hxo (.inr ⟨v, hv, k, hk, rfl⟩)]
        exact h.flag v hv k hk hne

end Layout

end Pintos
