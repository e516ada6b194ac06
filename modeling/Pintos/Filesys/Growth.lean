import Pintos.Filesys.Index
import Mathlib.Data.Finset.Card
import Mathlib.Data.Finset.Range

/-! How `inode_pos_to_real_sector` changes a file system.  `Good` is the invariant between steps:
the live inodes have a `Layout`, every sector below the length of an inode is allocated, and the
file of the free map can take the map.  `Grows` relates the states before and after work that only allocates slots of one
inode, `FreeMapCalls.Allocates` is what this needs of `free_map_allocate`, and `Fills` is one
allocation. -/

namespace Pintos

open Routine (Runs)
open InodeDisk (entry)

namespace FlatFs

/-- The sector is used by the data of inode `t`. -/
def IsDataOf (d : FlatFs) (t x : Nat) : Prop :=
  ∃ j ≤ 4170, x = slotOf d.cur t (.data j) ∧ x ≠ sectorError

/-- The sector is used by the data of the free map file. -/
def IsMapData (d : FlatFs) (x : Nat) : Prop :=
  ∃ f, d.freeMapFile = some f ∧ d.IsDataOf f x

/-- The sector is an index block of inode `t`. -/
def IsIndexOf (d : FlatFs) (t x : Nat) : Prop :=
  ∃ k, (Slot.index k).Valid ∧ x = slotOf d.cur t (.index k) ∧ x ≠ sectorError

/-- The sector is the inode of the free map file or one of its index blocks. -/
def IsMapMeta (d : FlatFs) (x : Nat) : Prop :=
  ∃ f, d.freeMapFile = some f ∧ (x = f ∨ d.IsIndexOf f x)

/-- The invariant of a file system with the inodes `live`. -/
structure Good (live : Set Nat) (d : FlatFs) : Prop where
  layout : Layout live d.cur d.freeMap.bits
  bitCnt : d.freeMap.bitCnt = d.size
  range : ∀ x, d.freeMap.bits x = true → x < d.size
  small : d.size < 2 ^ 32
  openUsed : ∀ x, d.inodes x ≠ none → d.freeMap.bits x = true
  closed : ∀ t ∈ live, ∀ j ≤ 4170, slotOf d.cur t (.data j) ≠ sectorError →
    d.inodes (slotOf d.cur t (.data j)) = none
  filled : ∀ t ∈ live, 0 ≤ InodeDisk.length (d.cur t) ∧
    ∀ j : Nat, 512 * (j : Int) < InodeDisk.length (d.cur t) →
      j ≤ 4170 ∧ slotOf d.cur t (.data j) ≠ sectorError
  first : ∀ t ∈ live, slotOf d.cur t (.data 0) ≠ sectorError
  file : ∀ f, d.freeMapFile = some f → f ∈ live ∧
    (d.freeMap.fileSize : Int) ≤ InodeDisk.length (d.cur f) ∧
      ∃ inode, d.inodes f = some inode ∧ inode.denyWriteCnt = 0

/-- The data of the inode are in memory. -/
def Loaded (d : FlatFs) (t : Nat) : Prop :=
  ∃ inode, d.inodes t = some inode ∧ inode.accessCount ≠ 0

/-- `access_count` of the inode of a sector, which is 0 where it is not open. -/
def accessCountOf (d : FlatFs) (t : Nat) : Nat := (d.inodes t).elim 0 Inode.accessCount

/-- How many sectors can be handed out and stored in a slot. -/
def free (d : FlatFs) : Nat :=
  ((Finset.range d.size).filter fun x => x ≠ sectorError ∧ d.freeMap.bits x = false).card

/-- How many of the slots `W` of inode `t` are empty. -/
def missing (d : FlatFs) (t : Nat) (W : Finset Slot) : Nat :=
  (W.filter fun a => slotOf d.cur t a = sectorError).card

end FlatFs

/-- The state `d'` differs from `d` in that slots of inode `t` among `W` are allocated, with zeros
for new data sectors; the file of the free map may have changed too. -/
structure Grows (live : Set Nat) (t : Nat) (W : Finset Slot) (d d' : FlatFs) : Prop where
  size : d'.size = d.size
  file : d'.freeMapFile = d.freeMapFile
  used : ∀ x, d.freeMap.bits x = true → d'.freeMap.bits x = true
  kept : ∀ u ∈ live, ∀ a : Slot, a.Valid → slotOf d.cur u a ≠ sectorError →
    slotOf d'.cur u a = slotOf d.cur u a
  others : ∀ u ∈ live, ∀ a : Slot, a.Valid → ¬ (u = t ∧ a ∈ W) →
    slotOf d'.cur u a = slotOf d.cur u a
  header : ∀ u ∈ live, ∀ i < 3, (d'.cur u).word i = (d.cur u).word i
  content : ∀ u ∈ live, d.freeMapFile ≠ some u → ∀ j ≤ 4170,
    slotOf d.cur u (.data j) ≠ sectorError →
      d'.cur (slotOf d.cur u (.data j)) = d.cur (slotOf d.cur u (.data j))
  fresh : d.freeMapFile ≠ some t → ∀ j ≤ 4170, slotOf d.cur t (.data j) = sectorError →
    slotOf d'.cur t (.data j) ≠ sectorError →
      d'.cur (slotOf d'.cur t (.data j)) = SectorData.zeros
  handles : ∀ u ∈ live, d.freeMapFile ≠ some u → d'.inodes u = d.inodes u
  loaded : ∀ u ∈ live, d.Loaded u → d'.Loaded u
  room : d'.missing t W + d.free ≤ d.missing t W + d'.free

variable {live : Set Nat} {t : Nat} {W : Finset Slot} {d d' d'' : FlatFs}

theorem Grows.refl : Grows live t W d d :=
  ⟨rfl, rfl, fun _ h => h, fun _ _ _ _ _ => rfl, fun _ _ _ _ _ => rfl, fun _ _ _ _ => rfl,
    fun _ _ _ _ _ _ => rfl, fun _ _ _ h h' => absurd h h', fun _ _ _ => rfl, fun _ _ h => h,
    le_rfl⟩

theorem Grows.trans (ht : t ∈ live) (h : Grows live t W d d') (h' : Grows live t W d' d'') :
    Grows live t W d d'' where
  size := h'.size.trans h.size
  file := h'.file.trans h.file
  used x hx := h'.used x (h.used x hx)
  kept u hu a ha hne := by
    have heq := h.kept u hu a ha hne
    rw [h'.kept u hu a ha (by rwa [heq]), heq]
  others u hu a ha hnot := (h'.others u hu a ha hnot).trans (h.others u hu a ha hnot)
  header u hu i hi := (h'.header u hu i hi).trans (h.header u hu i hi)
  content u hu hmapu j hj hne := by
    have heq := h.kept u hu (.data j) hj hne
    have hcontent := h'.content u hu (by rwa [h.file]) j hj (by rwa [heq])
    rw [heq] at hcontent
    exact hcontent.trans (h.content u hu hmapu j hj hne)
  fresh hmap j hj hnone hsome := by
    by_cases hmid : slotOf d'.cur t (.data j) = sectorError
    · exact h'.fresh (by rwa [h.file]) j hj hmid hsome
    · have heq := h'.kept t ht (.data j) hj hmid
      rw [heq, h'.content t ht (by rwa [h.file]) j hj hmid]
      exact h.fresh hmap j hj hnone hmid
  handles u hu hmapu := (h'.handles u hu (by rwa [h.file])).trans (h.handles u hu hmapu)
  loaded u hu hloaded := h'.loaded u hu (h.loaded u hu hloaded)
  room := by
    have h1 := h.room
    have h2 := h'.room
    omega

/-! ### Allocation -/

/-- `free_map_allocate` took the unused sector `b`, and wrote the map. -/
structure Allocated (live : Set Nat) (d d' : FlatFs) (b : Nat) : Prop where
  unused : d.freeMap.bits b = false
  lt : b < d.size
  good : d'.Good live
  size : d'.size = d.size
  file : d'.freeMapFile = d.freeMapFile
  bits : ∀ x, d'.freeMap.bits x = true ↔ d.freeMap.bits x = true ∨ x = b
  cur : ∀ x, ¬ d.IsMapData x → d'.cur x = d.cur x
  inodes : ∀ x, ¬ d.IsMapMeta x → d'.inodes x = d.inodes x
  loaded : ∀ x, d.Loaded x → d'.Loaded x
  counts : ∀ x, d'.accessCountOf x = d.accessCountOf x

/-- A result of `free_map_allocate`. -/
inductive Allocation (live : Set Nat) (d : FlatFs) : Option Nat → FlatFs → Prop where
  | none : Allocation live d none d
  | some {b : Nat} {d' : FlatFs} (h : Allocated live d d' b) : Allocation live d (some b) d'

/-- `free_map_allocate` returns an unused sector or, with no change, fails; `allowed` says which
results a state may lead to. -/
def FreeMapCalls.Allocates (calls : FreeMapCalls) (live : Set Nat)
    (allowed : FlatFs → Option Nat → Prop) : Prop :=
  ∀ d, d.Good live → ∃ r d', Runs Shows calls.allocate d r d' ∧ Allocation live d r d' ∧
    allowed d r

namespace FlatFs.Good

/-- What the index of live inodes is kept in is not data of the free map file. -/
theorem not_isMapData (h : d.Good live) {x : Nat}
    (hx : x ∈ live ∨ ∃ u ∈ live, ∃ k, (Slot.index k).Valid ∧ x = slotOf d.cur u (.index k)) :
    ¬ d.IsMapData x := by
  rintro ⟨f, hf, j, hj, rfl, hne⟩
  have hlive := (h.file f hf).1
  rcases hx with hx | ⟨u, hu, k, hk, heq⟩
  · exact h.layout.apart _ hx f hlive (.data j) hj hne rfl
  · nomatch (h.layout.inj f hlive u hu (.data j) (.index k) hj hk heq hne).2

/-- The data of an inode other than the free map file are not the map's. -/
theorem data_not_isMapData (h : d.Good live) (ht : t ∈ live) (hmap : d.freeMapFile ≠ some t)
    {j : Nat} (hj : j ≤ 4170) (hne : slotOf d.cur t (.data j) ≠ sectorError) :
    ¬ d.IsMapData (slotOf d.cur t (.data j)) := by
  rintro ⟨f, hf, l, hl, heq, -⟩
  obtain ⟨rfl, -⟩ := h.layout.inj t ht f (h.file f hf).1 (.data j) (.data l) hj hl heq hne
  exact hmap hf

/-- An inode other than the free map file, or one of its index blocks. -/
theorem not_isMapMeta (h : d.Good live) (ht : t ∈ live) (hmap : d.freeMapFile ≠ some t) {x : Nat}
    (hx : x = t ∨ d.IsIndexOf t x) : ¬ d.IsMapMeta x := by
  rintro ⟨f, hf, hfx⟩
  have hlive := (h.file f hf).1
  rcases hx with rfl | ⟨k, hk, rfl, hne⟩
  · rcases hfx with rfl | ⟨l, hl, heq, hne⟩
    · exact hmap hf
    · rw [heq] at hne
      exact h.layout.apart x ht f hlive (.index l) hl hne heq.symm
  · rcases hfx with heq | ⟨l, hl, heq, -⟩
    · exact h.layout.apart f hlive t ht (.index k) hk hne heq
    · obtain ⟨rfl, -⟩ := h.layout.inj t ht f hlive (.index k) (.index l) hk hl heq hne
      exact hmap hf

end FlatFs.Good

/-- The state after `free_map_allocate` gave `b`, `z` was written to it and `b` was stored at entry
`i` of the table in sector `o`. -/
def FlatFs.stored (d : FlatFs) (b o i : Nat) (z : SectorData) : FlatFs :=
  (d.setCur b z).setCur o (InodeDisk.setEntry (d.cur o) i b)

theorem FlatFs.stored_cur_self (d : FlatFs) (b o i : Nat) (z : SectorData) :
    (d.stored b o i z).cur o = InodeDisk.setEntry (d.cur o) i b := by
  simp [stored]

theorem FlatFs.stored_cur_new (d : FlatFs) {b o : Nat} (i : Nat) (z : SectorData) (h : b ≠ o) :
    (d.stored b o i z).cur b = z := by
  simp [stored, h]

theorem FlatFs.stored_cur_ne (d : FlatFs) {b o x : Nat} (i : Nat) (z : SectorData) (ho : x ≠ o)
    (hb : x ≠ b) : (d.stored b o i z).cur x = d.cur x := by
  simp [stored, ho, hb]

/-- The sectors that can be handed out after one was. -/
theorem Allocated.free {b : Nat} (h : Allocated live d d' b) :
    d'.free + (if b = sectorError then 0 else 1) = d.free := by
  have hset : (Finset.range d'.size).filter (fun x => x ≠ sectorError ∧ d'.freeMap.bits x = false) =
      ((Finset.range d.size).filter
        fun x => x ≠ sectorError ∧ d.freeMap.bits x = false).erase b := by
    ext x
    have hbits := h.bits x
    rw [Finset.mem_filter, Finset.mem_erase, Finset.mem_filter, h.size]
    cases hx : d'.freeMap.bits x <;> cases hy : d.freeMap.bits x <;> simp_all
  rw [FlatFs.free, FlatFs.free, hset]
  by_cases hb : b = sectorError
  · rw [if_pos hb, Finset.erase_eq_of_notMem, Nat.add_zero]
    rw [Finset.mem_filter]
    exact fun hmem => hmem.2.1 hb
  · rw [if_neg hb]
    exact Finset.card_erase_add_one
      (Finset.mem_filter.mpr ⟨Finset.mem_range.mpr h.lt, hb, h.unused⟩)

/-- What filling one slot does to the number of empty ones. -/
theorem FlatFs.missing_of_fill {a : Slot} {b : Nat} (haW : a ∈ W)
    (hempty : slotOf d.cur t a = sectorError)
    (hslot : ∀ c ∈ W, slotOf d'.cur t c = if c = a then b else slotOf d.cur t c) :
    d'.missing t W + (if b = sectorError then 0 else 1) = d.missing t W := by
  have hmem : a ∈ W.filter fun c => slotOf d.cur t c = sectorError :=
    Finset.mem_filter.mpr ⟨haW, hempty⟩
  by_cases hb : b = sectorError
  · rw [if_pos hb, Nat.add_zero, missing, missing]
    refine congrArg Finset.card (Finset.filter_congr fun c hc => ?_)
    rw [hslot c hc]
    by_cases hca : c = a
    · rw [if_pos hca, hca]
      exact iff_of_true hb hempty
    · rw [if_neg hca]
  · rw [if_neg hb, missing, missing, ← Finset.card_erase_add_one hmem]
    refine congrArg (Finset.card · + 1) (Finset.ext fun c => ?_)
    rw [Finset.mem_erase, Finset.mem_filter, Finset.mem_filter]
    constructor
    · rintro ⟨hc, heq⟩
      rw [hslot c hc] at heq
      by_cases hca : c = a
      · rw [if_pos hca] at heq
        exact absurd heq hb
      · rw [if_neg hca] at heq
        exact ⟨hca, hc, heq⟩
    · rintro ⟨hca, hc, heq⟩
      refine ⟨hc, ?_⟩
      rw [hslot c hc, if_neg hca]
      exact heq

section Stored

variable {a : Slot} {o i b : Nat} {z : SectorData}

/-- What holds when the slot `a` of inode `t` is filled. -/
structure Fills (live : Set Nat) (d d' : FlatFs) (t : Nat) (a : Slot) (o i b : Nat)
    (z : SectorData) : Prop where
  good : d.Good live
  isLive : t ∈ live
  valid : a.Valid
  at_place : place d.cur t a = some (o, i)
  empty : slotOf d.cur t a = sectorError
  allocated : Allocated live d d' b
  zeros : ∀ j, a = .data j → z = SectorData.zeros
  index : ∀ k, a = .index k →
    (∀ l < 64, entry z l = sectorError) ∧ InodeDisk.isIndexBlock z ≠ 0

namespace Fills

theorem used_o (h : Fills live d d' t a o i b z) : d.freeMap.bits o = true :=
  h.good.layout.place_used h.isLive h.valid h.at_place

theorem ne_b (h : Fills live d d' t a o i b z) {x : Nat} (hx : d.freeMap.bits x = true) :
    x ≠ b := by
  rintro rfl
  rw [h.allocated.unused] at hx
  nomatch hx

/-- The table is an inode or an index block. -/
theorem meta_o (h : Fills live d d' t a o i b z) :
    o ∈ live ∨ ∃ u ∈ live, ∃ k, (Slot.index k).Valid ∧ o = slotOf d.cur u (.index k) := by
  rcases place_cases h.valid h.at_place with ⟨rfl, -⟩ | ⟨j, hj, hj', -, -, ho, -⟩
  · exact .inl h.isLive
  · exact .inr ⟨t, h.isLive, _, index_valid hj hj', ho⟩

theorem cur_o (h : Fills live d d' t a o i b z) : d'.cur o = d.cur o :=
  h.allocated.cur o (h.good.not_isMapData h.meta_o)

/-- Index sectors other than the table keep their contents. -/
theorem cur_meta (h : Fills live d d' t a o i b z) {x : Nat} (hx : d.freeMap.bits x = true)
    (hxo : x ≠ o)
    (hmeta : x ∈ live ∨ ∃ u ∈ live, ∃ k, (Slot.index k).Valid ∧ x = slotOf d.cur u (.index k)) :
    (d'.stored b o i z).cur x = d.cur x := by
  rw [FlatFs.stored_cur_ne _ _ _ hxo (h.ne_b hx)]
  exact h.allocated.cur x (h.good.not_isMapData hmeta)

theorem b_lt (h : Fills live d d' t a o i b z) : b < 2 ^ 32 :=
  h.allocated.lt.trans h.good.small

theorem slotOf_eq (h : Fills live d d' t a o i b z) {u : Nat} {c : Slot} (hu : u ∈ live)
    (hc : c.Valid) :
    slotOf (d'.stored b o i z).cur u c = if u = t ∧ c = a then b else slotOf d.cur u c := by
  refine h.good.layout.slotOf_store h.isLive h.valid h.at_place h.empty h.b_lt
    (fun k hk => (h.index k hk).1) ?_ (FlatFs.stored_cur_new _ _ _ ?_)
    (fun x hx hxo hmeta => h.cur_meta hx hxo hmeta) hu hc
  · rw [FlatFs.stored_cur_self, h.cur_o]
  · exact (h.ne_b h.used_o).symm

/-- The words before the index do not change in any live inode. -/
theorem header_eq (h : Fills live d d' t a o i b z) {u : Nat} (hu : u ∈ live) {l : Nat}
    (hl : l < 3) : ((d'.stored b o i z).cur u).word l = (d.cur u).word l := by
  by_cases huo : u = o
  · rw [huo, FlatFs.stored_cur_self, h.cur_o, InodeDisk.setEntry,
      SectorData.word_setWord_ne _ _ (by omega)]
  · rw [h.cur_meta (h.good.layout.inode u hu) huo (.inl hu)]

theorem length_eq (h : Fills live d d' t a o i b z) {u : Nat} (hu : u ∈ live) :
    InodeDisk.length ((d'.stored b o i z).cur u) = InodeDisk.length (d.cur u) := by
  rw [InodeDisk.length, InodeDisk.length, h.header_eq hu (by omega)]

theorem good' (h : Fills live d d' t a o i b z) : (d'.stored b o i z).Good live where
  layout := by
    refine h.good.layout.store h.isLive h.valid h.at_place h.empty h.allocated.unused h.b_lt h.index ?_
      (FlatFs.stored_cur_new _ _ _ (h.ne_b h.used_o).symm)
      (fun x hx hxo hmeta => h.cur_meta hx hxo hmeta) h.allocated.bits
    rw [FlatFs.stored_cur_self, h.cur_o]
  bitCnt := h.allocated.good.bitCnt
  range := h.allocated.good.range
  small := h.allocated.good.small
  openUsed := h.allocated.good.openUsed
  closed u hu j hj hne := by
    rw [h.slotOf_eq (c := .data j) hu hj] at hne ⊢
    change d'.inodes _ = none
    by_cases hua : u = t ∧ Slot.data j = a
    · rw [if_pos hua]
      have hnot : ¬ d.IsMapMeta b := by
        rintro ⟨f, hf, rfl | ⟨k, hk, rfl, hbne⟩⟩
        · exact h.ne_b (h.good.layout.inode b (h.good.file b hf).1) rfl
        · exact h.ne_b (h.good.layout.slot f (h.good.file f hf).1 _ hk hbne) rfl
      rw [h.allocated.inodes b hnot]
      by_contra hsome
      exact h.ne_b (h.good.openUsed b hsome) rfl
    · rw [if_neg hua] at hne ⊢
      have hslot : slotOf d'.cur u (.data j) = slotOf d.cur u (.data j) := by
        refine slotOf_congr hj (fun k => ?_) fun k hk hkne l => ?_
        · rw [h.allocated.cur u (h.good.not_isMapData (.inl hu))]
        · rw [h.allocated.cur _ (h.good.not_isMapData (.inr ⟨u, hu, k, hk, rfl⟩))]
      have hclosed := h.allocated.good.closed u hu j hj (by rwa [hslot])
      rwa [hslot] at hclosed
  filled u hu := by
    rw [h.length_eq hu]
    obtain ⟨h0, hfilled⟩ := h.good.filled u hu
    refine ⟨h0, fun j hj => ?_⟩
    obtain ⟨hj', hne⟩ := hfilled j hj
    refine ⟨hj', ?_⟩
    rw [h.slotOf_eq (c := .data j) hu hj', if_neg]
    · exact hne
    · rintro ⟨rfl, rfl⟩
      exact hne h.empty
  first u hu := by
    have hne := h.good.first u hu
    have hvalid : (Slot.data 0).Valid := Nat.zero_le _
    rw [h.slotOf_eq hu hvalid, if_neg]
    · exact hne
    · rintro ⟨rfl, rfl⟩
      exact hne h.empty
  file f hf := by
    have hf' : d.freeMapFile = some f := by rw [← h.allocated.file]; exact hf
    obtain ⟨hlive, hsize, hopen⟩ := h.allocated.good.file f hf
    have hlength : InodeDisk.length (d'.cur f) = InodeDisk.length (d.cur f) := by
      rw [h.allocated.cur f (h.good.not_isMapData (.inl hlive))]
    refine ⟨hlive, ?_, hopen⟩
    rw [h.length_eq hlive, ← hlength]
    exact hsize

theorem grows (h : Fills live d d' t a o i b z) (haW : a ∈ W) (hW : ∀ c ∈ W, c.Valid) :
    Grows live t W d (d'.stored b o i z) where
  size := h.allocated.size
  file := h.allocated.file
  used x hx := (h.allocated.bits x).mpr (.inl hx)
  kept u hu c hc hne := by
    rw [h.slotOf_eq hu hc, if_neg]
    rintro ⟨rfl, rfl⟩
    exact hne h.empty
  others u hu c hc hnot := by
    rw [h.slotOf_eq hu hc, if_neg]
    rintro ⟨rfl, rfl⟩
    exact hnot ⟨rfl, haW⟩
  header u hu l hl := h.header_eq hu hl
  content u hu hmap j hj hne := by
    have hused := h.good.layout.slot u hu (.data j) hj hne
    have hno : slotOf d.cur u (.data j) ≠ o :=
      h.good.layout.place_ne_data h.isLive hu h.valid h.at_place hj hne
    rw [FlatFs.stored_cur_ne _ _ _ hno (h.ne_b hused)]
    exact h.allocated.cur _ (h.good.data_not_isMapData hu hmap hj hne)
  fresh _ j hj hnone hsome := by
    rw [h.slotOf_eq (c := .data j) h.isLive hj] at hsome ⊢
    by_cases haj : t = t ∧ Slot.data j = a
    · rw [if_pos haj, FlatFs.stored_cur_new _ _ _ (h.ne_b h.used_o).symm]
      exact h.zeros j haj.2.symm
    · rw [if_neg haj] at hsome
      exact absurd hnone hsome
  handles u hu hmap := h.allocated.inodes u (h.good.not_isMapMeta hu hmap (.inl rfl))
  loaded u _ hloaded := h.allocated.loaded u hloaded
  room := by
    have hfree : (d'.stored b o i z).free = d'.free := rfl
    have hallocated := h.allocated.free
    have hmissing : (d'.stored b o i z).missing t W + (if b = sectorError then 0 else 1) =
        d.missing t W := by
      apply FlatFs.missing_of_fill haW h.empty
      intro c hc
      rw [h.slotOf_eq h.isLive (hW c hc)]
      simp
    rw [hfree]
    omega

end Fills

end Stored

end Pintos
