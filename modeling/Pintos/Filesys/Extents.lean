import Pintos.Filesys.Growth

/-! File systems whose inodes use the direct range only, each with its data in consecutive sectors.
What `Good` asks of such a file system is that the extents do not meet. -/

namespace Pintos

open InodeDisk (entry)

/-- A disk inode with the data sectors from `start` on. -/
def extentInode (start cnt : Nat) (length : Int) : InodeDisk :=
  InodeDisk.setLength ((List.range' 1 (cnt - 1)).foldl (fun d k => InodeDisk.setEntry d k (start + k))
    (newDiskInode start length 0)) length

theorem entry_newDiskInode {start : Nat} (hstart : start < 2 ^ 32) (length : Int) (parent : Nat)
    {k : Nat} (hk : k < 79) :
    entry (newDiskInode start length parent) k = if k = 0 then start else sectorError := by
  have hclear : ∀ i ∈ List.range' 1 (indexMainEntries - 1), i < 79 := by
    intro i hi
    have := (List.mem_range'_1.mp hi).2
    unfold indexMainEntries directBlocks indirectBlocks dIndirectBlocks at this
    omega
  rw [newDiskInode, entry, SectorData.word_setWord_ne _ _ (by omega),
    SectorData.word_setWord_ne _ _ (by omega), SectorData.word_setWord_ne _ _ (by omega), ← entry,
    InodeDisk.entry_setLength, InodeDisk.entry_clearEntries _ _ hclear]
  by_cases hk0 : k = 0
  · subst hk0
    rw [if_neg (by simp), if_pos rfl, entry, SectorData.word_setWord_ne _ _ (by omega)]
    exact InodeDisk.entry_setEntry_self _ (by omega) hstart
  · rw [if_neg hk0, if_pos]
    rw [List.mem_range'_1]
    unfold indexMainEntries directBlocks indirectBlocks dIndirectBlocks
    omega

theorem entry_foldl_setEntry (start : Nat) (d : InodeDisk) {ks : List Nat} (hks : ks.Nodup)
    (hlt : ∀ k ∈ ks, k < 79 ∧ start + k < 2 ^ 32) (j : Nat) :
    entry (ks.foldl (fun d k => InodeDisk.setEntry d k (start + k)) d) j =
      if j ∈ ks then start + j else entry d j := by
  induction ks generalizing d with
  | nil => simp
  | cons k ks ih =>
    obtain ⟨hk, hnodup⟩ := List.nodup_cons.mp hks
    rw [List.foldl_cons, ih _ hnodup fun i hi => hlt i (List.mem_cons_of_mem _ hi)]
    by_cases hjks : j ∈ ks
    · simp [hjks]
    · by_cases hjk : j = k
      · subst hjk
        obtain ⟨h79, hlt⟩ := hlt j List.mem_cons_self
        rw [InodeDisk.entry_setEntry_self d h79 hlt]
        simp
      · rw [InodeDisk.entry_setEntry_ne d _ hjk]
        simp [hjks, hjk]

theorem entry_extentInode {start cnt : Nat} (hcnt : 0 < cnt) (hcnt' : cnt ≤ 11)
    (hstart : start + cnt < 2 ^ 32) (length : Int) {k : Nat} (hk : k < 79) :
    entry (extentInode start cnt length) k = if k < cnt then start + k else sectorError := by
  rw [extentInode, InodeDisk.entry_setLength, entry_foldl_setEntry _ _ List.nodup_range',
    entry_newDiskInode (by omega) _ _ hk]
  · by_cases hk0 : k = 0
    · subst hk0
      rw [if_neg (by simp), if_pos rfl, if_pos hcnt, Nat.add_zero]
    · rw [if_neg hk0]
      by_cases hlt : k < cnt
      · rw [if_pos (List.mem_range'_1.mpr (by omega)), if_pos hlt]
      · rw [if_neg (fun hmem => hlt (by have := List.mem_range'_1.mp hmem; omega)), if_neg hlt]
  · intro i hi
    have := List.mem_range'_1.mp hi
    omega

theorem length_extentInode (start cnt : Nat) {length : Int} (h0 : 0 ≤ length)
    (h : length < 2 ^ 31) : InodeDisk.length (extentInode start cnt length) = length :=
  InodeDisk.length_setLength _ h0 h

variable {live : Set Nat} {d : FlatFs} {start cnt : Nat → Nat} {t j : Nat} {a : Slot}

/-- The data of each live inode `t` are the `cnt t` sectors from `start t` on. -/
structure Extents (live : Set Nat) (d : FlatFs) (start cnt : Nat → Nat) : Prop where
  entry : ∀ t ∈ live, ∀ k < 79,
    entry (d.cur t) k = if k < cnt t then start t + k else sectorError
  direct : ∀ t ∈ live, 0 < cnt t ∧ cnt t ≤ 11
  length : ∀ t ∈ live, 0 ≤ InodeDisk.length (d.cur t) ∧
    InodeDisk.length (d.cur t) ≤ 512 * (cnt t : Int)
  apart : ∀ t ∈ live, ∀ u ∈ live, ∀ j < cnt t,
    start t + j ≠ u ∧ ∀ k < cnt u, start t + j = start u + k → t = u
  used : ∀ t ∈ live, d.freeMap.bits t = true ∧
    ∀ j < cnt t, d.freeMap.bits (start t + j) = true ∧ start t + j ≠ sectorError

namespace Extents

theorem slotOf_index (h : Extents live d start cnt) (ht : t ∈ live) {k : Nat}
    (hk : (Slot.index k).Valid) : slotOf d.cur t (.index k) = sectorError := by
  obtain ⟨hk1, hk2⟩ := hk
  rw [Pintos.slotOf_index, h.entry t ht k (by omega), if_neg]
  have := (h.direct t ht).2
  omega

theorem slotOf_data (h : Extents live d start cnt) (ht : t ∈ live) (hj : j ≤ 4170) :
    slotOf d.cur t (.data j) = if j < cnt t then start t + j else sectorError := by
  by_cases hdirect : j ≤ 10
  · rw [slotOf_direct hdirect, h.entry t ht j (by omega)]
  · have := (h.direct t ht).2
    rw [slotOf_no_index (by omega) (h.slotOf_index ht (index_valid (by omega) hj)), if_neg (by omega)]

/-- A slot that is not empty. -/
theorem cases (h : Extents live d start cnt) (ht : t ∈ live) (ha : a.Valid)
    (hne : slotOf d.cur t a ≠ sectorError) :
    ∃ j < cnt t, a = .data j ∧ slotOf d.cur t a = start t + j := by
  cases a with
  | index k => exact absurd (h.slotOf_index ht ha) hne
  | data j =>
    have hslot := h.slotOf_data ht ha
    by_cases hj : j < cnt t
    · exact ⟨j, hj, rfl, by rw [hslot, if_pos hj]⟩
    · rw [if_neg hj] at hslot
      exact absurd hslot hne

theorem layout (h : Extents live d start cnt) : Layout live d.cur d.freeMap.bits where
  inode t ht := (h.used t ht).1
  slot t ht a ha hne := by
    obtain ⟨j, hj, -, hslot⟩ := h.cases ht ha hne
    rw [hslot]
    exact ((h.used t ht).2 j hj).1
  inj t ht u hu a c ha hc heq hne := by
    obtain ⟨j, hj, rfl, hslot⟩ := h.cases ht ha hne
    obtain ⟨k, hk, rfl, hslot'⟩ := h.cases hu hc (by rwa [← heq])
    rw [hslot, hslot'] at heq
    obtain rfl := (h.apart t ht u hu j hj).2 k hk heq
    exact ⟨rfl, congrArg Slot.data (Nat.add_left_cancel heq)⟩
  apart t ht u hu a ha hne := by
    obtain ⟨j, hj, -, hslot⟩ := h.cases hu ha hne
    rw [hslot]
    exact (h.apart u hu t ht j hj).1
  flag t ht k hk hne := absurd (h.slotOf_index ht hk) hne

theorem good (h : Extents live d start cnt) (bitCnt : d.freeMap.bitCnt = d.size)
    (range : ∀ x, d.freeMap.bits x = true → x < d.size) (small : d.size < 2 ^ 32)
    (opened : ∀ x, d.inodes x ≠ none → x ∈ live)
    (file : ∀ f, d.freeMapFile = some f → f ∈ live ∧
      (d.freeMap.fileSize : Int) ≤ InodeDisk.length (d.cur f) ∧
        ∃ inode, d.inodes f = some inode ∧ inode.denyWriteCnt = 0) : d.Good live where
  layout := h.layout
  bitCnt := bitCnt
  range := range
  small := small
  openUsed x hx := (h.used x (opened x hx)).1
  closed t ht j hj hne := by
    obtain ⟨k, hk, -, hslot⟩ := h.cases (a := .data j) ht hj hne
    rw [hslot]
    by_contra hopen
    exact (h.apart t ht _ (opened _ hopen) k hk).1 rfl
  filled t ht := by
    obtain ⟨h0, hle⟩ := h.length t ht
    obtain ⟨-, hdirect⟩ := h.direct t ht
    refine ⟨h0, fun j hj => ?_⟩
    have hcnt : j < cnt t := by omega
    refine ⟨by omega, ?_⟩
    rw [h.slotOf_data ht (by omega), if_pos hcnt]
    exact ((h.used t ht).2 j hcnt).2
  first t ht := by
    have hpos := (h.direct t ht).1
    rw [h.slotOf_data ht (Nat.zero_le _), if_pos hpos]
    exact ((h.used t ht).2 0 hpos).2
  file := file

end Extents

/-- A disk with the free map in sector 1 and a file of 11 sectors from sector 3 on, which is open
and loaded.  The `spare` sectors from 14 on are unused. -/
def elevenSectors (spare : Nat) (hspare : spare ≤ 18) : FileSys where
  cache := bcInit (fun _ => SectorData.zeros)
    { size := 14 + spare
      size_lt := by omega
      data := fun x =>
        if x = 0 then extentInode 1 1 4 else if x = 2 then extentInode 3 11 5632
        else SectorData.zeros }
  freeMap := ⟨14 + spare, fun x => x < 14⟩
  freeMapFile := some 0
  inodes x :=
    if x = 0 then some ⟨1, false, 0, none, 0, -1⟩
    else if x = 2 then some ⟨1, false, 0, some (extentInode 3 11 5632), 1, 5632⟩ else none

variable {spare : Nat} {hspare : spare ≤ 18}

theorem elevenSectors_wf : (elevenSectors spare hspare).Wf := by
  refine ⟨bcInit_wf _ _, fun t inode hi => ?_⟩
  dsimp only [elevenSectors] at hi
  split_ifs at hi
  · cases hi
    exact iff_of_true rfl rfl
  · cases hi
    exact iff_of_false nofun nofun

theorem elevenSectors_cur : (elevenSectors spare hspare).flat.cur 0 = extentInode 1 1 4 ∧
    (elevenSectors spare hspare).flat.cur 2 = extentInode 3 11 5632 := by
  refine ⟨?_, rfl⟩
  change (elevenSectors spare hspare).cache.view 0 = _
  rw [elevenSectors, bcInit_view _ _ (by dsimp only; omega)]
  rfl

theorem elevenSectors_extents : Extents {0, 2} (elevenSectors spare hspare).flat (fun t => if t = 0 then 1 else 3)
    fun t => if t = 0 then 1 else 11 := by
  obtain ⟨hmap, hfile⟩ := @elevenSectors_cur spare hspare
  refine ⟨?_, ?_, ?_, ?_, ?_⟩
  · rintro t (rfl | rfl) k hk
    · rw [hmap]
      exact entry_extentInode (by decide) (by decide) (by decide) 4 hk
    · rw [hfile]
      exact entry_extentInode (by decide) (by decide) (by decide) 5632 hk
  · rintro t (rfl | rfl) <;> decide
  · rintro t (rfl | rfl)
    · rw [hmap, length_extentInode 1 1 (by decide) (by decide)]
      decide
    · rw [hfile, length_extentInode 3 11 (by decide) (by decide)]
      decide
  · rintro t (rfl | rfl) u (rfl | rfl) j hj <;> refine ⟨?_, fun k hk heq => ?_⟩ <;>
      simp at * <;> omega
  · rintro t (rfl | rfl)
    · refine ⟨rfl, fun j hj => ?_⟩
      simp at hj
      subst hj
      exact ⟨rfl, by decide⟩
    · refine ⟨rfl, fun j hj => ⟨?_, ?_⟩⟩
      · simp at hj
        exact decide_eq_true (by simp; omega)
      · simp at hj ⊢
        unfold sectorError
        omega

theorem elevenSectors_good : (elevenSectors spare hspare).flat.Good {0, 2} := by
  have hsize : (elevenSectors spare hspare).flat.size = 14 + spare := rfl
  refine elevenSectors_extents.good rfl (fun x hx => ?_) (by omega) (fun x hx => ?_)
    fun f hf => ?_
  · have hlt : x < 14 := of_decide_eq_true hx
    omega
  · by_contra hnot
    refine hx ?_
    rw [Set.mem_insert_iff, Set.mem_singleton_iff, not_or] at hnot
    change Option.map _ (if x = 0 then _ else if x = 2 then _ else none) = none
    rw [if_neg hnot.1, if_neg hnot.2]
    rfl
  · cases hf
    refine ⟨.inl rfl, ?_, _, rfl, rfl⟩
    rw [elevenSectors_cur.1, length_extentInode 1 1 (by decide) (by decide)]
    change ((4 * ((14 + spare + 31) / 32) : Nat) : Int) ≤ 4
    omega

/-- Only sector 14 is unused. -/
def nearlyFull : FileSys := elevenSectors 1 (by decide)

/-- There are four unused sectors. -/
def fourSpare : FileSys := elevenSectors 4 (by decide)

end Pintos
