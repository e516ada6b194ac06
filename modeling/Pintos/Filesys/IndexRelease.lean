import Pintos.Filesys.Extents
import Pintos.Filesys.FreeMapSpec

/-! The index blocks that `inode_pos_to_real_sector` loads.  `CHECK_ALLOCATE_AND_GET_SECTOR` returns
from the function where there is no sector, and what matters is whether an index block was loaded by
then. -/

namespace Pintos

open InodeDisk (entry)

variable {live : Set Nat} {d d' : FlatFs} {t j : Nat} {allocateNew : Bool} {pos : Int}

/-- `access_count` of the inode of a sector, which is 0 where it is not open. -/
def FileSys.accessCountOf (s : FileSys) (t : Nat) : Nat := (s.inodes t).elim 0 Inode.accessCount

theorem Shows.accessCountOf {s : FileSys} (h : Shows s d) (t : Nat) :
    s.accessCountOf t = d.accessCountOf t := by
  rw [FlatFs.accessCountOf, ← h.inodes t, FileSys.accessCountOf]
  cases s.inodes t <;> rfl

/-- `free_map_allocate` returns a sector other than `SECTOR_ERROR`. -/
def Bitmap.Gives (b : Bitmap) : Prop := ∃ sector, b.scan 0 1 false = some sector ∧ sector ≠ sectorError

/-- The map after `free_map_allocate`. -/
def Bitmap.afterAllocate (b : Bitmap) : Bitmap := ((b.scanAndFlip 0 1 false).map Prod.snd).getD b

/-- Sector `j` of inode `t` does not end in an index block without the sector: it is in the direct
range or there already; or there is no index block for it and none can be had, or both can be; or
there is an index block, and a sector can be had. -/
def FlatFs.InReach (d : FlatFs) (t j : Nat) (allocateNew : Bool) : Prop :=
  10 < j → slotOf d.cur t (.data j) = sectorError →
    if slotOf d.cur t (.index (mainIdx j)) = sectorError then
      allocateNew = true → d.freeMap.Gives → d.freeMap.afterAllocate.Gives
    else allocateNew = true ∧ d.freeMap.Gives

/-! ### The ways through the function -/

/-- What `free_map_allocate` returns. -/
def Scans (d : FlatFs) (r : Option Nat) : Prop := r = d.freeMap.scan 0 1 false

theorem gives_iff {b : Bitmap} {r : Option Nat} (h : r = b.scan 0 1 false) :
    b.Gives ↔ r.getD sectorError ≠ sectorError := by
  rw [Bitmap.Gives, ← h]
  cases r with
  | none => exact iff_of_false (fun ⟨_, hsome, _⟩ => nomatch hsome) fun hne => hne rfl
  | some sector =>
    constructor
    · rintro ⟨_, hsome, hne⟩
      cases hsome
      exact hne
    · exact fun hne => ⟨sector, rfl, hne⟩

variable {a : Slot}

theorem Stores.gives_iff (h : Stores Scans t a d d') :
    d.freeMap.Gives ↔ slotOf d'.cur t a ≠ sectorError := by
  obtain ⟨r, hr, hslot, -⟩ := h.took
  rw [hslot]
  exact Pintos.gives_iff hr

/-- The map after a slot was filled. -/
theorem Stores.freeMap (h : Stores Scans t a d d') : d'.freeMap = d.freeMap.afterAllocate := by
  obtain ⟨r, hr, -, hbits⟩ := h.took
  rw [Scans] at hr
  have hcnt := h.bitCnt
  rw [Bitmap.afterAllocate, Bitmap.scanAndFlip, ← hr]
  have hext : ∀ {b b' : Bitmap}, b.bitCnt = b'.bitCnt → (∀ x, b.bits x = true ↔ b'.bits x = true) →
      b = b' := by
    rintro ⟨n, f⟩ ⟨n', f'⟩ (rfl : n = n') hbits
    exact congrArg (Bitmap.mk n) (funext fun x => Bool.eq_iff_iff.mpr (hbits x))
  cases r with
  | none => exact hext hcnt fun x => (hbits x).trans (or_iff_left (by simp))
  | some b =>
    refine hext hcnt fun x => (hbits x).trans ?_
    rw [Option.some_inj, eq_comm (a := b)]
    exact (d.take_bits b x).symm

/-- The slot was looked up. -/
theorem Checked.cases (h : Checked Scans allocateNew t a d d') :
    (allocateNew = true ∧ slotOf d.cur t a = sectorError ∧ Stores Scans t a d d') ∨
      (¬ (allocateNew = true ∧ slotOf d.cur t a = sectorError) ∧ d' = d) := by
  rw [Checked] at h
  split_ifs at h with hnew
  · exact .inl ⟨hnew.1, hnew.2, h⟩
  · exact .inr ⟨hnew, h⟩

/-- An index block is left without the sector exactly where the sector was not in reach. -/
theorem Walk.stranded_iff (h : Walk Scans allocateNew t j d d') (hj' : j ≤ 4170)
    (hkept : slotOf d.cur t (.data j) ≠ sectorError → slotOf d'.cur t (.data j) ≠ sectorError) :
    d'.Stranded t j ↔ ¬ d.InReach t j allocateNew := by
  by_cases hthere : slotOf d.cur t (.data j) ≠ sectorError
  · exact iff_of_false (fun hleft => hkept hthere hleft.2.2)
      fun hnot => hnot fun _ hnone => absurd hnone hthere
  rw [not_ne_iff] at hthere
  have hne : Slot.data j ≠ .index (mainIdx j) := nofun
  cases h with
  | direct hj h =>
    exact iff_of_false (fun hleft => absurd hleft.1 (by omega))
      fun hnot => hnot fun hlt => absurd hlt (by omega)
  | noIndex hj h hnone =>
    refine iff_of_false (fun hleft => hleft.2.1 hnone) fun hnot => hnot fun _ _ => ?_
    rcases h.cases with ⟨-, hindex, hstores⟩ | ⟨hold, rfl⟩
    · rw [if_pos hindex]
      exact fun _ hgives => absurd hnone (hstores.gives_iff.mp hgives)
    · rw [if_pos hnone]
      exact fun hnew => absurd ⟨hnew, hnone⟩ hold
  | @stops d1 d2 d' n hj h hsome hopen h' hindex hnone =>
    refine iff_of_true ⟨hj, by rwa [hindex], hnone⟩ fun hreach => ?_
    have hreach := hreach hj hthere
    rcases h.cases with ⟨hnew, hempty, hstores⟩ | ⟨hold, rfl⟩
    · rw [if_pos hempty] at hreach
      have hmore := hreach hnew (hstores.gives_iff.mpr hsome)
      rcases h'.cases with ⟨-, -, hstores'⟩ | ⟨hold', rfl⟩
      · rw [← hstores.freeMap, ← hopen.freeMap, hstores'.gives_iff] at hmore
        exact hmore hnone
      · exact hold' ⟨hnew, hnone⟩
    · rw [if_neg hsome] at hreach
      rcases h'.cases with ⟨-, -, hstores'⟩ | ⟨hold', rfl⟩
      · have hmore := hreach.2
        rw [← hopen.freeMap, hstores'.gives_iff] at hmore
        exact hmore hnone
      · exact hold' ⟨hreach.1, hnone⟩
  | @releases d1 d2 d3 d' n hj h hsome hopen h' hfound hclose =>
    refine iff_of_false (fun hleft => hfound ?_) fun hnot => hnot fun _ _ => ?_
    · rw [← hclose.cur]
      exact hleft.2.2
    rcases h.cases with ⟨hnew, hempty, hstores⟩ | ⟨hold, rfl⟩
    · rw [if_pos hempty]
      intro _ _
      have hdata : slotOf d2.cur t (.data j) = sectorError := by
        rw [hopen.cur, hstores.others (.data j) hj' hne, hthere]
      rcases h'.cases with ⟨-, -, hstores'⟩ | ⟨hold', rfl⟩
      · rw [← hstores.freeMap, ← hopen.freeMap]
        exact hstores'.gives_iff.mpr hfound
      · exact absurd hdata hfound
    · rw [if_neg hsome]
      rcases h'.cases with ⟨hnew, -, hstores'⟩ | ⟨hold', rfl⟩
      · rw [← hopen.freeMap]
        exact ⟨hnew, hstores'.gives_iff.mpr hfound⟩
      · rw [hopen.cur] at hfound
        exact absurd hthere hfound

/-! ### Every position -/

/-- The call returns with every access count as it was.  If it returns a sector of the indirect range,
the cache has the sector in the index block, unless that is loaded. -/
def ReleasesIndex (depth : Nat) (s : FileSys) (t : Nat) (pos : Int) (allocateNew : Bool) : Prop :=
  ∃ r s', inodePosToRealSector (freeMapCalls (depth + 1)) t pos allocateNew s = .ok (r, s') ∧
    (∀ x, s'.accessCountOf x = s.accessCountOf x) ∧
    (10 < (pos / 512).toNat → r ≠ sectorError →
      s.accessCountOf (slotOf s'.cur t (.index (mainIdx (pos / 512).toNat))) = 0 →
      entry (s'.cache.view (slotOf s'.cur t (.index (mainIdx (pos / 512).toNat))))
        (innerIdx (pos / 512).toNat) = r)

/-- The position is not past the sectors that the table in the inode has entries for. -/
structure SparesIndex (d : FlatFs) (t : Nat) (pos : Int) (allocateNew : Bool) : Prop where
  nonneg : 0 ≤ pos
  indirect : (pos / 512).toNat ≤ 4170
  inReach : d.InReach t (pos / 512).toNat allocateNew

/-- An open and loaded inode of a file system with the inodes `live`. -/
structure FileSys.Ready (live : Set Nat) (s : FileSys) (t : Nat) : Prop where
  wf : s.Wf
  good : s.flat.Good live
  isLive : t ∈ live
  loaded : s.flat.Loaded t

/-- Outside the first two ranges the function does not return. -/
theorem inodePosToRealSector_fault (calls : FreeMapCalls) (t : Nat) {pos : Int}
    (allocateNew : Bool) (h : ¬ (0 ≤ pos ∧ (pos / 512).toNat ≤ 4170)) :
    ∃ e, ∀ s, inodePosToRealSector calls t pos allocateNew s = .error e := by
  by_cases hpos : 0 ≤ pos
  · have hj : inodeAccessIndirect < (pos / blockSectorSize).toNat :=
      Nat.not_le.mp fun hle => h ⟨hpos, hle⟩
    have hdirect : ¬ (pos / blockSectorSize).toNat ≤ inodeAccessDirect :=
      Nat.not_le.mpr (Nat.lt_trans (by decide) hj)
    rw [inodePosToRealSector, if_neg (not_not.mpr hpos)]
    dsimp only
    rw [if_neg hdirect, if_neg (Nat.not_le.mpr hj)]
    split_ifs
    · refine ⟨.undefined "subscript is not below the size of the table",
        fun s => Routine.bind_of_error ?_ _⟩
      rw [checkAllocateAndGetSector, if_pos]
      · rfl
      · exact Nat.le_trans (show indexMainEntries ≤ 4170 by decide) (Nat.le_add_left _ _)
    · exact ⟨.panic
        "OUT OF MEMORY: Trying to write to disk a file or folder greater than 8MB!", fun _ => rfl⟩
  · rw [inodePosToRealSector, if_pos hpos]
    exact ⟨.assertion "pos >= 0", fun _ => rfl⟩

/-- What the function does in the first two ranges. -/
theorem FileSys.Ready.run (depth : Nat) {s : FileSys} (h : s.Ready live t) (hpos : 0 ≤ pos)
    (hj : (pos / 512).toNat ≤ 4170) (allocateNew : Bool) :
    ∃ s' d', inodePosToRealSector (freeMapCalls (depth + 1)) t pos allocateNew s =
        .ok (slotOf d'.cur t (.data (pos / 512).toNat), s') ∧ Shows s' d' ∧ d'.Good live ∧
      Walk Scans allocateNew t (pos / 512).toNat s.flat d' ∧
      (slotOf s.flat.cur t (.data (pos / 512).toNat) ≠ sectorError →
        slotOf d'.cur t (.data (pos / 512).toNat) ≠ sectorError) := by
  obtain ⟨W, hin, hW⟩ : ∃ W : Finset Slot, (allocateNew = true → .data (pos / 512).toNat ∈ W ∧
      (10 < (pos / 512).toNat → .index (mainIdx (pos / 512).toNat) ∈ W)) ∧ ∀ c ∈ W, c.Valid := by
    by_cases hlt : 10 < (pos / 512).toNat
    · refine ⟨{.data (pos / 512).toNat, .index (mainIdx (pos / 512).toNat)}, fun _ => ?_,
        fun c hc => ?_⟩
      · exact ⟨Finset.mem_insert_self .., fun _ => Finset.mem_insert_of_mem (Finset.mem_singleton_self _)⟩
      · rcases Finset.mem_insert.mp hc with rfl | hc
        · exact hj
        · rw [Finset.mem_singleton.mp hc]
          exact index_valid hlt hj
    · refine ⟨{.data (pos / 512).toNat}, fun _ => ?_, fun c hc => ?_⟩
      · exact ⟨Finset.mem_singleton_self _, fun hgt => absurd hgt hlt⟩
      · rw [Finset.mem_singleton.mp hc]
        exact hj
  obtain ⟨d', hruns, hadv, -, hwalk⟩ := runs_inodePosToRealSector
    (freeMapCalls_allocates depth live) h.good h.isLive h.loaded hpos rfl hj hin hW
  obtain ⟨s', hrun, hshows⟩ := hruns s h.wf.shows
  refine ⟨s', d', hrun, hshows, hadv.good, hwalk, fun hne => ?_⟩
  rw [hadv.grows.kept t h.isLive (.data _) hj hne]
  exact hne

/-- A call that releases what it loaded. -/
theorem ReleasesIndex.spares {depth : Nat} {s : FileSys} (h : s.Ready live t)
    (hreleases : ReleasesIndex depth s t pos allocateNew) : SparesIndex s.flat t pos allocateNew := by
  obtain ⟨r, s', hrun, hcounts, -⟩ := hreleases
  by_cases hin : 0 ≤ pos ∧ (pos / 512).toNat ≤ 4170
  · obtain ⟨hpos, hj⟩ := hin
    obtain ⟨s'', d', hrun', hshows, -, hwalk, hkept⟩ := h.run depth hpos hj allocateNew
    rw [hrun'] at hrun
    obtain ⟨-, rfl⟩ := Prod.mk.inj (Except.ok.inj hrun)
    refine ⟨hpos, hj, by_contra fun hnot => ?_⟩
    have hmore := (hwalk.counts 0).2 ((hwalk.stranded_iff hj hkept).mpr hnot)
    rw [← hshows.accessCountOf, hcounts, h.wf.shows.accessCountOf] at hmore
    exact absurd hmore (Nat.ne_of_lt (Nat.lt_succ_self _))
  · obtain ⟨e, herror⟩ := inodePosToRealSector_fault (freeMapCalls (depth + 1)) t allocateNew hin
    rw [herror s] at hrun
    nomatch hrun

theorem SparesIndex.releases (depth : Nat) {s : FileSys} (h : s.Ready live t)
    (hspares : SparesIndex s.flat t pos allocateNew) : ReleasesIndex depth s t pos allocateNew := by
  obtain ⟨hpos, hj, hreach⟩ := hspares
  obtain ⟨s', d', hrun, hshows, hgood, hwalk, hkept⟩ := h.run depth hpos hj allocateNew
  have hnot : ¬ d'.Stranded t (pos / 512).toNat := fun hleft =>
    (hwalk.stranded_iff hj hkept).mp hleft hreach
  have hcounts : ∀ x, s'.accessCountOf x = s.accessCountOf x := fun x => by
    rw [hshows.accessCountOf, (hwalk.counts x).1 hnot, h.wf.shows.accessCountOf]
  refine ⟨_, s', hrun, hcounts, fun hlt hne hzero => ?_⟩
  have hindex : slotOf d'.cur t (.index (mainIdx (pos / 512).toNat)) ≠ sectorError :=
    fun hnone => hne (slotOf_no_index hlt hnone)
  have hvalid := index_valid hlt hj
  have hsame : slotOf s'.cur t (.index (mainIdx (pos / 512).toNat)) =
      slotOf d'.cur t (.index (mainIdx (pos / 512).toNat)) := by
    rw [slotOf_index, slotOf_index, hshows.cur t (hgood.range t (hgood.layout.inode t h.isLive))]
  rw [hsame] at hzero ⊢
  rw [slotOf_indirect hlt hindex, hshows.view_of_unloaded
    (hgood.range _ (hgood.layout.slot t h.isLive _ hvalid hindex)) fun i hi => ?_]
  rw [← FlatFs.accessCountOf_of_some hi, ← hshows.accessCountOf, hcounts, hzero]

/-- The index blocks are released exactly where the sector is in reach. -/
theorem inodePosToRealSector_releases_iff (depth : Nat) {s : FileSys} (h : s.Ready live t) (pos : Int)
    (allocateNew : Bool) :
    ReleasesIndex depth s t pos allocateNew ↔ SparesIndex s.flat t pos allocateNew :=
  ⟨ReleasesIndex.spares h, SparesIndex.releases depth h⟩

theorem elevenSectors_ready {spare : Nat} {hspare : spare ≤ 18} :
    (elevenSectors spare hspare).Ready {0, 2} 2 :=
  ⟨elevenSectors_wf, elevenSectors_good, .inr rfl, _, rfl, Nat.one_ne_zero⟩

/-- The sector after the direct range, when four sectors are left: one becomes an index block, and
another one is for the data. -/
theorem inodePosToRealSector_releases_fourSpare : ReleasesIndex 0 fourSpare 2 5632 true := by
  have hready : fourSpare.Ready {0, 2} 2 := elevenSectors_ready
  refine (inodePosToRealSector_releases_iff 0 hready 5632 true).mpr
    ⟨by decide, by decide, fun _ _ => ?_⟩
  have hindex : slotOf fourSpare.flat.cur 2 (.index (mainIdx 11)) = sectorError :=
    elevenSectors_extents.slotOf_index (.inr rfl) (index_valid (by decide) (by decide))
  have hsector : ((5632 : Int) / 512).toNat = 11 := rfl
  rw [hsector, if_pos hindex]
  exact fun _ _ => ⟨15, by decide, by decide⟩

/-- When one sector is left, it becomes an index block, and there is none for the data. -/
theorem inodePosToRealSector_keeps_nearlyFull : nearlyFull.Ready {0, 2} 2 ∧
    ¬ ReleasesIndex 0 nearlyFull 2 5632 true := by
  have hready : nearlyFull.Ready {0, 2} 2 := elevenSectors_ready
  refine ⟨hready, fun hreleases => ?_⟩
  have hreach := (hreleases.spares hready).inReach (by decide)
  have hdata : slotOf nearlyFull.flat.cur 2 (.data 11) = sectorError :=
    elevenSectors_extents.slotOf_data (.inr rfl) (by decide)
  have hindex : slotOf nearlyFull.flat.cur 2 (.index (mainIdx 11)) = sectorError :=
    elevenSectors_extents.slotOf_index (.inr rfl) (index_valid (by decide) (by decide))
  have hsector : ((5632 : Int) / 512).toNat = 11 := rfl
  have hmore := hreach (by rw [hsector, hdata])
  rw [hsector, if_pos hindex] at hmore
  obtain ⟨sector, hscan, -⟩ := hmore rfl ⟨14, by decide, by decide⟩
  have hfull : nearlyFull.flat.freeMap.afterAllocate.scan 0 1 false = none := by decide
  rw [hfull] at hscan
  cases hscan

end Pintos
