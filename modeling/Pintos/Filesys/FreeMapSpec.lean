import Pintos.Filesys.FileData

/-! What `free_map_allocate` does: it takes the first unused sector of the map, and writes the map to
its file, whose sectors are all allocated, so that no other sector is taken on the way. -/

namespace Pintos

open Routine (Runs)

variable {calls : FreeMapCalls} {live : Set Nat} {d d' : FlatFs} {t x : Nat}

/-! ### A write that does not extend the inode -/

/-- A live inode whose `struct inode` changes in fields other than `deny_write_cnt`. -/
theorem FlatFs.Good.setInode_live (hd : d.Good live) (ht : t ∈ live) {inode inode' : Inode}
    (hi : d.inodes t = some inode) (hdeny : inode'.denyWriteCnt = inode.denyWriteCnt) :
    (d.setInode t inode').Good live where
  layout := hd.layout
  bitCnt := hd.bitCnt
  range := hd.range
  small := hd.small
  openUsed x hx := by
    by_cases hxt : x = t
    · rw [hxt]
      exact hd.layout.inode t ht
    · rw [setInode_inodes, Function.update_of_ne hxt] at hx
      exact hd.openUsed x hx
  closed u hu j hj hne := by
    rw [setInode_inodes, Function.update_of_ne]
    · exact hd.closed u hu j hj hne
    · exact hd.layout.apart t ht u hu _ hj hne
  filled := hd.filled
  first := hd.first
  file f hf := by
    obtain ⟨hlive, hsize, inode0, hopen, hzero⟩ := hd.file f hf
    refine ⟨hlive, hsize, ?_⟩
    by_cases hft : f = t
    · subst hft
      obtain rfl := Option.some.inj (hi.symm.trans hopen)
      exact ⟨inode', Function.update_self .., hdeny.trans hzero⟩
    · exact ⟨inode0, (Function.update_of_ne hft ..).trans hopen, hzero⟩

/-- The data of inode `t` may have changed, and its `struct inode` and index blocks may have been
loaded and released. -/
structure Overwrites (live : Set Nat) (t : Nat) (d d' : FlatFs) : Prop where
  good : d'.Good live
  size : d'.size = d.size
  cur : ∀ x, ¬ d.IsDataOf t x → d'.cur x = d.cur x
  freeMap : d'.freeMap = d.freeMap
  file : d'.freeMapFile = d.freeMapFile
  inodes : ∀ x, x ≠ t → ¬ d.IsIndexOf t x → d'.inodes x = d.inodes x
  counts : ∀ x, d'.accessCountOf x = d.accessCountOf x

theorem FlatFs.accessCountOf_of_some {inode : Inode} (hi : d.inodes x = some inode) :
    d.accessCountOf x = inode.accessCount := by
  rw [accessCountOf, hi]
  rfl

theorem FlatFs.loaded_iff : d.Loaded x ↔ d.accessCountOf x ≠ 0 := by
  constructor
  · rintro ⟨inode, hi, haccess⟩
    rwa [accessCountOf_of_some hi]
  · intro hne
    cases hi : d.inodes x with
    | none =>
      rw [accessCountOf, hi] at hne
      exact absurd rfl hne
    | some inode => exact ⟨inode, hi, by rwa [accessCountOf_of_some hi] at hne⟩

theorem runs_inodeWriteAt_inPlace (calls : FreeMapCalls) (hd : d.Good live) (ht : t ∈ live)
    {inode : Inode} (hi : d.inodes t = some inode) (hdeny : inode.denyWriteCnt = 0)
    {buffer : List UInt8} {p : Nat} (hfit : (p : Int) + buffer.length ≤ d.lengthOf t) :
    ∃ d', Runs Shows (inodeWriteAt calls t buffer p) d buffer.length d' ∧
      Overwrites live t d d' := by
  have hlt := hd.range t (hd.layout.inode t ht)
  have hload := runs_inodeLoadDisk hi hlt
  have hgood1 := hd.setInode_live ht hi (rfl : (inode.load (d.cur t)).denyWriteCnt = _)
  obtain ⟨d2, hloop, hplace, hcounts⟩ := runs_inodeWriteLoop calls hgood1 ht
    (Function.update_self ..) (Nat.succ_ne_zero _) hdeny le_rfl hfit
  have hgood2 := hplace.good hgood1 ht
  have hi2 : d2.inodes t = some (inode.load (d.cur t)) := by
    rw [hplace.inodes t (hgood1.live_not_isIndexOf ht ht)]
    exact Function.update_self ..
  have hrelease := runs_inodeReleaseDisk hi2 (Nat.succ_ne_zero _) (by rw [hplace.size]; exact hlt)
  refine ⟨_, hload.bind (hloop.bind (hrelease.bind Runs.pure)), ?_, hplace.size, hplace.cur,
    hplace.freeMap, hplace.file, fun x hxt hx => ?_, fun x => ?_⟩
  · exact hgood2.setInode_live ht hi2 rfl
  · rw [FlatFs.setInode_inodes, Function.update_of_ne hxt, hplace.inodes x hx,
      FlatFs.setInode_inodes, Function.update_of_ne hxt]
  · rw [FlatFs.accessCountOf_setInode]
    by_cases hxt : x = t
    · rw [if_pos hxt, hxt, FlatFs.accessCountOf_of_some hi]
      rfl
    · rw [if_neg hxt, hcounts, FlatFs.accessCountOf_setInode, if_neg hxt]

/-! ### The map -/

namespace Bitmap

theorem length_toBytes (b : Bitmap) : b.toBytes.length = b.fileSize := by
  rw [toBytes, List.length_map, List.length_range]

end Bitmap

/-- The state in which sector `b` is marked as used. -/
def FlatFs.take (d : FlatFs) (b : Nat) : FlatFs :=
  { d with freeMap := d.freeMap.setMultiple b 1 true }

theorem FlatFs.take_bits (d : FlatFs) (b x : Nat) :
    (d.take b).freeMap.bits x = true ↔ d.freeMap.bits x = true ∨ x = b := by
  rw [take, Bitmap.setMultiple]
  dsimp only
  split_ifs with hx
  · exact iff_of_true rfl (.inr (by omega))
  · exact (or_iff_left (by omega)).symm

theorem FlatFs.Good.take (hd : d.Good live) {b : Nat} (hb : b < d.size) :
    (d.take b).Good live where
  layout := by
    have hmore := fun x (hx : d.freeMap.bits x = true) => (d.take_bits b x).mpr (.inl hx)
    exact ⟨fun t ht => hmore t (hd.layout.inode t ht),
      fun t ht a ha hne => hmore _ (hd.layout.slot t ht a ha hne), hd.layout.inj, hd.layout.apart,
      hd.layout.flag⟩
  bitCnt := hd.bitCnt
  range x hx := by
    rcases (d.take_bits b x).mp hx with hx | rfl
    · exact hd.range x hx
    · exact hb
  small := hd.small
  openUsed x hx := (d.take_bits b x).mpr (.inl (hd.openUsed x hx))
  closed := hd.closed
  filled := hd.filled
  first := hd.first
  file := hd.file

/-- The sector `b` is taken in memory. -/
theorem allocated_take (hd : d.Good live) {b : Nat} (hb : b < d.size)
    (hunused : d.freeMap.bits b = false) : Allocated live d (d.take b) b where
  unused := hunused
  lt := hb
  good := hd.take hb
  size := rfl
  file := rfl
  bits := d.take_bits b
  cur _ _ := rfl
  inodes _ _ := rfl
  loaded _ hx := hx
  counts _ := rfl

/-- The map is then written to its file. -/
theorem Overwrites.allocated {b f : Nat} (hb : b < d.size)
    (hunused : d.freeMap.bits b = false) (hfile : d.freeMapFile = some f)
    (h : Overwrites live f (d.take b) d') : Allocated live d d' b where
  unused := hunused
  lt := hb
  good := h.good
  size := h.size
  file := h.file
  bits := by
    rw [h.freeMap]
    exact d.take_bits b
  cur x hx := h.cur x fun hdata => hx ⟨f, hfile, hdata⟩
  inodes x hx := h.inodes x (fun hxf => hx ⟨f, hfile, .inl hxf⟩)
    fun hindex => hx ⟨f, hfile, .inr hindex⟩
  loaded x hx := by
    rw [FlatFs.loaded_iff, h.counts]
    exact FlatFs.loaded_iff.mp hx
  counts := h.counts

/-- `bitmap_write` to the file of the free map. -/
theorem runs_bitmapWrite (calls : FreeMapCalls) (hd : d.Good live) (hfile : d.freeMapFile = some t) :
    ∃ d', Runs Shows (bitmapWrite calls t) d true d' ∧ Overwrites live t d d' := by
  obtain ⟨ht, hsize, inode, hi, hdeny⟩ := hd.file t hfile
  have hfit : ((0 : Nat) : Int) + d.freeMap.toBytes.length ≤ d.lengthOf t := by
    rw [Bitmap.length_toBytes]
    change (0 : Int) + _ ≤ InodeDisk.length (d.cur t)
    omega
  obtain ⟨d', hwrite, hover⟩ := runs_inodeWriteAt_inPlace calls hd ht hi hdeny hfit
  refine ⟨d', Runs.of_get fun s hs => ?_, hover⟩
  rw [hs.freeMap]
  refine hwrite.bind ?_
  rw [decide_eq_true rfl]
  exact Runs.pure

/-- `free_map_allocate` takes the first unused sector. -/
theorem freeMapCalls_allocates (depth : Nat) (live : Set Nat) :
    (freeMapCalls (depth + 1)).Allocates live fun d r => r = d.freeMap.scan 0 1 false := by
  intro d hd
  cases hscan : d.freeMap.scan 0 1 false with
  | none =>
    refine ⟨none, d, Runs.of_get fun s hs => ?_, .none, hscan.symm⟩
    rw [hs.freeMap, Bitmap.scanAndFlip, hscan]
    exact Runs.pure
  | some b =>
    obtain ⟨hb, hunused⟩ := Bitmap.scan_one hscan
    rw [hd.bitCnt] at hb
    have hflip : Runs Shows (modify fun s => { s with freeMap := d.freeMap.setMultiple b 1 true } :
        FsRoutine Unit) d () (d.take b) :=
      Runs.of_modify fun _ hs =>
        ⟨hs.wf, hs.size, rfl, hs.freeMapFile, hs.inodes, hs.loaded, hs.cur⟩
    cases hfile : d.freeMapFile with
    | none =>
      refine ⟨some b, d.take b, Runs.of_get fun s hs => ?_,
        .some (allocated_take hd hb hunused), hscan.symm⟩
      rw [hs.freeMap, Bitmap.scanAndFlip, hscan]
      refine hflip.bind (Runs.of_get fun s' hs' => ?_)
      rw [hs'.freeMapFile, FlatFs.take, hfile]
      exact Runs.pure
    | some f =>
      obtain ⟨d', hwrite, hover⟩ := runs_bitmapWrite (freeMapCalls depth) (hd.take hb) hfile
      refine ⟨some b, d', Runs.of_get fun s hs => ?_,
        .some (hover.allocated hb hunused hfile), hscan.symm⟩
      rw [hs.freeMap, Bitmap.scanAndFlip, hscan]
      refine hflip.bind (Runs.of_get fun s' hs' => ?_)
      rw [hs'.freeMapFile, show (d.take b).freeMapFile = some f from hfile]
      exact hwrite.bind Runs.pure

end Pintos
