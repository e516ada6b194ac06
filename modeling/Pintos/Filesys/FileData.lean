import Pintos.Filesys.Lookup

/-! The data of an inode, byte by byte, and what `inode_read_at` and `inode_write_at` do below its
length: no sector is allocated there, so `free_map_allocate` is not called and only data sectors
of the inode change. -/

namespace Pintos

open Routine (Runs)
open InodeDisk (entry)

namespace FlatFs

/-- The length of inode `t`. -/
def lengthOf (d : FlatFs) (t : Nat) : Int := InodeDisk.length (d.cur t)

end FlatFs

/-- The data sectors of inode `t` may have changed, and its index blocks may have been opened and
loaded. -/
structure InPlace (t : Nat) (d d' : FlatFs) : Prop where
  size : d'.size = d.size
  cur : ∀ x, ¬ d.IsDataOf t x → d'.cur x = d.cur x
  freeMap : d'.freeMap = d.freeMap
  file : d'.freeMapFile = d.freeMapFile
  inodes : ∀ x, ¬ d.IsIndexOf t x → d'.inodes x = d.inodes x
  loaded : ∀ x, d.Loaded x → d'.Loaded x

variable {calls : FreeMapCalls} {live : Set Nat} {d d' d'' : FlatFs} {t u o i j k x : Nat} {a : Slot}

namespace FlatFs.Good

/-- No sector of the index of a live inode holds data of an inode. -/
theorem not_isDataOf (hd : d.Good live) (ht : t ∈ live)
    (hx : x ∈ live ∨ ∃ u ∈ live, ∃ k, (Slot.index k).Valid ∧ x = slotOf d.cur u (.index k)) :
    ¬ d.IsDataOf t x := by
  rintro ⟨j, hj, rfl, hne⟩
  rcases hx with hx | ⟨u, hu, k, hk, heq⟩
  · exact hd.layout.apart _ hx t ht (.data j) hj hne rfl
  · nomatch (hd.layout.inj t ht u hu (.data j) (.index k) hj hk heq hne).2

/-- No data sector of a live inode is an index block. -/
theorem data_not_isIndexOf (hd : d.Good live) (ht : t ∈ live) (hu : u ∈ live) (hj : j ≤ 4170)
    (hne : slotOf d.cur u (.data j) ≠ sectorError) : ¬ d.IsIndexOf t (slotOf d.cur u (.data j)) := by
  rintro ⟨k, hk, heq, -⟩
  nomatch (hd.layout.inj u hu t ht (.data j) (.index k) hj hk heq hne).2

/-- No live inode is an index block. -/
theorem live_not_isIndexOf (hd : d.Good live) (ht : t ∈ live) (hu : u ∈ live) :
    ¬ d.IsIndexOf t u := by
  rintro ⟨k, hk, rfl, hne⟩
  exact hd.layout.apart _ hu t ht _ hk hne rfl

end FlatFs.Good

namespace InPlace

theorem refl : InPlace t d d :=
  ⟨rfl, fun _ _ => rfl, rfl, rfl, fun _ _ => rfl, fun _ h => h⟩

theorem ofQuiet (h : Quiet t d d') : InPlace t d d' :=
  ⟨h.size, fun _ _ => by rw [h.cur], h.freeMap, h.file, h.inodes, h.loaded⟩

/-- The index does not change. -/
theorem slotOf_eq (h : InPlace t d d') (hd : d.Good live) (ht : t ∈ live) (hu : u ∈ live)
    (ha : a.Valid) : slotOf d'.cur u a = slotOf d.cur u a := by
  refine slotOf_congr ha (fun k => ?_) fun k hk _ i => ?_
  · rw [h.cur u (hd.not_isDataOf ht (.inl hu))]
  · rw [h.cur _ (hd.not_isDataOf ht (.inr ⟨u, hu, k, hk, rfl⟩))]

theorem cur_live (h : InPlace t d d') (hd : d.Good live) (ht : t ∈ live) (hu : u ∈ live) :
    d'.cur u = d.cur u :=
  h.cur u (hd.not_isDataOf ht (.inl hu))

theorem isDataOf (h : InPlace t d d') (hd : d.Good live) (ht : t ∈ live) :
    d'.IsDataOf t x ↔ d.IsDataOf t x := by
  have hslot := fun {j} (hj : j ≤ 4170) => h.slotOf_eq (a := .data j) hd ht ht hj
  constructor
  · rintro ⟨j, hj, rfl, hne⟩
    exact ⟨j, hj, hslot hj, hne⟩
  · rintro ⟨j, hj, rfl, hne⟩
    exact ⟨j, hj, (hslot hj).symm, hne⟩

theorem isIndexOf (h : InPlace t d d') (hd : d.Good live) (ht : t ∈ live) :
    d'.IsIndexOf t x ↔ d.IsIndexOf t x := by
  have hslot := fun {k} (hk : (Slot.index k).Valid) => h.slotOf_eq (a := .index k) hd ht ht hk
  constructor
  · rintro ⟨k, hk, rfl, hne⟩
    exact ⟨k, hk, hslot hk, hne⟩
  · rintro ⟨k, hk, rfl, hne⟩
    exact ⟨k, hk, (hslot hk).symm, hne⟩

theorem good (h : InPlace t d d') (hd : d.Good live) (ht : t ∈ live) : d'.Good live := by
  have hslot : ∀ {u a}, u ∈ live → a.Valid → slotOf d'.cur u a = slotOf d.cur u a :=
    fun hu ha => h.slotOf_eq hd ht hu ha
  have hlayout := hd.layout
  refine ⟨⟨?_, ?_, ?_, ?_, ?_⟩, ?_, ?_, ?_, ?_, ?_, ?_, ?_, ?_⟩
  · rw [h.freeMap]
    exact hlayout.inode
  · intro u hu a ha hne
    rw [hslot hu ha] at hne ⊢
    rw [h.freeMap]
    exact hlayout.slot u hu a ha hne
  · intro u hu v hv a c ha hc heq hne
    rw [hslot hu ha] at heq hne
    rw [hslot hv hc] at heq
    exact hlayout.inj u hu v hv a c ha hc heq hne
  · intro u hu v hv a ha hne
    rw [hslot hv ha] at hne ⊢
    exact hlayout.apart u hu v hv a ha hne
  · intro u hu k hk hne
    rw [hslot hu hk] at hne ⊢
    rw [h.cur _ (hd.not_isDataOf ht (.inr ⟨u, hu, k, hk, rfl⟩))]
    exact hlayout.flag u hu k hk hne
  · rw [h.freeMap, h.size]
    exact hd.bitCnt
  · rw [h.freeMap, h.size]
    exact hd.range
  · rw [h.size]
    exact hd.small
  · intro x hx
    rw [h.freeMap]
    by_cases hindex : d.IsIndexOf t x
    · obtain ⟨k, hk, rfl, hne⟩ := hindex
      exact hlayout.slot t ht _ hk hne
    · rw [h.inodes x hindex] at hx
      exact hd.openUsed x hx
  · intro u hu j hj hne
    rw [hslot (a := .data j) hu hj] at hne ⊢
    rw [h.inodes _ (hd.data_not_isIndexOf ht hu hj hne)]
    exact hd.closed u hu j hj hne
  · intro u hu
    rw [h.cur_live hd ht hu]
    obtain ⟨h0, hfilled⟩ := hd.filled u hu
    refine ⟨h0, fun j hj => ?_⟩
    obtain ⟨hj', hne⟩ := hfilled j hj
    rw [hslot (a := .data j) hu hj']
    exact ⟨hj', hne⟩
  · intro u hu
    have hvalid : (Slot.data 0).Valid := Nat.zero_le _
    rw [hslot hu hvalid]
    exact hd.first u hu
  · intro f hf
    rw [h.file] at hf
    obtain ⟨hlive, hsize, hopen⟩ := hd.file f hf
    rw [h.cur_live hd ht hlive, h.freeMap, h.inodes f (hd.live_not_isIndexOf ht hlive)]
    exact ⟨hlive, hsize, hopen⟩

theorem trans (h : InPlace t d d') (hd : d.Good live) (ht : t ∈ live) (h' : InPlace t d' d'') :
    InPlace t d d'' where
  size := h'.size.trans h.size
  cur x hx := (h'.cur x (by rwa [h.isDataOf hd ht])).trans (h.cur x hx)
  freeMap := h'.freeMap.trans h.freeMap
  file := h'.file.trans h.file
  inodes x hx := (h'.inodes x (by rwa [h.isIndexOf hd ht])).trans (h.inodes x hx)
  loaded x hx := h'.loaded x (h.loaded x hx)

end InPlace

/-! ### Lookups that do not allocate -/

/-- A `free_map_allocate` that fails. -/
def FreeMapCalls.failing : FreeMapCalls where
  allocate := pure none
  release _ _ := pure ()

theorem FreeMapCalls.failing_allocates (live : Set Nat) :
    FreeMapCalls.failing.Allocates live fun _ _ => True :=
  fun d _ => ⟨none, d, Runs.pure, .none, trivial⟩

/-- A lookup that does not allocate calls no function of the free map. -/
theorem inodePosToRealSector_false (calls calls' : FreeMapCalls) (inode : Nat) (pos : Int) :
    inodePosToRealSector calls inode pos false = inodePosToRealSector calls' inode pos false := by
  simp only [inodePosToRealSector, checkAllocateAndGetSector, Bool.false_eq_true, false_and,
    if_false]

theorem runs_lookup (hd : d.Good live) (ht : t ∈ live) (hloaded : d.Loaded t) {pos : Int}
    (hpos : 0 ≤ pos) (hj : (pos / 512).toNat = j) (hj' : j ≤ 4170) :
    ∃ d', Runs Shows (inodePosToRealSector calls t pos false) d (slotOf d.cur t (.data j)) d' ∧
      Quiet t d d' ∧ (slotOf d.cur t (.data j) ≠ sectorError →
        ∀ x, d'.accessCountOf x = d.accessCountOf x) := by
  obtain ⟨d', hrun, -, hquiet, hwalk⟩ := runs_inodePosToRealSector (W := ∅)
    (FreeMapCalls.failing_allocates live) hd ht hloaded hpos hj hj'
    (fun hnew : false = true => nomatch hnew) nofun
  have hq := hquiet rfl
  rw [hq.cur] at hrun
  refine ⟨d', inodePosToRealSector_false calls .failing t pos ▸ hrun, hq, fun hne x => ?_⟩
  refine (hwalk.counts x).1 fun hstranded => hne ?_
  rw [← hq.cur]
  exact hstranded.2.2

/-- `byte_to_sector` below the length of the inode. -/
theorem runs_byteToSector (calls : FreeMapCalls) (hd : d.Good live) (ht : t ∈ live) (hloaded : d.Loaded t) {p : Nat}
    (hp : (p : Int) < d.lengthOf t) :
    ∃ d', Runs Shows (byteToSector calls t p) d (slotOf d.cur t (.data (p / 512))) d' ∧
      slotOf d.cur t (.data (p / 512)) ≠ sectorError ∧ p / 512 ≤ 4170 ∧ Quiet t d d' ∧
      ∀ x, d'.accessCountOf x = d.accessCountOf x := by
  obtain ⟨inode, hi, haccess⟩ := id hloaded
  have hlt := hd.range t (hd.layout.inode t ht)
  obtain ⟨hj', hne⟩ := (hd.filled t ht).2 (p / 512) (by
    change (p : Int) < InodeDisk.length (d.cur t) at hp
    omega)
  have hindex : ((p : Int) / 512).toNat = p / 512 := by omega
  obtain ⟨d', hrun, hquiet, hcounts⟩ := runs_lookup hd ht hloaded
    (Int.natCast_nonneg p) hindex hj'
  refine ⟨d', ?_, hne, hj', hquiet, hcounts hne⟩
  refine (runs_getData hi haccess hlt).bind ?_
  rw [if_pos (show (p : Int) < InodeDisk.length (d.cur t) from hp)]
  exact hrun

/-- `byte_to_sector` from the length of the inode on. -/
theorem runs_byteToSector_end (calls : FreeMapCalls) (hd : d.Good live) (ht : t ∈ live) (hloaded : d.Loaded t) {pos : Int}
    (hpos : d.lengthOf t ≤ pos) : Runs Shows (byteToSector calls t pos) d sectorError d := by
  obtain ⟨inode, hi, haccess⟩ := hloaded
  refine (runs_getData hi haccess (hd.range t (hd.layout.inode t ht))).bind ?_
  rw [if_neg (show ¬ pos < InodeDisk.length (d.cur t) from not_lt.mpr hpos)]
  exact Runs.pure

/-! ### Writing below the length -/

/-- The part of `len` bytes at offset `o` that one pass of a loop takes, in an inode of the given
length. -/
def chunkLen (length : Int) (len o : Nat) : Nat := min len (min (length - o).toNat (512 - o % 512))

theorem chunkLen_pos {length : Int} {len o : Nat} (hlen : 0 < len) (ho : (o : Int) < length) :
    0 < chunkLen length len o := by
  unfold chunkLen
  omega

/-- The state in which `bytes` are at offset `p` of inode `t`, all in one sector. -/
def FlatFs.putBytes (d : FlatFs) (t p : Nat) (bytes : List UInt8) : FlatFs :=
  d.setCur (slotOf d.cur t (.data (p / 512)))
    ((d.cur (slotOf d.cur t (.data (p / 512)))).copyIn (p % 512) bytes)

section PutBytes

variable {p q : Nat} {bytes : List UInt8}

theorem InPlace.putBytes (hp : p / 512 ≤ 4170)
    (hne : slotOf d.cur t (.data (p / 512)) ≠ sectorError) (bytes : List UInt8) :
    InPlace t d (d.putBytes t p bytes) := by
  refine { InPlace.refl (t := t) (d := d) with cur := fun x hx => ?_ }
  rw [FlatFs.putBytes, FlatFs.setCur_cur, Function.update_of_ne]
  rintro rfl
  exact hx ⟨p / 512, hp, rfl, hne⟩

end PutBytes

/-- The sector at an offset is on the device and is not open. -/
theorem FlatFs.Good.data_closed (hd : d.Good live) (ht : t ∈ live) (hj : j ≤ 4170)
    (hne : slotOf d.cur t (.data j) ≠ sectorError) :
    slotOf d.cur t (.data j) < d.size ∧ d.Unloaded (slotOf d.cur t (.data j)) := by
  refine ⟨hd.range _ (hd.layout.slot t ht (.data j) hj hne), fun inode hi => ?_⟩
  rw [hd.closed t ht j hj hne] at hi
  nomatch hi

theorem chunkLen_le (length : Int) (len p : Nat) :
    chunkLen length len p ≤ len ∧ p % 512 + chunkLen length len p ≤ 512 := by
  unfold chunkLen
  omega

theorem chunkLen_eq {length : Int} {p : Nat} (len : Nat) (hp : (p : Int) < length) :
    min (len : Int) (min (length - p) (blockSectorSize - (p : Int) % blockSectorSize)) =
      (chunkLen length len p : Nat) := by
  unfold chunkLen blockSectorSize
  omega

theorem sectorOfs_eq (p : Nat) : ((p : Int) % blockSectorSize).toNat = p % 512 := by
  unfold blockSectorSize
  omega

/-- The sector of a byte below the length. -/
theorem FlatFs.Good.sector_of_lt (hd : d.Good live) (ht : t ∈ live) {p : Nat}
    (hp : (p : Int) < d.lengthOf t) :
    p / 512 ≤ 4170 ∧ slotOf d.cur t (.data (p / 512)) ≠ sectorError := by
  apply (hd.filled t ht).2 (p / 512)
  change (p : Int) < InodeDisk.length (d.cur t) at hp
  omega

/-- One pass of `inode_write_at` writes part of the buffer. -/
theorem runs_inodeWriteChunk (hd : d.Good live) (ht : t ∈ live) {inode : Inode}
    (hi : d.inodes t = some inode) (haccess : inode.accessCount ≠ 0) {buffer : List UInt8}
    (hbuffer : 0 < buffer.length) {p : Nat} (hp : (p : Int) < d.lengthOf t) (isGrowing : Bool) :
    Runs Shows (inodeWriteChunk t buffer p (slotOf d.cur t (.data (p / 512))) isGrowing) d
      (chunkLen (d.lengthOf t) buffer.length p)
      (let d1 := d.putBytes t p (buffer.take (chunkLen (d.lengthOf t) buffer.length p))
       if isGrowing then d1.setInode t { inode with logicalLength := d.lengthOf t } else d1) := by
  obtain ⟨hj', hne⟩ := hd.sector_of_lt ht hp
  obtain ⟨hlt, hunloaded⟩ := hd.data_closed ht hj' hne
  have hpos := chunkLen_pos hbuffer hp
  obtain ⟨hlen, hin⟩ := chunkLen_le (d.lengthOf t) buffer.length p
  have hchunk := chunkLen_eq buffer.length hp
  generalize chunkLen (d.lengthOf t) buffer.length p = n at hpos hlen hin hchunk ⊢
  have htake : (buffer.take n).length = n := by rw [List.length_take, Nat.min_eq_left hlen]
  have hwrite := runs_write hlt hunloaded (show p % 512 + (buffer.take n).length ≤ 512 by rwa [htake])
  refine (runs_getData hi haccess (hd.range t (hd.layout.inode t ht))).bind ?_
  dsimp only
  rw [show InodeDisk.length (d.cur t) = d.lengthOf t from rfl, hchunk, sectorOfs_eq,
    Int.toNat_natCast, if_pos (by omega)]
  refine hwrite.bind ?_
  cases isGrowing with
  | false => exact Runs.pure
  | true =>
    have hset := runs_updateInode (d := d.putBytes t p (buffer.take n))
      (f := fun i => { i with logicalLength := d.lengthOf t }) hi (fun _ => rfl) (fun _ => rfl)
      fun _ => rfl
    have hrest := hset.bind (f := fun _ => pure n) Runs.pure
    rwa [bind_assoc] at hrest

/-- A write that ends before the length of the inode. -/
theorem runs_inodeWriteLoop (calls : FreeMapCalls) (hd : d.Good live) (ht : t ∈ live) {inode : Inode}
    (hi : d.inodes t = some inode) (haccess : inode.accessCount ≠ 0)
    (hdeny : inode.denyWriteCnt = 0) {fuel : Nat} {buffer : List UInt8}
    (hfuel : buffer.length ≤ fuel) {p : Nat} (hfit : (p : Int) + buffer.length ≤ d.lengthOf t) :
    ∃ d', Runs Shows (inodeWriteLoop calls t fuel buffer p) d buffer.length d' ∧ InPlace t d d' ∧
      ∀ x, d'.accessCountOf x = d.accessCountOf x := by
  induction fuel generalizing d buffer p with
  | zero =>
    obtain rfl := List.length_eq_zero_iff.mp (Nat.le_zero.mp hfuel)
    exact ⟨d, Runs.pure, InPlace.refl, fun _ => rfl⟩
  | succ fuel ih =>
    by_cases hbuffer : buffer.length = 0
    · refine ⟨d, runs_getInode_bind hi fun i _ => ?_, InPlace.refl, fun _ => rfl⟩
      rw [if_neg (by omega), hbuffer]
      exact Runs.pure
    · have hp : (p : Int) < d.lengthOf t := by omega
      obtain ⟨d1, hsector, hne, hj, hquiet, hcounts1⟩ := runs_byteToSector calls hd ht
        ⟨inode, hi, haccess⟩ hp
      have hplace1 := InPlace.ofQuiet hquiet
      have hd1 := hplace1.good hd ht
      have hi1 : d1.inodes t = some inode := by
        rw [hplace1.inodes t (hd.live_not_isIndexOf ht ht), hi]
      have hlength1 : d1.lengthOf t = d.lengthOf t := by
        rw [FlatFs.lengthOf, hquiet.cur]
        rfl
      have hpos := Nat.pos_of_ne_zero hbuffer
      have hchunk := runs_inodeWriteChunk hd1 ht hi1 haccess hpos (p := p) (by rwa [hlength1]) false
      rw [hlength1, hquiet.cur] at hchunk
      obtain ⟨hle, -⟩ := chunkLen_le (d.lengthOf t) buffer.length p
      have hn := chunkLen_pos hpos hp
      generalize chunkLen (d.lengthOf t) buffer.length p = n at hchunk hle hn
      have hplace2 : InPlace t d1 (d1.putBytes t p (buffer.take n)) :=
        InPlace.putBytes hj (by rwa [hquiet.cur]) _
      have hplace := hplace1.trans hd ht hplace2
      have hlength2 : (d1.putBytes t p (buffer.take n)).lengthOf t = d.lengthOf t := by
        rw [FlatFs.lengthOf, hplace.cur_live hd ht ht]
        rfl
      have hfuel' : (buffer.drop n).length ≤ fuel := by
        rw [List.length_drop]
        omega
      have hfit' : ((p + n : Nat) : Int) + (buffer.drop n).length ≤
          (d1.putBytes t p (buffer.take n)).lengthOf t := by
        rw [hlength2, List.length_drop]
        omega
      obtain ⟨d3, hrest, hplace3, hcounts3⟩ := ih (hplace2.good hd1 ht) hi1 hfuel' hfit'
      refine ⟨d3, ?_, hplace.trans hd ht hplace3, fun x => (hcounts3 x).trans (hcounts1 x)⟩
      refine runs_getInode_bind hi fun i hhandle => ?_
      have hdeny' : i.denyWriteCnt = 0 := by
        rw [← hdeny, ← hhandle]
        rfl
      rw [if_pos ⟨hpos, hdeny'⟩]
      have hfound : Runs Shows (inodeWriteSector calls t buffer.length p) d
          (some (slotOf d.cur t (.data (p / 512)), false)) d1 := by
        refine hsector.bind ?_
        rw [if_neg hne]
        exact Runs.pure
      refine hfound.bind (hchunk.bind ?_)
      rw [if_neg (Nat.ne_of_gt hn)]
      push_cast at hrest
      refine hrest.bind ?_
      rw [List.length_drop, Nat.add_sub_cancel' hle]
      exact Runs.pure

end Pintos
