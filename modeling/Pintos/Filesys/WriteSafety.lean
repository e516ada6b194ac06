import Pintos.Filesys.GrowLoop

/-! Which writes `inode_write_at` and `inode_grow` get through.  A write below the length touches the
allocated sectors only; the rest depends on the end of the request, which has to be an `off_t`, and on
the last sector that it needs, for which there has to be an entry in the index unless the disk runs out
first. -/

namespace Pintos

open Routine (Runs Meets)

variable {calls : FreeMapCalls} {live : Set Nat} {d d' : FlatFs} {t j : Nat} {a : Slot}
  {W : Finset Slot}

/-- The inode is open and loaded, and writes to it are not denied. -/
def FlatFs.Writable (d : FlatFs) (t : Nat) : Prop :=
  ∃ inode, d.inodes t = some inode ∧ inode.accessCount ≠ 0 ∧ inode.denyWriteCnt = 0

theorem FlatFs.Writable.loaded (h : d.Writable t) : d.Loaded t := by
  obtain ⟨inode, hi, haccess, -⟩ := h
  exact ⟨inode, hi, haccess⟩

theorem Grows.writable (h : Grows live t W d d') (hd' : d'.Good live) (ht : t ∈ live)
    (hw : d.Writable t) : d'.Writable t := by
  by_cases hfile : d.freeMapFile = some t
  · obtain ⟨-, -, inode, hi, hdeny⟩ := hd'.file t (h.file.trans hfile)
    obtain ⟨inode', hi', haccess⟩ := h.loaded t ht hw.loaded
    obtain rfl := Option.some.inj (hi.symm.trans hi')
    exact ⟨inode, hi, haccess, hdeny⟩
  · rw [FlatFs.Writable, h.handles t ht hfile]
    exact hw

theorem Grows.lengthOf (h : Grows live t W d d') (ht : t ∈ live) : d'.lengthOf t = d.lengthOf t := by
  rw [FlatFs.lengthOf, FlatFs.lengthOf, InodeDisk.length, InodeDisk.length, h.header t ht 2 (by omega)]

/-! ### Growing -/

theorem inodeGrowLoop_append (calls : FreeMapCalls) (t : Nat) (js js' : List Nat) :
    inodeGrowLoop calls t (js ++ js') = (do
      if ← inodeGrowLoop calls t js then inodeGrowLoop calls t js' else pure false) := by
  induction js with
  | nil => rfl
  | cons j js ih =>
    rw [List.cons_append, inodeGrowLoop, inodeGrowLoop, bind_assoc]
    refine bind_congr fun sector => ?_
    by_cases hnone : sector = sectorError
    · rw [if_pos hnone, if_pos hnone]
      rfl
    · rw [if_neg hnone, if_neg hnone, ih]

/-- The sectors that an inode of the given length needs to reach `upTo` all have entries in the index,
or the disk runs out at one that has. -/
def FlatFs.Fits (d : FlatFs) (t length upTo : Nat) : Prop :=
  firstPlace length + (sectorCnt upTo - sectorCnt length) ≤ 4171 ∨
    d.freeMap.room < d.missing t (growSlots (List.range' (firstPlace length) (4171 - firstPlace length)))

/-- The sums of `inode_grow` for a request that ends at `upTo` are `off_t`s: its end, and what
`DIV_ROUND_UP` adds to the bytes that are missing. -/
def SumsFit (length upTo : Nat) : Prop :=
  upTo < 2 ^ 31 ∧ upTo - 512 * sectorCnt length + 511 < 2 ^ 31

/-- The length that `inode_grow` leaves. -/
def grownLength (length upTo : Nat) : Nat :=
  if 512 * sectorCnt length < upTo then length + (upTo - 512 * sectorCnt length) else upTo

theorem lt_sectorCnt {j n : Nat} (h : 512 * j < n) : j < sectorCnt n := by
  unfold sectorCnt
  omega

theorem grownLength_bounds {length upTo : Nat} (h : length ≤ upTo) :
    length ≤ grownLength length upTo ∧ grownLength length upTo ≤ upTo := by
  have hceil : length ≤ 512 * sectorCnt length := by
    unfold sectorCnt
    omega
  rw [grownLength]
  split_ifs <;> omega

/-- What `inode_grow` leaves. -/
structure Grown (live : Set Nat) (d : FlatFs) (t length upTo : Nat) (b : Bool) (d' : FlatFs) :
    Prop where
  good : d'.Good live
  writable : d'.Writable t
  sums : SumsFit length upTo
  fits : d.Fits t length upTo
  grown : b = true → firstPlace length + (sectorCnt upTo - sectorCnt length) ≤ 4171 ∧
    d'.lengthOf t = grownLength length upTo
  same : b = false → d'.lengthOf t = length

/-- The loop of `inode_grow`. -/
theorem meets_inodeGrowLoop (depth : Nat) (hd : d.Good live) (ht : t ∈ live) (hloaded : d.Loaded t)
    {length upTo : Nat} (hfirst : firstPlace length ≤ 4171) :
    Meets Shows (inodeGrowLoop (freeMapCalls (depth + 1)) t (growPlaces length upTo)) d
      (fun b d' => d'.Good live ∧ (∃ W, Grows live t W d d') ∧ d.Fits t length upTo ∧
        (b = true → firstPlace length + (sectorCnt upTo - sectorCnt length) ≤ 4171 ∧
          ∀ j ∈ growPlaces length upTo, slotOf d'.cur t (.data j) ≠ sectorError))
      (fun _ => ¬ d.Fits t length upTo) := by
  by_cases hindex : firstPlace length + (sectorCnt upTo - sectorCnt length) ≤ 4171
  · have hjs : ∀ j ∈ growPlaces length upTo, j ≤ 4170 := by
      intro j hj
      have := List.mem_range'_1.mp hj
      omega
    obtain ⟨d', hrun, hgood, hgrows, hall⟩ := runs_inodeGrowLoop depth hd ht hloaded hjs
    exact hrun.meets ⟨hgood, ⟨_, hgrows⟩, .inl hindex, fun hb =>
      ⟨hindex, hall (of_decide_eq_true hb)⟩⟩
  · have hsplit : growPlaces length upTo =
        List.range' (firstPlace length) (4171 - firstPlace length) ++
          4171 :: List.range' 4172 (firstPlace length + (sectorCnt upTo - sectorCnt length) - 4172) := by
      rw [growPlaces, show sectorCnt upTo - sectorCnt length = (4171 - firstPlace length) +
          ((firstPlace length + (sectorCnt upTo - sectorCnt length) - 4172) + 1) by omega,
        ← List.range'_append_1, List.range'_succ, show firstPlace length +
          (4171 - firstPlace length) = 4171 by omega]
      congr 4
      omega
    have hjs : ∀ j ∈ List.range' (firstPlace length) (4171 - firstPlace length), j ≤ 4170 := by
      intro j hj
      have := List.mem_range'_1.mp hj
      omega
    obtain ⟨d', hrun, hgood, hgrows, -⟩ := runs_inodeGrowLoop depth hd ht hloaded hjs
    rw [hsplit, inodeGrowLoop_append]
    refine hrun.bind_meets ?_
    by_cases hroom : d.missing t (growSlots (List.range' (firstPlace length)
        (4171 - firstPlace length))) ≤ d.freeMap.room
    · -- place 4171 is reached
      rw [decide_eq_true hroom, if_pos rfl]
      obtain ⟨e, herror⟩ : ∃ e, ∀ s, inodeGrowLoop (freeMapCalls (depth + 1)) t (4171 ::
          List.range' 4172 (firstPlace length + (sectorCnt upTo - sectorCnt length) - 4172)) s =
            .error e := by
        have hpos : ¬ (0 ≤ sectorsToBytes 4171 ∧ (sectorsToBytes 4171 / 512).toNat ≤ 4170) := by
          decide
        obtain ⟨e, herror⟩ := inodePosToRealSector_fault (freeMapCalls (depth + 1)) t true hpos
        refine ⟨e, fun s => ?_⟩
        rw [inodeGrowLoop]
        exact Routine.bind_of_error (herror s) _
      refine Meets.of_error herror fun hfits => ?_
      rcases hfits with hle | hlt
      · exact hindex hle
      · exact absurd hroom (Nat.not_le.mpr hlt)
    · rw [decide_eq_false hroom]
      exact Meets.pure ⟨hgood, ⟨_, hgrows⟩, .inr (Nat.not_le.mp hroom), (by simp)⟩

/-- A place below the end of the inode holds a sector. -/
theorem slotOf_of_lt_grown {length upTo j : Nat} (hd : d.Good live) (ht : t ∈ live)
    (hlength : d.lengthOf t = length) (hgrows : Grows live t W d d')
    (hindex : firstPlace length + (sectorCnt upTo - sectorCnt length) ≤ 4171)
    (hall : ∀ j ∈ growPlaces length upTo, slotOf d'.cur t (.data j) ≠ sectorError)
    (hj : j < sectorCnt upTo) : j ≤ 4170 ∧ slotOf d'.cur t (.data j) ≠ sectorError := by
  have hfirst : firstPlace length = max 1 (sectorCnt length) := rfl
  have hle : j ≤ 4170 := by omega
  refine ⟨hle, ?_⟩
  by_cases hplace : firstPlace length ≤ j
  · exact hall j (List.mem_range'_1.mpr (by omega))
  · have hthere : slotOf d.cur t (.data j) ≠ sectorError := by
      by_cases hzero : j = 0
      · rw [hzero]
        exact hd.first t ht
      · refine ((hd.filled t ht).2 j ?_).2
        rw [show InodeDisk.length (d.cur t) = length from hlength]
        unfold sectorCnt at *
        omega
    rw [hgrows.kept t ht (.data j) hle hthere]
    exact hthere

/-- `inode_grow`, which is called where the data end. -/
theorem meets_inodeGrow (depth : Nat) (hd : d.Good live) (ht : t ∈ live) (hw : d.Writable t)
    {length size p : Nat} (hlength : d.lengthOf t = length) (hsize : 0 < size) (hp : length ≤ p) :
    Meets Shows (inodeGrow (freeMapCalls (depth + 1)) t size p) d
      (fun b d' => Grown live d t length (p + size) b d')
      (fun _ => ¬ (SumsFit length (p + size) ∧ d.Fits t length (p + size))) := by
  have hcnt : sectorCnt length ≤ 4171 := by
    by_contra hlong
    have hlast := ((hd.filled t ht).2 4171 (by
      rw [show InodeDisk.length (d.cur t) = length from hlength]
      unfold sectorCnt at hlong
      omega)).1
    omega
  have hfirst : firstPlace length ≤ 4171 := by
    unfold firstPlace
    omega
  have hsmall : length < 2 ^ 31 := by
    unfold sectorCnt at hcnt
    omega
  rw [inodeGrow, if_neg (by omega)]
  beta_reduce
  by_cases hover : p + size < 2 ^ 31
  swap
  · rw [if_pos (by omega)]
    exact Meets.of_error (fun _ => rfl) fun h => hover h.1.1
  rw [if_neg (by omega)]
  obtain ⟨inode, hi, haccess, hdeny⟩ := id hw
  have hlt := hd.range t (hd.layout.inode t ht)
  refine (runs_getData hi haccess hlt).bind_meets ?_
  have hceil : roundUpToSectorBoundary (InodeDisk.length (d.cur t)) =
      (512 * sectorCnt length : Nat) := by
    rw [show InodeDisk.length (d.cur t) = length from hlength]
    exact roundUpToSectorBoundary_natCast (by omega)
  rw [hceil, show InodeDisk.length (d.cur t) = length from hlength]
  by_cases hmore : 512 * sectorCnt length < p + size
  · rw [if_pos (by omega)]
    have hplaces := growPlaces_eq (InodeDisk.start (d.cur t)) hsmall hover hmore
    rw [Int.natCast_add] at hplaces
    have hbytes : bytesToSectors ((p : Int) + size - (512 * sectorCnt length : Nat)) ≠ 0 := by
      rw [← Int.natCast_add, ← Int.ofNat_sub (Nat.le_of_lt hmore), bytesToSectors_natCast (by omega),
        sectorCnt]
      omega
    dsimp only
    have hsector : (blockSectorSize : Int) = 512 := rfl
    by_cases hround : p + size - 512 * sectorCnt length + 511 < 2 ^ 31
    swap
    · rw [if_pos (by omega)]
      exact Meets.of_error (fun _ => rfl) fun h => hround h.1.2
    have hsums : SumsFit length (p + size) := ⟨hover, hround⟩
    rw [if_neg (by omega), if_neg hbytes, hplaces]
    refine ((meets_inodeGrowLoop depth hd ht hw.loaded hfirst).mono_fault
      fun _ hnot h => hnot h.2).bind ?_
    rintro b d1 ⟨hgood, ⟨W, hgrows⟩, hfits, hall⟩
    have hw1 := hgrows.writable hgood ht hw
    have hlength1 := (hgrows.lengthOf ht).trans hlength
    cases b with
    | false => exact Meets.pure ⟨hgood, hw1, hsums, hfits, (by simp), fun _ => hlength1⟩
    | true =>
      obtain ⟨hindex, hfound⟩ := hall rfl
      obtain ⟨inode1, hi1, haccess1, -⟩ := id hw1
      rw [if_pos rfl]
      refine (runs_getData hi1 haccess1 (hgood.range t (hgood.layout.inode t ht))).bind_meets ?_
      have hnew : InodeDisk.length (d1.cur t) +
          ((p : Int) + size - (512 * sectorCnt length : Nat)) = (grownLength length (p + size) : Nat) := by
        rw [show InodeDisk.length (d1.cur t) = length from hlength1, grownLength, if_pos hmore]
        omega
      rw [hnew]
      have hset : Runs Shows (setData t (InodeDisk.setLength (d1.cur t)
          (grownLength length (p + size) : Nat))) d1 () (d1.setLength t (grownLength length (p + size))) :=
        runs_setData hi1 haccess1
      refine hset.bind_meets (Meets.pure ?_)
      obtain ⟨hle, hle'⟩ := grownLength_bounds (Nat.le_trans hp (Nat.le_add_right p size))
      refine ⟨?_, ⟨inode1, hi1, haccess1, ?_⟩, hsums, hfits, fun _ => ⟨hindex, ?_⟩, (by simp)⟩
      · refine hgood.setLength ht ?_ (Nat.lt_of_le_of_lt hle' hover) fun j hj => ?_
        · rw [hlength1]
          exact Int.ofNat_le.mpr hle
        refine slotOf_of_lt_grown hd ht hlength hgrows hindex hfound ?_
        exact lt_sectorCnt (Nat.lt_of_lt_of_le hj hle')
      · obtain ⟨inode2, hi2, -, hdeny2⟩ := hw1
        obtain rfl := Option.some.inj (hi1.symm.trans hi2)
        exact hdeny2
      · exact d1.lengthOf_setLength t (Nat.lt_of_le_of_lt hle' hover)
  · rw [if_neg (by omega)]
    have hset : Runs Shows (setData t (InodeDisk.setLength (d.cur t) ((p : Int) + size))) d ()
        (d.setLength t (p + size)) := runs_setData hi haccess
    refine hset.bind_meets (Meets.pure ?_)
    have hfits : firstPlace length + (sectorCnt (p + size) - sectorCnt length) ≤ 4171 := by
      unfold sectorCnt at *
      omega
    refine ⟨?_, ⟨inode, hi, haccess, hdeny⟩, ⟨hover, by omega⟩, .inl hfits, fun _ => ⟨hfits, ?_⟩, (by simp)⟩
    · refine hd.setLength ht (by omega) hover fun j hj => ?_
      have hnone : growPlaces length (p + size) = [] := by
        rw [growPlaces, show sectorCnt (p + size) - sectorCnt length = 0 by unfold sectorCnt at *; omega]
        rfl
      refine slotOf_of_lt_grown (W := ∅) hd ht hlength Grows.refl hfits (fun i hi => ?_) ?_
      · rw [hnone] at hi
        cases hi
      · exact lt_sectorCnt hj
    · rw [d.lengthOf_setLength t hover, grownLength, if_neg hmore]

/-! ### Writing -/

/-- A request that ends at `upTo` ends in the inode, or at an `off_t` to which the inode can grow or the
disk runs out. -/
def FlatFs.CanReach (d : FlatFs) (t length upTo : Nat) : Prop :=
  upTo ≤ length ∨ SumsFit length upTo ∧ d.Fits t length upTo

/-- What matters are the map and the slots. -/
theorem FlatFs.CanReach.congr {length upTo : Nat} (hmap : d'.freeMap = d.freeMap)
    (hslot : ∀ a : Slot, a.Valid → slotOf d'.cur t a = slotOf d.cur t a) :
    d'.CanReach t length upTo ↔ d.CanReach t length upTo := by
  have hvalid : ∀ a ∈ growSlots (List.range' (firstPlace length) (4171 - firstPlace length)),
      a.Valid := growSlots_valid fun j hj => by
    have := List.mem_range'_1.mp hj
    omega
  have hmissing : d'.missing t (growSlots (List.range' (firstPlace length)
      (4171 - firstPlace length))) = d.missing t (growSlots (List.range' (firstPlace length)
        (4171 - firstPlace length))) :=
    congrArg Finset.card (Finset.filter_congr fun a ha => by rw [hslot a (hvalid a ha)])
  rw [CanReach, CanReach, Fits, Fits, hmap, hmissing]

/-- A chunk is written below the length. -/
theorem runs_inodeWriteChunk_inside (hd : d.Good live) (ht : t ∈ live) (hw : d.Writable t)
    {buffer : List UInt8} (hbuffer : 0 < buffer.length) {p : Nat} (hp : (p : Int) < d.lengthOf t)
    (isGrowing : Bool) :
    ∃ n d', Runs Shows (inodeWriteChunk t buffer p (slotOf d.cur t (.data (p / 512))) isGrowing) d n
        d' ∧ 0 < n ∧ n ≤ buffer.length ∧ (p : Int) + n ≤ d.lengthOf t ∧ d'.Good live ∧ d'.Writable t ∧
      d'.lengthOf t = d.lengthOf t ∧ ∀ length upTo, d'.CanReach t length upTo ↔
        d.CanReach t length upTo := by
  obtain ⟨inode, hi, haccess, hdeny⟩ := hw
  obtain ⟨hj, hne⟩ := hd.sector_of_lt ht hp
  have hrun := runs_inodeWriteChunk hd ht hi haccess hbuffer hp isGrowing
  have hpos := chunkLen_pos hbuffer hp
  have hend : (p : Int) + chunkLen (d.lengthOf t) buffer.length p ≤ d.lengthOf t := by
    unfold chunkLen
    omega
  have hle := (chunkLen_le (d.lengthOf t) buffer.length p).1
  generalize chunkLen (d.lengthOf t) buffer.length p = n at hrun hpos hend hle
  have hplace := InPlace.putBytes hj hne (buffer.take n)
  have hgood := hplace.good hd ht
  have hsame : (d.putBytes t p (buffer.take n)).lengthOf t = d.lengthOf t := by
    rw [FlatFs.lengthOf, hplace.cur_live hd ht ht]
    rfl
  have hreach : ∀ length upTo, (d.putBytes t p (buffer.take n)).CanReach t length upTo ↔
      d.CanReach t length upTo := fun _ _ =>
    FlatFs.CanReach.congr hplace.freeMap fun a ha => hplace.slotOf_eq hd ht ht ha
  cases isGrowing with
  | false => exact ⟨n, _, hrun, hpos, hle, hend, hgood, ⟨inode, hi, haccess, hdeny⟩, hsame, hreach⟩
  | true =>
    refine ⟨n, _, hrun, hpos, hle, hend, hgood.setInode_live ht hi rfl,
      ⟨_, Function.update_self .., haccess, hdeny⟩, hsame, fun length upTo => ?_⟩
    rw [← hreach]
    exact FlatFs.CanReach.congr rfl fun _ _ => rfl

/-- The chunk past the length is empty. -/
theorem runs_inodeWriteChunk_past (hd : d.Good live) (ht : t ∈ live) (hw : d.Writable t)
    (buffer : List UInt8) {p : Nat} (hp : d.lengthOf t ≤ p) (sector : Nat) :
    ∃ d', Runs Shows (inodeWriteChunk t buffer p sector true) d 0 d' ∧ d'.Good live ∧
      d'.Writable t ∧ d'.lengthOf t = d.lengthOf t := by
  obtain ⟨inode, hi, haccess, hdeny⟩ := hw
  have hset := runs_updateInode (f := fun i => { i with logicalLength := d.lengthOf t }) hi
    (fun _ => rfl) (fun _ => rfl) fun _ => rfl
  refine ⟨d.setInode t { inode with logicalLength := d.lengthOf t }, ?_,
    hd.setInode_live ht hi rfl, ⟨_, Function.update_self .., haccess, hdeny⟩, rfl⟩
  refine (runs_getData hi haccess (hd.range t (hd.layout.inode t ht))).bind ?_
  have hchunk : min (buffer.length : Int) (min (InodeDisk.length (d.cur t) - p)
      (blockSectorSize - (p : Int) % blockSectorSize)) ≤ 0 := by
    have : InodeDisk.length (d.cur t) ≤ p := hp
    omega
  dsimp only
  rw [if_neg (not_lt.mpr hchunk), Int.toNat_of_nonpos hchunk]
  have hrest := hset.bind (f := fun _ => (pure 0 : FsRoutine Nat)) Runs.pure
  rwa [bind_assoc] at hrest

/-- What follows `getInode` may use the fields of the handle. -/
theorem meets_getInode_bind {α : Type} {f : Inode → FsRoutine α} {inode : Inode}
    {Q : α → FlatFs → Prop} {E : Fault → Prop} (hi : d.inodes t = some inode)
    (h : ∀ i, i.handle = inode → Meets Shows (f i) d Q E) :
    Meets Shows (getInode t >>= f) d Q E := by
  intro s hs
  obtain ⟨i, hsi, hhandle⟩ := hs.getInode hi
  rw [Routine.wp_bind]
  exact Routine.wp_of_ok (getInode_of_some hsi) (h i hhandle s hs)

/-- An inode that has grown can grow again. -/
theorem FlatFs.CanReach.of_grown {length upTo : Nat} (hle : length ≤ upTo)
    (hsums : SumsFit length upTo)
    (hindex : firstPlace length + (sectorCnt upTo - sectorCnt length) ≤ 4171) :
    d.CanReach t (grownLength length upTo) upTo := by
  obtain ⟨hle1, hle2⟩ := grownLength_bounds hle
  have hcnt : sectorCnt length ≤ sectorCnt upTo := Nat.div_le_div_right (by omega)
  have hcnt1 : sectorCnt length ≤ sectorCnt (grownLength length upTo) :=
    Nat.div_le_div_right (Nat.add_le_add_right hle1 511)
  have hcnt2 : sectorCnt (grownLength length upTo) ≤ sectorCnt upTo :=
    Nat.div_le_div_right (Nat.add_le_add_right hle2 511)
  refine .inr ⟨⟨hsums.1, ?_⟩, .inl ?_⟩
  · have := hsums.2
    omega
  unfold firstPlace at *
  omega

/-- The sector to write at the end of the data, for which the inode has to grow. -/
theorem meets_inodeWriteSector_end (depth : Nat) (hd : d.Good live) (ht : t ∈ live)
    (hw : d.Writable t) {length size p : Nat} (hlength : d.lengthOf t = length) (hsize : 0 < size)
    (hp : length ≤ p) :
    Meets Shows (inodeWriteSector (freeMapCalls (depth + 1)) t size p) d
      (fun r d' => d.CanReach t length (p + size) ∧ d'.Good live ∧ d'.Writable t ∧
        length ≤ d'.lengthOf t ∧ ∀ sector isGrowing, r = some (sector, isGrowing) →
          isGrowing = true ∧ d'.lengthOf t = grownLength length (p + size) ∧
            d'.CanReach t (grownLength length (p + size)) (p + size) ∧
            ((p : Int) < d'.lengthOf t → sector = slotOf d'.cur t (.data (p / 512))))
      (fun _ => ¬ d.CanReach t length (p + size)) := by
  have hpast : d.lengthOf t ≤ p := by omega
  have hend := runs_byteToSector_end (freeMapCalls (depth + 1)) hd ht hw.loaded hpast
  have hnot : ∀ {P : Prop}, ¬ (SumsFit length (p + size) ∧ P) →
      ¬ (p + size ≤ length ∨ SumsFit length (p + size) ∧ P) := by
    intro P hnot hor
    rcases hor with hle | hor
    · omega
    · exact hnot hor
  refine hend.bind_meets ?_
  rw [if_pos rfl]
  refine ((meets_inodeGrow depth hd ht hw hlength hsize hp).mono_fault fun _ h => hnot h).bind
    fun b d1 hgrown => ?_
  have hreach : d.CanReach t length (p + size) := .inr ⟨hgrown.sums, hgrown.fits⟩
  cases b with
  | false =>
    rw [if_neg (by decide)]
    exact Meets.pure ⟨hreach, hgrown.good, hgrown.writable, by rw [hgrown.same rfl], nofun⟩
  | true =>
    obtain ⟨hindex, hlength1⟩ := hgrown.grown rfl
    have hmore := FlatFs.CanReach.of_grown (d := d1) (t := t) (by omega) hgrown.sums hindex
    obtain ⟨hle, -⟩ := grownLength_bounds (show length ≤ p + size by omega)
    rw [if_pos rfl]
    by_cases hin : (p : Int) < d1.lengthOf t
    · obtain ⟨d2, hsector, hne, hj, hquiet, -⟩ := runs_byteToSector (freeMapCalls (depth + 1))
        hgrown.good ht hgrown.writable.loaded hin
      have hplace := InPlace.ofQuiet hquiet
      have hlength2 : d2.lengthOf t = d1.lengthOf t := by
        rw [FlatFs.lengthOf, hquiet.cur]
        rfl
      refine hsector.bind_meets (Meets.pure ⟨hreach, hplace.good hgrown.good ht, ?_, ?_, ?_⟩)
      · obtain ⟨inode, hi, hrest⟩ := hgrown.writable
        exact ⟨inode, by rw [hplace.inodes t (hgrown.good.live_not_isIndexOf ht ht), hi], hrest⟩
      · rw [hlength2, hlength1]
        exact Int.ofNat_le.mpr hle
      · rintro sector isGrowing h
        cases h
        refine ⟨rfl, hlength2.trans hlength1, ?_, fun _ => by rw [hquiet.cur]⟩
        exact (FlatFs.CanReach.congr hquiet.freeMap fun a _ => by rw [hquiet.cur]).mpr hmore
    · have hend1 := runs_byteToSector_end (freeMapCalls (depth + 1)) hgrown.good ht
        hgrown.writable.loaded (not_lt.mp hin)
      refine hend1.bind_meets (Meets.pure ⟨hreach, hgrown.good, hgrown.writable, ?_, ?_⟩)
      · rw [hlength1]
        exact Int.ofNat_le.mpr hle
      · rintro sector isGrowing h
        cases h
        exact ⟨rfl, hlength1, hmore, fun hlt => absurd hlt hin⟩

/-- The loop of `inode_write_at`. -/
theorem meets_inodeWriteLoop (depth : Nat) (hd : d.Good live) (ht : t ∈ live) (hw : d.Writable t)
    {length fuel : Nat} {buffer : List UInt8} {p : Nat} (hlength : d.lengthOf t = length)
    (hfuel : buffer.length ≤ fuel) (hempty : buffer.length = 0 → p ≤ length) :
    Meets Shows (inodeWriteLoop (freeMapCalls (depth + 1)) t fuel buffer p) d
      (fun n d' => d.CanReach t length (p + buffer.length) ∧ d'.Good live ∧ d'.Writable t ∧
        length ≤ d'.lengthOf t ∧
        (n < buffer.length ∨ (p : Int) + buffer.length ≤ d'.lengthOf t))
      (fun _ => ¬ d.CanReach t length (p + buffer.length)) := by
  induction fuel generalizing d length buffer p with
  | zero =>
    have hnil := Nat.le_zero.mp hfuel
    have hle := hempty hnil
    exact Meets.pure ⟨.inl (by omega), hd, hw, by omega, .inr (by omega)⟩
  | succ fuel ih =>
    obtain ⟨inode, hi, haccess, hdeny⟩ := id hw
    refine meets_getInode_bind hi fun i hhandle => ?_
    have hdeny' : i.denyWriteCnt = 0 := by
      rw [← hdeny, ← hhandle]
      rfl
    by_cases hbuffer : buffer.length = 0
    · have hle := hempty hbuffer
      rw [if_neg (by omega)]
      exact Meets.pure ⟨.inl (by omega), hd, hw, by omega, .inr (by omega)⟩
    have hpos := Nat.pos_of_ne_zero hbuffer
    rw [if_pos ⟨hpos, hdeny'⟩]
    -- what is left after a chunk that ends in the inode
    have hrest : ∀ {length' n : Nat} {d2 : FlatFs}, 0 < n → n ≤ buffer.length →
        d2.Good live → d2.Writable t → d2.lengthOf t = length' → p + n ≤ length' →
        (d2.CanReach t length' (p + buffer.length) ↔ d.CanReach t length (p + buffer.length)) →
        length ≤ length' →
        Meets Shows (if n = 0 then pure 0 else do
            let written ← inodeWriteLoop (freeMapCalls (depth + 1)) t fuel (buffer.drop n) (p + n)
            pure (n + written)) d2
          (fun n d' => d.CanReach t length (p + buffer.length) ∧ d'.Good live ∧ d'.Writable t ∧
            length ≤ d'.lengthOf t ∧
            (n < buffer.length ∨ (p : Int) + buffer.length ≤ d'.lengthOf t))
          (fun _ => ¬ d.CanReach t length (p + buffer.length)) := by
      intro length' n d2 hn hle hgood hw2 hlength2 hend hreach hmore
      have hdrop : (buffer.drop n).length = buffer.length - n := List.length_drop
      have hsum : p + n + (buffer.drop n).length = p + buffer.length := by omega
      have hless : (buffer.drop n).length ≤ fuel := by omega
      have hloop := ih hgood hw2 hlength2 hless fun _ => hend
      rw [hsum, Int.natCast_add] at hloop
      rw [if_neg (Nat.ne_of_gt hn)]
      refine (hloop.mono_fault fun _ h hr => h (hreach.mpr hr)).bind fun m d3 h => Meets.pure ?_
      obtain ⟨hr, hgood3, hw3, hlength3, hlast⟩ := h
      refine ⟨hreach.mp hr, hgood3, hw3, Int.le_trans (Int.ofNat_le.mpr hmore) hlength3, ?_⟩
      rcases hlast with hlt | hlast
      · rw [hdrop] at hlt
        exact .inl (Nat.add_lt_of_lt_sub' hlt)
      · refine .inr (Int.le_trans (Int.le_of_eq ?_) hlast)
        exact_mod_cast hsum.symm
    by_cases hin : p < length
    · have hp : (p : Int) < d.lengthOf t := by
        rw [hlength]
        exact Int.ofNat_lt.mpr hin
      obtain ⟨d1, hsector, hne, hj, hquiet, -⟩ := runs_byteToSector (freeMapCalls (depth + 1)) hd ht
        hw.loaded hp
      have hplace := InPlace.ofQuiet hquiet
      have hd1 := hplace.good hd ht
      have hw1 : d1.Writable t :=
        ⟨inode, by rw [hplace.inodes t (hd.live_not_isIndexOf ht ht), hi], haccess, hdeny⟩
      have hlength1 : d1.lengthOf t = d.lengthOf t := by
        rw [FlatFs.lengthOf, hquiet.cur]
        rfl
      obtain ⟨n, d2, hchunk, hn, hle, hend, hgood2, hw2, hlength2, hreach2⟩ :=
        runs_inodeWriteChunk_inside hd1 ht hw1 hpos (by rwa [hlength1]) false
      rw [hquiet.cur] at hchunk
      have hfound : Runs Shows (inodeWriteSector (freeMapCalls (depth + 1)) t buffer.length p) d
          (some (slotOf d.cur t (.data (p / 512)), false)) d1 := by
        refine hsector.bind ?_
        rw [if_neg hne]
        exact Runs.pure
      refine hfound.bind_meets (hchunk.bind_meets ?_)
      have hlength1' := hlength1.trans hlength
      rw [hlength1'] at hend hlength2
      refine hrest hn hle hgood2 hw2 hlength2 (by exact_mod_cast hend) ?_ le_rfl
      rw [hreach2]
      exact FlatFs.CanReach.congr hquiet.freeMap fun a _ => by rw [hquiet.cur]
    · refine (meets_inodeWriteSector_end depth hd ht hw hlength hpos (Nat.not_lt.mp hin)).bind
        fun r d1 h => ?_
      obtain ⟨hreach, hgood1, hw1, hmore, hgrown⟩ := h
      cases r with
      | none => exact Meets.pure ⟨hreach, hgood1, hw1, hmore, .inl hpos⟩
      | some r =>
        obtain ⟨sector, isGrowing⟩ := r
        obtain ⟨rfl, hlength1, hreach1, hsector⟩ := hgrown sector isGrowing rfl
        dsimp only
        by_cases hp : (p : Int) < d1.lengthOf t
        · obtain ⟨n, d2, hchunk, hn, hle, hend, hgood2, hw2, hlength2, hreach2⟩ :=
            runs_inodeWriteChunk_inside hgood1 ht hw1 hpos hp true
          rw [hsector hp]
          refine hchunk.bind_meets ?_
          rw [hlength1] at hend hmore hlength2
          refine hrest hn hle hgood2 hw2 hlength2 (by exact_mod_cast hend) ?_
            (Int.ofNat_le.mp hmore)
          rw [hreach2]
          exact iff_of_true hreach1 hreach
        · obtain ⟨d2, hchunk, hgood2, hw2, hlength2⟩ :=
            runs_inodeWriteChunk_past hgood1 ht hw1 buffer (not_lt.mp hp) sector
          refine hchunk.bind_meets ?_
          rw [if_pos rfl]
          exact Meets.pure ⟨hreach, hgood2, hw2, by rw [hlength2]; exact hmore, .inl hpos⟩

/-- `inode_write_at` on an inode to which writes are not denied. -/
theorem meets_inodeWriteAt (depth : Nat) (hd : d.Good live) (ht : t ∈ live) {inode : Inode}
    (hi : d.inodes t = some inode) (hdeny : inode.denyWriteCnt = 0) {length : Nat}
    {buffer : List UInt8} (hbuffer : 0 < buffer.length) (p : Nat) (hlength : d.lengthOf t = length) :
    Meets Shows (inodeWriteAt (freeMapCalls (depth + 1)) t buffer p) d
      (fun n d' => d.CanReach t length (p + buffer.length) ∧ d'.Good live ∧
        length ≤ d'.lengthOf t ∧ (n < buffer.length ∨ (p : Int) + buffer.length ≤ d'.lengthOf t))
      (fun _ => ¬ d.CanReach t length (p + buffer.length)) := by
  have hload := runs_inodeLoadDisk hi (hd.range t (hd.layout.inode t ht))
  have hgood := hd.setInode_live ht hi (rfl : (inode.load (d.cur t)).denyWriteCnt = _)
  have hreach : ∀ upTo, (d.setInode t (inode.load (d.cur t))).CanReach t length upTo ↔
      d.CanReach t length upTo := fun _ => FlatFs.CanReach.congr rfl fun _ _ => rfl
  refine hload.bind_meets ?_
  have hloop := meets_inodeWriteLoop depth hgood ht
    ⟨_, Function.update_self .., Nat.succ_ne_zero _, hdeny⟩ hlength (le_refl buffer.length)
    (p := p) fun hnil => absurd hnil (Nat.ne_of_gt hbuffer)
  rw [hreach] at hloop
  refine hloop.bind fun n d1 h => ?_
  obtain ⟨hr, hgood1, ⟨inode1, hi1, haccess1, hdeny1⟩, hmore, hlast⟩ := h
  have hrelease := runs_inodeReleaseDisk hi1 haccess1 (hgood1.range t (hgood1.layout.inode t ht))
  exact hrelease.bind_meets (Meets.pure ⟨hr, hgood1.setInode_live ht hi1 rfl, hmore, hlast⟩)

/-- The most bytes that an inode takes for which the table in it has entries. -/
def maxFileSize : Nat := (inodeAccessIndirect + 1) * blockSectorSize

theorem FlatFs.Good.lengthOf_le (hd : d.Good live) (ht : t ∈ live) :
    0 ≤ d.lengthOf t ∧ d.lengthOf t ≤ maxFileSize := by
  obtain ⟨h0, hall⟩ := hd.filled t ht
  refine ⟨h0, not_lt.mp fun hlt => ?_⟩
  have hlast : 512 * ((4171 : Nat) : Int) < InodeDisk.length (d.cur t) := hlt
  exact absurd (hall 4171 hlast).1 (by decide)

def FileSys.lengthOf (s : FileSys) (t : Nat) : Int := InodeDisk.length (s.cur t)

/-- The inode `t` is open in a file system with the inodes `live`. -/
structure FileSys.Opened (live : Set Nat) (s : FileSys) (t : Nat) (inode : Inode) : Prop where
  wf : s.Wf
  good : s.flat.Good live
  isLive : t ∈ live
  isOpen : s.inodes t = some inode

section

variable {s : FileSys} {inode : Inode} {buffer : List UInt8} {offset : Nat}

theorem FileSys.Opened.meets (depth : Nat) (h : s.Opened live t inode) (hdeny : inode.denyWriteCnt = 0)
    (hbuffer : 0 < buffer.length) (offset : Nat) :
    Routine.wp (inodeWriteAt (freeMapCalls (depth + 1)) t buffer offset)
      (fun n s' => s.flat.CanReach t (s.lengthOf t).toNat (offset + buffer.length) ∧
        0 ≤ s'.lengthOf t ∧ s.lengthOf t ≤ s'.lengthOf t ∧
        (maxFileSize < offset + buffer.length → n < buffer.length))
      (fun _ => ¬ s.flat.CanReach t (s.lengthOf t).toNat (offset + buffer.length)) s := by
  have hi : s.flat.inodes t = some inode.handle := by
    change (s.inodes t).map Inode.handle = _
    rw [h.isOpen]
    rfl
  obtain ⟨h0, -⟩ := h.good.lengthOf_le h.isLive
  have hlength : s.flat.lengthOf t = ((s.lengthOf t).toNat : Int) := (Int.toNat_of_nonneg h0).symm
  refine (meets_inodeWriteAt depth h.good h.isLive hi hdeny hbuffer offset hlength s h.wf.shows).mono
    fun n s' ⟨d', hshows, hreach, hgood, hmore, hlast⟩ => ?_
  obtain ⟨h0', hmax⟩ := hgood.lengthOf_le h.isLive
  have hcur : s'.lengthOf t = d'.lengthOf t := by
    rw [FileSys.lengthOf, hshows.cur t (hgood.range t (hgood.layout.inode t h.isLive))]
    rfl
  rw [hcur]
  rw [← hlength] at hmore
  refine ⟨hreach, h0', hmore, fun hover => ?_⟩
  rcases hlast with hlt | hle
  · exact hlt
  · have := Int.le_trans hle hmax
    omega

end

end Pintos
