import Pintos.Filesys.CacheSound
import Pintos.Filesys.FreeMap

/-! What all the work of `filesys/inode.c` and `filesys/free-map.c` on the contents of files leaves
alone: no inode that is open is closed, nobody's writes are denied or allowed, and the buffer cache
stays sound. -/

namespace Pintos

open Routine

/-- The cache is sound, and the data of a `struct inode` are there exactly when it is loaded. -/
structure FileSys.Sound (s : FileSys) : Prop where
  cache : s.cache.Sound
  loaded : ∀ t inode, s.inodes t = some inode → (inode.accessCount = 0 ↔ inode.data = none)

/-- The inodes that are open in `s` are open in `s'`, at least as often and with the same denials. -/
structure Held (s s' : FileSys) : Prop where
  inodes : ∀ t inode, s.inodes t = some inode → ∃ inode', s'.inodes t = some inode' ∧
    inode'.denyWriteCnt = inode.denyWriteCnt ∧ inode.openCnt ≤ inode'.openCnt
  opened : ∀ t inode', s.inodes t = none → s'.inodes t = some inode' → inode'.denyWriteCnt = 0
  sound : s.Sound → s'.Sound

theorem Held.refl (s : FileSys) : Held s s where
  inodes _ inode h := ⟨inode, h, rfl, le_rfl⟩
  opened t inode' h h' := by
    rw [h] at h'
    nomatch h'
  sound h := h

theorem Held.trans {s s1 s' : FileSys} (h : Held s s1) (h' : Held s1 s') : Held s s' where
  inodes t inode hi := by
    obtain ⟨i1, hi1, hdeny1, hopen1⟩ := h.inodes t inode hi
    obtain ⟨i2, hi2, hdeny2, hopen2⟩ := h'.inodes t i1 hi1
    exact ⟨i2, hi2, hdeny2.trans hdeny1, hopen1.trans hopen2⟩
  opened t inode' hnone hsome := by
    cases hmid : s1.inodes t with
    | none => exact h'.opened t inode' hmid hsome
    | some i1 =>
      obtain ⟨i2, hi2, hdeny2, -⟩ := h'.inodes t i1 hmid
      cases hi2.symm.trans hsome
      exact hdeny2.trans (h.opened t i1 hnone hmid)
  sound hs := h'.sound (h.sound hs)

instance : IsPreorder FileSys Held where
  refl := Held.refl
  trans _ _ _ := Held.trans

variable {calls : FreeMapCalls} {s s' : FileSys} {inode t : Nat} {i i' : Inode}

theorem FileSys.Sound.setInode (h : s.Sound) (hi' : i'.accessCount = 0 ↔ i'.data = none) :
    FileSys.Sound { s with inodes := Function.update s.inodes t (some i') } := by
  refine ⟨h.cache, fun u j hj => ?_⟩
  by_cases hut : u = t
  · rw [hut] at hj
    dsimp only at hj
    rw [Function.update_self] at hj
    rw [← Option.some.inj hj]
    exact hi'
  · exact h.loaded u j ((Function.update_of_ne hut ..).symm.trans hj)

/-- A `struct inode` takes the place of one with the same denials. -/
theorem Held.setInode (hi : s.inodes t = some i) (hdeny : i'.denyWriteCnt = i.denyWriteCnt)
    (hopen : i.openCnt ≤ i'.openCnt)
    (hloaded : (i.accessCount = 0 ↔ i.data = none) → (i'.accessCount = 0 ↔ i'.data = none)) :
    Held s { s with inodes := Function.update s.inodes t (some i') } where
  inodes u j hj := by
    by_cases hut : u = t
    · rw [hut] at hj ⊢
      cases hi.symm.trans hj
      exact ⟨i', Function.update_self .., hdeny, hopen⟩
    · exact ⟨j, (Function.update_of_ne hut ..).trans hj, rfl, le_rfl⟩
  opened u j hnone hj := by
    have hut : u ≠ t := by
      rintro rfl
      rw [hi] at hnone
      nomatch hnone
    dsimp only at hj
    rw [Function.update_of_ne hut, hnone] at hj
    nomatch hj
  sound h := h.setInode (hloaded (h.loaded t i hi))

theorem getInode_ok (h : getInode t s = .ok (i, s')) : s' = s ∧ s.inodes t = some i := by
  rw [getInode, get_bind_apply] at h
  cases hi : s.inodes t with
  | none =>
    rw [hi] at h
    nomatch h
  | some j =>
    rw [hi] at h
    cases h
    exact ⟨rfl, rfl⟩

theorem getInode_held (t : Nat) : Keeps Held (getInode t) := by
  intro s i s' hrun
  rw [(getInode_ok hrun).1]
  exact Held.refl s

/-- Fields of a `struct inode` change that no denial depends on. -/
theorem updateInode_held {f : Inode → Inode} (hdeny : ∀ i, (f i).denyWriteCnt = i.denyWriteCnt)
    (hopen : ∀ i, i.openCnt ≤ (f i).openCnt)
    (hloaded : ∀ i, (f i).accessCount = i.accessCount ∧ (f i).data = i.data) :
    Keeps Held (getInode t >>= fun i => setInode t (f i)) := by
  intro s r s' hrun
  obtain ⟨i, s1, hget, hset⟩ := bind_ok.mp hrun
  obtain ⟨rfl, hi⟩ := getInode_ok hget
  cases hset
  refine Held.setInode hi (hdeny i) (hopen i) fun h => ?_
  rwa [(hloaded i).1, (hloaded i).2]

/-- A routine of the buffer cache that keeps the entries sound. -/
theorem onCache_held {α : Type} {m : CacheRoutine α}
    (hm : Keeps (fun c c' => c.Sound → c'.Sound) m) : Keeps Held (onCache m) := by
  intro s a s' hrun
  unfold onCache at hrun
  split at hrun
  · rename_i hcache
    cases hrun
    refine ⟨fun _ i hi => ⟨i, hi, rfl, le_rfl⟩, fun t i hnone hsome => ?_,
      fun h => ⟨hm _ _ _ hcache h.cache, h.loaded⟩⟩
    rw [hnone] at hsome
    nomatch hsome
  · nomatch hrun

theorem bcBlockRead_sound (sector offset size : Nat) :
    Keeps (fun c c' : Cache => c.Sound → c'.Sound) (bcBlockRead sector offset size) :=
  fun _ _ _ hrun hc => (bcBlockRead_ok hc hrun).1.sound

theorem bcBlockWrite_sound (sector : Nat) (buffer : List UInt8) (offset : Nat) :
    Keeps (fun c c' : Cache => c.Sound → c'.Sound) (bcBlockWrite sector buffer offset false) :=
  fun _ _ _ hrun hc => (bcBlockWrite_ok hc hrun).sound

theorem bcRemove_sound (sector : Nat) :
    Keeps (fun c c' : Cache => c.Sound → c'.Sound) (bcRemove sector) :=
  fun _ _ _ hrun hc => bcRemove_ok hc hrun

instance : IsPreorder Cache fun c c' => c.Sound → c'.Sound where
  refl _ h := h
  trans _ _ _ h h' hc := h' (h hc)

/-! ### Loading and releasing -/

/-- What `inode_load_disk` leaves in the `struct inode`. -/
theorem loadDisk_ok {c c' : Cache} (h : i.loadDisk t c = .ok (i', c')) :
    (c.Sound → c'.Sound) ∧ i'.denyWriteCnt = i.denyWriteCnt ∧ i'.openCnt = i.openCnt ∧
      ((i.accessCount = 0 ↔ i.data = none) → (i'.accessCount = 0 ↔ i'.data = none)) := by
  by_cases hassert : i.accessCount ≠ 0 ∨ i.data.isNone
  · rw [Inode.loadDisk, if_neg (not_not.mpr hassert)] at h
    by_cases haccess : i.accessCount = 0
    · beta_reduce at h
      rw [if_pos haccess] at h
      obtain ⟨bytes, c1, hread, hrest⟩ := bind_ok.mp h
      cases hrest
      exact ⟨bcBlockRead_sound _ _ _ _ _ _ hread, rfl, rfl, fun _ => iff_of_false nofun nofun⟩
    · beta_reduce at h
      rw [if_neg haccess] at h
      cases h
      refine ⟨id, rfl, rfl, fun hi => iff_of_false (Nat.succ_ne_zero _) fun hdata => ?_⟩
      exact haccess (hi.mpr hdata)
  · rw [Inode.loadDisk, if_pos hassert] at h
    nomatch h

/-- What `inode_release_disk` leaves in the `struct inode`. -/
theorem releaseDisk_ok {c c' : Cache} (h : i.releaseDisk t c = .ok (i', c')) :
    (c.Sound → c'.Sound) ∧ i'.denyWriteCnt = i.denyWriteCnt ∧ i'.openCnt = i.openCnt ∧
      ((i.accessCount = 0 ↔ i.data = none) → (i'.accessCount = 0 ↔ i'.data = none)) := by
  by_cases hzero : i.accessCount = 0
  · rw [Inode.releaseDisk, if_pos hzero] at h
    nomatch h
  · rw [Inode.releaseDisk, if_neg hzero] at h
    by_cases hlast : i.accessCount = 1
    · beta_reduce at h
      rw [if_pos hlast] at h
      cases hdata : i.data with
      | none =>
        rw [hdata] at h
        nomatch h
      | some data =>
        rw [hdata] at h
        obtain ⟨⟨⟩, c1, hwrite, hrest⟩ := bind_ok.mp h
        cases hrest
        exact ⟨bcBlockWrite_sound _ _ _ _ _ _ hwrite, rfl, rfl, fun _ => iff_of_true rfl rfl⟩
    · beta_reduce at h
      rw [if_neg hlast] at h
      cases h
      refine ⟨id, rfl, rfl, fun hi => iff_of_false (by dsimp only; omega) fun hdata => ?_⟩
      exact hzero (hi.mpr hdata)

/-- A routine that takes a `struct inode` through the cache. -/
theorem throughCache_held {m : Inode → CacheRoutine Inode}
    (hm : ∀ i i' c c', m i c = .ok (i', c') →
      (c.Sound → c'.Sound) ∧ i'.denyWriteCnt = i.denyWriteCnt ∧ i'.openCnt = i.openCnt ∧
        ((i.accessCount = 0 ↔ i.data = none) → (i'.accessCount = 0 ↔ i'.data = none))) :
    Keeps Held (do setInode t (← onCache (m (← getInode t)))) := by
  intro s r s' hrun
  obtain ⟨i, s1, hget, hrest⟩ := bind_ok.mp hrun
  obtain ⟨rfl, hi⟩ := getInode_ok hget
  obtain ⟨i', s2, hcache, hset⟩ := bind_ok.mp hrest
  cases hset
  unfold onCache at hcache
  split at hcache
  · rename_i hok
    cases hcache
    obtain ⟨hsound, hdeny, hopen, hloaded⟩ := hm _ _ _ _ hok
    have hheld := Held.setInode hi hdeny hopen.ge hloaded
    exact ⟨hheld.inodes, hheld.opened, fun h => ⟨hsound h.cache, (hheld.sound h).loaded⟩⟩
  · nomatch hcache

theorem inodeLoadDisk_held (t : Nat) : Keeps Held (inodeLoadDisk t) :=
  throughCache_held fun _ _ _ _ => loadDisk_ok

theorem inodeReleaseDisk_held (t : Nat) : Keeps Held (inodeReleaseDisk t) :=
  throughCache_held fun _ _ _ _ => releaseDisk_ok

theorem inodeOpen_held (t : Nat) : Keeps Held (inodeOpen t) := by
  refine Keeps.get_bind fun s r s' hrun => ?_
  cases hi : s.inodes t with
  | some i =>
    rw [hi] at hrun
    cases hrun
    exact Held.setInode hi rfl (Nat.le_succ _) id
  | none =>
    rw [hi] at hrun
    cases hrun
    refine ⟨fun u j hj => ?_, fun u j hnone hj => ?_, fun h => h.setInode (iff_of_true rfl rfl)⟩
    · have hut : u ≠ t := by
        rintro rfl
        rw [hi] at hj
        nomatch hj
      exact ⟨j, (Function.update_of_ne hut ..).trans hj, rfl, le_rfl⟩
    · by_cases hut : u = t
      · rw [hut] at hj
        dsimp only at hj
        rw [Function.update_self] at hj
        cases hj
        rfl
      · dsimp only at hj
        rw [Function.update_of_ne hut, hnone] at hj
        nomatch hj

theorem getData_held (t : Nat) : Keeps Held (getData t) := by
  refine (getInode_held t).bind fun i => ?_
  split
  · exact Keeps.pure
  · exact Keeps.throw

theorem getData_ok {data : InodeDisk} (h : getData t s = .ok (data, s')) :
    s' = s ∧ ∃ i, s.inodes t = some i ∧ i.data = some data := by
  obtain ⟨i, s1, hget, hrest⟩ := bind_ok.mp h
  obtain ⟨rfl, hi⟩ := getInode_ok hget
  cases hdata : i.data with
  | none =>
    rw [hdata] at hrest
    nomatch hrest
  | some data' =>
    rw [hdata] at hrest
    cases hrest
    exact ⟨rfl, i, hi, hdata⟩

/-- The data of an inode change that are loaded. -/
theorem setData_held {data : InodeDisk} (hi : s.inodes t = some i) (hdata : i.data ≠ none)
    (hrun : setData t data s = .ok ((), s')) : Held s s' := by
  obtain ⟨j, s1, hget, hset⟩ := bind_ok.mp hrun
  obtain ⟨rfl, hj⟩ := getInode_ok hget
  obtain rfl := Option.some.inj (hi.symm.trans hj)
  cases hset
  exact Held.setInode hi rfl le_rfl fun h => iff_of_false (fun hzero => hdata (h.mp hzero)) nofun

theorem changeData_held (t : Nat) (f : InodeDisk → InodeDisk) :
    Keeps Held (getData t >>= fun data => setData t (f data)) := by
  intro s r s' hrun
  obtain ⟨data, s1, hget, hset⟩ := bind_ok.mp hrun
  obtain ⟨rfl, i, hi, hdata⟩ := getData_ok hget
  exact setData_held hi (fun hnone => nomatch hnone.symm.trans hdata) hset

theorem inodeLength_held (t : Nat) : Keeps Held (inodeLength t) :=
  (inodeLoadDisk_held t).bind fun _ => (getData_held t).bind fun _ =>
    (inodeReleaseDisk_held t).bind fun _ => Keeps.pure

/-! ### The index -/

/-- The functions of the free map keep the inodes. -/
structure FreeMapCalls.KeepInodes (calls : FreeMapCalls) : Prop where
  allocate : Keeps Held calls.allocate
  release : ∀ sector cnt, Keeps Held (calls.release sector cnt)

theorem storeEntry_held (inode idx sector : Nat) : Keeps Held (storeEntry inode idx sector) :=
  changeData_held inode _

theorem openIndexBlock_held (sector : Nat) : Keeps Held (openIndexBlock sector) := by
  refine (inodeOpen_held sector).bind fun _ => (inodeLoadDisk_held sector).bind fun _ => ?_
  refine (getData_held sector).bind fun data => Keeps.ite (fun _ => Keeps.throw) fun _ => ?_
  exact Keeps.pure

section

variable (hcalls : calls.KeepInodes)

include hcalls

theorem allocateNewBlock_held {store : Nat → FsRoutine Unit} (hstore : ∀ b, Keeps Held (store b)) :
    Keeps Held (allocateNewBlock calls store) := by
  refine hcalls.allocate.bind fun r => ?_
  cases r with
  | none => exact Keeps.pure
  | some b =>
    refine (onCache_held (bcBlockWrite_sound _ _ _)).bind fun _ => ?_
    exact (hstore b).bind fun _ => Keeps.pure

omit hcalls in
theorem inodeCreateIndexBlock_held (sector : Nat) : Keeps Held (inodeCreateIndexBlock sector) := by
  unfold inodeCreateIndexBlock
  exact onCache_held (bcBlockWrite_sound _ _ _)

theorem allocateNewIndexInode_held {store : Nat → FsRoutine Unit}
    (hstore : ∀ b, Keeps Held (store b)) : Keeps Held (allocateNewIndexInode calls store) := by
  refine hcalls.allocate.bind fun r => ?_
  cases r with
  | none => exact Keeps.pure
  | some b =>
    refine (inodeCreateIndexBlock_held b).bind fun _ => ?_
    exact (hstore b).bind fun _ => Keeps.pure

theorem checkAllocateAndGetSector_held (inode entries idx : Nat) (isIndexBlock allocateNew : Bool) :
    Keeps Held (checkAllocateAndGetSector calls inode entries idx isIndexBlock allocateNew) := by
  refine Keeps.check fun _ => (getData_held inode).bind fun data => ?_
  have hrest : ∀ b, Keeps Held (if b = sectorError then (pure none : FsRoutine (Option Nat))
      else do pure (some ((← getData inode).entry idx))) := fun b =>
    Keeps.ite (fun _ => Keeps.pure) fun _ => (getData_held inode).bind fun _ => Keeps.pure
  refine Keeps.ite (fun _ => Keeps.ite (fun _ => ?_) fun _ => ?_) fun _ =>
    Keeps.ite (fun _ => Keeps.pure) fun _ => Keeps.pure
  · exact (allocateNewIndexInode_held hcalls fun b => storeEntry_held _ _ b).bind hrest
  · exact (allocateNewBlock_held hcalls fun b => storeEntry_held _ _ b).bind hrest

theorem inodePosToRealSector_held (inode : Nat) (pos : Int) (allocateNew : Bool) :
    Keeps Held (inodePosToRealSector calls inode pos allocateNew) := by
  have hcheck := checkAllocateAndGetSector_held hcalls
  refine Keeps.check fun _ => Keeps.ite (fun _ => ?_) fun _ => Keeps.ite (fun _ => ?_) fun _ =>
    Keeps.ite (fun _ => ?_) fun _ => Keeps.throw
  · refine (hcheck _ _ _ _ _).bind fun r => ?_
    cases r <;> exact Keeps.pure
  · refine (hcheck _ _ _ _ _).bind fun r => ?_
    cases r with
    | none => exact Keeps.pure
    | some indexInode =>
      refine (openIndexBlock_held _).bind fun _ => (hcheck _ _ _ _ _).bind fun r => ?_
      cases r with
      | none => exact Keeps.pure
      | some sector => exact (inodeReleaseDisk_held _).bind fun _ => Keeps.pure
  · refine (hcheck _ _ _ _ _).bind fun r => ?_
    cases r with
    | none => exact Keeps.pure
    | some indexInode =>
      refine (openIndexBlock_held _).bind fun _ => (hcheck _ _ _ _ _).bind fun r => ?_
      cases r with
      | none => exact Keeps.pure
      | some dIndexInode =>
        refine (openIndexBlock_held _).bind fun _ => (hcheck _ _ _ _ _).bind fun r => ?_
        cases r with
        | none => exact Keeps.pure
        | some sector =>
          exact (inodeReleaseDisk_held _).bind fun _ =>
            (inodeReleaseDisk_held _).bind fun _ => Keeps.pure

theorem byteToSector_held (inode : Nat) (pos : Int) : Keeps Held (byteToSector calls inode pos) :=
  (getData_held inode).bind fun _ =>
    Keeps.ite (fun _ => inodePosToRealSector_held hcalls _ _ _) fun _ => Keeps.pure

/-! ### Reading, writing and growing -/

theorem inodeGrowLoop_held (inode : Nat) (js : List Nat) :
    Keeps Held (inodeGrowLoop calls inode js) := by
  induction js with
  | nil => exact Keeps.pure
  | cons j js ih =>
    refine (inodePosToRealSector_held hcalls _ _ _).bind fun sector => ?_
    exact Keeps.ite (fun _ => Keeps.pure) fun _ => ih

theorem inodeGrow_held (inode : Nat) (size offset : Int) :
    Keeps Held (inodeGrow calls inode size offset) := by
  refine Keeps.check fun _ => Keeps.check fun _ s r s' hrun => ?_
  obtain ⟨data, s1, hget, hrest⟩ := bind_ok.mp hrun
  obtain ⟨rfl, i, hi, hdata⟩ := getData_ok hget
  by_cases hfar : offset + size > roundUpToSectorBoundary data.length
  · rw [if_pos hfar] at hrest
    refine Keeps.check (fun _ => Keeps.check fun _ => ?_) _ _ _ hrest
    refine (inodeGrowLoop_held hcalls inode _).bind fun grown => Keeps.ite (fun _ => ?_) fun _ =>
      Keeps.pure
    have hchange := (changeData_held inode fun now => now.setLength (now.length +
      (offset + size - roundUpToSectorBoundary data.length))).bind
        fun _ => (Keeps.pure : Keeps Held (pure grown : FsRoutine Bool))
    rwa [bind_assoc] at hchange
  · rw [if_neg hfar] at hrest
    obtain ⟨⟨⟩, s2, hset, hpure⟩ := bind_ok.mp hrest
    cases hpure
    exact setData_held hi (fun hnone => nomatch hnone.symm.trans hdata) hset

theorem inodeReadLoop_held (inode fuel : Nat) (left offset : Int) :
    Keeps Held (inodeReadLoop calls inode fuel left offset) := by
  induction fuel generalizing left offset with
  | zero => exact Keeps.pure
  | succ fuel ih =>
    refine Keeps.ite (fun _ => Keeps.pure) fun _ =>
      (byteToSector_held hcalls inode offset).bind fun sectorIdx => ?_
    refine Keeps.ite (fun _ => Keeps.pure) fun _ => (getInode_held inode).bind fun i => ?_
    refine Keeps.ite (fun _ => Keeps.pure) fun _ => ?_
    exact (onCache_held (bcBlockRead_sound _ _ _)).bind fun _ => (ih _ _).bind fun _ => Keeps.pure

theorem inodeReadAt_held (inode : Nat) (size offset : Int) :
    Keeps Held (inodeReadAt calls inode size offset) := by
  refine (getInode_held inode).bind fun i => Keeps.ite (fun _ => Keeps.pure) fun _ => ?_
  exact (inodeLoadDisk_held inode).bind fun _ => (inodeReadLoop_held hcalls _ _ _ _).bind fun _ =>
    (inodeReleaseDisk_held inode).bind fun _ => Keeps.pure

theorem inodeWriteSector_held (inode : Nat) (size offset : Int) :
    Keeps Held (inodeWriteSector calls inode size offset) := by
  refine (byteToSector_held hcalls inode offset).bind fun sectorIdx => ?_
  refine Keeps.ite (fun _ => ?_) fun _ => Keeps.pure
  refine (inodeGrow_held hcalls _ _ _).bind fun grown => Keeps.ite (fun _ => ?_) fun _ => Keeps.pure
  exact (byteToSector_held hcalls inode offset).bind fun _ => Keeps.pure

omit hcalls in
theorem inodeWriteChunk_held (inode : Nat) (buffer : List UInt8) (offset : Int) (sectorIdx : Nat)
    (isGrowing : Bool) : Keeps Held (inodeWriteChunk inode buffer offset sectorIdx isGrowing) := by
  refine (getData_held inode).bind fun data => ?_
  have hlogical : ∀ length : Int, Keeps Held
      (getInode inode >>= fun i => setInode inode { i with logicalLength := length }) :=
    fun length => updateInode_held (fun _ => rfl) (fun _ => le_rfl) fun _ => ⟨rfl, rfl⟩
  have hrest : ∀ (length : Int) (n : Nat), Keeps Held (do
      if isGrowing then setInode inode { (← getInode inode) with logicalLength := length }
      pure n) := by
    intro length n
    refine Keeps.ite (fun _ => ?_) fun _ => Keeps.pure
    have hset := (hlogical length).bind (f := fun _ => (pure n : FsRoutine Nat)) fun _ => Keeps.pure
    rwa [bind_assoc] at hset
  refine Keeps.ite (fun _ => ?_) fun _ => hrest _ _
  exact (onCache_held (bcBlockWrite_sound _ _ _)).bind fun _ => hrest _ _

theorem inodeWriteLoop_held (inode fuel : Nat) (buffer : List UInt8) (offset : Int) :
    Keeps Held (inodeWriteLoop calls inode fuel buffer offset) := by
  induction fuel generalizing buffer offset with
  | zero => exact Keeps.pure
  | succ fuel ih =>
    refine (getInode_held inode).bind fun i => Keeps.ite (fun _ => ?_) fun _ => Keeps.pure
    refine (inodeWriteSector_held hcalls _ _ _).bind fun r => ?_
    cases r with
    | none => exact Keeps.pure
    | some r =>
      refine (inodeWriteChunk_held _ _ _ _ _).bind fun n => Keeps.ite (fun _ => Keeps.pure) fun _ => ?_
      exact (ih _ _).bind fun _ => Keeps.pure

theorem inodeWriteAt_held (inode : Nat) (buffer : List UInt8) (offset : Int) :
    Keeps Held (inodeWriteAt calls inode buffer offset) :=
  (inodeLoadDisk_held inode).bind fun _ => (inodeWriteLoop_held hcalls _ _ _ _).bind fun _ =>
    (inodeReleaseDisk_held inode).bind fun _ => Keeps.pure

end

/-! ### The free map -/

theorem freeMap_held (f : FileSys → Bitmap) :
    Keeps Held (modify fun s => { s with freeMap := f s } : FsRoutine Unit) := by
  refine Keeps.modify fun s => ⟨fun _ i hi => ⟨i, hi, rfl, le_rfl⟩, fun t i hnone hsome => ?_,
    fun h => ⟨h.cache, h.loaded⟩⟩
  dsimp only at hsome
  rw [hnone] at hsome
  nomatch hsome

theorem bitmapWrite_held (hcalls : calls.KeepInodes) (file : Nat) :
    Keeps Held (bitmapWrite calls file) :=
  Keeps.get.bind fun _ => (inodeWriteAt_held hcalls _ _ _).bind fun _ => Keeps.pure

theorem freeMapAllocate_held (hcalls : calls.KeepInodes) : Keeps Held (freeMapAllocate calls) := by
  refine Keeps.get.bind fun s => ?_
  split
  · exact Keeps.pure
  · refine (freeMap_held _).bind fun _ => Keeps.get.bind fun s => ?_
    split
    · exact Keeps.pure
    · refine (bitmapWrite_held hcalls _).bind fun written =>
        Keeps.ite (fun _ => Keeps.pure) fun _ => ?_
      exact (freeMap_held _).bind fun _ => Keeps.pure

theorem freeMapRelease_held (hcalls : calls.KeepInodes) (sector cnt : Nat) :
    Keeps Held (freeMapRelease calls sector cnt) := by
  refine Keeps.get.bind fun s => Keeps.check fun _ => Keeps.check fun _ => ?_
  refine (freeMap_held _).bind fun _ => Keeps.get.bind fun s => ?_
  split
  · exact Keeps.throw
  · refine (bitmapWrite_held hcalls _).bind fun _ => Keeps.forM fun i _ => ?_
    exact onCache_held (bcRemove_sound _)

theorem freeMapCalls_keepInodes (depth : Nat) : (freeMapCalls depth).KeepInodes := by
  induction depth with
  | zero => exact ⟨Keeps.throw, fun _ _ => Keeps.throw⟩
  | succ depth ih => exact ⟨freeMapAllocate_held ih, freeMapRelease_held ih⟩

end Pintos
