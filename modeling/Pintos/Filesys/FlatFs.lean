import Pintos.Filesys.CacheSpec
import Pintos.Filesys.FreeMap

/-! The file system seen through the buffer cache and the loaded inodes.  `FlatFs` has one contents
for each sector: the data of a loaded `struct inode` if there is one, else what a read through the
cache returns.  A spec lemma for each basic function says what it does to it; loading and releasing an
inode do nothing but count. -/

namespace Pintos

open Routine (Runs)

/-- A file system with the current contents of each sector. -/
structure FlatFs where
  size : Nat
  cur : Nat → SectorData
  freeMap : Bitmap
  freeMapFile : Option Nat
  inodes : Nat → Option Inode

namespace FlatFs

def setInode (d : FlatFs) (t : Nat) (inode : Inode) : FlatFs :=
  { d with inodes := Function.update d.inodes t (some inode) }

def setCur (d : FlatFs) (t : Nat) (data : SectorData) : FlatFs :=
  { d with cur := Function.update d.cur t data }

@[simp] theorem setInode_size (d : FlatFs) (t : Nat) (inode : Inode) :
    (d.setInode t inode).size = d.size := rfl

@[simp] theorem setInode_cur (d : FlatFs) (t : Nat) (inode : Inode) :
    (d.setInode t inode).cur = d.cur := rfl

@[simp] theorem setInode_freeMap (d : FlatFs) (t : Nat) (inode : Inode) :
    (d.setInode t inode).freeMap = d.freeMap := rfl

@[simp] theorem setInode_freeMapFile (d : FlatFs) (t : Nat) (inode : Inode) :
    (d.setInode t inode).freeMapFile = d.freeMapFile := rfl

@[simp] theorem setInode_inodes (d : FlatFs) (t : Nat) (inode : Inode) :
    (d.setInode t inode).inodes = Function.update d.inodes t (some inode) := rfl

@[simp] theorem setCur_size (d : FlatFs) (t : Nat) (data : SectorData) :
    (d.setCur t data).size = d.size := rfl

@[simp] theorem setCur_cur (d : FlatFs) (t : Nat) (data : SectorData) :
    (d.setCur t data).cur = Function.update d.cur t data := rfl

@[simp] theorem setCur_freeMap (d : FlatFs) (t : Nat) (data : SectorData) :
    (d.setCur t data).freeMap = d.freeMap := rfl

@[simp] theorem setCur_freeMapFile (d : FlatFs) (t : Nat) (data : SectorData) :
    (d.setCur t data).freeMapFile = d.freeMapFile := rfl

@[simp] theorem setCur_inodes (d : FlatFs) (t : Nat) (data : SectorData) :
    (d.setCur t data).inodes = d.inodes := rfl

end FlatFs

/-- A `struct inode` without its data. -/
def Inode.handle (inode : Inode) : Inode := { inode with data := none }

/-- The contents of sector `t`. -/
def FileSys.cur (s : FileSys) (t : Nat) : SectorData :=
  match s.inodes t with
  | some inode => inode.data.getD (s.cache.view t)
  | none => s.cache.view t

/-- The file system `s` has the contents `d`. -/
structure Shows (s : FileSys) (d : FlatFs) : Prop where
  wf : s.cache.Wf
  size : s.cache.fsDevice.size = d.size
  freeMap : s.freeMap = d.freeMap
  freeMapFile : s.freeMapFile = d.freeMapFile
  inodes : ∀ t, (s.inodes t).map Inode.handle = d.inodes t
  loaded : ∀ t inode, s.inodes t = some inode → (inode.accessCount = 0 ↔ inode.data = none)
  cur : ∀ t < d.size, s.cur t = d.cur t

/-- The contents of a file system. -/
def FileSys.flat (s : FileSys) : FlatFs where
  size := s.cache.fsDevice.size
  cur := s.cur
  freeMap := s.freeMap
  freeMapFile := s.freeMapFile
  inodes t := (s.inodes t).map Inode.handle

/-- The data of a `struct inode` are there exactly when it is loaded. -/
structure FileSys.Wf (s : FileSys) : Prop where
  cache : s.cache.Wf
  loaded : ∀ t inode, s.inodes t = some inode → (inode.accessCount = 0 ↔ inode.data = none)

theorem FileSys.Wf.shows {s : FileSys} (h : s.Wf) : Shows s s.flat :=
  ⟨h.cache, rfl, rfl, rfl, fun _ => rfl, h.loaded, fun _ _ => rfl⟩

namespace Shows

variable {s : FileSys} {d : FlatFs} {t : Nat} {inode : Inode}

/-- The `struct inode` behind a handle. -/
theorem getInode (h : Shows s d) (hi : d.inodes t = some inode) :
    ∃ i, s.inodes t = some i ∧ i.handle = inode := by
  have hmap := h.inodes t
  rw [hi] at hmap
  exact Option.map_eq_some_iff.mp hmap

theorem cur_of_loaded (h : Shows s d) {i : Inode} (hi : s.inodes t = some i)
    (hloaded : i.accessCount ≠ 0) (ht : t < d.size) : i.data = some (d.cur t) := by
  have hcur := h.cur t ht
  cases hdata : i.data with
  | none => exact absurd ((h.loaded t i hi).mpr hdata) hloaded
  | some data => simpa [FileSys.cur, hi, hdata] using hcur

theorem view_of_unloaded (h : Shows s d) (ht : t < d.size)
    (hu : ∀ i, d.inodes t = some i → i.accessCount = 0) : s.cache.view t = d.cur t := by
  have hcur := h.cur t ht
  cases hi : s.inodes t with
  | none => simpa [FileSys.cur, hi] using hcur
  | some i =>
    have hd : d.inodes t = some i.handle := by rw [← h.inodes t, hi]; rfl
    have hdata : i.data = none := (h.loaded t i hi).mp (hu i.handle hd)
    simpa [FileSys.cur, hi, hdata] using hcur

/-- A cache that shows the same sectors. -/
theorem sees (h : Shows s d) {cache : Cache} (hsees : s.cache.Sees cache) :
    Shows { s with cache } d where
  wf := hsees.wf
  size := hsees.size.trans h.size
  freeMap := h.freeMap
  freeMapFile := h.freeMapFile
  inodes := h.inodes
  loaded := h.loaded
  cur t ht := by
    rw [← h.cur t ht]
    have hview := hsees.view t (by rwa [h.size])
    simp only [FileSys.cur, hview]

/-- A cache in which a sector that is not loaded was written. -/
theorem wrote (h : Shows s d) {cache : Cache} {data : SectorData} (ht : t < d.size)
    (hu : ∀ i, d.inodes t = some i → i.accessCount = 0) (hwrote : s.cache.Wrote t data cache) :
    Shows { s with cache } (d.setCur t data) where
  wf := hwrote.wf
  size := hwrote.size.trans h.size
  freeMap := h.freeMap
  freeMapFile := h.freeMapFile
  inodes := h.inodes
  loaded := h.loaded
  cur u hu' := by
    by_cases hut : u = t
    · subst hut
      rw [FlatFs.setCur_cur, Function.update_self]
      cases hi : s.inodes u with
      | none => simp [FileSys.cur, hi, hwrote.view_self]
      | some i =>
        have hd : d.inodes u = some i.handle := by rw [← h.inodes u, hi]; rfl
        have hdata : i.data = none := (h.loaded u i hi).mp (hu i.handle hd)
        simp [FileSys.cur, hi, hdata, hwrote.view_self]
    · rw [FlatFs.setCur_cur, Function.update_of_ne hut, ← h.cur u hu']
      have hview := hwrote.view_ne u (by rwa [h.size]) hut
      simp only [FileSys.cur, hview]

/-- A cache in which a sector was written with what it holds. -/
theorem rewrote (h : Shows s d) {cache : Cache} (ht : t < d.size)
    (hwrote : s.cache.Wrote t (d.cur t) cache) : Shows { s with cache } d where
  wf := hwrote.wf
  size := hwrote.size.trans h.size
  freeMap := h.freeMap
  freeMapFile := h.freeMapFile
  inodes := h.inodes
  loaded := h.loaded
  cur u hu := by
    by_cases hut : u = t
    · subst hut
      have hcur := h.cur u hu
      cases hi : s.inodes u with
      | none => simp [FileSys.cur, hi, hwrote.view_self]
      | some i =>
        cases hdata : i.data with
        | none => simp [FileSys.cur, hi, hdata, hwrote.view_self]
        | some data => simpa [FileSys.cur, hi, hdata] using hcur
    · have hview := hwrote.view_ne u (by rwa [h.size]) hut
      rw [← h.cur u hu]
      simp only [FileSys.cur, hview]

/-- A `struct inode` replaced by one that has the same data. -/
theorem setInode (h : Shows s d) {i : Inode} (hloaded : i.accessCount = 0 ↔ i.data = none)
    (hcur : t < d.size → i.data.getD (s.cache.view t) = d.cur t) :
    Shows { s with inodes := Function.update s.inodes t (some i) } (d.setInode t i.handle) where
  wf := h.wf
  size := h.size
  freeMap := h.freeMap
  freeMapFile := h.freeMapFile
  inodes u := by
    by_cases hut : u = t
    · subst hut
      simp
    · simpa [hut] using h.inodes u
  loaded u j hj := by
    dsimp only at hj
    by_cases hut : u = t
    · subst hut
      rw [Function.update_self] at hj
      obtain rfl := Option.some.inj hj
      exact hloaded
    · rw [Function.update_of_ne hut] at hj
      exact h.loaded u j hj
  cur u hu := by
    by_cases hut : u = t
    · subst hut
      simpa [FileSys.cur] using hcur hu
    · have hcur' := h.cur u hu
      simpa [FileSys.cur, hut] using hcur'

end Shows

/-! ### The basic functions -/

variable {d d' : FlatFs} {t : Nat} {inode : Inode}

/-- The sector is not loaded as an inode. -/
def FlatFs.Unloaded (d : FlatFs) (t : Nat) : Prop :=
  ∀ inode, d.inodes t = some inode → inode.accessCount = 0

/-- A write to a sector that is not loaded. -/
theorem runs_write {offset : Nat} {buffer : List UInt8} (ht : t < d.size) (hu : d.Unloaded t)
    (ho : offset + buffer.length ≤ 512) :
    Runs Shows (onCache (bcBlockWrite t buffer offset false)) d ()
      (d.setCur t ((d.cur t).copyIn offset buffer)) := by
  intro s hs
  obtain ⟨cache, hrun, hwrote⟩ := bcBlockWrite_spec hs.wf (by rwa [hs.size]) ho
  rw [hs.view_of_unloaded ht hu] at hwrote
  exact ⟨{ s with cache }, by rw [onCache, hrun], hs.wrote ht hu hwrote⟩

/-- A whole sector is written. -/
theorem runs_write_sector {data : SectorData} (ht : t < d.size) (hu : d.Unloaded t) :
    Runs Shows (onCache (bcBlockWrite t (data.copyOut 0 blockSectorSize) 0 false)) d ()
      (d.setCur t data) := by
  have h := runs_write ht hu
    (show 0 + (data.copyOut 0 blockSectorSize).length ≤ 512 by simp [blockSectorSize])
  rwa [blockSectorSize, SectorData.copyIn_copyOut] at h

/-- What follows `getInode` may use the fields of the handle. -/
theorem runs_getInode_bind {β : Type} {f : Inode → FsRoutine β} {b : β}
    (hi : d.inodes t = some inode)
    (h : ∀ i, i.handle = inode → Runs Shows (f i) d b d') :
    Runs Shows (getInode t >>= f) d b d' := by
  intro s hs
  obtain ⟨i, hsi, hhandle⟩ := hs.getInode hi
  have hget : getInode t s = .ok (i, s) := by
    rw [getInode, Routine.get_bind_apply, hsi]
    rfl
  rw [Routine.bind_of_ok hget]
  exact h i hhandle s hs

theorem runs_getData (hi : d.inodes t = some inode) (hloaded : inode.accessCount ≠ 0)
    (ht : t < d.size) : Runs Shows (getData t) d (d.cur t) d := by
  intro s hs
  obtain ⟨i, hsi, rfl⟩ := hs.getInode hi
  have hdata := hs.cur_of_loaded hsi hloaded ht
  refine ⟨s, ?_, hs⟩
  have hget : getInode t s = .ok (i, s) := by
    rw [getInode, Routine.get_bind_apply, hsi]
    rfl
  rw [getData, Routine.bind_of_ok hget, hdata]
  rfl

theorem getInode_of_some {s : FileSys} {i : Inode} (h : s.inodes t = some i) :
    getInode t s = .ok (i, s) := by
  rw [getInode, Routine.get_bind_apply, h]
  rfl

theorem setInode_apply (s : FileSys) (i : Inode) :
    setInode t i s = .ok ((), { s with inodes := Function.update s.inodes t (some i) }) := rfl

/-- The data of an open inode are those that are shown. -/
theorem Shows.getD (h : Shows s d) {i : Inode} (hi : s.inodes t = some i) (ht : t < d.size) :
    i.data.getD (s.cache.view t) = d.cur t := by
  rw [← h.cur t ht, FileSys.cur, hi]

/-- The `struct inode` of an open inode changes in fields other than its data. -/
theorem runs_updateInode {f : Inode → Inode} (hi : d.inodes t = some inode)
    (hdata : ∀ i, (f i).data = i.data) (haccess : ∀ i, (f i).accessCount = i.accessCount)
    (hhandle : ∀ i, (f i).handle = f i.handle) :
    Runs Shows (getInode t >>= fun i => setInode t (f i)) d () (d.setInode t (f inode)) := by
  intro s hs
  obtain ⟨i, hsi, rfl⟩ := hs.getInode hi
  rw [Routine.bind_of_ok (getInode_of_some hsi), setInode_apply, ← hhandle]
  refine ⟨_, rfl, hs.setInode ?_ fun ht => ?_⟩
  · rw [haccess, hdata]
    exact hs.loaded t i hsi
  · rw [hdata]
    exact hs.getD hsi ht

/-- `inode->data` is changed. -/
theorem runs_setData {data : InodeDisk} (hi : d.inodes t = some inode)
    (hloaded : inode.accessCount ≠ 0) : Runs Shows (setData t data) d () (d.setCur t data) := by
  intro s hs
  obtain ⟨i, hsi, rfl⟩ := hs.getInode hi
  rw [setData, Routine.bind_of_ok (getInode_of_some hsi), setInode_apply]
  refine ⟨_, rfl, hs.wf, hs.size, hs.freeMap, hs.freeMapFile, fun u => ?_, fun u j hj => ?_,
    fun u hu => ?_⟩
  · by_cases hut : u = t
    · subst hut
      simp [← hs.inodes u, hsi, Inode.handle]
    · simpa [hut] using hs.inodes u
  · dsimp only at hj
    by_cases hut : u = t
    · subst hut
      rw [Function.update_self] at hj
      obtain rfl := Option.some.inj hj
      exact iff_of_false hloaded nofun
    · rw [Function.update_of_ne hut] at hj
      exact hs.loaded u j hj
  · by_cases hut : u = t
    · subst hut
      simp [FileSys.cur]
    · have hcur := hs.cur u hu
      simpa [FileSys.cur, hut] using hcur

/-- The `struct inode` that `inode_open` leaves for an inode that was open as told. -/
def Inode.opened : Option Inode → Inode
  | some inode => { inode with openCnt := inode.openCnt + 1 }
  | none =>
    { openCnt := 1, removed := false, denyWriteCnt := 0, data := none, accessCount := 0,
      logicalLength := -1 }

theorem runs_inodeOpen (d : FlatFs) (t : Nat) :
    Runs Shows (inodeOpen t) d () (d.setInode t (Inode.opened (d.inodes t))) := by
  intro s hs
  cases hsi : s.inodes t with
  | none =>
    have hd : d.inodes t = none := by rw [← hs.inodes t, hsi]; rfl
    rw [inodeOpen, Routine.get_bind_apply, hsi, hd]
    refine ⟨_, rfl, hs.setInode (i := Inode.opened none) (iff_of_true rfl rfl) fun ht => ?_⟩
    rw [← hs.cur t ht, FileSys.cur, hsi]
    rfl
  | some i =>
    have hd : d.inodes t = some i.handle := by rw [← hs.inodes t, hsi]; rfl
    rw [inodeOpen, Routine.get_bind_apply, hsi, hd]
    refine ⟨_, rfl, hs.setInode (i := Inode.opened (some i)) (hs.loaded t i hsi) fun ht => ?_⟩
    exact show i.data.getD (s.cache.view t) = d.cur t from hs.getD hsi ht

/-- The `struct inode` after `inode_load_disk`, where `data` are the contents of its sector. -/
def Inode.load (inode : Inode) (data : InodeDisk) : Inode :=
  { inode with
    accessCount := inode.accessCount + 1
    logicalLength :=
      if inode.accessCount = 0 ∧ inode.logicalLength = -1 then InodeDisk.length data
      else inode.logicalLength }

theorem runs_inodeLoadDisk (hi : d.inodes t = some inode) (ht : t < d.size) :
    Runs Shows (inodeLoadDisk t) d () (d.setInode t (inode.load (d.cur t))) := by
  intro s hs
  obtain ⟨i, hsi, rfl⟩ := hs.getInode hi
  have hloaded := hs.loaded t i hsi
  rw [inodeLoadDisk, Routine.bind_of_ok (getInode_of_some hsi)]
  by_cases haccess : i.accessCount = 0
  · have hdata := hloaded.mp haccess
    have hu : d.Unloaded t := fun j hj => by
      obtain rfl := Option.some.inj (hi.symm.trans hj)
      exact haccess
    obtain ⟨cache, hrun, hsees⟩ :=
      bcBlockRead_spec hs.wf (by rw [hs.size]; exact ht)
        (show 0 + blockSectorSize ≤ 512 by simp [blockSectorSize])
    rw [hs.view_of_unloaded ht hu] at hrun
    have hload : onCache (i.loadDisk t) s =
        .ok ({ i.load (d.cur t) with data := some (d.cur t) }, { s with cache }) := by
      rw [onCache, Inode.loadDisk, if_neg (by simp [hdata])]
      beta_reduce
      rw [if_pos haccess, Routine.bind_of_ok hrun]
      simp [blockSectorSize, SectorData.copyIn_copyOut, Inode.load, haccess]
    rw [Routine.bind_of_ok hload, setInode_apply]
    exact ⟨_, rfl, (hs.sees hsees).setInode
      (i := { i.load (d.cur t) with data := some (d.cur t) }) (by simp [Inode.load])
      fun _ => rfl⟩
  · have hload : onCache (i.loadDisk t) s = .ok (i.load (d.cur t), s) := by
      rw [onCache, Inode.loadDisk, if_neg (by simp [haccess])]
      beta_reduce
      rw [if_neg haccess]
      simp [Inode.load, haccess]
    rw [Routine.bind_of_ok hload, setInode_apply]
    refine ⟨_, rfl, hs.setInode (i := i.load (d.cur t)) ?_ fun ht' => ?_⟩
    · exact iff_of_false (Nat.succ_ne_zero _) fun hnone => haccess (hloaded.mpr hnone)
    · exact show i.data.getD (s.cache.view t) = d.cur t from hs.getD hsi ht'

theorem runs_inodeReleaseDisk (hi : d.inodes t = some inode) (hloaded : inode.accessCount ≠ 0)
    (ht : t < d.size) :
    Runs Shows (inodeReleaseDisk t) d ()
      (d.setInode t { inode with accessCount := inode.accessCount - 1 }) := by
  intro s hs
  obtain ⟨i, hsi, rfl⟩ := hs.getInode hi
  change i.accessCount ≠ 0 at hloaded
  have hdata := hs.cur_of_loaded hsi hloaded ht
  rw [inodeReleaseDisk, Routine.bind_of_ok (getInode_of_some hsi)]
  by_cases hlast : i.accessCount = 1
  · obtain ⟨cache, hrun, hwrote⟩ :=
      bcBlockWrite_spec hs.wf (by rw [hs.size]; exact ht)
        (show 0 + ((d.cur t).copyOut 0 blockSectorSize).length ≤ 512 by simp [blockSectorSize])
    rw [blockSectorSize, SectorData.copyIn_copyOut] at hwrote
    have hrelease : onCache (i.releaseDisk t) s =
        .ok ({ i with data := none, accessCount := 0 }, { s with cache }) := by
      rw [onCache, Inode.releaseDisk, if_neg hloaded]
      beta_reduce
      rw [if_pos hlast, hdata]
      dsimp only
      rw [Routine.bind_of_ok hrun]
      rfl
    rw [Routine.bind_of_ok hrelease, setInode_apply]
    have hs' := hs.rewrote ht hwrote
    have hview : cache.view t = d.cur t := hwrote.view_self
    refine ⟨_, rfl, ?_⟩
    have hset := hs'.setInode (t := t) (i := { i with data := none, accessCount := 0 })
      (iff_of_true rfl rfl) fun _ => hview
    simpa [Inode.handle, hlast] using hset
  · have hrelease : onCache (i.releaseDisk t) s =
        .ok ({ i with accessCount := i.accessCount - 1 }, s) := by
      rw [onCache, Inode.releaseDisk, if_neg hloaded]
      beta_reduce
      rw [if_neg hlast]
      rfl
    rw [Routine.bind_of_ok hrelease, setInode_apply]
    refine ⟨_, rfl, hs.setInode (i := { i with accessCount := i.accessCount - 1 }) ?_ fun ht' => ?_⟩
    · have hmore : i.accessCount - 1 ≠ 0 := by omega
      exact iff_of_false hmore (by simp [hdata])
    · exact show i.data.getD (s.cache.view t) = d.cur t from hs.getD hsi ht'

end Pintos
