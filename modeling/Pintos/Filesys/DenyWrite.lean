import Pintos.Filesys.FlatFs
import Pintos.Filesys.InodeFrame

/-! The counters of open inodes, how each function moves them, and what `inode_write_at` does where
`deny_write_cnt` is not 0. -/

namespace Pintos

open Routine

/-! ### The counters of an inode -/

namespace FileSys

/-- `open_cnt` of the inode of a sector, which is 0 where it is not open. -/
def openCnt (s : FileSys) (t : Nat) : Nat := (s.inodes t).elim 0 Inode.openCnt

/-- `deny_write_cnt` of the inode of a sector. -/
def denyWriteCnt (s : FileSys) (t : Nat) : Nat := (s.inodes t).elim 0 Inode.denyWriteCnt

end FileSys

variable {fs fs' : FileSys} {t u : Nat} {i i' : Inode} {calls : FreeMapCalls}

theorem FileSys.openCnt_of_some (h : fs.inodes t = some i) : fs.openCnt t = i.openCnt := by
  rw [FileSys.openCnt, h]
  rfl

theorem FileSys.denyWriteCnt_of_some (h : fs.inodes t = some i) :
    fs.denyWriteCnt t = i.denyWriteCnt := by
  rw [FileSys.denyWriteCnt, h]
  rfl

theorem Held.openCnt_le (h : Held fs fs') (t : Nat) : fs.openCnt t ≤ fs'.openCnt t := by
  cases hi : fs.inodes t with
  | none =>
    rw [FileSys.openCnt, hi]
    exact Nat.zero_le _
  | some i =>
    obtain ⟨i', hi', -, hle⟩ := h.inodes t i hi
    rw [FileSys.openCnt_of_some hi, FileSys.openCnt_of_some hi']
    exact hle

theorem Held.denyWriteCnt_eq (h : Held fs fs') (t : Nat) :
    fs'.denyWriteCnt t = fs.denyWriteCnt t := by
  cases hi : fs.inodes t with
  | none =>
    rw [FileSys.denyWriteCnt, FileSys.denyWriteCnt, hi]
    cases hi' : fs'.inodes t with
    | none => rfl
    | some i' => exact h.opened t i' hi hi'
  | some i =>
    obtain ⟨i', hi', hdeny, -⟩ := h.inodes t i hi
    rw [FileSys.denyWriteCnt_of_some hi, FileSys.denyWriteCnt_of_some hi', hdeny]

/-- The counters of the inode of sector `t` move by these numbers, and no others lose references or
change their denials. -/
structure Recounted (t opened closed denied allowed : Nat) (fs fs' : FileSys) : Prop where
  openCnt : fs.openCnt t + opened ≤ fs'.openCnt t + closed
  denyWriteCnt : fs'.denyWriteCnt t + allowed = fs.denyWriteCnt t + denied
  others : ∀ u ≠ t, fs.openCnt u ≤ fs'.openCnt u ∧ fs'.denyWriteCnt u = fs.denyWriteCnt u
  sound : fs.Sound → fs'.Sound

theorem Held.recounted (h : Held fs fs') (t : Nat) : Recounted t 0 0 0 0 fs fs' :=
  ⟨h.openCnt_le t, h.denyWriteCnt_eq t, fun u _ => ⟨h.openCnt_le u, h.denyWriteCnt_eq u⟩, h.sound⟩

/-- What keeps the counters comes after a change. -/
theorem Recounted.held {opened closed denied allowed : Nat} {fs1 : FileSys}
    (h : Recounted t opened closed denied allowed fs fs1) (hheld : Held fs1 fs') :
    Recounted t opened closed denied allowed fs fs' where
  openCnt := h.openCnt.trans (Nat.add_le_add_right (hheld.openCnt_le t) _)
  denyWriteCnt := by
    rw [hheld.denyWriteCnt_eq]
    exact h.denyWriteCnt
  others u hu := by
    rw [hheld.denyWriteCnt_eq]
    exact ⟨(h.others u hu).1.trans (hheld.openCnt_le u), (h.others u hu).2⟩
  sound hs := hheld.sound (h.sound hs)

theorem setInode_openCnt (fs : FileSys) (t : Nat) (i : Inode) (u : Nat) :
    ({ fs with inodes := Function.update fs.inodes t (some i) } : FileSys).openCnt u =
      if u = t then i.openCnt else fs.openCnt u := by
  unfold FileSys.openCnt
  split_ifs with hu
  · rw [hu]
    dsimp only
    rw [Function.update_self]
    rfl
  · dsimp only
    rw [Function.update_of_ne hu]

theorem setInode_denyWriteCnt (fs : FileSys) (t : Nat) (i : Inode) (u : Nat) :
    ({ fs with inodes := Function.update fs.inodes t (some i) } : FileSys).denyWriteCnt u =
      if u = t then i.denyWriteCnt else fs.denyWriteCnt u := by
  unfold FileSys.denyWriteCnt
  split_ifs with hu
  · rw [hu]
    dsimp only
    rw [Function.update_self]
    rfl
  · dsimp only
    rw [Function.update_of_ne hu]

/-- A `struct inode` changes in its counters. -/
theorem recounted_setInode {opened closed denied allowed : Nat} (hi : fs.inodes t = some i)
    (hopen : i.openCnt + opened ≤ i'.openCnt + closed)
    (hdeny : i'.denyWriteCnt + allowed = i.denyWriteCnt + denied)
    (hloaded : (i.accessCount = 0 ↔ i.data = none) → (i'.accessCount = 0 ↔ i'.data = none)) :
    Recounted t opened closed denied allowed fs
      { fs with inodes := Function.update fs.inodes t (some i') } where
  openCnt := by
    rw [setInode_openCnt, if_pos rfl, FileSys.openCnt_of_some hi]
    exact hopen
  denyWriteCnt := by
    rw [setInode_denyWriteCnt, if_pos rfl, FileSys.denyWriteCnt_of_some hi]
    exact hdeny
  others u hu := by
    rw [setInode_openCnt, if_neg hu, setInode_denyWriteCnt, if_neg hu]
    exact ⟨le_rfl, rfl⟩
  sound h := h.setInode (hloaded (h.loaded t i hi))

theorem inodeOpen_recounted (h : inodeOpen t fs = .ok ((), fs')) :
    Recounted t 1 0 0 0 fs fs' := by
  rw [inodeOpen, get_bind_apply] at h
  cases hi : fs.inodes t with
  | some i =>
    rw [hi] at h
    cases h
    exact recounted_setInode hi le_rfl rfl id
  | none =>
    rw [hi] at h
    cases h
    refine ⟨?_, ?_, fun u hu => ?_, fun h => h.setInode (iff_of_true rfl rfl)⟩
    · rw [setInode_openCnt, if_pos rfl, FileSys.openCnt, hi]
      exact le_rfl
    · rw [setInode_denyWriteCnt, if_pos rfl, FileSys.denyWriteCnt, hi]
      rfl
    · rw [setInode_openCnt, if_neg hu, setInode_denyWriteCnt, if_neg hu]
      exact ⟨le_rfl, rfl⟩

/-- The last reference to an inode may be closed where no writes to it are denied. -/
theorem inodeClose_recounted (hcalls : calls.KeepInodes)
    (hlast : fs.openCnt t = 1 → fs.denyWriteCnt t = 0)
    (h : inodeClose calls t fs = .ok ((), fs')) : Recounted t 0 1 0 0 fs fs' := by
  obtain ⟨i, fs1, hget, hrest⟩ := bind_ok.mp h
  obtain ⟨rfl, hi⟩ := getInode_ok hget
  dsimp only at hrest
  by_cases hone : i.openCnt = 1
  · rw [if_pos hone] at hrest
    obtain ⟨⟨⟩, fs2, hmodify, hfree⟩ := bind_ok.mp hrest
    cases hmodify
    have hdrop : Recounted t 0 1 0 0 fs1
        { fs1 with inodes := Function.update fs1.inodes t none } := by
      refine ⟨?_, ?_, fun u hu => ?_, fun h => ⟨h.cache, fun u j hj => ?_⟩⟩
      · rw [FileSys.openCnt_of_some hi, hone, Nat.add_zero]
        exact Nat.le_add_left ..
      · rw [hlast ((FileSys.openCnt_of_some hi).trans hone), FileSys.denyWriteCnt]
        dsimp only
        rw [Function.update_self]
        rfl
      · rw [FileSys.openCnt, FileSys.openCnt, FileSys.denyWriteCnt, FileSys.denyWriteCnt]
        dsimp only
        rw [Function.update_of_ne hu]
        exact ⟨le_rfl, rfl⟩
      · by_cases hut : u = t
        · rw [hut] at hj
          dsimp only at hj
          rw [Function.update_self] at hj
          nomatch hj
        · exact h.loaded u j ((Function.update_of_ne hut ..).symm.trans hj)
    have hcache : ∀ {α : Type} {m : CacheRoutine α},
        Keeps (fun c c' => c.Sound → c'.Sound) m → Keeps Held (onCache m) := onCache_held
    have hload : ∀ j : Inode, Keeps (fun c c' => c.Sound → c'.Sound) (j.loadDisk t) :=
      fun _ _ _ _ hrun => (loadDisk_ok hrun).1
    have hrelease : ∀ j : Inode, Keeps (fun c c' => c.Sound → c'.Sound) (j.releaseDisk t) :=
      fun _ _ _ _ hrun => (releaseDisk_ok hrun).1
    split_ifs at hfree with hremoved
    · obtain ⟨⟨start, length, j⟩, fs3, hextent, hfree⟩ := bind_ok.mp hfree
      obtain ⟨⟨⟩, fs4, hdata, hfree⟩ := bind_ok.mp hfree
      obtain ⟨k, fs5, hdone, hpure⟩ := bind_ok.mp hfree
      cases hpure
      obtain ⟨⟨⟩, fs6, hsector, hextent⟩ := bind_ok.mp hextent
      obtain ⟨j', fs7, hloaded, hextent⟩ := bind_ok.mp hextent
      have hkept : fs3 = fs7 := by
        cases hj : j'.data with
        | none =>
          rw [hj] at hextent
          nomatch hextent
        | some data =>
          rw [hj] at hextent
          exact (Prod.mk.inj (Except.ok.inj hextent)).2.symm
      subst hkept
      have hsector := hcalls.release _ _ _ _ _ hsector
      have hloaded := hcache (hload _) _ _ _ hloaded
      have hdata := hcalls.release _ _ _ _ _ hdata
      have hdone := hcache (hrelease _) _ _ _ hdone
      exact hdrop.held (((hsector.trans hloaded).trans hdata).trans hdone)
    · cases hfree
      exact hdrop
  · rw [if_neg hone] at hrest
    cases hrest
    exact recounted_setInode hi (Nat.le_add_of_sub_le le_rfl) rfl id

/-! ### A write that is refused -/

/-- A routine that only changes the cache and the `struct inode` of `t`, and shows the same. -/
theorem cur_setInode {cache : Cache} (hi : fs.inodes t = some i)
    (hself : t ≠ emptySector → i'.data.getD (cache.view t) = i.data.getD (fs.cache.view t))
    (hothers : ∀ u, u ≠ emptySector → u ≠ t → cache.view u = fs.cache.view u) (hu : u ≠ emptySector) :
    FileSys.cur { fs with cache, inodes := Function.update fs.inodes t (some i') } u = fs.cur u := by
  unfold FileSys.cur
  dsimp only
  by_cases hut : u = t
  · rw [hut] at hu ⊢
    rw [Function.update_self, hi]
    exact hself hu
  · rw [Function.update_of_ne hut, hothers u hu hut]

/-- A `struct inode` of sector `t` shows in `c'` what it shows in `c`, and so do the other sectors. -/
structure ShowsSame (t : Nat) (i : Inode) (c : Cache) (i' : Inode) (c' : Cache) : Prop where
  self : t ≠ emptySector → i'.data.getD (c'.view t) = i.data.getD (c.view t)
  others : ∀ u, u ≠ emptySector → u ≠ t → c'.view u = c.view u

theorem loadDisk_showsSame {c c' : Cache} (hc : c.Sound) (h : i.loadDisk t c = .ok (i', c')) :
    ShowsSame t i c i' c' := by
  by_cases hassert : i.accessCount ≠ 0 ∨ i.data.isNone
  · rw [Inode.loadDisk, if_neg (not_not.mpr hassert)] at h
    by_cases haccess : i.accessCount = 0
    · beta_reduce at h
      rw [if_pos haccess] at h
      obtain ⟨bytes, c1, hread, hrest⟩ := bind_ok.mp h
      obtain ⟨hi', hc'⟩ := Prod.mk.inj (Except.ok.inj hrest)
      rw [← hi', ← hc']
      obtain ⟨hsame, hbytes⟩ := bcBlockRead_ok hc hread
      refine ⟨fun ht => ?_, fun u hu _ => hsame.view u hu⟩
      have hnone := Option.isNone_iff_eq_none.mp (hassert.resolve_left (not_not.mpr haccess))
      simp only [hnone, hbytes ht, Option.getD_some, Option.getD_none, blockSectorSize,
        SectorData.copyIn_copyOut]
    · beta_reduce at h
      rw [if_neg haccess] at h
      cases h
      exact ⟨fun _ => rfl, fun _ _ _ => rfl⟩
  · rw [Inode.loadDisk, if_pos hassert] at h
    cases h

theorem releaseDisk_showsSame {c c' : Cache} (hc : c.Sound)
    (h : i.releaseDisk t c = .ok (i', c')) : ShowsSame t i c i' c' := by
  by_cases hzero : i.accessCount = 0
  · rw [Inode.releaseDisk, if_pos hzero] at h
    cases h
  · rw [Inode.releaseDisk, if_neg hzero] at h
    by_cases hlast : i.accessCount = 1
    · beta_reduce at h
      rw [if_pos hlast] at h
      cases hdata : i.data with
      | none =>
        rw [hdata] at h
        cases h
      | some data =>
        rw [hdata] at h
        obtain ⟨⟨⟩, c1, hwrite, hrest⟩ := bind_ok.mp h
        cases hrest
        have hput := bcBlockWrite_ok hc hwrite
        refine ⟨fun ht => ?_, hput.others⟩
        have hself := hput.self ht
        rw [blockSectorSize, SectorData.copyIn_copyOut] at hself
        rw [hdata]
        exact hself
    · beta_reduce at h
      rw [if_neg hlast] at h
      cases h
      exact ⟨fun _ => rfl, fun _ _ _ => rfl⟩

/-- A routine that takes a `struct inode` through the cache shows the same in all sectors. -/
theorem throughCache_cur {m : Inode → CacheRoutine Inode} (hs : fs.Sound)
    (hm : ∀ i i' c', m i fs.cache = .ok (i', c') → ShowsSame t i fs.cache i' c')
    (h : (do setInode t (← onCache (m (← getInode t)))) fs = .ok ((), fs')) (hu : u ≠ emptySector) :
    fs'.cur u = fs.cur u := by
  obtain ⟨i, fs1, hget, hrest⟩ := bind_ok.mp h
  obtain ⟨rfl, hi⟩ := getInode_ok hget
  obtain ⟨i', fs2, hcache, hset⟩ := bind_ok.mp hrest
  cases hset
  unfold onCache at hcache
  split at hcache
  · rename_i i' cache hok
    cases hcache
    have hsame := hm _ _ _ hok
    exact cur_setInode hi hsame.self hsame.others hu
  · nomatch hcache

variable {buffer : List UInt8} {offset : Int} {n : Nat}

theorem getInode_of_inodes (hi : fs.inodes t = some i) : getInode t fs = .ok (i, fs) := by
  rw [getInode, get_bind_apply, hi]
  rfl

/-- The loop of `inode_write_at` ends at once where writes are denied. -/
theorem inodeWriteLoop_refused (hi : fs.inodes t = some i) (hdeny : i.denyWriteCnt ≠ 0)
    (fuel : Nat) : inodeWriteLoop calls t fuel buffer offset fs = .ok (0, fs) := by
  cases fuel with
  | zero => rfl
  | succ fuel =>
    rw [inodeWriteLoop, bind_of_ok (getInode_of_inodes hi), if_neg fun h => hdeny h.2]
    rfl

/-- `inode_write_at` returns 0 and leaves all bytes and lengths as they are where writes are denied. -/
theorem inodeWriteAt_refused (hs : fs.Sound) (hdeny : fs.denyWriteCnt t ≠ 0)
    (hrun : inodeWriteAt calls t buffer offset fs = .ok (n, fs')) :
    n = 0 ∧ ∀ u, u ≠ emptySector → fs'.cur u = fs.cur u := by
  obtain ⟨⟨⟩, fs1, hload, hrest⟩ := bind_ok.mp hrun
  have hheld := inodeLoadDisk_held t _ _ _ hload
  obtain ⟨i1, hi1, hdeny1⟩ : ∃ i1, fs1.inodes t = some i1 ∧ i1.denyWriteCnt ≠ 0 := by
    cases hi : fs.inodes t with
    | none =>
      rw [FileSys.denyWriteCnt, hi] at hdeny
      exact absurd rfl hdeny
    | some i =>
      obtain ⟨i1, hi1, hsame, -⟩ := hheld.inodes t i hi
      rw [FileSys.denyWriteCnt_of_some hi] at hdeny
      exact ⟨i1, hi1, hsame ▸ hdeny⟩
  rw [bind_of_ok (inodeWriteLoop_refused hi1 hdeny1 _)] at hrest
  obtain ⟨⟨⟩, fs2, hrelease, hpure⟩ := bind_ok.mp hrest
  cases hpure
  refine ⟨rfl, fun u hu => ?_⟩
  rw [throughCache_cur (hheld.sound hs)
    (fun _ _ _ h => releaseDisk_showsSame (hheld.sound hs).cache h) hrelease hu]
  exact throughCache_cur hs (fun _ _ _ h => loadDisk_showsSame hs.cache h) hload hu

/-- It does return, where the cache has sectors of the device only. -/
theorem inodeWriteAt_returns (hs : fs.Sound) (hwf : fs.cache.Wf) (ht : t < fs.cache.fsDevice.size)
    (hdeny : fs.denyWriteCnt t ≠ 0) (buffer : List UInt8) (offset : Int) :
    ∃ fs', inodeWriteAt calls t buffer offset fs = .ok (0, fs') := by
  have hshows := FileSys.Wf.shows ⟨hwf, hs.loaded⟩
  cases hi : fs.inodes t with
  | none =>
    rw [FileSys.denyWriteCnt, hi] at hdeny
    exact absurd rfl hdeny
  | some i =>
    rw [FileSys.denyWriteCnt_of_some hi] at hdeny
    have hd : fs.flat.inodes t = some i.handle := by
      rw [← hshows.inodes t, hi]
      rfl
    obtain ⟨fs1, hload, hshows1⟩ := runs_inodeLoadDisk hd ht fs hshows
    have hd1 : (fs.flat.setInode t (i.handle.load (fs.flat.cur t))).inodes t =
        some (i.handle.load (fs.flat.cur t)) := Function.update_self ..
    obtain ⟨i1, hi1, hhandle⟩ := hshows1.getInode hd1
    have hdeny1 : i1.handle.denyWriteCnt = i.denyWriteCnt := by
      rw [hhandle]
      rfl
    obtain ⟨fs2, hrelease, -⟩ := runs_inodeReleaseDisk hd1 (Nat.succ_ne_zero _) ht fs1 hshows1
    refine ⟨fs2, ?_⟩
    rw [inodeWriteAt, bind_of_ok hload,
      bind_of_ok (inodeWriteLoop_refused hi1 (fun hzero => hdeny (hdeny1.symm.trans hzero)) _),
      bind_of_ok hrelease]
    rfl

end Pintos
