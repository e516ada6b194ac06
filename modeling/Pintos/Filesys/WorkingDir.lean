import Pintos.Filesys.HandlePaths

/-! Working directories: `change_directory` gives a thread a `struct dir` of its own, but a new
thread shares its creator's, and `cwd_cnt` counts neither the new thread nor one that exits. -/

namespace Pintos

namespace Handles

open Routine (wp)
open State

variable {env : Nat → Draw} {fuel : Nat} {w w0 w' : State} {e e' : Nat → Nat}
  {d p q s t newDir oldDir : Nat} {dir : Dir} {inode inode' : Inode} {path : List UInt8}

namespace State

/-- The inode of a thread's working directory. -/
def cwdInode (w : State) (t : Nat) : Option Nat := (w.currDir t).bind w.dirInode

/-- `cwd_cnt`, which is 0 for a new inode. -/
def cwdCnt (w : State) (p : Nat) : Int :=
  match w.inodes p with
  | some inode => inode.cwdCnt
  | none => 0

theorem Inherits.cwdCnt (h : Inherits w w') (hcounted : Counted w e)
    (hp : w'.inodes p = some inode) : inode.cwdCnt = w.cwdCnt p := by
  rcases h.inodes p inode hp with ⟨i, hi, -, hcwd⟩ | ⟨hle, hzero⟩
  · rw [State.cwdCnt, hi, hcwd]
  · rw [State.cwdCnt, (hcounted.fresh p hle).1, hzero]

/-- Nothing but thread `t` holds the `struct dir`. -/
def HeldOnlyBy (w : State) (d t : Nat) : Prop :=
  (∀ fd ∈ w.openFiles, fd.opened ≠ .openDir d) ∧ ∀ t' ∈ w.threads, w.currDir t' = some d → t' = t

end State

theorem card_filter_insert_erase {P : Nat → Prop} [DecidablePred P] {held : Finset Nat} {a b : Nat}
    (ha : a ∉ held) (hb : b ∈ held) :
    ((insert a (held.erase b)).filter P).card + (if P b then 1 else 0) =
      (held.filter P).card + if P a then 1 else 0 := by
  have ha' : a ∉ (held.erase b).filter P := fun h => ha (Finset.mem_of_mem_erase
    (Finset.mem_filter.mp h).1)
  rw [Finset.filter_insert, Finset.filter_erase]
  rw [Finset.filter_erase] at ha'
  by_cases hPb : P b
  · have hmem : b ∈ held.filter P := Finset.mem_filter.mpr ⟨hb, hPb⟩
    have hcard := Finset.card_erase_add_one hmem
    rw [if_pos hPb]
    by_cases hPa : P a
    · rw [if_pos hPa, if_pos hPa, Finset.card_insert_of_notMem ha']
      omega
    · rw [if_neg hPa, if_neg hPa]
      omega
  · have hnot : b ∉ held.filter P := fun h => hPb (Finset.mem_filter.mp h).2
    rw [if_neg hPb, Finset.erase_eq_of_notMem hnot]
    rw [Finset.erase_eq_of_notMem hnot] at ha'
    by_cases hPa : P a
    · rw [if_pos hPa, if_pos hPa, Finset.card_insert_of_notMem ha']
    · rw [if_neg hPa, if_neg hPa]

/-- What is held once thread `t` has `newDir` instead of `oldDir`. -/
theorem heldDirs_setCurrDir (ht : t ∈ w.threads)
    (hold : w.currDir t = some oldDir ∧ w.HeldOnlyBy oldDir t ∨
      w.currDir t = none ∧ oldDir ∉ w.heldDirs) (hne : newDir ≠ oldDir) :
    ({ w with currDir := Function.update w.currDir t (some newDir) } : State).heldDirs =
      insert newDir (w.heldDirs.erase oldDir) := by
  ext d
  rw [Finset.mem_insert, Finset.mem_erase, mem_heldDirs, mem_heldDirs]
  dsimp only
  constructor
  · rintro (⟨fd, hfd, hopened⟩ | ⟨t', ht', hcurr⟩)
    · refine .inr ⟨?_, .inl ⟨fd, hfd, hopened⟩⟩
      rintro rfl
      rcases hold with ⟨-, honly⟩ | ⟨-, hunheld⟩
      · exact honly.1 fd hfd hopened
      · exact hunheld (mem_heldDirs.mpr (.inl ⟨fd, hfd, hopened⟩))
    · by_cases htt : t' = t
      · rw [htt, Function.update_self] at hcurr
        exact .inl (Option.some.inj hcurr).symm
      · rw [Function.update_of_ne htt] at hcurr
        refine .inr ⟨?_, .inr ⟨t', ht', hcurr⟩⟩
        rintro rfl
        rcases hold with ⟨-, honly⟩ | ⟨-, hunheld⟩
        · exact htt (honly.2 t' ht' hcurr)
        · exact hunheld (mem_heldDirs_currDir ht' hcurr)
  · rintro (rfl | ⟨hd, ⟨fd, hfd, hopened⟩ | ⟨t', ht', hcurr⟩⟩)
    · exact .inr ⟨t, ht, Function.update_self ..⟩
    · exact .inl ⟨fd, hfd, hopened⟩
    · by_cases htt : t' = t
      · rw [htt] at hcurr
        rcases hold with ⟨hsome, -⟩ | ⟨hnone, -⟩
        · rw [hsome] at hcurr
          exact absurd (Option.some.inj hcurr).symm hd
        · rw [hnone] at hcurr
          nomatch hcurr
      · exact .inr ⟨t', ht', by rw [Function.update_of_ne htt]; exact hcurr⟩

/-- Thread `t` holds `newDir` instead of `oldDir`, which it held or has just opened. -/
theorem Counted.setCurrDir (h : Counted w e') (ht : t ∈ w.threads)
    (hnew : w.dirs newDir = some ⟨q, none⟩) (hunheld : newDir ∉ w.heldDirs)
    (hdir : w.dirs oldDir = some dir)
    (hold : w.currDir t = some oldDir ∧ w.HeldOnlyBy oldDir t ∧ e' = e + Pi.single q 1 ∨
      w.currDir t = none ∧ oldDir ∉ w.heldDirs ∧
        e' = e + Pi.single q 1 + Pi.single dir.inode 1) (hne : newDir ≠ oldDir) :
    Counted { w with currDir := Function.update w.currDir t (some newDir) }
      (e + Pi.single dir.inode 1) := by
  have hheld := heldDirs_setCurrDir ht (hold.imp (fun h => ⟨h.1, h.2.1⟩) fun h => ⟨h.1, h.2.1⟩) hne
  refine h.setHandles rfl rfl (Nat.le_refl _) (fun p hp => (h.fresh p hp).2) (fun d hd => ?_)
    h.heldFile fun p => ?_
  · rw [hheld, Finset.mem_insert] at hd
    rcases hd with rfl | hd
    · show w.dirs d ≠ none
      rw [hnew]
      nofun
    · exact h.heldDir d (Finset.mem_of_mem_erase hd)
  · have hcount : (((insert newDir (w.heldDirs.erase oldDir)).filter
        fun d => w.dirInode d = some p).card + (e + Pi.single dir.inode 1 : Nat → Nat) p =
        (w.heldDirs.filter fun d => w.dirInode d = some p).card + e' p) := by
      have hP : ∀ d i, w.dirInode d = some i →
          (if w.dirInode d = some p then 1 else 0) = (Pi.single i 1 : Nat → Nat) p := by
        intro d i hd
        rw [hd, Pi.single_apply]
        exact if_congr (by rw [Option.some.injEq, eq_comm]) rfl rfl
      have hPnew := hP newDir q (by rw [dirInode, hnew]; rfl)
      have hPold := hP oldDir dir.inode (by rw [dirInode, hdir]; rfl)
      rcases hold with ⟨hsome, -, rfl⟩ | ⟨-, hnot, rfl⟩
      · have hcard := card_filter_insert_erase (P := fun d => w.dirInode d = some p) hunheld
          (mem_heldDirs_currDir ht hsome)
        rw [hPnew, hPold] at hcard
        simp only [Pi.add_apply]
        omega
      · rw [Finset.erase_eq_of_notMem hnot, Finset.filter_insert]
        simp only [Pi.add_apply]
        rw [← hPnew]
        split
        · rw [Finset.card_insert_of_notMem fun hmem => hunheld (Finset.mem_filter.mp hmem).1]
          omega
        · omega
    rw [owners, owners, hheld]
    show ((insert newDir (w.heldDirs.erase oldDir)).filter fun d => w.dirInode d = some p).card +
      (w.heldFiles.filter fun f => w.files f = some p).card + _ = _
    omega

/-- Thread `t` has a new working directory: the counter of the old one, which for a thread without
one is the root's, goes down and that of the new one goes up. -/
structure Switched (w w' : State) (t : Nat) : Prop where
  openFiles : w'.openFiles = w.openFiles
  threads : w'.threads = w.threads
  nextTid : w'.nextTid = w.nextTid
  freeMapFile : w'.freeMapFile = w.freeMapFile
  files : w'.files = w.files
  currDir : ∃ d, w.dirs d = none ∧ w'.currDir = Function.update w.currDir t (some d)
  dirInode : ∀ d ∈ w.heldDirs, w.currDir t ≠ some d → w'.dirInode d = w.dirInode d
  heldOnly : ∀ d, w.currDir t = some d → w.HeldOnlyBy d t
  sector : ∀ p i i', w.inodes p = some i → w'.inodes p = some i' → i'.sector = i.sector
  cwdCnt : ∃ p0 q, w'.cwdInode t = some q ∧ (w.cwdInode t = some p0 ∨
      w.currDir t = none ∧ ∀ i, w'.inodes p0 = some i → i.sector = rootDirSector) ∧
    ∀ p i, w'.inodes p = some i → i.cwdCnt =
      w.cwdCnt p - (if p = p0 then 1 else 0) + if p = q then 1 else 0

/-- `change_directory` once it has the old and the new directory. -/
def switchDirs (current oldDir newDir : Nat) : HandleRoutine Bool := do
  let old ← getDir oldDir
  let oldInode ← getInode old.inode
  modify fun w => w.setInode old.inode { oldInode with cwdCnt := oldInode.cwdCnt - 1 }
  dirClose (some oldDir)
  let new ← getDir newDir
  let newInode ← getInode new.inode
  modify fun w => w.setInode new.inode { newInode with cwdCnt := newInode.cwdCnt + 1 }
  modify fun w => { w with currDir := Function.update w.currDir current (some newDir) }
  pure true

/-- The outcome of `switchDirs` from the inode `p` to the inode `q`. -/
structure Exchanged (w w' : State) (t oldDir newDir p q : Nat) : Prop where
  openFiles : w'.openFiles = w.openFiles
  threads : w'.threads = w.threads
  nextTid : w'.nextTid = w.nextTid
  freeMapFile : w'.freeMapFile = w.freeMapFile
  files : w'.files = w.files
  currDir : w'.currDir = Function.update w.currDir t (some newDir)
  dirs : w'.dirs = Function.update w.dirs oldDir none
  inodes : ∀ r i', w'.inodes r = some i' → ∃ i, w.inodes r = some i ∧ i'.sector = i.sector ∧
    i'.cwdCnt = i.cwdCnt - (if r = p then 1 else 0) + if r = q then 1 else 0

theorem wp_switchDirs (h : Counted w e') (ht : t ∈ w.threads)
    (hnew : w.dirs newDir = some ⟨q, none⟩) (hunheld : newDir ∉ w.heldDirs)
    (hdir : w.dirs oldDir = some dir)
    (hold : w.currDir t = some oldDir ∧ w.HeldOnlyBy oldDir t ∧ e' = e + Pi.single q 1 ∨
      w.currDir t = none ∧ oldDir ∉ w.heldDirs ∧
        e' = e + Pi.single q 1 + Pi.single dir.inode 1) (hne : newDir ≠ oldDir) :
    wp (switchDirs t oldDir newDir) (fun r w' => r = true ∧ Counted w' e ∧
      Exchanged w w' t oldDir newDir dir.inode q) NotFreed w := by
  have h3 := h.setCurrDir ht hnew hunheld hdir hold hne
  have hheld := heldDirs_setCurrDir ht (hold.imp (fun h => ⟨h.1, h.2.1⟩) fun h => ⟨h.1, h.2.1⟩) hne
  obtain ⟨i0, hi0⟩ := h3.live_extra (p := dir.inode) (by
    rw [Pi.add_apply, Pi.single_eq_same]
    exact Nat.succ_pos _)
  replace hi0 : w.inodes dir.inode = some i0 := hi0
  generalize hf : Function.update w.currDir t (some newDir) = f at h3 hheld
  rw [switchDirs, Routine.wp_bind]
  refine wp_getDir hdir ?_
  rw [Routine.wp_bind]
  refine wp_getInode hi0 ?_
  rw [Routine.wp_bind, Routine.wp_modify, Routine.wp_bind, dirClose, Routine.wp_bind]
  generalize hi4 : ({ i0 with cwdCnt := i0.cwdCnt - 1 } : Inode) = i4
  -- the same steps from the state in which the thread already has its new directory
  have h4 : Counted { w.setInode dir.inode i4 with currDir := f } (e + Pi.single dir.inode 1) :=
    h3.setField hi0 (by rw [← hi4]) (by rw [← hi4]) (by rw [← hi4])
  have hinodes4 : ∀ r i', (w.setInode dir.inode i4).inodes r = some i' → ∃ i,
      w.inodes r = some i ∧ i'.sector = i.sector ∧
        i'.cwdCnt = i.cwdCnt - if r = dir.inode then 1 else 0 := by
    intro r i' hi'
    by_cases hr : r = dir.inode
    · rw [hr, setInode_inodes, Function.update_self] at hi'
      cases hi'
      exact ⟨i0, by rw [hr, hi0], by rw [← hi4], by rw [if_pos hr, ← hi4]⟩
    · rw [setInode_inodes, Function.update_of_ne hr] at hi'
      exact ⟨i', hi', rfl, by rw [if_neg hr, sub_zero]⟩
  have hlive4 : (w.setInode dir.inode i4).inodes dir.inode = some i4 := Function.update_self ..
  have honly4 : OnlyInodes w (w.setInode dir.inode i4) := onlyInodes_setInode
  generalize w.setInode dir.inode i4 = w4 at h4 hinodes4 hlive4 honly4 ⊢
  have h5 := leads_closeInode h4
  rw [closeInode_currDir] at h5
  have honly5 := honly4.trans (onlyInodes_closeInode w4 dir.inode)
  refine wp_getDir (by rw [honly4.dirs, hdir]) ?_
  rw [Routine.wp_bind]
  refine Routine.wp_of_ok (inodeClose_eq hlive4 fun _ hremoved => ?_) ?_
  · rw [h4.kept dir.inode i4 hlive4] at hremoved
    cases hremoved
  have hinodes5 : ∀ r i', (w4.closeInode dir.inode).inodes r = some i' → ∃ i,
      w4.inodes r = some i ∧ i'.sector = i.sector ∧ i'.cwdCnt = i.cwdCnt :=
    fun r i' => closeInode_some
  generalize w4.closeInode dir.inode = w5 at h5 honly5 hinodes5 ⊢
  rw [Routine.wp_modify, Routine.wp_bind]
  have hdirs5 : Function.update w5.dirs oldDir none newDir = some ⟨q, none⟩ := by
    rw [Function.update_of_ne hne, honly5.dirs, hnew]
  refine wp_getDir hdirs5 ?_
  have hheld5 : ({ w5 with currDir := f } : State).heldDirs =
      insert newDir (w.heldDirs.erase oldDir) := h5.only.heldDirs.trans (by
    rw [← hheld, State.heldDirs, State.heldDirs]
    dsimp only
    rw [honly4.openFiles, honly4.threads])
  obtain ⟨h6, -⟩ := h5.counted.setDirs (Function.update w5.dirs oldDir none) (Nat.le_refl _)
    (fun d hd => by
      rw [Function.update_apply]
      split
      · rfl
      · exact (h5.counted.fresh d hd).2.1)
    (fun d hd => by
      rw [Function.update_of_ne]
      · rfl
      · rintro rfl
        rw [hheld5, Finset.mem_insert, Finset.mem_erase] at hd
        exact hd.elim (fun h => hne h.symm) fun h => h.1 rfl)
  obtain ⟨dir', j, hdir', hj⟩ := h6.live_held (d := newDir) (by
    show newDir ∈ ({ w5 with currDir := f } : State).heldDirs
    rw [hheld5]
    exact Finset.mem_insert_self ..)
  obtain rfl : dir' = ⟨q, none⟩ := Option.some.inj (hdir'.symm.trans hdirs5)
  replace hj : w5.inodes q = some j := hj
  rw [Routine.wp_bind]
  refine wp_getInode hj ?_
  rw [Routine.wp_bind, Routine.wp_modify, Routine.wp_bind, Routine.wp_modify, Routine.wp_pure]
  have h7 : Counted (State.setInode _ q { j with cwdCnt := j.cwdCnt + 1 }) e :=
    h6.setField hj rfl rfl rfl
  have hcurr : Function.update w5.currDir t (some newDir) = f := by rw [honly5.currDir, hf]
  refine ⟨rfl, ?_, ⟨honly5.openFiles, honly5.threads, honly5.nextTid, honly5.freeMapFile,
    honly5.files, hcurr.trans hf.symm, ?_, fun r i' hi' => ?_⟩⟩
  · rw [← hcurr] at h7
    exact h7
  · show Function.update w5.dirs oldDir none = _
    rw [honly5.dirs]
  · replace hi' : Function.update w5.inodes q (some { j with cwdCnt := j.cwdCnt + 1 }) r =
      some i' := hi'
    by_cases hr : r = q
    · rw [hr, Function.update_self] at hi'
      cases hi'
      obtain ⟨i5, hi5, hsector5, hcwd5⟩ := hinodes5 q j hj
      obtain ⟨i, hi, hsector, hcwd⟩ := hinodes4 q i5 hi5
      refine ⟨i, hr ▸ hi, hsector5.trans hsector, ?_⟩
      rw [if_pos hr, hr]
      exact congrArg (· + 1) (hcwd5.trans hcwd)
    · rw [Function.update_of_ne hr] at hi'
      obtain ⟨i5, hi5, hsector5, hcwd5⟩ := hinodes5 r i' hi'
      obtain ⟨i, hi, hsector, hcwd⟩ := hinodes4 r i5 hi5
      exact ⟨i, hi, hsector5.trans hsector, by rw [if_neg hr, add_zero, hcwd5, hcwd]⟩

/-- What an exchange makes of the state before the call, which opened the new directory first. -/
theorem Exchanged.switched {w1 w2 : State} (hx : Exchanged w1 w2 t oldDir newDir p q)
    (h : Counted w e) (hframe : Frame w w1) (hfresh : w.dirs newDir = none)
    (hnew : w1.dirs newDir = some ⟨q, none⟩) (hne : newDir ≠ oldDir)
    (hheld : ∀ d, w.currDir t = some d → w.HeldOnlyBy d t)
    (hold : w.currDir t = some oldDir ∧ w.dirInode oldDir = some p ∨
      w.currDir t = none ∧ oldDir ∉ w.heldDirs ∧
        ∀ i, w1.inodes p = some i → i.sector = rootDirSector) : Switched w w2 t := by
  have hcurr : w2.currDir = Function.update w.currDir t (some newDir) := by
    rw [hx.currDir, hframe.currDir]
  refine ⟨hx.openFiles.trans hframe.openFiles, hx.threads.trans hframe.threads,
    hx.nextTid.trans hframe.nextTid, hx.freeMapFile.trans hframe.freeMapFile,
    hx.files.trans hframe.files, ⟨newDir, hfresh, hcurr⟩, fun d hd hdcurr => ?_,
    hheld, fun r i i' hi hi' => ?_, p, q, ?_, ?_, fun r i' hi' => ?_⟩
  · rw [dirInode, hx.dirs, Function.update_of_ne, ← hframe.dirInode d hd]
    · rfl
    · rintro rfl
      rcases hold with ⟨hsome, -⟩ | ⟨-, hunheld, -⟩
      · exact hdcurr hsome
      · exact hunheld hd
  · obtain ⟨i1, hi1, hsector, -⟩ := hx.inodes r i' hi'
    rw [hsector]
    exact hframe.inherits.sector h hi hi1
  · rw [cwdInode, hcurr, Function.update_self, Option.bind_some, dirInode, hx.dirs,
      Function.update_of_ne hne, hnew]
    rfl
  · refine hold.imp (fun hsome => ?_) fun hnone => ⟨hnone.1, fun i' hi' => ?_⟩
    · rw [cwdInode, hsome.1, Option.bind_some, hsome.2]
    · obtain ⟨i, hi, hsector, -⟩ := hx.inodes p i' hi'
      rw [hsector, hnone.2.2 i hi]
  · obtain ⟨i, hi, -, hcwd⟩ := hx.inodes r i' hi'
    rw [hcwd, hframe.inherits.cwdCnt h hi]

theorem changeDirectory_eq (current : Nat) (dirpath : List UInt8) :
    changeDirectory env fuel current dirpath = (do
      let inode ← dirPathLookup env fuel current dirpath
      match ← dirOpen inode with
      | none => pure false
      | some newDir => do
        let oldDir ← getCurrWorkingDir current
        switchDirs current oldDir newDir) := rfl

/-- `change_directory`, which either finds nothing, or finds another directory than the working
directory, which nobody else holds. -/
theorem wp_changeDirectory (h : Counted w e) (ht : t ∈ w.threads)
    (hsettled : PathOff w t path ∨ ∀ d, w.currDir t = some d → w.HeldOnlyBy d t ∧
      (path.head? = some slash ∨ ∃ n ∈ pathEntries path, n ≠ dot)) :
    wp (changeDirectory env fuel t path) (fun r w' => ∃ leak,
      (LookupKept w t path → leak = 0) ∧ Counted w' (e + leak) ∧
        (r = false ∧ Frame w w' ∨ r = true ∧ Switched w w' t)) NotFreed w := by
  rw [changeDirectory_eq, Routine.wp_bind]
  refine (wp_dirPathLookup h ht path).mono fun r w1 h1 => ?_
  have hfound : r = none ∨ ∀ d, w.currDir t = some d → w.HeldOnlyBy d t := by
    rcases hsettled with hoff | hprivate
    · rcases h1 with ⟨-, -, hnone, -⟩ | h1
      · exact .inl (hnone hoff)
      · obtain ⟨d, p, hcurr, -⟩ := h1.cwd
        rw [PathOff, if_neg h1.relative] at hoff
        exact absurd hoff (WalksOff.not_dots h1.dots)
    · exact .inr fun d hd => (hprivate d hd).1
  have houtcome : Outcome w e (LookupKept w t path) (PathOff w t path) r w1 := by
    refine h1.resolve_right fun hborrowed => ?_
    obtain ⟨d, p, hcurr, -⟩ := hborrowed.cwd
    rcases hsettled with hoff | hprivate
    · rw [PathOff, if_neg hborrowed.relative] at hoff
      exact WalksOff.not_dots hborrowed.dots hoff
    · rcases (hprivate d hcurr).2 with habs | ⟨n, hn, hne⟩
      · exact hborrowed.relative habs
      · exact hne (hborrowed.dots n hn)
  clear h1
  obtain ⟨hf1, -, -, leak, hkept, ⟨rfl, h1⟩ | ⟨q, rfl, h1⟩⟩ := houtcome
  · exact ⟨leak, hkept, h1, .inl ⟨rfl, hf1⟩⟩
  replace hfound := hfound.resolve_left (by simp)
  rw [dirOpen, Routine.wp_bind, Routine.wp_map]
  refine (wp_dirOpenInode h1 q).mono ?_
  rintro newDir w2 ⟨h2, hf2, _, hle2, hdirs2, hinodes2⟩
  have hframe2 := hf1.trans hf2
  have hnone := (h.fresh newDir (Nat.le_trans hf1.inherits.next hle2)).2.1
  have hnew2 : w2.dirs newDir = some ⟨q, none⟩ := by rw [hdirs2, Function.update_self]
  have hunheld2 : newDir ∉ w2.heldDirs := by
    rw [hframe2.heldDirs]
    exact fun hmem => h.heldDir newDir hmem hnone
  have ht2 : t ∈ w2.threads := hframe2.threads ▸ ht
  show wp (getCurrWorkingDir t >>= fun oldDir => switchDirs t oldDir newDir) _ _ _
  rw [Routine.wp_bind, getCurrWorkingDir, Routine.wp_bind, Routine.wp_get]
  cases hcurr : w.currDir t with
  | none =>
    rw [hframe2.currDir, hcurr]
    refine (wp_dirOpenRoot h2).mono ?_
    rintro oldDir w3 ⟨r, h3, hf3, _, hunheld3, hdirs3, hle3, i, hi, hroot⟩
    have hframe3 := hframe2.trans hf3
    have hne : newDir ≠ oldDir := by
      rintro rfl
      rw [(h2.fresh newDir hle3).2.1] at hnew2
      cases hnew2
    have hnew3 : w3.dirs newDir = some ⟨q, none⟩ := by
      rw [hdirs3, Function.update_of_ne hne, hnew2]
    have hold3 : w3.dirs oldDir = some ⟨r, none⟩ := by rw [hdirs3, Function.update_self]
    refine (wp_switchDirs h3 (hf3.threads ▸ ht2) hnew3 (by rwa [hf3.heldDirs]) hold3
      (.inr ⟨by rw [hframe3.currDir, hcurr], by rwa [hf3.heldDirs], rfl⟩) hne).mono ?_
    rintro b w4 ⟨hb, h4, hx⟩
    refine ⟨leak, hkept, h4, .inr ⟨hb, hx.switched h hframe3 hnone hnew3 hne hfound
      (.inr ⟨hcurr, ?_, fun i' hi' => ?_⟩)⟩⟩
    · rwa [hframe2.heldDirs] at hunheld3
    · cases hi.symm.trans hi'
      exact hroot
  | some oldDir =>
    rw [hframe2.currDir, hcurr]
    have hheld := mem_heldDirs_currDir ht hcurr
    have hne : newDir ≠ oldDir := by
      rintro rfl
      exact h.heldDir newDir hheld hnone
    have honly : w2.HeldOnlyBy oldDir t := by
      have honly := hfound oldDir hcurr
      rw [HeldOnlyBy, hframe2.openFiles, hframe2.threads, hframe2.currDir]
      exact honly
    obtain ⟨dir, i, hdir, -⟩ := h2.live_held (d := oldDir) (by rwa [hframe2.heldDirs])
    have hinode : w.dirInode oldDir = some dir.inode := by
      rw [← hframe2.dirInode oldDir hheld, dirInode, hdir]
      rfl
    show wp (switchDirs t oldDir newDir) _ _ _
    refine (wp_switchDirs h2 ht2 hnew2 hunheld2 hdir
      (.inl ⟨by rw [hframe2.currDir, hcurr], honly, rfl⟩) hne).mono ?_
    rintro b w4 ⟨hb, h4, hx⟩
    exact ⟨leak, hkept, h4, .inr ⟨hb, hx.switched h hframe2 hnone hnew2 hne hfound
      (.inl ⟨hcurr, hinode⟩)⟩⟩

/-! ### Runs -/

/-- What happens to working directories: a process changes its own, starts another process or
exits. -/
inductive ProcessCall where
  | changeDirectory (dirpath : List UInt8)
  | threadCreate
  | threadExit

def ProcessCall.call : ProcessCall → Call
  | .changeDirectory dirpath => .changeDirectory dirpath
  | .threadCreate => .threadCreate
  | .threadExit => .threadExit

def execProcess (env : Nat → Draw) (fuel : Nat) (request : Nat × ProcessCall) :
    HandleRoutine Unit := exec env fuel (request.1, request.2.call)

/-- A process whose working directory is not the root neither starts another nor exits, and a
process that changes its working directory, to one that it finds, is alone with the old one and
leaves it. -/
def CwdSettled (w : State) (request : Nat × ProcessCall) : Prop :=
  match request.2 with
  | .changeDirectory dirpath => PathOff w request.1 dirpath ∨ ∀ d, w.currDir request.1 = some d →
    w.HeldOnlyBy d request.1 ∧ (dirpath.head? = some slash ∨ ∃ n ∈ pathEntries dirpath, n ≠ dot)
  | .threadCreate | .threadExit => w.currDir request.1 = none ∨ w.cwd request.1 = some rootDirSector

/-- `cwd_cnt` of the inode of a sector, 0 if it is not in memory. -/
def State.sectorCwdCnt (w : State) (s : Nat) : Int :=
  match w.findInode s with
  | some p => w.cwdCnt p
  | none => 0

/-- Working directories are private and counted. -/
structure State.CwdsCounted (w : State) : Prop where
  currDir : ∀ t ∈ w.threads, ∀ d, w.currDir t = some d → w.dirs d ≠ none
  cwdCnt : ∀ s, s ≠ rootDirSector →
    w.sectorCwdCnt s = (w.threads.filter fun t => w.cwd t = some s).card

/-- No thread but `t` resolves relative paths against another directory than before. -/
def KeepsOthers (w w' : State) (t : Nat) : Prop :=
  ∀ t' ∈ w.threads, t' ≠ t → w'.currDir t' = w.currDir t' ∧
    (∀ d, w.currDir t' = some d → w'.dirInode d = w.dirInode d) ∧ w'.cwd t' = w.cwd t'

/-- What a run keeps. -/
structure CwdInv (w : State) : Prop where
  openFiles : w.openFiles = []
  counted : ∃ e, Counted w e
  tids : ∀ t ∈ w.threads, t < w.nextTid
  cwdCnt : ∀ p i, w.inodes p = some i → i.sector ≠ rootDirSector →
    i.cwdCnt = (w.threads.filter fun t => w.cwdInode t = some p).card

theorem cwd_eq (h : Counted w e) (ht : t ∈ w.threads) : w.currDir t = none ∧ w.cwdInode t = none ∧
    w.cwd t = none ∨ ∃ d dir i, w.currDir t = some d ∧ w.dirs d = some dir ∧
      w.cwdInode t = some dir.inode ∧ w.inodes dir.inode = some i ∧ w.cwd t = some i.sector := by
  cases hcurr : w.currDir t with
  | none =>
    refine .inl ⟨rfl, ?_, ?_⟩
    · rw [cwdInode, hcurr]
      rfl
    · rw [State.cwd, hcurr]
      rfl
  | some d =>
    obtain ⟨dir, i, hdir, hi⟩ := h.live_held (mem_heldDirs_currDir ht hcurr)
    have hinode : w.dirInode d = some dir.inode := by
      rw [dirInode, hdir]
      rfl
    refine .inr ⟨d, dir, i, rfl, hdir, ?_, hi, ?_⟩
    · rw [cwdInode, hcurr, Option.bind_some, hinode]
    · rw [State.cwd, hcurr]
      show (w.dirInode d >>= fun p => w.inodes p >>= fun inode => pure inode.sector) = _
      rw [hinode]
      show (w.inodes dir.inode >>= fun inode => pure inode.sector) = _
      rw [hi]
      rfl

theorem CwdInv.cwdsCounted (h : CwdInv w) : w.CwdsCounted := by
  obtain ⟨e, hcounted⟩ := h.counted
  refine ⟨fun t ht d hd => hcounted.heldDir d (mem_heldDirs_currDir ht hd), fun s hs => ?_⟩
  rw [sectorCwdCnt]
  cases hfind : w.findInode s with
  | some p =>
    obtain ⟨i, hi, hsector⟩ := findInode_some hfind
    have hcnt : w.cwdCnt p = i.cwdCnt := by rw [State.cwdCnt, hi]
    dsimp only
    rw [hcnt, h.cwdCnt p i hi (by rwa [hsector])]
    congr 2
    refine Finset.filter_congr fun t ht => ?_
    rcases cwd_eq hcounted ht with ⟨-, hnone, hcwd⟩ | ⟨d, dir, j, -, -, hinode, hj, hcwd⟩
    · rw [hnone, hcwd]
      exact iff_of_false nofun nofun
    · rw [hinode, hcwd, Option.some.injEq, Option.some.injEq]
      constructor
      · rintro rfl
        cases hi.symm.trans hj
        exact hsector
      · intro hjs
        exact hcounted.unique _ _ j i hj hi (hjs.trans hsector.symm)
  | none =>
    have hempty : (w.threads.filter fun t => w.cwd t = some s) = ∅ := by
      refine Finset.filter_false_of_mem fun t ht hts => ?_
      rcases cwd_eq hcounted ht with ⟨-, -, hcwd⟩ | ⟨d, dir, j, -, -, -, hj, hcwd⟩
      · rw [hcwd] at hts
        nomatch hts
      · rw [hcwd] at hts
        have hmem := (hcounted.listed dir.inode).mpr (by rw [hj]; nofun)
        have hother := List.find?_eq_none.mp hfind dir.inode hmem
        rw [hj] at hother
        exact hother (by simpa using Option.some.inj hts)
    rw [hempty]
    rfl

/-- The inode of a working directory is in memory. -/
theorem cwdInode_live (h : Counted w e) (ht : t ∈ w.threads) (hp : w.cwdInode t = some p) :
    ∃ i, w.inodes p = some i ∧ w.cwd t = some i.sector := by
  rcases cwd_eq h ht with ⟨-, hnone, -⟩ | ⟨d, dir, i, -, -, hinode, hi, hcwd⟩
  · rw [hnone] at hp
    nomatch hp
  · cases hinode.symm.trans hp
    exact ⟨i, hi, hcwd⟩

/-- A call that leaves the working directories alone. -/
theorem CwdInv.frame (h : CwdInv w) (hframe : Frame w w') (hcounted' : Counted w' e) :
    CwdInv w' := by
  obtain ⟨e0, hcounted⟩ := h.counted
  refine ⟨hframe.openFiles.trans h.openFiles, ⟨e, hcounted'⟩, ?_, fun p i hi hs => ?_⟩
  · rw [hframe.threads, hframe.nextTid]
    exact h.tids
  have hcwd : (w'.threads.filter fun t => w'.cwdInode t = some p) =
      w.threads.filter fun t => w.cwdInode t = some p := by
    rw [hframe.threads]
    refine Finset.filter_congr fun t ht => ?_
    rw [cwdInode, cwdInode, hframe.currDir]
    cases hcurr : w.currDir t with
    | none => rfl
    | some d =>
      rw [Option.bind_some, Option.bind_some,
        hframe.dirInode d (mem_heldDirs_currDir ht hcurr)]
  rw [hcwd]
  rcases hframe.inherits.inodes p i hi with ⟨j, hj, hsector, hcnt⟩ | ⟨hle, hzero⟩
  · rw [hcnt]
    exact h.cwdCnt p j hj (hsector ▸ hs)
  · rw [hzero, Finset.filter_false_of_mem, Finset.card_empty]
    · rfl
    · intro t ht htp
      obtain ⟨i', hi', -⟩ := cwdInode_live hcounted ht htp
      rw [(hcounted.fresh p hle).1] at hi'
      nomatch hi'

/-- The working directories of other threads stay where they are. -/
theorem Switched.cwdInode_ne (h : Switched w w' t) {t' : Nat} (ht' : t' ∈ w.threads)
    (hne : t' ≠ t) : w'.currDir t' = w.currDir t' ∧
      (∀ d, w.currDir t' = some d → w'.dirInode d = w.dirInode d) ∧
        w'.cwdInode t' = w.cwdInode t' := by
  obtain ⟨newDir, -, hcurr⟩ := h.currDir
  have hsame : w'.currDir t' = w.currDir t' := by rw [hcurr, Function.update_of_ne hne]
  have hdirs : ∀ d, w.currDir t' = some d → w'.dirInode d = w.dirInode d := fun d hd =>
    h.dirInode d (mem_heldDirs_currDir ht' hd) fun htd =>
      hne ((h.heldOnly d htd).2 t' ht' hd)
  refine ⟨hsame, hdirs, ?_⟩
  rw [cwdInode, cwdInode, hsame]
  cases hcurr' : w.currDir t' with
  | none => rfl
  | some d => exact hdirs d hcurr'

theorem card_filter_eq_add {P : Nat → Prop} [DecidablePred P] {threads : Finset Nat}
    (ht : t ∈ threads) : ((threads.filter P).card : Int) =
      (((threads.erase t).filter P).card : Int) + if P t then 1 else 0 := by
  rw [← Finset.insert_erase ht, Finset.filter_insert, Finset.erase_insert_eq_erase,
    Finset.erase_idem]
  split
  · rw [Finset.card_insert_of_notMem fun h => Finset.notMem_erase t _ (Finset.mem_filter.mp h).1]
    push_cast
    rfl
  · rw [add_zero]

theorem CwdInv.switched (h : CwdInv w) (hx : Switched w w' t) (ht : t ∈ w.threads)
    (hcounted' : Counted w' e) : CwdInv w' := by
  obtain ⟨e0, hcounted⟩ := h.counted
  refine ⟨hx.openFiles.trans h.openFiles, ⟨e, hcounted'⟩, ?_, fun p i hi hs => ?_⟩
  · rw [hx.threads, hx.nextTid]
    exact h.tids
  obtain ⟨p0, q, hnew, hold, hcnt⟩ := hx.cwdCnt
  have hothers : ((w.threads.erase t).filter fun t => w'.cwdInode t = some p) =
      (w.threads.erase t).filter fun t => w.cwdInode t = some p :=
    Finset.filter_congr fun t' ht' => by
      rw [(hx.cwdInode_ne (Finset.mem_of_mem_erase ht') (Finset.ne_of_mem_erase ht')).2.2]
  have hbefore : w.cwdCnt p = (w.threads.filter fun t => w.cwdInode t = some p).card := by
    rw [State.cwdCnt]
    cases hw : w.inodes p with
    | some j =>
      dsimp only
      exact h.cwdCnt p j hw (by rw [← hx.sector p j i hw hi]; exact hs)
    | none =>
      rw [Finset.filter_false_of_mem, Finset.card_empty]
      · rfl
      · intro t' ht' htp
        obtain ⟨j, hj, -⟩ := cwdInode_live hcounted ht' htp
        rw [hw] at hj
        nomatch hj
  have hwas : (if p = p0 then 1 else 0 : Int) = if w.cwdInode t = some p then 1 else 0 := by
    rcases hold with hsome | ⟨hnone, hroot⟩
    · rw [hsome]
      exact if_congr (by rw [Option.some.injEq, eq_comm]) rfl rfl
    · rw [if_neg, if_neg]
      · rw [cwdInode, hnone]
        nofun
      · rintro rfl
        exact hs (hroot i hi)
  have hafter := card_filter_eq_add (P := fun t => w'.cwdInode t = some p) ht
  have hcard := card_filter_eq_add (P := fun t => w.cwdInode t = some p) ht
  rw [hothers, hnew] at hafter
  rw [hx.threads, hafter, hcnt p i hi, hbefore, hcard, hwas]
  have hq : (if p = q then 1 else 0 : Int) = if some q = some p then 1 else 0 :=
    if_congr (by rw [Option.some.injEq, eq_comm]) rfl rfl
  rw [hq]
  omega

/-- Where the inodes of working directories keep their sectors, so do the directories. -/
theorem keepsOthers_of (h : Counted w e) (h' : Counted w' e') (hthreads : w'.threads = w.threads)
    (hsector : ∀ p i i', w.inodes p = some i → w'.inodes p = some i' → i'.sector = i.sector)
    (hothers : ∀ t' ∈ w.threads, t' ≠ t → w'.currDir t' = w.currDir t' ∧
      (∀ d, w.currDir t' = some d → w'.dirInode d = w.dirInode d) ∧
        w'.cwdInode t' = w.cwdInode t') : KeepsOthers w w' t := by
  intro t' ht' hne
  obtain ⟨hcurr, hdirs, hinode⟩ := hothers t' ht' hne
  refine ⟨hcurr, hdirs, ?_⟩
  rcases cwd_eq h ht' with ⟨hnone, -, hcwd⟩ | ⟨d, dir, i, -, -, hp, hi, hcwd⟩
  · rw [hcwd, State.cwd, hcurr, hnone]
    rfl
  · obtain ⟨i', hi', hcwd'⟩ := cwdInode_live h' (hthreads ▸ ht') (hinode.trans hp)
    rw [hcwd, hcwd', hsector _ i i' hi hi']

theorem KeepsOthers.of_frame (h : Counted w e) (h' : Counted w' e') (hframe : Frame w w') :
    KeepsOthers w w' t := by
  refine keepsOthers_of h h' hframe.threads (fun p i i' hi hi' => hframe.inherits.sector h hi hi')
    fun t' ht' _ => ?_
  have hdirs : ∀ d, w.currDir t' = some d → w'.dirInode d = w.dirInode d := fun d hd =>
    hframe.dirInode d (mem_heldDirs_currDir ht' hd)
  refine ⟨by rw [hframe.currDir], hdirs, ?_⟩
  rw [cwdInode, cwdInode, hframe.currDir]
  cases hcurr : w.currDir t' with
  | none => rfl
  | some d => exact hdirs d hcurr

/-- A process without a working directory, or with the root as its own, starts another. -/
theorem CwdInv.threadCreate (h : CwdInv w) (ht : t ∈ w.threads)
    (hsettled : w.currDir t = none ∨ w.cwd t = some rootDirSector) :
    wp (threadCreate t) (fun _ w' => CwdInv w') NotFreed w := by
  obtain ⟨e, hcounted⟩ := h.counted
  have hnew : w.nextTid ∉ w.threads := fun hmem => Nat.lt_irrefl _ (h.tids _ hmem)
  have hcurr : ∀ t' ∈ w.threads,
      Function.update w.currDir w.nextTid (w.currDir t) t' = w.currDir t' := fun t' ht' => by
    rw [Function.update_of_ne]
    rintro rfl
    exact hnew ht'
  rw [Handles.threadCreate, Routine.wp_bind, Routine.wp_get, Routine.wp_bind, Routine.wp_set,
    Routine.wp_pure]
  generalize hw' : ({ w with
    threads := insert w.nextTid w.threads
    nextTid := w.nextTid + 1
    currDir := Function.update w.currDir w.nextTid (w.currDir t) } : State) = w'
  have hheld : w'.heldDirs = w.heldDirs := by
    subst hw'
    ext d
    rw [mem_heldDirs, mem_heldDirs]
    refine or_congr_right ⟨?_, ?_⟩
    · rintro ⟨t', ht', hd⟩
      rw [Finset.mem_insert] at ht'
      rcases ht' with rfl | ht'
      · replace hd : Function.update w.currDir w.nextTid (w.currDir t) w.nextTid = some d := hd
        rw [Function.update_self] at hd
        exact ⟨t, ht, hd⟩
      · exact ⟨t', ht', (hcurr t' ht').symm.trans hd⟩
    · rintro ⟨t', ht', hd⟩
      exact ⟨t', Finset.mem_insert_of_mem ht', (hcurr t' ht').trans hd⟩
  have hfiles : w'.heldFiles = w.heldFiles := by
    subst hw'
    rfl
  have howners : ∀ p, w'.owners p = w.owners p := State.owners_congr hheld
    (fun d _ => by subst hw'; rfl) hfiles fun f _ => by subst hw'; rfl
  subst hw'
  refine ⟨h.openFiles, ⟨e, hcounted.setHandles rfl rfl (Nat.le_refl _)
    (fun p hp => (hcounted.fresh p hp).2) (by rw [hheld]; exact hcounted.heldDir)
    hcounted.heldFile fun p => by rw [howners]⟩, fun t' ht' => ?_, fun p i hi hs => ?_⟩
  · rcases Finset.mem_insert.mp ht' with rfl | ht'
    · exact Nat.lt_succ_self _
    · exact Nat.lt_succ_of_lt (h.tids t' ht')
  · have hsame : ∀ t' ∈ w.threads, ((Function.update w.currDir w.nextTid (w.currDir t) t').bind
        w.dirInode = some p ↔ w.cwdInode t' = some p) := fun t' ht' => by
      rw [hcurr t' ht', cwdInode]
    have hchild : ¬ (Function.update w.currDir w.nextTid (w.currDir t) w.nextTid).bind
        w.dirInode = some p := by
      rw [Function.update_self]
      intro hp
      rcases hsettled with hnone | hroot
      · rw [hnone] at hp
        nomatch hp
      · obtain ⟨j, hj, hcwd⟩ := cwdInode_live hcounted ht hp
        cases hi.symm.trans hj
        rw [hcwd] at hroot
        exact hs (Option.some.inj hroot)
    rw [h.cwdCnt p i hi hs]
    show ((w.threads.filter _).card : Int) = (((insert w.nextTid w.threads).filter fun t' =>
      (Function.update w.currDir w.nextTid (w.currDir t) t').bind w.dirInode = some p).card : Int)
    rw [Finset.filter_insert, if_neg hchild, Finset.filter_congr hsame]

/-- A process without a working directory, or with the root as its own, exits. -/
theorem CwdInv.threadExit (h : CwdInv w) (ht : t ∈ w.threads)
    (hsettled : w.currDir t = none ∨ w.cwd t = some rootDirSector) :
    wp (threadExit t) (fun _ w' => CwdInv w') NotFreed w := by
  obtain ⟨e, hcounted⟩ := h.counted
  rw [Handles.threadExit, Routine.wp_bind, closeAllFilesAndDir, Routine.wp_bind, Routine.wp_get,
    h.openFiles, List.reverse_nil, List.filter_nil]
  show wp (pure PUnit.unit) _ _ _
  rw [Routine.wp_pure, Routine.wp_modify]
  generalize hw' : ({ w with threads := w.threads.erase t } : State) = w'
  have hheld : w'.heldDirs ⊆ w.heldDirs := by
    subst hw'
    intro d hd
    rw [mem_heldDirs] at hd ⊢
    refine hd.imp_right ?_
    rintro ⟨t', ht', hd⟩
    exact ⟨t', Finset.mem_of_mem_erase ht', hd⟩
  have howners : ∀ p, w'.owners p ≤ w.owners p := by
    intro p
    subst hw'
    exact Nat.add_le_add_right (Finset.card_le_card (Finset.filter_subset_filter _ hheld)) _
  refine ⟨?_, ⟨fun p => e p + (w.owners p - w'.owners p), ?_⟩, fun t' ht' => ?_,
    fun p i hi hs => ?_⟩
  · subst hw'
    exact h.openFiles
  · subst hw'
    refine hcounted.setHandles rfl rfl (Nat.le_refl _) (fun p hp => (hcounted.fresh p hp).2)
      (fun d hd => hcounted.heldDir d (hheld hd)) hcounted.heldFile fun p => ?_
    have := howners p
    omega
  · subst hw'
    exact h.tids t' (Finset.mem_of_mem_erase ht')
  · subst hw'
    rw [h.cwdCnt p i hi hs]
    show _ = (((w.threads.erase t).filter fun t => w.cwdInode t = some p).card : Int)
    rw [card_filter_eq_add ht, if_neg, add_zero]
    intro hp
    rcases hsettled with hnone | hroot
    · rw [cwdInode, hnone] at hp
      nomatch hp
    · obtain ⟨j, hj, hcwd⟩ := cwdInode_live hcounted ht hp
      cases hi.symm.trans hj
      rw [hcwd] at hroot
      exact hs (Option.some.inj hroot)

/-- A call that is settled. -/
theorem CwdInv.step (h : CwdInv w) {request : Nat × ProcessCall} (hsettled : CwdSettled w request) :
    wp (execProcess env fuel request) (fun _ w' => CwdInv w' ∧
      ((∃ dirpath, request.2 = .changeDirectory dirpath) → KeepsOthers w w' request.1))
      NotFreed w := by
  obtain ⟨e, hcounted⟩ := h.counted
  obtain ⟨t, call⟩ := request
  rw [execProcess, exec, Routine.wp_bind, Routine.wp_get]
  dsimp only
  by_cases ht : t ∈ w.threads
  swap
  · rw [if_neg ht]
    exact ⟨h, fun _ => KeepsOthers.of_frame hcounted hcounted Frame.refl⟩
  rw [if_pos ht]
  cases call with
  | changeDirectory dirpath =>
    rw [ProcessCall.call, Routine.wp_discard]
    refine (wp_changeDirectory hcounted ht hsettled).mono fun r w' ⟨leak, _, h', hcase⟩ => ?_
    rcases hcase with ⟨-, hframe⟩ | ⟨-, hx⟩
    · exact ⟨h.frame hframe h', fun _ => KeepsOthers.of_frame hcounted h' hframe⟩
    · exact ⟨h.switched hx ht h', fun _ => keepsOthers_of hcounted h' hx.threads hx.sector
        fun t' ht' hne => hx.cwdInode_ne ht' hne⟩
  | threadCreate =>
    rw [ProcessCall.call, Routine.wp_discard]
    exact (h.threadCreate ht hsettled).mono fun _ w' h' => ⟨h', nofun⟩
  | threadExit =>
    rw [ProcessCall.call]
    exact (h.threadExit ht hsettled).mono fun _ w' h' => ⟨h', nofun⟩

section

variable (threadCnt : Nat) (entries : Nat → List (Option Entry)) (parent : Nat → Nat)
  (freeMap : Bitmap) (extents : Nat → Nat × Int)

theorem counted_init : Counted (init threadCnt entries parent freeMap extents) 0 := by
  have hheld : (init threadCnt entries parent freeMap extents).heldDirs = ∅ := by
    ext d
    rw [mem_heldDirs]
    exact iff_of_false (by rintro (⟨fd, hfd, -⟩ | ⟨t, -, ht⟩) <;> cases ‹_›)
      (Finset.notMem_empty d)
  have hfiles : (init threadCnt entries parent freeMap extents).heldFiles = {1} := by
    ext f
    rw [mem_heldFiles, Finset.mem_singleton]
    exact or_iff_left (by rintro ⟨fd, ⟨⟩, -⟩)
  have hinodes : ∀ p i, (init threadCnt entries parent freeMap extents).inodes p = some i →
      p = 0 ∧ i = .ofSector freeMapSector := by
    intro p i hi
    replace hi : (if p = 0 then some (.ofSector freeMapSector) else none) = some i := hi
    split at hi
    · exact ⟨‹_›, (Option.some.inj hi).symm⟩
    · cases hi
  refine ⟨fun p hp => ⟨?_, rfl, ?_⟩, fun p => ?_, fun p q i j hi hj _ => ?_, fun p => ?_,
    fun p i hi => ?_, by rw [hheld]; simp, ?_⟩
  · replace hp : 2 ≤ p := hp
    exact if_neg (by omega)
  · replace hp : 2 ≤ p := hp
    exact if_neg (by omega)
  · show p ∈ [0] ↔ (if p = 0 then some (Inode.ofSector freeMapSector) else none) ≠ none
    rw [List.mem_singleton]
    split
    · exact iff_of_true ‹_› (by simp)
    · exact iff_of_false ‹_› fun h => h rfl
  · rw [(hinodes p i hi).1, (hinodes q j hj).1]
  · rw [owners, hheld, hfiles, Finset.filter_empty, Finset.card_empty, Finset.filter_singleton]
    show (match if p = 0 then some (Inode.ofSector freeMapSector) else none with
      | some inode => inode.openCnt
      | none => 0) = 0 + (if some 0 = some p then ({1} : Finset Nat) else ∅).card + 0
    by_cases hp : p = 0
    · rw [if_pos hp, hp, if_pos rfl, Finset.card_singleton]
      rfl
    · rw [if_neg hp, if_neg fun h => hp (Option.some.inj h).symm, Finset.card_empty]
  · rw [(hinodes p i hi).2]
    rfl
  · rw [hfiles]
    intro f hf
    rw [Finset.mem_singleton] at hf
    subst hf
    rintro ⟨⟩

theorem CwdInv.of_init : CwdInv (init threadCnt entries parent freeMap extents) := by
  refine ⟨rfl, ⟨0, counted_init threadCnt entries parent freeMap extents⟩,
    fun t ht => Finset.mem_range.mp ht, fun p i hi _ => ?_⟩
  rw [Finset.filter_false_of_mem fun t _ => by nofun, Finset.card_empty]
  replace hi : (if p = 0 then some (.ofSector freeMapSector) else none) = some i := hi
  split at hi
  · cases hi
    rfl
  · nomatch hi

end

/-- In the run, working directories are private and counted in every state, no thread's change of
its own moves another's, and no pointer to freed memory is followed. -/
structure CwdsPrivate (env : Nat → Draw) (fuel : Nat) (requests : List (Nat × ProcessCall))
    (w0 : State) : Prop where
  counted : ∀ w, Routine.Visits (execProcess env fuel) requests w0 w → w.CwdsCounted
  others : ∀ t dirpath w w', Routine.Takes (execProcess env fuel) requests w0
    (t, .changeDirectory dirpath) w →
      execProcess env fuel (t, .changeDirectory dirpath) w = .ok ((), w') → KeepsOthers w w' t
  notFreed : ∀ request w, Routine.Takes (execProcess env fuel) requests w0 request w →
    execProcess env fuel request w ≠ .error useAfterFree

end Handles

/-- For any directories on disk and any number of processes at first: in every run of settled
calls, working directories are private and counted. -/
theorem working_directories_private (env : Nat → Handles.Draw) (fuel threadCnt : Nat)
    (entries : Nat → List (Option Handles.Entry)) (parent : Nat → Nat) (freeMap : Bitmap)
    (extents : Nat → Nat × Int) (requests : List (Nat × Handles.ProcessCall))
    (hsettled : ∀ request w, Routine.Takes (Handles.execProcess env fuel) requests
      (Handles.init threadCnt entries parent freeMap extents) request w →
        Handles.CwdSettled w request) :
    Handles.CwdsPrivate env fuel requests
      (Handles.init threadCnt entries parent freeMap extents) := by
  have hinv : ∀ w, Routine.Visits (Handles.execProcess env fuel) requests
      (Handles.init threadCnt entries parent freeMap extents) w → Handles.CwdInv w :=
    fun w hvisits =>
      Routine.Visits.invariant (fun s request _ s' hs hmay hrun => ((hs.step hmay).of_ok hrun).1)
        hsettled (Handles.CwdInv.of_init threadCnt entries parent freeMap extents) hvisits
  refine ⟨fun w hvisits => (hinv w hvisits).cwdsCounted, fun t dirpath w w' htakes hrun => ?_,
    fun request w htakes hrun => ?_⟩
  · exact (((hinv w htakes.visits_before).step (hsettled _ w htakes)).of_ok hrun).2 ⟨dirpath, rfl⟩
  · exact ((hinv w htakes.visits_before).step (hsettled request w htakes)).of_error hrun rfl

/-- Nothing is drawn but failures. -/
def nothingDrawn : Nat → Handles.Draw :=
  fun _ => ⟨[], [], none, false, false, Bitmap.ofAll 16 true, fun _ => (0, 0)⟩

/-- The root holds a directory `a` in sector 5. -/
def oneDirectory : Nat → List (Option Handles.Entry) := fun s =>
  if s = Handles.rootDirSector then [some ⟨[0x61], 5, true⟩] else []

/-- A process in the root, of a device on which every sector is in use. -/
def inRoot : Handles.State :=
  Handles.init 1 oneDirectory (fun _ => Handles.rootDirSector) (Bitmap.ofAll 16 true) fun _ => (0, 0)

/-- A process in the root starts another, which moves to `a`. -/
theorem working_directories_private_child :
    Handles.CwdsPrivate nothingDrawn 5 [(0, .threadCreate), (1, .changeDirectory [0x61])] inRoot := by
  refine working_directories_private nothingDrawn 5 1 oneDirectory _ _ _ _ fun request w htakes => ?_
  rcases (Routine.takes_cons_of_ok rfl).mp htakes with ⟨rfl, rfl⟩ | htakes
  · exact .inl rfl
  · obtain ⟨before, after, as, hsplit, hrun⟩ := htakes
    cases before with
    | nil =>
      cases hsplit
      cases hrun
      exact .inr nofun
    | cons r before =>
      have := congrArg List.length hsplit
      simp at this

/-- A process moves to `a` and starts another, which moves to the root. -/
def sharedDirectory : List (Nat × Handles.ProcessCall) :=
  [(0, .changeDirectory [0x61]), (0, .threadCreate), (1, .changeDirectory [0x2f])]

/-- Whether the working directory of thread `t` has not been freed after the requests. -/
def Handles.keptAfter (requests : List (Nat × Handles.ProcessCall)) (w : Handles.State) (t : Nat) :
    Option Bool :=
  match Routine.execAll (Handles.execProcess nothingDrawn 5) requests w with
  | .ok (_, w) => if t ∈ w.threads then (w.currDir t).map fun d => (w.dirs d).isSome else none
  | .error _ => none

/-- The first process is left with a working directory that has been freed. -/
theorem working_directories_shared :
    ¬ Handles.CwdsPrivate nothingDrawn 5 sharedDirectory inRoot := by
  have hfreed : Handles.keptAfter sharedDirectory inRoot 0 = some false := by decide +kernel
  intro hprivate
  unfold Handles.keptAfter at hfreed
  cases hrun : Routine.execAll (Handles.execProcess nothingDrawn 5) sharedDirectory inRoot with
  | error f =>
    rw [hrun] at hfreed
    nomatch hfreed
  | ok r =>
    rw [hrun] at hfreed
    dsimp only at hfreed
    have hcounted := hprivate.counted r.2 ⟨_, [], r.1, (List.append_nil _).symm, hrun⟩
    by_cases ht : 0 ∈ r.2.threads
    · rw [if_pos ht, Option.map_eq_some_iff] at hfreed
      obtain ⟨d, hcurr, hnone⟩ := hfreed
      exact hcounted.currDir 0 ht d hcurr (Option.isSome_eq_false_iff.mp hnone |>
        Option.isNone_iff_eq_none.mp)
    · rw [if_neg ht] at hfreed
      nomatch hfreed

end Pintos
