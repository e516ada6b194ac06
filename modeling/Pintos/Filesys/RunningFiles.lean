import Pintos.Filesys.DenyWrite
import Pintos.Filesys.DescriptorRuns
import Pintos.Library.TableCount

/-! Executables that run cannot be modified.  The counter of an inode says how many of the open files
on it deny writes, each such file is counted among the references to the inode, and the file of a
process that runs is closed by nobody else. -/

namespace Pintos

open Routine TableCount

variable {fs fs' : FileSys} {t u : Nat} {i : Inode} {calls : FreeMapCalls}

namespace OpenFiles

theorem inodeReopen_recounted (h : inodeReopen t fs = .ok ((), fs')) :
    Recounted t 1 0 0 0 fs fs' := by
  obtain ⟨i, fs1, hget, hset⟩ := bind_ok.mp h
  obtain ⟨rfl, hi⟩ := getInode_ok hget
  cases hset
  exact recounted_setInode hi le_rfl rfl id

theorem inodeDenyWrite_recounted (h : inodeDenyWrite t fs = .ok ((), fs')) :
    Recounted t 0 0 1 0 fs fs' := by
  obtain ⟨i, fs1, hget, hrest⟩ := bind_ok.mp h
  obtain ⟨rfl, hi⟩ := getInode_ok hget
  obtain ⟨⟨⟩, fs2, hset, hassert⟩ := bind_ok.mp hrest
  cases hset
  split_ifs at hassert with hle
  · cases hassert
    exact recounted_setInode hi le_rfl rfl id
  · nomatch hassert

theorem inodeAllowWrite_recounted (h : inodeAllowWrite t fs = .ok ((), fs')) :
    Recounted t 0 0 0 1 fs fs' := by
  obtain ⟨i, fs1, hget, hrest⟩ := bind_ok.mp h
  obtain ⟨rfl, hi⟩ := getInode_ok hget
  by_cases hpos : 0 < i.denyWriteCnt
  · rw [if_neg (not_not.mpr hpos)] at hrest
    by_cases hle : i.denyWriteCnt ≤ i.openCnt
    · beta_reduce at hrest
      rw [if_neg (not_not.mpr hle)] at hrest
      cases hrest
      exact recounted_setInode hi le_rfl (Nat.sub_add_cancel hpos) id
    · beta_reduce at hrest
      rw [if_pos hle] at hrest
      nomatch hrest
  · rw [if_pos hpos] at hrest
    nomatch hrest

/-! ### Open files and their inodes -/

/-- The file is on the inode of a sector. -/
def on (t : Nat) (file : File) : Bool := file.inode = t

/-- The file is on the inode of a sector and denies writes to it. -/
def denies (t : Nat) (file : File) : Bool := on t file && file.denyWrite

/-- The open files on the inode of a sector. -/
def State.filesOn (s : State) (t : Nat) : Set Nat := having s.files (on t)

/-- The open files that deny writes to the inode of a sector. -/
def State.deniers (s : State) (t : Nat) : Set Nat := having s.files (denies t)

/-- The counters of the inodes fit the open files. -/
structure Counts (files : Nat → Option File) (fs : FileSys) : Prop where
  finite : ∀ t, (having files (on t)).Finite
  denyWriteCnt : ∀ t, fs.denyWriteCnt t = (having files (denies t)).ncard
  openCnt : ∀ t, (having files (on t)).ncard ≤ fs.openCnt t
  sound : fs.Sound

variable {files : Nat → Option File} {f : Nat} {file : File} {o : Option File}
  {opened closed denied allowed : Nat}

theorem on_other (hfile : file.inode = t) (hu : u ≠ t) : on u file = false :=
  decide_eq_false fun h => hu (h.symm.trans hfile)

theorem denies_other (hfile : file.inode = t) (hu : u ≠ t) : denies u file = false := by
  rw [denies, on_other hfile hu, Bool.false_and]

theorem denies_subset (files : Nat → Option File) (t : Nat) :
    having files (denies t) ⊆ having files (on t) :=
  having_mono fun _ h => (Bool.and_eq_true_iff.mp h).1

namespace Counts

theorem finite_denies (h : Counts files fs) (t : Nat) : (having files (denies t)).Finite :=
  (h.finite t).subset (denies_subset files t)

theorem denyWriteCnt_le (h : Counts files fs) (t : Nat) : fs.denyWriteCnt t ≤ fs.openCnt t := by
  rw [h.denyWriteCnt]
  exact (Set.ncard_le_ncard (denies_subset files t) (h.finite t)).trans (h.openCnt t)

theorem held (h : Counts files fs) (hheld : Held fs fs') : Counts files fs' where
  finite := h.finite
  denyWriteCnt t := (hheld.denyWriteCnt_eq t).trans (h.denyWriteCnt t)
  openCnt t := (h.openCnt t).trans (hheld.openCnt_le t)
  sound := hheld.sound h.sound

/-- One place of the table of files changes, and with it the counters of one inode. -/
theorem update (h : Counts files fs) (hre : Recounted t opened closed denied allowed fs fs')
    (hold : ∀ file ∈ files f, file.inode = t) (hnew : ∀ file ∈ o, file.inode = t)
    (hopen : count (on t) o + closed ≤ count (on t) (files f) + opened)
    (hdeny : count (denies t) o + allowed = count (denies t) (files f) + denied) :
    Counts (Function.update files f o) fs' where
  finite u := finite_having_update (h.finite u) f o
  denyWriteCnt u := by
    have hcard := ncard_having_update (h.finite_denies u) f o
    have hu := h.denyWriteCnt u
    by_cases hut : u = t
    · subst hut
      have hcnt := hre.denyWriteCnt
      omega
    · have hcnt := (hre.others u hut).2
      rw [count_eq_zero fun file hfile => denies_other (hold file hfile) hut,
        count_eq_zero fun file hfile => denies_other (hnew file hfile) hut] at hcard
      omega
  openCnt u := by
    have hcard := ncard_having_update (h.finite u) f o
    have hu := h.openCnt u
    by_cases hut : u = t
    · subst hut
      have hcnt := hre.openCnt
      omega
    · have hcnt := (hre.others u hut).1
      rw [count_eq_zero fun file hfile => on_other (hold file hfile) hut,
        count_eq_zero fun file hfile => on_other (hnew file hfile) hut] at hcard
      omega
  sound := hre.sound h.sound

end Counts

/-! ### Files that are closed by nobody else -/

/-- The file may be closed: it is not the executable of a process. -/
def State.Closable (s : State) (f : Nat) : Prop := f < s.nextPtr ∧ ∀ P, s.runFile P ≠ some f

/-- The open files between two calls: what descriptors and mappings refer to may be closed, and the
executable of a process that has not exited is open and denies writes. -/
structure Guarded (s : State) : Prop where
  counts : Counts s.files s.fs
  bound : ∀ f file, s.files f = some file → f < s.nextPtr
  opened : ∀ p fd f, s.fds p = some fd → fd.openFile = some f → s.Closable f
  mapped : ∀ P, ∀ f ∈ s.mapped P, s.Closable f
  run : ∀ P f, s.runFile P = some f → f < s.nextPtr
  alone : ∀ P Q f, s.runFile P = some f → s.runFile Q = some f → P = Q
  running : ∀ P f, s.runFile P = some f → s.exited P = false →
    ∃ file, s.files f = some file ∧ file.denyWrite = true

/-- The files are guarded, and each process has its executable still. -/
structure Stays (s s' : State) : Prop where
  guarded : Guarded s'
  runFile : s'.runFile = s.runFile
  exited : s'.exited = s.exited
  nextPtr : s.nextPtr ≤ s'.nextPtr

theorem Stays.trans {s s1 s' : State} (h : Stays s s1) (h' : Stays s1 s') : Stays s s' :=
  ⟨h'.guarded, h'.runFile.trans h.runFile, h'.exited.trans h.exited, h.nextPtr.trans h'.nextPtr⟩

/-- Files that were guarded are guarded still. -/
def Steady (s s' : State) : Prop := Guarded s → Stays s s'

instance : IsPreorder State Steady where
  refl _ h := ⟨h, rfl, rfl, le_rfl⟩
  trans _ _ _ h h' hg := (h hg).trans (h' (h hg).guarded)

/-- No file is opened, closed or changed, and nothing else refers to one. -/
structure SameFiles (s s' : State) : Prop where
  fs : Held s.fs s'.fs
  files : s'.files = s.files
  fds : s'.fds = s.fds
  mapped : s'.mapped = s.mapped
  runFile : s'.runFile = s.runFile
  exited : s'.exited = s.exited
  nextPtr : s.nextPtr ≤ s'.nextPtr

instance : IsPreorder State SameFiles where
  refl s := ⟨Held.refl s.fs, rfl, rfl, rfl, rfl, rfl, le_rfl⟩
  trans _ _ _ h h' := ⟨h.fs.trans h'.fs, h'.files.trans h.files, h'.fds.trans h.fds,
    h'.mapped.trans h.mapped, h'.runFile.trans h.runFile, h'.exited.trans h.exited,
    h.nextPtr.trans h'.nextPtr⟩

variable {s s' s1 : State} {current p : Nat}

theorem State.Closable.mono (h : s.Closable f) (hrun : s'.runFile = s.runFile)
    (hptr : s.nextPtr ≤ s'.nextPtr) : s'.Closable f := by
  refine ⟨h.1.trans_le hptr, fun P => ?_⟩
  rw [hrun]
  exact h.2 P

theorem Stays.closable (h : Stays s s') (hf : s.Closable f) : s'.Closable f :=
  hf.mono h.runFile h.nextPtr

/-- The table of files changes at `f`, where no executable stops denying writes. -/
theorem Guarded.setFile (h : Guarded s) (hcounts : Counts (Function.update s.files f o) fs')
    (hbound : f < s.nextPtr) (hdeny : ∀ P, s.runFile P = some f → s.exited P = false →
      ∃ file, o = some file ∧ file.denyWrite = true) :
    Guarded { s with fs := fs', files := Function.update s.files f o } where
  counts := hcounts
  bound g file hg := by
    by_cases hgf : g = f
    · rw [hgf]
      exact hbound
    · exact h.bound g file ((Function.update_of_ne hgf ..).symm.trans hg)
  opened := h.opened
  mapped := h.mapped
  run := h.run
  alone := h.alone
  running P g hg hexited := by
    dsimp only
    by_cases hgf : g = f
    · rw [hgf, Function.update_self]
      exact hdeny P (hgf ▸ hg) hexited
    · rw [Function.update_of_ne hgf]
      exact h.running P g hg hexited

theorem SameFiles.steady (h : SameFiles s s') : Steady s s' := by
  refine fun hg => ⟨?_, h.runFile, h.exited, h.nextPtr⟩
  refine ⟨?_, fun f file hf => ?_, fun p fd f hfd hf => ?_, fun P f hf => ?_, fun P f hf => ?_,
    fun P Q f => ?_, fun P f => ?_⟩
  · rw [h.files]
    exact hg.counts.held h.fs
  · rw [h.files] at hf
    exact (hg.bound f file hf).trans_le h.nextPtr
  · rw [h.fds] at hfd
    exact (hg.opened p fd f hfd hf).mono h.runFile h.nextPtr
  · rw [h.mapped] at hf
    exact (hg.mapped P f hf).mono h.runFile h.nextPtr
  · rw [h.runFile] at hf
    exact (hg.run P f hf).trans_le h.nextPtr
  · rw [h.runFile]
    exact hg.alone P Q f
  · rw [h.runFile, h.exited, h.files]
    exact hg.running P f

/-! ### What changes no file -/

theorem onFs_sameFiles {α : Type} {m : FsRoutine α} (hm : Keeps Held m) :
    Keeps SameFiles (onFs m) := by
  intro s a s' hrun
  unfold onFs at hrun
  split at hrun
  · rename_i hok
    cases hrun
    exact ⟨hm _ _ _ hok, rfl, rfl, rfl, rfl, rfl, le_rfl⟩
  · nomatch hrun

theorem getFile_sameFiles (f : Nat) : Keeps SameFiles (getFile f) := by
  intro s file s' hrun
  rw [(getFile_ok hrun).1]
  exact refl_of SameFiles s

theorem getFd_sameFiles (p : Nat) : Keeps SameFiles (getFd p) := by
  intro s fd s' hrun
  rw [(getFd_ok hrun).1]
  exact refl_of SameFiles s

theorem newPtr_sameFiles : Keeps SameFiles newPtr := by
  intro s a s' hrun
  cases hrun
  exact ⟨Held.refl _, rfl, rfl, rfl, rfl, rfl, Nat.le_succ _⟩

theorem getDir_sameFiles (d : Nat) : Keeps SameFiles (getDir d) := by
  refine Keeps.get.bind fun s => ?_
  split
  · exact Keeps.pure
  · exact Keeps.throw

theorem setDir_sameFiles (d : Nat) (dir : Dir) : Keeps SameFiles (setDir d dir) :=
  Keeps.modify fun _ => ⟨Held.refl _, rfl, rfl, rfl, rfl, rfl, le_rfl⟩

theorem dropOpenFdCnt_sameFiles (dir : Option Nat) : Keeps SameFiles (dropOpenFdCnt dir) := by
  cases dir with
  | none => exact Keeps.throw
  | some d =>
    refine (getDir_sameFiles d).bind fun dir => Keeps.modify fun _ => ?_
    exact ⟨Held.refl _, rfl, rfl, rfl, rfl, rfl, le_rfl⟩

theorem listPrev_sameFiles (e : Elem) : Keeps SameFiles (listPrev e) := by
  refine Keeps.get.bind fun s => ?_
  split
  · exact Keeps.pure
  · exact Keeps.throw

theorem listNext_sameFiles (e : Elem) : Keeps SameFiles (listNext e) := by
  refine Keeps.get.bind fun s => ?_
  split
  · exact Keeps.pure
  · exact Keeps.throw

theorem listPushFront_sameFiles (e : Elem) : Keeps SameFiles (listPushFront e) := by
  refine (listNext_sameFiles _).bind fun before => Keeps.get.bind fun s => Keeps.check fun _ => ?_
  exact Keeps.modify fun _ => ⟨Held.refl _, rfl, rfl, rfl, rfl, rfl, le_rfl⟩

theorem listRemove_sameFiles (e : Elem) : Keeps SameFiles (listRemove e) := by
  refine Keeps.get_bind fun s r s' hrun => ?_
  split_ifs at hrun
  · nomatch hrun
  · cases hrun
    exact ⟨Held.refl _, rfl, rfl, rfl, rfl, rfl, le_rfl⟩

theorem getFileDescriptorFrom_sameFiles (fdNum : Int) (fuel : Nat) (e : Elem) :
    Keeps SameFiles (getFileDescriptorFrom current fdNum fuel e) := by
  induction fuel generalizing e with
  | zero => exact Keeps.throw
  | succ fuel ih =>
    refine (listPrev_sameFiles e).bind fun e' => ?_
    cases e' with
    | head => exact Keeps.pure
    | tail => exact Keeps.throw
    | fd p =>
      refine (getFd_sameFiles p).bind fun fd => ?_
      exact Keeps.ite (fun _ => Keeps.pure) fun _ => ih _

theorem getFileDescriptor_sameFiles (fdNum : Int) :
    Keeps SameFiles (getFileDescriptor current fdNum) :=
  Keeps.get.bind fun _ => getFileDescriptorFrom_sameFiles fdNum _ _

/-! ### What changes files -/

theorem mem_of_files (hfile : s.files f = some file) : ∀ g ∈ s.files f, g = file :=
  fun _ hg => Option.some.inj (hg.symm.trans hfile)

/-- The position of a file changes. -/
theorem setPos_steady (hfile : s.files f = some file) (pos : Int) :
    Steady s { s with files := Function.update s.files f (some { file with pos }) } := by
  refine fun h => ⟨?_, rfl, rfl, le_rfl⟩
  refine h.setFile (h.counts.update ((Held.refl s.fs).recounted file.inode) (fun g hg => ?_)
    (fun g hg => ?_) ?_ ?_) (h.bound f file hfile) fun P hP hexited => ?_
  · rw [mem_of_files hfile g hg]
  · rw [← Option.some.inj hg]
  · rw [hfile]
    exact le_rfl
  · rw [hfile]
    rfl
  · obtain ⟨file', hfile', hdeny⟩ := h.running P f hP hexited
    cases hfile.symm.trans hfile'
    exact ⟨_, rfl, hdeny⟩

theorem fileLength_steady (f : Option Nat) : Keeps Steady (fileLength f) := by
  cases f with
  | none => exact Keeps.throw
  | some f =>
    refine (getFile_sameFiles f).mono (fun _ _ h => h.steady) |>.bind fun file => ?_
    exact (onFs_sameFiles (inodeLength_held _)).mono fun _ _ h => h.steady

theorem fileSeek_steady (newPos : Int) (f : Option Nat) : Keeps Steady (fileSeek newPos f) := by
  cases f with
  | none => exact Keeps.throw
  | some f =>
    refine Keeps.check fun _ => ?_
    intro s r s' hrun
    obtain ⟨file, s1, hget, hset⟩ := bind_ok.mp hrun
    obtain ⟨rfl, hfile⟩ := getFile_ok hget
    cases hset
    exact setPos_steady hfile newPos

theorem fileTell_steady (f : Option Nat) : Keeps Steady (fileTell f) := by
  cases f with
  | none => exact Keeps.throw
  | some f =>
    exact ((getFile_sameFiles f).mono fun _ _ h => h.steady).bind fun _ => Keeps.pure

section

variable (hcalls : calls.KeepInodes)

include hcalls

theorem fileRead_steady (size : Int) (f : Option Nat) : Keeps Steady (fileRead calls size f) := by
  cases f with
  | none => exact Keeps.throw
  | some f =>
    intro s r s' hrun
    obtain ⟨file, s1, hget, hrest⟩ := bind_ok.mp hrun
    obtain ⟨rfl, hfile⟩ := getFile_ok hget
    obtain ⟨bytes, s2, hread, hrest⟩ := bind_ok.mp hrest
    obtain ⟨fs', hread', rfl⟩ := onFs_ok hread
    cases hrest
    have hsame := onFs_sameFiles (inodeReadAt_held hcalls _ _ _) _ _ _ hread
    have hfile' : ({ s1 with fs := fs' } : State).files f = some file := hfile
    exact trans_of Steady hsame.steady (setPos_steady hfile' _)

theorem fileWrite_steady (buffer : List UInt8) (f : Option Nat) :
    Keeps Steady (fileWrite calls buffer f) := by
  cases f with
  | none => exact Keeps.throw
  | some f =>
    intro s r s' hrun
    obtain ⟨file, s1, hget, hrest⟩ := bind_ok.mp hrun
    obtain ⟨rfl, hfile⟩ := getFile_ok hget
    obtain ⟨written, s2, hwrite, hrest⟩ := bind_ok.mp hrest
    obtain ⟨fs', hwrite', rfl⟩ := onFs_ok hwrite
    cases hrest
    have hsame := onFs_sameFiles (inodeWriteAt_held hcalls _ _ _) _ _ _ hwrite
    have hfile' : ({ s1 with fs := fs' } : State).files f = some file := hfile
    exact trans_of Steady hsame.steady (setPos_steady hfile' _)

end

/-- `file_deny_write` counts the file among those that deny writes. -/
theorem fileDenyWrite_ok (h : Counts s.files s.fs) (hrun : fileDenyWrite f s = .ok ((), s')) :
    ∃ file fs', s.files f = some file ∧
      Counts (Function.update s.files f (some { file with denyWrite := true })) fs' ∧
      s' = { s with
        fs := fs'
        files := Function.update s.files f (some { file with denyWrite := true }) } := by
  obtain ⟨file, s1, hget, hrest⟩ := bind_ok.mp hrun
  obtain ⟨rfl, hfile⟩ := getFile_ok hget
  refine ⟨file, ?_⟩
  by_cases hdeny : file.denyWrite = true
  · rw [if_pos hdeny] at hrest
    cases hrest
    have hself : Function.update s'.files f (some { file with denyWrite := true }) = s'.files := by
      rw [← hdeny, ← hfile]
      exact Function.update_eq_self ..
    rw [hself]
    exact ⟨s'.fs, hfile, h, rfl⟩
  · rw [if_neg hdeny] at hrest
    obtain ⟨⟨⟩, s2, hset, hrest⟩ := bind_ok.mp hrest
    cases hset
    obtain ⟨fs', hok, rfl⟩ := onFs_ok hrest
    refine ⟨fs', hfile, ?_, rfl⟩
    rw [Bool.not_eq_true] at hdeny
    refine h.update (inodeDenyWrite_recounted hok) (fun g hg => ?_) (fun g hg => ?_) ?_ ?_
    · rw [mem_of_files hfile g hg]
    · rw [← Option.some.inj hg]
    · rw [hfile]
      exact le_rfl
    · rw [hfile]
      simp [denies, on, hdeny]

/-- `file_allow_write` of an open file. -/
theorem fileAllowWrite_ok (h : Counts s.files s.fs) (hrun : fileAllowWrite f s = .ok ((), s')) :
    ∃ file fs', s.files f = some file ∧
      Counts (Function.update s.files f (some { file with denyWrite := false })) fs' ∧
      s' = { s with
        fs := fs'
        files := Function.update s.files f (some { file with denyWrite := false }) } := by
  obtain ⟨file, s1, hget, hrest⟩ := bind_ok.mp hrun
  obtain ⟨rfl, hfile⟩ := getFile_ok hget
  refine ⟨file, ?_⟩
  by_cases hdeny : file.denyWrite = true
  · rw [if_pos hdeny] at hrest
    obtain ⟨⟨⟩, s2, hset, hrest⟩ := bind_ok.mp hrest
    cases hset
    obtain ⟨fs', hok, rfl⟩ := onFs_ok hrest
    refine ⟨fs', hfile, ?_, rfl⟩
    refine h.update (inodeAllowWrite_recounted hok) (fun g hg => ?_) (fun g hg => ?_) ?_ ?_
    · rw [mem_of_files hfile g hg]
    · rw [← Option.some.inj hg]
    · rw [hfile]
      exact le_rfl
    · rw [hfile]
      simp [denies, on, hdeny]
  · rw [if_neg hdeny] at hrest
    cases hrest
    rw [Bool.not_eq_true] at hdeny
    have hself : Function.update s'.files f (some { file with denyWrite := false }) = s'.files := by
      rw [← hdeny, ← hfile]
      exact Function.update_eq_self ..
    rw [hself]
    exact ⟨s'.fs, hfile, h, rfl⟩

/-- Where an inode has no more references than files on it, and one of these does not deny writes, the
last reference is that file's. -/
theorem Counts.last (h : Counts files fs) (hfile : files f = some file)
    (hdeny : file.denyWrite = false) (hone : fs.openCnt file.inode = 1) :
    fs.denyWriteCnt file.inode = 0 := by
  have hon : f ∈ having files (on file.inode) := mem_having.mpr ⟨file, hfile, decide_eq_true rfl⟩
  have hle := h.openCnt file.inode
  rw [hone] at hle
  rw [h.denyWriteCnt, Set.ncard_eq_zero (h.finite_denies _), Set.eq_empty_iff_forall_notMem]
  intro g hg
  obtain rfl := (Set.ncard_le_one (h.finite file.inode)).mp hle g (denies_subset _ _ hg) f hon
  obtain ⟨file', hfile', hdenies⟩ := mem_having.mp hg
  cases hfile.symm.trans hfile'
  rw [denies, hdeny, Bool.and_false] at hdenies
  nomatch hdenies

/-- `file_close` of an open file. -/
theorem fileClose_ok (hcalls : calls.KeepInodes) (h : Counts s.files s.fs)
    (hrun : fileClose calls (some f) s = .ok ((), s')) :
    ∃ file fs', s.files f = some file ∧ Counts (Function.update s.files f none) fs' ∧
      s' = { s with fs := fs', files := Function.update s.files f none } := by
  rw [fileClose] at hrun
  obtain ⟨⟨⟩, s1, hallow, hrest⟩ := bind_ok.mp hrun
  obtain ⟨file, fs1, hfile, hcounts, rfl⟩ := fileAllowWrite_ok h hallow
  obtain ⟨file', s2, hget, hrest⟩ := bind_ok.mp hrest
  obtain ⟨rfl, hfile'⟩ := getFile_ok hget
  dsimp only at hfile'
  rw [Function.update_self] at hfile'
  obtain rfl := Option.some.inj hfile'
  obtain ⟨⟨⟩, s3, hclose, hfree⟩ := bind_ok.mp hrest
  obtain ⟨fs', hok, rfl⟩ := onFs_ok hclose
  cases hfree
  refine ⟨file, fs', hfile, ?_, by simp only [Function.update_idem]⟩
  have hlast := fun hone => hcounts.last (Function.update_self ..) rfl hone
  have hidem : Function.update (Function.update s.files f (some { file with denyWrite := false })) f
      none = Function.update s.files f none := Function.update_idem ..
  rw [← hidem]
  refine hcounts.update (inodeClose_recounted hcalls hlast hok) (fun g hg => ?_) nofun ?_ ?_
  · rw [Function.update_self] at hg
    rw [← Option.some.inj hg]
  · rw [Function.update_self]
    simp [on]
  · rw [Function.update_self]
    simp [denies]

theorem fileClose_steady (hcalls : calls.KeepInodes) (hf : s.Closable f)
    (hrun : fileClose calls (some f) s = .ok ((), s')) : Steady s s' := by
  intro h
  obtain ⟨file, fs', hfile, hcounts, rfl⟩ := fileClose_ok hcalls h.counts hrun
  refine ⟨?_, rfl, rfl, le_rfl⟩
  exact h.setFile hcounts hf.1 fun P hP _ => absurd hP (hf.2 P)

/-- A file is opened that refers to an inode for the first time. -/
theorem fileOpen_ok (h : Guarded s) {fs1 : FileSys} (hre : Recounted t 1 0 0 0 s.fs fs1)
    (hrun : fileOpen t { s with fs := fs1 } = .ok (f, s')) :
    f = s.nextPtr ∧ s' = { s with
      fs := fs1, nextPtr := s.nextPtr + 1,
      files := Function.update s.files f (some ⟨t, 0, false⟩) } ∧
    Counts s'.files fs1 := by
  obtain ⟨g, s1, hptr, hrest⟩ := bind_ok.mp hrun
  cases hptr
  obtain ⟨⟨⟩, s2, hset, hpure⟩ := bind_ok.mp hrest
  cases hset
  cases hpure
  have hnone : s.files s.nextPtr = none := by
    cases hfile : s.files s.nextPtr with
    | none => rfl
    | some file => exact absurd (h.bound _ file hfile) (Nat.lt_irrefl _)
  refine ⟨rfl, rfl, h.counts.update hre (fun g hg => ?_) (fun g hg => ?_) ?_ ?_⟩
  · rw [hnone] at hg
    nomatch hg
  · rw [← Option.some.inj hg]
  · rw [hnone]
    simp [on]
  · rw [hnone]
    simp [denies]

theorem Guarded.fresh (h : Guarded s) (P : Nat) : s.runFile P ≠ some s.nextPtr :=
  fun hP => Nat.lt_irrefl _ (h.run P _ hP)

/-- Guarded files to which an open one is added. -/
theorem Guarded.addFile (h : Guarded s)
    (hcounts : Counts (Function.update s.files s.nextPtr (some file)) fs') :
    Stays s { s with
      fs := fs'
      nextPtr := s.nextPtr + 1
      files := Function.update s.files s.nextPtr (some file) } := by
  have hmono : ∀ f, s.Closable f → State.Closable { s with
      fs := fs'
      nextPtr := s.nextPtr + 1
      files := Function.update s.files s.nextPtr (some file) } f :=
    fun f hf => hf.mono rfl (Nat.le_succ _)
  refine ⟨⟨hcounts, fun g file' hg => ?_, fun p fd g hfd hg => hmono g (h.opened p fd g hfd hg),
    fun P g hg => hmono g (h.mapped P g hg), fun P g hg => (h.run P g hg).trans (Nat.lt_succ_self _),
    h.alone, fun P g hg hexited => ?_⟩, rfl, rfl, Nat.le_succ _⟩
  · by_cases hgf : g = s.nextPtr
    · rw [hgf]
      exact Nat.lt_succ_self _
    · exact (h.bound g file' ((Function.update_of_ne hgf ..).symm.trans hg)).trans
        (Nat.lt_succ_self _)
  · have hgf : g ≠ s.nextPtr := by
      rintro rfl
      exact h.fresh P hg
    dsimp only
    rw [Function.update_of_ne hgf]
    exact h.running P g hg hexited

/-- A file is opened on an inode that gets a reference. -/
theorem fileOpen_stays (h : Guarded s) {m : FsRoutine Unit} {s1 : State}
    (hm : ∀ fs fs', m fs = .ok ((), fs') → Recounted t 1 0 0 0 fs fs')
    (hopen : onFs m s = .ok ((), s1)) (hrun : fileOpen t s1 = .ok (f, s')) :
    Stays s s' ∧ s'.Closable f := by
  obtain ⟨fs1, hok, rfl⟩ := onFs_ok hopen
  obtain ⟨rfl, rfl, hcounts⟩ := fileOpen_ok h (hm _ _ hok) hrun
  exact ⟨h.addFile hcounts, Nat.lt_succ_self _, h.fresh⟩

/-! ### Calls on descriptors -/

/-- A descriptor is stored whose file may be closed. -/
theorem setFd_steady (fd : FileDescriptor) (hfd : ∀ f, fd.openFile = some f → s.Closable f) :
    Steady s { s with fds := Function.update s.fds p (some fd) } := by
  refine fun h => ⟨⟨h.counts, h.bound, fun q fd' f hq hf => ?_, h.mapped, h.run, h.alone,
    h.running⟩, rfl, rfl, le_rfl⟩
  by_cases hqp : q = p
  · rw [hqp] at hq
    dsimp only at hq
    rw [Function.update_self] at hq
    exact hfd f (Option.some.inj hq ▸ hf)
  · exact h.opened q fd' f ((Function.update_of_ne hqp ..).symm.trans hq) hf

theorem freeFd_steady (p : Nat) : Keeps Steady (freeFd p) := by
  refine Keeps.modify fun s h => ⟨⟨h.counts, h.bound, fun q fd' f hq hf => ?_, h.mapped, h.run,
    h.alone, h.running⟩, rfl, rfl, le_rfl⟩
  by_cases hqp : q = p
  · rw [hqp] at hq
    dsimp only at hq
    rw [Function.update_self] at hq
    nomatch hq
  · exact h.opened q fd' f ((Function.update_of_ne hqp ..).symm.trans hq) hf

theorem addDescriptor_steady {openFile openDir : Option Nat} {isDir : Bool} {n : Int}
    (hfile : ∀ f, openFile = some f → s.Closable f)
    (hrun : addDescriptor current p openFile openDir isDir s = .ok (n, s')) : Steady s s' := by
  rw [addDescriptor, get_bind_apply, set_bind_apply] at hrun
  obtain ⟨⟨⟩, s1, hpush, hrest⟩ := bind_ok.mp hrun
  have hs' := (Prod.mk.inj (Except.ok.inj hrest)).2
  subst hs'
  have hstore := setFd_steady (p := p) ⟨toOff s.fdCount, openFile, openDir, current, isDir⟩ hfile
  have hlist := (listPushFront_sameFiles _ _ _ _ hpush).steady
  have hcount : SameFiles s1 { s1 with fdCount := (s1.fdCount + 1) % 2 ^ 32 } :=
    ⟨Held.refl _, rfl, rfl, rfl, rfl, rfl, le_rfl⟩
  exact trans_of Steady (trans_of Steady hstore hlist) hcount.steady

theorem openFileOrDir_steady (found : Found) : Keeps Steady (openFileOrDir current found) := by
  cases found with
  | nothing => exact Keeps.pure
  | dir sector =>
    intro s n s' hrun
    rw [openFileOrDir] at hrun
    obtain ⟨p, s1, hptr, hrest⟩ := bind_ok.mp hrun
    obtain ⟨d, s2, hptr', hrest⟩ := bind_ok.mp hrest
    obtain ⟨⟨⟩, s3, hdir, hrest⟩ := bind_ok.mp hrest
    obtain ⟨⟨⟩, s4, hcnt, hadd⟩ := bind_ok.mp hrest
    cases hcnt
    have hsame := trans_of SameFiles (newPtr_sameFiles _ _ _ hptr) (newPtr_sameFiles _ _ _ hptr')
    have hsame := trans_of SameFiles hsame (setDir_sameFiles _ _ _ _ _ hdir)
    refine trans_of Steady hsame.steady (trans_of Steady (SameFiles.steady ?_)
      (addDescriptor_steady ?_ hadd))
    · exact ⟨Held.refl _, rfl, rfl, rfl, rfl, rfl, le_rfl⟩
    · simp
  | file sector =>
    intro s n s' hrun
    rw [openFileOrDir] at hrun
    obtain ⟨p, s1, hptr, hrest⟩ := bind_ok.mp hrun
    obtain ⟨⟨⟩, s2, hopen, hrest⟩ := bind_ok.mp hrest
    obtain ⟨f, s3, hfile, hadd⟩ := bind_ok.mp hrest
    intro h
    have hstays := (newPtr_sameFiles _ _ _ hptr).steady h
    obtain ⟨hstays', hf⟩ := fileOpen_stays hstays.guarded (fun _ _ => inodeOpen_recounted) hopen hfile
    have hadded := addDescriptor_steady (fun g hg => Option.some.inj hg ▸ hf) hadd
    exact (hstays.trans hstays').trans (hadded hstays'.guarded)

section

variable (hcalls : calls.KeepInodes)

include hcalls

/-- What a descriptor in memory refers to may be closed. -/
theorem closeOpened_steady {fd : FileDescriptor} (hfd : s.fds p = some fd)
    (hrun : closeOpened calls fd s = .ok ((), s')) : Steady s s' := by
  intro h
  unfold closeOpened at hrun
  split_ifs at hrun with hdir
  · exact (dropOpenFdCnt_sameFiles _ _ _ _ hrun).steady h
  · cases hfile : fd.openFile with
    | none =>
      rw [hfile] at hrun
      cases hrun
      exact ⟨h, rfl, rfl, le_rfl⟩
    | some f =>
      rw [hfile] at hrun
      exact fileClose_steady hcalls (h.opened p fd f hfd hfile) hrun h

theorem closeOpenFileOrDir_steady (fdNum : Int) :
    Keeps Steady (closeOpenFileOrDir calls current fdNum) := by
  refine ((getFileDescriptor_sameFiles fdNum).mono fun _ _ h => h.steady).bind fun r => ?_
  cases r with
  | none => exact Keeps.pure
  | some p =>
    intro s r s' hrun
    obtain ⟨fd, s1, hget, hrest⟩ := bind_ok.mp hrun
    obtain ⟨rfl, hfd⟩ := getFd_ok hget
    split_ifs at hrest with howner
    · obtain ⟨⟨⟩, s2, hclose, hrest⟩ := bind_ok.mp hrest
      obtain ⟨⟨⟩, s3, hremove, hfree⟩ := bind_ok.mp hrest
      have hlist := (listRemove_sameFiles _ _ _ _ hremove).steady
      exact trans_of Steady (closeOpened_steady hcalls hfd hclose)
        (trans_of Steady hlist (freeFd_steady p _ _ _ hfree))
    · cases hrest
      exact refl_of Steady _

theorem closeAllFrom_steady (fuel : Nat) (e : Elem) :
    Keeps Steady (closeAllFrom calls current fuel e) := by
  induction fuel generalizing e with
  | zero => exact Keeps.throw
  | succ fuel ih =>
    refine ((listPrev_sameFiles e).mono fun _ _ h => h.steady).bind fun e' => ?_
    cases e' with
    | head => exact Keeps.pure
    | tail => exact Keeps.throw
    | fd p =>
      intro s r s' hrun
      obtain ⟨fd, s1, hget, hrest⟩ := bind_ok.mp hrun
      obtain ⟨rfl, hfd⟩ := getFd_ok hget
      split_ifs at hrest with howner
      · obtain ⟨⟨⟩, s2, hclose, hrest⟩ := bind_ok.mp hrest
        have hkeeps : Keeps Steady (do
            let e ← listNext (.fd p)
            listRemove (.fd p)
            freeFd p
            closeAllFrom calls current fuel e) := by
          refine ((listNext_sameFiles _).mono fun _ _ h => h.steady).bind fun e => ?_
          refine ((listRemove_sameFiles _).mono fun _ _ h => h.steady).bind fun _ => ?_
          exact (freeFd_steady p).bind fun _ => ih e
        exact trans_of Steady (closeOpened_steady hcalls hfd hclose) (hkeeps _ _ _ hrest)
      · exact ih _ _ _ _ hrest

theorem unmapFile_steady {pages : List (Int × List UInt8)} (hf : s.Closable f)
    (hrun : unmapFile calls f pages s = .ok ((), s')) : Steady s s' := by
  intro h
  obtain ⟨⟨⟩, s1, hpages, hclose⟩ := bind_ok.mp hrun
  have hkeeps : Keeps Steady (pages.forM fun page => do
      fileSeek page.1 (some f)
      let _ ← fileWrite calls page.2 (some f)) := by
    refine Keeps.forM fun page _ => (fileSeek_steady _ _).bind fun _ => ?_
    exact (fileWrite_steady hcalls _ _).bind fun _ => Keeps.pure
  have hstays := hkeeps _ _ _ hpages h
  exact hstays.trans (fileClose_steady hcalls (hstays.closable hf) hclose hstays.guarded)

/-- The files of a list of mappings are closed. -/
theorem unmapAll_steady {fs : List Nat} {pages : Nat → List (Int × List UInt8)}
    (hfs : ∀ f ∈ fs, s.Closable f)
    (hrun : (fs.forM fun f => unmapFile calls f (pages f)) s = .ok ((), s')) : Steady s s' := by
  induction fs generalizing s with
  | nil =>
    cases hrun
    exact refl_of Steady _
  | cons f fs ih =>
    intro h
    rw [List.forM_eq_forM, List.forM_cons] at hrun
    obtain ⟨⟨⟩, s1, hfirst, hrest⟩ := bind_ok.mp hrun
    have hstays := unmapFile_steady hcalls (hfs f List.mem_cons_self) hfirst h
    have hrest := ih (fun g hg => hstays.closable (hfs g (List.mem_cons_of_mem _ hg))) hrest
    exact hstays.trans (hrest hstays.guarded)

theorem closeAllFilesAndDir_steady (pages : Nat → List (Int × List UInt8)) :
    Keeps Steady (closeAllFilesAndDir calls current pages) := by
  intro s r s' hrun h
  rw [closeAllFilesAndDir, get_bind_apply] at hrun
  obtain ⟨⟨⟩, s1, hsweep, hrest⟩ := bind_ok.mp hrun
  rw [get_bind_apply] at hrest
  obtain ⟨⟨⟩, s2, hunmap, hclear⟩ := bind_ok.mp hrest
  cases hclear
  have hstays := closeAllFrom_steady hcalls _ _ _ _ _ hsweep h
  have hunmapped := unmapAll_steady hcalls (hstays.guarded.mapped current) hunmap hstays.guarded
  have hg := hunmapped.guarded
  refine (hstays.trans hunmapped).trans ⟨⟨hg.counts, hg.bound, hg.opened, fun P f hf => ?_, hg.run,
    hg.alone, hg.running⟩, rfl, rfl, le_rfl⟩
  by_cases hP : P = current
  · rw [hP] at hf
    dsimp only at hf
    rw [Function.update_self] at hf
    cases hf
  · dsimp only at hf
    rw [Function.update_of_ne hP] at hf
    exact hg.mapped P f hf

end

/-- A call that looks its descriptor up first. -/
theorem lookup_steady {α : Type} {fdNum : Int} {g : Option Nat → OpenRoutine α}
    {k : Nat → FileDescriptor → OpenRoutine α} (hnone : Keeps Steady (g none))
    (hg : ∀ p, g (some p) = getFd p >>= k p) (hk : ∀ p fd, Keeps Steady (k p fd)) :
    Keeps Steady (getFileDescriptor current fdNum >>= g) := by
  refine ((getFileDescriptor_sameFiles fdNum).mono fun _ _ h => h.steady).bind fun r => ?_
  cases r with
  | none => exact hnone
  | some p =>
    rw [hg p]
    exact ((getFd_sameFiles p).mono fun _ _ h => h.steady).bind (hk p)

theorem filelengthOpenFile_steady (fdNum : Int) :
    Keeps Steady (filelengthOpenFile current fdNum) :=
  lookup_steady Keeps.pure (fun _ => rfl) fun _ _ => fileLength_steady _

theorem seekOpenFile_steady (fdNum : Int) (position : Nat) :
    Keeps Steady (seekOpenFile current fdNum position) :=
  lookup_steady Keeps.pure (fun _ => rfl) fun _ _ => fileSeek_steady _ _

theorem tellOpenFile_steady (fdNum : Int) : Keeps Steady (tellOpenFile current fdNum) :=
  lookup_steady Keeps.pure (fun _ => rfl) fun _ _ => fileTell_steady _

theorem consoleLoop_sameFiles {input : Nat → UInt8} (endPtr fuel start result : Nat) :
    Keeps SameFiles (consoleLoop input current endPtr fuel start result) := by
  induction fuel generalizing start result with
  | zero => exact Keeps.throw
  | succ fuel ih =>
    refine Keeps.ite (fun _ => ?_) fun _ => Keeps.pure
    refine Keeps.get_bind fun s r t hrun => ?_
    rw [set_bind_apply] at hrun
    split_ifs at hrun with hc
    · have hrest := ih _ _ _ _ _ hrun
      exact ⟨hrest.fs, hrest.files, hrest.fds, hrest.mapped, hrest.runFile, hrest.exited,
        hrest.nextPtr⟩
    · cases hrun
      exact ⟨Held.refl _, rfl, rfl, rfl, rfl, rfl, le_rfl⟩

theorem memory_sameFiles (g : State → Nat → Nat → UInt8) :
    Keeps SameFiles (modify fun s => { s with memory := g s } : OpenRoutine Unit) :=
  Keeps.modify fun _ => ⟨Held.refl _, rfl, rfl, rfl, rfl, rfl, le_rfl⟩

theorem mapFile_steady {n : Int} {mapId : Int} (hf : s.Closable f)
    (hrun : mapFile current mapId f s = .ok (n, s')) : Steady s s' := by
  unfold mapFile at hrun
  split_ifs at hrun with hmap
  · cases hrun
    refine fun h => ⟨⟨h.counts, h.bound, h.opened, fun P g hg => ?_, h.run, h.alone, h.running⟩, rfl,
      rfl, le_rfl⟩
    dsimp only at hg
    by_cases hP : P = current
    · rw [hP, Function.update_self] at hg
      rcases List.mem_cons.mp hg with hgf | hg
      · rw [hgf]
        exact hf
      · exact h.mapped current g hg
    · rw [Function.update_of_ne hP] at hg
      exact h.mapped P g hg
  · cases hrun
    exact refl_of Steady _

theorem memoryMapFile_steady (fdNum : Int) (startPage : Nat) (mapId : Int) :
    Keeps Steady (memoryMapFile current fdNum startPage (mapFile current mapId)) := by
  refine lookup_steady Keeps.pure (fun _ => rfl) fun p fd => Keeps.ite (fun _ => Keeps.pure) fun _ => ?_
  cases fd.openFile with
  | none => exact Keeps.throw
  | some f =>
    intro s n s' hrun h
    obtain ⟨rf, s1, hreopen, hmap⟩ := bind_ok.mp hrun
    obtain ⟨file, s2, hget, hrest⟩ := bind_ok.mp hreopen
    obtain ⟨rfl, hfile⟩ := getFile_ok hget
    obtain ⟨⟨⟩, s3, hopen, hnew⟩ := bind_ok.mp hrest
    obtain ⟨hstays, hrf⟩ := fileOpen_stays h (fun _ _ => inodeReopen_recounted) hopen hnew
    exact hstays.trans (mapFile_steady hrf hmap hstays.guarded)

section

variable (hcalls : calls.KeepInodes)

include hcalls

theorem readOpenFile_steady {input : Nat → UInt8} (fdNum : Int) (buffer length : Nat) :
    Keeps Steady (readOpenFile calls input current fdNum buffer length) := by
  refine Keeps.ite (fun _ => ?_) fun _ => Keeps.ite (fun _ => Keeps.pure) fun _ => ?_
  · refine ((consoleLoop_sameFiles _ _ _ _).mono fun _ _ h => h.steady).bind fun r => ?_
    exact ((memory_sameFiles _).mono fun _ _ h => h.steady).bind fun _ => Keeps.pure
  · refine lookup_steady Keeps.pure (fun _ => rfl) fun p fd =>
      Keeps.ite (fun _ => Keeps.pure) fun _ => (fileRead_steady hcalls _ _).bind fun bytes => ?_
    exact ((memory_sameFiles _).mono fun _ _ h => h.steady).bind fun _ => Keeps.pure

theorem writeOpenFile_steady (fdNum : Int) (buffer length : Nat) (valid : Bool) :
    Keeps Steady (writeOpenFile calls current fdNum buffer length valid) := by
  refine Keeps.ite (fun _ => Keeps.pure) fun _ => Keeps.ite (fun _ => Keeps.pure) fun _ => ?_
  refine lookup_steady Keeps.pure (fun _ => rfl) fun p fd =>
    Keeps.ite (fun _ => Keeps.pure) fun _ => Keeps.get.bind fun s => ?_
  exact (fileWrite_steady hcalls _ _).bind fun _ => Keeps.pure

theorem dirReaddirFrom_sameFiles (d fuel : Nat) :
    Keeps SameFiles (dirReaddirFrom calls d fuel) := by
  induction fuel with
  | zero => exact Keeps.throw
  | succ fuel ih =>
    refine (getDir_sameFiles d).bind fun dir =>
      (onFs_sameFiles (inodeReadAt_held hcalls _ _ _)).bind fun e => ?_
    refine Keeps.ite (fun _ => (setDir_sameFiles _ _).bind fun _ => ?_) fun _ => Keeps.pure
    exact Keeps.ite (fun _ => Keeps.pure) fun _ => ih

theorem readDirectory_steady (fdNum : Int) (valid : Bool) :
    Keeps Steady (readDirectory calls current fdNum valid) := by
  refine lookup_steady Keeps.pure (fun _ => rfl) fun p fd => Keeps.ite (fun _ => Keeps.pure) fun _ => ?_
  cases fd.openDir with
  | none => exact Keeps.throw
  | some d => exact (dirReaddirFrom_sameFiles hcalls d _).mono fun _ _ h => h.steady

omit hcalls in
theorem fdInodeNumber_steady (fdNum : Int) : Keeps Steady (fdInodeNumber current fdNum) := by
  refine lookup_steady Keeps.pure (fun _ => rfl) fun p fd => ?_
  split
  · exact ((getFile_sameFiles _).mono fun _ _ h => h.steady).bind fun _ => Keeps.pure
  · exact ((getDir_sameFiles _).mono fun _ _ h => h.steady).bind fun _ => Keeps.pure
  · exact Keeps.pure

theorem loadStep_steady (f : Nat) (step : LoadStep) : Keeps Steady (step.exec calls f) := by
  cases step with
  | fileLength => exact (fileLength_steady _).map
  | fileSeek newPos => exact fileSeek_steady newPos (some f)
  | fileRead size => exact (fileRead_steady hcalls _ _).map

/-- The executable that `load` opens is guarded from then on. -/
theorem load_guarded {executable : Option Nat} {steps : List LoadStep} {r : Bool} (h : Guarded s)
    (hrun : load calls current executable steps s = .ok (r, s')) : Guarded s' := by
  cases executable with
  | none =>
    cases hrun
    exact h
  | some sector =>
    rw [load] at hrun
    obtain ⟨⟨⟩, s1, hopen, hrest⟩ := bind_ok.mp hrun
    obtain ⟨f, s2, hfile, hrest⟩ := bind_ok.mp hrest
    obtain ⟨⟨⟩, s3, hset, hrest⟩ := bind_ok.mp hrest
    obtain ⟨⟨⟩, s4, hdeny, hrest⟩ := bind_ok.mp hrest
    obtain ⟨⟨⟩, s5, hsteps, hpure⟩ := bind_ok.mp hrest
    cases hpure
    obtain ⟨fs1, hok, rfl⟩ := onFs_ok hopen
    obtain ⟨rfl, rfl, hcounts⟩ := fileOpen_ok h (inodeOpen_recounted hok) hfile
    have hcounts1 : Counts s3.files s3.fs := by
      cases hset
      exact hcounts
    obtain ⟨file, fs2, hfile, hcounts2, rfl⟩ := fileDenyWrite_ok hcounts1 hdeny
    cases hset
    refine ((Keeps.forM fun step _ => loadStep_steady hcalls s.nextPtr step) _ _ _ hsteps ?_).guarded
    -- nothing refers to the new file yet
    have hother : ∀ g, s.Closable g → g ≠ s.nextPtr := fun g hg => Nat.ne_of_lt hg.1
    have hkept : ∀ g, s.Closable g → g < s.nextPtr + 1 ∧
        ∀ P, Function.update s.runFile current (some s.nextPtr) P ≠ some g := by
      refine fun g hg => ⟨Nat.lt_succ_of_lt hg.1, fun P => ?_⟩
      by_cases hP : P = current
      · rw [hP, Function.update_self]
        exact fun heq => hother g hg (Option.some.inj heq).symm
      · rw [Function.update_of_ne hP]
        exact hg.2 P
    have holds : ∀ P g, Function.update s.runFile current (some s.nextPtr) P = some g →
        P = current ∧ g = s.nextPtr ∨ P ≠ current ∧ s.runFile P = some g := by
      intro P g hg
      by_cases hP : P = current
      · rw [hP, Function.update_self] at hg
        exact .inl ⟨hP, (Option.some.inj hg).symm⟩
      · rw [Function.update_of_ne hP] at hg
        exact .inr ⟨hP, hg⟩
    refine ⟨hcounts2, fun g file' hg => ?_, fun p fd g hfd hg => hkept g (h.opened p fd g hfd hg),
      fun P g hg => hkept g (h.mapped P g hg), fun P g hg => ?_, fun P Q g hP hQ => ?_,
      fun P g hg hexited => ?_⟩
    · dsimp only at hg ⊢
      by_cases hgf : g = s.nextPtr
      · rw [hgf]
        exact Nat.lt_succ_self _
      · rw [Function.update_of_ne hgf, Function.update_of_ne hgf] at hg
        exact Nat.lt_succ_of_lt (h.bound g file' hg)
    · dsimp only at hg ⊢
      rcases holds P g hg with ⟨-, rfl⟩ | ⟨-, hg⟩
      · exact Nat.lt_succ_self _
      · exact Nat.lt_succ_of_lt (h.run P g hg)
    · rcases holds P g hP with ⟨hPeq, hgeq⟩ | ⟨-, hPg⟩ <;>
        rcases holds Q g hQ with ⟨hQeq, hgeq'⟩ | ⟨-, hQg⟩
      · rw [hPeq, hQeq]
      · rw [hgeq] at hQg
        exact absurd hQg (h.fresh Q)
      · rw [hgeq'] at hPg
        exact absurd hPg (h.fresh P)
      · exact h.alone P Q g hPg hQg
    · dsimp only
      rcases holds P g hg with ⟨-, rfl⟩ | ⟨-, hg⟩
      · rw [Function.update_self]
        exact ⟨_, rfl, rfl⟩
      · have hgf : g ≠ s.nextPtr := fun heq => h.fresh P (heq ▸ hg)
        rw [Function.update_of_ne hgf, Function.update_of_ne hgf]
        exact h.running P g hg hexited

/-- A process that exits closes its executable, which is no other's. -/
theorem threadExit_guarded {pages : Nat → List (Int × List UInt8)} (h : Guarded s)
    (hrun : threadExit calls current pages s = .ok ((), s')) : Guarded s' := by
  obtain ⟨⟨⟩, s1, hclose, hrest⟩ := bind_ok.mp hrun
  have hstays := closeAllFilesAndDir_steady hcalls pages _ _ _ hclose h
  rw [get_bind_apply] at hrest
  obtain ⟨⟨⟩, s2, hfile, hexit⟩ := bind_ok.mp hrest
  cases hexit
  have hg := hstays.guarded
  have halive : ∀ P, Function.update s1.exited current true P = false →
      P ≠ current ∧ s1.exited P = false := by
    intro P hP
    by_cases heq : P = current
    · rw [heq, Function.update_self] at hP
      nomatch hP
    · rw [Function.update_of_ne heq] at hP
      exact ⟨heq, hP⟩
  cases hf : s1.runFile current with
  | none =>
    rw [hf] at hfile
    cases hfile
    exact ⟨hg.counts, hg.bound, hg.opened, hg.mapped, hg.run, hg.alone,
      fun P g hP hexited => hg.running P g hP (halive P hexited).2⟩
  | some f =>
    rw [hf] at hfile
    obtain ⟨file, fs', hfile', hcounts, rfl⟩ := fileClose_ok hcalls hg.counts hfile
    refine ⟨hcounts, fun g file' hg' => ?_, hg.opened, hg.mapped, hg.run, hg.alone,
      fun P g hP hexited => ?_⟩
    · by_cases hgf : g = f
      · rw [hgf]
        exact hg.bound f file hfile'
      · exact hg.bound g file' ((Function.update_of_ne hgf ..).symm.trans hg')
    · obtain ⟨hne, hexited⟩ := halive P hexited
      have hgf : g ≠ f := fun heq => hne (hg.alone P current f (heq ▸ hP) hf)
      dsimp only
      rw [Function.update_of_ne hgf]
      exact hg.running P g hP hexited

end

/-! ### Runs -/

/-- A request to close an inode gives back a reference that no open file has. -/
def NotOverClosed (request : Nat × Call) (s : State) : Prop :=
  ∀ sector, request.2 = .inodeClose sector → s.exited request.1 = false →
    (s.filesOn sector).ncard < s.fs.openCnt sector

/-- A reference to an inode is closed that no file has. -/
theorem Guarded.closeInode (h : Guarded s) (hlt : (s.filesOn t).ncard < s.fs.openCnt t)
    (hre : Recounted t 0 1 0 0 s.fs fs') : Guarded { s with fs := fs' } := by
  refine ⟨⟨h.counts.finite, fun u => ?_, fun u => ?_, hre.sound h.counts.sound⟩, h.bound, h.opened,
    h.mapped, h.run, h.alone, h.running⟩
  · by_cases hut : u = t
    · rw [hut]
      exact hre.denyWriteCnt.trans (h.counts.denyWriteCnt t)
    · exact (hre.others u hut).2.trans (h.counts.denyWriteCnt u)
  · by_cases hut : u = t
    · rw [hut]
      have hopen := hre.openCnt
      change (having s.files (on t)).ncard < _ at hlt
      change (having s.files (on t)).ncard ≤ fs'.openCnt t
      omega
    · exact (h.counts.openCnt u).trans (hre.others u hut).1

/-- Every call leaves the files guarded. -/
theorem exec_guarded {input : Nat → UInt8} {request : Nat × Call} {r : Int}
    (hcalls : calls.KeepInodes) (h : Guarded s) (hclosed : NotOverClosed request s)
    (hrun : exec calls input request s = .ok (r, s')) : Guarded s' := by
  obtain ⟨current, call⟩ := request
  rw [exec, get_bind_apply] at hrun
  dsimp only at hrun
  split_ifs at hrun with hexited
  · cases hrun
    exact h
  · cases call with
    | openFileOrDir found => exact (openFileOrDir_steady found _ _ _ hrun h).guarded
    | closeOpenFileOrDir fdNum =>
      exact ((closeOpenFileOrDir_steady hcalls fdNum).map _ _ _ hrun h).guarded
    | filelengthOpenFile fdNum =>
      exact (filelengthOpenFile_steady fdNum _ _ _ hrun h).guarded
    | readOpenFile fdNum buffer length =>
      exact (readOpenFile_steady hcalls fdNum buffer length _ _ _ hrun h).guarded
    | writeOpenFile fdNum buffer length valid =>
      exact (writeOpenFile_steady hcalls fdNum buffer length valid _ _ _ hrun h).guarded
    | seekOpenFile fdNum position =>
      exact ((seekOpenFile_steady fdNum position).map _ _ _ hrun h).guarded
    | tellOpenFile fdNum => exact (tellOpenFile_steady fdNum _ _ _ hrun h).guarded
    | memoryMapFile fdNum startPage mapId =>
      exact (memoryMapFile_steady fdNum startPage mapId _ _ _ hrun h).guarded
    | readDirectory fdNum valid =>
      exact ((readDirectory_steady hcalls fdNum valid).map _ _ _ hrun h).guarded
    | fdInodeNumber fdNum => exact (fdInodeNumber_steady fdNum _ _ _ hrun h).guarded
    | load executable steps =>
      obtain ⟨success, hload, -⟩ := map_ok hrun
      exact load_guarded hcalls h hload
    | threadExit pages =>
      obtain ⟨⟨⟩, hexit, -⟩ := map_ok hrun
      exact threadExit_guarded hcalls h hexit
    | inodeOpen sector =>
      exact ((onFs_sameFiles (inodeOpen_held sector)).map _ _ _ hrun).steady h |>.guarded
    | inodeClose sector =>
      obtain ⟨⟨⟩, hclose, -⟩ := map_ok hrun
      obtain ⟨fs', hok, rfl⟩ := onFs_ok hclose
      have hlt := hclosed sector rfl (Bool.eq_false_of_not_eq_true hexited)
      refine h.closeInode hlt (inodeClose_recounted hcalls (fun hone => ?_) hok)
      have hle := Set.ncard_le_ncard (denies_subset s.files sector) (h.counts.finite sector)
      have hcnt := h.counts.denyWriteCnt sector
      change (having s.files (on sector)).ncard < _ at hlt
      omega
    | inodeReadAt sector size offset =>
      exact ((onFs_sameFiles (inodeReadAt_held hcalls _ _ _)).map _ _ _ hrun).steady h |>.guarded

theorem init_guarded (memory : Nat → Nat → UInt8) (hsound : fs.Sound)
    (hnone : ∀ t, fs.denyWriteCnt t = 0) : Guarded (init fs memory) where
  counts := by
    have hempty : ∀ P, having (init fs memory).files P = ∅ := by
      refine fun P => Set.eq_empty_of_forall_notMem fun f hf => ?_
      obtain ⟨file, hfile, -⟩ := mem_having.mp hf
      nomatch hfile
    refine ⟨fun t => ?_, fun t => ?_, fun t => ?_, hsound⟩
    · rw [hempty]
      exact Set.finite_empty
    · rw [hempty, Set.ncard_empty]
      exact hnone t
    · rw [hempty, Set.ncard_empty]
      exact Nat.zero_le _
  bound := nofun
  opened := nofun
  mapped := nofun
  run := nofun
  alone := nofun
  running := nofun

/-- The denials are counted, and the executables of the processes that have not exited cannot be
written.  A write returns where the cache and the inode are on the device. -/
structure Protected (calls : FreeMapCalls) (s : State) : Prop where
  counted : ∀ t, (s.deniers t).Finite ∧ s.fs.denyWriteCnt t = (s.deniers t).ncard
  bounded : ∀ t, s.fs.denyWriteCnt t ≤ s.fs.openCnt t
  refused : ∀ P f, s.runFile P = some f → s.exited P = false →
    ∃ file, s.files f = some file ∧ ∀ buffer offset,
      (∀ n fs', inodeWriteAt calls file.inode buffer offset s.fs = .ok (n, fs') →
        n = 0 ∧ ∀ u, u ≠ emptySector → fs'.cur u = s.fs.cur u) ∧
      (s.fs.cache.Wf → file.inode < s.fs.cache.fsDevice.size →
        ∃ fs', inodeWriteAt calls file.inode buffer offset s.fs = .ok (0, fs'))

theorem Guarded.protected (h : Guarded s) : Protected calls s where
  counted t := ⟨h.counts.finite_denies t, h.counts.denyWriteCnt t⟩
  bounded := h.counts.denyWriteCnt_le
  refused P f hP hexited := by
    obtain ⟨file, hfile, hdenies⟩ := h.running P f hP hexited
    have hmem : f ∈ having s.files (denies file.inode) :=
      mem_having.mpr ⟨file, hfile, by simp [denies, on, hdenies]⟩
    have hdeny : s.fs.denyWriteCnt file.inode ≠ 0 := by
      rw [h.counts.denyWriteCnt]
      exact Set.ncard_ne_zero_of_mem hmem (h.counts.finite_denies _)
    refine ⟨file, hfile, fun buffer offset => ⟨fun n fs' hrun => ?_, fun hwf ht => ?_⟩⟩
    · exact inodeWriteAt_refused h.counts.sound hdeny hrun
    · exact inodeWriteAt_returns h.counts.sound hwf ht hdeny buffer offset

/-- Between the calls of every run the denials are counted and the executables protected, as long as
no inode is closed more often than it was opened. -/
theorem executables_protected (depth : Nat) (input : Nat → UInt8) (fs : FileSys)
    (memory : Nat → Nat → UInt8) (hsound : fs.Sound) (hnone : ∀ t, fs.denyWriteCnt t = 0)
    (requests : List (Nat × Call))
    (hclosed : ∀ request s, Takes (exec (freeMapCalls depth) input) requests (init fs memory)
      request s → NotOverClosed request s) (s : State)
    (hs : Visits (exec (freeMapCalls depth) input) requests (init fs memory) s) :
    Protected (freeMapCalls depth) s := by
  have hcalls := freeMapCalls_keepInodes depth
  exact (hs.invariant (fun _ _ _ _ h hmay hrun => exec_guarded hcalls h hmay hrun) hclosed
    (init_guarded memory hsound hnone)).protected

/-- An inode is opened and closed; process 1 runs the file of sector 5, which process 2 opens and tries
to write; then process 1 exits, and process 2 runs the file too. -/
def twoLoads : List (Nat × Call) :=
  [(1, .inodeOpen 7), (1, .inodeClose 7), (1, .load (some 5) [.fileLength]),
    (2, .openFileOrDir (.file 5)), (2, .writeOpenFile 2 0 4 true), (1, .threadExit fun _ => []),
    (2, .load (some 5) [.fileSeek 3, .fileRead 8])]

theorem blankFs_sound : blankFs.Sound := ⟨(bcInit_wf _ _).sound, nofun⟩

/-- The only inode that `twoLoads` closes by itself has a reference and no file. -/
theorem twoLoads_notOverClosed {request : Nat × Call} {s : State}
    (h : Takes (exec (freeMapCalls 0) fun _ => 0) twoLoads (init blankFs fun _ _ => 0) request s) :
    NotOverClosed request s := by
  intro sector hcall _
  obtain ⟨before, after, as, hsplit, hrun⟩ := h
  rcases before with _ | ⟨first, _ | ⟨second, before⟩⟩
  · cases hsplit
    nomatch hcall
  · cases hsplit
    cases hcall
    obtain ⟨r, rest, s1, hopen, hnil, -⟩ := execAll_cons_ok.mp hrun
    cases hnil
    have hfiles : s.files = fun _ => none := by
      cases hopen
      rfl
    have hcnt : s.fs.openCnt 7 = 1 := by
      cases hopen
      rfl
    have hempty : s.filesOn 7 = ∅ := Set.eq_empty_of_forall_notMem fun f hf => by
      obtain ⟨file, hfile, -⟩ := mem_having.mp hf
      rw [hfiles] at hfile
      nomatch hfile
    rw [hempty, Set.ncard_empty, hcnt]
    exact Nat.one_pos
  · have hmem : request ∈ twoLoads.drop 2 := by
      rw [hsplit]
      simp
    simp only [twoLoads, List.drop_succ_cons, List.drop_zero, List.mem_cons, List.not_mem_nil,
      or_false] at hmem
    rcases hmem with rfl | rfl | rfl | rfl | rfl <;> nomatch hcall

theorem executables_protected_twoLoads : ∃ s, Protected (freeMapCalls 0) s ∧
    s.runFile 2 = some 3 ∧ s.exited 2 = false := by
  have hend : ((execAll (exec (freeMapCalls 0) fun _ => 0) twoLoads
      (init blankFs fun _ _ => 0)).toOption.map fun r => (r.2.runFile 2, r.2.exited 2)) =
        some (some 3, false) := by decide +kernel
  rcases hrun : execAll (exec (freeMapCalls 0) fun _ => 0) twoLoads (init blankFs fun _ _ => 0) with
    _ | ⟨results, s⟩
  · rw [hrun] at hend
    cases hend
  · rw [hrun] at hend
    obtain ⟨hfile, hexited⟩ := Prod.mk.inj (Option.some.inj hend)
    refine ⟨s, executables_protected 0 _ blankFs _ blankFs_sound (fun _ => rfl) twoLoads
      (fun _ _ => twoLoads_notOverClosed) s ⟨twoLoads, [], results, ?_, hrun⟩, hfile, hexited⟩
    rw [List.append_nil]

end OpenFiles

end Pintos
