import Pintos.Filesys.Handles
import Pintos.Library.Weakest
import Mathlib.Algebra.Group.Pi.Basic
import Mathlib.Algebra.Order.BigOperators.Group.Finset
import Mathlib.Data.Finset.Option
import Mathlib.Algebra.GroupWithZero.Nat

/-! How many references to an inode there are: those of its owners, and those that a call has taken
and neither passed on nor given back.  Every routine of the file system keeps the counters of the
inodes in step with them. -/

namespace Pintos

namespace Handles

open Routine (wp)

namespace State

/-- The `struct dir`s that a descriptor or a working directory holds. -/
def heldDirs (w : State) : Finset Nat :=
  (w.openFiles.toFinset.biUnion fun fd =>
    match fd.opened with
    | .openDir d => {d}
    | .openFile _ => ∅) ∪ w.threads.biUnion fun t => (w.currDir t).toFinset

/-- The open `struct file`s. -/
def heldFiles (w : State) : Finset Nat :=
  insert w.freeMapFile (w.openFiles.toFinset.biUnion fun fd =>
    match fd.opened with
    | .openFile f => {f}
    | .openDir _ => ∅)

/-- The inode of a `struct dir`. -/
def dirInode (w : State) (d : Nat) : Option Nat := (w.dirs d).map Dir.inode

/-- The number of live owners of an inode. -/
def owners (w : State) (p : Nat) : Nat :=
  (w.heldDirs.filter fun d => w.dirInode d = some p).card +
    (w.heldFiles.filter fun f => w.files f = some p).card

/-- `open_cnt`, which a freed inode does not have. -/
def openCnt (w : State) (p : Nat) : Nat :=
  match w.inodes p with
  | some inode => inode.openCnt
  | none => 0

variable {w w' w'' : State} {p d s : Nat} {inode inode' : Inode} {dir : Dir}

theorem mem_heldDirs : d ∈ w.heldDirs ↔ (∃ fd ∈ w.openFiles, fd.opened = .openDir d) ∨
    ∃ t ∈ w.threads, w.currDir t = some d := by
  simp only [heldDirs, Finset.mem_union, Finset.mem_biUnion, List.mem_toFinset,
    Option.mem_toFinset, Option.mem_def]
  refine or_congr_left (exists_congr fun fd => and_congr_right fun _ => ?_)
  cases fd.opened <;> simp [eq_comm]

theorem mem_heldFiles {f : Nat} : f ∈ w.heldFiles ↔ f = w.freeMapFile ∨
    ∃ fd ∈ w.openFiles, fd.opened = .openFile f := by
  simp only [heldFiles, Finset.mem_insert, Finset.mem_biUnion, List.mem_toFinset]
  refine or_congr_right (exists_congr fun fd => and_congr_right fun _ => ?_)
  cases fd.opened <;> simp [eq_comm]

theorem openCnt_of_some (h : w.inodes p = some inode) : w.openCnt p = inode.openCnt := by
  rw [openCnt, h]

theorem openCnt_of_none (h : w.inodes p = none) : w.openCnt p = 0 := by
  rw [openCnt, h]

@[simp] theorem setInode_inodes (w : State) (p : Nat) (inode : Inode) :
    (w.setInode p inode).inodes = Function.update w.inodes p (some inode) := rfl

/-- Only inodes were opened, closed or counted. -/
structure OnlyInodes (w w' : State) : Prop where
  dirs : w'.dirs = w.dirs
  files : w'.files = w.files
  freeMapFile : w'.freeMapFile = w.freeMapFile
  threads : w'.threads = w.threads
  nextTid : w'.nextTid = w.nextTid
  currDir : w'.currDir = w.currDir
  openFiles : w'.openFiles = w.openFiles
  entries : w'.entries = w.entries
  parent : w'.parent = w.parent

theorem OnlyInodes.refl : OnlyInodes w w := ⟨rfl, rfl, rfl, rfl, rfl, rfl, rfl, rfl, rfl⟩

theorem OnlyInodes.trans (h : OnlyInodes w w') (h' : OnlyInodes w' w'') : OnlyInodes w w'' :=
  ⟨h'.dirs.trans h.dirs, h'.files.trans h.files, h'.freeMapFile.trans h.freeMapFile,
    h'.threads.trans h.threads, h'.nextTid.trans h.nextTid, h'.currDir.trans h.currDir,
    h'.openFiles.trans h.openFiles, h'.entries.trans h.entries, h'.parent.trans h.parent⟩

theorem OnlyInodes.heldDirs (h : OnlyInodes w w') : w'.heldDirs = w.heldDirs := by
  rw [State.heldDirs, State.heldDirs, h.openFiles, h.threads, h.currDir]

theorem OnlyInodes.dirInode (h : OnlyInodes w w') : w'.dirInode = w.dirInode := by
  funext d
  rw [State.dirInode, State.dirInode, h.dirs]

/-- What is known of the inodes that a call leaves behind: the old ones keep their sector and the
number of their working directories, new ones have none. -/
structure Inherits (w w' : State) : Prop where
  next : w.nextPtr ≤ w'.nextPtr
  inodes : ∀ p inode', w'.inodes p = some inode' →
    (∃ inode, w.inodes p = some inode ∧ inode'.sector = inode.sector ∧
      inode'.cwdCnt = inode.cwdCnt) ∨ w.nextPtr ≤ p ∧ inode'.cwdCnt = 0

theorem Inherits.refl : Inherits w w :=
  ⟨Nat.le_refl _, fun _ inode' h => .inl ⟨inode', h, rfl, rfl⟩⟩

theorem Inherits.trans (h : Inherits w w') (h' : Inherits w' w'') : Inherits w w'' := by
  refine ⟨Nat.le_trans h.next h'.next, fun p inode2 h2 => ?_⟩
  rcases h'.inodes p inode2 h2 with ⟨inode1, h1, hsector1, hcwd1⟩ | ⟨hp, hzero⟩
  · rcases h.inodes p inode1 h1 with ⟨inode, hw, hsector, hcwd⟩ | ⟨hp, hzero⟩
    · exact .inl ⟨inode, hw, hsector1.trans hsector, hcwd1.trans hcwd⟩
    · exact .inr ⟨hp, hcwd1.trans hzero⟩
  · exact .inr ⟨Nat.le_trans h.next hp, hzero⟩

end State

open State

/-- The counters are in step: every inode's `open_cnt` is the number of its owners and of the
further references `extra`.  No pointer is beyond the next one, `open_inodes` lists the inodes in
memory, of which no two have one sector, nothing is removed, and what is held has not been freed. -/
structure Counted (w : State) (extra : Nat → Nat) : Prop where
  fresh : ∀ p, w.nextPtr ≤ p → w.inodes p = none ∧ w.dirs p = none ∧ w.files p = none
  listed : ∀ p, p ∈ w.openInodes ↔ w.inodes p ≠ none
  unique : ∀ p q i j, w.inodes p = some i → w.inodes q = some j → i.sector = j.sector → p = q
  count : ∀ p, w.openCnt p = w.owners p + extra p
  kept : ∀ p i, w.inodes p = some i → i.removed = false
  heldDir : ∀ d ∈ w.heldDirs, w.dirs d ≠ none
  heldFile : ∀ f ∈ w.heldFiles, w.files f ≠ none

variable {w w' : State} {e e' : Nat → Nat} {p d s : Nat} {inode inode' : Inode} {dir : Dir}
  {E : Fault → Prop}

namespace Counted

/-- What is counted is in memory. -/
theorem live (h : Counted w e) (hp : 0 < w.owners p + e p) : ∃ inode, w.inodes p = some inode := by
  cases hinode : w.inodes p with
  | some inode => exact ⟨inode, rfl⟩
  | none =>
    have := h.count p
    rw [openCnt_of_none hinode] at this
    omega

theorem live_extra (h : Counted w e) (hp : 0 < e p) : ∃ inode, w.inodes p = some inode :=
  h.live (by omega)

theorem owners_pos (hd : d ∈ w.heldDirs) (hdir : w.dirInode d = some p) : 0 < w.owners p := by
  have : 0 < (w.heldDirs.filter fun d => w.dirInode d = some p).card :=
    Finset.card_pos.mpr ⟨d, Finset.mem_filter.mpr ⟨hd, hdir⟩⟩
  rw [owners]
  omega

/-- A `struct dir` that is held has an inode in memory. -/
theorem live_held (h : Counted w e) (hd : d ∈ w.heldDirs) :
    ∃ dir inode, w.dirs d = some dir ∧ w.inodes dir.inode = some inode := by
  obtain ⟨dir, hdir⟩ := Option.ne_none_iff_exists'.mp (h.heldDir d hd)
  have hinode : w.dirInode d = some dir.inode := by rw [dirInode, hdir]; rfl
  obtain ⟨inode, hlive⟩ := h.live (p := dir.inode) (by
    have := owners_pos hd hinode
    omega)
  exact ⟨dir, inode, hdir, hlive⟩

theorem lt_nextPtr (h : Counted w e) (hp : w.inodes p ≠ none) : p < w.nextPtr := by
  by_contra hge
  exact hp (h.fresh p (by omega)).1

/-! ### Changes of inodes -/

/-- An inode changes, which keeps its sector and counts `e'` instead of `e`. -/
theorem setInode (h : Counted w e) (hp : w.inodes p = some inode)
    (hsector : inode'.sector = inode.sector) (hremoved : inode'.removed = inode.removed)
    (hcnt : inode'.openCnt + e p = inode.openCnt + e' p) (hother : ∀ q, q ≠ p → e' q = e q) :
    Counted (w.setInode p inode') e' := by
  have hne : w.inodes p ≠ none := by rw [hp]; nofun
  have hsome : ∀ q j, Function.update w.inodes p (some inode') q = some j →
      ∃ j', w.inodes q = some j' ∧ j.sector = j'.sector := by
    intro q j hq
    by_cases hqp : q = p
    · rw [hqp, Function.update_self] at hq
      cases hq
      exact ⟨inode, hqp ▸ hp, hsector⟩
    · rw [Function.update_of_ne hqp] at hq
      exact ⟨j, hq, rfl⟩
  refine ⟨fun q hq => ?_, fun q => ?_, fun q r i j hi hj hij => ?_, fun q => ?_, fun q i hi => ?_,
    h.heldDir, h.heldFile⟩
  · have hqp : q ≠ p := fun heq => by
      have := h.lt_nextPtr hne
      rw [← heq] at this
      exact Nat.not_lt.mpr hq this
    exact ⟨by rw [setInode_inodes, Function.update_of_ne hqp]; exact (h.fresh q hq).1,
      (h.fresh q hq).2⟩
  · refine (h.listed q).trans ?_
    by_cases hqp : q = p
    · rw [hqp, setInode_inodes, Function.update_self]
      exact iff_of_true hne nofun
    · rw [setInode_inodes, Function.update_of_ne hqp]
  · obtain ⟨i', hi', hi⟩ := hsome q i hi
    obtain ⟨j', hj', hj⟩ := hsome r j hj
    exact h.unique q r i' j' hi' hj' (by rw [← hi, ← hj, hij])
  · have hcount := h.count q
    show (w.setInode p inode').openCnt q = w.owners q + e' q
    by_cases hqp : q = p
    · rw [hqp] at hcount ⊢
      rw [openCnt_of_some hp] at hcount
      rw [openCnt_of_some (Function.update_self ..)]
      omega
    · rw [hother q hqp, ← hcount, openCnt, openCnt, setInode_inodes, Function.update_of_ne hqp]
  · by_cases hqp : q = p
    · rw [hqp, setInode_inodes, Function.update_self] at hi
      cases hi
      exact hremoved.trans (h.kept p inode hp)
    · rw [setInode_inodes, Function.update_of_ne hqp] at hi
      exact h.kept q i hi

/-- A field of an inode changes that does not count its users. -/
theorem setField (h : Counted w e) (hp : w.inodes p = some inode)
    (hsector : inode'.sector = inode.sector) (hremoved : inode'.removed = inode.removed)
    (hcnt : inode'.openCnt = inode.openCnt) : Counted (w.setInode p inode') e :=
  h.setInode hp hsector hremoved (by rw [hcnt]) fun _ _ => rfl

/-- A new inode is opened. -/
theorem newInode (h : Counted w e) (hnone : w.findInode s = none) :
    Counted (w.newInode s) (e + Pi.single w.nextPtr 1) := by
  have hnot : ∀ q i, w.inodes q = some i → i.sector ≠ s := by
    intro q i hi heq
    have hmem := (h.listed q).mpr (by rw [hi]; nofun)
    have := List.find?_eq_none.mp hnone q hmem
    rw [hi] at this
    simp [heq] at this
  have hfresh := h.fresh w.nextPtr (Nat.le_refl _)
  have hne : ∀ q i, w.inodes q = some i → q ≠ w.nextPtr := by
    rintro q i hi rfl
    rw [hfresh.1] at hi
    nomatch hi
  have hinodes : (w.newInode s).inodes =
      Function.update w.inodes w.nextPtr (some (.ofSector s)) := rfl
  refine ⟨fun q hq => ?_, fun q => ?_, fun q r i j hi hj hij => ?_, fun q => ?_, fun q i hi => ?_,
    h.heldDir, h.heldFile⟩
  · replace hq : w.nextPtr + 1 ≤ q := hq
    have hold := h.fresh q (by omega)
    refine ⟨?_, hold.2⟩
    rw [hinodes, Function.update_of_ne (by omega)]
    exact hold.1
  · rw [hinodes]
    show q ∈ w.nextPtr :: w.openInodes ↔ _
    rw [List.mem_cons, h.listed]
    by_cases hq : q = w.nextPtr
    · rw [hq, Function.update_self]
      exact iff_of_true (.inl rfl) nofun
    · rw [Function.update_of_ne hq]
      exact or_iff_right hq
  · rw [hinodes] at hi hj
    by_cases hq : q = w.nextPtr
    · by_cases hr : r = w.nextPtr
      · rw [hq, hr]
      · rw [hq, Function.update_self] at hi
        rw [Function.update_of_ne hr] at hj
        cases hi
        exact absurd hij.symm (hnot r j hj)
    · rw [Function.update_of_ne hq] at hi
      by_cases hr : r = w.nextPtr
      · rw [hr, Function.update_self] at hj
        cases hj
        exact absurd hij (hnot q i hi)
      · rw [Function.update_of_ne hr] at hj
        exact h.unique q r i j hi hj hij
  · have hcount := h.count q
    show (w.newInode s).openCnt q = w.owners q + _
    rw [Pi.add_apply, ← Nat.add_assoc, ← hcount]
    by_cases hq : q = w.nextPtr
    · rw [hq, Pi.single_eq_same, openCnt_of_none hfresh.1, openCnt, hinodes, Function.update_self]
      rfl
    · rw [Pi.single_eq_of_ne hq, openCnt, openCnt, hinodes, Function.update_of_ne hq]
      rfl
  · rw [hinodes] at hi
    by_cases hq : q = w.nextPtr
    · rw [hq, Function.update_self] at hi
      cases hi
      rfl
    · rw [Function.update_of_ne hq] at hi
      exact h.kept q i hi

/-- The last reference to an inode is given back. -/
theorem freeInode (h : Counted w (e + Pi.single p 1)) (hp : w.inodes p = some inode)
    (hone : inode.openCnt = 1) : Counted (w.freeInode p) e := by
  have hinodes : (w.freeInode p).inodes = Function.update w.inodes p none := rfl
  have hsome : ∀ q j, Function.update w.inodes p none q = some j → w.inodes q = some j := by
    intro q j hq
    by_cases hqp : q = p
    · rw [hqp, Function.update_self] at hq
      nomatch hq
    · rwa [Function.update_of_ne hqp] at hq
  refine ⟨fun q hq => ?_, fun q => ?_, fun q r i j hi hj hij => ?_, fun q => ?_, fun q i hi => ?_,
    h.heldDir, h.heldFile⟩
  · refine ⟨?_, (h.fresh q hq).2⟩
    rw [hinodes, Function.update_apply]
    split
    · rfl
    · exact (h.fresh q hq).1
  · rw [hinodes]
    show q ∈ w.openInodes.filter (· ≠ p) ↔ _
    rw [List.mem_filter, h.listed, decide_eq_true_iff]
    by_cases hqp : q = p
    · rw [hqp, Function.update_self]
      exact iff_of_false (fun hand => hand.2 rfl) fun hnone => hnone rfl
    · rw [Function.update_of_ne hqp]
      exact and_iff_left hqp
  · exact h.unique q r i j (hsome q i hi) (hsome r j hj) hij
  · have hcount := h.count q
    show (w.freeInode p).openCnt q = w.owners q + e q
    rw [Pi.add_apply] at hcount
    by_cases hqp : q = p
    · rw [hqp] at hcount ⊢
      rw [Pi.single_eq_same, openCnt_of_some hp, hone] at hcount
      rw [openCnt_of_none (by rw [hinodes, Function.update_self])]
      omega
    · rw [Pi.single_eq_of_ne hqp, Nat.add_zero] at hcount
      rw [← hcount, openCnt, openCnt, hinodes, Function.update_of_ne hqp]
  · exact h.kept q i (hsome q i hi)

end Counted

/-! ### Inodes -/

/-- No pointer to freed memory was followed. -/
def NotFreed (f : Fault) : Prop := f ≠ useAfterFree

/-- Inodes were opened and closed, and the counters are in step. -/
structure Leads (w w' : State) (e : Nat → Nat) : Prop where
  counted : Counted w' e
  only : OnlyInodes w w'
  inherits : Inherits w w'

theorem Leads.refl (h : Counted w e) : Leads w w e := ⟨h, OnlyInodes.refl, Inherits.refl⟩

theorem Leads.trans {w'' : State} (h : Leads w w' e) (h' : Leads w' w'' e') : Leads w w'' e' :=
  ⟨h'.counted, h.only.trans h'.only, h.inherits.trans h'.inherits⟩

theorem State.Inherits.sector (h : Inherits w w') (hcounted : Counted w e)
    (hp : w.inodes p = some inode) (hp' : w'.inodes p = some inode') :
    inode'.sector = inode.sector := by
  rcases h.inodes p inode' hp' with ⟨i, hi, hsector, -⟩ | ⟨hle, -⟩
  · cases hp.symm.trans hi
    exact hsector
  · have := hcounted.lt_nextPtr (p := p) (by rw [hp]; nofun)
    omega

theorem onlyInodes_setInode : OnlyInodes w (w.setInode p inode) :=
  ⟨rfl, rfl, rfl, rfl, rfl, rfl, rfl, rfl, rfl⟩

theorem inherits_setInode (hp : w.inodes p = some inode) (hsector : inode'.sector = inode.sector)
    (hcwd : inode'.cwdCnt = inode.cwdCnt) : Inherits w (w.setInode p inode') := by
  refine ⟨Nat.le_refl _, fun q j hq => ?_⟩
  rw [setInode_inodes] at hq
  by_cases hqp : q = p
  · rw [hqp, Function.update_self] at hq
    cases hq
    exact .inl ⟨inode, hqp ▸ hp, hsector, hcwd⟩
  · rw [Function.update_of_ne hqp] at hq
    exact .inl ⟨j, hq, rfl, rfl⟩

theorem wp_getInode {Q : Inode → State → Prop} (hp : w.inodes p = some inode)
    (hQ : Q inode w) : wp (getInode p) Q E w := by
  rw [getInode, Routine.wp_bind, Routine.wp_get, hp]
  exact hQ

theorem wp_getDir {Q : Dir → State → Prop} (hd : w.dirs d = some dir)
    (hQ : Q dir w) : wp (getDir d) Q E w := by
  rw [getDir, Routine.wp_bind, Routine.wp_get, hd]
  exact hQ

theorem findInode_some (h : w.findInode s = some p) :
    ∃ inode, w.inodes p = some inode ∧ inode.sector = s := by
  have hfound := List.find?_some h
  cases hp : w.inodes p with
  | none =>
    rw [hp] at hfound
    nomatch hfound
  | some inode =>
    rw [hp] at hfound
    exact ⟨inode, rfl, by simpa using hfound⟩

/-- The caller of `inode_open` has one reference more. -/
theorem wp_inodeOpen (h : Counted w e) (s : Nat) : wp (inodeOpen s) (fun p w' =>
    Leads w w' (e + Pi.single p 1) ∧ ∃ inode, w'.inodes p = some inode ∧ inode.sector = s)
    E w := by
  rw [inodeOpen, Routine.wp_bind, Routine.wp_get]
  cases hfind : w.findInode s with
  | some p =>
    obtain ⟨inode, hp, hsector⟩ := findInode_some hfind
    simp only [Routine.wp_bind, inodeReopen]
    refine wp_getInode hp ⟨⟨h.setInode hp rfl rfl ?_ fun q hq => ?_,
      onlyInodes_setInode, inherits_setInode hp rfl rfl⟩, _, Function.update_self .., hsector⟩
    · rw [Pi.add_apply, Pi.single_eq_same, Inode.reopen]
      dsimp only
      omega
    · rw [Pi.add_apply, Pi.single_eq_of_ne hq, Nat.add_zero]
  | none =>
    refine ⟨⟨h.newInode hfind, ⟨rfl, rfl, rfl, rfl, rfl, rfl, rfl, rfl, rfl⟩, Nat.le_succ _,
      fun q j hq => ?_⟩, _, Function.update_self .., rfl⟩
    replace hq : Function.update w.inodes w.nextPtr (some (.ofSector s)) q = some j := hq
    by_cases hqp : q = w.nextPtr
    · rw [hqp, Function.update_self] at hq
      cases hq
      exact .inr ⟨Nat.le_of_eq hqp.symm, rfl⟩
    · rw [Function.update_of_ne hqp] at hq
      exact .inl ⟨j, hq, rfl, rfl⟩

/-- The free map after the blocks of the removed inode of a sector have been deallocated. -/
def State.releaseBlocks (w : State) (sector : Nat) : State :=
  { w with
    freeMap := (w.freeMap.setMultiple sector 1 false).setMultiple (w.extents sector).1
      (bytesToSectors (w.extents sector).2) false }

/-- The state after `inode_close` of an inode in memory. -/
def State.closeInode (w : State) (p : Nat) : State :=
  match w.inodes p with
  | some inode =>
    match inode.dropOpenCnt with
    | none => (if inode.removed then w.releaseBlocks inode.sector else w).freeInode p
    | some inode => w.setInode p inode
  | none => w

theorem Inode.dropOpenCnt_some (h : inode.dropOpenCnt = some inode') :
    inode'.sector = inode.sector ∧ inode'.cwdCnt = inode.cwdCnt ∧ inode'.removed = inode.removed ∧
      inode'.openCnt + 1 = inode.openCnt := by
  have hpos := inode.openCnt_pos
  rw [Inode.dropOpenCnt] at h
  split at h
  · nomatch h
  · cases h
    exact ⟨rfl, rfl, rfl, Nat.succ_pred_eq_of_pos hpos⟩

theorem Inode.dropOpenCnt_eq_none : inode.dropOpenCnt = none ↔ inode.openCnt = 1 := by
  have hpos := inode.openCnt_pos
  rw [Inode.dropOpenCnt]
  split
  · exact iff_of_true rfl (by omega)
  · exact iff_of_false nofun (by omega)

theorem onlyInodes_closeInode (w : State) (p : Nat) : OnlyInodes w (w.closeInode p) := by
  unfold State.closeInode
  cases w.inodes p with
  | none => exact OnlyInodes.refl
  | some inode =>
    dsimp only
    cases inode.dropOpenCnt with
    | none =>
      dsimp only
      split <;> exact ⟨rfl, rfl, rfl, rfl, rfl, rfl, rfl, rfl, rfl⟩
    | some inode => exact onlyInodes_setInode

/-- What is left of the inodes after `inode_close`. -/
theorem closeInode_inodes (hp : w.inodes p = some inode) :
    (w.closeInode p).inodes = Function.update w.inodes p inode.dropOpenCnt := by
  rw [State.closeInode, hp]
  dsimp only
  cases inode.dropOpenCnt with
  | none =>
    dsimp only
    split <;> rfl
  | some inode => rfl

theorem closeInode_some {q : Nat} (h : (w.closeInode p).inodes q = some inode') :
    ∃ inode, w.inodes q = some inode ∧ inode'.sector = inode.sector ∧
      inode'.cwdCnt = inode.cwdCnt := by
  cases hp : w.inodes p with
  | none =>
    rw [State.closeInode, hp] at h
    exact ⟨inode', h, rfl, rfl⟩
  | some inode =>
    rw [closeInode_inodes hp] at h
    by_cases hqp : q = p
    · rw [hqp, Function.update_self] at h
      obtain ⟨hsector, hcwd, -⟩ := Inode.dropOpenCnt_some h
      exact ⟨inode, hqp ▸ hp, hsector, hcwd⟩
    · rw [Function.update_of_ne hqp] at h
      exact ⟨inode', h, rfl, rfl⟩

theorem closeInode_nextPtr (w : State) (p : Nat) : (w.closeInode p).nextPtr = w.nextPtr := by
  unfold State.closeInode
  cases w.inodes p with
  | none => rfl
  | some inode =>
    dsimp only
    cases inode.dropOpenCnt with
    | none =>
      dsimp only
      split <;> rfl
    | some inode => rfl

/-- The deallocation of the blocks of the removed inode of a sector fails no `ASSERT`: its own sector
is marked in the free map, and so are those of the extent, of which it is none. -/
structure State.Releasable (w : State) (sector : Nat) : Prop where
  own : sector < w.freeMap.bitCnt ∧ w.freeMap.bits sector = true
  extent : (w.extents sector).1 + bytesToSectors (w.extents sector).2 ≤ w.freeMap.bitCnt
  marked : ∀ j, (w.extents sector).1 ≤ j →
    j < (w.extents sector).1 + bytesToSectors (w.extents sector).2 →
      j ≠ sector ∧ w.freeMap.bits j = true

theorem freeMapRelease_of_marked {cnt : Nat} (hbound : s + cnt ≤ w.freeMap.bitCnt)
    (hmarked : ∀ j, s ≤ j → j < s + cnt → w.freeMap.bits j = true) :
    freeMapRelease s cnt w = .ok ((), { w with freeMap := w.freeMap.setMultiple s cnt false }) := by
  rw [freeMapRelease, Routine.get_bind_apply, if_neg (not_not_intro hbound),
    if_neg (not_not_intro (Bitmap.all_iff.mpr hmarked))]
  rfl

theorem releaseBlocks_of_releasable (h : w.Releasable s) :
    releaseBlocks s w = .ok ((), w.releaseBlocks s) := by
  have hown : ∀ j, s ≤ j → j < s + 1 → w.freeMap.bits j = true := by
    intro j hle hlt
    obtain rfl : j = s := by omega
    exact h.own.2
  rw [releaseBlocks, Routine.bind_of_ok (freeMapRelease_of_marked h.own.1 hown),
    Routine.get_bind_apply]
  refine freeMapRelease_of_marked h.extent fun j hle hlt => ?_
  obtain ⟨hne, hmarked⟩ := h.marked j hle hlt
  show (if s ≤ j ∧ j < s + 1 then false else w.freeMap.bits j) = true
  rw [if_neg (by omega), hmarked]

/-- `inode_close` ends well, unless it deallocates blocks that are not marked. -/
theorem inodeClose_eq (hp : w.inodes p = some inode)
    (h : inode.openCnt = 1 → inode.removed = true → w.Releasable inode.sector) :
    inodeClose (some p) w = .ok ((), w.closeInode p) := by
  rw [inodeClose, getInode, State.closeInode, hp]
  simp only [bind_assoc, Routine.get_bind_apply, hp, pure_bind]
  cases hdrop : inode.dropOpenCnt with
  | none =>
    dsimp only
    cases hremoved : inode.removed with
    | false => rfl
    | true =>
      have hrelease := h (Inode.dropOpenCnt_eq_none.mp hdrop) hremoved
      simp only [if_true]
      rw [Routine.bind_of_ok (releaseBlocks_of_releasable hrelease)]
      rfl
  | some inode => rfl

/-- `inode_close` gives a reference back. -/
theorem leads_closeInode (h : Counted w (e + Pi.single p 1)) : Leads w (w.closeInode p) e := by
  obtain ⟨inode, hp⟩ := h.live_extra (p := p) (by
    rw [Pi.add_apply, Pi.single_eq_same]
    exact Nat.succ_pos _)
  refine ⟨?_, onlyInodes_closeInode w p, Nat.le_of_eq (closeInode_nextPtr w p).symm,
    fun q inode' hq => .inl (closeInode_some hq)⟩
  rw [State.closeInode, hp]
  dsimp only
  cases hdrop : inode.dropOpenCnt with
  | none =>
    simp only [h.kept p inode hp, Bool.false_eq_true, if_false]
    exact h.freeInode hp (Inode.dropOpenCnt_eq_none.mp hdrop)
  | some inode' =>
    obtain ⟨hsector, -, hremoved, hcnt⟩ := Inode.dropOpenCnt_some hdrop
    refine h.setInode hp hsector hremoved ?_ fun q hq => ?_
    · rw [Pi.add_apply, Pi.single_eq_same]
      omega
    · rw [Pi.add_apply, Pi.single_eq_of_ne hq, Nat.add_zero]

/-- Nothing is deallocated by `inode_close` where nothing is removed. -/
theorem Counted.inodeClose_eq (h : Counted w e) (hp : w.inodes p = some inode) :
    inodeClose (some p) w = .ok ((), w.closeInode p) :=
  Handles.inodeClose_eq hp fun _ hremoved => by
    rw [h.kept p inode hp] at hremoved
    nomatch hremoved

theorem wp_inodeClose (h : Counted w (e + Pi.single p 1)) :
    wp (inodeClose (some p)) (fun _ w' => Leads w w' e) E w := by
  obtain ⟨inode, hp⟩ := h.live_extra (p := p) (by
    rw [Pi.add_apply, Pi.single_eq_same]
    exact Nat.succ_pos _)
  exact Routine.wp_of_ok (h.inodeClose_eq hp) (leads_closeInode h)

/-- `inode_close` does not look at the working directories. -/
theorem closeInode_currDir (w : State) (p : Nat) (currDir : Nat → Option Nat) :
    ({ w with currDir := currDir } : State).closeInode p =
      { w.closeInode p with currDir := currDir } := by
  unfold State.closeInode
  dsimp only
  cases w.inodes p with
  | none => rfl
  | some inode =>
    dsimp only
    cases inode.dropOpenCnt with
    | none =>
      dsimp only
      split <;> rfl
    | some inode => rfl

/-- The bytes of an inode that are found without an index block. -/
def directBytes : Nat := directBlocks * blockSectorSize

section

variable {env : Nat → Draw} {fuel : Nat}

theorem wp_draw {Q : Draw → State → Prop}
    (hQ : Q (env w.clock) { w with clock := w.clock + 1 }) : wp (draw env) Q E w := hQ

theorem Counted.clock (h : Counted w e) (clock : Nat) : Counted { w with clock := clock } e :=
  ⟨h.fresh, h.listed, h.unique, h.count, h.kept, h.heldDir, h.heldFile⟩

theorem leads_clock (h : Counted w e) (clock : Nat) : Leads w { w with clock := clock } e :=
  ⟨h.clock clock, ⟨rfl, rfl, rfl, rfl, rfl, rfl, rfl, rfl, rfl⟩, Nat.le_refl _,
    fun _ inode' hp => .inl ⟨inode', hp, rfl, rfl⟩⟩

/-- The references to the index blocks that an access opens stay behind. -/
theorem wp_accessUpTo (h : Counted w e) (upTo : Nat) : wp (accessUpTo env upTo) (fun _ w' =>
    ∃ leak, Leads w w' (e + leak) ∧ (upTo ≤ directBytes → leak = 0)) E w := by
  unfold accessUpTo
  by_cases hdirect : upTo ≤ directBlocks * blockSectorSize
  · rw [if_pos hdirect]
    exact ⟨0, by rw [add_zero]; exact Leads.refl h, fun _ => rfl⟩
  · rw [if_neg hdirect, Routine.wp_bind]
    refine wp_draw ?_
    have hloop : wp ((env w.clock).indexBlocks.forM fun b => discard (inodeOpen b))
        (fun _ w' => ∃ leak, Leads w w' (e + leak)) E
        { w with clock := w.clock + 1 } := by
      refine Routine.wp_forM (fun b _ w1 h1 => ?_) ⟨0, by rw [add_zero]; exact leads_clock h _⟩
      obtain ⟨leak, h1⟩ := h1
      rw [Routine.wp_discard]
      refine (wp_inodeOpen h1.counted b).mono fun p w2 h2 => ⟨leak + Pi.single p 1, ?_⟩
      rw [← add_assoc]
      exact h1.trans h2.1
    exact hloop.mono fun _ w' ⟨leak, hleads⟩ => ⟨leak, hleads, fun hle => absurd hle hdirect⟩

/-! ### Entries -/

/-- The end of the bytes that a search for a name reads. -/
def readEnd (name : List UInt8) (entries : List (Option Entry)) : Nat :=
  match findEntry name entries with
  | some (k, _) => dirEntrySize * (k + 1)
  | none => dirEntrySize * entries.length

/-- The sector of the inode that `dir_lookup_entry` opens. -/
def entrySector (name : List UInt8) (isDir : Bool) (entries : List (Option Entry)) : Option Nat :=
  match findEntry name entries with
  | some (_, e) => if isDir && !e.isDir then none else some e.inodeSector
  | none => none

theorem wp_dirEntries {Q : Nat × List (Option Entry) → State → Prop}
    (hd : w.dirs d = some dir) (hp : w.inodes dir.inode = some inode)
    (hQ : Q (inode.sector, w.entries inode.sector) w) : wp (dirEntries d) Q E w := by
  rw [dirEntries, Routine.wp_bind]
  refine wp_getDir hd ?_
  rw [Routine.wp_bind]
  exact wp_getInode hp hQ

theorem wp_lookup (h : Counted w e) (hd : w.dirs d = some dir)
    (hp : w.inodes dir.inode = some inode) (name : List UInt8) :
    wp (lookup env d name) (fun r w' => r = findEntry name (w.entries inode.sector) ∧
      ∃ leak, Leads w w' (e + leak) ∧
        (readEnd name (w.entries inode.sector) ≤ directBytes → leak = 0)) E w := by
  rw [lookup, Routine.wp_bind]
  refine wp_dirEntries hd hp ?_
  unfold readEnd
  dsimp only
  cases hfind : findEntry name (w.entries inode.sector) with
  | none =>
    dsimp only
    rw [Routine.wp_bind]
    exact (wp_accessUpTo h _).mono fun _ w' hw' => ⟨rfl, hw'⟩
  | some r =>
    dsimp only
    rw [Routine.wp_bind]
    exact (wp_accessUpTo h _).mono fun _ w' hw' => ⟨rfl, hw'⟩

/-- The caller of `dir_lookup_entry` has a reference to the inode that it finds. -/
theorem wp_dirLookupEntry (h : Counted w e) (hd : w.dirs d = some dir)
    (hp : w.inodes dir.inode = some inode) (name : List UInt8) (isDir : Bool) :
    wp (dirLookupEntry env (some d) name isDir) (fun r w' =>
      ∃ leak, (readEnd name (w.entries inode.sector) ≤ directBytes → leak = 0) ∧
        (r = none ∧ entrySector name isDir (w.entries inode.sector) = none ∧
            Leads w w' (e + leak) ∨
          ∃ q s, r = some q ∧ entrySector name isDir (w.entries inode.sector) = some s ∧
            Leads w w' (e + leak + Pi.single q 1) ∧
              ∃ inode', w'.inodes q = some inode' ∧ inode'.sector = s)) E w := by
  rw [dirLookupEntry, Routine.wp_bind]
  refine (wp_lookup h hd hp name).mono fun r w1 ⟨hr, leak, hleads, hsmall⟩ => ?_
  subst hr
  unfold entrySector
  cases findEntry name (w.entries inode.sector) with
  | none => exact ⟨leak, hsmall, .inl ⟨rfl, rfl, hleads⟩⟩
  | some r =>
    dsimp only
    by_cases hcheck : (isDir && !r.2.isDir) = true
    · rw [if_pos hcheck]
      exact ⟨leak, hsmall, .inl ⟨rfl, if_pos hcheck, hleads⟩⟩
    · rw [if_neg hcheck, Routine.wp_map]
      refine (wp_inodeOpen hleads.counted _).mono fun q w2 ⟨h2, hsector⟩ => ⟨leak, hsmall, .inr ?_⟩
      exact ⟨q, r.2.inodeSector, rfl, if_neg hcheck, hleads.trans h2, hsector⟩

/-! ### Directories -/

theorem State.owners_congr (hdirs : w'.heldDirs = w.heldDirs)
    (hdir : ∀ d ∈ w.heldDirs, w'.dirInode d = w.dirInode d) (hfiles : w'.heldFiles = w.heldFiles)
    (hfile : ∀ f ∈ w.heldFiles, w'.files f = w.files f) (p : Nat) : w'.owners p = w.owners p := by
  rw [owners, owners, hdirs, hfiles]
  congr 2
  · exact Finset.filter_congr fun d hd => by rw [hdir d hd]
  · exact Finset.filter_congr fun f hf => by rw [hfile f hf]

/-- Handles are opened, closed, held and let go. -/
theorem Counted.setHandles (h : Counted w e) (hinodes : w'.inodes = w.inodes)
    (hlist : w'.openInodes = w.openInodes) (hnext : w.nextPtr ≤ w'.nextPtr)
    (hfresh : ∀ p, w'.nextPtr ≤ p → w'.dirs p = none ∧ w'.files p = none)
    (hdir : ∀ d ∈ w'.heldDirs, w'.dirs d ≠ none) (hfile : ∀ f ∈ w'.heldFiles, w'.files f ≠ none)
    (howners : ∀ p, w'.owners p + e' p = w.owners p + e p) : Counted w' e' := by
  refine ⟨fun p hp => ?_, fun p => ?_, ?_, fun p => ?_, ?_, hdir, hfile⟩
  · rw [hinodes]
    exact ⟨(h.fresh p (Nat.le_trans hnext hp)).1, hfresh p hp⟩
  · rw [hlist, hinodes]
    exact h.listed p
  · rw [hinodes]
    exact h.unique
  · rw [howners, ← h.count, openCnt, openCnt, hinodes]
  · rw [hinodes]
    exact h.kept

/-- What a call leaves as it is: what is held, and by whom. -/
structure Frame (w w' : State) : Prop where
  files : w'.files = w.files
  freeMapFile : w'.freeMapFile = w.freeMapFile
  threads : w'.threads = w.threads
  nextTid : w'.nextTid = w.nextTid
  currDir : w'.currDir = w.currDir
  openFiles : w'.openFiles = w.openFiles
  dirInode : ∀ d ∈ w.heldDirs, w'.dirInode d = w.dirInode d
  inherits : Inherits w w'

/-- The directories on disk are the same. -/
structure SameDisk (w w' : State) : Prop where
  entries : w'.entries = w.entries
  parent : w'.parent = w.parent

theorem SameDisk.trans {w'' : State} (h : SameDisk w w') (h' : SameDisk w' w'') :
    SameDisk w w'' := ⟨h'.entries.trans h.entries, h'.parent.trans h.parent⟩

namespace Frame

theorem refl : Frame w w := ⟨rfl, rfl, rfl, rfl, rfl, rfl, fun _ _ => rfl, Inherits.refl⟩

theorem heldDirs (h : Frame w w') : w'.heldDirs = w.heldDirs := by
  rw [State.heldDirs, State.heldDirs, h.openFiles, h.threads, h.currDir]

theorem heldFiles (h : Frame w w') : w'.heldFiles = w.heldFiles := by
  rw [State.heldFiles, State.heldFiles, h.openFiles, h.freeMapFile]

theorem owners (h : Frame w w') (p : Nat) : w'.owners p = w.owners p :=
  State.owners_congr h.heldDirs h.dirInode h.heldFiles (fun f _ => by rw [h.files]) p

theorem trans {w'' : State} (h : Frame w w') (h' : Frame w' w'') : Frame w w'' where
  files := h'.files.trans h.files
  freeMapFile := h'.freeMapFile.trans h.freeMapFile
  threads := h'.threads.trans h.threads
  nextTid := h'.nextTid.trans h.nextTid
  currDir := h'.currDir.trans h.currDir
  openFiles := h'.openFiles.trans h.openFiles
  dirInode d hd := (h'.dirInode d (h.heldDirs ▸ hd)).trans (h.dirInode d hd)
  inherits := h.inherits.trans h'.inherits

end Frame

theorem Leads.frame (h : Leads w w' e) : Frame w w' where
  files := h.only.files
  freeMapFile := h.only.freeMapFile
  threads := h.only.threads
  nextTid := h.only.nextTid
  currDir := h.only.currDir
  openFiles := h.only.openFiles
  dirInode d _ := by rw [h.only.dirInode]
  inherits := h.inherits

theorem Leads.disk (h : Leads w w' e) : SameDisk w w' := ⟨h.only.entries, h.only.parent⟩

/-- A `struct dir` that nobody holds appears, changes or goes. -/
theorem Counted.setDirs (h : Counted w e) (dirs : Nat → Option Dir) {next : Nat}
    (hnext : w.nextPtr ≤ next) (hfresh : ∀ d, next ≤ d → dirs d = none)
    (hheld : ∀ d ∈ w.heldDirs, (dirs d).map Dir.inode = w.dirInode d) :
    Counted { w with dirs := dirs, nextPtr := next } e ∧
      Frame w { w with dirs := dirs, nextPtr := next } := by
  have hframe : Frame w { w with dirs := dirs, nextPtr := next } :=
    ⟨rfl, rfl, rfl, rfl, rfl, rfl, hheld, hnext, fun _ inode' hp => .inl ⟨inode', hp, rfl, rfl⟩⟩
  refine ⟨h.setHandles rfl rfl hnext (fun d hd => ⟨hfresh d hd, ?_⟩) (fun d hd => ?_) h.heldFile
    fun p => by rw [hframe.owners], hframe⟩
  · exact (h.fresh d (Nat.le_trans hnext hd)).2.2
  · obtain ⟨dir, hdir⟩ := Option.ne_none_iff_exists'.mp (h.heldDir d hd)
    have hinode := hheld d hd
    rw [State.dirInode, hdir] at hinode
    intro hnone
    replace hnone : dirs d = none := hnone
    rw [hnone] at hinode
    nomatch hinode

/-- A new `struct dir`, which nobody holds yet. -/
theorem wp_dirOpenInode (h : Counted w e) (p : Nat) : wp (dirOpenInode p) (fun d w' =>
    Counted w' e ∧ Frame w w' ∧ SameDisk w w' ∧ w.nextPtr ≤ d ∧
      w'.dirs = Function.update w.dirs d (some ⟨p, none⟩) ∧ w'.inodes = w.inodes)
    E w := by
  have hfresh := (h.fresh w.nextPtr (Nat.le_refl _)).2.1
  obtain ⟨hcounted, hframe⟩ := h.setDirs
    (Function.update w.dirs w.nextPtr (some ⟨p, none⟩)) (Nat.le_succ w.nextPtr)
    (fun d hd => by
      rw [Function.update_of_ne (by omega)]
      exact (h.fresh d (by omega)).2.1)
    (fun d hd => by
      rw [Function.update_of_ne]
      · rfl
      · rintro rfl
        exact h.heldDir _ hd hfresh)
  exact ⟨hcounted, hframe, ⟨rfl, rfl⟩, Nat.le_refl _, rfl, rfl⟩

/-- `dir_close` gives the reference of a `struct dir` back that nobody holds. -/
theorem wp_dirClose (hd : w.dirs d = some dir) (h : Counted w (e + Pi.single dir.inode 1))
    (hheld : d ∉ w.heldDirs) : wp (dirClose (some d)) (fun _ w' =>
      Counted w' e ∧ Frame w w' ∧ SameDisk w w' ∧ w'.dirs = Function.update w.dirs d none)
      E w := by
  rw [dirClose, Routine.wp_bind]
  refine wp_getDir hd ?_
  rw [Routine.wp_bind]
  refine (wp_inodeClose h).mono fun _ w1 h1 => ?_
  rw [Routine.wp_modify]
  have hheld1 : d ∉ w1.heldDirs := h1.only.heldDirs ▸ hheld
  obtain ⟨hcounted, hframe⟩ := h1.counted.setDirs (Function.update w1.dirs d none)
    (Nat.le_refl _)
    (fun d' hd' => by
      rw [Function.update_apply]
      split
      · rfl
      · exact (h1.counted.fresh d' hd').2.1)
    (fun d' hd' => by
      rw [Function.update_of_ne]
      · rfl
      · rintro rfl
        exact hheld1 hd')
  refine ⟨hcounted, h1.frame.trans hframe, h1.disk.trans ⟨rfl, rfl⟩, ?_⟩
  rw [← h1.only.dirs]

end

end Handles

end Pintos
