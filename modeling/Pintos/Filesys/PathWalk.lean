import Pintos.Filesys.HandleCounts

/-! Where `dir_path_lookup` gets to.  Its loop only ever looks at the directory that it is in, so it
runs as the same loop over the sectors of directories.  That loop walks along the entries of the
path, and then looks for the last one again for as long as it differs from the target. -/

namespace Pintos

namespace Handles

open Routine (wp)
open State

variable {env : Nat → Draw} {w w0 w' : State} {d p q s t i : Nat} {inode : Inode} {dir : Dir}
  {path target name : List UInt8} {names : List (List UInt8)} {E : Fault → Prop}

/-- The directory that one component leads to. -/
def hop (w : State) (s : Nat) (name : List UInt8) : Option Nat :=
  if name = dot then some s
  else if name = dotdot then some (w.parent s)
  else entrySector name true (w.entries s)

/-- The directory that a walk along `names` reaches, if all of them are directories. -/
def walk (w : State) (s : Nat) (names : List (List UInt8)) : Option Nat := names.foldlM (hop w) s

/-- The loop of `dir_path_lookup` over the sectors of directories. -/
def sectorLoop (w : State) (path target : List UInt8) (cnt : Nat) :
    Nat → Nat → List UInt8 → Nat → Option Nat → Except Fault (Option Nat)
  | 0, _, _, _, _ => .error .spin
  | fuel + 1, i, dirEntryName, s, r =>
    if dirEntryName ≠ target ∨ i < cnt then
      let name := (getPathEntry path i).getD dirEntryName
      if nameMax < name.length then .error (.undefined "dir_entry_name")
      else
        match hop w s name with
        | none => .ok none
        | some s' => sectorLoop w path target cnt fuel (i + 1) name s' (some s')
    else .ok r

/-! ### Inodes that only gain references -/

/-- `malloc` hands out memory that nothing points to. -/
def State.Fresh (w : State) : Prop := ∀ p, w.nextPtr ≤ p → w.inodes p = none ∧ w.dirs p = none

/-- The sector of an inode. -/
def State.sectorOf (w : State) (p : Nat) : Option Nat := (w.inodes p).map Inode.sector

/-- The sector of a directory. -/
def State.dirSector (w : State) (d : Nat) : Option Nat := (w.dirInode d).bind w.sectorOf

/-- Inodes were opened. -/
structure Opens (w w' : State) : Prop where
  fresh : w'.Fresh
  disk : SameDisk w w'
  dirs : w'.dirs = w.dirs
  inodes : ∀ p inode, w.inodes p = some inode →
    ∃ inode', w'.inodes p = some inode' ∧ inode'.sector = inode.sector ∧
      inode'.removed = inode.removed ∧ inode.openCnt ≤ inode'.openCnt

theorem Opens.refl (h : w.Fresh) : Opens w w :=
  ⟨h, ⟨rfl, rfl⟩, rfl, fun _ inode hp => ⟨inode, hp, rfl, rfl, Nat.le_refl _⟩⟩

theorem Opens.trans {w'' : State} (h : Opens w w') (h' : Opens w' w'') : Opens w w'' := by
  refine ⟨h'.fresh, h.disk.trans h'.disk, h'.dirs.trans h.dirs, fun p inode hp => ?_⟩
  obtain ⟨inode1, h1, hsector1, hremoved1, hle1⟩ := h.inodes p inode hp
  obtain ⟨inode2, h2, hsector2, hremoved2, hle2⟩ := h'.inodes p inode1 h1
  exact ⟨inode2, h2, hsector2.trans hsector1, hremoved2.trans hremoved1, Nat.le_trans hle1 hle2⟩

theorem Opens.openCnt_le (h : Opens w w') (p : Nat) : w.openCnt p ≤ w'.openCnt p := by
  rcases hp : w.inodes p with _ | inode
  · rw [openCnt_of_none hp]
    exact Nat.zero_le _
  · obtain ⟨inode', hp', -, -, hle⟩ := h.inodes p inode hp
    rwa [openCnt_of_some hp, openCnt_of_some hp']

/-- To give a reference to the inode back does not deallocate blocks: if it is removed, there is
another. -/
def State.Spared (w : State) (p : Nat) : Prop :=
  ∀ inode, w.inodes p = some inode → inode.removed = true → 1 < inode.openCnt

/-- The caller holds a reference to an inode that was not counted before. -/
def Gained (w w' : State) (q s : Nat) : Prop :=
  (∃ inode, w'.inodes q = some inode ∧ inode.sector = s) ∧ w.openCnt q < w'.openCnt q ∧
    w'.Spared q

theorem opens_inodeOpen (h : w.Fresh) (s : Nat) :
    wp (inodeOpen s) (fun q w' => Opens w w' ∧ Gained w w' q s) E w := by
  rw [inodeOpen, Routine.wp_bind, Routine.wp_get]
  rcases hfind : w.findInode s with _ | q
  · have hnone := h w.nextPtr (Nat.le_refl _)
    have hself : (w.newInode s).inodes w.nextPtr = some (.ofSector s) := Function.update_self ..
    have hother : ∀ p, p ≠ w.nextPtr → (w.newInode s).inodes p = w.inodes p := fun p hp =>
      Function.update_of_ne hp ..
    refine ⟨⟨fun p hp => ?_, ⟨rfl, rfl⟩, rfl, fun p inode hp => ?_⟩, ⟨_, hself, rfl⟩, ?_,
      fun inode hq hremoved => ?_⟩
    · replace hp : w.nextPtr + 1 ≤ p := hp
      rw [hother p (by omega)]
      exact h p (by omega)
    · refine ⟨inode, ?_, rfl, rfl, Nat.le_refl _⟩
      rwa [hother]
      rintro rfl
      simp [hnone.1] at hp
    · rw [openCnt_of_none hnone.1, openCnt_of_some hself]
      exact Nat.one_pos
    · cases hself.symm.trans hq
      cases hremoved
  · obtain ⟨inode, hq, hsector⟩ := findInode_some hfind
    simp only [Routine.wp_bind, inodeReopen]
    refine wp_getInode hq ?_
    have hself : (w.setInode q inode.reopen).inodes q = some inode.reopen := Function.update_self ..
    have hother : ∀ p, p ≠ q → (w.setInode q inode.reopen).inodes p = w.inodes p := fun p hp =>
      Function.update_of_ne hp ..
    refine ⟨⟨fun p hp => ?_, ⟨rfl, rfl⟩, rfl, fun p inode' hp => ?_⟩, ⟨_, hself, hsector⟩, ?_,
      fun inode' hq' _ => ?_⟩
    · have hpq : p ≠ q := by
        rintro rfl
        simp [(h p hp).1] at hq
      exact ⟨(hother p hpq).trans (h p hp).1, (h p hp).2⟩
    · by_cases hpq : p = q
      · subst hpq
        rw [hq] at hp
        cases hp
        exact ⟨_, hself, rfl, rfl, Nat.le_succ _⟩
      · exact ⟨inode', (hother p hpq).trans hp, rfl, rfl, Nat.le_refl _⟩
    · rw [openCnt_of_some hq, openCnt_of_some hself]
      exact Nat.lt_succ_self _
    · cases hself.symm.trans hq'
      exact Nat.succ_lt_succ inode.openCnt_pos

theorem opens_accessUpTo (h : w.Fresh) (upTo : Nat) :
    wp (accessUpTo env upTo) (fun _ w' => Opens w w') E w := by
  unfold accessUpTo
  split_ifs with hdirect
  · exact Opens.refl h
  · rw [Routine.wp_bind]
    refine wp_draw ?_
    have hclock : Opens w { w with clock := w.clock + 1 } :=
      ⟨h, ⟨rfl, rfl⟩, rfl, fun _ inode hp => ⟨inode, hp, rfl, rfl, Nat.le_refl _⟩⟩
    refine Routine.wp_forM (P := fun w' => Opens w w') (fun b _ w1 h1 => ?_) hclock
    rw [Routine.wp_discard]
    exact (opens_inodeOpen h1.fresh b).mono fun q w2 h2 => h1.trans h2.1

/-- What `dir_lookup_entry` finds is the directory that a component other than the dots leads to. -/
theorem opens_dirLookupEntry (h : w.Fresh) (hd : w.dirs d = some dir)
    (hp : w.inodes dir.inode = some inode) (name : List UInt8) :
    wp (dirLookupEntry env (some d) name true) (fun r w' => Opens w w' ∧
      (entrySector name true (w.entries inode.sector) = none ∧ r = none ∨
        ∃ q s, entrySector name true (w.entries inode.sector) = some s ∧ r = some q ∧
          Gained w w' q s)) E w := by
  rw [dirLookupEntry, lookup, Routine.wp_bind, Routine.wp_bind]
  refine wp_dirEntries hd hp ?_
  unfold entrySector
  dsimp only
  rcases findEntry name (w.entries inode.sector) with _ | ⟨k, e⟩
  · rw [Routine.wp_bind]
    exact (opens_accessUpTo h _).mono fun _ w1 h1 => ⟨h1, .inl ⟨rfl, rfl⟩⟩
  · rw [Routine.wp_bind]
    refine (opens_accessUpTo h _).mono fun _ w1 h1 => ?_
    rw [Routine.wp_pure]
    dsimp only
    split_ifs with hcheck
    · exact ⟨h1, .inl ⟨rfl, rfl⟩⟩
    · rw [Routine.wp_map]
      refine (opens_inodeOpen h1.fresh _).mono ?_
      rintro q w2 ⟨h2, hsector, hlt, hspared⟩
      refine ⟨h1.trans h2, .inr ?_⟩
      exact ⟨q, e.inodeSector, rfl, rfl, hsector, Nat.lt_of_le_of_lt (h1.openCnt_le q) hlt, hspared⟩

/-! ### The loop -/

/-- `dir_path_lookup` is in the directory `d` of sector `s`, to whose inode `p` it has a reference
if it opened the directory itself. -/
structure At (w0 : State) (d : Nat) (prev : Option Nat) (p s : Nat) (w : State) : Prop where
  fresh : w.Fresh
  disk : SameDisk w0 w
  dir : ∃ lock, w.dirs d = some ⟨p, lock⟩
  inode : ∃ inode, w.inodes p = some inode ∧ inode.sector = s
  prev : prev = none ∨ prev = some d ∧ w.Spared p

/-- What is left of an inode after another reference to it was given back. -/
theorem closeInode_self (hp : w.inodes p = some inode) (hcnt : 1 < inode.openCnt) : ∃ inode',
    (w.closeInode p).inodes p = some inode' ∧ inode'.sector = inode.sector ∧
      inode'.removed = inode.removed ∧ inode'.openCnt + 1 = inode.openCnt := by
  rw [closeInode_inodes hp, Function.update_self]
  cases hdrop : inode.dropOpenCnt with
  | none =>
    have := Inode.dropOpenCnt_eq_none.mp hdrop
    omega
  | some inode' =>
    obtain ⟨hsector, -, hremoved, hcnt'⟩ := Inode.dropOpenCnt_some hdrop
    exact ⟨inode', rfl, hsector, hremoved, hcnt'⟩

/-- The loop moves on to an inode that it has opened, and closes the directory that it leaves. -/
theorem wp_leave {Q : Option Nat → State → Prop} {prev : Option Nat} {w1 : State}
    {rest : Nat → HandleRoutine (Option Nat)} {s' : Nat} (hat : At w0 d prev p s w)
    (hopens : Opens w w1) (hq : Gained w w1 q s')
    (hrest : ∀ d' w', At w0 d' (some d') q s' w' → wp (rest d') Q E w') :
    wp (do
      let newDir ← dirOpenInode q
      dirClose prev
      rest newDir) Q E w1 := by
  obtain ⟨⟨inode, hlive, hsector⟩, hlt, hspared⟩ := hq
  obtain ⟨lock, hdir⟩ := hat.dir
  have hnone := (hopens.fresh w1.nextPtr (Nat.le_refl _)).2
  have hne : d ≠ w1.nextPtr := by
    rintro rfl
    rw [hopens.dirs, hdir] at hnone
    cases hnone
  rw [dirOpenInode, Routine.wp_bind, Routine.wp_bind, Routine.wp_get, Routine.wp_bind,
    Routine.wp_set, Routine.wp_pure, Routine.wp_bind]
  generalize hw2 : ({ w1.setDir w1.nextPtr ⟨q, none⟩ with nextPtr := w1.nextPtr + 1 } : State) = w2
  have hdirs2 : w2.dirs = Function.update w1.dirs w1.nextPtr (some ⟨q, none⟩) := by rw [← hw2]; rfl
  have hinodes2 : w2.inodes = w1.inodes := by rw [← hw2]; rfl
  have hdisk2 : SameDisk w0 w2 := hat.disk.trans (hopens.disk.trans (by rw [← hw2]; exact ⟨rfl, rfl⟩))
  have hself2 : w2.dirs w1.nextPtr = some ⟨q, none⟩ := by rw [hdirs2, Function.update_self]
  have hfresh2 : w2.Fresh := fun p hp => by
    replace hp : w1.nextPtr + 1 ≤ p := by rwa [← hw2] at hp
    rw [hinodes2, hdirs2, Function.update_of_ne (by omega)]
    exact hopens.fresh p (by omega)
  rcases hat.prev with rfl | ⟨rfl, hprev⟩
  · refine hrest _ w2 ⟨hfresh2, hdisk2, ⟨none, hself2⟩, ⟨inode, by rw [hinodes2, hlive], hsector⟩, ?_⟩
    refine .inr ⟨rfl, fun inode' hq' hremoved => hspared inode' ?_ hremoved⟩
    rwa [hinodes2] at hq'
  · have hdir2 : w2.dirs d = some ⟨p, lock⟩ := by
      rw [hdirs2, Function.update_of_ne hne, hopens.dirs, hdir]
    obtain ⟨old, hp, -⟩ := hat.inode
    obtain ⟨old1, hp1, -, hremoved1, hle⟩ := hopens.inodes p old hp
    have hp2 : w2.inodes p = some old1 := by rw [hinodes2, hp1]
    have hprev1 : old1.removed = true → 1 < old.openCnt := fun hremoved =>
      hprev old hp (hremoved1.symm.trans hremoved)
    rw [dirClose, Routine.wp_bind]
    refine wp_getDir hdir2 ?_
    rw [Routine.wp_bind]
    refine Routine.wp_of_ok (inodeClose_eq hp2 fun hlast hremoved => ?_) ?_
    · have := hprev1 hremoved
      omega
    rw [Routine.wp_modify]
    -- the inode that the loop moved to keeps the reference that was taken for it
    have hkept : ∃ inode', (w2.closeInode p).inodes q = some inode' ∧ inode'.sector = s' ∧
        (inode'.removed = true → 1 < inode'.openCnt) := by
      by_cases hqp : q = p
      · subst hqp
        rw [hp1] at hlive
        cases hlive
        rw [openCnt_of_some hp, openCnt_of_some hp1] at hlt
        have hpos := old.openCnt_pos
        obtain ⟨inode', hself, hsector', hremoved', hcnt'⟩ := closeInode_self hp2 (by omega)
        refine ⟨inode', hself, hsector'.trans hsector, fun hremoved => ?_⟩
        have := hprev1 (hremoved'.symm.trans hremoved)
        omega
      · refine ⟨inode, ?_, hsector, hspared inode hlive⟩
        rw [closeInode_inodes hp2, Function.update_of_ne hqp, hinodes2, hlive]
    obtain ⟨inode', hinode', hsector', hspared'⟩ := hkept
    have honly := onlyInodes_closeInode w2 p
    refine hrest _ _ ⟨fun p' hp' => ⟨?_, ?_⟩, hdisk2.trans ⟨honly.entries, honly.parent⟩, ⟨none, ?_⟩,
      ⟨inode', hinode', hsector'⟩, .inr ⟨rfl, fun i hi hremoved => ?_⟩⟩
    · replace hp' : (w2.closeInode p).nextPtr ≤ p' := hp'
      rw [closeInode_nextPtr] at hp'
      rcases hrem : (w2.closeInode p).inodes p' with _ | i
      · rfl
      · obtain ⟨i', hi', -⟩ := closeInode_some hrem
        rw [(hfresh2 p' hp').1] at hi'
        cases hi'
    · replace hp' : (w2.closeInode p).nextPtr ≤ p' := hp'
      rw [closeInode_nextPtr] at hp'
      show Function.update (w2.closeInode p).dirs d none p' = none
      rw [Function.update_apply, honly.dirs, (hfresh2 p' hp').2, ite_self]
    · show Function.update (w2.closeInode p).dirs d none w1.nextPtr = _
      rw [Function.update_of_ne hne.symm, honly.dirs, hself2]
    · cases hinode'.symm.trans hi
      exact hspared' hremoved

/-- The loop of `dir_path_lookup` does on the inodes what it does on their sectors. -/
theorem wp_pathLookupFrom {cnt fuel : Nat} {prev r rs : Option Nat} (hat : At w0 d prev p s w)
    (hr : r = none ∧ rs = none ∨ r = some p ∧ rs = some s) :
    wp (pathLookupFrom env path target cnt fuel i name d prev r)
      (fun r' w' => ∃ rs', sectorLoop w0 path target cnt fuel i name s rs = .ok rs' ∧
        r'.map w'.sectorOf = rs'.map some)
      (fun f => sectorLoop w0 path target cnt fuel i name s rs = .error f) w := by
  induction fuel generalizing i name d prev p s w r rs with
  | zero => rfl
  | succ fuel ih =>
    obtain ⟨lock, hdir⟩ := hat.dir
    obtain ⟨inode, hinode, rfl⟩ := hat.inode
    rw [pathLookupFrom, sectorLoop]
    by_cases hloop : name ≠ target ∨ i < cnt
    swap
    · rw [if_neg hloop, if_neg hloop, Routine.wp_pure]
      refine ⟨rs, rfl, ?_⟩
      rcases hr with ⟨rfl, rfl⟩ | ⟨rfl, rfl⟩
      · rfl
      · simp [State.sectorOf, hinode]
    rw [if_pos hloop, if_pos hloop]
    generalize (getPathEntry path i).getD name = n
    dsimp only
    by_cases hlong : nameMax < n.length
    · rw [if_pos hlong, if_pos hlong]
      exact rfl
    rw [if_neg hlong, if_neg hlong, hop]
    by_cases hdot : n = dot
    · rw [if_pos hdot, if_pos hdot, Routine.wp_bind]
      exact wp_getDir hdir (ih hat (.inr ⟨rfl, rfl⟩))
    rw [if_neg hdot, if_neg hdot]
    by_cases hdotdot : n = dotdot
    · rw [if_pos hdotdot, if_pos hdotdot, Routine.wp_bind]
      refine wp_getDir hdir ?_
      rw [Routine.wp_bind, inodeGetParent, Routine.wp_bind]
      refine wp_getInode hinode ?_
      rw [Routine.wp_bind, Routine.wp_get, Routine.wp_pure, Routine.wp_bind, hat.disk.parent]
      exact (opens_inodeOpen hat.fresh _).mono fun q w1 ⟨h1, hq⟩ =>
        wp_leave hat h1 hq fun d' w' hat' => ih hat' (.inr ⟨rfl, rfl⟩)
    rw [if_neg hdotdot, if_neg hdotdot, Routine.wp_bind]
    refine (opens_dirLookupEntry hat.fresh hdir hinode n).mono fun r' w1 ⟨h1, hfound⟩ => ?_
    rw [hat.disk.entries] at hfound
    rcases hfound with ⟨hnone, rfl⟩ | ⟨q, s', hsome, rfl, hq⟩
    · rw [hnone]
      exact ⟨none, rfl, rfl⟩
    · rw [hsome]
      exact wp_leave hat h1 hq fun d' w' hat' => ih hat' (.inr ⟨rfl, rfl⟩)

/-! ### Whole paths -/

/-- What a lookup relies on: new memory is unused, and the working directory of the thread is in
memory. -/
structure Usable (w : State) (t : Nat) : Prop where
  fresh : w.Fresh
  cwd : ∀ d, w.currDir t = some d → (w.dirSector d).isSome

/-- The directory that a path starts from. -/
def State.base (w : State) (t : Nat) (path : List UInt8) : Nat :=
  if path.head? = some slash then rootDirSector
  else ((w.currDir t).bind w.dirSector).getD rootDirSector

/-- The loop as `dir_path_lookup` runs it. -/
def lookupLoop (env : Nat → Draw) (w : State) (t : Nat) (path : List UInt8) (fuel : Nat) :
    Except Fault (Option Nat) :=
  sectorLoop w path (getPathLastEntry path) (pathEntries path).length fuel 0
    (env w.clock).dirEntryName (w.base t path) none

theorem Counted.usable {e : Nat → Nat} (h : Counted w e) (ht : t ∈ w.threads) : Usable w t := by
  refine ⟨fun p hp => ⟨(h.fresh p hp).1, (h.fresh p hp).2.1⟩, fun d hd => ?_⟩
  obtain ⟨dir, inode, hdir, hinode⟩ := h.live_held (mem_heldDirs.mpr (.inr ⟨t, ht, hd⟩))
  simp [State.dirSector, State.sectorOf, dirInode, hdir, hinode]

theorem State.Fresh.clock (h : w.Fresh) (clock : Nat) : ({ w with clock := clock } : State).Fresh := h

/-- The directory that `dir_open_root` opens. -/
theorem at_dirOpenRoot (h : w.Fresh) (hdisk : SameDisk w0 w) :
    wp dirOpenRoot (fun d w' => ∃ p, At w0 d none p rootDirSector w' ∧
      w'.dirSector d = some rootDirSector) E w := by
  rw [dirOpenRoot, Routine.wp_bind]
  refine (opens_inodeOpen h _).mono fun p w1 ⟨h1, ⟨inode, hp, hsector⟩, _⟩ => ?_
  rw [dirOpenInode, Routine.wp_bind, Routine.wp_get, Routine.wp_bind, Routine.wp_set,
    Routine.wp_pure]
  have hself : Function.update w1.dirs w1.nextPtr (some (⟨p, none⟩ : Dir)) w1.nextPtr =
      some ⟨p, none⟩ := Function.update_self ..
  refine ⟨p, ⟨fun p' hp' => ?_, hdisk.trans (h1.disk.trans ⟨rfl, rfl⟩), ⟨none, hself⟩,
    ⟨inode, hp, hsector⟩, .inl rfl⟩, ?_⟩
  · replace hp' : w1.nextPtr + 1 ≤ p' := hp'
    refine ⟨(h1.fresh p' (by omega)).1, ?_⟩
    show Function.update w1.dirs w1.nextPtr _ p' = none
    rw [Function.update_of_ne (by omega)]
    exact (h1.fresh p' (by omega)).2
  · show ((Function.update w1.dirs w1.nextPtr (some (⟨p, none⟩ : Dir)) w1.nextPtr).map
      Dir.inode).bind _ = _
    rw [hself]
    simp [State.sectorOf, State.setDir, hp, hsector]

/-- `get_curr_working_dir` returns a directory in memory. -/
theorem at_getCurrWorkingDir (h : Usable w t) (hdisk : SameDisk w0 w) :
    wp (getCurrWorkingDir t) (fun d w' => ∃ p, At w0 d none p
      (((w.currDir t).bind w.dirSector).getD rootDirSector) w' ∧
        w'.dirSector d = some (((w.currDir t).bind w.dirSector).getD rootDirSector)) E w := by
  rw [getCurrWorkingDir, Routine.wp_bind, Routine.wp_get]
  rcases hcurr : w.currDir t with _ | d
  · exact at_dirOpenRoot h.fresh hdisk
  · have hsector := h.cwd d hcurr
    rw [Option.isSome_iff_exists] at hsector
    obtain ⟨s, hs⟩ := hsector
    dsimp only
    rw [Routine.wp_pure, Option.bind_some, hs, Option.getD_some]
    have hcwd := hs
    rw [State.dirSector, Option.bind_eq_some_iff] at hcwd
    obtain ⟨p, hp, hinode⟩ := hcwd
    rw [dirInode, Option.map_eq_some_iff] at hp
    obtain ⟨dir, hdir, rfl⟩ := hp
    rw [State.sectorOf, Option.map_eq_some_iff] at hinode
    exact ⟨dir.inode, ⟨h.fresh, hdisk, ⟨dir.dirLock, hdir⟩, hinode, .inl rfl⟩, rfl⟩

/-- Other than for the root itself, `dir_path_lookup` returns what its loop finds. -/
theorem wp_dirPathLookup_loop {fuel : Nat} (h : Usable w t) (hroot : path ≠ [slash]) :
    wp (dirPathLookup env fuel t path)
      (fun r w' => ∃ rs, lookupLoop env w t path fuel = .ok rs ∧
        r.map w'.sectorOf = rs.map some)
      (fun f => lookupLoop env w t path fuel = .error f) w := by
  have hnot : ¬ (path.head? = some slash ∧ path.length = 1) := by
    rintro ⟨hhead, hlen⟩
    obtain ⟨c, rfl⟩ := List.length_eq_one_iff.mp hlen
    apply hroot
    simpa using hhead
  have hdisk : SameDisk w { w with clock := w.clock + 1 } := ⟨rfl, rfl⟩
  have hclock : Usable { w with clock := w.clock + 1 } t := ⟨h.fresh.clock _, h.cwd⟩
  rw [dirPathLookup, Routine.wp_bind]
  refine wp_draw ?_
  rw [if_neg hnot, getPathEntryCnt_eq, lookupLoop, State.base]
  split_ifs with habs
  · rw [Routine.wp_bind]
    refine (at_dirOpenRoot hclock.fresh hdisk).mono fun d w1 h1 => ?_
    obtain ⟨p, hat, -⟩ := h1
    exact wp_pathLookupFrom hat (.inl ⟨rfl, rfl⟩)
  · rw [Routine.wp_bind]
    refine (at_getCurrWorkingDir hclock hdisk).mono fun d w1 h1 => ?_
    obtain ⟨p, hat, -⟩ := h1
    exact wp_pathLookupFrom hat (.inl ⟨rfl, rfl⟩)

/-! ### The loop over sectors -/

variable {cnt fuel : Nat} {r : Option Nat}

/-- A component that a walk along `names` comes to does not fit in `dir_entry_name`. -/
def LongOnWalk (w : State) (s : Nat) (names : List (List UInt8)) : Prop :=
  ∃ front n, front ++ [n] <+: names ∧ (walk w s front).isSome ∧ nameMax < n.length

theorem longOnWalk_of_mem {n : List UInt8} (hn : n ∈ names) (hlong : nameMax < n.length)
    (hwalk : (walk w s names).isSome) : LongOnWalk w s names := by
  obtain ⟨front, back, rfl⟩ := List.append_of_mem hn
  refine ⟨front, n, ⟨back, by simp⟩, ?_, hlong⟩
  rw [walk, List.foldlM_append] at hwalk
  by_contra hnone
  rw [Option.not_isSome_iff_eq_none, walk] at hnone
  rw [hnone] at hwalk
  nomatch hwalk

theorem longOnWalk_cons {n : List UInt8} : LongOnWalk w s (n :: names) ↔
    nameMax < n.length ∨ ∃ s', hop w s n = some s' ∧ LongOnWalk w s' names := by
  constructor
  · rintro ⟨front, m, hpre, hwalk, hlong⟩
    rcases front with _ | ⟨c, front⟩
    · rw [List.nil_append, List.cons_prefix_cons] at hpre
      exact .inl (hpre.1 ▸ hlong)
    · rw [List.cons_append, List.cons_prefix_cons] at hpre
      obtain ⟨rfl, hpre⟩ := hpre
      rw [walk, List.foldlM_cons] at hwalk
      rcases hhop : hop w s c with _ | s'
      · rw [hhop] at hwalk
        nomatch hwalk
      · rw [hhop] at hwalk
        exact .inr ⟨s', rfl, front, m, hpre, hwalk, hlong⟩
  · rintro (hlong | ⟨s', hhop, front, m, hpre, hwalk, hlong⟩)
    · exact ⟨[], n, by simp, rfl, hlong⟩
    · refine ⟨n :: front, m, by simpa using hpre, ?_, hlong⟩
      rw [walk, List.foldlM_cons, hhop]
      exact hwalk

/-- While there are entries left, the loop walks along them. -/
theorem sectorLoop_entries (hdrop : (pathEntries path).drop i = names)
    (hi : i ≤ (pathEntries path).length) (hfit : ¬ LongOnWalk w s names) (fuel : Nat) :
    sectorLoop w path target (pathEntries path).length (names.length + fuel) i name s r =
      match walk w s names with
      | none => .ok none
      | some s' => sectorLoop w path target (pathEntries path).length fuel
          (pathEntries path).length (names.getLastD name) s' (if names = [] then r else some s') := by
  induction names generalizing i name s r with
  | nil =>
    have : i = (pathEntries path).length := by
      have := List.drop_eq_nil_iff.mp hdrop
      omega
    subst this
    simp [walk]
  | cons n names ih =>
    have hlt : i < (pathEntries path).length := by
      by_contra hge
      rw [List.drop_eq_nil_of_le (by omega)] at hdrop
      nomatch hdrop
    rw [List.drop_eq_getElem_cons hlt, List.cons.injEq] at hdrop
    have hn : (getPathEntry path i).getD name = n := by
      rw [getPathEntry_eq, List.getElem?_eq_getElem hlt, Option.getD_some, hdrop.1]
    rw [longOnWalk_cons, not_or] at hfit
    rw [show (n :: names).length + fuel = names.length + fuel + 1 by simp; omega, sectorLoop,
      if_pos (.inr hlt)]
    dsimp only
    rw [hn, if_neg hfit.1, walk, List.foldlM_cons]
    rcases hhop : hop w s n with _ | s'
    · rfl
    · dsimp only
      rw [ih hdrop.2 hlt fun hlong => hfit.2 ⟨s', hhop, hlong⟩]
      show _ = match walk w s' names with
        | none => _
        | some s' => _
      rcases hwalk : walk w s' names with _ | s''
      · rfl
      · dsimp only
        rcases names with _ | ⟨m, names⟩
        · cases hwalk
          rfl
        · rfl

/-- A component that is too long overruns the buffer. -/
theorem sectorLoop_long (hdrop : (pathEntries path).drop i = names) (hlong : LongOnWalk w s names)
    (fuel : Nat) :
    sectorLoop w path target (pathEntries path).length (names.length + fuel) i name s r =
      .error (.undefined "dir_entry_name") := by
  induction names generalizing i name s r with
  | nil =>
    obtain ⟨front, n, hpre, -⟩ := hlong
    simp at hpre
  | cons n names ih =>
    have hlt : i < (pathEntries path).length := by
      by_contra hge
      rw [List.drop_eq_nil_of_le (by omega)] at hdrop
      nomatch hdrop
    rw [List.drop_eq_getElem_cons hlt, List.cons.injEq] at hdrop
    have hn : (getPathEntry path i).getD name = n := by
      rw [getPathEntry_eq, List.getElem?_eq_getElem hlt, Option.getD_some, hdrop.1]
    rw [show (n :: names).length + fuel = names.length + fuel + 1 by simp; omega, sectorLoop,
      if_pos (.inr hlt)]
    dsimp only
    rw [hn]
    split_ifs with hn'
    · rfl
    · rw [longOnWalk_cons, or_iff_right hn'] at hlong
      obtain ⟨s', hhop, hlong⟩ := hlong
      rw [hhop]
      exact ih hdrop.2 hlong

/-- Behind the last entry the loop looks for the same name again. -/
theorem sectorLoop_again (hi : (pathEntries path).length ≤ i) (hname : name ≠ target)
    (fuel : Nat) :
    sectorLoop w path target (pathEntries path).length (fuel + 1) i name s r =
      if nameMax < name.length then .error (.undefined "dir_entry_name")
      else
        match hop w s name with
        | none => .ok none
        | some s' => sectorLoop w path target (pathEntries path).length fuel (i + 1) name s'
            (some s') := by
  rw [sectorLoop, if_pos (.inl hname), getPathEntry_eq, List.getElem?_eq_none hi]
  rfl

/-- It never finds a directory so. -/
theorem sectorLoop_ne_ok (hi : (pathEntries path).length ≤ i) (hname : name ≠ target)
    (fuel s' : Nat) :
    sectorLoop w path target (pathEntries path).length fuel i name s r ≠ .ok (some s') := by
  induction fuel generalizing i s r with
  | zero => nofun
  | succ fuel ih =>
    rw [sectorLoop_again hi hname]
    split_ifs with hlong
    · nofun
    · rcases hop w s name with _ | s'
      · nofun
      · exact ih (by omega)

/-- It never ends if the name is a dot or two dots. -/
theorem sectorLoop_dots (hi : (pathEntries path).length ≤ i) (hname : name ≠ target)
    (hdots : name = dot ∨ name = dotdot) (fuel : Nat) :
    sectorLoop w path target (pathEntries path).length fuel i name s r = .error .spin := by
  induction fuel generalizing i s r with
  | zero => rfl
  | succ fuel ih =>
    obtain ⟨s', hs'⟩ : ∃ s', hop w s name = some s' := by
      rcases hdots with rfl | rfl
      · exact ⟨s, if_pos rfl⟩
      · exact ⟨w.parent s, rfl⟩
    have hlen : ¬ nameMax < name.length := by
      rcases hdots with rfl | rfl <;> decide
    rw [sectorLoop_again hi hname, if_neg hlen, hs']
    exact ih (by omega)

/-- It goes down the tree if the name is another one. -/
theorem sectorLoop_descends {height : Nat → Nat}
    (hheight : ∀ s s' name, entrySector name true (w.entries s) = some s' → height s' < height s)
    (hi : (pathEntries path).length ≤ i) (hname : name ≠ target) (hdot : name ≠ dot)
    (hdotdot : name ≠ dotdot) (hlen : name.length ≤ nameMax) {fuel : Nat}
    (hfuel : height s < fuel) :
    sectorLoop w path target (pathEntries path).length fuel i name s r = .ok none := by
  induction fuel generalizing i s r with
  | zero => omega
  | succ fuel ih =>
    rw [sectorLoop_again hi hname, if_neg (by omega)]
    rcases hhop : hop w s name with _ | s'
    · rfl
    · rw [hop, if_neg hdot, if_neg hdotdot] at hhop
      have := hheight s s' name hhop
      exact ih (by omega) (by omega)

end Handles

end Pintos
