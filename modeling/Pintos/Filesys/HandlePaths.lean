import Pintos.Filesys.HandleCounts

/-! What `dir_path_lookup` does with the references that it takes.  It starts at a base directory and
moves on at every component other than `"."`; it keeps a reference to the directory that it is in, but
none to the base. -/

namespace Pintos

namespace Handles

open Routine (wp)
open State

variable {env : Nat → Draw} {fuel : Nat} {w w0 w' : State} {e : Nat → Nat} {d d0 p p0 s s0 t : Nat}
  {base inode : Inode} {path target name : List UInt8} {names : List (List UInt8)}

/-- The walk along `names` from the directory in sector `s`.  Every directory is searched within its
direct blocks, and only the first component other than `"."` may be missing; if none is, `done`
holds. -/
def WalksKept (w : State) (done : Prop) : Bool → Nat → List (List UInt8) → Prop
  | _, _, [] => done
  | atBase, s, n :: names =>
    if n = dot then WalksKept w done atBase s names
    else if n = dotdot then WalksKept w done false (w.parent s) names
    else readEnd n (w.entries s) ≤ directBytes ∧
      match entrySector n true (w.entries s) with
      | some s' => WalksKept w done false s' names
      | none => atBase = true

/-- The walk along `names` meets a component that is no directory. -/
def WalksOff (w : State) : Nat → List (List UInt8) → Prop
  | _, [] => False
  | s, n :: names =>
    if n = dot then WalksOff w s names
    else if n = dotdot then WalksOff w (w.parent s) names
    else
      match entrySector n true (w.entries s) with
      | some s' => WalksOff w s' names
      | none => True

/-- `dir_path_lookup` is in a directory that it opened itself; `leak` are the references that it
has lost. -/
structure Moved (w0 : State) (e leak : Nat → Nat) (d p s : Nat) (w : State) : Prop where
  counted : Counted w (e + leak + Pi.single p 1)
  frame : Frame w0 w
  disk : SameDisk w0 w
  unheld : d ∉ w0.heldDirs
  dir : w.dirs d = some ⟨p, none⟩
  inode : ∃ inode, w.inodes p = some inode ∧ inode.sector = s

/-- `dir_path_lookup` moves on to an inode that it has opened, from the directory `prev`. -/
theorem wp_move {Q : Option Nat → State → Prop} {E : Fault → Prop} {q : Nat} {leak e' : Nat → Nat}
    {prev : Option Nat} {rest : Nat → HandleRoutine (Option Nat)}
    (hcounted : Counted w (e + leak + e' + Pi.single q 1)) (hframe : Frame w0 w)
    (hdisk : SameDisk w0 w) (hq : ∃ inode, w.inodes q = some inode ∧ inode.sector = s)
    (hprev : prev = none ∧ e' = 0 ∨ ∃ d p, prev = some d ∧ e' = Pi.single p 1 ∧
      w.dirs d = some ⟨p, none⟩ ∧ d ∉ w0.heldDirs)
    (hrest : ∀ d w', Moved w0 e leak d q s w' → wp (rest d) Q E w') :
    wp (do
      let newDir ← dirOpenInode q
      dirClose prev
      rest newDir) Q E w := by
  rw [Routine.wp_bind]
  refine (wp_dirOpenInode hcounted q).mono fun d w1 ⟨h1, hf1, hd1, hle, hdirs, hinodes⟩ => ?_
  have hnone := (hcounted.fresh d hle).2.1
  have hframe1 := hframe.trans hf1
  have hunheld : d ∉ w0.heldDirs := fun hmem => by
    refine hcounted.heldDir d ?_ hnone
    rw [hframe.heldDirs]
    exact hmem
  have hdir : w1.dirs d = some ⟨q, none⟩ := by rw [hdirs, Function.update_self]
  obtain ⟨i, hi, hsector⟩ := hq
  rw [Routine.wp_bind]
  rcases hprev with ⟨rfl, rfl⟩ | ⟨d', p, rfl, rfl, hd', hunheld'⟩
  · rw [add_zero] at h1
    exact hrest d w1 ⟨h1, hframe1, hdisk.trans hd1, hunheld, hdir, i, hinodes ▸ hi, hsector⟩
  · have hne : d' ≠ d := by
      rintro rfl
      rw [hnone] at hd'
      nomatch hd'
    have hd1' : w1.dirs d' = some ⟨p, none⟩ := by rw [hdirs, Function.update_of_ne hne, hd']
    rw [add_right_comm] at h1
    refine (wp_dirClose hd1' h1 (by rw [hframe1.heldDirs]; exact hunheld')).mono
      fun _ w2 ⟨h2, hf2, hdisk2, hdirs2⟩ => hrest d w2 ⟨h2, hframe1.trans hf2,
        (hdisk.trans hd1).trans hdisk2, hunheld, ?_, ?_⟩
    · rw [hdirs2, Function.update_of_ne hne.symm, hdir]
    · obtain ⟨j, hj⟩ := h2.live_extra (p := q) (by
        rw [Pi.add_apply, Pi.single_eq_same]
        omega)
      refine ⟨j, hj, ?_⟩
      rw [← hsector]
      exact hf2.inherits.sector h1 (hinodes ▸ hi) hj

/-- The outcome of a lookup that did not end at its base: its caller has a reference to what was
found, and `leak` are lost, none if `kept`.  Nothing is found if the walk is `off`. -/
def Outcome (w0 : State) (e : Nat → Nat) (kept off : Prop) (r : Option Nat) (w : State) : Prop :=
  Frame w0 w ∧ SameDisk w0 w ∧ (off → r = none) ∧ ∃ leak, (kept → leak = 0) ∧
    (r = none ∧ Counted w (e + leak) ∨ ∃ q, r = some q ∧ Counted w (e + leak + Pi.single q 1))

/-- What a lookup that loses nothing still has to do when it reads component `i`. -/
def Remains (w0 : State) (path target : List UInt8) (atBase : Bool) (s i : Nat)
    (name : List UInt8) : Prop :=
  WalksKept w0 ((pathEntries path).getLast? = some target) atBase s ((pathEntries path).drop i) ∧
    ((pathEntries path).drop i = [] → name = target)

/-- The walk that remains is taken one component further. -/
theorem Remains.step {atBase : Bool} {i : Nat} (h : Remains w0 path target atBase s i name)
    (hloop : name ≠ target ∨ i < (pathEntries path).length) {n : List UInt8}
    (hn : (getPathEntry path i).getD name = n) :
    (n = dot → Remains w0 path target atBase s (i + 1) n) ∧
      (n ≠ dot → n = dotdot → Remains w0 path target false (w0.parent s) (i + 1) n) ∧
        (n ≠ dot → n ≠ dotdot → readEnd n (w0.entries s) ≤ directBytes ∧
          (entrySector n true (w0.entries s) = none → atBase = true) ∧
            ∀ s', entrySector n true (w0.entries s) = some s' →
              Remains w0 path target false s' (i + 1) n) := by
  have hlt : i < (pathEntries path).length := by
    by_contra hge
    exact hloop.elim (fun hne => hne (h.2 (List.drop_eq_nil_of_le (by omega)))) hge
  have hhead : (pathEntries path)[i] = n := by
    rw [← hn, getPathEntry_eq, List.getElem?_eq_getElem hlt, Option.getD_some]
  have hdrop : (pathEntries path).drop i = n :: (pathEntries path).drop (i + 1) := by
    rw [List.drop_eq_getElem_cons hlt, hhead]
  have hremains : ∀ atBase' s', WalksKept w0 ((pathEntries path).getLast? = some target) atBase' s'
      ((pathEntries path).drop (i + 1)) → Remains w0 path target atBase' s' (i + 1) n := by
    refine fun atBase' s' hwalks => ⟨hwalks, fun hnil => ?_⟩
    rw [hnil] at hwalks
    rw [List.drop_eq_nil_iff] at hnil
    have hlast : (pathEntries path).getLast? = some n := by
      rw [List.getLast?_eq_getElem?, show (pathEntries path).length - 1 = i by omega,
        List.getElem?_eq_getElem hlt, hhead]
    exact Option.some.inj (hlast.symm.trans hwalks)
  have hwalks := h.1
  rw [hdrop, WalksKept] at hwalks
  refine ⟨fun hdot => ?_, fun hdot hdotdot => ?_, fun hdot hdotdot => ?_⟩
  · rw [if_pos hdot] at hwalks
    exact hremains _ _ hwalks
  · rw [if_neg hdot, if_pos hdotdot] at hwalks
    exact hremains _ _ hwalks
  · rw [if_neg hdot, if_neg hdotdot] at hwalks
    refine ⟨hwalks.1, fun hnone => ?_, fun s' hsome => ?_⟩
    · have hbase := hwalks.2
      rwa [hnone] at hbase
    · have hrest := hwalks.2
      rw [hsome] at hrest
      exact hremains _ _ hrest

/-- A walk that is still to go off is taken one component further. -/
theorem WalksOff.step {i : Nat} (h : WalksOff w0 s ((pathEntries path).drop i)) {n : List UInt8}
    (hn : (getPathEntry path i).getD name = n) :
    (n = dot → WalksOff w0 s ((pathEntries path).drop (i + 1))) ∧
      (n ≠ dot → n = dotdot → WalksOff w0 (w0.parent s) ((pathEntries path).drop (i + 1))) ∧
        (n ≠ dot → n ≠ dotdot → ∀ s', entrySector n true (w0.entries s) = some s' →
          WalksOff w0 s' ((pathEntries path).drop (i + 1))) := by
  have hlt : i < (pathEntries path).length := by
    by_contra hge
    rw [List.drop_eq_nil_of_le (by omega)] at h
    exact h
  rw [getPathEntry_eq, List.getElem?_eq_getElem hlt, Option.getD_some] at hn
  rw [List.drop_eq_getElem_cons hlt, hn, WalksOff] at h
  refine ⟨fun hdot => ?_, fun hdot hdotdot => ?_, fun hdot hdotdot s' hsome => ?_⟩
  · rwa [if_pos hdot] at h
  · rwa [if_neg hdot, if_pos hdotdot] at h
  · rw [if_neg hdot, if_neg hdotdot, hsome] at h
    exact h

theorem WalksOff.congr (h : WalksOff w s names) (hdisk : SameDisk w w') : WalksOff w' s names := by
  induction names generalizing s with
  | nil => exact h
  | cons n names ih =>
    rw [WalksOff] at h ⊢
    rw [hdisk.entries, hdisk.parent]
    split_ifs at h ⊢ with hdot hdotdot
    · exact ih h
    · exact ih h
    · cases hsector : entrySector n true (w.entries s) with
      | none => trivial
      | some s' =>
        rw [hsector] at h
        exact ih h

/-- A walk that stays where it is does not go off. -/
theorem WalksOff.not_dots (hdots : ∀ n ∈ names, n = dot) : ¬ WalksOff w s names := by
  induction names with
  | nil => exact id
  | cons n names ih =>
    rw [WalksOff, if_pos (hdots n List.mem_cons_self)]
    exact ih fun n hn => hdots n (List.mem_cons_of_mem _ hn)

theorem wp_inodeGetParent {Q : Nat → State → Prop} {E : Fault → Prop}
    (hp : w.inodes p = some inode) (hQ : Q (w.parent inode.sector) w) :
    wp (inodeGetParent p) Q E w := by
  rw [inodeGetParent, Routine.wp_bind]
  exact wp_getInode hp hQ

/-- From a directory that it opened itself, `dir_path_lookup` goes on. -/
theorem wp_pathLookupFrom_moved (kept off : Prop) {leak : Nat → Nat} {i : Nat}
    (hmoved : Moved w0 e leak d p s w)
    (hkept : kept → leak = 0 ∧ Remains w0 path target false s i name)
    (hoff : off → WalksOff w0 s ((pathEntries path).drop i)) :
    wp (pathLookupFrom env path target (pathEntries path).length fuel i name d (some d) (some p))
      (Outcome w0 e kept off) NotFreed w := by
  induction fuel generalizing i name d p s w leak with
  | zero => exact nofun
  | succ fuel ih =>
    obtain ⟨inode, hinode, rfl⟩ := hmoved.inode
    rw [pathLookupFrom]
    by_cases hloop : name ≠ target ∨ i < (pathEntries path).length
    swap
    · rw [if_neg hloop]
      refine ⟨hmoved.frame, hmoved.disk, fun h => ?_, leak, fun h => (hkept h).1,
        .inr ⟨p, rfl, hmoved.counted⟩⟩
      have hend := hoff h
      rw [List.drop_eq_nil_of_le (Nat.le_of_not_lt fun hlt => hloop (.inr hlt))] at hend
      exact hend.elim
    rw [if_pos hloop]
    dsimp only
    by_cases hlong : nameMax < ((getPathEntry path i).getD name).length
    · rw [if_pos hlong]
      exact nofun
    rw [if_neg hlong]
    by_cases hdot : (getPathEntry path i).getD name = dot
    · rw [if_pos hdot, Routine.wp_bind]
      refine wp_getDir hmoved.dir (ih hmoved (fun h => ?_) fun h => ((hoff h).step rfl).1 hdot)
      obtain ⟨hleak, hremains⟩ := hkept h
      exact ⟨hleak, (hremains.step hloop rfl).1 hdot⟩
    rw [if_neg hdot]
    by_cases hdotdot : (getPathEntry path i).getD name = dotdot
    · rw [if_pos hdotdot, Routine.wp_bind]
      refine wp_getDir hmoved.dir ?_
      rw [Routine.wp_bind]
      refine wp_inodeGetParent hinode ?_
      rw [Routine.wp_bind]
      refine (wp_inodeOpen hmoved.counted _).mono fun q w1 ⟨h1, hq⟩ => ?_
      refine wp_move h1.counted (hmoved.frame.trans h1.frame) (hmoved.disk.trans h1.disk) hq
        (.inr ⟨d, p, rfl, rfl, by rw [h1.only.dirs]; exact hmoved.dir, hmoved.unheld⟩)
        fun d' w' hmoved' => ih hmoved' (fun h => ?_) fun h => ?_
      · obtain ⟨hleak, hremains⟩ := hkept h
        rw [hmoved.disk.parent]
        exact ⟨hleak, (hremains.step hloop rfl).2.1 hdot hdotdot⟩
      · rw [hmoved.disk.parent]
        exact ((hoff h).step rfl).2.1 hdot hdotdot
    rw [if_neg hdotdot, Routine.wp_bind]
    refine (wp_dirLookupEntry hmoved.counted hmoved.dir hinode _ true).mono fun r w1 h1 => ?_
    rw [hmoved.disk.entries] at h1
    have hstep := fun h => ((hkept h).2.step hloop rfl).2.2 hdot hdotdot
    obtain ⟨lost, hsmall, ⟨rfl, hnone, h1⟩ | ⟨q, s', rfl, hsome, h1, hq⟩⟩ := h1
    · rw [Routine.wp_pure]
      refine ⟨hmoved.frame.trans h1.frame, hmoved.disk.trans h1.disk, fun _ => rfl,
        leak + Pi.single p 1 + lost, fun h => absurd ((hstep h).2.1 hnone) Bool.false_ne_true, .inl ⟨rfl, ?_⟩⟩
      rw [← add_assoc, ← add_assoc]
      exact h1.counted
    · have hcounted := h1.counted
      rw [add_right_comm (e + leak) _ lost, add_assoc e leak lost] at hcounted
      refine wp_move hcounted (hmoved.frame.trans h1.frame) (hmoved.disk.trans h1.disk) hq
        (.inr ⟨d, p, rfl, rfl, by rw [h1.only.dirs]; exact hmoved.dir, hmoved.unheld⟩)
        fun d' w' hmoved' => ih hmoved' (fun h => ⟨?_, (hstep h).2.2 s' hsome⟩)
          fun h => ((hoff h).step rfl).2.2 hdot hdotdot s' hsome
      rw [(hkept h).1, hsmall (hstep h).1, add_zero]

/-- The outcome of a lookup from the base `p0`.  Either it ends there, and the caller gets the base
without a reference to it; or it moved on or failed, because of a component other than `"."`. -/
def BaseOutcome (w0 : State) (e : Nat → Nat) (p0 : Nat) (path : List UInt8) (kept off : Prop)
    (r : Option Nat) (w : State) : Prop :=
  (r = some p0 ∧ Counted w e ∧ Frame w0 w ∧ SameDisk w0 w ∧ ∀ n ∈ pathEntries path, n = dot) ∨
    Outcome w0 e kept off r w ∧ (pathEntries path ≠ [] → ∃ n ∈ pathEntries path, n ≠ dot)

/-- From its base, `dir_path_lookup` goes on. -/
theorem wp_pathLookupFrom_base (kept off : Prop) {dir : Dir} {i : Nat} (h0 : Counted w0 e)
    (hdir : w0.dirs d0 = some dir) (hbase : 0 < w0.owners dir.inode + e dir.inode)
    (hinode : w0.inodes dir.inode = some base) (hcounted : Counted w e) (hframe : Frame w0 w)
    (hdisk : SameDisk w0 w) (hdirs : w.dirs = w0.dirs)
    (hdots : ∀ n ∈ (pathEntries path).take i, n = dot) (hname : 0 < i → name = dot)
    (hkept : kept → Remains w0 path target true base.sector i name)
    (hoff : off → WalksOff w0 base.sector ((pathEntries path).drop i)) {r : Option Nat}
    (hr : r = if i = 0 then none else some dir.inode) :
    wp (pathLookupFrom env path target (pathEntries path).length fuel i name d0 none r)
      (BaseOutcome w0 e dir.inode path kept off) NotFreed w := by
  induction fuel generalizing i name r with
  | zero => exact nofun
  | succ fuel ih =>
    rw [pathLookupFrom]
    by_cases hloop : name ≠ target ∨ i < (pathEntries path).length
    swap
    · rw [if_neg hloop, Routine.wp_pure, hr]
      have hge : (pathEntries path).length ≤ i := by
        by_contra hlt
        exact hloop (.inr (by omega))
      by_cases hi : i = 0
      · rw [if_pos hi]
        refine .inr ⟨⟨hframe, hdisk, fun _ => rfl, 0, fun _ => rfl, .inl ⟨rfl, by rwa [add_zero]⟩⟩, fun hne => ?_⟩
        exact absurd (List.length_eq_zero_iff.mp (by omega)) hne
      · rw [if_neg hi]
        rw [List.take_of_length_le hge] at hdots
        exact .inl ⟨rfl, hcounted, hframe, hdisk, hdots⟩
    rw [if_pos hloop]
    dsimp only
    by_cases hlong : nameMax < ((getPathEntry path i).getD name).length
    · rw [if_pos hlong]
      exact nofun
    rw [if_neg hlong]
    have hdir' : w.dirs d0 = some dir := by rw [hdirs, hdir]
    obtain ⟨inode, hlive⟩ := hcounted.live (p := dir.inode) (by rwa [hframe.owners])
    have hsector := hframe.inherits.sector h0 hinode hlive
    have hread : i < (pathEntries path).length →
        (pathEntries path)[i]? = some ((getPathEntry path i).getD name) := fun hlt => by
      rw [getPathEntry_eq, List.getElem?_eq_getElem hlt, Option.getD_some]
    by_cases hdot : (getPathEntry path i).getD name = dot
    · rw [if_pos hdot, Routine.wp_bind]
      refine wp_getDir hdir' (ih (fun n hn => ?_) (fun _ => hdot)
        (fun h => ((hkept h).step hloop rfl).1 hdot) (fun h => ((hoff h).step rfl).1 hdot)
        (if_neg (Nat.succ_ne_zero i)).symm)
      rw [List.take_add_one, List.mem_append] at hn
      rcases hn with hn | hn
      · exact hdots n hn
      · by_cases hlt : i < (pathEntries path).length
        · rw [hread hlt, Option.mem_toList] at hn
          exact (Option.some.inj hn).symm.trans hdot
        · rw [List.getElem?_eq_none (by omega)] at hn
          nomatch hn
    rw [if_neg hdot]
    -- the first component other than `"."` is read here, so it is one of the path's
    have hother : pathEntries path ≠ [] → ∃ n ∈ pathEntries path, n ≠ dot := by
      intro hne
      by_cases hlt : i < (pathEntries path).length
      · exact ⟨_, List.mem_of_getElem? (hread hlt), hdot⟩
      · have hpos := List.length_pos_of_ne_nil hne
        refine absurd ?_ hdot
        rw [getPathEntry_eq, List.getElem?_eq_none (by omega), Option.getD_none]
        exact hname (by omega)
    have hmoved : ∀ r w', Outcome w0 e kept off r w' →
        BaseOutcome w0 e dir.inode path kept off r w' := fun r w' h => .inr ⟨h, hother⟩
    by_cases hdotdot : (getPathEntry path i).getD name = dotdot
    · rw [if_pos hdotdot, Routine.wp_bind]
      refine wp_getDir hdir' ?_
      rw [Routine.wp_bind]
      refine wp_inodeGetParent hlive ?_
      rw [Routine.wp_bind]
      refine (wp_inodeOpen hcounted _).mono fun q w1 ⟨h1, hq⟩ => ?_
      have h1' : Counted w1 (e + 0 + 0 + Pi.single q 1) := by
        rw [add_zero, add_zero]
        exact h1.counted
      refine wp_move h1' (hframe.trans h1.frame) (hdisk.trans h1.disk) hq (.inl ⟨rfl, rfl⟩)
        fun d' w' hmoved' => (wp_pathLookupFrom_moved kept off hmoved' (fun h => ⟨rfl, ?_⟩)
          fun h => ?_).mono hmoved
      · rw [hdisk.parent, hsector]
        exact ((hkept h).step hloop rfl).2.1 hdot hdotdot
      · rw [hdisk.parent, hsector]
        exact ((hoff h).step rfl).2.1 hdot hdotdot
    rw [if_neg hdotdot, Routine.wp_bind]
    refine (wp_dirLookupEntry hcounted hdir' hlive _ true).mono fun r w1 h1 => ?_
    rw [hdisk.entries, hsector] at h1
    have hstep := fun h => ((hkept h).step hloop rfl).2.2 hdot hdotdot
    obtain ⟨lost, hsmall, ⟨rfl, hnone, h1⟩ | ⟨q, s', rfl, hsome, h1, hq⟩⟩ := h1
    · rw [Routine.wp_pure]
      exact hmoved _ _ ⟨hframe.trans h1.frame, hdisk.trans h1.disk, fun _ => rfl, lost,
        fun h => hsmall (hstep h).1, .inl ⟨rfl, h1.counted⟩⟩
    · have h1' : Counted w1 (e + lost + 0 + Pi.single q 1) := by
        rw [add_zero]
        exact h1.counted
      exact wp_move h1' (hframe.trans h1.frame) (hdisk.trans h1.disk) hq (.inl ⟨rfl, rfl⟩)
        fun d' w' hmoved' => (wp_pathLookupFrom_moved kept off hmoved'
          (fun h => ⟨hsmall (hstep h).1, (hstep h).2.2 s' hsome⟩)
          fun h => ((hoff h).step rfl).2.2 hdot hdotdot s' hsome).mono hmoved

/-! ### Whole paths -/

/-- The sector of a thread's working directory, if that is not the root by default. -/
def State.cwd (w : State) (t : Nat) : Option Nat := do
  let d ← w.currDir t
  let p ← w.dirInode d
  let inode ← w.inodes p
  pure inode.sector

/-- `dir_path_lookup` loses no reference.  From the root the path may only stay there; from a working
directory it may be missing at once, and must leave it otherwise. -/
def LookupKept (w : State) (t : Nat) (path : List UInt8) : Prop :=
  path = [slash] ∨
    (path.head? = some slash ∨ w.currDir t = none) ∧ pathEntries path ≠ [] ∧
      (∀ n ∈ pathEntries path, n = dot) ∨
    path.head? ≠ some slash ∧ (∃ n ∈ pathEntries path, n ≠ dot) ∧ ∃ s, w.cwd t = some s ∧
      WalksKept w ((pathEntries path).getLast? = some (getPathLastEntry path)) true s
        (pathEntries path)

/-- The path has a component on its way that is no directory. -/
def PathOff (w : State) (t : Nat) (path : List UInt8) : Prop :=
  WalksOff w (if path.head? = some slash then rootDirSector else (w.cwd t).getD rootDirSector)
    (pathEntries path)

/-- `dir_path_lookup` returns the inode of the working directory itself, with no reference to it. -/
structure Borrowed (w0 : State) (e : Nat → Nat) (t : Nat) (path : List UInt8) (r : Option Nat)
    (w : State) : Prop where
  relative : path.head? ≠ some slash
  dots : ∀ n ∈ pathEntries path, n = dot
  counted : Counted w e
  frame : Frame w0 w
  disk : SameDisk w0 w
  cwd : ∃ d p, w0.currDir t = some d ∧ w0.dirInode d = some p ∧ r = some p

theorem wp_dirOpenRoot {E : Fault → Prop} (h : Counted w e) : wp dirOpenRoot (fun d w' => ∃ p,
    Counted w' (e + Pi.single p 1) ∧ Frame w w' ∧ SameDisk w w' ∧ d ∉ w.heldDirs ∧
      w'.dirs = Function.update w.dirs d (some ⟨p, none⟩) ∧ w.nextPtr ≤ d ∧
        ∃ inode, w'.inodes p = some inode ∧ inode.sector = rootDirSector) E w := by
  rw [dirOpenRoot, Routine.wp_bind]
  refine (wp_inodeOpen h _).mono fun p w1 ⟨h1, inode, hp, hsector⟩ => ?_
  refine (wp_dirOpenInode h1.counted p).mono fun d w2 ⟨h2, hf2, hd2, hle, hdirs, hinodes⟩ => ?_
  refine ⟨p, h2, h1.frame.trans hf2, h1.disk.trans hd2, fun hmem => ?_, ?_,
    Nat.le_trans h1.inherits.next hle, inode, ?_, hsector⟩
  · exact h1.counted.heldDir d (by rwa [h1.only.heldDirs]) (h1.counted.fresh d hle).2.1
  · rw [hdirs, h1.only.dirs]
  · rw [hinodes, hp]

/-- What a lookup from a freshly opened root does: the reference to the root stays behind unless the
lookup ends there. -/
theorem wp_lookup_root (kept off : Prop) (h : Counted w e)
    (hkept : kept → pathEntries path ≠ [] ∧ ∀ n ∈ pathEntries path, n = dot)
    (hoff : off → WalksOff w rootDirSector (pathEntries path)) :
    wp (do
      let workingDir ← dirOpenRoot
      pathLookupFrom env path target (pathEntries path).length fuel 0 name workingDir none none)
      (Outcome w e kept off) NotFreed w := by
  rw [Routine.wp_bind]
  refine (wp_dirOpenRoot h).mono
    fun d w1 ⟨p, h1, hf1, hd1, hunheld, hdirs, _, inode, hp, hsector⟩ => ?_
  have hdir : w1.dirs d = some ⟨p, none⟩ := by rw [hdirs, Function.update_self]
  have hbase : 0 < w1.owners p + (e + Pi.single p 1 : Nat → Nat) p := by
    rw [Pi.add_apply, Pi.single_eq_same]
    omega
  have hoff1 : off → WalksOff w1 inode.sector ((pathEntries path).drop 0) := fun h => by
    rw [List.drop_zero, hsector]
    exact (hoff h).congr hd1
  refine (wp_pathLookupFrom_base False off h1 hdir hbase hp h1 Frame.refl ⟨rfl, rfl⟩ rfl
    (fun n hn => by rw [List.take_zero] at hn; cases hn) (fun hpos => absurd hpos (by omega))
    nofun hoff1 rfl).mono fun r w2 h2 => ?_
  rcases h2 with ⟨rfl, h2, hf2, hd2, hdots⟩ | ⟨⟨hf2, hd2, hnone, leak, -, h2⟩, hother⟩
  · refine ⟨hf1.trans hf2, hd1.trans hd2, fun h => absurd (hoff h) (WalksOff.not_dots hdots), 0,
      fun _ => rfl, .inr ⟨p, rfl, by rwa [add_zero]⟩⟩
  · refine ⟨hf1.trans hf2, hd1.trans hd2, hnone, Pi.single p 1 + leak, fun hk => ?_, ?_⟩
    · obtain ⟨n, hn, hne⟩ := hother (hkept hk).1
      exact absurd ((hkept hk).2 n hn) hne
    · rw [← add_assoc]
      exact h2

theorem mem_heldDirs_currDir (ht : t ∈ w.threads) (hd : w.currDir t = some d) : d ∈ w.heldDirs :=
  mem_heldDirs.mpr (.inr ⟨t, ht, hd⟩)

theorem wp_dirPathLookup (h : Counted w e) (ht : t ∈ w.threads) (path : List UInt8) :
    wp (dirPathLookup env fuel t path) (fun r w' =>
      Outcome w e (LookupKept w t path) (PathOff w t path) r w' ∨ Borrowed w e t path r w') NotFreed w := by
  rw [dirPathLookup, Routine.wp_bind]
  refine wp_draw ?_
  have hc := leads_clock h (w.clock + 1)
  have hc' : SameDisk w { w with clock := w.clock + 1 } := hc.disk
  by_cases hroot : path.head? = some slash ∧ path.length = 1
  · rw [if_pos hroot, Routine.wp_map]
    refine (wp_inodeOpen hc.counted _).mono fun p w1 hopened => .inl ?_
    have h1 := hopened.1
    have hslash : path = [slash] := by
      obtain ⟨c, rfl⟩ := List.length_eq_one_iff.mp hroot.2
      rw [List.head?_cons, Option.some.injEq] at hroot
      rw [hroot.1]
    have hleads := hc.trans h1
    refine ⟨hleads.frame, hleads.disk, fun h => ?_, 0, fun _ => rfl, .inr ⟨p, rfl, ?_⟩⟩
    · rw [hslash] at h
      exact h.elim
    · rw [add_zero]
      exact h1.counted
  rw [if_neg hroot, getPathEntryCnt_eq]
  dsimp only
  have hslash : path ≠ [slash] := by
    rintro rfl
    exact hroot ⟨rfl, rfl⟩
  by_cases habs : path.head? = some slash
  · rw [if_pos habs]
    refine (wp_lookup_root (LookupKept w t path) (PathOff w t path) hc.counted (fun hkept => ?_)
      fun hoff => ?_).mono fun r w1 hfound =>
        .inl ⟨hc.frame.trans hfound.1, hc.disk.trans hfound.2.1, hfound.2.2⟩
    · rcases hkept with hkept | ⟨-, hkept⟩ | ⟨hrel, -⟩
      · exact absurd hkept hslash
      · exact hkept
      · exact absurd habs hrel
    · rw [PathOff, if_pos habs] at hoff
      exact hoff.congr hc'
  rw [if_neg habs]
  rw [Routine.wp_bind, getCurrWorkingDir, Routine.wp_bind, Routine.wp_get]
  cases hcurr : w.currDir t with
  | none =>
    have hcwd : w.cwd t = none := by
      rw [State.cwd, hcurr]
      rfl
    have hkept : LookupKept w t path → pathEntries path ≠ [] ∧ ∀ n ∈ pathEntries path, n = dot := by
      rintro (hkept | ⟨-, hkept⟩ | ⟨-, -, s, hs, -⟩)
      · exact absurd hkept hslash
      · exact hkept
      · rw [hcwd] at hs
        cases hs
    have hoff : PathOff w t path →
        WalksOff { w with clock := w.clock + 1 } rootDirSector (pathEntries path) := fun h => by
      rw [PathOff, if_neg habs, hcwd, Option.getD_none] at h
      exact h.congr hc'
    show wp dirOpenRoot _ _ _
    rw [← Routine.wp_bind]
    exact (wp_lookup_root _ _ hc.counted hkept hoff).mono fun r w1 hfound =>
      .inl ⟨hc.frame.trans hfound.1, hc.disk.trans hfound.2.1, hfound.2.2⟩
  | some d =>
    have hheld := mem_heldDirs_currDir ht hcurr
    obtain ⟨dir, base, hdir, hbase⟩ := h.live_held hheld
    have hinode : w.dirInode d = some dir.inode := by rw [State.dirInode, hdir]; rfl
    have hpos : 0 < w.owners dir.inode + e dir.inode := by
      have := Counted.owners_pos hheld hinode
      omega
    have hcwd : w.cwd t = some base.sector := by
      rw [State.cwd, hcurr]
      show (w.dirInode d >>= fun p => w.inodes p >>= fun inode => pure inode.sector) = _
      rw [hinode]
      show (w.inodes dir.inode >>= fun inode => pure inode.sector) = _
      rw [hbase]
      rfl
    show wp (pathLookupFrom env path _ _ fuel 0 _ d none none) _ _ _
    refine (wp_pathLookupFrom_base (LookupKept w t path) (PathOff w t path) h hdir hpos hbase
      hc.counted hc.frame hc.disk rfl (fun n hn => by rw [List.take_zero] at hn; cases hn)
      (fun hpos => absurd hpos (by omega)) (fun hkept => ?_) (fun hoff => ?_) rfl).mono
      fun r w1 h1 => ?_
    · rcases hkept with hkept | ⟨hfresh, -⟩ | ⟨-, ⟨n, hn, -⟩, s, hs, hwalks⟩
      · exact absurd hkept hslash
      · refine hfresh.elim (fun h => absurd h habs) fun hnone => ?_
        rw [hcurr] at hnone
        cases hnone
      · rw [hcwd] at hs
        cases hs
        refine ⟨hwalks, fun hnil => ?_⟩
        rw [List.drop_zero] at hnil
        rw [hnil] at hn
        cases hn
    · rw [PathOff, if_neg habs, hcwd, Option.getD_some] at hoff
      exact hoff
    · rcases h1 with ⟨hr, h1, hf1, hd1, hdots⟩ | ⟨h1, -⟩
      · exact .inr ⟨habs, hdots, h1, hf1, hd1, d, dir.inode, hcurr, hinode, hr⟩
      · exact .inl h1

end Handles

end Pintos
