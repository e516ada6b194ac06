import Pintos.Filesys.PathWalk
import Pintos.Filesys.WorkingDir

/-! When a path lookup ends, and when the two ways in which `filesys/directory.c` splits a path agree:
at the last slash, and between runs of slashes. -/

namespace Pintos

namespace Handles

open Routine (wp)
open State

variable {env : Nat → Draw} {w w' : State} {s t : Nat} {path : List UInt8} {fuel : Nat}

theorem lookupLoop_of_ok {r : Option Nat} (h : Usable w t) (hroot : path ≠ [slash])
    (hrun : dirPathLookup env fuel t path w = .ok (r, w')) :
    ∃ rs, lookupLoop env w t path fuel = .ok rs ∧ r.map w'.sectorOf = rs.map some :=
  (wp_dirPathLookup_loop h hroot).of_ok hrun

theorem dirPathLookup_of_ok {rs : Option Nat} (h : Usable w t) (hroot : path ≠ [slash])
    (hloop : lookupLoop env w t path fuel = .ok rs) :
    ∃ r w', dirPathLookup env fuel t path w = .ok (r, w') ∧ r.map w'.sectorOf = rs.map some := by
  rcases hrun : dirPathLookup env fuel t path w with f | ⟨r, w'⟩
  · have := (wp_dirPathLookup_loop h hroot).of_error hrun
    rw [hloop] at this
    nomatch this
  · obtain ⟨rs', hrs', hr⟩ := lookupLoop_of_ok h hroot hrun
    rw [hloop] at hrs'
    cases hrs'
    exact ⟨r, w', rfl, hr⟩

theorem dirPathLookup_error {f : Fault} (h : Usable w t) (hroot : path ≠ [slash]) :
    dirPathLookup env fuel t path w = .error f ↔ lookupLoop env w t path fuel = .error f := by
  constructor
  · exact (wp_dirPathLookup_loop h hroot).of_error
  · intro hloop
    rcases hrun : dirPathLookup env fuel t path w with f' | ⟨r, w'⟩
    · have hf := (wp_dirPathLookup_loop h hroot).of_error hrun
      rw [hloop] at hf
      cases hf
      rfl
    · obtain ⟨rs, hrs, -⟩ := lookupLoop_of_ok h hroot hrun
      rw [hloop] at hrs
      nomatch hrs

/-- A run of the loop that is as long as the path. -/
theorem lookupLoop_entries (hfit : ¬ LongOnWalk w (w.base t path) (pathEntries path))
    (hfuel : (pathEntries path).length ≤ fuel) :
    lookupLoop env w t path fuel = match walk w (w.base t path) (pathEntries path) with
      | none => .ok none
      | some s' => sectorLoop w path (getPathLastEntry path) (pathEntries path).length
          (fuel - (pathEntries path).length) (pathEntries path).length
          ((pathEntries path).getLastD (env w.clock).dirEntryName) s'
          (if pathEntries path = [] then none else some s') := by
  obtain ⟨extra, rfl⟩ := Nat.exists_eq_add_of_le hfuel
  rw [Nat.add_sub_cancel_left]
  exact sectorLoop_entries List.drop_zero (Nat.zero_le _) hfit extra

/-! ### The end of a lookup -/

/-- The loop of `dir_path_lookup` ends: with enough steps, the function returns. -/
def LookupEnds (env : Nat → Draw) (w : State) (t : Nat) (path : List UInt8) : Prop :=
  ∃ steps, ∀ fuel, steps ≤ fuel → ∃ r w', dirPathLookup env fuel t path w = .ok (r, w')

/-- The directories on disk form a tree: the root is its own parent, and no directory is below
itself. -/
structure DirTree (w : State) : Prop where
  root : w.parent rootDirSector = rootDirSector
  height : ∃ height : Nat → Nat, ∀ s s' name,
    entrySector name true (w.entries s) = some s' → height s' < height s

/-- All entries of the path are directories, the path is empty or ends in a slash, and the last name
that the loop has read, from the path or from the stack, is `"."` or `".."`. -/
structure Circles (env : Nat → Draw) (w : State) (t : Nat) (path : List UInt8) : Prop where
  noRoot : path ≠ [slash]
  ends : path = [] ∨ path.getLast? = some slash
  dots : (pathEntries path).getLastD (env w.clock).dirEntryName = dot ∨
    (pathEntries path).getLastD (env w.clock).dirEntryName = dotdot
  found : (walk w (w.base t path) (pathEntries path)).isSome

/-- The lookup comes to a component that does not fit in `dir_entry_name`; or there is none, and the
first contents of `dir_entry_name` have no end within it. -/
structure Overruns (env : Nat → Draw) (w : State) (t : Nat) (path : List UInt8) : Prop where
  noRoot : path ≠ [slash]
  long : LongOnWalk w (w.base t path) (pathEntries path) ∨
    pathEntries path = [] ∧ nameMax < (env w.clock).dirEntryName.length

theorem getPathLastEntry_ends (hroot : path ≠ [slash]) :
    getPathLastEntry path = [] ↔ path = [] ∨ path.getLast? = some slash := by
  by_cases hne : path = []
  · subst hne
    simp [getPathLastEntry]
  · rw [getPathLastEntry_nil hne hroot]
    simp [hne]

theorem getPathLastEntry_no_entries (hroot : path ≠ [slash]) (hnil : pathEntries path = []) :
    getPathLastEntry path = [] := by
  by_contra hne
  have := getLast_pathEntries hne hroot
  rw [hnil] at this
  nomatch this

/-- A lookup that circles never ends. -/
theorem Circles.spins (h : Usable w t) (hcircles : Circles env w t path)
    (hfit : ¬ LongOnWalk w (w.base t path) (pathEntries path))
    (hfuel : (pathEntries path).length ≤ fuel) :
    dirPathLookup env fuel t path w = .error .spin := by
  rw [dirPathLookup_error h hcircles.noRoot, lookupLoop_entries hfit hfuel]
  obtain ⟨s, hs⟩ := Option.isSome_iff_exists.mp hcircles.found
  rw [hs]
  refine sectorLoop_dots (Nat.le_refl _) (fun heq => ?_) hcircles.dots _
  rw [(getPathLastEntry_ends hcircles.noRoot).mpr hcircles.ends] at heq
  have hdots := hcircles.dots
  rw [heq] at hdots
  rcases hdots with h | h <;> nomatch h

/-- A lookup that overruns its buffer does not return. -/
theorem Overruns.faults (h : Usable w t) (hover : Overruns env w t path)
    (hfuel : (pathEntries path).length < fuel) :
    dirPathLookup env fuel t path w = .error (.undefined "dir_entry_name") := by
  rw [dirPathLookup_error h hover.noRoot]
  rcases hover.long with hlong | ⟨hnil, hlong⟩
  · obtain ⟨extra, rfl⟩ := Nat.exists_eq_add_of_lt hfuel
    exact sectorLoop_long List.drop_zero hlong (extra + 1)
  · obtain ⟨extra, rfl⟩ : ∃ extra, fuel = extra + 1 := ⟨fuel - 1, by omega⟩
    rw [lookupLoop, getPathLastEntry_no_entries hover.noRoot hnil,
      sectorLoop_again (by rw [hnil]; exact Nat.le_refl _), if_pos hlong]
    intro hempty
    rw [hempty] at hlong
    exact Nat.not_lt_zero _ hlong

/-- Any other lookup in a tree ends. -/
theorem lookupEnds_of_not (h : Usable w t) (htree : DirTree w) (hcircles : ¬ Circles env w t path)
    (hover : ¬ Overruns env w t path) : LookupEnds env w t path := by
  by_cases hroot : path = [slash]
  · subst hroot
    refine ⟨0, fun fuel _ => ?_⟩
    have hwp : wp (dirPathLookup env fuel t [slash]) (fun _ _ => True) (fun _ => False) w := by
      rw [dirPathLookup, Routine.wp_bind]
      refine wp_draw ?_
      rw [if_pos ⟨rfl, rfl⟩, Routine.wp_map]
      exact (opens_inodeOpen (h.fresh.clock _) _).mono fun _ _ _ => trivial
    rcases hrun : dirPathLookup env fuel t [slash] w with f | ⟨r, w'⟩
    · exact (hwp.of_error hrun).elim
    · exact ⟨r, w', rfl⟩
  have hfit : ¬ LongOnWalk w (w.base t path) (pathEntries path) := fun hlong =>
    hover ⟨hroot, .inl hlong⟩
  have hends : ∀ steps, (∀ fuel, steps ≤ fuel → ∃ rs, lookupLoop env w t path fuel = .ok rs) →
      LookupEnds env w t path := fun steps hloop => ⟨steps, fun fuel hfuel => by
    obtain ⟨rs, hrs⟩ := hloop fuel hfuel
    obtain ⟨r, w', hrun, -⟩ := dirPathLookup_of_ok h hroot hrs
    exact ⟨r, w', hrun⟩⟩
  obtain ⟨height, hheight⟩ := htree.height
  rcases hwalk : walk w (w.base t path) (pathEntries path) with _ | s
  · refine hends (pathEntries path).length fun fuel hfuel => ⟨none, ?_⟩
    rw [lookupLoop_entries hfit hfuel, hwalk]
  refine hends ((pathEntries path).length + height s + 1) fun fuel hfuel => ?_
  obtain ⟨fuel', hfuel'⟩ : ∃ fuel', fuel - (pathEntries path).length = fuel' + 1 :=
    ⟨fuel - (pathEntries path).length - 1, by omega⟩
  rw [lookupLoop_entries hfit (by omega), hwalk]
  dsimp only
  by_cases hlast : (pathEntries path).getLastD (env w.clock).dirEntryName = getPathLastEntry path
  · rw [hfuel', sectorLoop, if_neg (fun hor => hor.elim (· hlast) (Nat.lt_irrefl _))]
    exact ⟨_, rfl⟩
  -- the last name is read again, so the path ends in a slash
  have hslash : path = [] ∨ path.getLast? = some slash := by
    rw [← getPathLastEntry_ends hroot]
    by_contra hne
    apply hlast
    rw [List.getLastD_eq_getLast?, getLast_pathEntries hne hroot, Option.getD_some]
  have hdots : ∀ n, n = dot ∨ n = dotdot →
      (pathEntries path).getLastD (env w.clock).dirEntryName ≠ n := by
    rintro n hn rfl
    exact hcircles ⟨hroot, hslash, hn, by rw [hwalk]; rfl⟩
  refine ⟨none, sectorLoop_descends hheight (Nat.le_refl _) hlast (hdots _ (.inl rfl))
    (hdots _ (.inr rfl)) ?_ (by omega)⟩
  by_contra hlen
  by_cases hnil : pathEntries path = []
  · rw [hnil] at hlen
    exact hover ⟨hroot, .inr ⟨hnil, Nat.lt_of_not_le hlen⟩⟩
  · rw [List.getLastD_eq_getLast?, List.getLast?_eq_some_getLast hnil, Option.getD_some] at hlen
    exact hfit (longOnWalk_of_mem (List.getLast_mem hnil) (by omega) (by rw [hwalk]; rfl))

/-! ### The directory that a lookup finds -/

/-- With enough steps, `dir_path_lookup` returns the directory `r`, or a null pointer for none. -/
def Finds (env : Nat → Draw) (w : State) (t : Nat) (path : List UInt8) (r : Option Nat) : Prop :=
  ∃ steps, ∀ fuel, steps ≤ fuel → ∃ p w', dirPathLookup env fuel t path w = .ok (p, w') ∧
    p.map w'.sectorOf = r.map some

/-- With enough steps, `get_parent_directory` returns the directory `r`, or a null pointer for
none. -/
def ParentFinds (env : Nat → Draw) (w : State) (t : Nat) (path : List UInt8)
    (r : Option Nat) : Prop :=
  ∃ steps, ∀ fuel, steps ≤ fuel → ∃ d w', getParentDirectory env fuel t path w = .ok (d, w') ∧
    d.map w'.dirSector = r.map some

/-- A path with entries leads where a walk along them leads, unless it ends in a slash: then it leads
nowhere. -/
theorem finds_iff (h : Usable w t) (hne : pathEntries path ≠ [])
    (hshort : ∀ n ∈ pathEntries path, n.length ≤ nameMax) :
    Finds env w t path (walk w (w.base t path) (pathEntries path)) ↔
      path.getLast? ≠ some slash ∨ walk w (w.base t path) (pathEntries path) = none := by
  have hroot : path ≠ [slash] := by
    rintro rfl
    exact hne (by decide +kernel)
  have hnil : path ≠ [] := by
    rintro rfl
    exact hne rfl
  have hfit : ¬ LongOnWalk w (w.base t path) (pathEntries path) := by
    rintro ⟨front, n, hpre, -, hlong⟩
    have := hshort n (hpre.subset (List.mem_append_right _ (List.mem_singleton_self n)))
    omega
  rcases hwalk : walk w (w.base t path) (pathEntries path) with _ | s
  · refine iff_of_true ⟨(pathEntries path).length, fun fuel hfuel =>
      dirPathLookup_of_ok h hroot ?_⟩ (.inr rfl)
    rw [lookupLoop_entries hfit hfuel, hwalk]
  rw [or_iff_left (Option.some_ne_none s)]
  constructor
  · rintro ⟨steps, hfinds⟩ hends
    obtain ⟨p, w', hrun, hp⟩ := hfinds (max steps (pathEntries path).length) (Nat.le_max_left _ _)
    obtain ⟨rs, hrs, hr⟩ := lookupLoop_of_ok h hroot hrun
    rw [hp] at hr
    rw [lookupLoop_entries hfit (Nat.le_max_right _ _), hwalk] at hrs
    have hsome : rs = some s := by simpa [Option.map_eq_some_iff, eq_comm] using hr
    subst hsome
    refine sectorLoop_ne_ok (Nat.le_refl _) (fun heq => ?_) _ _ hrs
    rw [(getPathLastEntry_ends hroot).mpr (.inr hends), List.getLastD_eq_getLast?,
      List.getLast?_eq_some_getLast hne, Option.getD_some] at heq
    exact pathEntries_ne_nil (List.getLast_mem hne) heq
  · intro hends
    refine ⟨(pathEntries path).length + 1, fun fuel hfuel => dirPathLookup_of_ok h hroot ?_⟩
    have hlast : (pathEntries path).getLastD (env w.clock).dirEntryName = getPathLastEntry path := by
      rw [List.getLastD_eq_getLast?, getLast_pathEntries _ hroot, Option.getD_some]
      rwa [Ne, getPathLastEntry_nil hnil hroot]
    obtain ⟨fuel', hfuel'⟩ : ∃ fuel', fuel - (pathEntries path).length = fuel' + 1 :=
      ⟨fuel - (pathEntries path).length - 1, by omega⟩
    rw [lookupLoop_entries hfit (by omega), hwalk]
    dsimp only
    rw [hfuel', sectorLoop, if_neg (fun hor => hor.elim (· hlast) (Nat.lt_irrefl _)), if_neg hne]

/-- `dir_open` of what a lookup returns. -/
theorem dirOpen_run (r : Option Nat) (w : State) : ∃ d w', dirOpen r w = .ok (d, w') ∧
    d.map w'.dirSector = r.map w.sectorOf := by
  rcases r with _ | p
  · exact ⟨none, w, rfl, rfl⟩
  · refine ⟨some w.nextPtr, _, rfl, ?_⟩
    have hself : Function.update w.dirs w.nextPtr (some (⟨p, none⟩ : Dir)) w.nextPtr =
        some ⟨p, none⟩ := Function.update_self ..
    show some (((Function.update w.dirs w.nextPtr (some (⟨p, none⟩ : Dir)) w.nextPtr).map
      Dir.inode).bind w.sectorOf) = some (w.sectorOf p)
    rw [hself]
    rfl

theorem base_cut (hcut : slash ∈ path) (hne : cutLastEntry path ≠ []) :
    w.base t (cutLastEntry path) = w.base t path := by
  obtain ⟨last, hpath, -⟩ := cut_at_last_slash hcut
  have hhead : path.head? = (cutLastEntry path).head? := by
    conv_lhs => rw [hpath]
    exact List.head?_append_of_ne_nil _ hne
  rw [State.base, State.base, hhead]

/-- A path with slashes and one entry, which is its last one, is absolute. -/
theorem head_of_single (hcut : slash ∈ path) (hnil : pathEntries (cutLastEntry path) = []) :
    path.head? = some slash := by
  obtain ⟨last, hpath, -⟩ := cut_at_last_slash hcut
  rcases hfront : cutLastEntry path with _ | ⟨c, front⟩
  · rw [hpath, hfront]
    rfl
  · rw [hfront] at hnil
    by_cases hc : c = slash
    · rw [hpath, hfront, hc]
      rfl
    · obtain ⟨token, rest, -, -, hruns, -⟩ := runs_cons hc front
      rw [pathEntries, hruns] at hnil
      cases hnil

/-- `get_parent_directory` opens the directory that the entries before the last one lead to, unless
the path is too long for its buffer or a second slash stays behind after the cut. -/
theorem parentFinds_iff (h : Usable w t) (hne : pathEntries path ≠ [])
    (hshort : ∀ n ∈ pathEntries path, n.length ≤ nameMax) (hends : path.getLast? ≠ some slash) :
    ParentFinds env w t path (walk w (w.base t path) (pathEntries path).dropLast) ↔
      (2 ≤ (pathEntries path).length → path.length ≤ dirPathMax ∧
        ((cutLastEntry path).getLast? ≠ some slash ∨
          walk w (w.base t path) (pathEntries path).dropLast = none)) := by
  have hroot : path ≠ [slash] := by
    rintro rfl
    exact hends rfl
  have hnil : path ≠ [] := by
    rintro rfl
    exact hne rfl
  have hlast : getPathLastEntry path ≠ [] := by
    rwa [Ne, getPathLastEntry_nil hnil hroot]
  by_cases hcut : slash ∈ path
  swap
  · have hentries : pathEntries path = [path] := runs_of_notMem hnil hcut
    have hrel : path.head? ≠ some slash := fun hhead => hcut (List.mem_of_mem_head? hhead)
    rw [hentries]
    refine iff_of_true ⟨0, fun fuel _ => ?_⟩ (by simp)
    have hwp : wp (getParentDirectory env fuel t path)
        (fun d w' => d.map w'.dirSector = some (some (w.base t path))) (fun _ => False) w := by
      rw [getParentDirectory, if_pos hcut, Routine.wp_map, State.base, if_neg hrel]
      refine (at_getCurrWorkingDir h (⟨rfl, rfl⟩ : SameDisk w w)).mono ?_
      rintro d w1 ⟨_, _, hd⟩
      rw [Option.map_some, hd]
    rcases hrun : getParentDirectory env fuel t path w with f | ⟨d, w'⟩
    · exact (hwp.of_error hrun).elim
    · exact ⟨d, w', rfl, hwp.of_ok hrun⟩
  have hentries := pathEntries_cut hcut hroot
  rw [if_neg hlast] at hentries
  rw [hentries, List.dropLast_concat, List.length_append, List.length_singleton]
  have hsecond : getPathEntry path 1 = none ↔ pathEntries (cutLastEntry path) = [] := by
    rw [getPathEntry_eq, List.getElem?_eq_none_iff, hentries, List.length_append,
      List.length_singleton, ← List.length_eq_zero_iff]
    omega
  by_cases hsingle : pathEntries (cutLastEntry path) = []
  · rw [hsingle]
    refine iff_of_true ⟨0, fun fuel _ => ?_⟩ (by simp)
    have hwp : wp (getParentDirectory env fuel t path)
        (fun d w' => d.map w'.dirSector = some (some (w.base t path))) (fun _ => False) w := by
      rw [getParentDirectory, if_neg (not_not_intro hcut), if_pos (hsecond.mpr hsingle),
        Routine.wp_map, State.base, if_pos (head_of_single hcut hsingle)]
      refine (at_dirOpenRoot h.fresh (⟨rfl, rfl⟩ : SameDisk w w)).mono ?_
      rintro d w1 ⟨_, _, hd⟩
      rw [Option.map_some, hd]
    rcases hrun : getParentDirectory env fuel t path w with f | ⟨d, w'⟩
    · exact (hwp.of_error hrun).elim
    · exact ⟨d, w', rfl, hwp.of_ok hrun⟩
  have hfront : cutLastEntry path ≠ [] := by
    intro hnil
    rw [hnil] at hsingle
    exact hsingle rfl
  have hpos := List.length_pos_of_ne_nil hsingle
  rw [imp_iff_right (by omega)]
  have hshort' : ∀ n ∈ pathEntries (cutLastEntry path), n.length ≤ nameMax := fun n hn =>
    hshort n (by rw [hentries]; exact List.mem_append_left _ hn)
  have hfinds : Finds env w t (cutLastEntry path) _ ↔ _ := finds_iff h hsingle hshort'
  rw [base_cut hcut hfront] at hfinds
  by_cases hlong : dirPathMax < path.length
  · refine iff_of_false ?_ fun hand => by omega
    rintro ⟨steps, hparent⟩
    obtain ⟨d, w', hrun, -⟩ := hparent steps (Nat.le_refl _)
    rw [getParentDirectory, if_neg (not_not_intro hcut), if_neg (by rwa [hsecond]),
      if_pos hlong] at hrun
    cases hrun
  rw [and_iff_right (by omega), ← hfinds]
  have hparent : ∀ fuel, getParentDirectory env fuel t path =
      dirPathLookup env fuel t (cutLastEntry path) >>= dirOpen := fun fuel => by
    rw [getParentDirectory, if_neg (not_not_intro hcut), if_neg (by rwa [hsecond]), if_neg hlong]
  refine exists_congr fun steps => forall_congr' fun fuel => imp_congr_right fun _ => ?_
  rw [hparent]
  constructor
  · rintro ⟨d, w', hrun, hd⟩
    obtain ⟨r, w1, hlookup, hopen⟩ := Routine.bind_ok.mp hrun
    obtain ⟨d', w2, hopen', hd'⟩ := dirOpen_run r w1
    rw [hopen] at hopen'
    cases hopen'
    exact ⟨r, w1, hlookup, hd'.symm.trans hd⟩
  · rintro ⟨r, w1, hlookup, hr⟩
    obtain ⟨d, w2, hopen, hd⟩ := dirOpen_run r w1
    exact ⟨d, w2, Routine.bind_ok.mpr ⟨r, w1, hlookup, hopen⟩, hd.trans hr⟩

/-- The three functions that split a path take it for the same: `get_parent_directory` opens the
directory that all components but the last lead to, `get_path_last_entry` is the last component, and
`dir_path_lookup` finds the directory that all components lead to. -/
structure SplitsAgree (env : Nat → Draw) (w : State) (t : Nat) (path : List UInt8) : Prop where
  parent : ParentFinds env w t path (walk w (w.base t path) (pathEntries path).dropLast)
  last : (pathEntries path).getLast? = some (getPathLastEntry path)
  lookup : Finds env w t path (walk w (w.base t path) (pathEntries path))

end Handles

/-- `dir_path_lookup` returns for exactly the paths on which its loop neither circles nor overruns
its buffer. -/
theorem dir_path_lookup_ends (env : Nat → Handles.Draw) (w : Handles.State) (t : Nat)
    (h : Handles.Usable w t) (htree : Handles.DirTree w) (path : List UInt8) :
    Handles.LookupEnds env w t path ↔
      ¬ Handles.Circles env w t path ∧ ¬ Handles.Overruns env w t path := by
  constructor
  · rintro ⟨steps, hends⟩
    have hover : ¬ Handles.Overruns env w t path := fun hover => by
      obtain ⟨r, w', hrun⟩ := hends _ (Nat.le_max_left steps ((pathEntries path).length + 1))
      rw [hover.faults h (Nat.le_max_right _ _)] at hrun
      nomatch hrun
    refine ⟨fun hcircles => ?_, hover⟩
    obtain ⟨r, w', hrun⟩ := hends _ (Nat.le_max_left steps (pathEntries path).length)
    rw [hcircles.spins h (fun hlong => hover ⟨hcircles.noRoot, .inl hlong⟩)
      (Nat.le_max_right _ _)] at hrun
    nomatch hrun
  · exact fun hnot => Handles.lookupEnds_of_not h htree hnot.1 hnot.2

theorem inRoot_usable : Handles.Usable inRoot 0 :=
  (Handles.counted_init 1 oneDirectory _ _ _).usable (Finset.mem_range.mpr Nat.one_pos)

theorem inRoot_tree : Handles.DirTree inRoot := by
  refine ⟨rfl, fun s => if s = Handles.rootDirSector then 1 else 0, fun s s' name h => ?_⟩
  have hentries : inRoot.entries s =
      if s = Handles.rootDirSector then [some ⟨[0x61], 5, true⟩] else [] := rfl
  rw [hentries] at h
  by_cases hs : s = Handles.rootDirSector
  · rw [if_pos hs] at h
    have hs' : s' = 5 := by
      simp only [Handles.entrySector, Handles.findEntry] at h
      by_cases hname : [0x61] = name
      · simpa [hname, eq_comm] using h
      · simp [hname] at h
    subst hs' hs
    decide
  · rw [if_neg hs] at h
    nomatch h

/-- The lookup of `a//` ends, since `a` holds no directory `a`. -/
theorem dir_path_lookup_ends_inRoot :
    Handles.LookupEnds nothingDrawn inRoot 0 [0x61, 0x2f, 0x2f] := by
  refine (dir_path_lookup_ends nothingDrawn inRoot 0 inRoot_usable inRoot_tree _).mpr
    ⟨fun hcircles => ?_, fun hover => ?_⟩
  · have := hcircles.dots
    revert this
    decide +kernel
  · rcases hover.long with ⟨front, n, hpre, -, hlong⟩ | ⟨hnil, -⟩
    · have hentries : pathEntries [0x61, 0x2f, 0x2f] = [[0x61]] := by decide +kernel
      rw [hentries] at hpre
      have hn := hpre.subset (List.mem_append_right _ (List.mem_singleton_self n))
      rw [List.mem_singleton.mp hn] at hlong
      exact absurd hlong (by decide)
    · revert hnil
      decide +kernel

/-- The lookup of `./` in the root never ends. -/
theorem dir_path_lookup_circles : Handles.Usable inRoot 0 ∧ Handles.DirTree inRoot ∧
    ¬ Handles.LookupEnds nothingDrawn inRoot 0 [0x2e, 0x2f] := by
  refine ⟨inRoot_usable, inRoot_tree, fun ⟨steps, hends⟩ => ?_⟩
  have hcircles : Handles.Circles nothingDrawn inRoot 0 [0x2e, 0x2f] :=
    ⟨by decide, .inr rfl, .inl (by decide +kernel), by decide +kernel⟩
  have hfit : ¬ Handles.LongOnWalk inRoot (inRoot.base 0 [0x2e, 0x2f])
      (pathEntries [0x2e, 0x2f]) := by
    have hentries : pathEntries [0x2e, 0x2f] = [[0x2e]] := by decide +kernel
    rw [hentries]
    rintro ⟨front, n, hpre, -, hlong⟩
    have hn := hpre.subset (List.mem_append_right _ (List.mem_singleton_self n))
    rw [List.mem_singleton.mp hn] at hlong
    exact absurd hlong (by decide)
  obtain ⟨r, w', hrun⟩ := hends _ (Nat.le_max_left _ _)
  rw [hcircles.spins inRoot_usable hfit (Nat.le_max_right _ _)] at hrun
  nomatch hrun

/-- The ways of splitting a path agree for exactly the paths that end in no slash and, if they have
two entries or more, fit the buffer of `get_parent_directory` and have a single slash before the last
entry, unless the entries before that lead nowhere anyway. -/
theorem path_splits_agree (env : Nat → Handles.Draw) (w : Handles.State) (t : Nat)
    (h : Handles.Usable w t) (path : List UInt8) (hne : pathEntries path ≠ [])
    (hshort : ∀ n ∈ pathEntries path, n.length ≤ nameMax) :
    Handles.SplitsAgree env w t path ↔ path.getLast? ≠ some slash ∧
      (2 ≤ (pathEntries path).length → path.length ≤ dirPathMax ∧
        ((cutLastEntry path).getLast? ≠ some slash ∨
          Handles.walk w (w.base t path) (pathEntries path).dropLast = none)) := by
  have hroot : path ≠ [slash] := by
    rintro rfl
    exact hne (by decide +kernel)
  have hnil : path ≠ [] := by
    rintro rfl
    exact hne rfl
  have hlast : (pathEntries path).getLast? = some (getPathLastEntry path) ↔
      path.getLast? ≠ some slash := by
    rw [Ne, ← getPathLastEntry_nil hnil hroot]
    constructor
    · intro hsome hempty
      rw [hempty] at hsome
      exact pathEntries_ne_nil (List.mem_of_getLast? hsome) rfl
    · exact fun hlast => getLast_pathEntries hlast hroot
  constructor
  · intro hagree
    have hends := hlast.mp hagree.last
    exact ⟨hends, (Handles.parentFinds_iff h hne hshort hends).mp hagree.parent⟩
  · rintro ⟨hends, hparent⟩
    exact ⟨(Handles.parentFinds_iff h hne hshort hends).mpr hparent, hlast.mpr hends,
      (Handles.finds_iff h hne hshort).mpr (.inl hends)⟩

/-- The path `/a/b` is split alike. -/
theorem path_splits_agree_inRoot :
    Handles.SplitsAgree nothingDrawn inRoot 0 [0x2f, 0x61, 0x2f, 0x62] :=
  (path_splits_agree nothingDrawn inRoot 0 inRoot_usable _ (by decide +kernel)
    (by decide +kernel)).mpr ⟨by decide, fun _ => ⟨by decide, .inl (by decide)⟩⟩

/-- The parent of `a//b` is not found, although `a` is a directory, and `a/` has no last component
after its last slash. -/
theorem path_splits_differ :
    ¬ Handles.SplitsAgree nothingDrawn inRoot 0 [0x61, 0x2f, 0x2f, 0x62] ∧
      ¬ Handles.SplitsAgree nothingDrawn inRoot 0 [0x61, 0x2f] := by
  constructor
  · intro hagree
    have hparent := (Handles.parentFinds_iff inRoot_usable (by decide +kernel) (by decide +kernel)
      (by decide)).mp hagree.parent (by decide +kernel)
    revert hparent
    decide +kernel
  · intro hagree
    have hlast := hagree.last
    revert hlast
    decide +kernel

end Pintos
