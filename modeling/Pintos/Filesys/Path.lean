import Pintos.Lib.String

/-! Paths (`filesys/directory.c`): the last entry of a path, its `n`-th entry and the number of its
entries.  A path is the list of its bytes before the null byte. -/

namespace Pintos

/-- A slash. -/
def slash : UInt8 := 0x2f

/-- `"."`. -/
def dot : List UInt8 := [0x2e]

/-- `".."`. -/
def dotdot : List UInt8 := [0x2e, 0x2e]

/-- `get_path_last_entry`. -/
def getPathLastEntry (pathStr : List UInt8) : List UInt8 :=
  if slash ∈ pathStr then
    if pathStr.length = 1 then pathStr else (pathStr.reverse.takeWhile (· ≠ slash)).reverse
  else pathStr

/-- The path up to its last slash, as `get_parent_directory` cuts it. -/
def cutLastEntry (pathStr : List UInt8) : List UInt8 :=
  (pathStr.reverse.dropWhile (· ≠ slash)).tail.reverse

/-- The loop of `get_path_entry`: `n` more tokens are skipped. -/
def pathEntryFrom : Nat → List UInt8 → Option (List UInt8)
  | 0, s => (strtokR [slash] s).1
  | n + 1, s =>
    match strtokR [slash] s with
    | (some _, s) => pathEntryFrom n s
    | (none, _) => none

/-- `get_path_entry`: what it copies to the buffer, if it returns true. -/
def getPathEntry (pathStr : List UInt8) (n : Nat) : Option (List UInt8) := pathEntryFrom n pathStr

/-- The loop of `get_path_entry_cnt`. -/
def pathEntryCntFrom : Nat → List UInt8 → Nat
  | 0, _ => 0
  | fuel + 1, s =>
    match strtokR [slash] s with
    | (some _, s) => pathEntryCntFrom fuel s + 1
    | (none, _) => 0

/-- `get_path_entry_cnt`. -/
def getPathEntryCnt (pathStr : List UInt8) : Nat := pathEntryCntFrom (pathStr.length + 1) pathStr

/-- The entries of a path: what stands between slashes. -/
def pathEntries (pathStr : List UInt8) : List (List UInt8) := runs slash pathStr

theorem getPathEntry_eq (pathStr : List UInt8) (n : Nat) :
    getPathEntry pathStr n = (pathEntries pathStr)[n]? := by
  unfold getPathEntry pathEntries
  induction n generalizing pathStr with
  | zero =>
    rw [pathEntryFrom]
    rcases strtokR_singleton slash pathStr with ⟨hnone, hruns⟩ | ⟨token, rest, hsome, hruns, -⟩
    · rw [hnone, hruns]
      rfl
    · rw [hsome, hruns]
      rfl
  | succ n ih =>
    rw [pathEntryFrom]
    rcases strtokR_singleton slash pathStr with ⟨hnone, hruns⟩ | ⟨token, rest, hsome, hruns, -⟩
    · rw [hnone, hruns]
      rfl
    · rw [hsome, hruns, List.getElem?_cons_succ]
      exact ih rest

theorem pathEntryCntFrom_eq {fuel : Nat} {s : List UInt8} (h : s.length < fuel) :
    pathEntryCntFrom fuel s = (runs slash s).length := by
  induction fuel generalizing s with
  | zero => omega
  | succ fuel ih =>
    rw [pathEntryCntFrom]
    rcases strtokR_singleton slash s with ⟨hnone, hruns⟩ | ⟨token, rest, hsome, hruns, hle, hpos, -⟩
    · rw [hnone, hruns]
      rfl
    · rw [hsome, hruns, List.length_cons]
      dsimp only
      rw [ih (by omega)]

theorem getPathEntryCnt_eq (pathStr : List UInt8) :
    getPathEntryCnt pathStr = (pathEntries pathStr).length :=
  pathEntryCntFrom_eq (Nat.lt_succ_self _)

variable {path : List UInt8}

/-- A path with a slash is cut at the last one. -/
theorem cut_at_last_slash (h : slash ∈ path) :
    ∃ last, path = cutLastEntry path ++ slash :: last ∧ slash ∉ last ∧
      (path ≠ [slash] → getPathLastEntry path = last) := by
  have hsplit := List.takeWhile_append_dropWhile (p := (· ≠ slash)) (l := path.reverse)
  have hnot : slash ∉ path.reverse.takeWhile (· ≠ slash) := fun hmem => by
    have hall := List.all_takeWhile (p := (· ≠ slash)) (l := path.reverse)
    rw [List.all_eq_true] at hall
    simpa using hall slash hmem
  have hne : path.reverse.dropWhile (· ≠ slash) ≠ [] := by
    intro hnil
    rw [hnil, List.append_nil] at hsplit
    rw [hsplit, List.mem_reverse] at hnot
    exact hnot h
  obtain ⟨c, rest, hrest⟩ := List.exists_cons_of_ne_nil hne
  have hc := List.head_dropWhile_not (p := (· ≠ slash)) (l := path.reverse) hne
  simp only [hrest, List.head_cons, decide_eq_false_iff_not, not_not] at hc
  refine ⟨(path.reverse.takeWhile (· ≠ slash)).reverse, ?_, by simpa using hnot, fun hroot => ?_⟩
  · have hpath := congrArg List.reverse hsplit
    rw [List.reverse_append, List.reverse_reverse, hrest, hc, List.reverse_cons,
      List.append_assoc, List.singleton_append] at hpath
    rw [cutLastEntry, hrest, List.tail_cons, hpath]
  · rw [getPathLastEntry, if_pos h, if_neg]
    intro hlen
    obtain ⟨c, rfl⟩ := List.length_eq_one_iff.mp hlen
    apply hroot
    rw [List.mem_singleton.mp h]

/-- The entries before the last slash and the one behind it. -/
theorem pathEntries_cut (h : slash ∈ path) (hroot : path ≠ [slash]) :
    pathEntries path = pathEntries (cutLastEntry path) ++
      if getPathLastEntry path = [] then [] else [getPathLastEntry path] := by
  obtain ⟨last, hpath, hnot, hlast⟩ := cut_at_last_slash h
  rw [hlast hroot]
  conv_lhs => rw [hpath]
  rw [pathEntries, runs_split]
  split_ifs with hnil
  · rw [hnil, runs_nil]
    rfl
  · rw [runs_of_notMem hnil hnot]
    rfl

/-- What follows the last slash is empty exactly if the path ends in a slash. -/
theorem getPathLastEntry_nil (hne : path ≠ []) (hroot : path ≠ [slash]) :
    getPathLastEntry path = [] ↔ path.getLast? = some slash := by
  by_cases h : slash ∈ path
  · obtain ⟨last, hpath, hnot, hlast⟩ := cut_at_last_slash h
    rw [hlast hroot]
    constructor
    · rintro rfl
      rw [hpath, List.getLast?_append_of_ne_nil _ (List.cons_ne_nil _ _)]
      rfl
    · intro hends
      rw [hpath, List.getLast?_append_of_ne_nil _ (List.cons_ne_nil _ _)] at hends
      by_contra hlastne
      rw [← List.singleton_append, List.getLast?_append_of_ne_nil _ hlastne] at hends
      exact hnot (List.mem_of_getLast? hends)
  · rw [getPathLastEntry, if_neg h]
    exact iff_of_false hne fun hends => h (List.mem_of_getLast? hends)

/-- What follows the last slash is the last entry, if there is something. -/
theorem getLast_pathEntries (hlast : getPathLastEntry path ≠ []) (hroot : path ≠ [slash]) :
    (pathEntries path).getLast? = some (getPathLastEntry path) := by
  by_cases h : slash ∈ path
  · rw [pathEntries_cut h hroot, if_neg hlast, List.getLast?_concat]
  · have hself : getPathLastEntry path = path := if_neg h
    rw [hself] at hlast ⊢
    rw [pathEntries, runs_of_notMem hlast h]
    rfl

theorem pathEntries_ne_nil {name : List UInt8} (h : name ∈ pathEntries path) : name ≠ [] := by
  simpa [pathEntries, runs] using (List.mem_filter.mp h).2

end Pintos
