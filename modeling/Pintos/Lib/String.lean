import Pintos.Library.Memory
import Mathlib.Data.List.Basic

/-! Strings (`lib/string.c`).  A string is the list of its bytes before the null byte that ends it;
in memory the null byte follows. -/

namespace Pintos

/-- A string: no byte of it is null. -/
structure CString where
  bytes : List UInt8
  noNull : 0 ∉ bytes

/-- A space. -/
def space : UInt8 := 0x20

/-- `strtok_r (s, delimiters, &save_ptr)`: the token, with `none` for a null pointer, and the string
that `save_ptr` is left at. -/
def strtokR (delimiters s : List UInt8) : Option (List UInt8) × List UInt8 :=
  match s.dropWhile (· ∈ delimiters) with
  | [] => (none, [])
  | c :: s => (some ((c :: s).takeWhile (· ∉ delimiters)),
      ((c :: s).dropWhile (· ∉ delimiters)).tail)

/-- The bytes that `strlcpy (dst, src, size)` writes to `dst`. -/
def strlcpy (src : List UInt8) (size : Nat) : List UInt8 :=
  if 0 < size then src.take (min (size - 1) src.length) ++ [0] else []

/-- The tokens of a string: what stands between spaces. -/
def tokens (s : List UInt8) : List (List UInt8) := (s.splitOn space).filter (· ≠ [])

/-- The longest runs of a string without the byte `d`. -/
def runs (d : UInt8) (s : List UInt8) : List (List UInt8) := (s.splitOn d).filter (· ≠ [])

/-- The whole string fits. -/
theorem strlcpy_length_succ (s : List UInt8) : strlcpy s (s.length + 1) = s ++ [0] := by
  simp [strlcpy]

variable {d : UInt8}

@[simp] theorem runs_nil : runs d [] = [] := rfl

@[simp] theorem tokens_nil : tokens [] = [] := rfl

theorem runs_delimiter (s : List UInt8) : runs d (d :: s) = runs d s := by
  rw [runs, List.splitOn_cons_eq_if_modifyHead, if_pos (beq_self_eq_true d)]
  rfl

theorem runs_of_notMem {t : List UInt8} (ht : t ≠ []) (hd : d ∉ t) : runs d t = [t] := by
  simp [runs, List.splitOn_eq_singleton hd, ht]

theorem runs_append {t : List UInt8} (ht : t ≠ []) (hd : d ∉ t) (s : List UInt8) :
    runs d (t ++ d :: s) = t :: runs d s := by
  simp [runs, List.splitOn_append_cons_self_of_not_mem hd, ht]

theorem runs_split (s t : List UInt8) : runs d (s ++ d :: t) = runs d s ++ runs d t := by
  simp [runs, List.splitOn_append_cons_self]

/-- Delimiters before the first run do not matter. -/
theorem runs_dropWhile (s : List UInt8) : runs d (s.dropWhile (· = d)) = runs d s := by
  induction s with
  | nil => rfl
  | cons c s ih =>
    by_cases hc : c = d
    · rw [List.dropWhile_cons_of_pos (by simpa using hc), ih, hc, runs_delimiter]
    · rw [List.dropWhile_cons_of_neg (by simpa using hc)]

/-- What `strtok_r` cuts off a string that starts with no delimiter. -/
theorem runs_cons {c : UInt8} (hc : c ≠ d) (s : List UInt8) :
    ∃ token rest, (c :: s).takeWhile (· ≠ d) = token ∧
      ((c :: s).dropWhile (· ≠ d)).tail = rest ∧ runs d (c :: s) = token :: runs d rest ∧
      token.length + rest.length ≤ s.length + 1 ∧ 0 < token.length ∧
        (rest ≠ [] → token.length + rest.length < s.length + 1) := by
  have hne : (c :: s).takeWhile (· ≠ d) ≠ [] := by
    rw [List.takeWhile_cons_of_pos (by simpa using hc)]
    nofun
  have hnot : d ∉ (c :: s).takeWhile (· ≠ d) := fun hmem => by
    have hall := List.all_takeWhile (p := (· ≠ d)) (l := c :: s)
    rw [List.all_eq_true] at hall
    simpa using hall d hmem
  have hsplit := List.takeWhile_append_dropWhile (p := (· ≠ d)) (l := c :: s)
  refine ⟨_, _, rfl, rfl, ?_⟩
  generalize (c :: s).takeWhile (· ≠ d) = token at *
  have hpos := List.length_pos_of_ne_nil hne
  have hlength := congrArg List.length hsplit
  cases hrest : (c :: s).dropWhile (· ≠ d) with
  | nil =>
    rw [hrest, List.append_nil] at hsplit hlength
    rw [List.length_cons] at hlength
    rw [← hsplit, runs_of_notMem hne hnot]
    exact ⟨rfl, Nat.le_of_eq hlength, hpos, fun h => absurd rfl h⟩
  | cons a rest =>
    have ha := List.head_dropWhile_not (p := (· ≠ d)) (l := c :: s) (by rw [hrest]; nofun)
    simp only [hrest, List.head_cons, decide_eq_false_iff_not, not_not] at ha
    subst ha
    rw [hrest] at hsplit hlength
    rw [List.length_append, List.length_cons, List.length_cons] at hlength
    rw [← hsplit, runs_append hne hnot]
    exact ⟨rfl, by rw [List.tail_cons]; omega, hpos, fun _ => by rw [List.tail_cons]; omega⟩

/-- One call of `strtok_r` with one delimiter. -/
theorem strtokR_singleton (d : UInt8) (s : List UInt8) :
    strtokR [d] s = (none, []) ∧ runs d s = [] ∨
      ∃ token rest, strtokR [d] s = (some token, rest) ∧ runs d s = token :: runs d rest ∧
        token.length + rest.length ≤ s.length ∧ 0 < token.length ∧
          (rest ≠ [] → token.length + rest.length < s.length) := by
  simp only [strtokR, List.mem_singleton]
  have hdrop := runs_dropWhile (d := d) s
  have hlength := (List.dropWhile_suffix (· = d) (l := s)).length_le
  cases hs : s.dropWhile (· = d) with
  | nil =>
    rw [hs, runs_nil] at hdrop
    exact .inl ⟨rfl, hdrop.symm⟩
  | cons c s' =>
    have hc := List.head_dropWhile_not (p := (· = d)) (l := s) (by rw [hs]; nofun)
    simp only [hs, List.head_cons, decide_eq_false_iff_not] at hc
    obtain ⟨token, rest, htoken, hrest, hruns, hle, hpos, hlt⟩ := runs_cons hc s'
    rw [hs, List.length_cons] at hlength
    refine .inr ⟨token, rest, Prod.ext (congrArg some htoken) hrest, ?_, by omega, hpos,
      fun hne => ?_⟩
    · rw [← hdrop, hs, hruns]
    · have := hlt hne
      omega

/-- One call of `strtok_r` on spaces. -/
theorem strtokR_space (s : List UInt8) :
    strtokR [space] s = (none, []) ∧ tokens s = [] ∨
      ∃ token rest, strtokR [space] s = (some token, rest) ∧ tokens s = token :: tokens rest ∧
        token.length + rest.length ≤ s.length ∧ 0 < token.length ∧
          (rest ≠ [] → token.length + rest.length < s.length) := strtokR_singleton space s

end Pintos
