import Pintos.Lib.StringOps
import Mathlib.Data.List.TakeWhile

/-! Scanning a string for the bytes of a set (`lib/string.c`): `strspn`, `strcspn` and `strpbrk`,
and for one byte: `strrchr`. -/

namespace Pintos

namespace InMemory

/-- The loops of `strspn`, `strcspn` and `strpbrk`: on over the bytes that are in the set, or over
those that are not. -/
def scanLoop (delimiters : List UInt8) (inside : Bool) : (fuel p : Nat) → MemoryRoutine Nat
  | 0, _ => throw .spin
  | fuel + 1, p => do
    let m ← get
    if m p ≠ 0 ∧ (strchr delimiters (m p)).isSome = inside then
      scanLoop delimiters inside fuel (p + 1)
    else pure p

/-- `strspn`. -/
def strspn (fuel string : Nat) (skip : List UInt8) : MemoryRoutine Nat := do
  let p ← scanLoop skip true fuel string
  pure (p - string)

/-- `strcspn`. -/
def strcspn (fuel string : Nat) (stop : List UInt8) : MemoryRoutine Nat := do
  let p ← scanLoop stop false fuel string
  pure (p - string)

/-- `strpbrk`, with `none` for a null pointer. -/
def strpbrk (fuel string : Nat) (stop : List UInt8) : MemoryRoutine (Option Nat) := do
  let p ← scanLoop stop false fuel string
  let m ← get
  pure (if m p ≠ 0 then some p else none)

/-- The loop of `strrchr`; `p` is the last place found. -/
def strrchrLoop (c : UInt8) : (fuel string : Nat) → (p : Option Nat) → MemoryRoutine (Option Nat)
  | 0, _, _ => throw .spin
  | fuel + 1, string, p => do
    let m ← get
    if m string ≠ 0 then strrchrLoop c fuel (string + 1) (if m string = c then some string else p)
    else pure p

/-- `strrchr`, with `none` for a null pointer. -/
def strrchr (fuel string : Nat) (c : UInt8) : MemoryRoutine (Option Nat) :=
  strrchrLoop c fuel string none

variable {m : Memory} {p fuel : Nat} {s delimiters : List UInt8} {c : UInt8}

theorem strchr_isSome (hc : c ≠ 0) :
    (strchr delimiters c).isSome = decide (c ∈ delimiters) := by
  have hfound : strchr delimiters c ≠ none ↔ c ∈ delimiters := by
    rw [strchr_ne_none, or_iff_left hc]
  rw [Bool.eq_iff_iff, decide_eq_true_iff, ← hfound, Option.isSome_iff_ne_none]

theorem scanLoop_ok {inside : Bool} (h : m.Holds p (s ++ [0])) (hnull : 0 ∉ s)
    (hfuel : s.length < fuel) : scanLoop delimiters inside fuel p m =
      .ok (p + (s.takeWhile fun c => decide (c ∈ delimiters) = inside).length, m) := by
  induction s generalizing p fuel with
  | nil =>
    obtain ⟨fuel, rfl⟩ := Nat.exists_eq_add_of_lt hfuel
    rw [scanLoop, Routine.get_bind_apply, (Memory.holds_cons.mp h).1, if_neg fun hgo => hgo.1 rfl]
    rfl
  | cons c s ih =>
    obtain ⟨hc, hrest⟩ := Memory.holds_cons.mp h
    rw [List.mem_cons, not_or] at hnull
    cases fuel with
    | zero => cases hfuel
    | succ fuel =>
      rw [scanLoop, Routine.get_bind_apply, hc, strchr_isSome (Ne.symm hnull.1)]
      by_cases hgo : decide (c ∈ delimiters) = inside
      · rw [if_pos ⟨Ne.symm hnull.1, hgo⟩, ih hrest hnull.2 (Nat.lt_of_succ_lt_succ hfuel),
          List.takeWhile_cons_of_pos (p := fun c => decide (decide (c ∈ delimiters) = inside))
            (decide_eq_true hgo), List.length_cons, Nat.add_assoc, Nat.add_comm 1]
      · rw [if_neg fun hboth => hgo hboth.2,
          List.takeWhile_cons_of_neg (by rw [decide_eq_true_iff]; exact hgo)]
        rfl

/-- What comes before the byte is passed over, and the last place found stands. -/
theorem strrchrLoop_ok {found : Option Nat} (h : m.Holds p (s ++ [0])) (hnull : 0 ∉ s)
    (hfuel : s.length < fuel) : ∃ r, strrchrLoop c fuel p found m = .ok (r, m) ∧
      (c ∉ s → r = found) ∧
      (c ∈ s → ∃ before after, s = before ++ c :: after ∧ c ∉ after ∧
        r = some (p + before.length)) := by
  induction s generalizing p fuel found with
  | nil =>
    obtain ⟨fuel, rfl⟩ := Nat.exists_eq_add_of_lt hfuel
    refine ⟨found, ?_, fun _ => rfl, fun hmem => (List.not_mem_nil hmem).elim⟩
    rw [strrchrLoop, Routine.get_bind_apply, (Memory.holds_cons.mp h).1, if_neg (by decide)]
    rfl
  | cons b s ih =>
    obtain ⟨hb, hrest⟩ := Memory.holds_cons.mp h
    rw [List.mem_cons, not_or] at hnull
    cases fuel with
    | zero => cases hfuel
    | succ fuel =>
      obtain ⟨r, hrun, hnone, hsome⟩ := @ih (p + 1) fuel (if b = c then some p else found) hrest
        hnull.2 (Nat.lt_of_succ_lt_succ hfuel)
      refine ⟨r, ?_, fun hmem => ?_, fun hmem => ?_⟩
      · rw [strrchrLoop, Routine.get_bind_apply, hb, if_pos (Ne.symm hnull.1)]
        exact hrun
      · rw [List.mem_cons, not_or] at hmem
        rw [hnone hmem.2, if_neg (Ne.symm hmem.1)]
      · by_cases hlater : c ∈ s
        · obtain ⟨before, after, hs, hafter, hr⟩ := hsome hlater
          refine ⟨b :: before, after, by rw [hs, List.cons_append], hafter, ?_⟩
          rw [hr, List.length_cons, Nat.add_assoc, Nat.add_comm 1]
        · have hbc : b = c := ((List.mem_cons.mp hmem).resolve_right hlater).symm
          refine ⟨[], s, by rw [hbc, List.nil_append], hlater, ?_⟩
          rw [hnone hlater, if_pos hbc]
          rfl

/-- `strrchr` finds the last place of a byte in a string. -/
theorem strrchr_finds_last (h : m.Holds p (s ++ [0])) (hnull : 0 ∉ s) (hfuel : s.length < fuel) :
    ∃ r, strrchr fuel p c m = .ok (r, m) ∧ (c ∉ s → r = none) ∧
      (c ∈ s → ∃ before after, s = before ++ c :: after ∧ c ∉ after ∧
        r = some (p + before.length)) :=
  strrchrLoop_ok h hnull hfuel

end InMemory

/-- `strspn` and `strcspn` measure the longest start of a string inside and outside of a set, and
`strpbrk` finds the first byte that is in it. -/
theorem scans_split_strings {m : Memory} {string fuel : Nat} {s delimiters : List UInt8}
    (h : m.Holds string (s ++ [0])) (hnull : 0 ∉ s) (hfuel : s.length < fuel) :
    InMemory.strspn fuel string delimiters m = .ok ((s.takeWhile (· ∈ delimiters)).length, m) ∧
    InMemory.strcspn fuel string delimiters m = .ok ((s.takeWhile (· ∉ delimiters)).length, m) ∧
    ((∀ c ∈ s, c ∉ delimiters) → InMemory.strpbrk fuel string delimiters m = .ok (none, m)) ∧
    ∀ before c after, s = before ++ c :: after → (∀ b ∈ before, b ∉ delimiters) →
      c ∈ delimiters →
      InMemory.strpbrk fuel string delimiters m = .ok (some (string + before.length), m) := by
  have hin := @InMemory.scanLoop_ok m string fuel s delimiters true h hnull hfuel
  have hout := @InMemory.scanLoop_ok m string fuel s delimiters false h hnull hfuel
  simp only [decide_eq_true_eq] at hin
  simp only [decide_eq_false_iff_not] at hout
  refine ⟨?_, ?_, fun hall => ?_, fun before c after hs hbefore hc => ?_⟩
  · rw [InMemory.strspn, Routine.bind_of_ok hin, Nat.add_sub_cancel_left]
    rfl
  · rw [InMemory.strcspn, Routine.bind_of_ok hout, Nat.add_sub_cancel_left]
    rfl
  · have htake : s.takeWhile (fun c => decide (c ∉ delimiters)) = s :=
      List.takeWhile_eq_self_iff.mpr fun c hc => decide_eq_true (hall c hc)
    have hend : m (string + s.length) = 0 :=
      Memory.holds_singleton.mp (Memory.holds_append.mp h).2
    rw [htake] at hout
    rw [InMemory.strpbrk, Routine.bind_of_ok hout, Routine.get_bind_apply, hend, if_neg (by decide)]
    rfl
  · have htake : s.takeWhile (fun c => decide (c ∉ delimiters)) = before := by
      rw [hs, List.takeWhile_append_of_pos fun b hb => decide_eq_true (hbefore b hb),
        List.takeWhile_cons_of_neg (by rw [decide_eq_true_iff]; exact not_not.mpr hc),
        List.append_nil]
    have hplace : m (string + before.length) = c := by
      rw [hs, List.append_assoc] at h
      exact (Memory.holds_cons.mp (Memory.holds_append.mp h).2).1
    have hne : c ≠ 0 := fun hzero => hnull (by
      rw [hs, ← hzero]
      exact List.mem_append_right before List.mem_cons_self)
    rw [htake] at hout
    rw [InMemory.strpbrk, Routine.bind_of_ok hout, Routine.get_bind_apply, hplace, if_pos hne]
    rfl

/-- In `abab`, one byte before the first `b`. -/
theorem scans_split_strings_b :
    InMemory.strcspn 5 8 [0x62] threeStrings = .ok (1, threeStrings) ∧
    InMemory.strpbrk 5 8 [0x62] threeStrings = .ok (some 9, threeStrings) := by
  obtain ⟨-, hcspn, -, hpbrk⟩ := @scans_split_strings threeStrings 8 5 _ [0x62]
    threeStrings_holds.1 (by decide) (by decide)
  have hbefore : ∀ b ∈ [(0x61 : UInt8)], b ∉ [(0x62 : UInt8)] := by
    intro b hb
    rw [List.mem_singleton.mp hb]
    decide
  exact ⟨hcspn, hpbrk [0x61] 0x62 [0x61, 0x62] rfl hbefore (by decide)⟩

end Pintos
