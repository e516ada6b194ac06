import Pintos.Devices.Block
import Pintos.Lib.String
import Pintos.Library.Weakest

/-! Strings in memory (`lib/string.c`): `strlen`, `strlcpy` and `strtok_r`, which cuts a string into
tokens by writing null bytes into it.  The loops get fuel; a loop that has used it up spins. -/

namespace Pintos

/-- The longest runs of a string without any of the delimiters. -/
def runsOf (delimiters s : List UInt8) : List (List UInt8) :=
  (s.splitOnP (· ∈ delimiters)).filter (· ≠ [])

theorem runs_eq_runsOf (d : UInt8) (s : List UInt8) : runs d s = runsOf [d] s := by
  rw [runs, runsOf, List.splitOn_eq_splitOnP]
  congr 2
  funext c
  simp only [List.mem_singleton, beq_eq_decide]

section

variable {delimiters s t r ds : List UInt8} {c d : UInt8}

theorem runsOf_nil : runsOf delimiters [] = [] := rfl

/-- Delimiters before the first run do not matter. -/
theorem runsOf_skip (hds : ∀ c ∈ ds, c ∈ delimiters) :
    runsOf delimiters (ds ++ s) = runsOf delimiters s := by
  induction ds with
  | nil => rfl
  | cons c ds ih =>
    obtain ⟨hc, hds⟩ := List.forall_mem_cons.mp hds
    rw [← ih hds, runsOf, List.cons_append, List.splitOnP_cons_eq_if_modifyHead,
      if_pos (decide_eq_true hc)]
    rfl

theorem runsOf_last (ht : t ≠ []) (hnot : ∀ c ∈ t, c ∉ delimiters) :
    runsOf delimiters t = [t] := by
  rw [runsOf, List.splitOnP_eq_singleton fun c hc => decide_eq_false (hnot c hc)]
  simp [ht]

theorem runsOf_append (ht : t ≠ []) (hnot : ∀ c ∈ t, c ∉ delimiters) (hd : d ∈ delimiters) :
    runsOf delimiters (t ++ d :: s) = t :: runsOf delimiters s := by
  rw [runsOf, List.splitOnP_append_cons_of_forall_mem (fun c hc => decide_eq_false (hnot c hc)) d
    (decide_eq_true hd)]
  simp [ht, runsOf]

/-- A string has no run, or delimiters stand before its first run and one after it, unless the
string ends there. -/
theorem runsOf_cases (delimiters s : List UInt8) :
    (∀ c ∈ s, c ∈ delimiters) ∧ runsOf delimiters s = [] ∨
      ∃ ds t r, s = ds ++ (t ++ r) ∧ (∀ c ∈ ds, c ∈ delimiters) ∧ t ≠ [] ∧
        (∀ c ∈ t, c ∉ delimiters) ∧ (∀ c ∈ r.head?, c ∈ delimiters) ∧
        runsOf delimiters s = t :: runsOf delimiters r.tail := by
  have hsplit := List.takeWhile_append_dropWhile (p := (· ∈ delimiters)) (l := s)
  have hds : ∀ c ∈ s.takeWhile (· ∈ delimiters), c ∈ delimiters := fun c hc =>
    of_decide_eq_true (List.all_eq_true.mp List.all_takeWhile c hc)
  cases hrest : s.dropWhile (· ∈ delimiters) with
  | nil =>
    rw [hrest, List.append_nil] at hsplit
    rw [hsplit] at hds
    refine .inl ⟨hds, ?_⟩
    rw [← List.append_nil s, runsOf_skip hds, runsOf_nil]
  | cons c rest =>
    have hc := List.head_dropWhile_not (p := (· ∈ delimiters)) (l := s) (by rw [hrest]; nofun)
    simp only [hrest, List.head_cons, decide_eq_false_iff_not] at hc
    have hsplit' := List.takeWhile_append_dropWhile (p := (· ∉ delimiters)) (l := c :: rest)
    have hnot : ∀ c' ∈ (c :: rest).takeWhile (· ∉ delimiters), c' ∉ delimiters := fun c' hc' =>
      of_decide_eq_true (List.all_eq_true.mp List.all_takeWhile c' hc')
    have hne : (c :: rest).takeWhile (· ∉ delimiters) ≠ [] := by
      rw [List.takeWhile_cons_of_pos (by simpa using hc)]
      nofun
    refine .inr ⟨s.takeWhile (· ∈ delimiters), (c :: rest).takeWhile (· ∉ delimiters),
      (c :: rest).dropWhile (· ∉ delimiters), ?_, hds, hne, hnot, ?_, ?_⟩
    · rw [hsplit', ← hrest, hsplit]
    · intro d hd
      have hhead := List.head?_dropWhile_not (p := (· ∉ delimiters)) (c :: rest)
      rw [hd] at hhead
      simpa using hhead
    · rw [← hsplit, runsOf_skip hds, hrest]
      cases hr : (c :: rest).dropWhile (· ∉ delimiters) with
      | nil =>
        rw [hr, List.append_nil] at hsplit'
        rw [hsplit'] at hne hnot ⊢
        exact runsOf_last hne hnot
      | cons d r =>
        have hd := List.head_dropWhile_not (p := (· ∉ delimiters)) (l := c :: rest)
          (by rw [hr]; nofun)
        simp only [hr, List.head_cons, decide_eq_false_iff_not, not_not] at hd
        rw [hr] at hsplit'
        conv_lhs => rw [← hsplit']
        exact runsOf_append hne hnot hd

end

namespace InMemory

abbrev MemoryRoutine := Routine Fault Memory

def assertThat (condition : String) (c : Bool) : MemoryRoutine Unit :=
  if c then pure () else throw (.assertion condition)

/-- `*p = c`. -/
def storeByte (p : Nat) (c : UInt8) : MemoryRoutine Unit := modify (·.store p [c])

/-- `strchr (string, c)`: where `c` is in the string or the null byte at its end. -/
def strchr : (string : List UInt8) → (c : UInt8) → Option Nat
  | [], c => if 0 = c then some 0 else none
  | b :: string, c => if b = c then some 0 else (· + 1) <$> strchr string c

/-- The loop of `strlen`. -/
def strlenLoop : (fuel p : Nat) → MemoryRoutine Nat
  | 0, _ => throw .spin
  | fuel + 1, p => do
    let m ← get
    if m p ≠ 0 then strlenLoop fuel (p + 1) else pure p

/-- `strlen`. -/
def strlen (fuel string : Nat) : MemoryRoutine Nat := do
  assertThat "string != NULL" (string ≠ 0)
  let p ← strlenLoop fuel string
  pure (p - string)

/-- The loop of `memcpy`. -/
def memcpyLoop : (size dst src : Nat) → MemoryRoutine Unit
  | 0, _, _ => pure ()
  | size + 1, dst, src => do
    let m ← get
    storeByte dst (m src)
    memcpyLoop size (dst + 1) (src + 1)

/-- `memcpy`. -/
def memcpy (dst src size : Nat) : MemoryRoutine Unit := do
  assertThat "dst != NULL || size == 0" (dst ≠ 0 || size = 0)
  assertThat "src != NULL || size == 0" (src ≠ 0 || size = 0)
  memcpyLoop size dst src

/-- `strlcpy`. -/
def strlcpy (fuel dst src size : Nat) : MemoryRoutine Nat := do
  assertThat "dst != NULL" (dst ≠ 0)
  assertThat "src != NULL" (src ≠ 0)
  let srcLen ← strlen fuel src
  if 0 < size then do
    let dstLen := if srcLen < size - 1 then srcLen else size - 1
    memcpy dst src dstLen
    storeByte (dst + dstLen) 0
  pure srcLen

/-- The first loop of `strtok_r`, and whether it has come to the null byte. -/
def skipDelimiters (delimiters : List UInt8) : (fuel s : Nat) → MemoryRoutine (Nat × Bool)
  | 0, _ => throw .spin
  | fuel + 1, s => do
    let m ← get
    if strchr delimiters (m s) ≠ none then
      if m s = 0 then pure (s, true) else skipDelimiters delimiters fuel (s + 1)
    else pure (s, false)

/-- The second loop of `strtok_r`. -/
def skipToken (delimiters : List UInt8) : (fuel s : Nat) → MemoryRoutine Nat
  | 0, _ => throw .spin
  | fuel + 1, s => do
    let m ← get
    if strchr delimiters (m s) = none then skipToken delimiters fuel (s + 1) else pure s

/-- `strtok_r (s, delimiters, &save_ptr)`, with `none` for null pointers: the token and what
`save_ptr` is then. -/
def strtokR (fuel : Nat) (s : Option Nat) (delimiters : List UInt8) (savePtr : Option Nat) :
    MemoryRoutine (Option Nat × Option Nat) := do
  match s.or savePtr with
  | none => throw (.assertion "s != NULL")
  | some s =>
    let (s, atEnd) ← skipDelimiters delimiters fuel s
    if atEnd then pure (none, some s)
    else do
      let token := s
      let s ← skipToken delimiters fuel s
      let m ← get
      if m s ≠ 0 then do
        storeByte s 0
        pure (some token, some (s + 1))
      else pure (some token, some s)

/-- A call of `strtok_r` with the string `s` and then `n` calls with a null pointer. -/
def strtokCalls (fuel s : Nat) (delimiters : List UInt8) :
    (n : Nat) → MemoryRoutine (Option Nat × Option Nat)
  | 0 => strtokR fuel (some s) delimiters none
  | n + 1 => do
    let (_, savePtr) ← strtokCalls fuel s delimiters n
    strtokR fuel none delimiters savePtr

/-! ### Copying strings -/

variable {m m' : Memory} {p q fuel lo hi dst src : Nat} {s t bytes delimiters : List UInt8}
  {c : UInt8}

theorem assertThat_ok {condition : String} {b : Bool} (h : b = true) :
    assertThat condition b m = .ok ((), m) := by
  rw [assertThat, if_pos h]
  rfl

theorem strlenLoop_ok (h : m.Holds p (s ++ [0])) (hnull : 0 ∉ s) (hfuel : s.length < fuel) :
    strlenLoop fuel p m = .ok (p + s.length, m) := by
  induction s generalizing p fuel with
  | nil =>
    cases fuel with
    | zero => nomatch hfuel
    | succ fuel =>
      rw [strlenLoop, Routine.get_bind_apply, (Memory.holds_cons.mp h).1, if_neg (by decide)]
      rfl
  | cons b s ih =>
    cases fuel with
    | zero => nomatch hfuel
    | succ fuel =>
      obtain ⟨hb, h⟩ := Memory.holds_cons.mp h
      rw [List.mem_cons, not_or] at hnull
      rw [strlenLoop, Routine.get_bind_apply, hb, if_pos (Ne.symm hnull.1),
        ih h hnull.2 (by simpa using hfuel), List.length_cons, Nat.add_assoc, Nat.add_comm 1]

theorem strlen_ok (h : m.Holds p (s ++ [0])) (hnull : 0 ∉ s) (hp : p ≠ 0)
    (hfuel : s.length < fuel) : strlen fuel p m = .ok (s.length, m) := by
  rw [strlen, Routine.bind_of_ok (assertThat_ok (by simpa using hp)),
    Routine.bind_of_ok (strlenLoop_ok h hnull hfuel), Nat.add_sub_cancel_left]
  rfl

/-- `memcpy` of bytes that do not overlap with where they are copied. -/
theorem memcpyLoop_ok (h : m.Holds src s)
    (hapart : dst + s.length ≤ src ∨ src + s.length ≤ dst) :
    memcpyLoop s.length dst src m = .ok ((), m.store dst s) := by
  induction s generalizing m dst src with
  | nil =>
    rw [Memory.store_nil]
    rfl
  | cons c s ih =>
    obtain ⟨hc, h⟩ := Memory.holds_cons.mp h
    simp only [List.length_cons] at hapart
    have hrest : (m.store dst [c]).Holds (src + 1) s := h.store (by
      simp only [List.length_cons, List.length_nil]
      omega)
    rw [List.length_cons, memcpyLoop, Routine.get_bind_apply, hc, storeByte,
      Routine.modify_bind_apply, ih hrest (by omega), Memory.store_cons]

/-- `strlcpy` of a string that fits. -/
theorem strlcpy_ok (h : m.Holds src (s ++ [0])) (hnull : 0 ∉ s) (hsrc : src ≠ 0) (hdst : dst ≠ 0)
    (hfuel : s.length < fuel)
    (hapart : dst + (s.length + 1) ≤ src ∨ src + (s.length + 1) ≤ dst) :
    strlcpy fuel dst src (s.length + 1) m = .ok (s.length, m.store dst (s ++ [0])) := by
  have hcopy : memcpy dst src s.length m = .ok ((), m.store dst s) := by
    rw [memcpy, Routine.bind_of_ok (assertThat_ok (by simp [hdst])),
      Routine.bind_of_ok (assertThat_ok (by simp [hsrc])),
      memcpyLoop_ok (Memory.holds_append.mp h).1 (by omega)]
  rw [strlcpy, Routine.bind_of_ok (assertThat_ok (by simpa using hdst)),
    Routine.bind_of_ok (assertThat_ok (by simpa using hsrc)),
    Routine.bind_of_ok (strlen_ok h hnull hsrc hfuel), if_pos (Nat.succ_pos _),
    Nat.add_sub_cancel, if_neg (Nat.lt_irrefl _), ← Memory.store_append]
  dsimp only
  rw [Routine.bind_of_ok hcopy]
  rfl

/-! ### Cutting a string into tokens -/

/-- The null byte counts as a delimiter. -/
theorem strchr_ne_none : strchr delimiters c ≠ none ↔ c ∈ delimiters ∨ c = 0 := by
  induction delimiters with
  | nil =>
    rw [strchr]
    split_ifs with h
    · simp [h]
    · simp [Ne.symm h]
  | cons b delimiters ih =>
    rw [strchr, List.mem_cons]
    split_ifs with h
    · simp [h]
    · rw [Option.map_eq_map, ne_eq, Option.map_eq_none_iff, ← ne_eq, ih]
      simp [Ne.symm h]

theorem skipDelimiters_ok (h : m.Holds p (s ++ (t ++ [0]))) (hs : ∀ c ∈ s, c ∈ delimiters)
    (hnull : 0 ∉ s ++ t) (ht : ∀ c ∈ t.head?, c ∉ delimiters) (hfuel : s.length < fuel) :
    skipDelimiters delimiters fuel p m = .ok ((p + s.length, decide (t = [])), m) := by
  induction s generalizing p fuel with
  | nil =>
    cases fuel with
    | zero => nomatch hfuel
    | succ fuel =>
      rw [skipDelimiters, Routine.get_bind_apply]
      cases t with
      | nil =>
        rw [(Memory.holds_cons.mp h).1, if_pos (strchr_ne_none.mpr (.inr rfl)), if_pos rfl]
        rfl
      | cons c t =>
        have hc : c ∉ delimiters := ht c rfl
        have hnot : ¬ strchr delimiters c ≠ none := fun hfound =>
          (strchr_ne_none.mp hfound).elim hc fun hzero => hnull (by simp [hzero])
        rw [(Memory.holds_cons.mp h).1, if_neg hnot]
        rfl
  | cons b s ih =>
    cases fuel with
    | zero => nomatch hfuel
    | succ fuel =>
      obtain ⟨hb, h⟩ := Memory.holds_cons.mp h
      obtain ⟨hd, hs⟩ := List.forall_mem_cons.mp hs
      rw [List.cons_append, List.mem_cons, not_or] at hnull
      rw [skipDelimiters, Routine.get_bind_apply, hb, if_pos (strchr_ne_none.mpr (.inl hd)),
        if_neg (Ne.symm hnull.1), ih h hs hnull.2 (by simpa using hfuel), List.length_cons,
        Nat.add_assoc, Nat.add_comm 1]

theorem skipToken_ok (h : m.Holds p (t ++ (s ++ [0]))) (ht : ∀ c ∈ t, c ∉ delimiters)
    (hnull : 0 ∉ t) (hs : ∀ c ∈ s.head?, c ∈ delimiters) (hfuel : t.length < fuel) :
    skipToken delimiters fuel p m = .ok (p + t.length, m) := by
  induction t generalizing p fuel with
  | nil =>
    cases fuel with
    | zero => nomatch hfuel
    | succ fuel =>
      have hfound : strchr delimiters (m p) ≠ none := by
        cases s with
        | nil => exact strchr_ne_none.mpr (.inr (Memory.holds_cons.mp h).1)
        | cons c s =>
          rw [(Memory.holds_cons.mp h).1]
          exact strchr_ne_none.mpr (.inl (hs c rfl))
      rw [skipToken, Routine.get_bind_apply, if_neg hfound]
      rfl
  | cons b t ih =>
    cases fuel with
    | zero => nomatch hfuel
    | succ fuel =>
      obtain ⟨hb, h⟩ := Memory.holds_cons.mp h
      obtain ⟨hd, ht⟩ := List.forall_mem_cons.mp ht
      rw [List.mem_cons, not_or] at hnull
      have hnot : strchr delimiters b = none := by
        by_contra hfound
        exact (strchr_ne_none.mp hfound).elim hd (Ne.symm hnull.1)
      rw [skipToken, Routine.get_bind_apply, hb, if_pos hnot,
        ih h ht hnull.2 (by simpa using hfuel), List.length_cons, Nat.add_assoc, Nat.add_comm 1]

/-- What a call of `strtok_r` leaves between `lo` and `hi` when the runs of `l` were ahead of it:
its token is the first of them, and the others are in the string that starts at `save_ptr`. -/
structure Tokenized (delimiters : List UInt8) (m : Memory) (lo hi : Nat) (token : Option Nat)
    (savePtr : Nat) (l : List (List UInt8)) : Prop where
  rest : ∃ s, m.Holds savePtr (s ++ [0]) ∧ 0 ∉ s ∧ lo ≤ savePtr ∧ savePtr + (s.length + 1) = hi ∧
    l.tail = runsOf delimiters s
  first : ∀ t ∈ l.head?, ∃ q, token = some q ∧ m.Holds q (t ++ [0]) ∧ 0 ∉ t ∧ lo ≤ q ∧
    q + (t.length + 1) ≤ hi
  last : l = [] → token = none

/-- Bytes outside are as before. -/
def SameOutside (lo hi : Nat) (m m' : Memory) : Prop := ∀ i, i < lo ∨ hi ≤ i → m' i = m i

theorem SameOutside.trans {m'' : Memory} (h : SameOutside lo hi m m')
    (h' : SameOutside lo hi m' m'') : SameOutside lo hi m m'' :=
  fun i hi => (h' i hi).trans (h i hi)

theorem SameOutside.holds (h : SameOutside lo hi m m') (hs : m.Holds p s)
    (hapart : p + s.length ≤ lo ∨ hi ≤ p) : m'.Holds p s :=
  hs.congr fun i hi => h (p + i) (by omega)

theorem sameOutside_store (h : lo ≤ p ∧ p + s.length ≤ hi) : SameOutside lo hi m (m.store p s) :=
  fun i hi => by rw [Memory.store_apply, if_neg (by omega)]

/-- A call of `strtok_r` that starts at `p`. -/
theorem strtokR_ok {start savePtr : Option Nat} (hp : start.or savePtr = some p)
    (h : m.Holds p (s ++ [0])) (hnull : 0 ∉ s) (hlo : lo ≤ p) (hhi : p + (s.length + 1) = hi)
    (hfuel : s.length < fuel) :
    ∃ token save m', strtokR fuel start delimiters savePtr m = .ok ((token, some save), m') ∧
      Tokenized delimiters m' lo hi token save (runsOf delimiters s) ∧ SameOutside lo hi m m' := by
  rw [strtokR, hp]
  dsimp only
  rcases runsOf_cases delimiters s with ⟨hall, hnil⟩ | ⟨ds, t, r, rfl, hds, hne, ht, hr, hruns⟩
  · have hskip : skipDelimiters delimiters fuel p m = .ok ((p + s.length, true), m) :=
      skipDelimiters_ok (t := []) h hall (by simpa using hnull) nofun hfuel
    rw [Routine.bind_of_ok hskip]
    refine ⟨none, p + s.length, m, rfl, ⟨⟨[], ?_, nofun, by omega, ?_, ?_⟩, ?_, fun _ => rfl⟩,
      fun _ _ => rfl⟩
    · exact (Memory.holds_append.mp h).2
    · simp only [List.length_nil]
      omega
    · rw [hnil]
      rfl
    · rw [hnil]
      nofun
  · simp only [List.mem_append, not_or] at hnull
    obtain ⟨hnullDs, hnullT, hnullR⟩ := hnull
    simp only [List.length_append] at hhi hfuel
    have hskip : skipDelimiters delimiters fuel p m = .ok ((p + ds.length, false), m) := by
      have hhead : ∀ c ∈ (t ++ r).head?, c ∉ delimiters := by
        intro c hc
        rw [List.head?_append_of_ne_nil _ hne] at hc
        exact ht c (List.mem_of_mem_head? hc)
      rw [skipDelimiters_ok (by simpa using h) hds (by simp [hnullDs, hnullT, hnullR]) hhead
        (by omega), decide_eq_false (by simp [hne])]
    have htoken : m.Holds (p + ds.length) (t ++ (r ++ [0])) := by
      rw [List.append_assoc] at h
      simpa using (Memory.holds_append.mp h).2
    have hend : skipToken delimiters fuel (p + ds.length) m = .ok (p + ds.length + t.length, m) :=
      skipToken_ok htoken ht hnullT hr (by omega)
    have hr' := (Memory.holds_append.mp htoken).2
    rw [Routine.bind_of_ok hskip]
    dsimp only
    rw [if_neg (by decide), Routine.bind_of_ok hend, Routine.get_bind_apply]
    cases r with
    | nil =>
      -- the token ends with the string
      rw [(Memory.holds_cons.mp hr').1, if_neg (not_not.mpr rfl)]
      refine ⟨_, _, m, rfl, ⟨⟨[], hr', nofun, by omega, ?_, ?_⟩, ?_, ?_⟩, fun _ _ => rfl⟩
      · simp only [List.length_nil] at hhi ⊢
        omega
      · rw [hruns]
        rfl
      · rw [hruns]
        intro t' ht'
        obtain rfl : t = t' := Option.some.inj ht'
        exact ⟨_, rfl, htoken, hnullT, by omega, by omega⟩
      · rw [hruns]
        nofun
    | cons d r =>
      obtain ⟨hd, hrest⟩ := Memory.holds_cons.mp hr'
      rw [List.mem_cons, not_or] at hnullR
      simp only [List.length_cons] at hhi hfuel
      rw [hd, if_pos (Ne.symm hnullR.1), storeByte, Routine.modify_bind_apply]
      refine ⟨_, _, _, rfl, ⟨⟨r, ?_, hnullR.2, by omega, by omega, ?_⟩, ?_, ?_⟩,
        sameOutside_store ⟨by omega, ?_⟩⟩
      · refine hrest.store ?_
        simp only [List.length_cons, List.length_nil]
        omega
      · rw [hruns]
        rfl
      · rw [hruns]
        intro t' ht'
        obtain rfl : t = t' := Option.some.inj ht'
        refine ⟨_, rfl, Memory.holds_append.mpr ⟨?_, Memory.holds_store _ _ _⟩, hnullT, by omega,
          by omega⟩
        exact (Memory.holds_append.mp htoken).1.store (by omega)
      · rw [hruns]
        nofun
      · simp only [List.length_cons, List.length_nil]
        omega

/-- The next call finds the next run. -/
theorem Tokenized.next {token : Option Nat} {savePtr : Nat} {l : List (List UInt8)}
    (h : Tokenized delimiters m lo hi token savePtr l) (hfuel : hi ≤ lo + fuel) :
    ∃ token' save m', strtokR fuel none delimiters (some savePtr) m =
        .ok ((token', some save), m') ∧
      Tokenized delimiters m' lo hi token' save l.tail ∧ SameOutside lo hi m m' := by
  obtain ⟨s, hs, hnull, hlo, hhi, htail⟩ := h.rest
  rw [htail]
  exact strtokR_ok rfl hs hnull hlo hhi (by omega)

theorem strtokCalls_ok (h : m.Holds lo (s ++ [0])) (hnull : 0 ∉ s) (hhi : lo + (s.length + 1) = hi)
    (hfuel : s.length < fuel) (n : Nat) :
    ∃ token save m', strtokCalls fuel lo delimiters n m = .ok ((token, some save), m') ∧
      Tokenized delimiters m' lo hi token save ((runsOf delimiters s).drop n) ∧
      SameOutside lo hi m m' := by
  induction n with
  | zero => exact strtokR_ok rfl h hnull (Nat.le_refl lo) hhi hfuel
  | succ n ih =>
    obtain ⟨token, save, m₁, hrun, htokenized, hsame⟩ := ih
    obtain ⟨token', save', m', hnext, htokenized', hsame'⟩ :=
      @Tokenized.next _ fuel _ _ _ _ _ _ htokenized (by omega)
    rw [List.tail_drop] at htokenized'
    refine ⟨token', save', m', ?_, htokenized', hsame.trans hsame'⟩
    rw [strtokCalls, Routine.bind_of_ok hrun]
    exact hnext

theorem runsOf_length_le (delimiters s : List UInt8) :
    (runsOf delimiters s).length ≤ s.length := by
  induction hn : s.length using Nat.strongRecOn generalizing s with
  | _ n ih =>
    rcases runsOf_cases delimiters s with ⟨-, hnil⟩ | ⟨ds, t, r, rfl, -, hne, -, -, hruns⟩
    · rw [hnil]
      exact Nat.zero_le n
    · have hpos := List.length_pos_of_ne_nil hne
      have hrest := r.length_tail
      simp only [List.length_append] at hn
      have hle := ih r.tail.length (by omega) r.tail rfl
      rw [hruns, List.length_cons]
      omega

end InMemory

end Pintos
