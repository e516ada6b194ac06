import Pintos.Filesys.Path
import Pintos.Lib.Strtok

/-! `get_path_entry` and `get_path_entry_cnt` (`filesys/directory.c`) in memory.  Both cut a copy of
the path into tokens, and leave the path as it is. -/

namespace Pintos

namespace InMemory

/-- `calloc (size, sizeof (char))` that returns `cpy`. -/
def calloc (cpy size : Nat) : MemoryRoutine Unit := modify (·.store cpy (List.replicate size 0))

/-- `cpy` becomes a copy of the path. -/
def copyPath (fuel cpy pathStr : Nat) : MemoryRoutine Unit := do
  calloc cpy ((← strlen fuel pathStr) + 1)
  let _ ← strlcpy fuel cpy pathStr ((← strlen fuel pathStr) + 1)
  pure ()

/-- The loop of `get_path_entry`. -/
def pathEntryLoop (strtokFuel n : Nat) : (fuel : Nat) → (token savePtr : Option Nat) → (i : Nat) →
    MemoryRoutine (Option Nat)
  | 0, _, _, _ => throw .spin
  | fuel + 1, token, savePtr, i =>
    if token ≠ none ∧ i < n then do
      let (token, savePtr) ← strtokR strtokFuel none [slash] savePtr
      pathEntryLoop strtokFuel n fuel token savePtr (i + 1)
    else pure token

/-- `get_path_entry`. -/
def getPathEntry (fuel cpy pathStr n buffer : Nat) : MemoryRoutine Bool := do
  copyPath fuel cpy pathStr
  let (token, savePtr) ← strtokR fuel (some cpy) [slash] none
  match ← pathEntryLoop fuel n fuel token savePtr 0 with
  | none => pure false
  | some token => do
    let _ ← strlcpy fuel buffer token ((← strlen fuel token) + 1)
    pure true

/-- The loop of `get_path_entry_cnt`. -/
def pathEntryCntLoop (strtokFuel : Nat) : (fuel : Nat) → (token savePtr : Option Nat) →
    (cnt : Nat) → MemoryRoutine Nat
  | 0, _, _, _ => throw .spin
  | fuel + 1, token, savePtr, cnt =>
    if token ≠ none then do
      let (token, savePtr) ← strtokR strtokFuel none [slash] savePtr
      pathEntryCntLoop strtokFuel fuel token savePtr (cnt + 1)
    else pure cnt

/-- `get_path_entry_cnt`. -/
def getPathEntryCnt (fuel cpy pathStr : Nat) : MemoryRoutine Nat := do
  copyPath fuel cpy pathStr
  let (token, savePtr) ← strtokR fuel (some cpy) [slash] none
  pathEntryCntLoop fuel fuel token savePtr 0

variable {m : Memory} {fuel strtokFuel lo hi cpy pathStr n i cnt savePtr : Nat}
  {token : Option Nat} {l : List (List UInt8)} {s : List UInt8}

/-- The copy can be cut without changing the path. -/
theorem copyPath_ok (h : m.Holds pathStr (s ++ [0])) (hnull : 0 ∉ s) (hpath : pathStr ≠ 0)
    (hcpy : cpy ≠ 0) (hfuel : s.length < fuel)
    (hapart : cpy + (s.length + 1) ≤ pathStr ∨ pathStr + (s.length + 1) ≤ cpy) :
    ∃ m', copyPath fuel cpy pathStr m = .ok ((), m') ∧ m'.Holds cpy (s ++ [0]) ∧
      SameOutside cpy (cpy + (s.length + 1)) m m' := by
  have hcleared : SameOutside cpy (cpy + (s.length + 1)) m
      (m.store cpy (List.replicate (s.length + 1) 0)) := sameOutside_store (by simp)
  have h' := hcleared.holds h (by simpa using hapart.symm)
  have hcopied : SameOutside cpy (cpy + (s.length + 1))
      (m.store cpy (List.replicate (s.length + 1) 0))
      ((m.store cpy (List.replicate (s.length + 1) 0)).store cpy (s ++ [0])) :=
    sameOutside_store (by simp)
  refine ⟨_, ?_, Memory.holds_store _ _ _, hcleared.trans hcopied⟩
  rw [copyPath, Routine.bind_of_ok (strlen_ok h hnull hpath hfuel), calloc,
    Routine.modify_bind_apply, Routine.bind_of_ok (strlen_ok h' hnull hpath hfuel),
    Routine.bind_of_ok (strlcpy_ok h' hnull hpath hcpy hfuel hapart)]
  rfl

theorem pathEntryCntLoop_ok (h : Tokenized [slash] m lo hi token savePtr l)
    (hstrtok : hi ≤ lo + strtokFuel) (hfuel : l.length < fuel) :
    ∃ m', pathEntryCntLoop strtokFuel fuel token (some savePtr) cnt m =
        .ok (cnt + l.length, m') ∧ SameOutside lo hi m m' := by
  induction fuel generalizing m token savePtr l cnt with
  | zero => nomatch hfuel
  | succ fuel ih =>
    cases l with
    | nil =>
      rw [h.last rfl, pathEntryCntLoop, if_neg (not_not.mpr rfl)]
      exact ⟨m, rfl, fun _ _ => rfl⟩
    | cons t l =>
      obtain ⟨q, rfl, -⟩ := h.first t rfl
      obtain ⟨token', save, m₁, hnext, htokenized, hsame⟩ := h.next hstrtok
      obtain ⟨m', hrun, hsame'⟩ := @ih m₁ (cnt + 1) save token' l htokenized (by simpa using hfuel)
      refine ⟨m', ?_, hsame.trans hsame'⟩
      rw [pathEntryCntLoop, if_pos nofun, Routine.bind_of_ok hnext]
      dsimp only
      rw [hrun, List.length_cons, Nat.add_assoc, Nat.add_comm 1]

/-- The loop ends at the run that is `n - i` further, or behind the last one. -/
theorem pathEntryLoop_ok (h : Tokenized [slash] m lo hi token savePtr l)
    (hstrtok : hi ≤ lo + strtokFuel) (hfuel : l.length < fuel) (hi' : i ≤ n) :
    ∃ token' m', pathEntryLoop strtokFuel n fuel token (some savePtr) i m = .ok (token', m') ∧
      SameOutside lo hi m m' ∧ (l[n - i]? = none → token' = none) ∧
      ∀ t ∈ l[n - i]?, ∃ q, token' = some q ∧ m'.Holds q (t ++ [0]) ∧ 0 ∉ t ∧ lo ≤ q ∧
        q + (t.length + 1) ≤ hi := by
  induction fuel generalizing m token savePtr l i with
  | zero => nomatch hfuel
  | succ fuel ih =>
    rw [pathEntryLoop]
    cases l with
    | nil =>
      rw [h.last rfl, if_neg fun hand => hand.1 rfl]
      exact ⟨none, m, rfl, fun _ _ => rfl, fun _ => rfl, nofun⟩
    | cons t l =>
      obtain ⟨q, hq, hrun⟩ := h.first t rfl
      rcases Nat.eq_or_lt_of_le hi' with rfl | hlt
      · rw [if_neg fun hand => Nat.lt_irrefl _ hand.2, Nat.sub_self]
        refine ⟨token, m, rfl, fun _ _ => rfl, nofun, fun t' ht' => ?_⟩
        obtain rfl : t = t' := Option.some.inj ht'
        exact ⟨q, hq, hrun⟩
      · obtain ⟨token', save, m₁, hnext, htokenized, hsame⟩ := h.next hstrtok
        obtain ⟨token'', m', hloop, hsame', hnone, hsome⟩ :=
          @ih m₁ (i + 1) save token' l htokenized (by simpa using hfuel) hlt
        have hindex : n - i = (n - (i + 1)) + 1 := by omega
        rw [hindex, List.getElem?_cons_succ]
        refine ⟨token'', m', ?_, hsame.trans hsame', hnone, hsome⟩
        rw [if_pos ⟨by rw [hq]; nofun, hlt⟩, Routine.bind_of_ok hnext]
        exact hloop

/-- Two ranges of bytes without a common one. -/
def Apart (a n b k : Nat) : Prop := a + n ≤ b ∨ b + k ≤ a

theorem getPathEntryCnt_ok (h : m.Holds pathStr (s ++ [0])) (hnull : 0 ∉ s) (hpath : pathStr ≠ 0)
    (hcpy : cpy ≠ 0) (hapart : Apart cpy (s.length + 1) pathStr (s.length + 1))
    (hfuel : s.length < fuel) :
    ∃ m', getPathEntryCnt fuel cpy pathStr m = .ok ((pathEntries s).length, m') ∧
      SameOutside cpy (cpy + (s.length + 1)) m m' := by
  obtain ⟨m₁, hcopy, hholds, hsame⟩ := copyPath_ok h hnull hpath hcpy hfuel hapart
  obtain ⟨token, save, m₂, hfirst, htokenized, hsame'⟩ :=
    @strtokR_ok m₁ cpy fuel cpy _ s [slash] (some cpy) none rfl hholds hnull (Nat.le_refl _) rfl
      hfuel
  have hcount := Nat.lt_of_le_of_lt (runsOf_length_le [slash] s) hfuel
  obtain ⟨m', hloop, hsame''⟩ := @pathEntryCntLoop_ok m₂ fuel fuel _ _ 0 save token _ htokenized
    (by omega) hcount
  refine ⟨m', ?_, hsame.trans (hsame'.trans hsame'')⟩
  rw [getPathEntryCnt, Routine.bind_of_ok hcopy, Routine.bind_of_ok hfirst, pathEntries,
    runs_eq_runsOf]
  dsimp only
  rw [hloop, Nat.zero_add]

/-- The entry is copied to the buffer, if there is one. -/
theorem getPathEntry_ok {buffer : Nat} (h : m.Holds pathStr (s ++ [0])) (hnull : 0 ∉ s)
    (hpath : pathStr ≠ 0) (hcpy : cpy ≠ 0) (hbuffer : buffer ≠ 0)
    (hapart : Apart cpy (s.length + 1) pathStr (s.length + 1)) (hfuel : s.length < fuel)
    (hroom : ∀ t ∈ (pathEntries s)[n]?, Apart buffer (t.length + 1) cpy (s.length + 1)) :
    ∃ m', getPathEntry fuel cpy pathStr n buffer m =
        .ok (decide (n < (pathEntries s).length), m') ∧
      (∀ t ∈ (pathEntries s)[n]?, m'.Holds buffer (t ++ [0])) ∧
      ∀ a, (a < cpy ∨ cpy + (s.length + 1) ≤ a) →
        (∀ t ∈ (pathEntries s)[n]?, a < buffer ∨ buffer + (t.length + 1) ≤ a) → m' a = m a := by
  obtain ⟨m₁, hcopy, hholds, hsame⟩ := copyPath_ok h hnull hpath hcpy hfuel hapart
  obtain ⟨token, save, m₂, hfirst, htokenized, hsame'⟩ :=
    @strtokR_ok m₁ cpy fuel cpy _ s [slash] (some cpy) none rfl hholds hnull (Nat.le_refl _) rfl
      hfuel
  have hcount := Nat.lt_of_le_of_lt (runsOf_length_le [slash] s) hfuel
  obtain ⟨token', m₃, hloop, hsame'', hnone, hsome⟩ := @pathEntryLoop_ok m₂ fuel fuel _ _ n 0 save
    token _ htokenized (by omega) hcount (Nat.zero_le n)
  have hwhole := hsame.trans (hsame'.trans hsame'')
  rw [pathEntries, runs_eq_runsOf] at hroom ⊢
  rw [Nat.sub_zero] at hnone hsome
  rw [getPathEntry, Routine.bind_of_ok hcopy, Routine.bind_of_ok hfirst]
  dsimp only
  rw [Routine.bind_of_ok hloop]
  cases hn : (runsOf [slash] s)[n]? with
  | none =>
    rw [hnone hn]
    refine ⟨m₃, ?_, (by simp), fun a ha _ => hwhole a ha⟩
    rw [decide_eq_false (by simpa using hn)]
    rfl
  | some t =>
    obtain ⟨q, rfl, hq, hnullT, hlo, hhi⟩ := hsome t hn
    have hlt : n < (runsOf [slash] s).length := (List.getElem?_eq_some_iff.mp hn).1
    have hq0 : q ≠ 0 := by omega
    have hlength : t.length < fuel := by omega
    have hroom' : Apart buffer (t.length + 1) cpy (s.length + 1) := hroom t hn
    have hstore := strlcpy_ok hq hnullT hq0 hbuffer hlength (by simp only [Apart] at hroom'; omega)
    refine ⟨m₃.store buffer (t ++ [0]), ?_, fun t' ht' => ?_, fun a ha hbuf => ?_⟩
    · dsimp only
      rw [Routine.bind_of_ok (strlen_ok hq hnullT hq0 hlength), Routine.bind_of_ok hstore,
        decide_eq_true hlt]
      rfl
    · obtain rfl : t = t' := Option.some.inj ht'
      exact Memory.holds_store _ _ _
    · have houtside := hbuf t rfl
      have hlen : (t ++ [0]).length = t.length + 1 := by simp
      rw [Memory.store_apply, if_neg (by omega), hwhole a ha]

/-- A path is cut into its entries, and each call of `strtok_r` yields the next run of its
string. -/
theorem path_entries {m : Memory} {pathStr cpy fuel : Nat} (path : CString)
    (h : m.Holds pathStr (path.bytes ++ [0])) (hpath : pathStr ≠ 0) (hcpy : cpy ≠ 0)
    (hapart : Apart cpy (path.bytes.length + 1) pathStr (path.bytes.length + 1))
    (hfuel : path.bytes.length < fuel) :
    (∃ m', getPathEntryCnt fuel cpy pathStr m = .ok ((pathEntries path.bytes).length, m') ∧
      m'.Holds pathStr (path.bytes ++ [0])) ∧
    (∀ n buffer, buffer ≠ 0 →
      (∀ t ∈ (pathEntries path.bytes)[n]?,
        Apart buffer (t.length + 1) cpy (path.bytes.length + 1) ∧
        Apart buffer (t.length + 1) pathStr (path.bytes.length + 1)) →
      ∃ m', getPathEntry fuel cpy pathStr n buffer m =
          .ok (decide (n < (pathEntries path.bytes).length), m') ∧
        m'.Holds pathStr (path.bytes ++ [0]) ∧
        ∀ t ∈ (pathEntries path.bytes)[n]?, m'.Holds buffer (t ++ [0])) ∧
    ∀ (m : Memory) (p fuel : Nat) (s : CString) (delimiters : List UInt8),
      m.Holds p (s.bytes ++ [0]) → s.bytes.length < fuel → ∀ k,
        ∃ token savePtr m', strtokCalls fuel p delimiters k m = .ok ((token, savePtr), m') ∧
          match (runsOf delimiters s.bytes)[k]? with
          | some t => ∃ q, token = some q ∧ m'.Holds q (t ++ [0])
          | none => token = none := by
  have hlength : (path.bytes ++ [0]).length = path.bytes.length + 1 := by simp
  refine ⟨?_, fun n buffer hbuffer hroom => ?_, fun m p fuel s delimiters hs hfuel k => ?_⟩
  · obtain ⟨m', hrun, hsame⟩ := getPathEntryCnt_ok h path.noNull hpath hcpy hapart hfuel
    exact ⟨m', hrun, hsame.holds h (by simp only [Apart] at hapart; omega)⟩
  · obtain ⟨m', hrun, hheld, hsame⟩ := getPathEntry_ok h path.noNull hpath hcpy hbuffer hapart hfuel
      fun t ht => (hroom t ht).1
    refine ⟨m', hrun, h.congr fun i hi => hsame _ ?_ fun t ht => ?_, hheld⟩
    · simp only [Apart] at hapart
      omega
    · have hout := (hroom t ht).2
      simp only [Apart] at hout
      omega
  · obtain ⟨token, save, m', hrun, htokenized, -⟩ :=
      @strtokCalls_ok m fuel p _ s.bytes delimiters hs s.noNull rfl hfuel k
    refine ⟨token, some save, m', hrun, ?_⟩
    cases hk : (runsOf delimiters s.bytes)[k]? with
    | none => exact htokenized.last (List.drop_eq_nil_of_le (by simpa using hk))
    | some t =>
      obtain ⟨q, hq, hheld, -⟩ := htokenized.first t (by rw [List.head?_drop, hk]; rfl)
      exact ⟨q, hq, hheld⟩

/-- `"/a//bc"`. -/
def twoEntries : CString := ⟨[0x2f, 0x61, 0x2f, 0x2f, 0x62, 0x63], by decide⟩

/-- The path at address 16. -/
def twoEntriesMemory : Memory := Memory.store (fun _ => 1) 16 (twoEntries.bytes ++ [0])

theorem path_entries_twoEntries :
    (∃ m', getPathEntryCnt 7 32 16 twoEntriesMemory = .ok (2, m') ∧
      m'.Holds 16 (twoEntries.bytes ++ [0])) ∧
    ∃ m', getPathEntry 7 32 16 1 48 twoEntriesMemory = .ok (true, m') ∧
      m'.Holds 16 (twoEntries.bytes ++ [0]) ∧ m'.Holds 48 [0x62, 0x63, 0] := by
  have h := @path_entries twoEntriesMemory 16 32 7 twoEntries (Memory.holds_store _ _ _) (by decide)
    (by decide) (.inr (by decide)) (by decide)
  have hentries : pathEntries twoEntries.bytes = [[0x61], [0x62, 0x63]] := by decide
  rw [hentries] at h
  obtain ⟨hcnt, hentry, -⟩ := h
  obtain ⟨m', hrun, hpath, hheld⟩ := hentry 1 48 (by decide) fun t ht => by
    obtain rfl : [0x62, 0x63] = t := Option.some.inj ht
    exact ⟨.inr (by decide), .inr (by decide)⟩
  exact ⟨hcnt, m', hrun, hpath, hheld _ rfl⟩

end InMemory

end Pintos
