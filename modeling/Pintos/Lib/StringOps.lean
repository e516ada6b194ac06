import Pintos.Lib.Strtok
import Mathlib.Data.List.Induction

/-! Moving, joining, comparing and searching (`lib/string.c`): `memmove`, `strlcat`, `memcmp`,
`strcmp` and `strstr`, on bytes in memory. -/

namespace Pintos

namespace InMemory

/-- The loop of `memmove` that goes down, and where it leaves `dst`. -/
def memmoveLoop : (size dst src : Nat) → MemoryRoutine Nat
  | 0, dst, _ => pure dst
  | size + 1, dst, src => do
    let m ← get
    storeByte (dst - 1) (m (src - 1))
    memmoveLoop size (dst - 1) (src - 1)

/-- `memmove`.  It returns `dst` as its loop leaves it. -/
def memmove (dst src size : Nat) : MemoryRoutine Nat := do
  assertThat "dst != NULL || size == 0" (dst ≠ 0 || size = 0)
  assertThat "src != NULL || size == 0" (src ≠ 0 || size = 0)
  if dst < src then do
    memcpyLoop size dst src
    pure (dst + size)
  else memmoveLoop size (dst + size) (src + size)

/-- `strlcat`. -/
def strlcat (fuel dst src size : Nat) : MemoryRoutine Nat := do
  assertThat "dst != NULL" (dst ≠ 0)
  assertThat "src != NULL" (src ≠ 0)
  let srcLen ← strlen fuel src
  let dstLen ← strlen fuel dst
  if 0 < size ∧ dstLen < size then do
    let copyCnt := if srcLen < size - dstLen - 1 then srcLen else size - dstLen - 1
    memcpy (dst + dstLen) src copyCnt
    storeByte (dst + dstLen + copyCnt) 0
    pure (srcLen + dstLen)
  else pure (srcLen + dstLen)

/-- The loop of `memcmp`. -/
def memcmpLoop : (size a b : Nat) → MemoryRoutine Int
  | 0, _, _ => pure 0
  | size + 1, a, b => do
    let m ← get
    if m a ≠ m b then pure (if m b < m a then 1 else -1) else memcmpLoop size (a + 1) (b + 1)

/-- `memcmp`. -/
def memcmp (a b size : Nat) : MemoryRoutine Int := do
  assertThat "a != NULL || size == 0" (a ≠ 0 || size = 0)
  assertThat "b != NULL || size == 0" (b ≠ 0 || size = 0)
  memcmpLoop size a b

/-- The loop of `strcmp`, and where it ends. -/
def strcmpLoop : (fuel a b : Nat) → MemoryRoutine (Nat × Nat)
  | 0, _, _ => throw .spin
  | fuel + 1, a, b => do
    let m ← get
    if m a ≠ 0 ∧ m a = m b then strcmpLoop fuel (a + 1) (b + 1) else pure (a, b)

/-- `strcmp`. -/
def strcmp (fuel a b : Nat) : MemoryRoutine Int := do
  assertThat "a != NULL" (a ≠ 0)
  assertThat "b != NULL" (b ≠ 0)
  let (a, b) ← strcmpLoop fuel a b
  let m ← get
  pure (if m a < m b then -1 else if m b < m a then 1 else 0)

/-- The loop of `strstr`, with the rounds that are left. -/
def strstrLoop (haystack needle needleLen : Nat) : (rounds i : Nat) → MemoryRoutine (Option Nat)
  | 0, _ => pure none
  | rounds + 1, i => do
    let r ← memcmp (haystack + i) needle needleLen
    if r = 0 then pure (some (haystack + i))
    else strstrLoop haystack needle needleLen rounds (i + 1)

/-- `strstr`, with `none` for a null pointer. -/
def strstr (fuel haystack needle : Nat) : MemoryRoutine (Option Nat) := do
  let haystackLen ← strlen fuel haystack
  let needleLen ← strlen fuel needle
  if needleLen ≤ haystackLen then
    strstrLoop haystack needle needleLen (haystackLen - needleLen + 1) 0
  else pure none

variable {m m' : Memory} {p q fuel size dst src a b : Nat} {s t : List UInt8} {x y : UInt8}

/-! ### Moving -/

/-- Going up, bytes may be moved down over themselves. -/
theorem memcpyLoop_down (h : m.Holds src s) (hlt : dst < src) :
    memcpyLoop s.length dst src m = .ok ((), m.store dst s) := by
  induction s generalizing m dst src with
  | nil =>
    rw [Memory.store_nil]
    rfl
  | cons c s ih =>
    obtain ⟨hc, h⟩ := Memory.holds_cons.mp h
    have hrest : (m.store dst [c]).Holds (src + 1) s := h.store (by
      simp only [List.length_cons, List.length_nil]
      omega)
    rw [List.length_cons, memcpyLoop, Routine.get_bind_apply, hc, storeByte,
      Routine.modify_bind_apply, ih hrest (by omega), Memory.store_cons]

/-- Stores at different places may change places. -/
theorem store_comm {xs ys : List UInt8} (h : a + xs.length ≤ b) :
    (m.store b ys).store a xs = (m.store a xs).store b ys := by
  funext i
  simp only [Memory.store_apply]
  split_ifs <;> first | rfl | omega

/-- Going down, they may be moved up. -/
theorem memmoveLoop_ok (h : m.Holds src s) (hle : src ≤ dst) :
    memmoveLoop s.length (dst + s.length) (src + s.length) m = .ok (dst, m.store dst s) := by
  induction s using List.reverseRecOn generalizing m with
  | nil =>
    rw [Memory.store_nil]
    rfl
  | append_singleton s c ih =>
    obtain ⟨hs, hc⟩ := Memory.holds_append.mp h
    have hrest : (m.store (dst + s.length) [c]).Holds src s := hs.store (by omega)
    have hdst : dst + (s.length + 1) - 1 = dst + s.length := rfl
    have hsrc : src + (s.length + 1) - 1 = src + s.length := rfl
    rw [List.length_append, List.length_singleton, memmoveLoop, Routine.get_bind_apply, hdst, hsrc,
      Memory.holds_singleton.mp hc, storeByte, Routine.modify_bind_apply, ih hrest,
      store_comm (Nat.le_refl _), Memory.store_append]

/-! ### Comparing -/

/-- How `strcmp` and `memcmp` tell what is less. -/
def order {β : Type} [LT β] [DecidableLT β] (x y : β) : Int :=
  if x < y then -1 else if y < x then 1 else 0

theorem order_nil_cons : order [] (y :: t) = -1 := if_pos (List.nil_lt_cons y t)

theorem order_cons_nil : order (x :: s) [] = 1 := by
  rw [order, if_neg (List.not_lt_nil _), if_pos (List.nil_lt_cons x s)]

theorem order_cons_self : order (x :: s) (x :: t) = order s t := by
  simp only [order, List.cons_lt_cons_self]

theorem order_cons_of_ne (h : x ≠ y) : order (x :: s) (y :: t) = order x y := by
  simp only [order, List.cons_lt_cons_iff, h, Ne.symm h, false_and, or_false]

theorem order_of_ne (h : x ≠ y) : order x y = if y < x then 1 else -1 := by
  have htotal : x < y ∨ y < x := by
    simp only [UInt8.lt_iff_toNat_lt, ne_eq, ← UInt8.toNat_inj] at h ⊢
    omega
  rw [order]
  split_ifs with hxy hyx
  · simp only [UInt8.lt_iff_toNat_lt] at hxy hyx
    omega
  · rfl
  · rfl
  · exact absurd htotal (not_or.mpr ⟨hxy, ‹_›⟩)

theorem order_self (s : List UInt8) : order s s = 0 := by
  induction s with
  | nil => rfl
  | cons x s ih => rw [order_cons_self, ih]

theorem order_ne_zero (h : x ≠ y) : order x y ≠ 0 := by
  rw [order_of_ne h]
  split_ifs <;> decide

theorem order_eq_zero : order s t = 0 ↔ s = t := by
  constructor
  · intro h
    induction s generalizing t with
    | nil =>
      cases t with
      | nil => rfl
      | cons y t => exact absurd (order_nil_cons.symm.trans h) (by decide)
    | cons x s ih =>
      cases t with
      | nil => exact absurd (order_cons_nil.symm.trans h) (by decide)
      | cons y t =>
        by_cases hxy : x = y
        · cases hxy
          rw [order_cons_self] at h
          rw [ih h]
        · rw [order_cons_of_ne hxy] at h
          exact absurd h (order_ne_zero hxy)
  · rintro rfl
    exact order_self s

theorem memcmpLoop_ok (ha : m.Holds a s) (hb : m.Holds b t) (hlength : s.length = t.length) :
    memcmpLoop s.length a b m = .ok (order s t, m) := by
  induction s generalizing a b t with
  | nil =>
    cases t with
    | nil => rfl
    | cons y t => cases hlength
  | cons x s ih =>
    cases t with
    | nil => cases hlength
    | cons y t =>
      obtain ⟨hx, haRest⟩ := Memory.holds_cons.mp ha
      obtain ⟨hy, hbRest⟩ := Memory.holds_cons.mp hb
      rw [List.length_cons, memcmpLoop, Routine.get_bind_apply, hx, hy]
      by_cases hxy : x = y
      · cases hxy
        rw [if_neg (not_not_intro rfl), order_cons_self]
        exact ih haRest hbRest (Nat.succ.inj hlength)
      · rw [if_pos hxy, order_cons_of_ne hxy, order_of_ne hxy]
        rfl

theorem memcmp_ok (ha : m.Holds a s) (hb : m.Holds b t) (hlength : s.length = t.length)
    (ha0 : a ≠ 0) (hb0 : b ≠ 0) : memcmp a b s.length m = .ok (order s t, m) := by
  rw [memcmp, Routine.bind_of_ok (assertThat_ok (by simp [ha0])),
    Routine.bind_of_ok (assertThat_ok (by simp [hb0])), memcmpLoop_ok ha hb hlength]

/-- The loop of `strcmp` ends where the strings differ, or both end. -/
theorem strcmpLoop_ok (ha : m.Holds a (s ++ [0])) (hb : m.Holds b (t ++ [0])) (hs : 0 ∉ s)
    (ht : 0 ∉ t) (hfuel : s.length < fuel) :
    ∃ a' b', strcmpLoop fuel a b m = .ok ((a', b'), m) ∧ order (m a') (m b') = order s t := by
  induction s generalizing a b t fuel with
  | nil =>
    obtain ⟨fuel, rfl⟩ := Nat.exists_eq_succ_of_ne_zero (Nat.ne_zero_of_lt hfuel)
    have ha0 : m a = 0 := (Memory.holds_cons.mp ha).1
    refine ⟨a, b, ?_, ?_⟩
    · rw [strcmpLoop, Routine.get_bind_apply, if_neg (fun h => h.1 ha0)]
      rfl
    · cases t with
      | nil =>
        rw [ha0, (Memory.holds_cons.mp hb).1]
        rfl
      | cons y t =>
        have hy : y ≠ 0 := fun heq => ht (heq ▸ List.mem_cons_self)
        have hpos : (0 : UInt8) < y := UInt8.pos_iff_ne_zero.mpr hy
        rw [ha0, (Memory.holds_cons.mp hb).1, order_nil_cons]
        exact if_pos hpos
  | cons x s ih =>
    obtain ⟨fuel, rfl⟩ := Nat.exists_eq_succ_of_ne_zero (Nat.ne_zero_of_lt hfuel)
    obtain ⟨hx, haRest⟩ := Memory.holds_cons.mp ha
    have hx0 : x ≠ 0 := fun heq => hs (heq ▸ List.mem_cons_self)
    rw [strcmpLoop, Routine.get_bind_apply]
    cases t with
    | nil =>
      have hb0 : m b = 0 := (Memory.holds_cons.mp hb).1
      refine ⟨a, b, ?_, ?_⟩
      · rw [if_neg (fun h => hx0 (hx.symm.trans (h.2.trans hb0)))]
        rfl
      · have hpos : (0 : UInt8) < x := UInt8.pos_iff_ne_zero.mpr hx0
        rw [hx, hb0, order_cons_nil, order_of_ne hx0, if_pos hpos]
    | cons y t =>
      obtain ⟨hy, hbRest⟩ := Memory.holds_cons.mp hb
      by_cases hxy : x = y
      · cases hxy
        rw [if_pos ⟨by rw [hx]; exact hx0, hx.trans hy.symm⟩, order_cons_self]
        exact ih haRest hbRest (fun h => hs (List.mem_cons_of_mem _ h))
          (fun h => ht (List.mem_cons_of_mem _ h)) (Nat.lt_of_succ_lt_succ hfuel)
      · refine ⟨a, b, ?_, ?_⟩
        · rw [if_neg (fun h => hxy (hx.symm.trans (h.2.trans hy)))]
          rfl
        · rw [hx, hy, order_cons_of_ne hxy]

/-! ### Searching -/

/-- `t` occurs in `s` at `i`, and nowhere before. -/
def FirstAt (t s : List UInt8) (i : Nat) : Prop := t <+: s.drop i ∧ ∀ j < i, ¬ t <+: s.drop j

theorem memcmp_at {i : Nat} (hp : m.Holds p (s ++ [0])) (hq : m.Holds q (t ++ [0]))
    (hi : i + t.length ≤ s.length) (hp0 : p ≠ 0) (hq0 : q ≠ 0) :
    memcmp (p + i) q t.length m = .ok (order ((s.drop i).take t.length) t, m) := by
  have hlength : ((s.drop i).take t.length).length = t.length := by
    rw [List.length_take, List.length_drop]
    omega
  have hpart : m.Holds (p + i) ((s.drop i).take t.length) := by
    intro k hk
    rw [hlength] at hk
    have hbyte := hp (i + k) (by rw [List.length_append]; simp only [List.length_singleton]; omega)
    rw [Nat.add_assoc, hbyte, List.getElem_take, List.getElem_drop, List.getElem_append_left]
  have hcmp := memcmp_ok hpart (Memory.holds_append.mp hq).1 hlength (by omega) hq0
  rw [hlength] at hcmp
  exact hcmp

/-- The loop of `strstr` after `i` rounds. -/
theorem strstrLoop_ok {rounds i : Nat} (hp : m.Holds p (s ++ [0])) (hq : m.Holds q (t ++ [0]))
    (hp0 : p ≠ 0) (hq0 : q ≠ 0) (hrounds : i + rounds + t.length = s.length + 1)
    (hbefore : ∀ j < i, ¬ t <+: s.drop j) :
    ∃ r, strstrLoop p q t.length rounds i m = .ok (r, m) ∧
      ((∃ k, r = some (p + k) ∧ FirstAt t s k) ∨
        r = none ∧ ∀ j < i + rounds, ¬ t <+: s.drop j) := by
  induction rounds generalizing i with
  | zero => exact ⟨none, rfl, .inr ⟨rfl, hbefore⟩⟩
  | succ rounds ih =>
    rw [strstrLoop, Routine.bind_of_ok (memcmp_at hp hq (by omega) hp0 hq0)]
    by_cases hfound : (s.drop i).take t.length = t
    · rw [if_pos (order_eq_zero.mpr hfound)]
      exact ⟨_, rfl, .inl ⟨i, rfl, List.prefix_iff_eq_take.mpr hfound.symm, hbefore⟩⟩
    · rw [if_neg (fun h => hfound (order_eq_zero.mp h))]
      have hhere : ¬ t <+: s.drop i := fun h => hfound (List.prefix_iff_eq_take.mp h).symm
      have hbefore' : ∀ j < i + 1, ¬ t <+: s.drop j := by
        intro j hj
        rcases Nat.lt_succ_iff_lt_or_eq.mp hj with hj | rfl
        · exact hbefore j hj
        · exact hhere
      obtain ⟨r, hloop, hr⟩ := ih (by omega) hbefore'
      exact ⟨r, hloop, hr.imp_right fun hnone => ⟨hnone.1, fun j hj => hnone.2 j (by omega)⟩⟩

/-! ### Joining -/

/-- What `strlcat` leaves in a buffer that the first string does not fill. -/
theorem strlcat_joined {n : Nat} (ht : m.Holds dst (t ++ [0])) (hlt : t.length < size)
    (hn : n = min s.length (size - t.length - 1)) :
    (m.store (dst + t.length) (s.take n ++ [0])).Holds dst ((t ++ s).take (size - 1) ++ [0]) := by
  have hsplit : (t ++ s).take (size - 1) ++ [0] = t ++ (s.take n ++ [0]) := by
    rw [List.take_append, List.take_of_length_le (by omega), List.append_assoc, hn]
    congr 2
    rcases Nat.le_total s.length (size - t.length - 1) with hle | hle
    · rw [Nat.min_eq_left hle, List.take_length, List.take_of_length_le (by omega)]
    · rw [Nat.min_eq_right hle]
      congr 1
      omega
  rw [hsplit]
  refine Memory.holds_append.mpr ⟨?_, Memory.holds_store _ _ _⟩
  exact (Memory.holds_append.mp ht).1.store (.inl (Nat.le_refl _))

end InMemory

/-- The strings `abab`, `bab` and `ab` at 8, 16 and 24. -/
def threeStrings : Memory :=
  ((Memory.store (fun _ => 0) 8 [0x61, 0x62, 0x61, 0x62, 0]).store 16 [0x62, 0x61, 0x62, 0]).store
    24 [0x61, 0x62, 0]

theorem threeStrings_holds : threeStrings.Holds 8 ([0x61, 0x62, 0x61, 0x62] ++ [0]) ∧
    threeStrings.Holds 16 ([0x62, 0x61, 0x62] ++ [0]) ∧
    threeStrings.Holds 24 ([0x61, 0x62] ++ [0]) := by
  simp only [Memory.Holds]
  decide

/-- `memmove` moves bytes as if through a copy of them, however the two places overlap; where it
goes up, it returns the place behind the last byte. -/
theorem memmove_moves {m : Memory} {dst src : Nat} {s : List UInt8} (h : m.Holds src s)
    (hdst : dst ≠ 0 ∨ s = []) (hsrc : src ≠ 0 ∨ s = []) :
    InMemory.memmove dst src s.length m =
      .ok (if dst < src then dst + s.length else dst, m.store dst s) := by
  have hcheckDst : (dst ≠ 0 || s.length = 0) = true := by
    simpa using hdst
  have hcheckSrc : (src ≠ 0 || s.length = 0) = true := by
    simpa using hsrc
  rw [InMemory.memmove, Routine.bind_of_ok (InMemory.assertThat_ok hcheckDst),
    Routine.bind_of_ok (InMemory.assertThat_ok hcheckSrc)]
  by_cases hlt : dst < src
  · rw [if_pos hlt, if_pos hlt, Routine.bind_of_ok (InMemory.memcpyLoop_down h hlt)]
    rfl
  · rw [if_neg hlt, if_neg hlt, InMemory.memmoveLoop_ok h (Nat.le_of_not_lt hlt)]

theorem memmove_moves_overlapping : InMemory.memmove 10 8 4 threeStrings =
    .ok (10, threeStrings.store 10 [0x61, 0x62, 0x61, 0x62]) := by
  have h := (Memory.holds_append.mp threeStrings_holds.1).1
  exact memmove_moves h (.inl (by decide)) (.inl (by decide))

/-- `memcmp` and `strcmp` compare by the lexicographic order of the bytes. -/
theorem strcmp_lexicographic {m : Memory} {a b fuel : Nat} {s t : List UInt8} (ha : a ≠ 0)
    (hb : b ≠ 0) :
    (m.Holds a s → m.Holds b t → s.length = t.length →
      InMemory.memcmp a b s.length m = .ok (InMemory.order s t, m)) ∧
    (m.Holds a (s ++ [0]) → m.Holds b (t ++ [0]) → 0 ∉ s → 0 ∉ t → s.length < fuel →
      InMemory.strcmp fuel a b m = .ok (InMemory.order s t, m)) := by
  refine ⟨fun hs ht hlength => InMemory.memcmp_ok hs ht hlength ha hb,
    fun hs ht hs0 ht0 hfuel => ?_⟩
  obtain ⟨a', b', hloop, horder⟩ := InMemory.strcmpLoop_ok hs ht hs0 ht0 hfuel
  rw [InMemory.strcmp, Routine.bind_of_ok (InMemory.assertThat_ok (by simpa using ha)),
    Routine.bind_of_ok (InMemory.assertThat_ok (by simpa using hb)), Routine.bind_of_ok hloop,
    ← horder]
  rfl

theorem strcmp_lexicographic_greater :
    InMemory.memcmp 16 24 2 threeStrings = .ok (1, threeStrings) ∧
    InMemory.strcmp 4 16 24 threeStrings = .ok (1, threeStrings) := by
  obtain ⟨-, h, h'⟩ := threeStrings_holds
  constructor
  · have hpart : threeStrings.Holds 16 [0x62, 0x61] :=
      (@Memory.holds_append _ _ [0x62, 0x61] [0x62, 0] |>.mp h).1
    exact (@strcmp_lexicographic _ 16 24 0 _ _ (by decide) (by decide)).1 hpart
      (Memory.holds_append.mp h').1 rfl
  · exact (strcmp_lexicographic (by decide) (by decide)).2 h h' (by decide) (by decide) (by decide)

/-- `strstr` finds the first place where one string occurs in the other, and a null pointer only if
there is none. -/
theorem strstr_finds_first {m : Memory} {p q fuel : Nat} {s t : List UInt8}
    (hp : m.Holds p (s ++ [0])) (hq : m.Holds q (t ++ [0])) (hs : 0 ∉ s) (ht : 0 ∉ t) (hp0 : p ≠ 0)
    (hq0 : q ≠ 0) (hsfuel : s.length < fuel) (htfuel : t.length < fuel) :
    ∃ r, InMemory.strstr fuel p q m = .ok (r, m) ∧
      ((∃ i, r = some (p + i) ∧ InMemory.FirstAt t s i) ∨ r = none ∧ ¬ t <:+: s) := by
  rw [InMemory.strstr, Routine.bind_of_ok (InMemory.strlen_ok hp hs hp0 hsfuel),
    Routine.bind_of_ok (InMemory.strlen_ok hq ht hq0 htfuel)]
  by_cases hle : t.length ≤ s.length
  · rw [if_pos hle]
    obtain ⟨r, hloop, hr⟩ := @InMemory.strstrLoop_ok m p q s t (s.length - t.length + 1) 0 hp hq
      hp0 hq0 (by omega) (fun j hj => absurd hj (Nat.not_lt_zero j))
    refine ⟨r, hloop, hr.imp_right fun hnone => ⟨hnone.1, ?_⟩⟩
    rintro ⟨xs, ys, rfl⟩
    simp only [List.length_append] at hnone
    refine hnone.2 xs.length (by omega) ⟨ys, ?_⟩
    rw [List.append_assoc, List.drop_left]
  · rw [if_neg hle]
    exact ⟨none, rfl, .inr ⟨rfl, fun hinfix => hle hinfix.length_le⟩⟩

theorem strstr_finds_first_second : ∃ r, InMemory.strstr 5 8 16 threeStrings =
    .ok (r, threeStrings) ∧
      ((∃ i, r = some (8 + i) ∧ InMemory.FirstAt [0x62, 0x61, 0x62] [0x61, 0x62, 0x61, 0x62] i) ∨
        r = none ∧ ¬ [0x62, 0x61, 0x62] <:+: ([0x61, 0x62, 0x61, 0x62] : List UInt8)) := by
  obtain ⟨h, h', -⟩ := threeStrings_holds
  exact strstr_finds_first h h' (by decide) (by decide) (by decide) (by decide) (by decide)
    (by decide)

/-- `strlcat` leaves as much of the two strings as the buffer takes, always ended, and nothing
elsewhere; it returns how long the whole would be. -/
theorem strlcat_joins {m : Memory} {dst src fuel size : Nat} {s t : List UInt8}
    (hs : m.Holds src (s ++ [0])) (ht : m.Holds dst (t ++ [0])) (hs0 : 0 ∉ s) (ht0 : 0 ∉ t)
    (hsrc : src ≠ 0) (hdst : dst ≠ 0) (hsfuel : s.length < fuel) (htfuel : t.length < fuel)
    (hapart : dst + size ≤ src ∨ src + (s.length + 1) ≤ dst) :
    ∃ m', InMemory.strlcat fuel dst src size m = .ok (s.length + t.length, m') ∧
      (t.length < size → m'.Holds dst ((t ++ s).take (size - 1) ++ [0])) ∧
      (size ≤ t.length → m' = m) ∧ ∀ i, i < dst + t.length ∨ dst + size ≤ i → m' i = m i := by
  rw [InMemory.strlcat, Routine.bind_of_ok (InMemory.assertThat_ok (by simpa using hdst)),
    Routine.bind_of_ok (InMemory.assertThat_ok (by simpa using hsrc)),
    Routine.bind_of_ok (InMemory.strlen_ok hs hs0 hsrc hsfuel),
    Routine.bind_of_ok (InMemory.strlen_ok ht ht0 hdst htfuel)]
  by_cases hlt : t.length < size
  · rw [if_pos ⟨by omega, hlt⟩]
    generalize hn : (if s.length < size - t.length - 1 then s.length
      else size - t.length - 1) = n
    have hmin : n = min s.length (size - t.length - 1) := by
      rw [← hn]
      split_ifs <;> omega
    have hlength : (s.take n).length = n := by
      rw [List.length_take]
      omega
    have htake : m.Holds src (s.take n) := by
      intro i hi
      rw [hlength] at hi
      have hbyte := hs i (by rw [List.length_append]; omega)
      rw [hbyte, List.getElem_take, List.getElem_append_left]
    have hcopy : InMemory.memcpy (dst + t.length) src n m =
        .ok ((), m.store (dst + t.length) (s.take n)) := by
      have hloop := @InMemory.memcpyLoop_ok m (dst + t.length) src (s.take n) htake (by omega)
      rw [hlength] at hloop
      have hcheckDst : (dst + t.length ≠ 0 || n = 0) = true := by simp [hdst]
      have hcheckSrc : (src ≠ 0 || n = 0) = true := by simp [hsrc]
      rw [InMemory.memcpy, Routine.bind_of_ok (InMemory.assertThat_ok hcheckDst),
        Routine.bind_of_ok (InMemory.assertThat_ok hcheckSrc), hloop]
    have hstore : (m.store (dst + t.length) (s.take n)).store (dst + t.length + n) [0] =
        m.store (dst + t.length) (s.take n ++ [0]) := by
      rw [← Memory.store_append, hlength]
    refine ⟨m.store (dst + t.length) (s.take n ++ [0]), ?_, fun _ =>
      InMemory.strlcat_joined ht hlt hmin, fun hle => absurd hlt (Nat.not_lt.mpr hle),
      fun i hi => ?_⟩
    · rw [Routine.bind_of_ok hcopy, InMemory.storeByte, Routine.modify_bind_apply, hstore]
      rfl
    · rw [Memory.store_apply, if_neg]
      rw [List.length_append, hlength, List.length_singleton]
      omega
  · rw [if_neg (fun h => hlt h.2)]
    exact ⟨m, rfl, fun h => absurd h hlt, fun _ => rfl, fun _ _ => rfl⟩

/-- Of `ab`, one byte fits behind `abab`. -/
theorem strlcat_joins_cut : ∃ m', InMemory.strlcat 5 8 24 6 threeStrings = .ok (6, m') ∧
    m'.Holds 8 [0x61, 0x62, 0x61, 0x62, 0x61, 0] := by
  obtain ⟨h, -, h'⟩ := threeStrings_holds
  obtain ⟨m', hrun, hjoined, -⟩ := @strlcat_joins _ 8 24 5 6 _ _ h' h (by decide) (by decide)
    (by decide) (by decide) (by decide) (by decide) (by decide)
  exact ⟨m', hrun, hjoined (by decide)⟩

end Pintos
