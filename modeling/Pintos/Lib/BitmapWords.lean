import Pintos.Devices.Block
import Pintos.Lib.Bitmap
import Pintos.Library.Weakest

/-! Bitmaps packed into words of 32 bits (`lib/kernel/bitmap.c`).  The operations are the ones on
arrays of bits, and change no other bits of the words they write. -/

namespace Pintos

/-- `ELEM_BITS`. -/
abbrev elemBits : Nat := 32

/-- `elem_cnt`. -/
def elemCnt (bitCnt : Nat) : Nat := (bitCnt + elemBits - 1) / elemBits

/-- `struct bitmap` and the array that `bits` points to. -/
structure BitmapWords where
  bitCnt : Nat
  bits : List (BitVec elemBits)
  bitCnt_lt : bitCnt < 2 ^ 32
  length : bits.length = elemCnt bitCnt

namespace BitmapWords

abbrev BitmapRoutine := Routine Fault BitmapWords

/-- A `size_t`. -/
def sizeT (n : Nat) : Nat := n % 2 ^ 32

/-- `BITMAP_ERROR`, which is `SIZE_MAX`. -/
def bitmapError : Nat := 2 ^ 32 - 1

/-- `elem_idx`. -/
def elemIdx (bitIdx : Nat) : Nat := bitIdx / elemBits

/-- `bit_mask`. -/
def bitMask (bitIdx : Nat) : BitVec elemBits := BitVec.ofNat elemBits 1 <<< (bitIdx % elemBits)

def assertThat (condition : String) (c : Bool) : BitmapRoutine Unit :=
  if c then pure () else throw (.assertion condition)

/-- `b->bits[idx]`. -/
def readElem (idx : Nat) : BitmapRoutine (BitVec elemBits) := do
  let b ← get
  match b.bits[idx]? with
  | some e => pure e
  | none => throw (.undefined "b->bits")

/-- The bitmap with another element at `idx`. -/
def setElem (b : BitmapWords) (idx : Nat) (e : BitVec elemBits) : BitmapWords :=
  { b with bits := b.bits.set idx e, length := (List.length_set ..).trans b.length }

/-- `bitmap_mark`. -/
def bitmapMark (bitIdx : Nat) : BitmapRoutine Unit := do
  let idx := elemIdx bitIdx
  let mask := bitMask bitIdx
  let e ← readElem idx
  modify (setElem · idx (e ||| mask))

/-- `bitmap_reset`. -/
def bitmapReset (bitIdx : Nat) : BitmapRoutine Unit := do
  let idx := elemIdx bitIdx
  let mask := bitMask bitIdx
  let e ← readElem idx
  modify (setElem · idx (e &&& ~~~mask))

/-- `bitmap_set`. -/
def bitmapSet (idx : Nat) (value : Bool) : BitmapRoutine Unit := do
  let b ← get
  assertThat "idx < b->bit_cnt" (idx < b.bitCnt)
  if value then bitmapMark idx else bitmapReset idx

/-- `bitmap_test`. -/
def bitmapTest (idx : Nat) : BitmapRoutine Bool := do
  let b ← get
  assertThat "idx < b->bit_cnt" (idx < b.bitCnt)
  let e ← readElem (elemIdx idx)
  pure (e &&& bitMask idx ≠ 0)

/-- The loop of `bitmap_set_multiple`, `left` rounds before its end. -/
def setLoop (start : Nat) (value : Bool) : (left i : Nat) → BitmapRoutine Unit
  | 0, _ => pure ()
  | left + 1, i => do
    bitmapSet (sizeT (start + i)) value
    setLoop start value left (i + 1)

/-- `bitmap_set_multiple`. -/
def bitmapSetMultiple (start cnt : Nat) (value : Bool) : BitmapRoutine Unit := do
  let b ← get
  assertThat "start <= b->bit_cnt" (start ≤ b.bitCnt)
  assertThat "start + cnt <= b->bit_cnt" (sizeT (start + cnt) ≤ b.bitCnt)
  setLoop start value cnt 0

/-- The loop of `bitmap_contains`, `left` rounds before its end. -/
def containsLoop (start : Nat) (value : Bool) : (left i : Nat) → BitmapRoutine Bool
  | 0, _ => pure false
  | left + 1, i => do
    if (← bitmapTest (sizeT (start + i))) = value then pure true
    else containsLoop start value left (i + 1)

/-- `bitmap_contains`. -/
def bitmapContains (start cnt : Nat) (value : Bool) : BitmapRoutine Bool := do
  let b ← get
  assertThat "start <= b->bit_cnt" (start ≤ b.bitCnt)
  assertThat "start + cnt <= b->bit_cnt" (sizeT (start + cnt) ≤ b.bitCnt)
  containsLoop start value cnt 0

/-- The loop of `bitmap_scan`.  Its index wraps around. -/
def scanLoop (last cnt : Nat) (value : Bool) : (fuel i : Nat) → BitmapRoutine Nat
  | 0, _ => throw .spin
  | fuel + 1, i =>
    if i ≤ last then do
      if ¬ (← bitmapContains i cnt !value) then pure i
      else scanLoop last cnt value fuel (sizeT (i + 1))
    else pure bitmapError

/-- `bitmap_scan`. -/
def bitmapScan (fuel start cnt : Nat) (value : Bool) : BitmapRoutine Nat := do
  let b ← get
  assertThat "start <= b->bit_cnt" (start ≤ b.bitCnt)
  if cnt ≤ b.bitCnt then scanLoop (b.bitCnt - cnt) cnt value fuel start
  else pure bitmapError

/-- `bitmap_scan_and_flip`. -/
def bitmapScanAndFlip (fuel start cnt : Nat) (value : Bool) : BitmapRoutine Nat := do
  let idx ← bitmapScan fuel start cnt value
  if idx ≠ bitmapError then bitmapSetMultiple idx cnt !value
  pure idx

/-! ### Bits of words -/

/-- The bit at an index, that may be one behind the end of the bitmap in the last word. -/
def bit (b : BitmapWords) (i : Nat) : Bool :=
  ((b.bits[elemIdx i]?).getD 0).getLsbD (i % elemBits)

/-- The array of bits. -/
def toBitmap (b : BitmapWords) : Bitmap := ⟨b.bitCnt, b.bit⟩

variable {b b' : BitmapWords} {i j start cnt : Nat} {value : Bool}

theorem bitMask_getLsbD (i j : Nat) :
    (bitMask i).getLsbD j = decide (j = i % elemBits) := by
  have hi : i % elemBits < elemBits := Nat.mod_lt i (by decide)
  rw [bitMask, ← BitVec.twoPow_eq, BitVec.getLsbD_twoPow]
  simp [hi, eq_comm]

/-- The test of one bit under its mask. -/
theorem masked (e : BitVec elemBits) (i : Nat) :
    decide (e &&& bitMask i ≠ 0) = e.getLsbD (i % elemBits) := by
  have hi : i % elemBits < elemBits := Nat.mod_lt i (by decide)
  by_cases hbit : e.getLsbD (i % elemBits)
  · rw [hbit, decide_eq_true_eq]
    intro hzero
    have hcontra := congrArg (·.getLsbD (i % elemBits)) hzero
    simp [hbit, bitMask_getLsbD] at hcontra
  · rw [Bool.eq_false_iff.mpr hbit, decide_eq_false_iff_not, not_not]
    refine BitVec.eq_of_getLsbD_eq fun j hj => ?_
    rw [BitVec.getLsbD_and, bitMask_getLsbD]
    by_cases hji : j = i % elemBits
    · simp [hji, hbit]
    · simp [hji]

theorem elemIdx_lt (h : i < b.bitCnt) : elemIdx i < b.bits.length := by
  rw [b.length]
  simp only [elemIdx, elemCnt, elemBits]
  omega

theorem readElem_ok (h : i < b.bitCnt) :
    ∃ e, b.bits[elemIdx i]? = some e ∧ readElem (elemIdx i) b = .ok (e, b) := by
  refine ⟨_, List.getElem?_eq_getElem (elemIdx_lt h), ?_⟩
  rw [readElem, Routine.get_bind_apply, List.getElem?_eq_getElem (elemIdx_lt h)]
  rfl

theorem assertThat_ok {condition : String} {c : Bool} (h : c = true) :
    assertThat condition c b = .ok ((), b) := by
  rw [assertThat, if_pos h]
  rfl

theorem bitmapTest_ok (h : i < b.bitCnt) : bitmapTest i b = .ok (b.bit i, b) := by
  obtain ⟨e, he, hread⟩ := readElem_ok h
  rw [bitmapTest, Routine.get_bind_apply, Routine.bind_of_ok (assertThat_ok (decide_eq_true h)),
    Routine.bind_of_ok hread, masked, bit, he]
  rfl

/-- An element with one bit changed stands for the bits with this one changed. -/
theorem bit_setElem {e e' : BitVec elemBits} (h : b.bits[elemIdx i]? = some e)
    (hbit : ∀ k < elemBits, e'.getLsbD k = if k = i % elemBits then value else e.getLsbD k) :
    (b.setElem (elemIdx i) e').bit j = if j = i then value else b.bit j := by
  have hj : j % elemBits < elemBits := Nat.mod_lt j (by decide)
  have hlt : elemIdx i < b.bits.length := by
    by_contra hge
    rw [List.getElem?_eq_none (by omega)] at h
    nomatch h
  by_cases hword : elemIdx j = elemIdx i
  · have hsame : j % elemBits = i % elemBits ↔ j = i := by
      simp only [elemIdx, elemBits] at hword ⊢
      omega
    rw [bit, setElem, hword, List.getElem?_set_self hlt, Option.getD_some, hbit _ hj, bit, hword, h,
      Option.getD_some]
    simp only [hsame]
  · have hne : j ≠ i := fun heq => hword (heq ▸ rfl)
    rw [bit, setElem, List.getElem?_set_ne (Ne.symm hword), if_neg hne, bit]

theorem bitmapSet_ok (h : i < b.bitCnt) :
    ∃ b', bitmapSet i value b = .ok ((), b') ∧ b'.bitCnt = b.bitCnt ∧
      ∀ j, b'.bit j = if j = i then value else b.bit j := by
  obtain ⟨e, he, hread⟩ := readElem_ok h
  rw [bitmapSet, Routine.get_bind_apply, Routine.bind_of_ok (assertThat_ok (decide_eq_true h))]
  cases value with
  | true =>
    refine ⟨b.setElem (elemIdx i) (e ||| bitMask i), ?_, rfl, fun j => bit_setElem he ?_⟩
    · rw [if_pos rfl, bitmapMark, Routine.bind_of_ok hread]
      rfl
    · intro k hk
      rw [BitVec.getLsbD_or, bitMask_getLsbD]
      split_ifs with hki <;> simp [hki]
  | false =>
    refine ⟨b.setElem (elemIdx i) (e &&& ~~~bitMask i), ?_, rfl, fun j => bit_setElem he ?_⟩
    · rw [if_neg (by decide), bitmapReset, Routine.bind_of_ok hread]
      rfl
    · intro k hk
      rw [BitVec.getLsbD_and, BitVec.getLsbD_not, bitMask_getLsbD]
      split_ifs with hki <;> simp [hki, hk]

/-! ### Groups of bits -/

theorem sizeT_of_le {n : Nat} (h : n ≤ b.bitCnt) : sizeT n = n :=
  Nat.mod_eq_of_lt (h.trans_lt b.bitCnt_lt)

theorem setLoop_ok {left : Nat} (h : start + i + left ≤ b.bitCnt) :
    ∃ b', setLoop start value left i b = .ok ((), b') ∧ b'.bitCnt = b.bitCnt ∧
      ∀ j, b'.bit j = if start + i ≤ j ∧ j < start + i + left then value else b.bit j := by
  induction left generalizing b i with
  | zero =>
    refine ⟨b, rfl, rfl, fun j => ?_⟩
    rw [if_neg (by omega)]
  | succ left ih =>
    obtain ⟨b₁, hset, hcnt₁, hbit₁⟩ := @bitmapSet_ok b (start + i) value (by omega)
    obtain ⟨b', hrun, hcnt, hbit⟩ := @ih b₁ (i + 1) (by omega)
    refine ⟨b', ?_, hcnt.trans hcnt₁, fun j => ?_⟩
    · rw [setLoop, sizeT_of_le (b := b) (by omega), Routine.bind_of_ok hset, hrun]
    · rw [hbit, hbit₁]
      split_ifs <;> first | rfl | omega

/-- `bitmap_set_multiple` sets the bits of the group, and no others. -/
theorem bitmapSetMultiple_ok (h : start + cnt ≤ b.bitCnt) :
    ∃ b', bitmapSetMultiple start cnt value b = .ok ((), b') ∧
      b'.toBitmap = b.toBitmap.setMultiple start cnt value := by
  obtain ⟨b', hrun, hcnt, hbit⟩ := @setLoop_ok b 0 start value cnt h
  refine ⟨b', ?_, ?_⟩
  · rw [bitmapSetMultiple, Routine.get_bind_apply,
      Routine.bind_of_ok (assertThat_ok (decide_eq_true (by omega))), sizeT_of_le h,
      Routine.bind_of_ok (assertThat_ok (decide_eq_true h)), hrun]
  · simp only [toBitmap, Bitmap.setMultiple, hcnt]
    exact congrArg (Bitmap.mk b.bitCnt) (funext hbit)

theorem containsLoop_ok {left : Nat} (h : start + i + left ≤ b.bitCnt) :
    containsLoop start value left i b =
      .ok ((List.range' i left).any fun k => b.bit (start + k) == value, b) := by
  induction left generalizing i with
  | zero => rfl
  | succ left ih =>
    have hi : start + i ≤ b.bitCnt := by omega
    rw [containsLoop, sizeT_of_le hi, Routine.bind_of_ok (bitmapTest_ok (by omega)),
      List.range'_succ, List.any_cons]
    by_cases hbit : b.bit (start + i) = value
    · rw [if_pos hbit, beq_iff_eq.mpr hbit]
      rfl
    · rw [if_neg hbit, ih (by omega), beq_eq_false_iff_ne.mpr hbit]
      rfl

theorem bitmapContains_ok (h : start + cnt ≤ b.bitCnt) :
    bitmapContains start cnt value b = .ok (b.toBitmap.contains start cnt value, b) := by
  rw [bitmapContains, Routine.get_bind_apply,
    Routine.bind_of_ok (assertThat_ok (decide_eq_true (by omega))), sizeT_of_le h,
    Routine.bind_of_ok (assertThat_ok (decide_eq_true h)), containsLoop_ok h, Bitmap.contains,
    List.range_eq_range']
  rfl

/-! ### Scanning -/

theorem scanLoop_ok {last fuel : Nat} (hlast : last + cnt ≤ b.bitCnt) (hcnt : 1 ≤ cnt)
    (hfuel : last + 1 - i < fuel) :
    scanLoop last cnt value fuel i b =
      .ok (((List.range' i (last + 1 - i)).find? fun k => !b.toBitmap.contains k cnt !value).getD
        bitmapError, b) := by
  induction fuel generalizing i with
  | zero => nomatch hfuel
  | succ fuel ih =>
    by_cases hi : i ≤ last
    · have hleft : last + 1 - i = (last + 1 - (i + 1)) + 1 := by omega
      rw [scanLoop, if_pos hi, Routine.bind_of_ok (bitmapContains_ok (by omega)), hleft,
        List.range'_succ]
      by_cases hcontains : b.toBitmap.contains i cnt !value
      · rw [if_neg (not_not.mpr hcontains), sizeT_of_le (b := b) (by omega), ih (by omega),
          List.find?_cons_of_neg (by simpa using hcontains)]
      · rw [if_pos hcontains, List.find?_cons_of_pos (by simpa using hcontains)]
        rfl
    · rw [scanLoop, if_neg hi, Nat.sub_eq_zero_of_le (by omega)]
      rfl

/-- `bitmap_scan` finds what a scan over the array of bits finds. -/
theorem bitmapScan_ok {fuel : Nat} (hstart : start ≤ b.bitCnt) (hcnt : 1 ≤ cnt)
    (hfuel : b.bitCnt < fuel) :
    bitmapScan fuel start cnt value b =
      .ok ((b.toBitmap.scan start cnt value).getD bitmapError, b) := by
  rw [bitmapScan, Routine.get_bind_apply,
    Routine.bind_of_ok (assertThat_ok (decide_eq_true hstart)), Bitmap.scan_eq_range']
  have hsize : b.toBitmap.bitCnt = b.bitCnt := rfl
  rw [hsize]
  by_cases hfits : cnt ≤ b.bitCnt
  · rw [if_pos hfits, if_pos hfits, scanLoop_ok (by omega) hcnt (by omega)]
  · rw [if_neg hfits, if_neg hfits]
    rfl

/-- `bitmap_scan_and_flip` is the one on arrays of bits. -/
theorem bitmapScanAndFlip_ok {fuel : Nat} (hstart : start ≤ b.bitCnt) (hcnt : 1 ≤ cnt)
    (hfuel : b.bitCnt < fuel) :
    match b.toBitmap.scanAndFlip start cnt value with
    | some (i, flipped) => i ≠ bitmapError ∧
        ∃ b', bitmapScanAndFlip fuel start cnt value b = .ok (i, b') ∧ b'.toBitmap = flipped
    | none => bitmapScanAndFlip fuel start cnt value b = .ok (bitmapError, b) := by
  have hscan := @bitmapScan_ok b start cnt value fuel hstart hcnt hfuel
  rw [Bitmap.scanAndFlip]
  cases hfound : b.toBitmap.scan start cnt value with
  | none =>
    rw [hfound] at hscan
    rw [Option.map_none]
    dsimp only
    rw [bitmapScanAndFlip, Routine.bind_of_ok hscan]
    rfl
  | some i =>
    rw [hfound] at hscan
    have hfits : i + cnt ≤ b.bitCnt := (Bitmap.scan_some hfound).2.1.1
    have hne : i ≠ bitmapError := by
      have hlt := b.bitCnt_lt
      simp only [bitmapError]
      omega
    obtain ⟨b', hset, hbits⟩ := @bitmapSetMultiple_ok b i cnt (!value) hfits
    refine ⟨hne, b', ?_, hbits⟩
    rw [bitmapScanAndFlip, Routine.bind_of_ok hscan, Option.getD_some, if_pos hne,
      Routine.bind_of_ok hset]
    rfl

end BitmapWords

open BitmapWords in
/-- The scan finds the first group of `cnt` bits that are `value`, and the flip changes these bits
only. -/
theorem bitmap_scan_first (b : BitmapWords) {start cnt fuel : Nat} (value : Bool)
    (hstart : start ≤ b.bitCnt) (hcnt : 1 ≤ cnt) (hfuel : b.bitCnt < fuel) :
    ∃ r, bitmapScan fuel start cnt value b = .ok (r, b) ∧
      (r ≠ bitmapError ∧ start ≤ r ∧ b.toBitmap.IsGroup r cnt value ∧
          (∀ i, start ≤ i → i < r → ¬ b.toBitmap.IsGroup i cnt value) ∨
        r = bitmapError ∧ ∀ i, start ≤ i → ¬ b.toBitmap.IsGroup i cnt value) ∧
      ∃ b', bitmapScanAndFlip fuel start cnt value b = .ok (r, b') ∧ b'.bitCnt = b.bitCnt ∧
        ∀ i, b'.bit i =
          if r ≠ bitmapError ∧ r ≤ i ∧ i < r + cnt then !value else b.bit i := by
  have hscan := @bitmapScan_ok b start cnt value fuel hstart hcnt hfuel
  have hflip := @bitmapScanAndFlip_ok b start cnt value fuel hstart hcnt hfuel
  rw [Bitmap.scanAndFlip] at hflip
  cases hfound : b.toBitmap.scan start cnt value with
  | none =>
    rw [hfound] at hscan hflip
    refine ⟨bitmapError, hscan, .inr ⟨rfl, fun i hi => Bitmap.scan_none hfound hi⟩, b, hflip, rfl,
      fun i => ?_⟩
    rw [if_neg fun hand => hand.1 rfl]
  | some r =>
    rw [hfound] at hscan hflip
    obtain ⟨hne, b', hrun, hbits⟩ := hflip
    refine ⟨r, hscan, .inl ⟨hne, Bitmap.scan_some hfound⟩, b', hrun,
      congrArg Bitmap.bitCnt hbits, fun i => ?_⟩
    have hbit : b'.bit i = if r ≤ i ∧ i < r + cnt then !value else b.bit i :=
      congrFun (congrArg Bitmap.bits hbits) i
    simpa [hne] using hbit

/-- 40 bits in two words: all but the bits 30 to 34 are set. -/
def fortyBits : BitmapWords where
  bitCnt := 40
  bits := [0x3fffffff, 0xfffffff8]
  bitCnt_lt := by decide
  length := by decide

open BitmapWords in
theorem bitmap_scan_first_fortyBits :
    ∃ r, bitmapScan 41 0 3 false fortyBits = .ok (r, fortyBits) ∧
      (r ≠ bitmapError ∧ 0 ≤ r ∧ fortyBits.toBitmap.IsGroup r 3 false ∧
          (∀ i, 0 ≤ i → i < r → ¬ fortyBits.toBitmap.IsGroup i 3 false) ∨
        r = bitmapError ∧ ∀ i, 0 ≤ i → ¬ fortyBits.toBitmap.IsGroup i 3 false) ∧
      ∃ b', bitmapScanAndFlip 41 0 3 false fortyBits = .ok (r, b') ∧ b'.bitCnt = 40 ∧
        ∀ i, b'.bit i =
          if r ≠ bitmapError ∧ r ≤ i ∧ i < r + 3 then !false else fortyBits.bit i :=
  bitmap_scan_first fortyBits false (by decide) (by decide) (by decide)

end Pintos
