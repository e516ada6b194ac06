import Pintos.Devices.Block
import Pintos.Library.HeapOrder
import Pintos.Library.Memory
import Pintos.Library.Weakest

/-! `sort` and `binary_search` (`lib/stdlib.c`) on an array in memory.  The elements are compared
by their bytes, and touching a byte outside the array is undefined.  The loops get fuel; a loop that
has used it up spins. -/

namespace Pintos

namespace ArraySort

abbrev MemoryRoutine := Routine Fault Memory

/-- A `size_t`. -/
def sizeT (n : Nat) : Nat := n % 2 ^ 32

def assertThat (condition : String) (c : Bool) : MemoryRoutine Unit :=
  if c then pure () else throw (.assertion condition)

/-- An array of `cnt` elements of `size` bytes each. -/
structure ElementArray (size : Nat) where
  array : Nat
  cnt : Nat

namespace ElementArray

variable {size : Nat} (a : ElementArray size)

/-- The bytes are in the array. -/
def Contains (p n : Nat) : Prop := a.array ≤ p ∧ p + n ≤ a.array + a.cnt * size

instance (p n : Nat) : Decidable (a.Contains p n) := inferInstanceAs (Decidable (_ ∧ _))

/-- `*p`. -/
def load (p : Nat) : MemoryRoutine UInt8 := do
  let m ← get
  if a.Contains p 1 then pure (m p) else throw (.undefined "outside of the array")

/-- `*p = c`. -/
def store (p : Nat) (c : UInt8) : MemoryRoutine Unit :=
  if a.Contains p 1 then modify (·.store p [c]) else throw (.undefined "outside of the array")

/-- The element that a comparison reads at `p`. -/
def element (p : Nat) : MemoryRoutine (Vector UInt8 size) := do
  let m ← get
  if a.Contains p size then pure (Vector.ofFn fun i => m (p + i))
  else throw (.undefined "outside of the array")

/-- `array + (idx - 1) * size`. -/
def address (idx : Nat) : Nat := a.array + sizeT (sizeT (idx + (2 ^ 32 - 1)) * size)

/-- The loop of `do_swap`, `left` rounds before its end. -/
def swapLoop (p q : Nat) : (left i : Nat) → MemoryRoutine Unit
  | 0, _ => pure ()
  | left + 1, i => do
    let t ← a.load (p + i)
    a.store (p + i) (← a.load (q + i))
    a.store (q + i) t
    swapLoop p q left (i + 1)

/-- `do_swap`. -/
def doSwap (aIdx bIdx : Nat) : MemoryRoutine Unit :=
  a.swapLoop (a.address aIdx) (a.address bIdx) size 0

section

variable (compare : Vector UInt8 size → Vector UInt8 size → Int)

/-- `do_compare`. -/
def doCompare (aIdx bIdx : Nat) : MemoryRoutine Int := do
  pure (compare (← a.element (a.address aIdx)) (← a.element (a.address bIdx)))

/-- `child`, if it is an index and its element is above the one of `max`, and otherwise `max`. -/
def greater (cnt child max : Nat) : MemoryRoutine Nat :=
  if child ≤ cnt then do
    let cmp ← a.doCompare compare child max
    pure (if 0 < cmp then child else max)
  else pure max

/-- `heapify`. -/
def heapify : (fuel i cnt : Nat) → MemoryRoutine Unit
  | 0, _, _ => throw .spin
  | fuel + 1, i, cnt => do
    let left := sizeT (2 * i)
    let right := sizeT (2 * i + 1)
    let max ← a.greater compare cnt left i
    let max ← a.greater compare cnt right max
    if max = i then pure ()
    else do
      a.doSwap i max
      heapify fuel max cnt

/-- The loop of `sort` that builds a heap. -/
def buildLoop (fuel : Nat) : (i : Nat) → MemoryRoutine Unit
  | 0 => pure ()
  | i + 1 => do
    a.heapify compare fuel (i + 1) a.cnt
    buildLoop fuel i

/-- The loop of `sort` that sorts the heap. -/
def sortLoop (fuel : Nat) : (i : Nat) → MemoryRoutine Unit
  | 0 => pure ()
  | i + 1 =>
    if 1 < i + 1 then do
      a.doSwap 1 (i + 1)
      a.heapify compare fuel 1 i
      sortLoop fuel i
    else pure ()

/-- `sort`. -/
def sort (fuel : Nat) : MemoryRoutine Unit := do
  assertThat "array != NULL || cnt == 0" (a.array ≠ 0 || a.cnt = 0)
  assertThat "size > 0" (0 < size)
  a.buildLoop compare fuel (a.cnt / 2)
  a.sortLoop compare fuel a.cnt

/-- The loop of `binary_search`, with `none` for a null pointer. -/
def searchLoop (key : Vector UInt8 size) : (fuel first last : Nat) → MemoryRoutine (Option Nat)
  | 0, _, _ => throw .spin
  | fuel + 1, first, last =>
    if first < last then
      if 2 ^ 31 ≤ last - first then throw (.undefined "last - first")
      else do
        let range := (last - first) / size
        let middle := first + sizeT (range / 2 * size)
        let cmp := compare key (← a.element middle)
        if cmp < 0 then searchLoop key fuel first middle
        else if 0 < cmp then searchLoop key fuel (middle + size) last
        else pure (some middle)
    else pure none

/-- `binary_search`. -/
def binarySearch (fuel : Nat) (key : Vector UInt8 size) : MemoryRoutine (Option Nat) :=
  a.searchLoop compare key fuel a.array (a.array + sizeT (size * a.cnt))

end

/-! ### Elements -/

/-- The element with the 1-based index `idx`. -/
def elem (m : Memory) (idx : Nat) : Vector UInt8 size :=
  Vector.ofFn fun i => m (a.array + (idx - 1) * size + i)

/-- All elements in order. -/
def elements (m : Memory) : List (Vector UInt8 size) := (List.range' 1 a.cnt).map (a.elem m)

/-- Bytes outside the array are as before. -/
def SameOutside (m m' : Memory) : Prop :=
  ∀ p, p < a.array ∨ a.array + a.cnt * size ≤ p → m' p = m p

/-- An array whose bytes can be counted by an `int`. -/
structure Small : Prop where
  size_pos : 0 < size
  bytes_lt : a.cnt * size < 2 ^ 31

variable {a : ElementArray size} {m m' : Memory} {i j k n fuel p q : Nat}

theorem Small.index_le (h : a.Small) (hk : k ≤ a.cnt) : k * size ≤ a.cnt * size ∧ k < 2 ^ 31 := by
  have hle : k * size ≤ a.cnt * size := Nat.mul_le_mul_right size hk
  have hk' : k ≤ k * size := Nat.le_mul_of_pos_right k h.size_pos
  have := h.bytes_lt
  omega

theorem pred_mul (size : Nat) (hk : 1 ≤ k) : (k - 1) * size + size = k * size := by
  rw [← Nat.succ_mul, Nat.succ_eq_add_one, Nat.sub_add_cancel hk]

theorem Small.address_eq (h : a.Small) (hk : 1 ≤ k) (hcnt : k ≤ a.cnt) :
    a.address k = a.array + (k - 1) * size := by
  obtain ⟨hle, hlt⟩ := h.index_le hcnt
  have hpred := pred_mul size hk
  have hbytes := h.bytes_lt
  have hidx : sizeT (k + (2 ^ 32 - 1)) = k - 1 := by
    simp only [sizeT]
    omega
  rw [address, hidx, sizeT, Nat.mod_eq_of_lt (by omega)]

theorem Small.contains (h : a.Small) (hk : 1 ≤ k) (hcnt : k ≤ a.cnt) :
    a.Contains (a.array + (k - 1) * size) size := by
  obtain ⟨hle, -⟩ := h.index_le hcnt
  have hpred := pred_mul size hk
  simp only [Contains]
  omega

theorem Small.element_ok (h : a.Small) (hk : 1 ≤ k) (hcnt : k ≤ a.cnt) :
    a.element (a.array + (k - 1) * size) m = .ok (a.elem m k, m) := by
  rw [element, Routine.get_bind_apply, if_pos (h.contains hk hcnt)]
  rfl

theorem Small.doCompare_ok (h : a.Small) {compare : Vector UInt8 size → Vector UInt8 size → Int}
    (hi : 1 ≤ i) (hicnt : i ≤ a.cnt) (hj : 1 ≤ j) (hjcnt : j ≤ a.cnt) :
    a.doCompare compare i j m = .ok (compare (a.elem m i) (a.elem m j), m) := by
  rw [doCompare, h.address_eq hi hicnt, h.address_eq hj hjcnt,
    Routine.bind_of_ok (h.element_ok hi hicnt), Routine.bind_of_ok (h.element_ok hj hjcnt)]
  rfl

/-! ### Swapping -/

theorem load_ok (h : a.Contains p 1) : a.load p m = .ok (m p, m) := by
  rw [load, Routine.get_bind_apply, if_pos h]
  rfl

theorem store_ok {c : UInt8} (h : a.Contains p 1) : a.store p c m = .ok ((), m.store p [c]) := by
  rw [store, if_pos h]
  rfl

theorem store_singleton_apply (m : Memory) (p : Nat) (c : UInt8) (x : Nat) :
    m.store p [c] x = if x = p then c else m x := by
  rw [Memory.store_apply]
  by_cases hx : x = p
  · rw [if_pos hx, if_pos (by simp; omega), hx, Nat.sub_self]
    rfl
  · rw [if_neg hx, if_neg (by simp; omega)]

/-- The bytes of two ranges without a common one are swapped from the `i`-th on. -/
theorem swapLoop_ok {left : Nat} (hp : a.Contains (p + i) left) (hq : a.Contains (q + i) left)
    (hapart : p + i + left ≤ q + i ∨ q + i + left ≤ p + i) :
    ∃ m', a.swapLoop p q left i m = .ok ((), m') ∧
      ∀ x, m' x = if p + i ≤ x ∧ x < p + i + left then m (q + (x - p))
        else if q + i ≤ x ∧ x < q + i + left then m (p + (x - q)) else m x := by
  induction left generalizing m i with
  | zero =>
    refine ⟨m, rfl, fun x => ?_⟩
    rw [if_neg (by omega), if_neg (by omega)]
  | succ left ih =>
    simp only [Contains] at hp hq
    have hp1 : a.Contains (p + i) 1 := by simp only [Contains]; omega
    have hq1 : a.Contains (q + i) 1 := by simp only [Contains]; omega
    obtain ⟨m', hrun, hbytes⟩ := @ih ((m.store (p + i) [m (q + i)]).store (q + i) [m (p + i)])
      (i + 1) (by simp only [Contains]; omega) (by simp only [Contains]; omega) (by omega)
    refine ⟨m', ?_, fun x => ?_⟩
    · rw [swapLoop, Routine.bind_of_ok (load_ok hp1), Routine.bind_of_ok (load_ok hq1),
        Routine.bind_of_ok (store_ok hp1), Routine.bind_of_ok (store_ok hq1), hrun]
    · rw [hbytes]
      simp only [store_singleton_apply]
      split_ifs <;> first | rfl | omega | (congr 1; omega)

theorem elem_congr (h : ∀ i < size, m' (a.array + (k - 1) * size + i) =
    m (a.array + (j - 1) * size + i)) : a.elem m' k = a.elem m j := by
  rw [elem, elem]
  refine Vector.ext fun i hi => ?_
  rw [Vector.getElem_ofFn, Vector.getElem_ofFn]
  exact h i hi

/-- Elements do not overlap. -/
theorem elem_apart (hj : 1 ≤ j) (hjk : j < k) : (j - 1) * size + size ≤ (k - 1) * size := by
  rw [pred_mul size hj]
  exact Nat.mul_le_mul_right size (by omega)

theorem Small.doSwap_ok (h : a.Small) (hi : 1 ≤ i) (hicnt : i ≤ a.cnt) (hj : 1 ≤ j)
    (hjcnt : j ≤ a.cnt) (hij : i ≠ j) :
    ∃ m', a.doSwap i j m = .ok ((), m') ∧ HeapOrder.Swaps (a.elem m) (a.elem m') a.cnt i j ∧
      a.SameOutside m m' := by
  have hapart : ∀ {k l : Nat}, 1 ≤ k → 1 ≤ l → k ≠ l →
      (k - 1) * size + size ≤ (l - 1) * size ∨ (l - 1) * size + size ≤ (k - 1) * size := by
    intro k l hk hl hkl
    rcases Nat.lt_or_gt_of_ne hkl with hlt | hlt
    · exact .inl (elem_apart hk hlt)
    · exact .inr (elem_apart hl hlt)
  have hci := h.contains hi hicnt
  have hcj := h.contains hj hjcnt
  have hijApart := hapart hi hj hij
  obtain ⟨m', hrun, hbytes⟩ := @swapLoop_ok size a m 0 (a.array + (i - 1) * size)
    (a.array + (j - 1) * size) size hci hcj (by omega)
  simp only [Nat.add_zero] at hbytes
  refine ⟨m', ?_, ⟨?_, ?_, ?_⟩, ?_⟩
  · rw [doSwap, h.address_eq hi hicnt, h.address_eq hj hjcnt, hrun]
  · refine elem_congr fun x hx => ?_
    rw [hbytes, if_pos (by omega)]
    congr 1
    omega
  · refine elem_congr fun x hx => ?_
    rw [hbytes, if_neg (by omega), if_pos (by omega)]
    congr 1
    omega
  · intro k hk hkcnt hki hkj
    have hkiApart := hapart hk hi hki
    have hkjApart := hapart hk hj hkj
    refine elem_congr fun x hx => ?_
    rw [hbytes, if_neg (by omega), if_neg (by omega)]
  · intro x hx
    simp only [Contains] at hci hcj
    rw [hbytes, if_neg (by omega), if_neg (by omega)]

theorem SameOutside.refl (m : Memory) : a.SameOutside m m := fun _ _ => rfl

theorem SameOutside.trans {m'' : Memory} (h : a.SameOutside m m') (h' : a.SameOutside m' m'') :
    a.SameOutside m m'' :=
  fun p hp => (h' p hp).trans (h p hp)

/-! ### Sorting -/

section

/-- A `strcmp`-type comparison for a total preorder. -/
structure Comparison (compare : Vector UInt8 size → Vector UInt8 size → Int) : Prop where
  swap : ∀ a b, 0 < compare a b ↔ compare b a < 0
  trans : ∀ a b c, compare a b ≤ 0 → compare b c ≤ 0 → compare a c ≤ 0

variable {compare : Vector UInt8 size → Vector UInt8 size → Int}

/-- Not above. -/
def Below (compare : Vector UInt8 size → Vector UInt8 size → Int) (x y : Vector UInt8 size) :
    Prop := compare x y ≤ 0

theorem Comparison.refl (hcompare : Comparison compare) (x : Vector UInt8 size) :
    Below compare x x := by
  by_contra hpos
  have := (hcompare.swap x x).mp (Int.not_le.mp hpos)
  simp only [Below] at hpos
  omega

/-- What is above an element is not below it. -/
theorem Comparison.below_of_pos (hcompare : Comparison compare) {x y : Vector UInt8 size}
    (h : 0 < compare x y) : Below compare y x :=
  Int.le_of_lt ((hcompare.swap x y).mp h)

theorem Comparison.neg_of_below (hcompare : Comparison compare) {x y z : Vector UInt8 size}
    (hxy : compare x y < 0) (hyz : Below compare y z) : compare x z < 0 := by
  by_contra hxz
  have hzx : Below compare z x := by
    by_contra hpos
    exact hxz ((hcompare.swap z x).mp (Int.not_le.mp hpos))
  have hyx := hcompare.trans _ _ _ hyz hzx
  have := (hcompare.swap y x).mpr hxy
  omega

theorem Comparison.pos_of_below (hcompare : Comparison compare) {x y z : Vector UInt8 size}
    (hxy : 0 < compare x y) (hzy : Below compare z y) : 0 < compare x z := by
  by_contra hxz
  have := hcompare.trans _ _ _ (Int.not_lt.mp hxz) hzy
  omega

/-- The greater one of `max` and a child that may not be there. -/
theorem Small.greater_ok (h : a.Small) (hcompare : Comparison compare) {max child : Nat}
    (hmax : 1 ≤ max) (hchild : 1 ≤ child) (hn : n ≤ a.cnt) (hlt : child ≤ n → max ≤ a.cnt) :
    ∃ r, a.greater compare n child max m = .ok (r, m) ∧ (r = max ∨ r = child ∧ child ≤ n) ∧
      Below compare (a.elem m max) (a.elem m r) ∧
      (child ≤ n → Below compare (a.elem m child) (a.elem m r)) := by
  rw [greater]
  by_cases hle : child ≤ n
  · rw [if_pos hle, Routine.bind_of_ok (h.doCompare_ok hchild (hle.trans hn) hmax (hlt hle))]
    by_cases hpos : 0 < compare (a.elem m child) (a.elem m max)
    · rw [if_pos hpos]
      exact ⟨child, rfl, .inr ⟨rfl, hle⟩, hcompare.below_of_pos hpos, fun _ => hcompare.refl _⟩
    · rw [if_neg hpos]
      exact ⟨max, rfl, .inl rfl, hcompare.refl _, fun _ => Int.not_lt.mp hpos⟩
  · rw [if_neg hle]
    exact ⟨max, rfl, .inl rfl, hcompare.refl _, fun hle' => absurd hle' hle⟩

/-- `heapify` repairs a heap in which only the children of `i` may be above their parent. -/
theorem Small.heapify_ok (h : a.Small) (hcompare : Comparison compare) {s : Nat}
    (hheap : HeapOrder.HeapExcept (Below compare) (a.elem m) s n i) (hs : 1 ≤ s) (hsi : s ≤ i)
    (hin : i ≤ n) (hn : n ≤ a.cnt) (hfuel : n - i < fuel) :
    ∃ m', a.heapify compare fuel i n m = .ok ((), m') ∧
      HeapOrder.HeapFrom (Below compare) (a.elem m') s n ∧
      HeapOrder.Shuffles (a.elem m) (a.elem m') a.cnt s n ∧ a.SameOutside m m' := by
  induction fuel generalizing m i with
  | zero => nomatch hfuel
  | succ fuel ih =>
    have hsmall := (h.index_le hn).2
    have hleft : sizeT (2 * i) = 2 * i := Nat.mod_eq_of_lt (by omega)
    have hright : sizeT (2 * i + 1) = 2 * i + 1 := Nat.mod_eq_of_lt (by omega)
    obtain ⟨max₁, hrun₁, hmax₁, hbelow₁, hleft₁⟩ := @Small.greater_ok size a m n compare h
      hcompare i (2 * i) (by omega) (by omega) hn fun _ => by omega
    obtain ⟨max, hrun, hmax, hbelow, hright₂⟩ := @Small.greater_ok size a m n compare h
      hcompare max₁ (2 * i + 1) (by omega) (by omega) hn fun _ => by omega
    have hgreatest : ∀ k ≤ n, k / 2 = i → Below compare (a.elem m k) (a.elem m max) := by
      intro k hk hki
      rcases (show k = 2 * i ∨ k = 2 * i + 1 by omega) with rfl | rfl
      · exact hcompare.trans _ _ _ (hleft₁ hk) hbelow
      · exact hright₂ hk
    rw [heapify, hleft, hright, Routine.bind_of_ok hrun₁, Routine.bind_of_ok hrun]
    by_cases hdone : max = i
    · rw [if_pos hdone]
      refine ⟨m, rfl, hheap.heap fun k hk hki => ?_, .refl .., .refl m⟩
      have hchild := hgreatest k hk hki
      rwa [hdone] at hchild
    · have hchild : max ≤ n ∧ max / 2 = i := by omega
      have hi : Below compare (a.elem m i) (a.elem m max) := hcompare.trans _ _ _ hbelow₁ hbelow
      obtain ⟨m₁, hswapRun, hswap, hsame⟩ := @Small.doSwap_ok size a m i max h (by omega) (by omega)
        (by omega) (by omega) (Ne.symm hdone)
      have hheap₁ := hheap.down hswap hs hsi hn hchild.1 hchild.2 hi hgreatest
      obtain ⟨m', hrun', hheap', hshuffles, hsame'⟩ := ih hheap₁ (by omega) hchild.1 (by omega)
      have hswapped : HeapOrder.Shuffles (a.elem m) (a.elem m₁) a.cnt s n :=
        hswap.shuffles ⟨hsi, hin⟩ ⟨by omega, hchild.1⟩ hs hn
      refine ⟨m', ?_, hheap', hswapped.trans hshuffles, hsame.trans hsame'⟩
      rw [if_neg hdone, Routine.bind_of_ok hswapRun, hrun']

/-- The array is a heap from behind the index `i` on; the loop makes it a heap from the first
element on. -/
theorem Small.buildLoop_ok (h : a.Small) (hcompare : Comparison compare)
    (hheap : HeapOrder.HeapFrom (Below compare) (a.elem m) (i + 1) a.cnt) (hi : i ≤ a.cnt)
    (hfuel : a.cnt < fuel) :
    ∃ m', a.buildLoop compare fuel i m = .ok ((), m') ∧
      HeapOrder.HeapFrom (Below compare) (a.elem m') 1 a.cnt ∧
      HeapOrder.Shuffles (a.elem m) (a.elem m') a.cnt 1 a.cnt ∧ a.SameOutside m m' := by
  induction i generalizing m with
  | zero => exact ⟨m, rfl, hheap, .refl .., .refl m⟩
  | succ i ih =>
    have hfuel₁ : a.cnt - (i + 1) < fuel := by omega
    obtain ⟨m₁, hrun₁, hheap₁, hshuffles₁, hsame₁⟩ := h.heapify_ok hcompare
      (hheap.except (by omega)) (by omega) (le_refl _) hi (le_refl _) hfuel₁
    obtain ⟨m', hrun, hheap', hshuffles, hsame⟩ := ih hheap₁ (by omega)
    refine ⟨m', ?_, hheap', ?_, hsame₁.trans hsame⟩
    · rw [buildLoop, Routine.bind_of_ok hrun₁, hrun]
    · exact (hshuffles₁.mono (by omega) (le_refl _) (le_refl _) (le_refl _)).trans hshuffles

theorem Small.sortLoop_ok (h : a.Small) (hcompare : Comparison compare)
    (htaken : HeapOrder.Taken (Below compare) (a.elem m) a.cnt i) (hi : i ≤ a.cnt)
    (hfuel : a.cnt < fuel) :
    ∃ m', a.sortLoop compare fuel i m = .ok ((), m') ∧
      HeapOrder.Taken (Below compare) (a.elem m') a.cnt 1 ∧
      HeapOrder.Shuffles (a.elem m) (a.elem m') a.cnt 1 a.cnt ∧ a.SameOutside m m' := by
  induction i generalizing m with
  | zero =>
    refine ⟨m, rfl, ⟨fun k hk hsk => by omega, fun j k hj hjk h1k hk => ?_⟩, .refl .., .refl m⟩
    exact htaken.rest j k hj hjk (by omega) hk
  | succ i ih =>
    by_cases hone : 1 < i + 1
    · obtain ⟨m₁, hrun₁, hswap, hsame₁⟩ := @Small.doSwap_ok size a m 1 (i + 1) h (le_refl _)
        (by omega) (by omega) hi (by omega)
      have hexcept : HeapOrder.HeapExcept (Below compare) (a.elem m₁) 1 i 1 := by
        refine ⟨fun k hk h1k hne => ?_, fun k hk hk1 h1 => by omega⟩
        rw [hswap.other k (by omega) (by omega) (by omega) (by omega),
          hswap.other (k / 2) (by omega) (by omega) (by omega) (by omega)]
        exact htaken.heap k (by omega) h1k
      have hfuel₂ : i - 1 < fuel := by omega
      obtain ⟨m₂, hrun₂, hheap₂, hshuffles₂, hsame₂⟩ := h.heapify_ok hcompare hexcept (le_refl _)
        (le_refl _) (by omega) (by omega) hfuel₂
      have htaken₂ := htaken.next hcompare.refl hcompare.trans hi hswap hshuffles₂ hheap₂
      obtain ⟨m', hrun, htaken', hshuffles, hsame⟩ := ih htaken₂ (by omega)
      refine ⟨m', ?_, htaken', ?_, hsame₁.trans (hsame₂.trans hsame)⟩
      · rw [sortLoop, if_pos hone, Routine.bind_of_ok hrun₁, Routine.bind_of_ok hrun₂, hrun]
      · have hswapped : HeapOrder.Shuffles (a.elem m) (a.elem m₁) a.cnt 1 a.cnt :=
          hswap.shuffles ⟨le_refl _, by omega⟩ ⟨by omega, hi⟩ (le_refl _) (le_refl _)
        exact hswapped.trans ((hshuffles₂.mono (le_refl _) (by omega) (le_refl _) (le_refl _)).trans
          hshuffles)
    · obtain rfl : i = 0 := by omega
      rw [sortLoop, if_neg hone]
      exact ⟨m, rfl, htaken, .refl .., .refl m⟩

/-- Elements in order, as a list and by their indices. -/
theorem pairwise_elements : (a.elements m).Pairwise (Below compare) ↔
    ∀ j k, 1 ≤ j → j < k → k ≤ a.cnt → Below compare (a.elem m j) (a.elem m k) := by
  rw [elements, List.pairwise_map]
  constructor
  · intro h j k hj hjk hk
    have hget := List.pairwise_iff_getElem.mp h (j - 1) (k - 1) (by simp; omega) (by simp; omega)
      (by omega)
    simpa [List.getElem_range', Nat.add_sub_cancel' hj,
      Nat.add_sub_cancel' (show 1 ≤ k by omega)] using hget
  · intro h
    refine (List.pairwise_lt_range' (s := 1) (n := a.cnt)).imp_of_mem fun hj hk hjk => ?_
    rw [List.mem_range'_1] at hj hk
    exact h _ _ hj.1 hjk (by omega)

theorem Small.sort_ok (h : a.Small) (hcompare : Comparison compare)
    (harray : a.array ≠ 0 ∨ a.cnt = 0) (hfuel : a.cnt < fuel) :
    ∃ m', a.sort compare fuel m = .ok ((), m') ∧ (a.elements m').Pairwise (Below compare) ∧
      (a.elements m').Perm (a.elements m) ∧ a.SameOutside m m' := by
  have hvoid : HeapOrder.HeapFrom (Below compare) (a.elem m) (a.cnt / 2 + 1) a.cnt :=
    fun k hk hs => by omega
  obtain ⟨m₁, hbuild, hheap, hshuffles₁, hsame₁⟩ := h.buildLoop_ok hcompare hvoid (by omega) hfuel
  obtain ⟨m', hsort, htaken, hshuffles, hsame⟩ := h.sortLoop_ok hcompare
    (HeapOrder.taken_of_heap hheap) (le_refl _) hfuel
  have hcheck : assertThat "array != NULL || cnt == 0" (a.array ≠ 0 || a.cnt = 0) m =
      .ok ((), m) := by
    rw [assertThat, if_pos (by simpa using harray)]
    rfl
  have hsize : assertThat "size > 0" (0 < size) m = .ok ((), m) := by
    rw [assertThat, if_pos (by simpa using h.size_pos)]
    rfl
  refine ⟨m', ?_, pairwise_elements.mpr fun j k hj hjk hk => ?_, (hshuffles₁.trans hshuffles).perm,
    hsame₁.trans hsame⟩
  · rw [sort, Routine.bind_of_ok hcheck, Routine.bind_of_ok hsize, Routine.bind_of_ok hbuild, hsort]
  · exact htaken.rest j k hj hjk (by omega) hk

/-! ### Searching -/

/-- The elements before the index `lo` are below the key, and those from behind `hi` on above it. -/
theorem Small.searchLoop_ok (h : a.Small) (hcompare : Comparison compare)
    (hsorted : ∀ j k, 1 ≤ j → j < k → k ≤ a.cnt → Below compare (a.elem m j) (a.elem m k))
    {key : Vector UInt8 size} {lo hi : Nat} (hlo : lo ≤ hi) (hhi : hi ≤ a.cnt)
    (hbefore : ∀ k, 1 ≤ k → k ≤ lo → 0 < compare key (a.elem m k))
    (hbehind : ∀ k, hi < k → k ≤ a.cnt → compare key (a.elem m k) < 0) (hfuel : hi - lo < fuel) :
    ∃ r, a.searchLoop compare key fuel (a.array + lo * size) (a.array + hi * size) m =
        .ok (r, m) ∧
      match r with
      | some p => ∃ k, 1 ≤ k ∧ k ≤ a.cnt ∧ p = a.array + (k - 1) * size ∧
          compare key (a.elem m k) = 0
      | none => ∀ k, 1 ≤ k → k ≤ a.cnt → compare key (a.elem m k) ≠ 0 := by
  induction fuel generalizing lo hi with
  | zero => nomatch hfuel
  | succ fuel ih =>
    have hhiBytes := (h.index_le hhi).1
    have hbytes := h.bytes_lt
    rw [searchLoop]
    rcases Nat.eq_or_lt_of_le hlo with rfl | hlt
    · rw [if_neg (Nat.lt_irrefl _)]
      refine ⟨none, rfl, fun k hk hkcnt => ?_⟩
      rcases Nat.lt_or_ge lo k with hlok | hklo
      · exact Int.ne_of_lt (hbehind k hlok hkcnt)
      · exact (Int.ne_of_lt (hbefore k hk hklo)).symm
    · have hmul : lo * size < hi * size := Nat.mul_lt_mul_of_pos_right hlt h.size_pos
      have hrange : (a.array + hi * size - (a.array + lo * size)) / size = hi - lo := by
        rw [Nat.add_sub_add_left, ← Nat.sub_mul, Nat.mul_div_cancel _ h.size_pos]
      have hmid : lo + (hi - lo) / 2 + 1 ≤ a.cnt := by omega
      have hhalf : sizeT ((hi - lo) / 2 * size) = (hi - lo) / 2 * size := by
        have hle := (h.index_le (show (hi - lo) / 2 ≤ a.cnt by omega)).1
        exact Nat.mod_eq_of_lt (by omega)
      have hmiddle : a.array + lo * size + (hi - lo) / 2 * size =
          a.array + (lo + (hi - lo) / 2) * size := by
        rw [Nat.add_mul, Nat.add_assoc]
      rw [if_pos (by omega), if_neg (by omega)]
      dsimp only
      rw [hrange, hhalf, hmiddle]
      generalize hindex : lo + (hi - lo) / 2 = mid at *
      have hread := h.element_ok (m := m) (k := mid + 1) (by omega) hmid
      rw [Nat.add_sub_cancel] at hread
      rw [Routine.bind_of_ok hread]
      by_cases hneg : compare key (a.elem m (mid + 1)) < 0
      · -- the elements from the middle on are above the key
        rw [if_pos hneg]
        refine ih (by omega) (by omega) hbefore (fun k hk hkcnt => ?_) (by omega)
        rcases Nat.eq_or_lt_of_le (show mid + 1 ≤ k by omega) with rfl | hltk
        · exact hneg
        · exact hcompare.neg_of_below hneg (hsorted _ _ (by omega) hltk hkcnt)
      · rw [if_neg hneg]
        by_cases hpos : 0 < compare key (a.elem m (mid + 1))
        · have hnext : a.array + mid * size + size = a.array + (mid + 1) * size := by
            rw [Nat.add_mul, Nat.one_mul, Nat.add_assoc]
          rw [if_pos hpos, hnext]
          refine ih (by omega) hhi (fun k hk hkmid => ?_) hbehind (by omega)
          rcases Nat.eq_or_lt_of_le hkmid with rfl | hltk
          · exact hpos
          · exact hcompare.pos_of_below hpos (hsorted _ _ hk hltk hmid)
        · rw [if_neg hpos]
          refine ⟨some (a.array + mid * size), rfl, mid + 1, by omega, hmid, ?_, by omega⟩
          rw [Nat.add_sub_cancel]

theorem Small.binarySearch_ok (h : a.Small) (hcompare : Comparison compare)
    (hsorted : (a.elements m).Pairwise (Below compare)) (key : Vector UInt8 size)
    (hfuel : a.cnt < fuel) :
    ∃ r, a.binarySearch compare fuel key m = .ok (r, m) ∧
      match r with
      | some p => ∃ k, 1 ≤ k ∧ k ≤ a.cnt ∧ p = a.array + (k - 1) * size ∧
          compare key (a.elem m k) = 0
      | none => ∀ x ∈ a.elements m, compare key x ≠ 0 := by
  have hbytes := h.bytes_lt
  have hlast : sizeT (size * a.cnt) = a.cnt * size := by
    rw [Nat.mul_comm, sizeT, Nat.mod_eq_of_lt (by omega)]
  obtain ⟨r, hrun, hresult⟩ := @Small.searchLoop_ok size a m fuel compare h hcompare
    (pairwise_elements.mp hsorted) key 0 a.cnt (Nat.zero_le _) (le_refl _)
    (fun k hk hk0 => by omega) (fun k hk hkcnt => by omega) (by omega)
  rw [Nat.zero_mul, Nat.add_zero] at hrun
  refine ⟨r, ?_, ?_⟩
  · rw [binarySearch, hlast, hrun]
  · cases r with
    | some p => exact hresult
    | none =>
      intro x hx
      obtain ⟨k, hk, rfl⟩ := List.mem_map.mp hx
      rw [List.mem_range'_1] at hk
      exact hresult k hk.1 (by omega)

end

end ElementArray

open ElementArray

/-- `sort` puts the elements of any array in order, and `binary_search` finds a key there. -/
theorem sort_and_search {size fuel : Nat} {a : ElementArray size}
    {compare : Vector UInt8 size → Vector UInt8 size → Int} (h : a.Small)
    (hcompare : Comparison compare) (harray : a.array ≠ 0 ∨ a.cnt = 0) (hfuel : a.cnt < fuel) :
    (∀ m, ∃ m', a.sort compare fuel m = .ok ((), m') ∧
      (a.elements m').Pairwise (fun x y => compare x y ≤ 0) ∧
      (a.elements m').Perm (a.elements m) ∧ a.SameOutside m m') ∧
    ∀ m key, (a.elements m).Pairwise (fun x y => compare x y ≤ 0) →
      ∃ r, a.binarySearch compare fuel key m = .ok (r, m) ∧
        match r with
        | some p => ∃ k, 1 ≤ k ∧ k ≤ a.cnt ∧ p = a.array + (k - 1) * size ∧
            compare key (a.elem m k) = 0
        | none => ∀ x ∈ a.elements m, compare key x ≠ 0 :=
  ⟨fun _ => h.sort_ok hcompare harray hfuel,
    fun _ key hsorted => h.binarySearch_ok hcompare hsorted key hfuel⟩

/-- Three elements of two bytes at address 16. -/
def threeElements : ElementArray 2 := ⟨16, 3⟩

/-- Only the first byte counts. -/
def byFirst (x y : Vector UInt8 2) : Int := x[0].toNat - y[0].toNat

theorem comparison_byFirst : Comparison byFirst where
  swap x y := by
    simp only [byFirst]
    omega
  trans x y z := by
    simp only [byFirst]
    omega

/-- Twice 2 and once 1. -/
def threeElementsMemory : Memory := Memory.store (fun _ => 0) 16 [2, 7, 2, 8, 1, 9]

theorem sort_and_search_threeElements :
    (∃ m', threeElements.sort byFirst 4 threeElementsMemory = .ok ((), m') ∧
      (threeElements.elements m').Pairwise (fun x y => byFirst x y ≤ 0) ∧
      (threeElements.elements m').Perm (threeElements.elements threeElementsMemory) ∧
      threeElements.SameOutside threeElementsMemory m') ∧
    ∃ r, threeElements.binarySearch byFirst 4 #v[5, 0] (fun _ => 5) = .ok (r, fun _ => 5) ∧
      match r with
      | some p => ∃ k, 1 ≤ k ∧ k ≤ threeElements.cnt ∧ p = threeElements.array + (k - 1) * 2 ∧
          byFirst #v[5, 0] (threeElements.elem (fun _ => 5) k) = 0
      | none => ∀ x ∈ threeElements.elements (fun _ => 5), byFirst #v[5, 0] x ≠ 0 := by
  have h := @sort_and_search 2 4 threeElements byFirst ⟨by decide, by decide⟩ comparison_byFirst
    (.inl (by decide)) (by decide)
  exact ⟨h.1 threeElementsMemory, h.2 (fun _ => 5) #v[5, 0] (by decide)⟩

end ArraySort

end Pintos
