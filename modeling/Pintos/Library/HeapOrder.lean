import Mathlib.Data.List.Nodup
import Mathlib.Data.List.Range
import Mathlib.Logic.Equiv.Basic
import Mathlib.Order.Defs.Unbundled
import Mathlib.Tactic.Common

/-! Binary heaps in arrays that are indexed from 1: the parent of the element `k` is the element
`k / 2`, and no element is above its parent.  Heap sort swaps elements; `Shuffles` says which ones
a sequence of swaps can have moved. -/

namespace HeapOrder

variable {α : Type} {f g h : Nat → α} {s n i j k c lo hi size : Nat}

/-! ### Swaps -/

/-- In an array of `size` elements the two elements are swapped. -/
structure Swaps (f g : Nat → α) (size i j : Nat) : Prop where
  left : g i = f j
  right : g j = f i
  other : ∀ k, 1 ≤ k → k ≤ size → k ≠ i → k ≠ j → g k = f k

/-- The elements from `lo` to `hi` are rearranged, and the others are in their places. -/
structure Shuffles (f g : Nat → α) (size lo hi : Nat) : Prop where
  perm : ((List.range' 1 size).map g).Perm ((List.range' 1 size).map f)
  other : ∀ k, 1 ≤ k → k ≤ size → k < lo ∨ hi < k → g k = f k
  inside : ∀ k, lo ≤ k → k ≤ hi → ∃ j, lo ≤ j ∧ j ≤ hi ∧ g k = f j

theorem Shuffles.refl (f : Nat → α) (size lo hi : Nat) : Shuffles f f size lo hi :=
  ⟨.refl _, fun _ _ _ _ => rfl, fun k hlo hhi => ⟨k, hlo, hhi, rfl⟩⟩

theorem Shuffles.trans (hfg : Shuffles f g size lo hi) (hgh : Shuffles g h size lo hi) :
    Shuffles f h size lo hi where
  perm := hgh.perm.trans hfg.perm
  other k hk hsize hout := (hgh.other k hk hsize hout).trans (hfg.other k hk hsize hout)
  inside k hlo hhi := by
    obtain ⟨j, hloj, hhij, hj⟩ := hgh.inside k hlo hhi
    obtain ⟨l, hlol, hhil, hl⟩ := hfg.inside j hloj hhij
    exact ⟨l, hlol, hhil, hj.trans hl⟩

/-- Fewer elements are rearranged. -/
theorem Shuffles.mono {lo' hi' : Nat} (hfg : Shuffles f g size lo hi) (hlo : lo' ≤ lo)
    (hhi : hi ≤ hi') (hpos : 1 ≤ lo') (hsize : hi' ≤ size) : Shuffles f g size lo' hi' where
  perm := hfg.perm
  other k hk hksize hout := hfg.other k hk hksize (by omega)
  inside k hlok hhik := by
    by_cases hin : lo ≤ k ∧ k ≤ hi
    · obtain ⟨j, hloj, hhij, hj⟩ := hfg.inside k hin.1 hin.2
      exact ⟨j, by omega, by omega, hj⟩
    · exact ⟨k, hlok, hhik, hfg.other k (by omega) (by omega) (by omega)⟩

/-- Swapped places are the same places. -/
theorem map_swap_perm (hi : i ∈ List.range' 1 size) (hj : j ∈ List.range' 1 size) :
    ((List.range' 1 size).map (Equiv.swap i j)).Perm (List.range' 1 size) := by
  have hnodup : (List.range' 1 size).Nodup := List.nodup_range' 1
  have hmem : ∀ k ∈ List.range' 1 size, Equiv.swap i j k ∈ List.range' 1 size := by
    intro k hk
    rcases eq_or_ne k i with rfl | hki
    · rwa [Equiv.swap_apply_left]
    · rcases eq_or_ne k j with rfl | hkj
      · rwa [Equiv.swap_apply_right]
      · rwa [Equiv.swap_apply_of_ne_of_ne hki hkj]
  refine (List.perm_ext_iff_of_nodup (hnodup.map (Equiv.injective _)) hnodup).mpr fun k => ?_
  rw [List.mem_map]
  constructor
  · rintro ⟨l, hl, rfl⟩
    exact hmem l hl
  · intro hk
    exact ⟨Equiv.swap i j k, hmem k hk, Equiv.swap_apply_self i j k⟩

theorem Swaps.shuffles (hswap : Swaps f g size i j) (hin : lo ≤ i ∧ i ≤ hi)
    (hjn : lo ≤ j ∧ j ≤ hi) (hlo : 1 ≤ lo) (hhi : hi ≤ size) : Shuffles f g size lo hi where
  perm := by
    have hmap : (List.range' 1 size).map g =
        ((List.range' 1 size).map (Equiv.swap i j)).map f := by
      rw [List.map_map]
      refine List.map_congr_left fun k hk => ?_
      rw [List.mem_range'_1] at hk
      rw [Function.comp_apply]
      rcases eq_or_ne k i with rfl | hki
      · rw [Equiv.swap_apply_left, hswap.left]
      · rcases eq_or_ne k j with rfl | hkj
        · rw [Equiv.swap_apply_right, hswap.right]
        · rw [Equiv.swap_apply_of_ne_of_ne hki hkj, hswap.other k hk.1 (by omega) hki hkj]
    rw [hmap]
    refine (map_swap_perm ?_ ?_).map f
    · rw [List.mem_range'_1]
      omega
    · rw [List.mem_range'_1]
      omega
  other k hk hsize hout := hswap.other k hk hsize (by omega) (by omega)
  inside k hlok hhik := by
    rcases eq_or_ne k i with rfl | hki
    · exact ⟨j, hjn.1, hjn.2, hswap.left⟩
    · rcases eq_or_ne k j with rfl | hkj
      · exact ⟨i, hin.1, hin.2, hswap.right⟩
      · exact ⟨k, hlok, hhik, hswap.other k (by omega) (by omega) hki hkj⟩

/-! ### Heaps -/

variable {le : α → α → Prop}

/-- Among the first `n` elements, none is above its parent if the parent is at `s` or behind. -/
def HeapFrom (le : α → α → Prop) (f : Nat → α) (s n : Nat) : Prop :=
  ∀ k ≤ n, s ≤ k / 2 → le (f k) (f (k / 2))

/-- Only children of `i` may be above their parent, and they are not above the one of `i`. -/
structure HeapExcept (le : α → α → Prop) (f : Nat → α) (s n i : Nat) : Prop where
  except : ∀ k ≤ n, s ≤ k / 2 → k / 2 ≠ i → le (f k) (f (k / 2))
  grand : ∀ k ≤ n, k / 2 = i → s ≤ i / 2 → le (f k) (f (i / 2))

/-- The heap of one parent more, except for this parent. -/
theorem HeapFrom.except (hheap : HeapFrom le f (s + 1) n) (hs : 1 ≤ s) :
    HeapExcept le f s n s where
  except k hk hsk hne := hheap k hk (by omega)
  grand k hk hki hss := by omega

theorem HeapExcept.heap (hheap : HeapExcept le f s n i)
    (hchildren : ∀ k ≤ n, k / 2 = i → le (f k) (f i)) : HeapFrom le f s n := by
  intro k hk hs
  by_cases hki : k / 2 = i
  · rw [hki]
    exact hchildren k hk hki
  · exact hheap.except k hk hs hki

/-- The element `i` is swapped with its greatest child. -/
theorem HeapExcept.down (hheap : HeapExcept le f s n i) (hswap : Swaps f g size i c)
    (hs : 1 ≤ s) (hsi : s ≤ i) (hn : n ≤ size) (hc : c ≤ n) (hparent : c / 2 = i)
    (hle : le (f i) (f c)) (hgreatest : ∀ k ≤ n, k / 2 = i → le (f k) (f c)) :
    HeapExcept le g s n c where
  except k hk hsk hne := by
    by_cases hki : k / 2 = i
    · rw [hki, hswap.left]
      by_cases hkc : k = c
      · rw [hkc, hswap.right]
        exact hle
      · rw [hswap.other k (by omega) (by omega) (by omega) hkc]
        exact hgreatest k hk hki
    · have hparentK : g (k / 2) = f (k / 2) :=
        hswap.other (k / 2) (by omega) (by omega) hki hne
      rw [hparentK]
      by_cases hkeq : k = i
      · rw [hkeq, hswap.left]
        exact hheap.grand c hc hparent (by omega)
      · rw [hswap.other k (by omega) (by omega) hkeq (by omega)]
        exact hheap.except k hk hsk hki
  grand k hk hkc hsc := by
    rw [hparent, hswap.left, hswap.other k (by omega) (by omega) (by omega) (by omega)]
    have hbelow := hheap.except k hk (by omega) (by omega)
    rwa [hkc] at hbelow

/-- The first element of a heap is the greatest. -/
theorem HeapFrom.root (hheap : HeapFrom le f 1 n) (hrefl : ∀ a, le a a)
    (htrans : ∀ a b c, le a b → le b c → le a c) (hk : 1 ≤ k) (hkn : k ≤ n) :
    le (f k) (f 1) := by
  induction k using Nat.strongRecOn with
  | _ k ih =>
    rcases Nat.eq_or_lt_of_le hk with rfl | hlt
    · exact hrefl (f 1)
    · exact htrans _ _ _ (hheap k hkn (by omega)) (ih (k / 2) (by omega) (by omega) (by omega))

/-! ### Taking the greatest elements -/

/-- The first `n` elements are a heap; the others are in order, and not below them. -/
structure Taken (le : α → α → Prop) (f : Nat → α) (size n : Nat) : Prop where
  heap : HeapFrom le f 1 n
  rest : ∀ j k, 1 ≤ j → j < k → n < k → k ≤ size → le (f j) (f k)

theorem taken_of_heap (hheap : HeapFrom le f 1 size) : Taken le f size size :=
  ⟨hheap, fun _ _ _ _ hsize hk => absurd hsize (Nat.not_lt.mpr hk)⟩

/-- The first element is swapped with the last one of the heap, which is then repaired. -/
theorem Taken.next (htaken : Taken le f size (n + 1)) (hrefl : ∀ a, le a a)
    (htrans : ∀ a b c, le a b → le b c → le a c) (hn : n + 1 ≤ size)
    (hswap : Swaps f g size 1 (n + 1)) (hshuffles : Shuffles g h size 1 n)
    (hheap : HeapFrom le h 1 n) : Taken le h size n where
  heap := hheap
  rest j k hj hjk hnk hk := by
    -- `h k` is from behind the heap, or its root
    have hfrom : ∀ l, n + 1 < l → l ≤ size → h l = f l := fun l hl hlsize => by
      rw [hshuffles.other l (by omega) hlsize (.inr (by omega)),
        hswap.other l (by omega) hlsize (by omega) (by omega)]
    have hlast : h (n + 1) = f 1 := by
      rw [hshuffles.other (n + 1) (by omega) hn (.inr (by omega)), hswap.right]
    have hinside : ∀ l, 1 ≤ l → l ≤ n → ∃ l', 1 ≤ l' ∧ l' ≤ n + 1 ∧ h l = f l' := by
      intro l hl hln
      obtain ⟨l', hl', hln', heq⟩ := hshuffles.inside l hl hln
      rcases Nat.eq_or_lt_of_le hl' with rfl | hlt
      · exact ⟨n + 1, by omega, le_refl _, heq.trans hswap.left⟩
      · exact ⟨l', hl', by omega, heq.trans (hswap.other l' hl' (by omega) (by omega) (by omega))⟩
    rcases Nat.eq_or_lt_of_le (show n + 1 ≤ k by omega) with rfl | hlt
    · obtain ⟨l', hl', hln', heq⟩ := hinside j hj (by omega)
      rw [hlast, heq]
      exact htaken.heap.root hrefl htrans hl' hln'
    · rw [hfrom k hlt hk]
      rcases Nat.lt_or_ge n j with hnj | hjn
      · rcases Nat.eq_or_lt_of_le (show n + 1 ≤ j by omega) with rfl | hltj
        · rw [hlast]
          exact htaken.rest 1 k (le_refl _) (by omega) hlt hk
        · rw [hfrom j hltj (by omega)]
          exact htaken.rest j k hj hjk hlt hk
      · obtain ⟨l', hl', hln', heq⟩ := hinside j hj hjn
        rw [heq]
        exact htaken.rest l' k hl' (by omega) hlt hk

end HeapOrder
