import Mathlib.Tactic.Common
import Mathlib.Algebra.Group.Nat.Defs

/-! Memory addressed by bytes: stores of byte lists, what lies at an address, and little-endian
words of four bytes. -/

/-- The byte at each address. -/
abbrev Memory := Nat → UInt8

namespace Memory

/-- `bytes` are copied to address `a`. -/
def store (m : Memory) (a : Nat) (bytes : List UInt8) : Memory := fun i =>
  if a ≤ i ∧ i < a + bytes.length then bytes.getD (i - a) 0 else m i

/-- `bytes` lie at address `a`. -/
def Holds (m : Memory) (a : Nat) (bytes : List UInt8) : Prop :=
  ∀ i, ∀ h : i < bytes.length, m (a + i) = bytes[i]

variable {m m' : Memory} {a b n : Nat} {bytes new xs ys : List UInt8}

theorem store_apply (m : Memory) (a : Nat) (bytes : List UInt8) (i : Nat) :
    m.store a bytes i = if a ≤ i ∧ i < a + bytes.length then bytes.getD (i - a) 0 else m i := rfl

theorem holds_store (m : Memory) (a : Nat) (bytes : List UInt8) :
    (m.store a bytes).Holds a bytes := by
  intro i hi
  rw [store_apply, if_pos ⟨by omega, by omega⟩, Nat.add_sub_cancel_left]
  simp [hi]

theorem Holds.congr (h : m.Holds a bytes) (hsame : ∀ i < bytes.length, m' (a + i) = m (a + i)) :
    m'.Holds a bytes := by
  intro i hi
  rw [hsame i hi]
  exact h i hi

/-- A store elsewhere. -/
theorem Holds.store (h : m.Holds a bytes) (hdisjoint : a + bytes.length ≤ b ∨ b + new.length ≤ a) :
    (m.store b new).Holds a bytes := by
  refine h.congr fun i hi => ?_
  rw [store_apply, if_neg (by omega)]

@[simp] theorem holds_nil (m : Memory) (a : Nat) : m.Holds a [] := fun _ hi => absurd hi (by simp)

theorem holds_singleton {c : UInt8} : m.Holds a [c] ↔ m a = c := by
  constructor
  · intro h
    exact h 0 (by simp)
  · intro h i hi
    obtain rfl : i = 0 := by simpa using hi
    exact h

theorem holds_append : m.Holds a (xs ++ ys) ↔ m.Holds a xs ∧ m.Holds (a + xs.length) ys := by
  constructor
  · intro h
    refine ⟨fun i hi => ?_, fun i hi => ?_⟩
    · rw [h i (by simp; omega), List.getElem_append_left hi]
    · rw [Nat.add_assoc, h (xs.length + i) (by simp; omega), List.getElem_append_right (by omega)]
      simp
  · rintro ⟨hxs, hys⟩ i hi
    by_cases hlt : i < xs.length
    · rw [hxs i hlt, List.getElem_append_left hlt]
    · have hlen : i - xs.length < ys.length := by
        rw [List.length_append] at hi
        omega
      have hbyte := hys (i - xs.length) hlen
      rw [show a + xs.length + (i - xs.length) = a + i by omega] at hbyte
      rw [hbyte, List.getElem_append_right (by omega)]

theorem holds_cons {c : UInt8} : m.Holds a (c :: xs) ↔ m a = c ∧ m.Holds (a + 1) xs := by
  rw [← List.singleton_append, holds_append, holds_singleton]
  rfl

@[simp] theorem store_nil (m : Memory) (a : Nat) : m.store a [] = m := by
  funext i
  rw [store_apply, if_neg (by simp)]

theorem store_cons (m : Memory) (a : Nat) (c : UInt8) (xs : List UInt8) :
    (m.store a [c]).store (a + 1) xs = m.store a (c :: xs) := by
  funext i
  simp only [store_apply, List.length_cons, List.length_nil]
  by_cases hi : i = a
  · have hout : ¬ (a + 1 ≤ i ∧ i < a + 1 + xs.length) := by omega
    have hin : a ≤ i ∧ i < a + (0 + 1) := by omega
    have hin' : a ≤ i ∧ i < a + (xs.length + 1) := by omega
    rw [if_neg hout, if_pos hin, if_pos hin', hi, Nat.sub_self]
    rfl
  · have hne : ¬ (a ≤ i ∧ i < a + (0 + 1)) := by omega
    have hiff : a + 1 ≤ i ∧ i < a + 1 + xs.length ↔ a ≤ i ∧ i < a + (xs.length + 1) := by omega
    rw [if_neg hne]
    simp only [hiff]
    split_ifs with hin
    · have hsub : i - a = i - (a + 1) + 1 := by omega
      rw [hsub, List.getD_cons_succ]
    · rfl

/-- Two stores next to each other. -/
theorem store_append (m : Memory) (a : Nat) (xs ys : List UInt8) :
    (m.store a xs).store (a + xs.length) ys = m.store a (xs ++ ys) := by
  induction xs generalizing m a with
  | nil =>
    rw [store_nil]
    rfl
  | cons c xs ih =>
    have hlength : a + (c :: xs).length = a + 1 + xs.length := by
      rw [List.length_cons]
      omega
    rw [List.cons_append, hlength, ← store_cons m a c xs, ih, store_cons]

/-! ### Several stores -/

/-- Stores one after another. -/
def storeAll (m : Memory) (writes : List (Nat × List UInt8)) : Memory :=
  writes.foldl (fun m w => m.store w.1 w.2) m

/-- Two stores that do not overlap. -/
def Apart (w w' : Nat × List UInt8) : Prop :=
  w.1 + w.2.length ≤ w'.1 ∨ w'.1 + w'.2.length ≤ w.1

/-- What lies apart from all stores stays. -/
theorem Holds.storeAll {writes : List (Nat × List UInt8)} (h : m.Holds a bytes)
    (hapart : ∀ w ∈ writes, Apart (a, bytes) w) : (m.storeAll writes).Holds a bytes := by
  induction writes generalizing m with
  | nil => exact h
  | cons w writes ih =>
    refine ih (h.store (hapart w List.mem_cons_self)) fun w' hw' => ?_
    exact hapart w' (List.mem_cons_of_mem _ hw')

/-- Stores that do not overlap are all there afterwards. -/
theorem holds_storeAll {writes : List (Nat × List UInt8)} (m : Memory)
    (hapart : writes.Pairwise Apart) (hmem : (a, bytes) ∈ writes) :
    (m.storeAll writes).Holds a bytes := by
  induction writes generalizing m with
  | nil => cases hmem
  | cons w writes ih =>
    rw [List.pairwise_cons] at hapart
    rcases List.mem_cons.mp hmem with rfl | hmem
    · exact (holds_store m a bytes).storeAll hapart.1
    · exact ih _ hapart.2 hmem

/-! ### Words -/

/-- The four bytes of a word. -/
def wordBytes (n : Nat) : List UInt8 :=
  [UInt8.ofNat n, UInt8.ofNat (n / 2 ^ 8), UInt8.ofNat (n / 2 ^ 16), UInt8.ofNat (n / 2 ^ 24)]

/-- The word at an address. -/
def word (m : Memory) (a : Nat) : Nat :=
  (m a).toNat + 2 ^ 8 * (m (a + 1)).toNat + 2 ^ 16 * (m (a + 2)).toNat +
    2 ^ 24 * (m (a + 3)).toNat

@[simp] theorem length_wordBytes (n : Nat) : (wordBytes n).length = 4 := rfl

theorem word_of_holds (h : m.Holds a (wordBytes n)) (hn : n < 2 ^ 32) : m.word a = n := by
  have h0 := h 0 (by simp)
  have h1 := h 1 (by simp)
  have h2 := h 2 (by simp)
  have h3 := h 3 (by simp)
  rw [Nat.add_zero] at h0
  rw [word, h0, h1, h2, h3]
  simp [wordBytes]
  omega

theorem word_congr (h : ∀ i < 4, m' (a + i) = m (a + i)) : m'.word a = m.word a := by
  have h0 := h 0 (by omega)
  rw [Nat.add_zero] at h0
  rw [word, word, h0, h 1 (by omega), h 2 (by omega), h 3 (by omega)]

theorem word_lt (m : Memory) (a : Nat) : m.word a < 2 ^ 32 := by
  have h0 := (m a).toNat_lt
  have h1 := (m (a + 1)).toNat_lt
  have h2 := (m (a + 2)).toNat_lt
  have h3 := (m (a + 3)).toNat_lt
  unfold word
  omega

end Memory
