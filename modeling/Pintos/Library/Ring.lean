import Mathlib.Data.List.Basic
import Mathlib.Logic.Function.Basic

/-! Queues in circular buffers.  Items are put in at `head` and taken out at `tail`; one slot stays
free, so that a full queue is not taken for an empty one. -/

namespace Ring

variable {α : Type} {size head tail pos i : Nat} {buf : Nat → α}

/-- The position after `pos`. -/
def next (size pos : Nat) : Nat := (pos + 1) % size

/-- How many items there are. -/
def count (size head tail : Nat) : Nat := (head + size - tail) % size

/-- The items in the order in which they were put in. -/
def contents (size : Nat) (buf : Nat → α) (head tail : Nat) : List α :=
  (List.range (count size head tail)).map fun i => buf ((tail + i) % size)

theorem wrap_eq (h : pos < 2 * size) : pos % size = if pos < size then pos else pos - size := by
  split_ifs with hlt
  · exact Nat.mod_eq_of_lt hlt
  · rw [Nat.mod_eq_sub_mod (by omega), Nat.mod_eq_of_lt (by omega)]

theorem next_eq (h : pos < size) : next size pos = if pos + 1 < size then pos + 1 else 0 := by
  rw [next, wrap_eq (by omega)]
  split_ifs <;> omega

theorem next_lt (h : pos < size) : next size pos < size := Nat.mod_lt _ (by omega)

theorem count_lt (htail : tail < size) : count size head tail < size := Nat.mod_lt _ (by omega)

section

variable (hhead : head < size) (htail : tail < size)

include hhead htail

theorem count_eq :
    count size head tail = if tail ≤ head then head - tail else head + size - tail := by
  rw [count, wrap_eq (by omega)]
  split_ifs <;> omega

theorem count_put (h : next size head ≠ tail) :
    count size (next size head) tail = count size head tail + 1 := by
  rw [count_eq (next_lt hhead) htail, count_eq hhead htail]
  rw [next_eq hhead] at h ⊢
  split_ifs at h ⊢ <;> omega

theorem count_take (h : head ≠ tail) :
    count size head tail = count size head (next size tail) + 1 := by
  rw [count_eq hhead (next_lt htail), count_eq hhead htail, next_eq htail]
  split_ifs <;> omega

/-- The slot at `head` holds no item. -/
theorem slot_ne_head (h : i < count size head tail) : (tail + i) % size ≠ head := by
  rw [count_eq hhead htail] at h
  rw [wrap_eq (by split_ifs at h <;> omega)]
  split_ifs at h ⊢ <;> omega

/-- The slot behind the last item is the one at `head`. -/
theorem slot_count : (tail + count size head tail) % size = head := by
  have hlt : count size head tail < size := count_lt htail
  rw [wrap_eq (by omega)]
  rw [count_eq hhead htail]
  split_ifs <;> omega

/-- An item that is put in comes last. -/
theorem contents_put (h : next size head ≠ tail) (a : α) :
    contents size (Function.update buf head a) (next size head) tail =
      contents size buf head tail ++ [a] := by
  rw [contents, count_put hhead htail h, List.range_succ, List.map_append, List.map_singleton,
    slot_count hhead htail, Function.update_self, contents]
  refine congrArg (· ++ [a]) (List.map_congr_left fun i hi => ?_)
  exact Function.update_of_ne (slot_ne_head hhead htail (List.mem_range.mp hi)) ..

/-- The item that is taken out came first. -/
theorem contents_take (h : head ≠ tail) :
    contents size buf head tail = buf tail :: contents size buf head (next size tail) := by
  rw [contents, count_take hhead htail h, List.range_succ_eq_map, List.map_cons, Nat.add_zero,
    Nat.mod_eq_of_lt htail, List.map_map, contents]
  refine congrArg (buf tail :: ·) (List.map_congr_left fun i _ => ?_)
  show buf ((tail + (i + 1)) % size) = buf ((next size tail + i) % size)
  rw [next, Nat.mod_add_mod, Nat.add_assoc, Nat.add_comm 1 i]

end

end Ring
