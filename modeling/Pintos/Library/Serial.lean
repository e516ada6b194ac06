import Mathlib.Data.List.Basic
import Mathlib.Tactic.Common

/-! Sequential orders of calls.  A call `i` is an atomic operation `apply i` on a state, with a
result.  An order explains the results that calls had if every call, executed after those before it,
has its result.  A call that changes nothing may be put in later where its result is right. -/

namespace Serial

variable {σ ι ρ : Type} (apply : ι → σ → ρ × σ)

/-- The state after the calls of `order`. -/
def after (s : σ) (order : List ι) : σ := order.foldl (fun s i => (apply i s).2) s

/-- Executed in the order, every call has the result that it had. -/
def Explains (s : σ) (order : List ι) (result : ι → Option ρ) : Prop :=
  ∀ before i rest, order = before ++ i :: rest → result i = some (apply i (after apply s before)).1

/-- State `t` is passed through in the order. -/
def Passes (s : σ) (order : List ι) (t : σ) : Prop :=
  ∃ before rest, order = before ++ rest ∧ after apply s before = t

variable {apply} {s t : σ} {order front back : List ι} {i : ι} {result result' : ι → Option ρ}

theorem after_append (s : σ) (front back : List ι) :
    after apply s (front ++ back) = after apply (after apply s front) back :=
  List.foldl_append

theorem after_concat (s : σ) (order : List ι) (i : ι) :
    after apply s (order ++ [i]) = (apply i (after apply s order)).2 := by
  rw [after_append]
  rfl

theorem passes_last (s : σ) (order : List ι) : Passes apply s order (after apply s order) :=
  ⟨order, [], (List.append_nil _).symm, rfl⟩

theorem Passes.append (h : Passes apply s order t) (back : List ι) :
    Passes apply s (order ++ back) t := by
  obtain ⟨before, rest, rfl, ht⟩ := h
  exact ⟨before, rest ++ back, List.append_assoc _ _ _, ht⟩

/-- A call that changes nothing where it is put in changes nothing. -/
theorem after_insert (hi : (apply i (after apply s front)).2 = after apply s front)
    (back : List ι) : after apply s (front ++ i :: back) = after apply s (front ++ back) := by
  rw [after_append, after_append]
  show after apply (apply i (after apply s front)).2 back = _
  rw [hi]

theorem Passes.insert (h : Passes apply s (front ++ back) t)
    (hi : (apply i (after apply s front)).2 = after apply s front) :
    Passes apply s (front ++ i :: back) t := by
  obtain ⟨before, rest, hsplit, rfl⟩ := h
  rcases List.append_eq_append_iff.mp hsplit with ⟨middle, rfl, rfl⟩ | ⟨middle, rfl, rfl⟩
  · exact ⟨front ++ i :: middle, rest, by simp, after_insert hi middle⟩
  · exact ⟨before, middle ++ i :: back, by simp, rfl⟩

theorem explains_nil (s : σ) (result : ι → Option ρ) : Explains apply s [] result := by
  intro before j rest hsplit
  simp at hsplit

/-- A call comes last. -/
theorem Explains.concat (h : Explains apply s order result)
    (hsame : ∀ j ∈ order, result' j = result j)
    (hi : result' i = some (apply i (after apply s order)).1) :
    Explains apply s (order ++ [i]) result' := by
  intro before j rest hsplit
  rcases List.append_eq_append_iff.mp hsplit with ⟨middle, rfl, hlast⟩ | ⟨middle, rfl, hlast⟩
  · cases middle with
    | nil =>
      rw [List.append_nil]
      cases hlast
      exact hi
    | cons k middle => simp at hlast
  · cases middle with
    | nil =>
      rw [List.append_nil] at hi
      cases hlast
      exact hi
    | cons k middle =>
      cases hlast
      rw [hsame _ (by simp)]
      exact h before _ middle rfl

/-- A call that changes nothing is put in. -/
theorem Explains.insert (h : Explains apply s (front ++ back) result)
    (hsame : ∀ j ∈ front ++ back, result' j = result j)
    (hi : result' i = some (apply i (after apply s front)).1)
    (hnothing : (apply i (after apply s front)).2 = after apply s front) :
    Explains apply s (front ++ i :: back) result' := by
  intro before j rest hsplit
  rcases List.append_eq_append_iff.mp hsplit with ⟨middle, rfl, hlast⟩ | ⟨middle, rfl, hlast⟩
  · cases middle with
    | nil =>
      rw [List.append_nil]
      cases hlast
      exact hi
    | cons k middle =>
      cases hlast
      rw [hsame _ (by simp), after_insert hnothing]
      exact h (front ++ middle) j rest (by simp)
  · cases middle with
    | nil =>
      rw [List.append_nil] at hi
      cases hlast
      exact hi
    | cons k middle =>
      cases hlast
      rw [hsame _ (by simp)]
      exact h before _ (middle ++ back) (by simp)

end Serial
