import Mathlib.Order.Defs.Unbundled
import Pintos.Library.Routine

/-! Weakest preconditions of routines.  A routine meets `Q` and `E` from a state if it returns a
result and a state with `Q`, or stops with a fault that `E` allows.  A routine keeps a relation if
every state that it returns is related to the one it started in. -/

namespace Routine

variable {ε σ α β : Type}

/-- The routine started in `s` returns with `Q` or stops with `E`. -/
def wp (m : Routine ε σ α) (Q : α → σ → Prop) (E : ε → Prop) (s : σ) : Prop :=
  match m s with
  | .ok (a, t) => Q a t
  | .error e => E e

variable {Q Q' : α → σ → Prop} {E : ε → Prop} {s t : σ} {m : Routine ε σ α} {a : α}

theorem wp_of_ok (h : m s = .ok (a, t)) (hQ : Q a t) : wp m Q E s := by
  unfold wp
  rw [h]
  exact hQ

theorem wp.of_ok (h : wp m Q E s) (hrun : m s = .ok (a, t)) : Q a t := by
  unfold wp at h
  rw [hrun] at h
  exact h

theorem wp.of_error (h : wp m Q E s) {e : ε} (hrun : m s = .error e) : E e := by
  unfold wp at h
  rw [hrun] at h
  exact h

theorem wp.mono (h : wp m Q E s) (hQ : ∀ a t, Q a t → Q' a t) : wp m Q' E s := by
  unfold wp at *
  split at h
  · exact hQ _ _ h
  · exact h

theorem wp.mono_fault {E' : ε → Prop} (h : wp m Q E s) (hE : ∀ e, E e → E' e) : wp m Q E' s := by
  unfold wp at *
  split at h
  · exact h
  · exact hE _ h

/-- A routine that does not fault returns. -/
theorem ok_of_wp (h : wp m Q (fun _ => False) s) : ∃ a t, m s = .ok (a, t) ∧ Q a t := by
  rcases hrun : m s with e | ⟨a, t⟩
  · exact (h.of_error hrun).elim
  · exact ⟨a, t, rfl, h.of_ok hrun⟩

@[simp] theorem wp_pure : wp (pure a : Routine ε σ α) Q E s ↔ Q a s := Iff.rfl

@[simp] theorem wp_get {Q : σ → σ → Prop} : wp (get : Routine ε σ σ) Q E s ↔ Q s s := Iff.rfl

@[simp] theorem wp_set {Q : PUnit → σ → Prop} : wp (set t : Routine ε σ PUnit) Q E s ↔ Q ⟨⟩ t :=
  Iff.rfl

@[simp] theorem wp_modify {Q : PUnit → σ → Prop} {f : σ → σ} :
    wp (modify f : Routine ε σ PUnit) Q E s ↔ Q ⟨⟩ (f s) := Iff.rfl

@[simp] theorem wp_bind {f : α → Routine ε σ β} {Q : β → σ → Prop} :
    wp (m >>= f) Q E s ↔ wp m (fun a t => wp (f a) Q E t) E s := by
  unfold wp
  rw [bind_apply]
  cases m s <;> rfl

@[simp] theorem wp_map {f : α → β} {Q : β → σ → Prop} :
    wp (f <$> m) Q E s ↔ wp m (fun a t => Q (f a) t) E s := by
  unfold wp
  rw [map_apply]
  cases m s <;> rfl

theorem wp_discard {Q : Unit → σ → Prop} :
    wp (discard m) Q E s ↔ wp m (fun _ t => Q () t) E s := wp_map

/-- A loop whose passes each keep an invariant. -/
theorem wp_forM {ι : Type} {is : List ι} {f : ι → Routine ε σ PUnit} {P : σ → Prop}
    (hf : ∀ i ∈ is, ∀ s, P s → wp (f i) (fun _ t => P t) E s) (hs : P s) :
    wp (is.forM f) (fun _ t => P t) E s := by
  induction is generalizing s with
  | nil => exact hs
  | cons i is ih =>
    rw [List.forM_eq_forM, List.forM_cons, wp_bind]
    exact (hf i List.mem_cons_self s hs).mono fun _ t ht =>
      ih (fun j hj => hf j (List.mem_cons_of_mem _ hj)) ht

/-- Where every request that a run executes keeps an invariant and does not fault, the run ends. -/
theorem execAll_of_wp {ι : Type} {exec : ι → Routine ε σ α} {P : σ → Prop} {is : List ι}
    (hexec : ∀ i s', Takes exec is s i s' → P s' → wp (exec i) (fun _ t => P t) (fun _ => False) s')
    (hs : P s) : ∃ as t, execAll exec is s = .ok (as, t) := by
  induction is generalizing s with
  | nil => exact ⟨[], s, rfl⟩
  | cons i is ih =>
    have hfirst := hexec i s ⟨[], is, [], rfl, rfl⟩ hs
    rcases hi : exec i s with e | ⟨a, t⟩
    · exact (hfirst.of_error hi).elim
    · obtain ⟨as, u, hrun⟩ := ih (fun j s' hj =>
        hexec j s' ((takes_cons_of_ok hi).mpr (.inr hj))) (hfirst.of_ok hi)
      exact ⟨a :: as, u, execAll_cons_of_ok hi hrun⟩

/-! ### What a routine keeps -/

/-- Where the routine returns, the states before and after are related. -/
def Keeps (R : σ → σ → Prop) (m : Routine ε σ α) : Prop := ∀ s a t, m s = .ok (a, t) → R s t

section Keeps

variable {R R' : σ → σ → Prop} {f : α → Routine ε σ β}

theorem Keeps.mono (h : Keeps R m) (hR : ∀ s t, R s t → R' s t) : Keeps R' m :=
  fun s a t hrun => hR s t (h s a t hrun)

theorem Keeps.throw {e : ε} : Keeps R (throw e : Routine ε σ α) := nofun

/-- A check before the rest of a routine. -/
theorem Keeps.check {c : Prop} [Decidable c] {e : ε} (h : ¬ c → Keeps R m) {g : β → Routine ε σ α} :
    Keeps R (if c then MonadExcept.throw e >>= g else m) := by
  intro s a t hrun
  split_ifs at hrun with hc
  · nomatch hrun
  · exact h hc s a t hrun

theorem Keeps.modify {g : σ → σ} (h : ∀ s, R s (g s)) :
    Keeps R (modify g : Routine ε σ PUnit) := by
  intro s a t hrun
  cases hrun
  exact h s

/-- What follows `get` may use the state. -/
theorem Keeps.get_bind {f : σ → Routine ε σ β} (h : ∀ s b t, f s s = .ok (b, t) → R s t) :
    Keeps R (MonadState.get >>= f) :=
  fun s b t hrun => h s b t hrun

theorem Keeps.map {g : α → β} (h : Keeps R m) : Keeps R (g <$> m) := by
  intro s b t hrun
  rw [map_apply] at hrun
  cases hm : m s with
  | error e => simp [hm] at hrun
  | ok r =>
    rw [hm] at hrun
    cases hrun
    exact h s r.1 r.2 hm

theorem Keeps.ite {c : Prop} [Decidable c] {m' : Routine ε σ α} (h : c → Keeps R m)
    (h' : ¬ c → Keeps R m') : Keeps R (if c then m else m') := by
  split_ifs with hc
  · exact h hc
  · exact h' hc

variable [IsPreorder σ R]

theorem Keeps.pure : Keeps R (Pure.pure a : Routine ε σ α) := by
  intro s b t hrun
  cases hrun
  exact refl_of R s

theorem Keeps.get : Keeps R (MonadState.get : Routine ε σ σ) := by
  intro s b t hrun
  cases hrun
  exact refl_of R s

theorem Keeps.bind (hm : Keeps R m) (hf : ∀ a, Keeps R (f a)) : Keeps R (m >>= f) := by
  intro s b u hrun
  obtain ⟨a, t, hfirst, hrest⟩ := bind_ok.mp hrun
  exact trans_of R (hm s a t hfirst) (hf a t b u hrest)

theorem Keeps.forM {ι : Type} {is : List ι} {f : ι → Routine ε σ PUnit}
    (hf : ∀ i ∈ is, Keeps R (f i)) : Keeps R (is.forM f) := by
  induction is with
  | nil => exact Keeps.pure
  | cons i is ih =>
    rw [List.forM_eq_forM, List.forM_cons]
    refine (hf i List.mem_cons_self).bind fun _ => ?_
    exact ih fun j hj => hf j (List.mem_cons_of_mem _ hj)

end Keeps

/-! ### What a routine does, seen through a relation -/

/-- From every state that shows `d`, the routine returns a result and a state that shows some `d'` with
`Q`, or stops with a fault that `E` allows. -/
def Meets {τ : Type} (R : σ → τ → Prop) (m : Routine ε σ α) (d : τ) (Q : α → τ → Prop)
    (E : ε → Prop) : Prop :=
  ∀ s, R s d → wp m (fun a t => ∃ d', R t d' ∧ Q a d') E s

section Meets

variable {τ : Type} {R : σ → τ → Prop} {d d' : τ} {f : α → Routine ε σ β} {Q Q' : α → τ → Prop}
  {P : β → τ → Prop}

theorem Runs.meets (h : Runs R m d a d') (hQ : Q a d') : Meets R m d Q E := by
  intro s hs
  obtain ⟨s', hrun, hs'⟩ := h s hs
  exact wp_of_ok hrun ⟨d', hs', hQ⟩

theorem Meets.pure (hQ : Q a d) : Meets R (Pure.pure a : Routine ε σ α) d Q E :=
  Runs.pure.meets hQ

theorem Meets.of_error {e : ε} (h : ∀ s, m s = .error e) (hE : E e) : Meets R m d Q E := by
  intro s _
  unfold wp
  rw [h s]
  exact hE

theorem Meets.bind (h : Meets R m d Q E) (hf : ∀ a d', Q a d' → Meets R (f a) d' P E) :
    Meets R (m >>= f) d P E := by
  intro s hs
  rw [wp_bind]
  exact (h s hs).mono fun a t ⟨d', ht, hQ⟩ => hf a d' hQ t ht

theorem Runs.bind_meets (h : Runs R m d a d') (hf : Meets R (f a) d' P E) :
    Meets R (m >>= f) d P E :=
  (h.meets (Q := fun b e => b = a ∧ e = d') ⟨rfl, rfl⟩).bind fun _ _ ⟨ha, hd⟩ => ha ▸ hd ▸ hf

theorem Meets.mono_fault {E' : ε → Prop} (h : Meets R m d Q E) (hE : ∀ e, E e → E' e) :
    Meets R m d Q E' := fun s hs => (h s hs).mono_fault hE

end Meets

end Routine
