import Pintos.Library.Routine

/-! Two runs side by side: a routine, or two routines of one shape, from two related states.  The
rules follow the routines step by step; `Coupled.bind` hands on what the first run did, so facts about
one run can be used on the way.  `execAll_coupled` is for runs of requests. -/

namespace Routine

variable {ε σ τ α β ι : Type} {R S : σ → τ → Prop}

/-- Where the first outcome is without a fault, so is the second, with the same result and with
states related by `R`. -/
def Coupled (R : σ → τ → Prop) (x : Except ε (α × σ)) (y : Except ε (α × τ)) : Prop :=
  ∀ ⦃a s⦄, x = .ok (a, s) → ∃ t, y = .ok (a, t) ∧ R s t

theorem Coupled.of_ok {a : α} {s : σ} {t : τ} (h : R s t) :
    Coupled R (.ok (a, s) : Except ε (α × σ)) (.ok (a, t)) := by
  intro b s' hs
  cases hs
  exact ⟨t, rfl, h⟩

theorem Coupled.of_error {e : ε} {y : Except ε (α × τ)} : Coupled R (.error e) y := nofun

theorem Coupled.bind {x : Routine ε σ α} {y : Routine ε τ α} {f : α → Routine ε σ β}
    {g : α → Routine ε τ β} {s : σ} {t : τ} (h : Coupled R (x s) (y t))
    (hf : ∀ a s1 t1, x s = .ok (a, s1) → R s1 t1 → Coupled S (f a s1) (g a t1)) :
    Coupled S ((x >>= f) s) ((y >>= g) t) := by
  intro b s' hrun
  obtain ⟨a, s1, hx, hfa⟩ := bind_ok.mp hrun
  obtain ⟨t1, hy, hR⟩ := h hx
  rw [bind_of_ok hy]
  exact hf a s1 t1 hx hR hfa

/-- The two runs begin with computations without a state, whose results may differ. -/
theorem Coupled.bind_lift {x : Except ε α} {y : Except ε α} {f : α → Routine ε σ β}
    {g : α → Routine ε τ β} {s : σ} {t : τ} (hxy : ∀ a, x = .ok a → ∃ b, y = .ok b)
    (hf : ∀ a b, x = .ok a → y = .ok b → Coupled S (f a s) (g b t)) :
    Coupled S ((liftM x >>= f : Routine ε σ β) s) ((liftM y >>= g : Routine ε τ β) t) := by
  intro b s' hrun
  obtain ⟨a, s1, hx, hfa⟩ := bind_ok.mp hrun
  have hxa := lift_ok hx
  obtain rfl := lift_state hx
  obtain ⟨c, hyc⟩ := hxy a hxa
  rw [bind_of_ok (lift_of_ok hyc t)]
  exact hf a c hxa hyc hfa

/-- A loop whose passes keep the states related. -/
theorem Coupled.forM {is : List ι} {f : ι → Routine ε σ PUnit} {g : ι → Routine ε τ PUnit}
    (h : ∀ i ∈ is, ∀ s t, R s t → Coupled R (f i s) (g i t)) {s : σ} {t : τ} (hR : R s t) :
    Coupled R (is.forM f s) (is.forM g t) := by
  induction is generalizing s t with
  | nil => exact .of_ok hR
  | cons i is ih =>
    rw [List.forM_eq_forM, List.forM_cons, List.forM_eq_forM, List.forM_cons]
    refine (h i List.mem_cons_self s t hR).bind fun u s1 t1 _ hR1 => ?_
    exact ih (fun j hj => h j (List.mem_cons_of_mem _ hj)) hR1

/-- Two machines that answer alike every request that the first one takes, as long as it may be taken,
answer the whole run alike. -/
theorem execAll_coupled {exec : ι → Routine ε σ α} {exec' : ι → Routine ε τ α} {may : ι → σ → Prop}
    (hstep : ∀ s t i, R s t → may i s → ∃ a s' t', exec i s = .ok (a, s') ∧
      exec' i t = .ok (a, t') ∧ R s' t') {is : List ι} {s : σ} {t : τ}
    (hmay : ∀ i m, Takes exec is s i m → may i m) (hR : R s t) :
    ∃ as s' t', execAll exec is s = .ok (as, s') ∧ execAll exec' is t = .ok (as, t') ∧ R s' t' := by
  induction is generalizing s t with
  | nil => exact ⟨[], s, t, rfl, rfl, hR⟩
  | cons i is ih =>
    obtain ⟨a, s1, t1, hs, ht, h1⟩ := hstep s t i hR (hmay i s ⟨[], is, [], rfl, rfl⟩)
    obtain ⟨as, s2, t2, hs2, ht2, h2⟩ :=
      ih (fun j m hj => hmay j m ((takes_cons_of_ok hs).mpr (.inr hj))) h1
    exact ⟨a :: as, s2, t2, execAll_cons_of_ok hs hs2, execAll_cons_of_ok ht ht2, h2⟩

end Routine
