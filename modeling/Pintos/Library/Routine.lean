import Mathlib.Tactic.Common

/-! Routines: computations that read and change a state and may stop with a fault.  The rules
below take a sequence of routines apart: `bind_of_ok` evaluates a sequence whose first routine is
known, and `bind_ok` recovers the middle state of a sequence that ended without a fault.
`execAll` executes a list of requests one after another. -/

/-- A computation on a state `σ` that returns an `α` or stops with a fault `ε`. -/
abbrev Routine (ε σ α : Type) := StateT σ (Except ε) α

namespace Routine

variable {ε σ τ ι α β : Type}

@[simp] theorem pure_apply (a : α) (s : σ) : (pure a : Routine ε σ α) s = .ok (a, s) := rfl

@[simp] theorem throw_apply (e : ε) (s : σ) : (throw e : Routine ε σ α) s = .error e := rfl

@[simp] theorem get_apply (s : σ) : (get : Routine ε σ σ) s = .ok (s, s) := rfl

@[simp] theorem set_apply (s t : σ) : (set t : Routine ε σ PUnit) s = .ok (⟨⟩, t) := rfl

@[simp] theorem modify_apply (f : σ → σ) (s : σ) :
    (modify f : Routine ε σ PUnit) s = .ok (⟨⟩, f s) := rfl

@[simp] theorem map_apply (f : α → β) (x : Routine ε σ α) (s : σ) :
    (f <$> x) s = match x s with
      | .ok (a, t) => .ok (f a, t)
      | .error e => .error e := by
  simp only [Functor.map, StateT.map, bind, Except.bind]
  cases x s <;> rfl

theorem bind_apply (x : Routine ε σ α) (f : α → Routine ε σ β) (s : σ) :
    (x >>= f) s = match x s with
      | .ok (a, t) => f a t
      | .error e => .error e := by
  simp only [bind, StateT.bind, Except.bind]
  cases x s <;> rfl

theorem bind_of_ok {x : Routine ε σ α} {s t : σ} {a : α} (h : x s = .ok (a, t))
    (f : α → Routine ε σ β) : (x >>= f) s = f a t := by
  rw [bind_apply, h]

theorem bind_of_error {x : Routine ε σ α} {s : σ} {e : ε} (h : x s = .error e)
    (f : α → Routine ε σ β) : (x >>= f) s = .error e := by
  rw [bind_apply, h]

@[simp] theorem pure_bind_apply (a : α) (f : α → Routine ε σ β) (s : σ) :
    ((pure a : Routine ε σ α) >>= f) s = f a s := rfl

@[simp] theorem throw_bind_apply (e : ε) (f : α → Routine ε σ β) (s : σ) :
    ((throw e : Routine ε σ α) >>= f) s = .error e := rfl

@[simp] theorem get_bind_apply (f : σ → Routine ε σ β) (s : σ) :
    ((get : Routine ε σ σ) >>= f) s = f s s := rfl

@[simp] theorem set_bind_apply (t : σ) (f : PUnit → Routine ε σ β) (s : σ) :
    ((set t : Routine ε σ PUnit) >>= f) s = f ⟨⟩ t := rfl

@[simp] theorem modify_bind_apply (g : σ → σ) (f : PUnit → Routine ε σ β) (s : σ) :
    ((modify g : Routine ε σ PUnit) >>= f) s = f ⟨⟩ (g s) := rfl

theorem lift_of_ok {x : Except ε α} {a : α} (h : x = .ok a) (s : σ) :
    (liftM x : Routine ε σ α) s = .ok (a, s) := by
  rw [h]
  rfl

theorem lift_of_error {x : Except ε α} {e : ε} (h : x = .error e) (s : σ) :
    (liftM x : Routine ε σ α) s = .error e := by
  rw [h]
  rfl

/-- A computation without a state leaves the state alone. -/
theorem lift_state {x : Except ε α} {s t : σ} {a : α}
    (h : (liftM x : Routine ε σ α) s = .ok (a, t)) : t = s := by
  cases x with
  | error e => cases h
  | ok b =>
    cases h
    rfl

theorem lift_ok {x : Except ε α} {s t : σ} {a : α}
    (h : (liftM x : Routine ε σ α) s = .ok (a, t)) : x = .ok a := by
  cases x with
  | error e => cases h
  | ok b =>
    cases h
    rfl

/-- A sequence that ended without a fault passed through a middle state. -/
theorem bind_ok {x : Routine ε σ α} {f : α → Routine ε σ β} {s u : σ} {b : β} :
    (x >>= f) s = .ok (b, u) ↔ ∃ a t, x s = .ok (a, t) ∧ f a t = .ok (b, u) := by
  rw [bind_apply]
  constructor
  · intro h
    cases hx : x s with
    | error e => simp [hx] at h
    | ok r => exact ⟨r.1, r.2, rfl, by simpa [hx] using h⟩
  · rintro ⟨a, t, hx, hf⟩
    rw [hx]
    exact hf

theorem ok_of_toBool {x : Except ε α} (h : x.toBool = true) : ∃ r, x = .ok r := by
  cases x with
  | error e => cases h
  | ok r => exact ⟨r, rfl⟩

/-- The requests `is`, executed by `exec` one after another, with their results in order. -/
def execAll (exec : ι → Routine ε σ α) : List ι → Routine ε σ (List α)
  | [] => pure []
  | i :: is => do
    let a ← exec i
    let as ← execAll exec is
    pure (a :: as)

variable {exec : ι → Routine ε σ α}

@[simp] theorem execAll_nil (s : σ) : execAll exec [] s = .ok ([], s) := rfl

theorem execAll_cons_ok {i : ι} {is : List ι} {s u : σ} {bs : List α} :
    execAll exec (i :: is) s = .ok (bs, u) ↔
      ∃ a as t, exec i s = .ok (a, t) ∧ execAll exec is t = .ok (as, u) ∧ bs = a :: as := by
  simp only [execAll, bind_ok]
  constructor
  · rintro ⟨a, t, hi, as, v, his, h⟩
    cases h
    exact ⟨a, as, t, hi, his, rfl⟩
  · rintro ⟨a, as, t, hi, his, rfl⟩
    exact ⟨a, t, hi, as, u, his, rfl⟩

theorem execAll_cons_of_ok {i : ι} {is : List ι} {s t u : σ} {a : α} {as : List α}
    (hi : exec i s = .ok (a, t)) (his : execAll exec is t = .ok (as, u)) :
    execAll exec (i :: is) s = .ok (a :: as, u) :=
  execAll_cons_ok.mpr ⟨a, as, t, hi, his, rfl⟩

/-- There is a result for each request. -/
theorem execAll_length {is : List ι} {s u : σ} {as : List α}
    (h : execAll exec is s = .ok (as, u)) : is.length = as.length := by
  induction is generalizing s as with
  | nil =>
    cases h
    rfl
  | cons i is ih =>
    obtain ⟨a, rest, t, -, hrest, rfl⟩ := execAll_cons_ok.mp h
    rw [List.length_cons, List.length_cons, ih hrest]

/-- A run of a list of requests splits where the list does. -/
theorem execAll_append_ok {is js : List ι} {s u : σ} {cs : List α} :
    execAll exec (is ++ js) s = .ok (cs, u) ↔
      ∃ as bs t, execAll exec is s = .ok (as, t) ∧ execAll exec js t = .ok (bs, u) ∧
        cs = as ++ bs := by
  induction is generalizing s cs with
  | nil =>
    constructor
    · intro h
      exact ⟨[], cs, s, rfl, h, rfl⟩
    · rintro ⟨as, bs, t, hs, hjs, rfl⟩
      cases hs
      exact hjs
  | cons i is ih =>
    simp only [List.cons_append, execAll_cons_ok, ih]
    constructor
    · rintro ⟨a, as, t, hi, ⟨as', bs, v, his, hjs, rfl⟩, rfl⟩
      exact ⟨a :: as', bs, v, ⟨a, as', t, hi, his, rfl⟩, hjs, rfl⟩
    · rintro ⟨as, bs, v, ⟨a, as', t, hi, his, rfl⟩, hjs, rfl⟩
      exact ⟨a, as' ++ bs, t, hi, ⟨as', bs, v, his, hjs, rfl⟩, rfl⟩

/-- The run of `is` from `s` executes request `i` in state `m`. -/
def Takes (exec : ι → Routine ε σ α) (is : List ι) (s : σ) (i : ι) (m : σ) : Prop :=
  ∃ before after as, is = before ++ i :: after ∧ execAll exec before s = .ok (as, m)

theorem not_takes_nil {s m : σ} {i : ι} : ¬ Takes exec [] s i m := by
  rintro ⟨before, after, as, h, -⟩
  simp at h

theorem takes_cons_of_ok {i j : ι} {is : List ι} {s t m : σ} {a : α} (hi : exec i s = .ok (a, t)) :
    Takes exec (i :: is) s j m ↔ (j = i ∧ m = s) ∨ Takes exec is t j m := by
  constructor
  · rintro ⟨before, after, as, hsplit, hrun⟩
    cases before with
    | nil =>
      cases hrun
      exact Or.inl ⟨(List.cons_eq_cons.mp hsplit).1.symm, rfl⟩
    | cons i' before =>
      obtain ⟨rfl, rfl⟩ := List.cons_eq_cons.mp hsplit
      obtain ⟨b, bs, u, hi', hbefore, rfl⟩ := execAll_cons_ok.mp hrun
      cases hi.symm.trans hi'
      exact Or.inr ⟨before, after, bs, rfl, hbefore⟩
  · rintro (⟨rfl, rfl⟩ | ⟨before, after, as, rfl, hrun⟩)
    · exact ⟨[], is, [], rfl, rfl⟩
    · exact ⟨i :: before, after, a :: as, rfl, execAll_cons_of_ok hi hrun⟩

theorem takes_cons_of_error {i j : ι} {is : List ι} {s m : σ} {e : ε} (hi : exec i s = .error e) :
    Takes exec (i :: is) s j m ↔ j = i ∧ m = s := by
  constructor
  · rintro ⟨before, after, as, hsplit, hrun⟩
    cases before with
    | nil =>
      cases hrun
      exact ⟨(List.cons_eq_cons.mp hsplit).1.symm, rfl⟩
    | cons i' before =>
      obtain ⟨rfl, rfl⟩ := List.cons_eq_cons.mp hsplit
      obtain ⟨b, bs, u, hi', -⟩ := execAll_cons_ok.mp hrun
      cases hi.symm.trans hi'
  · rintro ⟨rfl, rfl⟩
    exact ⟨[], is, [], rfl, rfl⟩

/-- The run of `is` from `s` passes through state `m` between two requests, or starts or ends
there. -/
def Visits (exec : ι → Routine ε σ α) (is : List ι) (s m : σ) : Prop :=
  ∃ before after as, is = before ++ after ∧ execAll exec before s = .ok (as, m)

theorem visits_nil {s m : σ} : Visits exec [] s m ↔ m = s := by
  constructor
  · rintro ⟨before, after, as, hsplit, hrun⟩
    obtain ⟨rfl, rfl⟩ := List.append_eq_nil_iff.mp hsplit.symm
    cases hrun
    rfl
  · rintro rfl
    exact ⟨[], [], [], rfl, rfl⟩

theorem visits_cons_of_ok {i : ι} {is : List ι} {s t m : σ} {a : α} (hi : exec i s = .ok (a, t)) :
    Visits exec (i :: is) s m ↔ m = s ∨ Visits exec is t m := by
  constructor
  · rintro ⟨before, after, as, hsplit, hrun⟩
    cases before with
    | nil =>
      cases hrun
      exact Or.inl rfl
    | cons i' before =>
      obtain ⟨rfl, rfl⟩ := List.cons_eq_cons.mp hsplit
      obtain ⟨b, bs, u, hi', hbefore, rfl⟩ := execAll_cons_ok.mp hrun
      cases hi.symm.trans hi'
      exact Or.inr ⟨before, after, bs, rfl, hbefore⟩
  · rintro (rfl | ⟨before, after, as, rfl, hrun⟩)
    · exact ⟨[], i :: is, [], rfl, rfl⟩
    · exact ⟨i :: before, after, a :: as, rfl, execAll_cons_of_ok hi hrun⟩

theorem visits_start (is : List ι) (s : σ) : Visits exec is s s := ⟨[], is, [], rfl, rfl⟩

/-- Checks every request of a run where it is executed. -/
def checkAll (exec : ι → Routine ε σ α) (check : ι → σ → Bool) : List ι → σ → Bool
  | [], _ => true
  | i :: is, s =>
    check i s && match exec i s with
      | .ok (_, t) => checkAll exec check is t
      | .error _ => true

theorem of_checkAll {check : ι → σ → Bool} {is : List ι} {s m : σ} {i : ι}
    (h : checkAll exec check is s = true) (htakes : Takes exec is s i m) : check i m = true := by
  induction is generalizing s with
  | nil => exact absurd htakes not_takes_nil
  | cons j is ih =>
    rw [checkAll, Bool.and_eq_true] at h
    obtain ⟨hcheck, hrest⟩ := h
    cases hj : exec j s with
    | error e =>
      obtain ⟨rfl, rfl⟩ := (takes_cons_of_error hj).mp htakes
      exact hcheck
    | ok r =>
      obtain ⟨a, t⟩ := r
      rw [hj] at hrest
      rcases (takes_cons_of_ok hj).mp htakes with ⟨rfl, rfl⟩ | htakes
      · exact hcheck
      · exact ih hrest htakes

/-- What every executed request preserves holds wherever a run executes a request. -/
theorem Takes.invariant {P : σ → Prop} {valid : ι → Prop}
    (hstep : ∀ s i a t, P s → valid i → exec i s = .ok (a, t) → P t) {is : List ι} {s m : σ}
    {j : ι} (hvalid : ∀ i ∈ is, valid i) (hs : P s) (h : Takes exec is s j m) : P m := by
  induction is generalizing s with
  | nil => exact absurd h not_takes_nil
  | cons i is ih =>
    cases hi : exec i s with
    | error e =>
      obtain ⟨-, rfl⟩ := (takes_cons_of_error hi).mp h
      exact hs
    | ok r =>
      rcases (takes_cons_of_ok hi).mp h with ⟨-, rfl⟩ | h
      · exact hs
      · exact ih (fun k hk => hvalid k (List.mem_cons_of_mem _ hk))
          (hstep s i r.1 r.2 hs (hvalid i List.mem_cons_self) hi) h

theorem visits_cons_of_error {i : ι} {is : List ι} {s m : σ} {e : ε} (hi : exec i s = .error e) :
    Visits exec (i :: is) s m ↔ m = s := by
  constructor
  · rintro ⟨before, after, as, hsplit, hrun⟩
    cases before with
    | nil =>
      cases hrun
      rfl
    | cons i' before =>
      obtain ⟨rfl, rfl⟩ := List.cons_eq_cons.mp hsplit
      obtain ⟨b, bs, u, hi', -⟩ := execAll_cons_ok.mp hrun
      cases hi.symm.trans hi'
  · rintro rfl
    exact visits_start _ _

/-- The state after an executed request is passed through. -/
theorem Takes.visits {is : List ι} {s m t : σ} {i : ι} {a : α} (h : Takes exec is s i m)
    (hi : exec i m = .ok (a, t)) : Visits exec is s t := by
  induction is generalizing s with
  | nil => exact absurd h not_takes_nil
  | cons j is ih =>
    cases hj : exec j s with
    | error e =>
      obtain ⟨rfl, rfl⟩ := (takes_cons_of_error hj).mp h
      cases hj.symm.trans hi
    | ok r =>
      refine (visits_cons_of_ok hj).mpr (.inr ?_)
      rcases (takes_cons_of_ok hj).mp h with ⟨rfl, rfl⟩ | h
      · cases hj.symm.trans hi
        exact visits_start is t
      · exact ih h

/-- The state in which a request is executed is passed through. -/
theorem Takes.visits_before {is : List ι} {s m : σ} {i : ι} (h : Takes exec is s i m) :
    Visits exec is s m := by
  obtain ⟨before, after, as, hsplit, hrun⟩ := h
  exact ⟨before, i :: after, as, hsplit, hrun⟩

/-- What every request preserves that is executed where it may be holds wherever such a run
passes. -/
theorem Visits.invariant {P : σ → Prop} {may : ι → σ → Prop}
    (hstep : ∀ s i a t, P s → may i s → exec i s = .ok (a, t) → P t) {is : List ι} {s m : σ}
    (hmay : ∀ i m, Takes exec is s i m → may i m) (hs : P s) (h : Visits exec is s m) : P m := by
  induction is generalizing s with
  | nil =>
    obtain rfl := visits_nil.mp h
    exact hs
  | cons i is ih =>
    cases hi : exec i s with
    | error e =>
      obtain rfl := (visits_cons_of_error hi).mp h
      exact hs
    | ok r =>
      rcases (visits_cons_of_ok hi).mp h with rfl | h
      · exact hs
      · refine ih (fun j m hj => hmay j m ((takes_cons_of_ok hi).mpr (.inr hj))) ?_ h
        exact hstep s i r.1 r.2 hs (hmay i s ((takes_cons_of_ok hi).mpr (.inl ⟨rfl, rfl⟩))) hi

/-- Two machines that answer every request alike, from states related by `R`, answer every list
of requests alike. -/
theorem execAll_simulates {exec' : ι → Routine ε τ α} {R : σ → τ → Prop} {valid : ι → Prop}
    (hstep : ∀ s t i, R s t → valid i → ∃ a s' t', exec i s = .ok (a, s') ∧
      exec' i t = .ok (a, t') ∧ R s' t')
    {is : List ι} {s : σ} {t : τ} (hvalid : ∀ i ∈ is, valid i) (hR : R s t) :
    ∃ as s' t', execAll exec is s = .ok (as, s') ∧ execAll exec' is t = .ok (as, t') ∧
      R s' t' := by
  induction is generalizing s t with
  | nil => exact ⟨[], s, t, rfl, rfl, hR⟩
  | cons i is ih =>
    obtain ⟨a, s1, t1, hs, ht, h1⟩ := hstep s t i hR (hvalid i List.mem_cons_self)
    obtain ⟨as, s2, t2, hs2, ht2, h2⟩ :=
      ih (fun j hj => hvalid j (List.mem_cons_of_mem _ hj)) h1
    exact ⟨a :: as, s2, t2, execAll_cons_of_ok hs hs2, execAll_cons_of_ok ht ht2, h2⟩

/-- What a machine answers from a state, one that follows it answers from a related state. -/
theorem execAll_follows {exec' : ι → Routine ε τ α} {R : σ → τ → Prop}
    (hstep : ∀ s t i a s', R s t → exec i s = .ok (a, s') →
      ∃ t', exec' i t = .ok (a, t') ∧ R s' t')
    {is : List ι} {s s' : σ} {t : τ} {as : List α} (hR : R s t)
    (h : execAll exec is s = .ok (as, s')) :
    ∃ t', execAll exec' is t = .ok (as, t') ∧ R s' t' := by
  induction is generalizing s t as with
  | nil =>
    cases h
    exact ⟨t, rfl, hR⟩
  | cons i is ih =>
    obtain ⟨a, rest, s1, hi, hrest, rfl⟩ := execAll_cons_ok.mp h
    obtain ⟨t1, ht, h1⟩ := hstep s t i a s1 hR hi
    obtain ⟨t', ht', h'⟩ := ih h1 hrest
    exact ⟨t', execAll_cons_of_ok ht ht', h'⟩

theorem Visits.follows {exec' : ι → Routine ε τ α} {R : σ → τ → Prop}
    (hstep : ∀ s t i a s', R s t → exec i s = .ok (a, s') →
      ∃ t', exec' i t = .ok (a, t') ∧ R s' t')
    {is : List ι} {s m : σ} {t : τ} (hR : R s t) (h : Visits exec is s m) :
    ∃ n, Visits exec' is t n ∧ R m n := by
  obtain ⟨before, after, as, hsplit, hrun⟩ := h
  obtain ⟨n, hn, hRn⟩ := execAll_follows hstep hR hrun
  exact ⟨n, ⟨before, after, as, hsplit, hn⟩, hRn⟩

theorem Takes.follows {exec' : ι → Routine ε τ α} {R : σ → τ → Prop}
    (hstep : ∀ s t i a s', R s t → exec i s = .ok (a, s') →
      ∃ t', exec' i t = .ok (a, t') ∧ R s' t')
    {is : List ι} {s m : σ} {t : τ} {i : ι} (hR : R s t) (h : Takes exec is s i m) :
    ∃ n, Takes exec' is t i n ∧ R m n := by
  obtain ⟨before, after, as, hsplit, hrun⟩ := h
  obtain ⟨n, hn, hRn⟩ := execAll_follows hstep hR hrun
  exact ⟨n, ⟨before, after, as, hsplit, hn⟩, hRn⟩

/-! ### Routines seen through a relation -/

/-- From every state that shows `d`, the routine returns `a` in a state that shows `d'`. -/
def Runs (R : σ → τ → Prop) (m : Routine ε σ α) (d : τ) (a : α) (d' : τ) : Prop :=
  ∀ s, R s d → ∃ s', m s = .ok (a, s') ∧ R s' d'

variable {R : σ → τ → Prop} {d d' d'' : τ} {m : Routine ε σ α} {f : α → Routine ε σ β} {a : α}
  {b : β}

theorem Runs.pure : Runs R (Pure.pure a : Routine ε σ α) d a d := fun s hs => ⟨s, rfl, hs⟩

theorem Runs.bind (hm : Runs R m d a d') (hf : Runs R (f a) d' b d'') :
    Runs R (m >>= f) d b d'' := by
  intro s hs
  obtain ⟨s', hrun, hs'⟩ := hm s hs
  rw [bind_of_ok hrun]
  exact hf s' hs'

/-- A sequence that starts with one of two routines. -/
theorem Runs.ite_bind {c : Prop} [Decidable c] {m' : Routine ε σ α}
    (hm : Runs R (if c then m else m') d a d') (hf : Runs R (f a) d' b d'') :
    Runs R (if c then m >>= f else m' >>= f) d b d'' := by
  by_cases hc : c
  · rw [if_pos hc] at hm ⊢
    exact hm.bind hf
  · rw [if_neg hc] at hm ⊢
    exact hm.bind hf

theorem Runs.of_get {f : σ → Routine ε σ β} (h : ∀ s, R s d → Runs R (f s) d b d') :
    Runs R (MonadState.get >>= f) d b d' := fun s hs => h s hs s hs

theorem Runs.of_modify {g : σ → σ} (h : ∀ s, R s d → R (g s) d') :
    Runs R (modify g : Routine ε σ PUnit) d ⟨⟩ d' := fun s hs => ⟨g s, rfl, h s hs⟩

/-- A loop whose passes leave what is shown as it is. -/
theorem Runs.forM {is : List ι} {f : ι → Routine ε σ PUnit}
    (h : ∀ i ∈ is, Runs R (f i) d ⟨⟩ d) : Runs R (is.forM f) d ⟨⟩ d := by
  induction is with
  | nil => exact Runs.pure
  | cons i is ih =>
    rw [List.forM_eq_forM, List.forM_cons]
    refine (h i List.mem_cons_self).bind ?_
    exact ih fun j hj => h j (List.mem_cons_of_mem _ hj)

end Routine
