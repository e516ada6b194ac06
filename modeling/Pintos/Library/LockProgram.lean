import Mathlib.Data.List.Chain
import Mathlib.Logic.Function.Basic
import Mathlib.Logic.Relation

/-! Threads that share memory and locks.  A program gives for each program counter the next
instruction, which takes or gives back at most one lock and then changes the memory; the threads'
instructions interleave in any order.  If the locks that a program counter holds follow from it
(`Typed`), a lock's holder is the thread whose program counter says so, in every state that is
reached.  `WaitsFor` is the graph of threads blocked on each other's locks. -/

namespace LockProgram

variable {T L σ P : Type}

/-- The next instruction of a thread.  `next` gives the memory and the program counter after it. -/
inductive Instr (L σ P : Type) where
  | acquire (l : L) (next : σ → σ × P)
  | tryAcquire (l : L) (next : σ → σ × P) (otherwise : P)
  | release (l : L) (next : σ → σ × P)
  | run (next : σ → σ × P)
  | halt

/-- The memory, the holder of each lock and the program counter of each thread. -/
structure Config (T L σ P : Type) where
  shared : σ
  holder : L → Option T
  pc : T → P

variable [DecidableEq T] [DecidableEq L]

namespace Config

def take (c : Config T L σ P) (l : L) (t : T) : Config T L σ P :=
  { c with holder := Function.update c.holder l (some t) }

def free (c : Config T L σ P) (l : L) : Config T L σ P :=
  { c with holder := Function.update c.holder l none }

def jump (c : Config T L σ P) (t : T) (p : P) : Config T L σ P :=
  { c with pc := Function.update c.pc t p }

/-- Thread `t` executes `next`. -/
def go (c : Config T L σ P) (t : T) (next : σ → σ × P) : Config T L σ P :=
  { c with shared := (next c.shared).1 }.jump t (next c.shared).2

omit [DecidableEq L] in
@[simp] theorem jump_pc (c : Config T L σ P) (t : T) (p : P) : (c.jump t p).pc t = p := by
  simp [jump]

omit [DecidableEq L] in
@[simp] theorem go_pc (c : Config T L σ P) (t : T) (next : σ → σ × P) :
    (c.go t next).pc t = (next c.shared).2 := by
  simp [go]

end Config

/-- Thread `t` executes the instruction in the state `c`, which leads to `c'`. -/
def Instr.Executes (t : T) (c c' : Config T L σ P) : Instr L σ P → Prop
  | acquire l next => c.holder l = none ∧ c' = (c.take l t).go t next
  | tryAcquire l next otherwise =>
    (c.holder l = none ∧ c' = (c.take l t).go t next) ∨
      (c.holder l ≠ none ∧ c' = c.jump t otherwise)
  | release l next => c' = (c.free l).go t next
  | run next => c' = c.go t next
  | halt => False

/-- A step of thread `t`: its next instruction, or the jump to a program counter where a new task
may start. -/
inductive Step (program : P → Instr L σ P) (start : P → P → Prop) (c : Config T L σ P) (t : T) :
    Config T L σ P → Prop where
  | instr {c' : Config T L σ P} (h : (program (c.pc t)).Executes t c c') :
      Step program start c t c'
  | start {p : P} (hstart : start (c.pc t) p) : Step program start c t (c.jump t p)

/-- The instruction at `p` changes the locks that `holds` reads off the program counter as it
changes their holders. -/
def Instr.Typed (holds : P → L → Prop) (p : P) : Instr L σ P → Prop
  | acquire l next => ¬ holds p l ∧ ∀ s k, holds (next s).2 k ↔ holds p k ∨ k = l
  | tryAcquire l next otherwise =>
    ¬ holds p l ∧ (∀ s k, holds (next s).2 k ↔ holds p k ∨ k = l) ∧
      ∀ k, holds otherwise k ↔ holds p k
  | release l next => holds p l ∧ ∀ s k, holds (next s).2 k ↔ holds p k ∧ k ≠ l
  | run next => ∀ s k, holds (next s).2 k ↔ holds p k
  | halt => True

/-- The program counter says which locks its thread holds. -/
structure Typed (program : P → Instr L σ P) (start : P → P → Prop) (holds : P → L → Prop) :
    Prop where
  instr : ∀ p, (program p).Typed holds p
  start : ∀ {p q}, start p q → ∀ k, holds q k ↔ holds p k

/-- The holder of a lock is the thread whose program counter says so. -/
def Locked (holds : P → L → Prop) (c : Config T L σ P) : Prop :=
  ∀ l t, c.holder l = some t ↔ holds (c.pc t) l

variable {program : P → Instr L σ P} {start : P → P → Prop} {holds : P → L → Prop}
  {c c' : Config T L σ P} {t u : T}

theorem Instr.Executes.pc_ne {instr : Instr L σ P} (h : instr.Executes t c c') (hu : u ≠ t) :
    c'.pc u = c.pc u := by
  cases instr with
  | acquire l next =>
    obtain ⟨-, rfl⟩ := h
    exact Function.update_of_ne hu _ _
  | tryAcquire l next otherwise =>
    obtain ⟨-, rfl⟩ | ⟨-, rfl⟩ := h <;> exact Function.update_of_ne hu _ _
  | release l next =>
    obtain rfl := h
    exact Function.update_of_ne hu _ _
  | run next =>
    obtain rfl := h
    exact Function.update_of_ne hu _ _
  | halt => exact h.elim

theorem Instr.Executes.acquire {l : L} {next : σ → σ × P}
    (h : (Instr.acquire l next).Executes t c c') :
    c.holder l = none ∧ (c'.shared, c'.pc t) = next c.shared := by
  obtain ⟨hfree, rfl⟩ := h
  exact ⟨hfree, Prod.ext rfl (Config.go_pc _ t next)⟩

theorem Instr.Executes.tryAcquire {l : L} {next : σ → σ × P} {otherwise : P}
    (h : (Instr.tryAcquire l next otherwise).Executes t c c') :
    (c.holder l = none ∧ (c'.shared, c'.pc t) = next c.shared) ∨
      (c.holder l ≠ none ∧ (c'.shared, c'.pc t) = (c.shared, otherwise)) := by
  obtain ⟨hfree, rfl⟩ | ⟨hheld, rfl⟩ := h
  · exact .inl ⟨hfree, Prod.ext rfl (Config.go_pc _ t next)⟩
  · exact .inr ⟨hheld, Prod.ext rfl (Config.jump_pc c t otherwise)⟩

theorem Instr.Executes.release {l : L} {next : σ → σ × P}
    (h : (Instr.release l next).Executes t c c') :
    (c'.shared, c'.pc t) = next c.shared := by
  obtain rfl := h
  exact Prod.ext rfl (Config.go_pc _ t next)

theorem Instr.Executes.run {next : σ → σ × P}
    (h : (Instr.run (L := L) next).Executes t c c') :
    (c'.shared, c'.pc t) = next c.shared := by
  obtain rfl := h
  exact Prod.ext rfl (Config.go_pc _ t next)

/-- What the instruction may make of the memory and of its thread's program counter. -/
def Instr.Leads (s : σ) (r : σ × P) : Instr L σ P → Prop
  | acquire _ next | release _ next | run next => r = next s
  | tryAcquire _ next otherwise => r = next s ∨ r = (s, otherwise)
  | halt => False

theorem Instr.Executes.leads {instr : Instr L σ P} (h : instr.Executes t c c') :
    instr.Leads c.shared (c'.shared, c'.pc t) := by
  cases instr with
  | acquire l next => exact h.acquire.2
  | tryAcquire l next otherwise =>
    rcases h.tryAcquire with ⟨-, h⟩ | ⟨-, h⟩
    · exact .inl h
    · exact .inr h
  | release l next => exact h.release
  | run next => exact h.run
  | halt => exact h

/-- A step moves no other thread. -/
theorem Step.pc_ne (h : Step program start c t c') (hu : u ≠ t) : c'.pc u = c.pc u := by
  cases h with
  | instr h => exact h.pc_ne hu
  | start => exact Function.update_of_ne hu _ _

/-- A thread that takes a free lock. -/
theorem Locked.take {l : L} {p : P} {s : σ} (h : Locked holds c) (hfree : c.holder l = none)
    (hp : ∀ k, holds p k ↔ holds (c.pc t) k ∨ k = l) :
    Locked holds ({ c.take l t with shared := s }.jump t p) := by
  intro k v
  by_cases hk : k = l
  · subst hk
    by_cases hv : v = t
    · subst hv
      simp [Config.take, Config.jump, hp]
    · have hnot : ¬ holds (c.pc v) k := fun hh => by
        rw [(h k v).mpr hh] at hfree
        cases hfree
      simp [Config.take, Config.jump, hv, hnot, Ne.symm hv]
  · by_cases hv : v = t
    · subst hv
      simp [Config.take, Config.jump, hk, hp, h k v]
    · simp [Config.take, Config.jump, hk, hv, h k v]

/-- A thread that gives a lock back. -/
theorem Locked.free {l : L} {p : P} {s : σ} (h : Locked holds c) (hheld : holds (c.pc t) l)
    (hp : ∀ k, holds p k ↔ holds (c.pc t) k ∧ k ≠ l) :
    Locked holds ({ c.free l with shared := s }.jump t p) := by
  intro k v
  by_cases hk : k = l
  · subst hk
    by_cases hv : v = t
    · subst hv
      simp [Config.free, Config.jump, hp]
    · have hnot : ¬ holds (c.pc v) k := fun hh => by
        have := ((h k v).mpr hh).symm.trans ((h k t).mpr hheld)
        exact hv (Option.some.inj this)
      simp [Config.free, Config.jump, hv, hnot]
  · by_cases hv : v = t
    · subst hv
      simp [Config.free, Config.jump, hk, hp, h k v]
    · simp [Config.free, Config.jump, hk, hv, h k v]

omit [DecidableEq L] in
/-- A thread that keeps its locks. -/
theorem Locked.jump {p : P} {s : σ} (h : Locked holds c)
    (hp : ∀ k, holds p k ↔ holds (c.pc t) k) :
    Locked holds ({ c with shared := s }.jump t p) := by
  intro k v
  by_cases hv : v = t
  · subst hv
    simp [Config.jump, hp, h k v]
  · simp [Config.jump, hv, h k v]

theorem Locked.executes {instr : Instr L σ P} (h : Locked holds c)
    (htyped : instr.Typed holds (c.pc t)) (hstep : instr.Executes t c c') : Locked holds c' := by
  cases instr with
  | acquire l next =>
    obtain ⟨hfree, rfl⟩ := hstep
    exact h.take hfree (htyped.2 c.shared)
  | tryAcquire l next otherwise =>
    obtain ⟨hfree, rfl⟩ | ⟨-, rfl⟩ := hstep
    · exact h.take hfree (htyped.2.1 c.shared)
    · exact h.jump (s := c.shared) htyped.2.2
  | release l next =>
    obtain rfl := hstep
    exact h.free htyped.1 (htyped.2 c.shared)
  | run next =>
    obtain rfl := hstep
    exact h.jump (htyped c.shared)
  | halt => exact hstep.elim

/-- Every step keeps the locks with the threads whose program counters say so. -/
theorem Typed.step (htyped : Typed program start holds) (h : Locked holds c)
    (hstep : Step program start c t c') : Locked holds c' := by
  cases hstep with
  | instr hstep => exact h.executes (htyped.instr _) hstep
  | start hstart => exact h.jump (s := c.shared) (htyped.start hstart)

omit [DecidableEq T] [DecidableEq L] in
/-- Two threads do not hold one lock. -/
theorem Locked.unique (h : Locked holds c) {l : L} (ht : holds (c.pc t) l)
    (hu : holds (c.pc u) l) : t = u :=
  Option.some.inj (((h l t).mpr ht).symm.trans ((h l u).mpr hu))

/-- The states that can be reached from `c`. -/
abbrev Reach (program : P → Instr L σ P) (start : P → P → Prop) :
    Config T L σ P → Config T L σ P → Prop :=
  Relation.ReflTransGen fun c c' => ∃ t, Step program start c t c'

/-- What every step keeps holds in every state that is reached. -/
theorem Reach.invariant {I : Config T L σ P → Prop}
    (hstep : ∀ c t c', I c → Step program start c t c' → I c') (hc : I c)
    (h : Reach program start c c') : I c' := by
  induction h with
  | refl => exact hc
  | tail _ hlast ih =>
    obtain ⟨t, hlast⟩ := hlast
    exact hstep _ t _ ih hlast

/-! ### Execution -/

/-- The state after an instruction of thread `t`, if the thread is not blocked. -/
def Instr.next (t : T) (c : Config T L σ P) : Instr L σ P → Option (Config T L σ P)
  | acquire l next => if (c.holder l).isNone then some ((c.take l t).go t next) else none
  | tryAcquire l next otherwise =>
    if (c.holder l).isNone then some ((c.take l t).go t next) else some (c.jump t otherwise)
  | release l next => some ((c.free l).go t next)
  | run next => some (c.go t next)
  | halt => none

theorem Instr.executes_of_next {instr : Instr L σ P} (h : instr.next t c = some c') :
    instr.Executes t c c' := by
  cases instr with
  | acquire l next =>
    obtain ⟨hfree, h⟩ := Option.ite_none_right_eq_some.mp h
    exact ⟨Option.isNone_iff_eq_none.mp hfree, (Option.some.inj h).symm⟩
  | tryAcquire l next otherwise =>
    rw [Instr.next] at h
    split at h
    · rename_i hfree
      exact .inl ⟨Option.isNone_iff_eq_none.mp hfree, (Option.some.inj h).symm⟩
    · rename_i hheld
      exact .inr ⟨fun hnone => hheld (Option.isNone_iff_eq_none.mpr hnone), (Option.some.inj h).symm⟩
  | release l next => exact (Option.some.inj h).symm
  | run next => exact (Option.some.inj h).symm
  | halt => cases h

/-- The next `n` instructions of thread `t`. -/
def runThread (program : P → Instr L σ P) (t : T) :
    (n : Nat) → Config T L σ P → Option (Config T L σ P)
  | 0, c => some c
  | n + 1, c => ((program (c.pc t)).next t c).bind (runThread program t n)

theorem reach_of_runThread {n : Nat} (h : runThread program t n c = some c') :
    Reach program start c c' := by
  induction n generalizing c with
  | zero =>
    cases h
    exact .refl
  | succ n ih =>
    obtain ⟨c1, hnext, h⟩ := Option.bind_eq_some_iff.mp h
    exact .head ⟨t, .instr (Instr.executes_of_next hnext)⟩ (ih h)

/-- Threads that one after another start a task and execute some instructions of it. -/
def play (program : P → Instr L σ P) (start : P → P → Prop) [DecidableRel start] :
    List (T × P × Nat) → Config T L σ P → Option (Config T L σ P)
  | [], c => some c
  | (t, p, n) :: moves, c =>
    if start (c.pc t) p then (runThread program t n (c.jump t p)).bind (play program start moves)
    else none

theorem reach_of_play [DecidableRel start] {moves : List (T × P × Nat)}
    (h : play program start moves c = some c') : Reach program start c c' := by
  induction moves generalizing c with
  | nil =>
    cases h
    exact .refl
  | cons move moves ih =>
    obtain ⟨t, p, n⟩ := move
    obtain ⟨hstart, h⟩ := Option.ite_none_right_eq_some.mp h
    obtain ⟨c1, hrun, h⟩ := Option.bind_eq_some_iff.mp h
    have hfirst : Reach program start c (c.jump t p) := .single ⟨t, .start hstart⟩
    exact (hfirst.trans (reach_of_runThread hrun)).trans (ih h)

/-- The states that some moves lead to, one after the other.  In a move a thread starts a task or
executes its next instruction, if that is allowed. -/
def follow (program : P → Instr L σ P) (allowed : Config T L σ P → T → Option P → Bool) :
    List (T × Option P) → Config T L σ P → Option (List (Config T L σ P))
  | [], _ => some []
  | (t, task) :: moves, c =>
    if allowed c t task then
      (task.elim ((program (c.pc t)).next t c) fun p => some (c.jump t p)).bind fun c' =>
        (follow program allowed moves c').map (c' :: ·)
    else none

/-- A run of moves is a chain of allowed steps, in which the threads without a move stay where they
are. -/
theorem isChain_of_follow {allowed : Config T L σ P → T → Option P → Bool}
    (hstart : ∀ c t p, allowed c t (some p) = true → start (c.pc t) p)
    {moves : List (T × Option P)} {cs : List (Config T L σ P)}
    (h : follow program allowed moves c = some cs) :
    (c :: cs).IsChain fun d d' => ∃ t task, Step program start d t d' ∧
      allowed d t task = true ∧ ∀ u, (∀ move ∈ moves, move.1 ≠ u) → d.pc u = c.pc u := by
  induction moves generalizing c cs with
  | nil =>
    cases h
    exact List.isChain_singleton c
  | cons move moves ih =>
    obtain ⟨t, task⟩ := move
    obtain ⟨hallowed, h⟩ := Option.ite_none_right_eq_some.mp h
    obtain ⟨c1, hmove, h⟩ := Option.bind_eq_some_iff.mp h
    obtain ⟨ds, hrest, rfl⟩ := Option.map_eq_some_iff.mp h
    have hstep : Step program start c t c1 := by
      cases task with
      | none => exact .instr (Instr.executes_of_next hmove)
      | some p =>
        cases hmove
        exact .start (hstart c t p hallowed)
    refine List.isChain_cons_cons.mpr ⟨⟨t, task, hstep, hallowed, fun _ _ => rfl⟩, ?_⟩
    refine (ih hrest).imp fun d d' hd => ?_
    obtain ⟨u, task', hstep', hallowed', hsame⟩ := hd
    refine ⟨u, task', hstep', hallowed', fun v hv => ?_⟩
    rw [hsame v fun move hmove => hv move (List.mem_cons_of_mem _ hmove),
      hstep.pc_ne fun hvt => hv _ List.mem_cons_self hvt.symm]

theorem isChain_step_of_follow {allowed : Config T L σ P → T → Option P → Bool}
    (hstart : ∀ c t p, allowed c t (some p) = true → start (c.pc t) p)
    {moves : List (T × Option P)} {cs : List (Config T L σ P)}
    (h : follow program allowed moves c = some cs) :
    (c :: cs).IsChain fun d d' => ∃ t, Step program start d t d' := by
  refine (isChain_of_follow hstart h).imp fun d d' hd => ?_
  obtain ⟨t, task, hstep, -, -⟩ := hd
  exact ⟨t, hstep⟩

/-! ### Blocked threads -/

/-- Thread `t` is blocked on lock `l`, which thread `u` holds. -/
def BlockedOn (program : P → Instr L σ P) (c : Config T L σ P) (t : T) (l : L) (u : T) : Prop :=
  (∃ next, program (c.pc t) = .acquire l next) ∧ c.holder l = some u

/-- Thread `t` is blocked on a lock that thread `u` holds. -/
def WaitsFor (program : P → Instr L σ P) (c : Config T L σ P) (t u : T) : Prop :=
  ∃ l, BlockedOn program c t l u

/-- Some threads are blocked on each other in a cycle. -/
def HasCycle (program : P → Instr L σ P) (c : Config T L σ P) : Prop :=
  ∃ t, Relation.TransGen (WaitsFor program c) t t

omit [DecidableEq T] [DecidableEq L] in
/-- From a thread on a cycle a wait leads to the next thread on the cycle. -/
theorem cycle_next (h : Relation.TransGen (WaitsFor program c) t t) :
    ∃ u, WaitsFor program c t u ∧ Relation.TransGen (WaitsFor program c) u u := by
  obtain ⟨u, htu, hut⟩ := Relation.TransGen.head'_iff.mp h
  exact ⟨u, htu, Relation.TransGen.tail' hut htu⟩

omit [DecidableEq T] [DecidableEq L] in
theorem hasCycle_of_two (htu : WaitsFor program c t u) (hut : WaitsFor program c u t) :
    HasCycle program c :=
  ⟨t, (Relation.TransGen.single htu).tail hut⟩

/-! ### Runs -/

/-- In a run from a good state, where a step from a good state leads to a bad one exactly when it is
not safe, no state is bad if and only if all steps are safe. -/
theorem isChain_safe_iff {α : Type} {step safe : α → α → Prop} {I bad : α → Prop}
    (hstep : ∀ a b, I a → step a b → I b) (hsafe : ∀ a b, I a → step a b → ¬ bad a →
      (safe a b ↔ ¬ bad b)) {a : α} {as : List α} (hrun : (a :: as).IsChain step) (hI : I a)
    (ha : ¬ bad a) : (∀ b ∈ a :: as, ¬ bad b) ↔ (a :: as).IsChain safe := by
  induction as generalizing a with
  | nil => simp [ha]
  | cons b bs ih =>
    obtain ⟨hab, hrun⟩ := List.isChain_cons_cons.mp hrun
    have hIb := hstep a b hI hab
    rw [List.isChain_cons_cons, hsafe a b hI hab ha]
    constructor
    · intro hall
      have hb : ¬ bad b := hall b (by simp)
      exact ⟨hb, (ih hrun hIb hb).mp fun d hd => hall d (List.mem_cons_of_mem _ hd)⟩
    · rintro ⟨hb, hchain⟩ d hd
      rcases List.mem_cons.mp hd with rfl | hd
      · exact ha
      · exact (ih hrun hIb hb).mpr hchain d hd

end LockProgram
