import Pintos.Threads.Semaphores

/-! Condition variables lose no signal.  A monitor says which events may happen: a signal goes to the
thread that began to wait first, a broadcast to all that have begun, and a thread returns from
`cond_wait` only after a wake-up of its own and with the lock.  The kernel follows it. -/

namespace Pintos

namespace Threads

/-! ### The monitor -/

/-- Where a thread is in `cond_wait`: it has begun, has been signalled, or has been woken up. -/
inductive Place where
  | outside
  | queued (c : Nat)
  | chosen (c : Nat)
  | released (c : Nat)
  deriving DecidableEq

/-- `queue` has the threads that wait for a signal, and `owed` those that a broadcast in progress is
still to release. -/
structure Monitor where
  place : Nat → Place
  queue : Nat → List Nat
  owed : Nat → Option (List Nat)

namespace Monitor

def start : Monitor := ⟨fun _ => .outside, fun _ => [], fun _ => none⟩

def setPlace (m : Monitor) (t : Nat) (place : Place) : Monitor :=
  { m with place := Function.update m.place t place }

def setQueue (m : Monitor) (c : Nat) (queue : List Nat) : Monitor :=
  { m with queue := Function.update m.queue c queue }

def setOwed (m : Monitor) (c : Nat) (owed : Option (List Nat)) : Monitor :=
  { m with owed := Function.update m.owed c owed }

/-- A thread begins to wait. -/
def began (m : Monitor) (c t : Nat) : Monitor :=
  (m.setPlace t (.queued c)).setQueue c (m.queue c ++ [t])

/-- The thread that began first is signalled. -/
def signalled (m : Monitor) (c t : Nat) : Monitor :=
  (m.setPlace t (.chosen c)).setQueue c (m.queue c).tail

/-- A signalled thread is woken up, and is owed to a broadcast no longer. -/
def released (m : Monitor) (c t : Nat) : Monitor :=
  (m.setPlace t (.released c)).setOwed c ((m.owed c).map (·.erase t))

/-- The events that are allowed, and what they do. -/
def accept (m : Monitor) : Event → Option Monitor
  | .began c t =>
    if m.place t = .outside ∧ m.owed c = none then some (m.began c t) else none
  | .signal c none => if m.queue c = [] then some m else none
  | .signal c (some t) => if (m.queue c).head? = some t then some (m.signalled c t) else none
  | .up (.waiter t) =>
    match m.place t with
    | .chosen c => some (m.released c t)
    | _ => none
  | .broadcast c => if m.owed c = none then some (m.setOwed c (some (m.queue c))) else none
  | .broadcastEnd c =>
    if m.owed c = some [] ∧ m.queue c = [] then some (m.setOwed c none) else none
  | .left c t holder =>
    if m.place t = .released c ∧ holder = some t then some (m.setPlace t .outside) else none
  | _ => some m

/-- All that has happened, the latest event first. -/
def run : List Event → Option Monitor
  | [] => some start
  | e :: log => (run log).bind (·.accept e)

end Monitor

/-! ### What a thread still has to do -/

variable {w w' v : State} {m : Monitor} {s : Semaphore} {t u c l : Nat} {i : Instr}
  {rest is : List Instr} {lockOf : Nat → Nat} {values : Nat → UInt32} {e : Event}
  {log : List Event}

/-- An instruction that has nothing to do with condition variables. -/
def Instr.Plain : Instr → Prop
  | .down (.waiter _) | .recheck (.waiter _) | .up (.waiter _) | .condWait _ | .enqueue _ |
    .leave _ | .condSignal _ | .signal _ | .condBroadcast _ | .broadcast _ => False
  | _ => True

/-- Thread `t` is in `cond_wait`, and has not passed its semaphore. -/
inductive Parked (lockOf : Nat → Nat) (t c : Nat) : List Instr → Prop where
  | release : Parked lockOf t c [.release (lockOf c), .down (.waiter t), .acquire (lockOf c),
      .leave c]
  | clearHolder : Parked lockOf t c [.clearHolder (lockOf c), .down (.waiter t),
      .acquire (lockOf c), .leave c]
  | up : Parked lockOf t c [.up (.lock (lockOf c)), .down (.waiter t), .acquire (lockOf c),
      .leave c]
  | down : Parked lockOf t c [.down (.waiter t), .acquire (lockOf c), .leave c]
  | recheck : Parked lockOf t c [.recheck (.waiter t), .acquire (lockOf c), .leave c]

/-- It has passed its semaphore, and takes the lock again. -/
inductive Returning (lockOf : Nat → Nat) (c : Nat) : List Instr → Prop where
  | acquire : Returning lockOf c [.acquire (lockOf c), .leave c]
  | down : Returning lockOf c [.down (.lock (lockOf c)), .leave c]
  | recheck : Returning lockOf c [.recheck (.lock (lockOf c)), .leave c]
  | setHolder : Returning lockOf c [.setHolder (lockOf c), .leave c]
  | leave : Returning lockOf c [.leave c]

/-- It is in `cond_broadcast`. -/
inductive Broadcasting (c : Nat) : List Instr → Prop where
  | test : Broadcasting c [.broadcast c]
  | condSignal : Broadcasting c [.condSignal c, .broadcast c]
  | signal : Broadcasting c [.signal c, .broadcast c]
  | up (t : Nat) : Broadcasting c [.up (.waiter t), .broadcast c]

/-- It is about to wait, signals, or is in no call that is about condition variables. -/
inductive Outside : List Instr → Prop where
  | plain {is : List Instr} (h : ∀ i ∈ is, i.Plain) : Outside is
  | condWait (c : Nat) : Outside [.condWait c]
  | enqueue (c : Nat) : Outside [.enqueue c]
  | condSignal (c : Nat) : Outside [.condSignal c]
  | signal (c : Nat) : Outside [.signal c]
  | up (t : Nat) : Outside [.up (.waiter t)]
  | condBroadcast (c : Nat) : Outside [.condBroadcast c]
  | broadcasting {c : Nat} {is : List Instr} (h : Broadcasting c is) : Outside is

/-- What the place of thread `t` says of its instructions and of its semaphore. -/
def Placed (lockOf : Nat → Nat) (w : State) (t : Nat) : Place → Prop
  | .outside => Outside (w.pending t)
  | .queued c | .chosen c => Parked lockOf t c (w.pending t) ∧ w.value (.waiter t) = 0
  | .released c =>
    Parked lockOf t c (w.pending t) ∧ w.value (.waiter t) = 1 ∧ t ∉ w.waiters (.waiter t) ∨
      Returning lockOf c (w.pending t)

theorem Placed.congr {place : Place} (h : Placed lockOf w t place)
    (hpending : v.pending t = w.pending t) (hvalue : v.value (.waiter t) = w.value (.waiter t))
    (hwaiters : v.waiters (.waiter t) = w.waiters (.waiter t)) : Placed lockOf v t place := by
  rcases place with _ | c | c | c
  all_goals
    simp only [Placed, hpending, hvalue, hwaiters] at h ⊢
    exact h

/-- The thread that is about to be woken up. -/
def inFlight : List Instr → List Nat
  | .up (.waiter t) :: _ => [t]
  | _ => []

/-- What thread `t` does next, it does as the holder of the lock of `c`. -/
def NeedsLock (c : Nat) (is : List Instr) : Prop :=
  is.head? = some (.enqueue c) ∨ is.head? = some (.signal c) ∨ .broadcast c ∈ is ∨ is = [.leave c]

/-- The kernel is in a state that the monitor knows. -/
structure Follows (lockOf : Nat → Nat) (m : Monitor) (w : State) : Prop where
  places : ∀ t, Placed lockOf w t (m.place t)
  queue : ∀ c, w.condWaiters c = m.queue c
  queued : ∀ c t, t ∈ m.queue c ↔ m.place t = .queued c
  nodup : ∀ c, (m.queue c).Nodup
  locked : ∀ t c, NeedsLock c (w.pending t) → w.holder (lockOf c) = some t
  ups : ∀ u t, (w.pending u).head? = some (.up (.waiter t)) → ∃ c, m.place t = .chosen c ∧
    w.holder (lockOf c) = some u ∧ ∀ c', .broadcast c' ∈ w.pending u → c' = c
  chosen : ∀ t c, m.place t = .chosen c → ∃ u, (w.pending u).head? = some (.up (.waiter t))
  broadcasts : ∀ u c, .broadcast c ∈ w.pending u →
    m.owed c = some (inFlight (w.pending u) ++ m.queue c)
  owed : ∀ c, m.owed c ≠ none → ∃ u, .broadcast c ∈ w.pending u

/-- The instructions of the current thread become `is`, and nothing changes for the others. -/
structure Goes (w v : State) (is : List Instr) : Prop where
  current : v.current = w.current
  pending : v.pending = Function.update w.pending w.current is
  condWaiters : v.condWaiters = w.condWaiters
  value : ∀ t ≠ w.current, v.value (.waiter t) = w.value (.waiter t)
  waiters : ∀ t ≠ w.current, v.waiters (.waiter t) = w.waiters (.waiter t)
  holder : ∀ l, ∀ t ≠ w.current, w.holder l = some t → v.holder l = some t

theorem Goes.pending_self (h : Goes w v is) : v.pending w.current = is := by
  rw [h.pending, Function.update_self]

theorem Goes.pending_of_ne (h : Goes w v is) (ht : t ≠ w.current) :
    v.pending t = w.pending t := by
  rw [h.pending, Function.update_of_ne ht]

theorem Goes.placed (h : Goes w v is) (ht : t ≠ w.current) {place : Place}
    (hplaced : Placed lockOf w t place) : Placed lockOf v t place :=
  hplaced.congr (h.pending_of_ne ht) (h.value t ht) (h.waiters t ht)

theorem inFlight_eq_nil (h : ∀ t, is.head? ≠ some (.up (.waiter t))) : inFlight is = [] := by
  unfold inFlight
  split
  · rename_i t rest
    exact absurd rfl (h t)
  · rfl

/-- The current thread goes on, and may be somewhere else then, without a signal or a wake-up. -/
theorem Follows.moves (h : Follows lockOf m w) (hgoes : Goes w v is) (place : Place)
    (owed : Nat → Option (List Nat))
    (hkind : ∀ c, (place = .queued c ↔ m.place w.current = .queued c) ∧
      (place = .chosen c ↔ m.place w.current = .chosen c))
    (hup : ∀ t, (w.pending w.current).head? ≠ some (.up (.waiter t)) ∧
      is.head? ≠ some (.up (.waiter t)))
    (hbroadcasts : ∀ c, .broadcast c ∈ is → owed c = some (m.queue c))
    (hsame : ∀ u ≠ w.current, ∀ c, .broadcast c ∈ w.pending u → owed c = m.owed c)
    (howed : ∀ c, owed c ≠ none →
      .broadcast c ∈ is ∨ ∃ u, u ≠ w.current ∧ .broadcast c ∈ w.pending u)
    (hlocked : ∀ c, NeedsLock c is → v.holder (lockOf c) = some w.current)
    (hplaced : Placed lockOf v w.current place) :
    Follows lockOf { m.setPlace w.current place with owed := owed } v := by
  have hothers : ∀ t, t ≠ w.current → v.pending t = w.pending t := fun t => hgoes.pending_of_ne
  have hself := hgoes.pending_self
  have hplace : ∀ t c, ((m.setPlace w.current place).place t = .queued c ↔ m.place t = .queued c) ∧
      ((m.setPlace w.current place).place t = .chosen c ↔ m.place t = .chosen c) := by
    intro t c
    show (Function.update m.place w.current place t = _ ↔ _) ∧
      (Function.update m.place w.current place t = _ ↔ _)
    rw [Function.update_apply]
    split_ifs with ht
    · rw [ht]
      exact hkind c
    · exact ⟨Iff.rfl, Iff.rfl⟩
  refine ⟨fun t => ?_, fun c => ?_, fun c t => (h.queued c t).trans (hplace t c).1.symm, h.nodup,
    fun t c hneeds => ?_, fun u t hhead => ?_, fun t c hchosen => ?_, fun u c hmem => ?_,
    fun c hc => ?_⟩
  · show Placed lockOf v t (Function.update m.place w.current place t)
    rw [Function.update_apply]
    split_ifs with ht
    · rw [ht]
      exact hplaced
    · exact hgoes.placed ht (h.places t)
  · rw [hgoes.condWaiters]
    exact h.queue c
  · by_cases ht : t = w.current
    · subst ht
      rw [hself] at hneeds
      exact hlocked c hneeds
    · rw [hothers t ht] at hneeds
      exact hgoes.holder _ t ht (h.locked t c hneeds)
  · by_cases hu : u = w.current
    · subst hu
      rw [hself] at hhead
      exact absurd hhead (hup t).2
    · rw [hothers u hu] at hhead ⊢
      obtain ⟨c, hchosen, hholder, hmem⟩ := h.ups u t hhead
      exact ⟨c, (hplace t c).2.mpr hchosen, hgoes.holder _ u hu hholder, hmem⟩
  · obtain ⟨u, hhead⟩ := h.chosen t c ((hplace t c).2.mp hchosen)
    have hu : u ≠ w.current := by
      rintro rfl
      exact (hup t).1 hhead
    exact ⟨u, by rw [hothers u hu]; exact hhead⟩
  · by_cases hu : u = w.current
    · subst hu
      rw [hself] at hmem ⊢
      rw [inFlight_eq_nil fun t => (hup t).2]
      exact hbroadcasts c hmem
    · rw [hothers u hu] at hmem ⊢
      exact (hsame u hu c hmem).trans (h.broadcasts u c hmem)
  · rcases howed c hc with hmem | ⟨u, hu, hmem⟩
    · exact ⟨w.current, by rw [hself]; exact hmem⟩
    · exact ⟨u, by rw [hothers u hu]; exact hmem⟩

/-- The current thread goes on in the same broadcast or in none. -/
theorem Follows.stays (h : Follows lockOf m w) (hgoes : Goes w v is) (place : Place)
    (hkind : ∀ c, (place = .queued c ↔ m.place w.current = .queued c) ∧
      (place = .chosen c ↔ m.place w.current = .chosen c))
    (hup : ∀ t, (w.pending w.current).head? ≠ some (.up (.waiter t)) ∧
      is.head? ≠ some (.up (.waiter t)))
    (hbroadcast : ∀ c, .broadcast c ∈ is ↔ .broadcast c ∈ w.pending w.current)
    (hlocked : ∀ c, NeedsLock c is → v.holder (lockOf c) = some w.current)
    (hplaced : Placed lockOf v w.current place) :
    Follows lockOf (m.setPlace w.current place) v := by
  refine h.moves hgoes place m.owed hkind hup (fun c hmem => ?_) (fun _ _ _ _ => rfl)
    (fun c hc => ?_) hlocked hplaced
  · have howed := h.broadcasts w.current c ((hbroadcast c).mp hmem)
    rw [inFlight_eq_nil fun t => (hup t).1] at howed
    exact howed
  · obtain ⟨u, hmem⟩ := h.owed c hc
    by_cases hu : u = w.current
    · rw [hu] at hmem
      exact .inl ((hbroadcast c).mpr hmem)
    · exact .inr ⟨u, hu, hmem⟩

/-- The current thread goes on where it is. -/
theorem Follows.goes (h : Follows lockOf m w) (hgoes : Goes w v is)
    (hup : ∀ t, (w.pending w.current).head? ≠ some (.up (.waiter t)) ∧
      is.head? ≠ some (.up (.waiter t)))
    (hbroadcast : ∀ c, .broadcast c ∈ is ↔ .broadcast c ∈ w.pending w.current)
    (hlocked : ∀ c, NeedsLock c is → v.holder (lockOf c) = some w.current)
    (hplaced : Placed lockOf v w.current (m.place w.current)) : Follows lockOf m v := by
  have h' := h.stays hgoes _ (fun c => ⟨Iff.rfl, Iff.rfl⟩) hup hbroadcast hlocked hplaced
  rw [Monitor.setPlace, Function.update_eq_self] at h'
  exact h'

/-! ### Instructions that are not about condition variables -/

/-- An event that the monitor lets pass. -/
def Event.Silent (e : Event) : Prop := ∀ m : Monitor, m.accept e = some m

theorem run_silent (he : e.Silent) : Monitor.run (e :: log) = Monitor.run log := by
  show ((Monitor.run log).bind fun m => m.accept e) = _
  rcases Monitor.run log with _ | m
  · rfl
  · exact he m

theorem run_cons (hrun : Monitor.run log = some m) : Monitor.run (e :: log) = m.accept e := by
  show ((Monitor.run log).bind fun m => m.accept e) = _
  rw [hrun, Option.bind_some]

theorem Parked.leave_mem (h : Parked lockOf t c is) : .leave c ∈ is := by
  cases h <;> simp

theorem Returning.leave_mem (h : Returning lockOf c is) : .leave c ∈ is := by
  cases h <;> simp

/-- A thread that will not return from `cond_wait` is outside. -/
theorem Follows.outside (h : Follows lockOf m w) (hleave : ∀ c, .leave c ∉ w.pending t) :
    m.place t = .outside ∧ Outside (w.pending t) := by
  have hplaced := h.places t
  rcases hplace : m.place t with _ | c | c | c <;> rw [hplace] at hplaced
  · exact ⟨rfl, hplaced⟩
  · exact absurd hplaced.1.leave_mem (hleave c)
  · exact absurd hplaced.1.leave_mem (hleave c)
  · rcases hplaced with hparked | hreturning
    · exact absurd hparked.1.leave_mem (hleave c)
    · exact absurd hreturning.leave_mem (hleave c)

/-- The state is one that the monitor knows, after what has happened. -/
def Followed (lockOf : Nat → Nat) (w : State) : Prop :=
  ∃ m, Monitor.run w.log = some m ∧ Follows lockOf m w

/-- The current thread has only plain instructions left, before and after. -/
theorem Followed.plain (h : Followed lockOf w) (hgoes : Goes w v is)
    (hplain : ∀ j ∈ w.pending w.current, j.Plain) (his : ∀ j ∈ is, j.Plain)
    (hrun : Monitor.run v.log = Monitor.run w.log) : Followed lockOf v := by
  obtain ⟨m, hm, h⟩ := h
  have hnot : ∀ {is : List Instr} {i : Instr}, (∀ j ∈ is, j.Plain) → ¬ i.Plain → i ∉ is :=
    fun his hi hmem => hi (his _ hmem)
  have hhead : ∀ {is : List Instr} {i : Instr}, (∀ j ∈ is, j.Plain) → ¬ i.Plain →
      is.head? ≠ some i := fun his hi heq => hnot his hi (List.mem_of_head? heq)
  refine ⟨m, hrun.trans hm, h.goes hgoes (fun t => ⟨hhead hplain not_false, hhead his not_false⟩)
    (fun c => iff_of_false (hnot his not_false) (hnot hplain not_false)) (fun c hneeds => ?_) ?_⟩
  · rcases hneeds with hi | hi | hi | hi
    · exact absurd hi (hhead his not_false)
    · exact absurd hi (hhead his not_false)
    · exact absurd hi (hnot his not_false)
    · exact absurd (show .leave c ∈ is by rw [hi]; simp) (hnot his not_false)
  · rw [(h.outside fun c => hnot hplain not_false).1]
    show Outside (v.pending w.current)
    rw [hgoes.pending_self]
    exact .plain his

/-- `sema_down` waits or takes the semaphore. -/
theorem Effect.down (h : Effect lockOf w rest i v) (hi : i = .down s ∨ i = .recheck s) :
    w.value s = 0 ∧ v = w.waited s rest ∨
      0 < w.value s ∧ v = w.took s (afterDown s ++ rest) := by
  have hsame : ∀ {s'}, i = .down s' ∨ i = .recheck s' → s' = s := by
    intro s' hi'
    rcases hi with rfl | rfl <;> simpa [eq_comm] using hi'
  cases h with
  | wait hi' hzero =>
    obtain rfl := hsame hi'
    exact .inl ⟨hzero, rfl⟩
  | take hi' hpos =>
    obtain rfl := hsame hi'
    exact .inr ⟨hpos, rfl⟩
  | fail hor => rcases hi with rfl | rfl <;> simp at hor
  | goOn hor => rcases hi with rfl | rfl <;> simp at hor
  | _ => rcases hi with hi | hi <;> nomatch hi

/-- The current thread replaces its next instruction. -/
theorem Goes.setPending (w : State) (is : List Instr) : Goes w (w.setPending w.current is) is :=
  ⟨rfl, rfl, rfl, fun _ _ => rfl, fun _ _ => rfl, fun _ _ _ h => h⟩

theorem Goes.took (w : State) (hs : ∀ t ≠ w.current, s ≠ .waiter t) (is : List Instr) :
    Goes w (w.took s is) is :=
  ⟨rfl, rfl, rfl, fun t ht => Function.update_of_ne (hs t ht).symm .., fun _ _ => rfl,
    fun _ _ _ h => h⟩

theorem Goes.waited (w : State) (hs : ∀ t ≠ w.current, s ≠ .waiter t) (rest : List Instr) :
    Goes w (w.waited s rest) (.recheck s :: rest) :=
  ⟨rfl, rfl, rfl, fun _ _ => rfl, fun t ht => Function.update_of_ne (hs t ht).symm ..,
    fun _ _ _ h => h⟩

theorem Goes.upped (w : State) (hs : ∀ t, s ≠ .waiter t) (is : List Instr) :
    Goes w ((w.setPending w.current is).upped s) is :=
  ⟨rfl, rfl, rfl, fun t _ => Function.update_of_ne (hs t).symm ..,
    fun t _ => Function.update_of_ne (hs t).symm .., fun _ _ _ h => h⟩

theorem Goes.trans {is' : List Instr} (h : Goes w w' is) (h' : Goes w' v is') : Goes w v is' where
  current := h'.current.trans h.current
  pending := by rw [h'.pending, h.pending, h.current, Function.update_idem]
  condWaiters := h'.condWaiters.trans h.condWaiters
  value t ht := (h'.value t (h.current ▸ ht)).trans (h.value t ht)
  waiters t ht := (h'.waiters t (h.current ▸ ht)).trans (h.waiters t ht)
  holder l t ht hholder := h'.holder l t (h.current ▸ ht) (h.holder l t ht hholder)

/-- The current thread initializes one of its semaphores. -/
theorem Goes.semaInit (w : State) (hs : ∀ t ≠ w.current, s ≠ .waiter t) :
    Goes w (w.semaInit s) (w.pending w.current) := by
  have hvalue : (w.semaInit s).value = Function.update w.value s 0 := rfl
  have hwaiters : (w.semaInit s).waiters = Function.update w.waiters s [] := rfl
  refine ⟨rfl, (Function.update_eq_self ..).symm, rfl, fun t ht => ?_, fun t ht => ?_,
    fun _ _ _ h => h⟩
  · rw [hvalue, Function.update_of_ne (hs t ht).symm]
  · rw [hwaiters, Function.update_of_ne (hs t ht).symm]

/-- The current thread, which has taken the semaphore of a free lock, becomes its holder. -/
theorem Goes.acquires (hlocks : Locks w) (hnext : w.pending w.current = .setHolder l :: rest) :
    Goes w (((w.setHolder l (some w.current)).setPending w.current rest).happens
      (.acquired l w.current)) rest := by
  refine ⟨rfl, rfl, rfl, fun _ _ => rfl, fun _ _ => rfl, fun l' t _ hholder => ?_⟩
  obtain ⟨owner, howned⟩ := hlocks l
  have hnone := (howned.between w.current (.inl (by rw [hnext]; rfl))).2
  have hl : l' ≠ l := by
    rintro rfl
    rw [hnone] at hholder
    nomatch hholder
  show Function.update w.holder l (some w.current) l' = some t
  rw [Function.update_of_ne hl, hholder]

/-- The current thread clears the holder of a lock that it holds. -/
theorem Goes.clears (hlocks : Locks w) (hnext : w.pending w.current = .clearHolder l :: rest) :
    Goes w (((w.setHolder l none).setPending w.current (.up (.lock l) :: rest)).happens
      (.released l w.current)) (.up (.lock l) :: rest) := by
  refine ⟨rfl, rfl, rfl, fun _ _ => rfl, fun _ _ => rfl, fun l' t ht hholder => ?_⟩
  obtain ⟨owner, howned⟩ := hlocks l
  have hcur := howned.clearing w.current (by rw [hnext]; rfl)
  have hl : l' ≠ l := by
    rintro rfl
    rw [hcur] at hholder
    exact ht (Option.some.inj hholder).symm
  show Function.update w.holder l none l' = some t
  rw [Function.update_of_ne hl, hholder]

/-- An instruction that is not about condition variables. -/
theorem Followed.plain_effect (h : Followed lockOf w) (hlocks : Locks w)
    (hnext : w.pending w.current = i :: rest) (hplain : ∀ j ∈ i :: rest, j.Plain)
    (heffect : Effect lockOf w rest i v) : Followed lockOf v := by
  have hi : i.Plain := hplain i List.mem_cons_self
  have hrest : ∀ j ∈ rest, j.Plain := fun j hj => hplain j (List.mem_cons_of_mem _ hj)
  have hcons : ∀ j : Instr, j.Plain → ∀ k ∈ j :: rest, k.Plain := by
    intro j hj k hk
    rcases List.mem_cons.mp hk with rfl | hk
    · exact hj
    · exact hrest k hk
  have hgo : ∀ {is v}, Goes w v is → (∀ j ∈ is, j.Plain) →
      Monitor.run v.log = Monitor.run w.log → Followed lockOf v :=
    fun hgoes his hrun => h.plain hgoes (by rw [hnext]; exact hplain) his hrun
  have hdown : ∀ {s}, i = .down s ∨ i = .recheck s → ∀ t, s ≠ .waiter t := by
    rintro s (rfl | rfl) t rfl
    · exact hi
    · exact hi
  have hset : ∀ {is}, (∀ j ∈ is, j.Plain) → Followed lockOf (w.setPending w.current is) :=
    fun his => hgo (.setPending w _) his rfl
  cases heffect with
  | @wait _ s hor hzero =>
    have hs := hdown hor
    refine hgo (.waited w (fun t _ => hs t) rest) (hcons (.recheck s) ?_) rfl
    cases s with
    | waiter t => exact absurd rfl (hs t)
    | _ => trivial
  | @take _ s hor hpos =>
    have hs := hdown hor
    refine hgo (.took w (fun t _ => hs t) _) ?_ (run_silent fun _ => rfl)
    cases s with
    | lock l => exact hcons (.setHolder l) trivial
    | _ => exact hrest
  | up s =>
    have hs : ∀ t, s ≠ .waiter t := by
      rintro t rfl
      exact hi
    refine hgo (.upped w hs rest) hrest (run_silent ?_)
    cases s with
    | waiter t => exact absurd rfl (hs t)
    | _ => exact fun _ => rfl
  | @tryDown n hpos =>
    have hs : ∀ t ≠ w.current, Semaphore.user n ≠ .waiter t := fun t _ => nofun
    exact hgo (.took w hs rest) hrest (run_silent fun _ => rfl)
  | @tryLock l hpos =>
    have hs : ∀ t ≠ w.current, Semaphore.lock l ≠ .waiter t := fun t _ => nofun
    exact hgo (.took w hs _) (hcons (.setHolder l) trivial) (run_silent fun _ => rfl)
  | setHolder l => exact hgo (.acquires hlocks hnext) hrest (run_silent fun _ => rfl)
  | clearHolder l =>
    exact hgo (.clears hlocks hnext) (hcons (.up (.lock l)) trivial) (run_silent fun _ => rfl)
  | fail hor => exact hset hrest
  | goOn hor => exact hset hrest
  | acquire hne => exact hset (hcons _ trivial)
  | tryAcquire hne => exact hset (hcons _ trivial)
  | release hheld => exact hset (hcons _ trivial)
  | block => exact hset (hcons _ trivial)
  | sleep untilsleep =>
    have hs : ∀ t ≠ w.current, Semaphore.sleep w.current ≠ .waiter t := fun t _ => nofun
    have hgoes := (Goes.semaInit w hs).trans
      (.waited (w.semaInit (.sleep w.current)) hs rest)
    exact hgo hgoes (hcons _ trivial) (run_silent fun _ => rfl)
  | @create t hnone =>
    have hgoes : Goes w { w.setPending w.current (.acquire tidLock :: .allocateTid t ::
        .release tidLock :: .unblockNew t :: rest) with allList := w.allList ++ [t] }
        (.acquire tidLock :: .allocateTid t :: .release tidLock :: .unblockNew t :: rest) :=
      ⟨rfl, rfl, rfl, fun _ _ => rfl, fun _ _ => rfl, fun _ _ _ h => h⟩
    refine hgo hgoes (fun j hj => ?_) rfl
    simp only [List.mem_cons] at hj
    rcases hj with rfl | rfl | rfl | rfl | hj
    · trivial
    · trivial
    · trivial
    · trivial
    · exact hrest j hj
  | exit =>
    have hgoes : Goes w { w.setPending w.current [] with allList := w.allList.erase w.current } [] :=
      ⟨rfl, rfl, rfl, fun _ _ => rfl, fun _ _ => rfl, fun _ _ _ h => h⟩
    exact hgo hgoes nofun rfl
  | idle => exact h
  | condWait | enqueue | leave | condSignal | signal | signalNone | condBroadcast | broadcast
  | broadcastEnd => exact absurd hi not_false

/-! ### Return from `cond_wait` -/

theorem Broadcasting.leave_not_mem {c' : Nat} (h : Broadcasting c' is) : .leave c ∉ is := by
  cases h <;> simp

theorem Outside.leave_not_mem (h : Outside is) : .leave c ∉ is := by
  cases h with
  | plain h => exact fun hmem => h _ hmem
  | broadcasting h => exact h.leave_not_mem
  | _ => simp

theorem Parked.eq_of_leave {c' : Nat} (h : Parked lockOf t c is) (hmem : .leave c' ∈ is) :
    c' = c := by
  cases h <;> simpa using hmem

theorem Returning.eq_of_leave {c' : Nat} (h : Returning lockOf c is) (hmem : .leave c' ∈ is) :
    c' = c := by
  cases h <;> simpa using hmem

theorem Returning.not_parked {c' : Nat} (h : Returning lockOf c is) : ¬ Parked lockOf t c' is := by
  intro hparked
  cases h <;> cases hparked

theorem Follows.place_returning (h : Follows lockOf m w)
    (hreturning : Returning lockOf c (w.pending t)) : m.place t = .released c := by
  have hplaced := h.places t
  rcases hplace : m.place t with _ | c' | c' | c' <;> rw [hplace] at hplaced
  · exact absurd hreturning.leave_mem hplaced.leave_not_mem
  · exact absurd hplaced.1 hreturning.not_parked
  · exact absurd hplaced.1 hreturning.not_parked
  · rcases hplaced with hparked | hreturning'
    · exact absurd hparked.1 hreturning.not_parked
    · rw [hreturning.eq_of_leave hreturning'.leave_mem]

theorem Follows.place_parked (h : Follows lockOf m w) (hparked : Parked lockOf t c (w.pending t)) :
    (m.place t = .queued c ∨ m.place t = .chosen c) ∧ w.value (.waiter t) = 0 ∨
      m.place t = .released c ∧ w.value (.waiter t) = 1 ∧ t ∉ w.waiters (.waiter t) := by
  have hplaced := h.places t
  rcases hplace : m.place t with _ | c' | c' | c' <;> rw [hplace] at hplaced
  · exact absurd hparked.leave_mem hplaced.leave_not_mem
  · rw [hparked.eq_of_leave hplaced.1.leave_mem]
    exact .inl ⟨.inl rfl, hplaced.2⟩
  · rw [hparked.eq_of_leave hplaced.1.leave_mem]
    exact .inl ⟨.inr rfl, hplaced.2⟩
  · rcases hplaced with hplaced | hreturning
    · rw [hparked.eq_of_leave hplaced.1.leave_mem]
      exact .inr ⟨rfl, hplaced.2⟩
    · exact absurd hparked hreturning.not_parked

theorem Returning.head_ne_up (h : Returning lockOf c is) : is.head? ≠ some (.up (.waiter t)) := by
  cases h <;> simp

theorem Returning.broadcast_not_mem {c' : Nat} (h : Returning lockOf c is) :
    .broadcast c' ∉ is := by
  cases h <;> simp

theorem Returning.needs_lock {c' : Nat} (h : Returning lockOf c is) (hneeds : NeedsLock c' is) :
    c' = c ∧ is = [.leave c] := by
  cases h with
  | leave => simpa [NeedsLock, eq_comm] using hneeds
  | _ => simp [NeedsLock] at hneeds

/-- The current thread goes on with its return. -/
theorem Followed.returns (h : Followed lockOf w) (hgoes : Goes w v is)
    (hreturning : Returning lockOf c (w.pending w.current)) (his : Returning lockOf c is)
    (hlock : is = [.leave c] → v.holder (lockOf c) = some w.current)
    (hrun : Monitor.run v.log = Monitor.run w.log) : Followed lockOf v := by
  obtain ⟨m, hm, h⟩ := h
  refine ⟨m, hrun.trans hm, h.goes hgoes (fun t => ⟨hreturning.head_ne_up, his.head_ne_up⟩)
    (fun c' => iff_of_false his.broadcast_not_mem hreturning.broadcast_not_mem)
    (fun c' hneeds => ?_) ?_⟩
  · obtain ⟨rfl, heq⟩ := his.needs_lock hneeds
    exact hlock heq
  · rw [h.place_returning hreturning]
    refine .inr ?_
    rw [hgoes.pending_self]
    exact his

theorem Followed.returning_effect (h : Followed lockOf w) (hlocks : Locks w)
    (hnext : w.pending w.current = i :: rest) (hreturning : Returning lockOf c (i :: rest))
    (heffect : Effect lockOf w rest i v) : Followed lockOf v := by
  have hold : Returning lockOf c (w.pending w.current) := hnext ▸ hreturning
  have hgo : ∀ {is v}, Goes w v is → Returning lockOf c is → is ≠ [.leave c] →
      Monitor.run v.log = Monitor.run w.log → Followed lockOf v :=
    fun hgoes his hne hrun => h.returns hgoes hold his (fun heq => absurd heq hne) hrun
  have hs : ∀ t ≠ w.current, Semaphore.lock (lockOf c) ≠ .waiter t := fun t _ => nofun
  have hdown : ∀ {s}, Returning lockOf c [.recheck s, .leave c] → s = .lock (lockOf c) →
      i = .down s ∨ i = .recheck s → rest = [.leave c] → Followed lockOf v := by
    rintro s hwait rfl hi rfl
    rcases heffect.down hi with ⟨-, rfl⟩ | ⟨-, rfl⟩
    · exact hgo (.waited w hs _) .recheck nofun rfl
    · exact hgo (.took w hs _) .setHolder nofun (run_silent fun _ => rfl)
  cases hreturning with
  | acquire =>
    cases heffect with
    | acquire hne => exact hgo (.setPending w _) .down nofun rfl
    | wait hor | take hor | fail hor | goOn hor => simp at hor
  | down => exact hdown .recheck rfl (.inl rfl) rfl
  | recheck => exact hdown .recheck rfl (.inr rfl) rfl
  | setHolder =>
    cases heffect with
    | setHolder =>
      refine h.returns (.acquires hlocks hnext) hold .leave (fun _ => ?_) (run_silent fun _ => rfl)
      exact Function.update_self ..
    | wait hor | take hor | fail hor | goOn hor => simp at hor
  | leave =>
    cases heffect with
    | leave =>
      obtain ⟨m, hm, h⟩ := h
      have hplace := h.place_returning hold
      have hheld := h.locked w.current c (.inr (.inr (.inr hnext)))
      have hgoes : Goes w ((w.setPending w.current []).happens
          (.left c w.current (w.holder (lockOf c)))) [] :=
        ⟨rfl, rfl, rfl, fun _ _ => rfl, fun _ _ => rfl, fun _ _ _ h => h⟩
      refine ⟨m.setPlace w.current .outside, ?_, h.stays hgoes .outside (fun c' => ?_)
        (fun t => ⟨hold.head_ne_up, nofun⟩)
        (fun c' => iff_of_false List.not_mem_nil hold.broadcast_not_mem) (fun c' hneeds => ?_) ?_⟩
      · show Monitor.run (.left c w.current (w.holder (lockOf c)) :: w.log) = _
        rw [run_cons hm]
        exact if_pos ⟨hplace, hheld⟩
      · rw [hplace]
        exact ⟨iff_of_false nofun nofun, iff_of_false nofun nofun⟩
      · simp [NeedsLock] at hneeds
      · show Outside (Function.update w.pending w.current [] w.current)
        rw [Function.update_self]
        exact .plain nofun
    | wait hor | take hor | fail hor | goOn hor => simp at hor

/-! ### Waiting -/

theorem Parked.head_ne_up {t' : Nat} (h : Parked lockOf t c is) :
    is.head? ≠ some (.up (.waiter t')) := by
  cases h <;> simp

theorem Parked.broadcast_not_mem {c' : Nat} (h : Parked lockOf t c is) : .broadcast c' ∉ is := by
  cases h <;> simp

theorem Parked.not_needs_lock {c' : Nat} (h : Parked lockOf t c is) : ¬ NeedsLock c' is := by
  cases h <;> simp [NeedsLock]

/-- The current thread goes on to its semaphore, or waits for it. -/
theorem Followed.parks (h : Followed lockOf w) (hgoes : Goes w v is)
    (hparked : Parked lockOf w.current c (w.pending w.current)) (his : Parked lockOf w.current c is)
    (hvalue : v.value (.waiter w.current) = w.value (.waiter w.current))
    (hwaiters : w.value (.waiter w.current) = 0 ∨
      v.waiters (.waiter w.current) = w.waiters (.waiter w.current))
    (hrun : Monitor.run v.log = Monitor.run w.log) : Followed lockOf v := by
  obtain ⟨m, hm, h⟩ := h
  refine ⟨m, hrun.trans hm, h.goes hgoes (fun t => ⟨hparked.head_ne_up, his.head_ne_up⟩)
    (fun c' => iff_of_false his.broadcast_not_mem hparked.broadcast_not_mem)
    (fun c' hneeds => absurd hneeds his.not_needs_lock) ?_⟩
  have his' : Parked lockOf w.current c (v.pending w.current) := hgoes.pending_self.symm ▸ his
  rcases h.place_parked hparked with ⟨hplace, hzero⟩ | ⟨hplace, hone, hnot⟩
  · have hzero' := hvalue.trans hzero
    rcases hplace with hplace | hplace <;> rw [hplace] <;> exact ⟨his', hzero'⟩
  · rw [hplace]
    refine .inl ⟨his', hvalue.trans hone, ?_⟩
    rw [hwaiters.resolve_left (by rw [hone]; nofun)]
    exact hnot

/-- The current thread passes its semaphore. -/
theorem Followed.passes (h : Followed lockOf w)
    (hparked : Parked lockOf w.current c (w.pending w.current))
    (hpos : 0 < w.value (.waiter w.current)) :
    Followed lockOf (w.took (.waiter w.current) [.acquire (lockOf c), .leave c]) := by
  obtain ⟨m, hm, h⟩ := h
  have hs : ∀ t ≠ w.current, Semaphore.waiter w.current ≠ .waiter t := by
    rintro t ht ⟨⟩
    exact ht rfl
  have his : Returning lockOf c [.acquire (lockOf c), .leave c] := .acquire
  have hgoes := Goes.took w hs [.acquire (lockOf c), .leave c]
  refine ⟨m, (run_silent fun _ => rfl).trans hm, h.goes hgoes
    (fun t => ⟨hparked.head_ne_up, his.head_ne_up⟩)
    (fun c' => iff_of_false his.broadcast_not_mem hparked.broadcast_not_mem)
    (fun c' hneeds => by simp [NeedsLock] at hneeds) ?_⟩
  rcases h.place_parked hparked with ⟨-, hzero⟩ | ⟨hplace, -, -⟩
  · rw [hzero] at hpos
    exact absurd hpos (Nat.lt_irrefl 0)
  · rw [hplace]
    refine .inr ?_
    rw [hgoes.pending_self]
    exact his

theorem Followed.parked_effect (h : Followed lockOf w) (hlocks : Locks w)
    (hnext : w.pending w.current = i :: rest) (hparked : Parked lockOf w.current c (i :: rest))
    (heffect : Effect lockOf w rest i v) : Followed lockOf v := by
  have hold : Parked lockOf w.current c (w.pending w.current) := hnext ▸ hparked
  have hs : ∀ t ≠ w.current, Semaphore.waiter w.current ≠ .waiter t := by
    rintro t ht ⟨⟩
    exact ht rfl
  have hdown : (i = .down (.waiter w.current) ∨ i = .recheck (.waiter w.current)) →
      rest = [.acquire (lockOf c), .leave c] → Followed lockOf v := by
    rintro hi rfl
    rcases heffect.down hi with ⟨hzero, rfl⟩ | ⟨hpos, rfl⟩
    · exact h.parks (.waited w hs _) hold .recheck rfl (.inl hzero) rfl
    · exact h.passes hold hpos
  cases hparked with
  | release =>
    cases heffect with
    | release hheld => exact h.parks (.setPending w _) hold .clearHolder rfl (.inr rfl) rfl
    | wait hor | take hor | fail hor | goOn hor => simp at hor
  | clearHolder =>
    cases heffect with
    | clearHolder =>
      exact h.parks (.clears hlocks hnext) hold .up rfl (.inr rfl) (run_silent fun _ => rfl)
    | wait hor | take hor | fail hor | goOn hor => simp at hor
  | up =>
    cases heffect with
    | up =>
      have hne : ∀ t, Semaphore.lock (lockOf c) ≠ .waiter t := fun t => nofun
      have hvalue := Function.update_of_ne (hne w.current).symm
        ((w.value (.lock (lockOf c)) + 1) % 2 ^ 32) w.value
      have hwaiters := Function.update_of_ne (hne w.current).symm
        (w.waiters (.lock (lockOf c))).tail w.waiters
      exact h.parks (.upped w hne _) hold .down hvalue (.inr hwaiters) (run_silent fun _ => rfl)
    | wait hor | take hor | fail hor | goOn hor => simp at hor
  | down => exact hdown (.inl rfl) rfl
  | recheck => exact hdown (.inr rfl) rfl

/-! ### Beginning to wait -/

/-- Nobody broadcasts while another thread holds the lock. -/
theorem Follows.broadcaster (h : Follows lockOf m w) (hheld : w.holder (lockOf c) = some t)
    (hmem : .broadcast c ∈ w.pending u) : u = t := by
  have hholder := h.locked u c (.inr (.inr (.inl hmem)))
  rw [hheld] at hholder
  exact (Option.some.inj hholder).symm

theorem Follows.owed_eq_none (h : Follows lockOf m w) (hheld : w.holder (lockOf c) = some t)
    (hnot : .broadcast c ∉ w.pending t) : m.owed c = none := by
  by_contra hne
  obtain ⟨u, hmem⟩ := h.owed c hne
  rw [h.broadcaster hheld hmem] at hmem
  exact hnot hmem

theorem Followed.condWait (h : Followed lockOf w) (hnext : w.pending w.current = [.condWait c])
    (hheld : w.holder (lockOf c) = some w.current) :
    Followed lockOf (w.setPending w.current [.enqueue c]) := by
  obtain ⟨m, hm, h⟩ := h
  have hout := h.outside (t := w.current) fun c' => by rw [hnext]; simp
  refine ⟨m, hm, h.goes (.setPending w _) (fun t => ?_) (fun c' => ?_) (fun c' hneeds => ?_) ?_⟩
  · rw [hnext]
    simp
  · rw [hnext]
    simp
  · have hc : c' = c := by simpa [NeedsLock, eq_comm] using hneeds
    rw [hc]
    exact hheld
  · rw [hout.1]
    show Outside (Function.update w.pending w.current [.enqueue c] w.current)
    rw [Function.update_self]
    exact .enqueue c

/-- The current thread puts itself on the list of waiters. -/
theorem Followed.enqueue (h : Followed lockOf w) (hnext : w.pending w.current = [.enqueue c]) :
    Followed lockOf ((((w.semaInit (.waiter w.current)).setCondWaiters c
      (w.condWaiters c ++ [w.current])).setPending w.current
        [.release (lockOf c), .down (.waiter w.current), .acquire (lockOf c), .leave c]).happens
          (.began c w.current)) := by
  obtain ⟨m, hm, h⟩ := h
  generalize his : [Instr.release (lockOf c), .down (.waiter w.current), .acquire (lockOf c),
    .leave c] = is
  have hparked : Parked lockOf w.current c is := his ▸ .release
  generalize hv : (((w.semaInit (.waiter w.current)).setCondWaiters c
    (w.condWaiters c ++ [w.current])).setPending w.current is).happens (.began c w.current) = v
  have hs : ∀ t ≠ w.current, Semaphore.waiter w.current ≠ .waiter t := by
    rintro t ht ⟨⟩
    exact ht rfl
  -- all but the list of waiters
  have hgoes : Goes w ((w.semaInit (.waiter w.current)).setPending w.current is) is :=
    (Goes.semaInit w hs).trans (.setPending (w.semaInit (.waiter w.current)) is)
  have hself : v.pending w.current = is := hv ▸ hgoes.pending_self
  have hothers : ∀ t ≠ w.current, v.pending t = w.pending t := fun t ht =>
    hv ▸ hgoes.pending_of_ne ht
  have hhead : (w.pending w.current).head? = some (.enqueue c) := by rw [hnext]; rfl
  have hout := h.outside (t := w.current) fun c' => by rw [hnext]; simp
  have hheld := h.locked w.current c (.inl hhead)
  have hnone := h.owed_eq_none hheld (by rw [hnext]; simp)
  have hplace : ∀ t, t ≠ w.current → (m.began c w.current).place t = m.place t := fun t ht =>
    Function.update_of_ne ht ..
  have hcur : (m.began c w.current).place w.current = .queued c := Function.update_self ..
  have hqueue : (m.began c w.current).queue = Function.update m.queue c (m.queue c ++ [w.current]) :=
    rfl
  refine ⟨m.began c w.current, ?_, fun t => ?_, fun c' => ?_, fun c' t => ?_, fun c' => ?_,
    fun t c' hneeds => ?_, fun u t hu => ?_, fun t c' hchosen => ?_, fun u c' hmem => ?_,
    fun c' hc => ?_⟩
  · rw [← hv]
    have hinit : Event.Silent (.init (.waiter w.current)) := fun _ => rfl
    show Monitor.run (.began c w.current :: .init (.waiter w.current) :: w.log) = _
    rw [run_cons ((run_silent hinit).trans hm)]
    exact if_pos ⟨hout.1, hnone⟩
  · by_cases ht : t = w.current
    · subst ht
      rw [hcur]
      refine ⟨hself ▸ hparked, ?_⟩
      rw [← hv]
      exact Function.update_self ..
    · rw [hplace t ht, ← hv]
      exact hgoes.placed ht (h.places t)
  · rw [← hv, hqueue]
    show Function.update w.condWaiters c (w.condWaiters c ++ [w.current]) c' = _
    rw [Function.update_apply, Function.update_apply, h.queue, h.queue]
  · rw [hqueue, Function.update_apply]
    by_cases ht : t = w.current
    · subst ht
      have hnot : ∀ c', w.current ∉ m.queue c' := fun c' hmem => by
        rw [h.queued, hout.1] at hmem
        nomatch hmem
      rw [hcur]
      split_ifs with hc
      · simp [hc]
      · exact iff_of_false (hnot c') fun heq => hc (by cases heq; rfl)
    · rw [hplace t ht, ← h.queued]
      split_ifs with hc
      · simp [ht, hc]
      · exact Iff.rfl
  · rw [hqueue, Function.update_apply]
    split_ifs with hc
    · refine (h.nodup c).append (List.nodup_singleton _) ?_
      rw [List.disjoint_singleton, h.queued, hout.1]
      nofun
    · exact h.nodup c'
  · by_cases ht : t = w.current
    · rw [ht, hself] at hneeds
      exact absurd hneeds hparked.not_needs_lock
    · rw [hothers t ht] at hneeds
      rw [← hv]
      exact h.locked t c' hneeds
  · by_cases hcurrent : u = w.current
    · rw [hcurrent, hself] at hu
      exact absurd hu hparked.head_ne_up
    · rw [hothers u hcurrent] at hu ⊢
      obtain ⟨c'', hchosen, hholder, hmem⟩ := h.ups u t hu
      have ht : t ≠ w.current := by
        rintro rfl
        rw [hout.1] at hchosen
        nomatch hchosen
      rw [hplace t ht, ← hv]
      exact ⟨c'', hchosen, hholder, hmem⟩
  · have ht : t ≠ w.current := by
      rintro rfl
      rw [hcur] at hchosen
      nomatch hchosen
    rw [hplace t ht] at hchosen
    obtain ⟨u, hu⟩ := h.chosen t c' hchosen
    refine ⟨u, ?_⟩
    rw [hothers]
    · exact hu
    · rintro rfl
      rw [hhead] at hu
      nomatch hu
  · by_cases hu : u = w.current
    · rw [hu, hself] at hmem
      exact absurd hmem hparked.broadcast_not_mem
    · rw [hothers u hu] at hmem ⊢
      have hne : c' ≠ c := by
        rintro rfl
        exact hu (h.broadcaster hheld hmem)
      rw [hqueue, Function.update_of_ne hne]
      exact h.broadcasts u c' hmem
  · obtain ⟨u, hmem⟩ := h.owed c' hc
    refine ⟨u, ?_⟩
    rw [hothers]
    · exact hmem
    · rintro rfl
      rw [hnext] at hmem
      simp at hmem

/-! ### Signals -/

/-- What is behind a signal: nothing, or the rest of a broadcast. -/
def Behind (c : Nat) (rest : List Instr) : Prop := rest = [] ∨ rest = [.broadcast c]

theorem Behind.outside (h : Behind c rest) (t : Nat) : Outside (.up (.waiter t) :: rest) := by
  rcases h with rfl | rfl
  · exact .up t
  · exact .broadcasting (.up t)

theorem Behind.eq_of_mem {c' : Nat} (h : Behind c rest) (hmem : .broadcast c' ∈ rest) : c' = c := by
  rcases h with rfl | rfl
  · nomatch hmem
  · simpa using hmem

theorem Behind.leave_not_mem {c' : Nat} (h : Behind c rest) : .leave c' ∉ rest := by
  rcases h with rfl | rfl <;> simp

/-- The current thread takes the first thread off the list of waiters. -/
theorem Followed.signal (h : Followed lockOf w) (hnext : w.pending w.current = .signal c :: rest)
    (hrest : Behind c rest) {ts : List Nat} (hlist : w.condWaiters c = t :: ts) :
    Followed lockOf (((w.setCondWaiters c ts).setPending w.current
      (.up (.waiter t) :: rest)).happens (.signal c (some t))) := by
  obtain ⟨m, hm, h⟩ := h
  generalize hv : ((w.setCondWaiters c ts).setPending w.current (.up (.waiter t) :: rest)).happens
    (.signal c (some t)) = v
  -- all but the list of waiters
  have hgoes := Goes.setPending w (.up (.waiter t) :: rest)
  have hself : v.pending w.current = .up (.waiter t) :: rest := hv ▸ hgoes.pending_self
  have hothers : ∀ u ≠ w.current, v.pending u = w.pending u := fun u hu =>
    hv ▸ hgoes.pending_of_ne hu
  have hholder : v.holder = w.holder := by rw [← hv]; rfl
  have hhead : (w.pending w.current).head? = some (.signal c) := by rw [hnext]; rfl
  have hbroadcast : ∀ c', .broadcast c' ∈ w.pending w.current ↔ .broadcast c' ∈ rest := fun c' => by
    rw [hnext]
    simp
  have hout := h.outside (t := w.current) fun c' => by
    rw [hnext]
    simpa using hrest.leave_not_mem
  have hheld := h.locked w.current c (.inr (.inl hhead))
  have hqueue : m.queue c = t :: ts := by rw [← h.queue, hlist]
  have hplace : m.place t = .queued c := by
    rw [← h.queued, hqueue]
    exact List.mem_cons_self
  have hnodup := h.nodup c
  rw [hqueue, List.nodup_cons] at hnodup
  have hne : t ≠ w.current := by
    rintro rfl
    rw [hout.1] at hplace
    nomatch hplace
  have ht : (m.signalled c t).place t = .chosen c := Function.update_self ..
  have hplaces : ∀ u, u ≠ t → (m.signalled c t).place u = m.place u := fun u hu =>
    Function.update_of_ne hu ..
  have hqueues : (m.signalled c t).queue = Function.update m.queue c ts := by
    show Function.update m.queue c (m.queue c).tail = _
    rw [hqueue, List.tail_cons]
  refine ⟨m.signalled c t, ?_, fun u => ?_, fun c' => ?_, fun c' u => ?_, fun c' => ?_,
    fun u c' hneeds => ?_, fun u u' hu => ?_, fun u c' hchosen => ?_, fun u c' hmem => ?_,
    fun c' hc => ?_⟩
  · rw [← hv]
    show Monitor.run (.signal c (some t) :: w.log) = _
    rw [run_cons hm]
    exact if_pos (by rw [hqueue]; rfl)
  · by_cases hu : u = w.current
    · rw [hu, hplaces _ hne.symm, hout.1]
      show Outside (v.pending w.current)
      rw [hself]
      exact hrest.outside t
    · have hplaced := h.places u
      by_cases hut : u = t
      · subst hut
        rw [hplace] at hplaced
        rw [ht, ← hv]
        have hchosen : Placed lockOf w u (.chosen c) := hplaced
        exact hgoes.placed hu hchosen
      · rw [hplaces u hut, ← hv]
        exact hgoes.placed hu hplaced
  · rw [← hv, hqueues]
    show Function.update w.condWaiters c ts c' = _
    rw [Function.update_apply, Function.update_apply, h.queue]
  · rw [hqueues, Function.update_apply]
    by_cases hut : u = t
    · subst hut
      rw [ht]
      refine iff_of_false ?_ nofun
      split_ifs with hc
      · exact hnodup.1
      · rw [h.queued, hplace]
        rintro ⟨⟩
        exact hc rfl
    · rw [hplaces u hut, ← h.queued]
      split_ifs with hc
      · rw [hc, hqueue, List.mem_cons, or_iff_right hut]
      · exact Iff.rfl
  · rw [hqueues, Function.update_apply]
    split_ifs with hc
    · exact hnodup.2
    · exact h.nodup c'
  · rw [hholder]
    by_cases hu : u = w.current
    · rw [hu, hself] at hneeds
      have hmem : .broadcast c' ∈ rest := by simpa [NeedsLock] using hneeds
      rw [hrest.eq_of_mem hmem, hu]
      exact hheld
    · rw [hothers u hu] at hneeds
      exact h.locked u c' hneeds
  · rw [hholder]
    by_cases hcurrent : u = w.current
    · rw [hcurrent, hself] at hu ⊢
      obtain rfl : t = u' := by simpa using hu
      exact ⟨c, ht, hheld, fun c' hmem => hrest.eq_of_mem (by simpa using hmem)⟩
    · rw [hothers u hcurrent] at hu ⊢
      obtain ⟨c'', hchosen, hheld', hmem⟩ := h.ups u u' hu
      have hut : u' ≠ t := by
        rintro rfl
        rw [hplace] at hchosen
        nomatch hchosen
      exact ⟨c'', (hplaces u' hut).trans hchosen, hheld', hmem⟩
  · by_cases hut : u = t
    · exact ⟨w.current, by rw [hself, hut]; rfl⟩
    · rw [hplaces u hut] at hchosen
      obtain ⟨u', hu'⟩ := h.chosen u c' hchosen
      refine ⟨u', ?_⟩
      rw [hothers]
      · exact hu'
      · rintro rfl
        rw [hhead] at hu'
        nomatch hu'
  · by_cases hu : u = w.current
    · rw [hu, hself] at hmem ⊢
      have hmem' : .broadcast c' ∈ rest := by simpa using hmem
      obtain rfl := hrest.eq_of_mem hmem'
      have howed := h.broadcasts w.current c' ((hbroadcast c').mpr hmem')
      rw [hnext, hqueue] at howed
      rw [hqueues, Function.update_self]
      exact howed
    · rw [hothers u hu] at hmem ⊢
      have hc : c' ≠ c := by
        rintro rfl
        exact hu (h.broadcaster hheld hmem)
      rw [hqueues, Function.update_of_ne hc]
      exact h.broadcasts u c' hmem
  · obtain ⟨u, hmem⟩ := h.owed c' hc
    by_cases hu : u = w.current
    · rw [hu, hbroadcast] at hmem
      exact ⟨w.current, by rw [hself]; exact List.mem_cons_of_mem _ hmem⟩
    · exact ⟨u, by rw [hothers u hu]; exact hmem⟩

/-- A thread waits for its own semaphore only, and at most once. -/
theorem Scheduled.not_mem_tail (h : Scheduled w) (t : Nat) :
    t ∉ (w.waiters (.waiter t)).tail := by
  intro hmem
  rcases hlist : w.waiters (.waiter t) with _ | ⟨u, us⟩
  · rw [hlist] at hmem
    nomatch hmem
  · rw [hlist, List.tail_cons] at hmem
    have hu : u ∈ w.waiters (.waiter t) := hlist ▸ List.mem_cons_self
    have hown := h.own u _ (List.mem_of_head? (h.waiting _ u hu).2)
    have hnodup := h.waitersNodup (.waiter t)
    rw [hlist, List.nodup_cons] at hnodup
    exact hnodup.1 (hown ▸ hmem)

/-- The current thread wakes the thread up that it has signalled. -/
theorem Followed.wakes (h : Followed lockOf w) (hscheduled : Scheduled w)
    (hnext : w.pending w.current = .up (.waiter t) :: rest)
    (hrest : rest = [] ∨ ∃ c, rest = [.broadcast c]) :
    Followed lockOf ((w.setPending w.current rest).upped (.waiter t)) := by
  obtain ⟨m, hm, h⟩ := h
  generalize hv : (w.setPending w.current rest).upped (.waiter t) = v
  have hpending : v.pending = Function.update w.pending w.current rest := by rw [← hv]; rfl
  have hself : v.pending w.current = rest := by rw [hpending, Function.update_self]
  have hothers : ∀ u ≠ w.current, v.pending u = w.pending u := fun u hu => by
    rw [hpending, Function.update_of_ne hu]
  have hholder : v.holder = w.holder := by rw [← hv]; rfl
  have hvalue : v.value = Function.update w.value (.waiter t) ((w.value (.waiter t) + 1) % 2 ^ 32) := by
    rw [← hv]
    rfl
  have hwaiters : v.waiters = Function.update w.waiters (.waiter t) (w.waiters (.waiter t)).tail := by
    rw [← hv]
    rfl
  have hhead : (w.pending w.current).head? = some (.up (.waiter t)) := by rw [hnext]; rfl
  obtain ⟨c, hplace, hheld, hall⟩ := h.ups w.current t hhead
  have hmem : ∀ c', .broadcast c' ∈ w.pending w.current ↔ .broadcast c' ∈ rest := fun c' => by
    rw [hnext]
    simp
  have hbehind : Behind c rest := by
    rcases hrest with rfl | ⟨c', rfl⟩
    · exact .inl rfl
    · rw [hall c' (by rw [hnext]; simp)]
      exact .inr rfl
  have hout := h.outside (t := w.current) fun c' => by
    rw [hnext]
    simpa using hbehind.leave_not_mem
  have hne : t ≠ w.current := by
    rintro rfl
    rw [hout.1] at hplace
    nomatch hplace
  have ht : (m.released c t).place t = .released c := Function.update_self ..
  have hplaces : ∀ u, u ≠ t → (m.released c t).place u = m.place u := fun u hu =>
    Function.update_of_ne hu ..
  have howeds : (m.released c t).owed = Function.update m.owed c ((m.owed c).map (·.erase t)) := rfl
  refine ⟨m.released c t, ?_, fun u => ?_, fun c' => ?_, fun c' u => ?_, h.nodup,
    fun u c' hneeds => ?_, fun u u' hu => ?_, fun u c' hchosen => ?_, fun u c' hu => ?_,
    fun c' hc => ?_⟩
  · rw [← hv]
    show Monitor.run (.up (.waiter t) :: w.log) = _
    rw [run_cons hm]
    show (match m.place t with | .chosen c => some (m.released c t) | _ => none) = _
    rw [hplace]
  · have hplaced := h.places u
    by_cases hu : u = w.current
    · rw [hu, hplaces _ hne.symm, hout.1]
      show Outside (v.pending w.current)
      rw [hself]
      rcases hbehind with rfl | rfl
      · exact .plain nofun
      · exact .broadcasting .test
    · by_cases hut : u = t
      · subst hut
        rw [hplace] at hplaced
        rw [ht]
        refine .inl ⟨?_, ?_, ?_⟩
        · rw [hothers u hu]
          exact hplaced.1
        · have hzero := hplaced.2
          rw [hvalue, Function.update_self]
          omega
        · rw [hwaiters, Function.update_self]
          exact hscheduled.not_mem_tail u
      · have hs : Semaphore.waiter u ≠ .waiter t := fun heq => hut (by cases heq; rfl)
        rw [hplaces u hut]
        refine hplaced.congr (hothers u hu) ?_ ?_
        · rw [hvalue, Function.update_of_ne hs]
        · rw [hwaiters, Function.update_of_ne hs]
  · rw [← hv]
    exact h.queue c'
  · show u ∈ m.queue c' ↔ _
    rw [h.queued]
    by_cases hut : u = t
    · rw [hut, ht, hplace]
      exact iff_of_false nofun nofun
    · rw [hplaces u hut]
  · rw [hholder]
    by_cases hu : u = w.current
    · rw [hu, hself] at hneeds
      rcases hbehind with rfl | rfl
      · simp [NeedsLock] at hneeds
      · obtain rfl : c' = c := by simpa [NeedsLock, eq_comm] using hneeds
        rw [hu]
        exact hheld
    · rw [hothers u hu] at hneeds
      exact h.locked u c' hneeds
  · rw [hholder]
    by_cases hcurrent : u = w.current
    · rw [hcurrent, hself] at hu
      rcases hbehind with rfl | rfl <;> nomatch hu
    · rw [hothers u hcurrent] at hu ⊢
      obtain ⟨c'', hchosen, hheld', hall'⟩ := h.ups u u' hu
      have hut : u' ≠ t := by
        rintro rfl
        obtain rfl : c = c'' := by simpa [hplace] using hchosen
        rw [hheld] at hheld'
        exact hcurrent (Option.some.inj hheld').symm
      exact ⟨c'', (hplaces u' hut).trans hchosen, hheld', hall'⟩
  · have hut : u ≠ t := by
      rintro rfl
      rw [ht] at hchosen
      nomatch hchosen
    rw [hplaces u hut] at hchosen
    obtain ⟨u', hu'⟩ := h.chosen u c' hchosen
    refine ⟨u', ?_⟩
    rw [hothers]
    · exact hu'
    · rintro rfl
      rw [hhead] at hu'
      exact hut (by simpa [eq_comm] using hu')
  · by_cases hcurrent : u = w.current
    · rw [hcurrent, hself] at hu ⊢
      have howed := h.broadcasts w.current c' ((hmem c').mpr hu)
      obtain rfl := hbehind.eq_of_mem hu
      rw [howeds, Function.update_self, howed, hnext]
      rcases hbehind with rfl | rfl
      · nomatch hu
      · show some ((t :: m.queue c').erase t) = some (m.queue c')
        rw [List.erase_cons_head]
    · rw [hothers u hcurrent] at hu ⊢
      have hc : c' ≠ c := by
        rintro rfl
        exact hcurrent (h.broadcaster hheld hu)
      rw [howeds, Function.update_of_ne hc]
      exact h.broadcasts u c' hu
  · have hold : m.owed c' ≠ none := by
      rw [howeds, Function.update_apply] at hc
      split_ifs at hc with hcc
      · intro hnone
        rw [hcc] at hnone
        rw [hnone] at hc
        exact hc rfl
      · exact hc
    obtain ⟨u, hu⟩ := h.owed c' hold
    by_cases hcurrent : u = w.current
    · rw [hcurrent, hmem] at hu
      exact ⟨w.current, by rw [hself]; exact hu⟩
    · exact ⟨u, by rw [hothers u hcurrent]; exact hu⟩

/-! ### Broadcasts -/

/-- Steps of a signal or of a broadcast that change nothing but what the current thread does next. -/
theorem Followed.goesOutside (h : Followed lockOf w) (hgoes : Goes w v is)
    (hleave : ∀ c, .leave c ∉ w.pending w.current) (his : Outside is)
    (hup : ∀ t, (w.pending w.current).head? ≠ some (.up (.waiter t)) ∧
      is.head? ≠ some (.up (.waiter t)))
    (hbroadcast : ∀ c, .broadcast c ∈ is ↔ .broadcast c ∈ w.pending w.current)
    (hlocked : ∀ c, NeedsLock c is → v.holder (lockOf c) = some w.current)
    (hrun : Monitor.run v.log = Monitor.run w.log) : Followed lockOf v := by
  obtain ⟨m, hm, h⟩ := h
  refine ⟨m, hrun.trans hm, h.goes hgoes hup hbroadcast hlocked ?_⟩
  rw [(h.outside hleave).1]
  show Outside (v.pending w.current)
  rw [hgoes.pending_self]
  exact his

theorem Followed.condSignal (h : Followed lockOf w)
    (hnext : w.pending w.current = .condSignal c :: rest) (hrest : Behind c rest)
    (hheld : w.holder (lockOf c) = some w.current) :
    Followed lockOf (w.setPending w.current (.signal c :: rest)) := by
  refine h.goesOutside (.setPending w _) (fun c' => ?_) ?_ (fun t => ?_) (fun c' => ?_)
    (fun c' hneeds => ?_) rfl
  · rw [hnext]
    simpa using hrest.leave_not_mem
  · rcases hrest with rfl | rfl
    · exact .signal c
    · exact .broadcasting .signal
  · rw [hnext]
    simp
  · rw [hnext]
    simp
  · have hc : c' = c := by
      rcases hneeds with hi | hi | hi | hi
      · nomatch hi
      · simpa [eq_comm] using hi
      · exact hrest.eq_of_mem (by simpa using hi)
      · nomatch hi
    rw [hc]
    exact hheld

/-- There is nobody to signal. -/
theorem Followed.signalNone (h : Followed lockOf w)
    (hnext : w.pending w.current = .signal c :: rest) (hrest : Behind c rest)
    (hnil : w.condWaiters c = []) :
    Followed lockOf ((w.setPending w.current rest).happens (.signal c none)) := by
  obtain ⟨m, hm, hm'⟩ := h
  have hheld := hm'.locked w.current c (.inr (.inl (by rw [hnext]; rfl)))
  have hgoes : Goes w ((w.setPending w.current rest).happens (.signal c none)) rest :=
    ⟨rfl, rfl, rfl, fun _ _ => rfl, fun _ _ => rfl, fun _ _ _ h => h⟩
  refine Followed.goesOutside ⟨m, hm, hm'⟩ hgoes (fun c' => ?_) ?_ (fun t => ?_) (fun c' => ?_)
    (fun c' hneeds => ?_) ?_
  · rw [hnext]
    simpa using hrest.leave_not_mem
  · rcases hrest with rfl | rfl
    · exact .plain nofun
    · exact .broadcasting .test
  · rw [hnext]
    rcases hrest with rfl | rfl <;> simp
  · rw [hnext]
    simp
  · rcases hrest with rfl | rfl
    · simp [NeedsLock] at hneeds
    · obtain rfl : c' = c := by simpa [NeedsLock, eq_comm] using hneeds
      exact hheld
  · show Monitor.run (.signal c none :: w.log) = _
    rw [run_cons hm, hm]
    exact if_pos (by rw [← hm'.queue, hnil])

/-- A broadcast goes on with the next thread. -/
theorem Followed.broadcastGoesOn (h : Followed lockOf w)
    (hnext : w.pending w.current = [.broadcast c]) :
    Followed lockOf (w.setPending w.current [.condSignal c, .broadcast c]) := by
  obtain ⟨m, hm, hm'⟩ := h
  have hheld := hm'.locked w.current c (.inr (.inr (.inl (by rw [hnext]; simp))))
  refine Followed.goesOutside ⟨m, hm, hm'⟩ (.setPending w _) (fun c' => ?_)
    (.broadcasting .condSignal) (fun t => ?_) (fun c' => ?_) (fun c' hneeds => ?_) rfl
  · rw [hnext]
    simp
  · rw [hnext]
    simp
  · rw [hnext]
    simp
  · obtain rfl : c' = c := by simpa [NeedsLock] using hneeds
    exact hheld

/-- A broadcast begins. -/
theorem Followed.broadcasts (h : Followed lockOf w)
    (hnext : w.pending w.current = [.condBroadcast c])
    (hheld : w.holder (lockOf c) = some w.current) :
    Followed lockOf ((w.setPending w.current [.broadcast c]).happens (.broadcast c)) := by
  obtain ⟨m, hm, h⟩ := h
  have hgoes : Goes w ((w.setPending w.current [.broadcast c]).happens (.broadcast c))
      [.broadcast c] := ⟨rfl, rfl, rfl, fun _ _ => rfl, fun _ _ => rfl, fun _ _ _ h => h⟩
  have hout := h.outside (t := w.current) fun c' => by rw [hnext]; simp
  have hnone := h.owed_eq_none hheld (by rw [hnext]; simp)
  have hmoves := h.moves hgoes (m.place w.current) (Function.update m.owed c (some (m.queue c)))
    (fun c' => ⟨Iff.rfl, Iff.rfl⟩) (fun t => by rw [hnext]; simp) (fun c' hmem => ?_)
    (fun u hu c' hmem => ?_) (fun c' hc => ?_) (fun c' hneeds => ?_) ?_
  · rw [Monitor.setPlace, Function.update_eq_self] at hmoves
    refine ⟨m.setOwed c (some (m.queue c)), ?_, hmoves⟩
    show Monitor.run (.broadcast c :: w.log) = _
    rw [run_cons hm]
    exact if_pos hnone
  · obtain rfl : c' = c := by simpa using hmem
    rw [Function.update_self]
  · refine Function.update_of_ne ?_ ..
    rintro rfl
    exact hu (h.broadcaster hheld hmem)
  · rw [Function.update_apply] at hc
    split_ifs at hc with hcc
    · exact .inl (by rw [hcc]; simp)
    · obtain ⟨u, hmem⟩ := h.owed c' hc
      refine .inr ⟨u, ?_, hmem⟩
      rintro rfl
      rw [hnext] at hmem
      simp at hmem
  · obtain rfl : c' = c := by simpa [NeedsLock, eq_comm] using hneeds
    exact hheld
  · rw [hout.1]
    show Outside (Function.update w.pending w.current [.broadcast c] w.current)
    rw [Function.update_self]
    exact .broadcasting .test

/-- A broadcast ends when nobody is left on the list. -/
theorem Followed.broadcastEnds (h : Followed lockOf w)
    (hnext : w.pending w.current = [.broadcast c]) (hnil : w.condWaiters c = []) :
    Followed lockOf ((w.setPending w.current []).happens (.broadcastEnd c)) := by
  obtain ⟨m, hm, h⟩ := h
  have hgoes : Goes w ((w.setPending w.current []).happens (.broadcastEnd c)) [] :=
    ⟨rfl, rfl, rfl, fun _ _ => rfl, fun _ _ => rfl, fun _ _ _ h => h⟩
  have hout := h.outside (t := w.current) fun c' => by rw [hnext]; simp
  have hmem : Instr.broadcast c ∈ w.pending w.current := by
    rw [hnext]
    simp
  have hheld := h.locked w.current c (.inr (.inr (.inl hmem)))
  have hqueue : m.queue c = [] := by rw [← h.queue, hnil]
  have howed := h.broadcasts w.current c hmem
  rw [hnext, hqueue] at howed
  have hmoves := h.moves hgoes (m.place w.current) (Function.update m.owed c none)
    (fun c' => ⟨Iff.rfl, Iff.rfl⟩) (fun t => by rw [hnext]; simp) (fun c' hmem => nomatch hmem)
    (fun u hu c' hother => ?_) (fun c' hc => ?_) (fun c' hneeds => ?_) ?_
  · rw [Monitor.setPlace, Function.update_eq_self] at hmoves
    refine ⟨m.setOwed c none, ?_, hmoves⟩
    show Monitor.run (.broadcastEnd c :: w.log) = _
    rw [run_cons hm]
    exact if_pos ⟨howed, hqueue⟩
  · refine Function.update_of_ne ?_ ..
    rintro rfl
    exact hu (h.broadcaster hheld hother)
  · rw [Function.update_apply] at hc
    split_ifs at hc with hcc
    · exact absurd rfl hc
    · obtain ⟨u, hmem⟩ := h.owed c' hc
      refine .inr ⟨u, ?_, hmem⟩
      rintro rfl
      rw [hnext] at hmem
      exact hcc (by simpa using hmem)
  · simp [NeedsLock] at hneeds
  · rw [hout.1]
    show Outside (Function.update w.pending w.current [] w.current)
    rw [Function.update_self]
    exact .plain nofun

/-! ### Runs -/

/-- A broadcast is called by the holder of the lock; `cond_wait` and `cond_signal` check this
themselves. -/
def Locked (lockOf : Nat → Nat) (i : Instr) (w : State) : Prop :=
  ∀ c, i = .condBroadcast c → w.holder (lockOf c) = some w.current

def BroadcastsLocked (lockOf : Nat → Nat) (a : Action) (w : State) : Prop :=
  a = .run → ∀ i, (w.pending w.current).head? = some i → Locked lockOf i w

theorem Followed.outside_effect (h : Followed lockOf w) (hscheduled : Scheduled w)
    (hlocks : Locks w) (hnext : w.pending w.current = i :: rest) (hout : Outside (i :: rest))
    (hlocked : Locked lockOf i w) (heffect : Effect lockOf w rest i v) : Followed lockOf v := by
  have hsignals : ∀ c, i = .signal c → Behind c rest → Followed lockOf v := by
    rintro c rfl hrest
    cases heffect with
    | signal hlist => exact h.signal hnext hrest hlist
    | signalNone hnil => exact h.signalNone hnext hrest hnil
    | wait hor | take hor | fail hor | goOn hor => simp at hor
  have hcondSignals : ∀ c, i = .condSignal c → Behind c rest → Followed lockOf v := by
    rintro c rfl hrest
    cases heffect with
    | condSignal hheld => exact h.condSignal hnext hrest hheld
    | wait hor | take hor | fail hor | goOn hor => simp at hor
  have hwakes : ∀ t, i = .up (.waiter t) → (rest = [] ∨ ∃ c, rest = [.broadcast c]) →
      Followed lockOf v := by
    rintro t rfl hrest
    cases heffect with
    | up => exact h.wakes hscheduled hnext hrest
    | wait hor | take hor | fail hor | goOn hor => simp at hor
  cases hout with
  | plain hplain => exact h.plain_effect hlocks hnext hplain heffect
  | condWait c =>
    cases heffect with
    | condWait hheld => exact h.condWait hnext hheld
    | wait hor | take hor | fail hor | goOn hor => simp at hor
  | enqueue c =>
    cases heffect with
    | enqueue => exact h.enqueue hnext
    | wait hor | take hor | fail hor | goOn hor => simp at hor
  | condSignal c => exact hcondSignals c rfl (.inl rfl)
  | signal c => exact hsignals c rfl (.inl rfl)
  | up t => exact hwakes t rfl (.inl rfl)
  | condBroadcast c =>
    cases heffect with
    | condBroadcast => exact h.broadcasts hnext (hlocked c rfl)
    | wait hor | take hor | fail hor | goOn hor => simp at hor
  | @broadcasting c _ hbroadcasting =>
    cases hbroadcasting with
    | test =>
      cases heffect with
      | broadcastEnd hnil => exact h.broadcastEnds hnext hnil
      | broadcast hne => exact h.broadcastGoesOn hnext
      | wait hor | take hor | fail hor | goOn hor => simp at hor
    | condSignal => exact hcondSignals c rfl (.inr rfl)
    | signal => exact hsignals c rfl (.inr rfl)
    | up t => exact hwakes t rfl (.inr ⟨c, rfl⟩)

theorem Followed.effect (h : Followed lockOf w) (hscheduled : Scheduled w) (hlocks : Locks w)
    (hnext : w.pending w.current = i :: rest)
    (hlocked : Locked lockOf i w) (heffect : Effect lockOf w rest i v) : Followed lockOf v := by
  obtain ⟨m, hm, hm'⟩ := id h
  have hplaced := hm'.places w.current
  have hparked : ∀ c, Parked lockOf w.current c (w.pending w.current) → Followed lockOf v :=
    fun c hparked => h.parked_effect hlocks hnext (hnext ▸ hparked) heffect
  rcases hplace : m.place w.current with _ | c | c | c <;> rw [hplace] at hplaced
  · exact h.outside_effect hscheduled hlocks hnext (hnext ▸ hplaced) hlocked heffect
  · exact hparked c hplaced.1
  · exact hparked c hplaced.1
  · rcases hplaced with hplaced | hreturning
    · exact hparked c hplaced.1
    · exact h.returning_effect hlocks hnext (hnext ▸ hreturning) heffect

/-- Nothing changes but semaphores that are not waited for in `cond_wait`. -/
theorem Followed.congr (h : Followed lockOf w) (hpending : v.pending = w.pending)
    (hcond : v.condWaiters = w.condWaiters) (hholder : v.holder = w.holder)
    (hvalue : ∀ t, v.value (.waiter t) = w.value (.waiter t))
    (hwaiters : ∀ t, v.waiters (.waiter t) = w.waiters (.waiter t))
    (hrun : Monitor.run v.log = Monitor.run w.log) : Followed lockOf v := by
  obtain ⟨m, hm, h⟩ := h
  refine ⟨m, hrun.trans hm, fun t => (h.places t).congr (congrFun hpending t) (hvalue t)
    (hwaiters t), fun c => (congrFun hcond c).trans (h.queue c), h.queued, h.nodup, ?_, ?_, ?_, ?_,
      ?_⟩
  · rw [hpending, hholder]
    exact h.locked
  · rw [hpending, hholder]
    exact h.ups
  · rw [hpending]
    exact h.chosen
  · rw [hpending]
    exact h.broadcasts
  · rw [hpending]
    exact h.owed

theorem Followed.of_same (h : Followed lockOf w) (hdata : SameData w w') : Followed lockOf w' :=
  h.congr hdata.pending hdata.condWaiters hdata.holder (fun t => congrFun hdata.value _)
    (fun t => congrFun hdata.waiters _) (by rw [hdata.log])

/-- The current thread, which is in no call, makes one. -/
theorem Followed.call (h : Followed lockOf w) (hnil : w.pending w.current = []) (call : Call) :
    Followed lockOf (w.setPending w.current [call.body]) := by
  have hout : Outside [call.body] := by
    cases call
    case condWait c => exact .condWait c
    case condSignal c => exact .condSignal c
    case condBroadcast c => exact .condBroadcast c
    all_goals
      refine .plain fun j hj => ?_
      rw [List.mem_singleton.mp hj]
      trivial
  refine h.goesOutside (.setPending w _) (fun c => ?_) hout (fun t => ⟨?_, ?_⟩) (fun c => ?_)
    (fun c hneeds => ?_) rfl
  · rw [hnil]
    exact List.not_mem_nil
  · rw [hnil]
    nofun
  · cases call <;> nofun
  · rw [hnil]
    cases call <;> simp [Call.body]
  · cases call <;> simp [NeedsLock, Call.body] at hneeds

theorem Followed.turn (h : Followed lockOf w) (hscheduled : Scheduled w) (hlocks : Locks w)
    (hturn : Turn lockOf (Locked lockOf) w v) : Followed lockOf v := by
  cases hturn with
  | call c hnil => exact h.call hnil c
  | same => exact h
  | run hnext hlocked heffect => exact h.effect hscheduled hlocks hnext hlocked heffect
  | @up s hs =>
    have hne : ∀ t, Semaphore.waiter t ≠ s := by
      rintro t rfl
      rcases hs with ⟨n, hs⟩ | ⟨t', hs⟩ <;> nomatch hs
    refine h.congr rfl rfl rfl (fun t => Function.update_of_ne (hne t) ..)
      (fun t => Function.update_of_ne (hne t) ..) (run_silent ?_)
    rcases hs with ⟨n, rfl⟩ | ⟨t', rfl⟩ <;> exact fun _ => rfl
  | @tryDown n hpos =>
    have hne : ∀ t, Semaphore.waiter t ≠ .user n := fun t => nofun
    refine h.congr (Function.update_eq_self ..) rfl rfl
      (fun t => Function.update_of_ne (hne t) (w.value (.user n) - 1) w.value) (fun _ => rfl)
      (run_silent fun _ => rfl)

theorem Followed.steps (h : Followed lockOf w) (hsynchronized : Synchronized values w)
    (hsteps : Steps lockOf (Locked lockOf) w w') :
    Followed lockOf w' ∧ Synchronized values w' := by
  obtain ⟨hsteps, -⟩ := hsteps
  induction hsteps with
  | refl => exact ⟨h, hsynchronized⟩
  | tail _ hstep ih =>
    obtain ⟨v, hturn, hswitched⟩ := id hstep
    exact ⟨(ih.1.turn ih.2.scheduled ih.2.locks hturn).of_same hswitched.data, ih.2.step hstep⟩

/-- A check that an action neither unblocks a thread nor broadcasts without the lock. -/
def orderly (lockOf : Nat → Nat) (a : Action) (w : State) : Bool :=
  unblocksNone a w &&
    match a, (w.pending w.current).head? with
    | .run, some (.condBroadcast c) => w.holder (lockOf c) = some w.current
    | _, _ => true

theorem of_orderly {a : Action} (h : orderly lockOf a w = true) :
    UnblocksBlocked a w ∧ BroadcastsLocked lockOf a w := by
  obtain ⟨hnone, hbroadcasts⟩ := (Bool.and_eq_true _ _).mp h
  refine ⟨of_unblocksNone hnone, ?_⟩
  rintro rfl i hhead c rfl
  rw [hhead] at hbroadcasts
  exact of_decide_eq_true hbroadcasts

theorem followed_started {main idle : Nat} (idleStatus : ThreadStatus) (values : Nat → UInt32) :
    Followed lockOf (started main idle idleStatus values) := by
  have hpending : ∀ t, (started main idle idleStatus values).pending t =
      if t = idle then [.idle] else [] := fun t => rfl
  have hmem : ∀ t i, i ∈ (started main idle idleStatus values).pending t → i = .idle := by
    intro t i hi
    rw [hpending] at hi
    split_ifs at hi
    · exact List.mem_singleton.mp hi
    · nomatch hi
  have hhead : ∀ t i, ((started main idle idleStatus values).pending t).head? = some i →
      i = .idle := fun t i hi => hmem t i (List.mem_of_head? hi)
  refine ⟨.start, rfl, fun t => .plain fun i hi => ?_, fun c => rfl, fun c t => ?_,
    fun c => List.nodup_nil, fun t c hneeds => ?_, fun u t hu => ?_, nofun, fun u c hu => ?_,
      fun c hc => absurd rfl hc⟩
  · rw [hmem t i hi]
    trivial
  · exact iff_of_false List.not_mem_nil nofun
  · rcases hneeds with hi | hi | hi | hi
    · nomatch hhead t _ hi
    · nomatch hhead t _ hi
    · nomatch hmem t _ hi
    · nomatch hmem t (.leave c) (by rw [hi]; simp)
  · nomatch hhead u _ hu
  · nomatch hmem u _ hu

/-- Wherever a run passes, the monitor follows. -/
theorem followed_of_visits {actions : List Action} {w0 : State} (h0 : Followed lockOf w0)
    (hsynchronized : Synchronized values w0)
    (hmay : ∀ a w, Routine.Takes (exec lockOf) actions w0 a w →
      UnblocksBlocked a w ∧ BroadcastsLocked lockOf a w)
    (hvisits : Routine.Visits (exec lockOf) actions w0 w) : Followed lockOf w :=
  (Routine.Visits.invariant (P := fun w => Followed lockOf w ∧ Synchronized values w)
    (fun _ _ _ _ h hmay hrun =>
      h.1.steps h.2 ((wp_exec h.2.scheduled hmay.1 hmay.2).of_ok hrun)) hmay ⟨h0, hsynchronized⟩
    hvisits).1

/-- What the monitor says of the threads.  Those that have begun to wait and have not been released
will find the value 0; one that was signalled is about to be woken up; and one that was released
will not wait again. -/
structure Shows (lockOf : Nat → Nat) (m : Monitor) (w : State) : Prop where
  queue : ∀ c, w.condWaiters c = m.queue c
  waits : ∀ t c, m.place t = .queued c ∨ m.place t = .chosen c →
    Parked lockOf t c (w.pending t) ∧ w.value (.waiter t) = 0
  chosen : ∀ t c, m.place t = .chosen c → ∃ u, (w.pending u).head? = some (.up (.waiter t))
  released : ∀ t c, m.place t = .released c → Parked lockOf t c (w.pending t) →
    w.value (.waiter t) = 1 ∧ t ∉ w.waiters (.waiter t)

theorem Follows.shows (h : Follows lockOf m w) : Shows lockOf m w where
  queue := h.queue
  waits t c hplace := by
    have hplaced := h.places t
    rcases hplace with hplace | hplace <;> rw [hplace] at hplaced <;> exact hplaced
  chosen := h.chosen
  released t c hplace hparked := by
    rcases h.place_parked hparked with ⟨hplace', -⟩ | ⟨-, hvalue⟩
    · rw [hplace] at hplace'
      rcases hplace' with hplace' | hplace' <;> nomatch hplace'
    · exact hvalue

end Threads

/-- Whatever happens around condition variables, the monitor allows it: a signal goes to the thread
that began to wait first, a broadcast to all that have begun, and nobody returns from `cond_wait`
without having been released or without the lock. -/
theorem condition_variables_lose_no_signal (lockOf : Nat → Nat) (main idle : Nat)
    (hne : main ≠ idle) (idleStatus : Threads.ThreadStatus)
    (hidle : Threads.IdleStatus idleStatus) (values : Nat → UInt32)
    (actions : List Threads.Action)
    (hmay : ∀ a w, Routine.Takes (Threads.exec lockOf) actions
      (Threads.started main idle idleStatus values) a w →
        Threads.UnblocksBlocked a w ∧ Threads.BroadcastsLocked lockOf a w)
    (w : Threads.State) (hvisits : Routine.Visits (Threads.exec lockOf) actions
      (Threads.started main idle idleStatus values) w) :
    ∃ m, Threads.Monitor.run w.log = some m ∧ Threads.Shows lockOf m w := by
  obtain ⟨m, hm, h⟩ := Threads.followed_of_visits (Threads.followed_started idleStatus values)
    (Threads.synchronized_started hne hidle values) hmay hvisits
  exact ⟨m, hm, h.shows⟩

/-- The thread in page 2 starts one in page 3 and waits for condition 0; the new thread signals it and
yields. -/
def signalledOnce : List Threads.Action :=
  .call (.threadCreate 3) :: List.replicate 9 .run ++
    .call (.lockAcquire 1) :: List.replicate 3 .run ++
    .call (.condWait 0) :: List.replicate 6 .run ++
    .call (.lockAcquire 1) :: List.replicate 3 .run ++
    .call (.condSignal 0) :: List.replicate 3 .run ++
    .call (.lockRelease 1) :: List.replicate 3 .run ++
    .call .threadYield :: List.replicate 6 .run

/-- It returns with the lock. -/
theorem condition_variables_lose_no_signal_once : ∃ w, Routine.Visits (Threads.exec fun _ => 1)
    signalledOnce (Threads.started 2 1 .blocked fun _ => 0) w ∧ .left 0 2 (some 2) ∈ w.log ∧
      ∃ m, Threads.Monitor.run w.log = some m ∧ Threads.Shows (fun _ => 1) m w := by
  have hleft : (match Routine.execAll (Threads.exec fun _ => 1) signalledOnce
      (Threads.started 2 1 .blocked fun _ => 0) with
    | .ok (_, w) => decide (.left 0 2 (some 2) ∈ w.log)
    | .error _ => false) = true := by
    decide +kernel
  have hcheck : Routine.checkAll (Threads.exec fun _ => 1) (Threads.orderly fun _ => 1)
      signalledOnce (Threads.started 2 1 .blocked fun _ => 0) = true := by
    decide +kernel
  rcases hrun : Routine.execAll (Threads.exec fun _ => 1) signalledOnce
      (Threads.started 2 1 .blocked fun _ => 0) with f | ⟨as, w⟩
  · rw [hrun] at hleft
    nomatch hleft
  · rw [hrun] at hleft
    have hvisits : Routine.Visits (Threads.exec fun _ => 1) signalledOnce
        (Threads.started 2 1 .blocked fun _ => 0) w := ⟨_, [], as, (List.append_nil _).symm, hrun⟩
    exact ⟨w, hvisits, of_decide_eq_true hleft, condition_variables_lose_no_signal (fun _ => 1) 2 1
      (by decide) .blocked (.inl rfl) _ _
      (fun a w htakes => Threads.of_orderly (Routine.of_checkAll hcheck htakes)) w hvisits⟩

end Pintos
