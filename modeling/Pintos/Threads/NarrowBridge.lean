import Mathlib.Data.Finset.Card
import Mathlib.Data.Fintype.Basic
import Mathlib.Logic.Function.Basic
import Pintos.Devices.Block
import Pintos.Library.Weakest

/-! Vehicles on a narrow bridge (`tests/threads/narrow-bridge.c`).  A vehicle decides under a mutex
whether it crosses or waits, but it counts itself among the waiting vehicles after the mutex is free
again, so a vehicle that leaves the bridge meanwhile does not wake it up. -/

namespace Pintos

namespace NarrowBridge

inductive Direction where
  | left
  | right
  deriving DecidableEq

inductive Priority where
  | normal
  | emergency
  deriving DecidableEq

/-- What `vehicle_thread` is told. -/
structure Kind where
  direc : Direction
  prio : Priority
  deriving DecidableEq

/-- `mutex`, and the semaphores for waiting vehicles. -/
inductive Semaphore where
  | mutex
  | waiters (k : Kind)
  deriving DecidableEq

/-- What a vehicle does next: the statements outside the mutex one by one, and what is done under
the mutex after `sema_down` and before `sema_up`. -/
inductive Point where
  | arrive
  | decide
  | crossUp
  | waitUp
  | record
  | down
  | cross
  | exit
  | leave
  | exitUp
  | finished
  deriving DecidableEq

/-- The semaphores with their waiting threads, `waiting_ln` to `waiting_re`, `bridge_direction` and
`bridge_count`. -/
structure Bridge (V : Type) where
  point : V → Point
  value : Semaphore → Nat
  waiters : Semaphore → List V
  waiting : Kind → Nat
  direction : Direction
  count : Nat

/-- `BRIDGE_CAPACITY`. -/
def bridgeCapacity : Nat := 3

abbrev BridgeRoutine (V : Type) := Routine Fault (Bridge V)

/-- The start of `narrow_bridge`, with all vehicles still to arrive. -/
def Bridge.init (V : Type) : Bridge V where
  point _ := .arrive
  value
    | .mutex => 1
    | .waiters _ => 0
  waiters _ := []
  waiting _ := 0
  direction := .left
  count := 0

variable {V : Type} [DecidableEq V]

namespace Bridge

def goTo (w : Bridge V) (v : V) (p : Point) : Bridge V :=
  { w with point := Function.update w.point v p }

def setValue (w : Bridge V) (s : Semaphore) (value : Nat) : Bridge V :=
  { w with value := Function.update w.value s value }

def setWaiters (w : Bridge V) (s : Semaphore) (vs : List V) : Bridge V :=
  { w with waiters := Function.update w.waiters s vs }

def setWaiting (w : Bridge V) (k : Kind) (cnt : Nat) : Bridge V :=
  { w with waiting := Function.update w.waiting k cnt }

/-- The state after `sema_up`: the first waiting thread, if there is one, will look at the value
again. -/
def upped (w : Bridge V) (s : Semaphore) : Bridge V :=
  (w.setWaiters s (w.waiters s).tail).setValue s (w.value s + 1)

end Bridge

/-- A test of the value in `sema_down`. -/
def semaDown (s : Semaphore) (v : V) (next : Point) : BridgeRoutine V Unit := do
  let w ← get
  if w.value s = 0 then set (w.setWaiters s (w.waiters s ++ [v]))
  else set ((w.setValue s (w.value s - 1)).goTo v next)

/-- `sema_up`. -/
def semaUp (s : Semaphore) : BridgeRoutine V Unit := modify fun w => w.upped s

/-- The loop of `ArriveBridge` under the mutex. -/
def arriveBridge (v : V) (k : Kind) : BridgeRoutine V Unit := do
  let w ← get
  let emergencyWaiting := 0 < w.waiting ⟨.left, .emergency⟩ + w.waiting ⟨.right, .emergency⟩
  let allowedToPass := k.prio = .emergency ∨ ¬ emergencyWaiting
  let bridgeEmpty := w.count = 0
  let bridgeAvailable := w.direction = k.direc ∧ w.count < bridgeCapacity
  if allowedToPass ∧ (bridgeEmpty ∨ bridgeAvailable) then
    if bridgeEmpty ∨ w.direction = k.direc then
      if w.count + 1 ≤ bridgeCapacity then
        set { w.goTo v .crossUp with direction := k.direc, count := w.count + 1 }
      else throw (.assertion "bridge_count <= BRIDGE_CAPACITY")
    else throw (.assertion "bridge_empty || bridge_direction == direc")
  else set (w.goTo v .waitUp)

/-- `waiter_sema` for `UP`. -/
def waiterSemaUp (k : Kind) : BridgeRoutine V Unit := do
  modify fun w => w.setWaiting k (w.waiting k - 1)
  semaUp (.waiters k)

/-- The kinds of vehicles that `ExitBridge` looks for, in its order. -/
def wakeOrder (bridgeEmpty : Bool) (direction : Direction) : List Kind :=
  if bridgeEmpty then
    [⟨.left, .emergency⟩, ⟨.right, .emergency⟩, ⟨.left, .normal⟩, ⟨.right, .normal⟩]
  else
    match direction with
    | .left => [⟨.left, .emergency⟩, ⟨.right, .emergency⟩]
    | .right => [⟨.left, .normal⟩, ⟨.right, .normal⟩]

/-- `ExitBridge` under the mutex. -/
def exitBridge (v : V) : BridgeRoutine V Unit := do
  let w ← get
  if 0 < w.count then do
    set { w.goTo v .exitUp with count := w.count - 1 }
    match (wakeOrder (w.count - 1 = 0) w.direction).find? fun k => 0 < w.waiting k with
    | some k => waiterSemaUp k
    | none => pure ()
  else throw (.assertion "bridge_count > 0")

section

variable (kind : V → Kind)

/-- The vehicle waits for a semaphore. -/
def Bridge.Blocked (w : Bridge V) (v : V) : Prop :=
  v ∈ w.waiters .mutex ∨ v ∈ w.waiters (.waiters (kind v))

instance (w : Bridge V) (v : V) : Decidable (w.Blocked kind v) :=
  inferInstanceAs (Decidable (_ ∨ _))

/-- Vehicle `v` is scheduled, and goes on unless it is blocked. -/
def exec (v : V) : BridgeRoutine V Unit := do
  let w ← get
  if w.Blocked kind v then pure ()
  else
    match w.point v with
    | .arrive => semaDown .mutex v .decide
    | .decide => arriveBridge v (kind v)
    | .crossUp => do
      modify (·.goTo v .cross)
      semaUp .mutex
    | .waitUp => do
      modify (·.goTo v .record)
      semaUp .mutex
    | .record => modify fun w => (w.setWaiting (kind v) (w.waiting (kind v) + 1)).goTo v .down
    | .down => semaDown (.waiters (kind v)) v .arrive
    | .cross => modify (·.goTo v .exit)
    | .exit => semaDown .mutex v .leave
    | .leave => exitBridge v
    | .exitUp => do
      modify (·.goTo v .finished)
      semaUp .mutex
    | .finished => pure ()

end

/-! ### What a step does to the traffic -/

/-- Where a vehicle is, as the others see it. -/
inductive Place where
  | approach
  | unrecorded
  | down
  | bridge
  | gone
  deriving DecidableEq

def Point.place : Point → Place
  | arrive | decide => .approach
  | waitUp | record => .unrecorded
  | down => .down
  | crossUp | cross | exit | leave => .bridge
  | exitUp | finished => .gone

variable {kind : V → Kind} {w w' : Bridge V} {u v : V} {k : Kind} {s : Semaphore} {p : Point}

/-- Everything is the same but the mutex and who holds it. -/
structure SameTraffic (w w' : Bridge V) : Prop where
  place : ∀ v, (w'.point v).place = (w.point v).place
  value : ∀ k, w'.value (.waiters k) = w.value (.waiters k)
  waiters : ∀ k, w'.waiters (.waiters k) = w.waiters (.waiters k)
  waiting : w'.waiting = w.waiting
  direction : w'.direction = w.direction
  count : w'.count = w.count

theorem goTo_point (w : Bridge V) (v : V) (p : Point) (u : V) :
    (w.goTo v p).point u = if u = v then p else w.point u := Function.update_apply ..

theorem place_goTo (hp : p.place = (w.point v).place) (u : V) :
    ((w.goTo v p).point u).place = (w.point u).place := by
  rw [goTo_point]
  split_ifs with hu
  · rw [hu, hp]
  · rfl

omit [DecidableEq V] in
theorem mutex_value (w : Bridge V) (n : Nat) (k : Kind) :
    (w.setValue .mutex n).value (.waiters k) = w.value (.waiters k) := by
  have hne : Semaphore.waiters k ≠ .mutex := nofun
  show Function.update w.value .mutex n (.waiters k) = _
  rw [Function.update_of_ne hne]

omit [DecidableEq V] in
theorem mutex_waiters (w : Bridge V) (vs : List V) (k : Kind) :
    (w.setWaiters .mutex vs).waiters (.waiters k) = w.waiters (.waiters k) := by
  have hne : Semaphore.waiters k ≠ .mutex := nofun
  show Function.update w.waiters .mutex vs (.waiters k) = _
  rw [Function.update_of_ne hne]

omit [DecidableEq V] in
theorem SameTraffic.refl (w : Bridge V) : SameTraffic w w :=
  ⟨fun _ => rfl, fun _ => rfl, fun _ => rfl, rfl, rfl, rfl⟩

/-- `sema_down` of the mutex. -/
theorem semaDown_mutex (hp : p.place = (w.point v).place) :
    ∃ w', semaDown .mutex v p w = .ok ((), w') ∧ SameTraffic w w' := by
  rw [semaDown, Routine.get_bind_apply]
  split_ifs
  · exact ⟨_, rfl, fun _ => rfl, fun _ => rfl, mutex_waiters w _, rfl, rfl, rfl⟩
  · exact ⟨_, rfl, place_goTo hp, mutex_value w (w.value .mutex - 1), fun _ => rfl, rfl, rfl, rfl⟩

/-- `sema_up` of the mutex. -/
theorem sameTraffic_upped (hp : p.place = (w.point v).place) :
    SameTraffic w ((w.goTo v p).upped .mutex) :=
  ⟨place_goTo hp, mutex_value w (w.value .mutex + 1), mutex_waiters w (w.waiters .mutex).tail, rfl,
    rfl, rfl⟩

/-- The vehicle that `ExitBridge` wakes up. -/
def Bridge.chosen (w : Bridge V) : Option Kind :=
  (wakeOrder (w.count - 1 = 0) w.direction).find? fun k => 0 < w.waiting k

/-- What waking up changes. -/
def Bridge.wake (w : Bridge V) : Option Kind → Bridge V
  | none => w
  | some k => (w.setWaiting k (w.waiting k - 1)).upped (.waiters k)

/-- What a vehicle that is scheduled can do. -/
inductive Goes (kind : V → Kind) (v : V) (w : Bridge V) : Bridge V → Prop where
  | quiet {w' : Bridge V} (h : SameTraffic w w') : Goes kind v w w'
  | enter (hpoint : w.point v = .decide)
      (hroom : w.count = 0 ∨ w.direction = (kind v).direc ∧ w.count < bridgeCapacity) :
      Goes kind v w { w.goTo v .crossUp with direction := (kind v).direc, count := w.count + 1 }
  | refuse (hpoint : w.point v = .decide)
      (hwait : w.count = 0 → (kind v).prio = .normal ∧
        ∃ k : Kind, k.prio = .emergency ∧ 0 < w.waiting k) : Goes kind v w (w.goTo v .waitUp)
  | record (hpoint : w.point v = .record) :
      Goes kind v w ((w.setWaiting (kind v) (w.waiting (kind v) + 1)).goTo v .down)
  | wait (hpoint : w.point v = .down) (hnot : v ∉ w.waiters (.waiters (kind v)))
      (hzero : w.value (.waiters (kind v)) = 0) :
      Goes kind v w (w.setWaiters (.waiters (kind v)) (w.waiters (.waiters (kind v)) ++ [v]))
  | take (hpoint : w.point v = .down) (hnot : v ∉ w.waiters (.waiters (kind v)))
      (hpos : 0 < w.value (.waiters (kind v))) :
      Goes kind v w ((w.setValue (.waiters (kind v)) (w.value (.waiters (kind v)) - 1)).goTo v
        .arrive)
  | leave (hpoint : w.point v = .leave) (hcount : 0 < w.count) :
      Goes kind v w (Bridge.wake { w.goTo v .exitUp with count := w.count - 1 } w.chosen)

/-- No assertion of `ArriveBridge` fails. -/
theorem arriveBridge_goes (hpoint : w.point v = .decide) :
    ∃ w', arriveBridge v (kind v) w = .ok ((), w') ∧ Goes kind v w w' := by
  rw [arriveBridge, Routine.get_bind_apply]
  dsimp only
  split_ifs with hpass hempty hcapacity
  · exact ⟨_, rfl, .enter hpoint hpass.2⟩
  · unfold bridgeCapacity at *
    omega
  · exact absurd (hpass.2.imp_right And.left) hempty
  · refine ⟨_, rfl, .refuse hpoint fun hcount => ?_⟩
    have hnot : ¬ ((kind v).prio = .emergency ∨ ¬ 0 < w.waiting ⟨.left, .emergency⟩ +
        w.waiting ⟨.right, .emergency⟩) := fun h => hpass ⟨h, .inl hcount⟩
    obtain ⟨hnormal, hwaiting⟩ := not_or.mp hnot
    refine ⟨?_, ?_⟩
    · cases hprio : (kind v).prio with
      | normal => rfl
      | emergency => exact absurd hprio hnormal
    · by_cases hleft : 0 < w.waiting ⟨.left, .emergency⟩
      · exact ⟨_, rfl, hleft⟩
      · exact ⟨⟨.right, .emergency⟩, rfl, by omega⟩

theorem exitBridge_goes (hpoint : w.point v = .leave) (hcount : 0 < w.count) :
    ∃ w', exitBridge v w = .ok ((), w') ∧ Goes kind v w w' := by
  refine ⟨_, ?_, .leave hpoint hcount⟩
  rw [exitBridge, Routine.get_bind_apply, if_pos hcount]
  show _ = Except.ok ((), Bridge.wake _ w.chosen)
  cases hchosen : w.chosen with
  | none =>
    rw [Bridge.chosen] at hchosen
    rw [Routine.set_bind_apply, hchosen]
    rfl
  | some k =>
    rw [Bridge.chosen] at hchosen
    rw [Routine.set_bind_apply, hchosen]
    rfl

theorem exec_goes (hcount : w.point v = .leave → 0 < w.count) :
    ∃ w', exec kind v w = .ok ((), w') ∧ Goes kind v w w' := by
  rw [exec, Routine.get_bind_apply]
  split_ifs with hblocked
  · exact ⟨w, rfl, .quiet (.refl w)⟩
  have hnot : v ∉ w.waiters (.waiters (kind v)) := fun h => hblocked (.inr h)
  cases hpoint : w.point v with
  | arrive =>
    obtain ⟨w', hrun, hsame⟩ := semaDown_mutex (p := .decide) (by rw [hpoint]; rfl)
    exact ⟨w', hrun, .quiet hsame⟩
  | decide => exact arriveBridge_goes hpoint
  | crossUp => exact ⟨_, rfl, .quiet (sameTraffic_upped (by rw [hpoint]; rfl))⟩
  | waitUp => exact ⟨_, rfl, .quiet (sameTraffic_upped (by rw [hpoint]; rfl))⟩
  | record => exact ⟨_, rfl, .record hpoint⟩
  | down =>
    show ∃ w', semaDown (.waiters (kind v)) v .arrive w = .ok ((), w') ∧ _
    rw [semaDown, Routine.get_bind_apply]
    split_ifs with hzero
    · exact ⟨_, rfl, .wait hpoint hnot hzero⟩
    · exact ⟨_, rfl, .take hpoint hnot (Nat.pos_of_ne_zero hzero)⟩
  | cross =>
    refine ⟨_, rfl, .quiet ⟨place_goTo ?_, fun _ => rfl, fun _ => rfl, rfl, rfl, rfl⟩⟩
    rw [hpoint]
    rfl
  | exit =>
    obtain ⟨w', hrun, hsame⟩ := semaDown_mutex (p := .leave) (by rw [hpoint]; rfl)
    exact ⟨w', hrun, .quiet hsame⟩
  | leave => exact exitBridge_goes hpoint (hcount hpoint)
  | exitUp => exact ⟨_, rfl, .quiet (sameTraffic_upped (by rw [hpoint]; rfl))⟩
  | finished => exact ⟨w, rfl, .quiet (.refl w)⟩

/-! ### Who is where -/

section Count

variable [Fintype V]

/-- One more vehicle has a property. -/
theorem card_gain {p p' : V → Prop} [DecidablePred p] [DecidablePred p'] (hv : ¬ p v)
    (hv' : p' v) (hothers : ∀ u, u ≠ v → (p' u ↔ p u)) :
    (Finset.univ.filter p').card = (Finset.univ.filter p).card + 1 := by
  have hinsert : Finset.univ.filter p' = insert v (Finset.univ.filter p) := by
    ext u
    rw [Finset.mem_insert, Finset.mem_filter_univ, Finset.mem_filter_univ]
    by_cases hu : u = v
    · simp [hu, hv']
    · simp [hu, hothers u hu]
  rw [hinsert, Finset.card_insert_of_notMem]
  rw [Finset.mem_filter_univ]
  exact hv

/-- The vehicles on the bridge. -/
def Bridge.crossing (w : Bridge V) : Finset V :=
  Finset.univ.filter fun v => (w.point v).place = .bridge

/-- The vehicles of a kind that have counted themselves as waiting and have not passed the semaphore
since. -/
def Bridge.downs (w : Bridge V) (k : Kind) (kind : V → Kind) : Finset V :=
  Finset.univ.filter fun v => kind v = k ∧ (w.point v).place = .down

/-- The bridge is in order: `bridge_count` counts the vehicles on the bridge, which are few and go
in one direction, and a vehicle at its semaphore is counted as waiting or can pass. -/
structure Sound (kind : V → Kind) (w : Bridge V) : Prop where
  count : w.crossing.card = w.count
  capacity : w.count ≤ bridgeCapacity
  direction : ∀ v, (w.point v).place = .bridge → w.direction = (kind v).direc
  downs : ∀ k, (w.downs k kind).card = w.waiting k + w.value (.waiters k)
  waiters : ∀ k, ∀ v ∈ w.waiters (.waiters k), kind v = k ∧ (w.point v).place = .down
  nodup : ∀ k, (w.waiters (.waiters k)).Nodup
  length : ∀ k, (w.waiters (.waiters k)).length ≤ w.waiting k

/-- A vehicle goes from one place to another. -/
structure Relocates (v : V) (w w' : Bridge V) (a b : Place) : Prop where
  old : (w.point v).place = a
  new : (w'.point v).place = b
  others : ∀ u, u ≠ v → (w'.point u).place = (w.point u).place

variable {a b : Place}

omit [Fintype V] in
theorem relocates_goTo (hpoint : w.point v = p) (p' : Point)
    (hpoint' : w'.point = Function.update w.point v p') :
    Relocates v w w' p.place p'.place where
  old := by rw [hpoint]
  new := by rw [hpoint', Function.update_self]
  others u hu := by rw [hpoint', Function.update_of_ne hu]

theorem Relocates.crossing_same (h : Relocates v w w' a b) (ha : a ≠ .bridge) (hb : b ≠ .bridge) :
    w'.crossing.card = w.crossing.card := by
  refine congrArg Finset.card (Finset.filter_congr fun u _ => ?_)
  by_cases hu : u = v
  · rw [hu, h.old, h.new]
    exact iff_of_false hb ha
  · rw [h.others u hu]

theorem Relocates.crossing_gain (h : Relocates v w w' a .bridge) (ha : a ≠ .bridge) :
    w'.crossing.card = w.crossing.card + 1 := by
  refine card_gain (v := v) ?_ h.new fun u hu => by rw [h.others u hu]
  rw [h.old]
  exact ha

theorem Relocates.crossing_loss (h : Relocates v w w' .bridge b) (hb : b ≠ .bridge) :
    w.crossing.card = w'.crossing.card + 1 := by
  refine card_gain (v := v) ?_ h.old fun u hu => by rw [h.others u hu]
  rw [h.new]
  exact hb

theorem Relocates.downs_same (h : Relocates v w w' a b) (ha : a ≠ .down) (hb : b ≠ .down)
    (k : Kind) : (w'.downs k kind).card = (w.downs k kind).card := by
  refine congrArg Finset.card (Finset.filter_congr fun u _ => ?_)
  by_cases hu : u = v
  · rw [hu, h.old, h.new]
    exact iff_of_false (fun hk => hb hk.2) fun hk => ha hk.2
  · rw [h.others u hu]

theorem Relocates.downs_gain (h : Relocates v w w' a .down) (ha : a ≠ .down) (k : Kind) :
    (w'.downs k kind).card = (w.downs k kind).card + if k = kind v then 1 else 0 := by
  split_ifs with hk
  · refine card_gain (v := v) ?_ ⟨hk.symm, h.new⟩ fun u hu => by rw [h.others u hu]
    rw [h.old]
    exact fun hk => ha hk.2
  · refine congrArg Finset.card (Finset.filter_congr fun u _ => ?_)
    by_cases hu : u = v
    · rw [hu]
      exact iff_of_false (fun hu => hk hu.1.symm) fun hu => hk hu.1.symm
    · rw [h.others u hu]

theorem Relocates.downs_loss (h : Relocates v w w' .down b) (hb : b ≠ .down) (k : Kind) :
    (w.downs k kind).card = (w'.downs k kind).card + if k = kind v then 1 else 0 := by
  have hback : Relocates v w' w b .down := ⟨h.new, h.old, fun u hu => (h.others u hu).symm⟩
  exact hback.downs_gain hb k

/-- The other vehicles on the bridge go on in their direction. -/
theorem Sound.direction_of (h : Sound kind w) (hmoves : Relocates v w w' a b)
    (hdirection : w'.direction = w.direction) (hb : b = .bridge → a = .bridge) (u : V)
    (hu : (w'.point u).place = .bridge) : w'.direction = (kind u).direc := by
  rw [hdirection]
  refine h.direction u ?_
  by_cases huv : u = v
  · rw [huv, hmoves.new] at hu
    rw [huv, hmoves.old]
    exact hb hu
  · rwa [← hmoves.others u huv]

omit [DecidableEq V] in
/-- The vehicles that wait for their semaphores are where they were. -/
theorem Sound.waiters_of (h : Sound kind w) (hmoves : Relocates v w w' a b)
    (hnot : ∀ k, v ∉ w.waiters (.waiters k)) (hwaiters : ∀ k u, u ∈ w'.waiters (.waiters k) →
      u ∈ w.waiters (.waiters k)) (k : Kind) (u : V) (hu : u ∈ w'.waiters (.waiters k)) :
    kind u = k ∧ (w'.point u).place = .down := by
  have hold := hwaiters k u hu
  rw [hmoves.others u fun huv => hnot k (huv ▸ hold)]
  exact h.waiters k u hold

omit [DecidableEq V] in
theorem Sound.not_waiting (h : Sound kind w) (hpoint : (w.point v).place ≠ .down) (k : Kind) :
    v ∉ w.waiters (.waiters k) := fun hmem => hpoint (h.waiters k v hmem).2

omit [DecidableEq V] in
/-- A vehicle that waits for some semaphore waits for that of its kind. -/
theorem Sound.not_waiting_of_kind (h : Sound kind w) (hnot : v ∉ w.waiters (.waiters (kind v)))
    (k : Kind) : v ∉ w.waiters (.waiters k) := by
  intro hmem
  rw [(h.waiters k v hmem).1] at hnot
  exact hnot hmem

omit [DecidableEq V] in
theorem Sound.quiet (h : Sound kind w) (hsame : SameTraffic w w') : Sound kind w' where
  count := by
    rw [hsame.count, ← h.count]
    refine congrArg Finset.card (Finset.filter_congr fun u _ => ?_)
    rw [hsame.place]
  capacity := by
    rw [hsame.count]
    exact h.capacity
  direction u hu := by
    rw [hsame.direction]
    exact h.direction u (hsame.place u ▸ hu)
  downs k := by
    rw [hsame.waiting, hsame.value, ← h.downs]
    refine congrArg Finset.card (Finset.filter_congr fun u _ => ?_)
    rw [hsame.place]
  waiters k u hu := by
    rw [hsame.place]
    exact h.waiters k u (hsame.waiters k ▸ hu)
  nodup k := by
    rw [hsame.waiters]
    exact h.nodup k
  length k := by
    rw [hsame.waiters, hsame.waiting]
    exact h.length k

theorem Sound.enter (h : Sound kind w) (hpoint : w.point v = .decide)
    (hroom : w.count = 0 ∨ w.direction = (kind v).direc ∧ w.count < bridgeCapacity) :
    Sound kind { w.goTo v .crossUp with direction := (kind v).direc, count := w.count + 1 } := by
  have hmoves : Relocates v w { w.goTo v .crossUp with
      direction := (kind v).direc, count := w.count + 1 } .approach .bridge :=
    relocates_goTo hpoint .crossUp rfl
  constructor
  · rw [hmoves.crossing_gain nofun, h.count]
  · show w.count + 1 ≤ bridgeCapacity
    unfold bridgeCapacity at *
    omega
  · intro u hu
    by_cases huv : u = v
    · rw [huv]
    · rw [hmoves.others u huv] at hu
      rcases hroom with hempty | ⟨hdirection, -⟩
      · rw [← h.count, Finset.card_eq_zero] at hempty
        have hmem : u ∈ w.crossing := (Finset.mem_filter_univ u).mpr hu
        rw [hempty] at hmem
        exact absurd hmem (Finset.notMem_empty u)
      · exact hdirection.symm.trans (h.direction u hu)
  · intro k
    rw [hmoves.downs_same nofun nofun]
    exact h.downs k
  · exact h.waiters_of hmoves (h.not_waiting (by rw [hpoint]; nofun)) fun _ _ hu => hu
  · exact h.nodup
  · exact h.length

theorem Sound.refuse (h : Sound kind w) (hpoint : w.point v = .decide) :
    Sound kind (w.goTo v .waitUp) := by
  have hmoves : Relocates v w (w.goTo v .waitUp) .approach .unrecorded :=
    relocates_goTo hpoint .waitUp rfl
  constructor
  · rw [hmoves.crossing_same nofun nofun]
    exact h.count
  · exact h.capacity
  · exact h.direction_of hmoves rfl nofun
  · intro k
    rw [hmoves.downs_same nofun nofun]
    exact h.downs k
  · exact h.waiters_of hmoves (h.not_waiting (by rw [hpoint]; nofun)) fun _ _ hu => hu
  · exact h.nodup
  · exact h.length

omit [DecidableEq V] [Fintype V] in
theorem setWaiting_waiting (w : Bridge V) (k k' : Kind) (n : Nat) :
    (w.setWaiting k n).waiting k' = if k' = k then n else w.waiting k' :=
  Function.update_apply ..

theorem Sound.record (h : Sound kind w) (hpoint : w.point v = .record) :
    Sound kind ((w.setWaiting (kind v) (w.waiting (kind v) + 1)).goTo v .down) := by
  have hmoves : Relocates v w ((w.setWaiting (kind v) (w.waiting (kind v) + 1)).goTo v .down)
      .unrecorded .down := relocates_goTo hpoint .down rfl
  have hwaiting : ∀ k, ((w.setWaiting (kind v) (w.waiting (kind v) + 1)).goTo v .down).waiting k =
      w.waiting k + if k = kind v then 1 else 0 := fun k => by
    show (w.setWaiting (kind v) (w.waiting (kind v) + 1)).waiting k = _
    rw [setWaiting_waiting]
    split_ifs with hk
    · rw [hk]
    · rfl
  constructor
  · rw [hmoves.crossing_same nofun nofun]
    exact h.count
  · exact h.capacity
  · exact h.direction_of hmoves rfl nofun
  · intro k
    have hold := h.downs k
    rw [hmoves.downs_gain nofun, hwaiting]
    show _ = _ + w.value (.waiters k)
    omega
  · exact h.waiters_of hmoves (h.not_waiting (by rw [hpoint]; nofun)) fun _ _ hu => hu
  · exact h.nodup
  · intro k
    rw [hwaiting]
    exact Nat.le_trans (h.length k) (Nat.le_add_right _ _)

omit [DecidableEq V] [Fintype V] in
theorem update_waiters {α : Type} (f : Semaphore → α) (k k' : Kind) (x : α) :
    Function.update f (.waiters k) x (.waiters k') = if k' = k then x else f (.waiters k') := by
  rw [Function.update_apply]
  simp

theorem Sound.wait (h : Sound kind w) (hpoint : w.point v = .down)
    (hnot : v ∉ w.waiters (.waiters (kind v))) (hzero : w.value (.waiters (kind v)) = 0) :
    Sound kind (w.setWaiters (.waiters (kind v)) (w.waiters (.waiters (kind v)) ++ [v])) := by
  have hplace : (w.point v).place = .down := by rw [hpoint]; rfl
  have hwaiters : ∀ k, (w.setWaiters (.waiters (kind v))
      (w.waiters (.waiters (kind v)) ++ [v])).waiters (.waiters k) =
        if k = kind v then w.waiters (.waiters (kind v)) ++ [v] else w.waiters (.waiters k) :=
    fun k => update_waiters ..
  refine ⟨h.count, h.capacity, h.direction, h.downs, fun k u hu => ?_, fun k => ?_, fun k => ?_⟩
  · rw [hwaiters] at hu
    split_ifs at hu with hk
    · rcases List.mem_append.mp hu with hu | hu
      · rw [hk]
        exact h.waiters _ u hu
      · rw [List.mem_singleton.mp hu, hk]
        exact ⟨rfl, hplace⟩
    · exact h.waiters k u hu
  · rw [hwaiters]
    split_ifs
    · exact List.nodup_append_comm.mp (List.nodup_cons.mpr ⟨hnot, h.nodup _⟩)
    · exact h.nodup k
  · rw [hwaiters]
    split_ifs with hk
    · -- the waiting vehicles and this one are all counted
      have hsub : insert v (w.waiters (.waiters (kind v))).toFinset ⊆ w.downs (kind v) kind := by
        intro u hu
        refine (Finset.mem_filter_univ u).mpr ?_
        rcases Finset.mem_insert.mp hu with rfl | hu
        · exact ⟨rfl, hplace⟩
        · exact h.waiters _ u (List.mem_toFinset.mp hu)
      have hcard := Finset.card_le_card hsub
      rw [Finset.card_insert_of_notMem fun hmem => hnot (List.mem_toFinset.mp hmem),
        List.toFinset_card_of_nodup (h.nodup _), h.downs, hzero] at hcard
      rw [hk, List.length_append]
      exact hcard
    · exact h.length k

theorem Sound.take (h : Sound kind w) (hpoint : w.point v = .down)
    (hnot : v ∉ w.waiters (.waiters (kind v))) (hpos : 0 < w.value (.waiters (kind v))) :
    Sound kind ((w.setValue (.waiters (kind v)) (w.value (.waiters (kind v)) - 1)).goTo v
      .arrive) := by
  have hmoves : Relocates v w ((w.setValue (.waiters (kind v))
      (w.value (.waiters (kind v)) - 1)).goTo v .arrive) .down .approach :=
    relocates_goTo hpoint .arrive rfl
  constructor
  · rw [hmoves.crossing_same nofun nofun]
    exact h.count
  · exact h.capacity
  · exact h.direction_of hmoves rfl nofun
  · intro k
    have hold := h.downs k
    rw [hmoves.downs_loss nofun] at hold
    show _ = w.waiting k + Function.update w.value _ _ (.waiters k)
    rw [update_waiters]
    split_ifs at hold ⊢ with hk
    · rw [hk] at hold ⊢
      omega
    · exact hold
  · exact h.waiters_of hmoves (h.not_waiting_of_kind hnot) fun _ _ hu => hu
  · exact h.nodup
  · exact h.length

/-- A vehicle leaves the bridge. -/
theorem Sound.left (h : Sound kind w) (hpoint : w.point v = .leave) (hcount : 0 < w.count) :
    Sound kind { w.goTo v .exitUp with count := w.count - 1 } := by
  have hmoves : Relocates v w { w.goTo v .exitUp with count := w.count - 1 } .bridge .gone :=
    relocates_goTo hpoint .exitUp rfl
  constructor
  · have hloss := hmoves.crossing_loss nofun
    rw [h.count] at hloss
    show _ = w.count - 1
    omega
  · exact Nat.le_trans (Nat.sub_le _ _) h.capacity
  · exact h.direction_of hmoves rfl nofun
  · intro k
    rw [hmoves.downs_same nofun nofun]
    exact h.downs k
  · exact h.waiters_of hmoves (h.not_waiting (by rw [hpoint]; nofun)) fun _ _ hu => hu
  · exact h.nodup
  · exact h.length

omit [DecidableEq V] in
/-- A vehicle that is counted as waiting is woken up. -/
theorem Sound.woken (h : Sound kind w) (hpos : 0 < w.waiting k) :
    Sound kind ((w.setWaiting k (w.waiting k - 1)).upped (.waiters k)) := by
  have hwaiting : ∀ k', ((w.setWaiting k (w.waiting k - 1)).upped (.waiters k)).waiting k' =
      if k' = k then w.waiting k - 1 else w.waiting k' := fun k' => setWaiting_waiting w k k' _
  have hvalue : ∀ k', ((w.setWaiting k (w.waiting k - 1)).upped (.waiters k)).value (.waiters k') =
      if k' = k then w.value (.waiters k) + 1 else w.value (.waiters k') := fun k' =>
    update_waiters ..
  have hwaiters : ∀ k', ((w.setWaiting k (w.waiting k - 1)).upped (.waiters k)).waiters
      (.waiters k') = if k' = k then (w.waiters (.waiters k)).tail else w.waiters (.waiters k') :=
    fun k' => update_waiters ..
  refine ⟨h.count, h.capacity, h.direction, fun k' => ?_, fun k' u hu => ?_, fun k' => ?_,
    fun k' => ?_⟩
  · have hold := h.downs k'
    rw [hwaiting, hvalue]
    refine hold.trans ?_
    split_ifs with hk
    · rw [hk]
      omega
    · rfl
  · rw [hwaiters] at hu
    split_ifs at hu with hk
    · rw [hk]
      exact h.waiters k u (List.mem_of_mem_tail hu)
    · exact h.waiters k' u hu
  · rw [hwaiters]
    split_ifs
    · exact (h.nodup k).tail
    · exact h.nodup k'
  · have hold := h.length k'
    rw [hwaiters, hwaiting]
    split_ifs with hk
    · rw [hk] at hold
      rw [List.length_tail]
      omega
    · exact hold

omit [DecidableEq V] [Fintype V] in
theorem waiting_chosen (h : w.chosen = some k) : 0 < w.waiting k := by
  rw [Bridge.chosen] at h
  simpa using List.find?_some h

/-- The bridge stays in order. -/
theorem Sound.goes (h : Sound kind w) (hgoes : Goes kind v w w') : Sound kind w' := by
  cases hgoes with
  | quiet hsame => exact h.quiet hsame
  | enter hpoint hroom => exact h.enter hpoint hroom
  | refuse hpoint hwait => exact h.refuse hpoint
  | record hpoint => exact h.record hpoint
  | wait hpoint hnot hzero => exact h.wait hpoint hnot hzero
  | take hpoint hnot hpos => exact h.take hpoint hnot hpos
  | leave hpoint hcount =>
    have hleft := h.left hpoint hcount
    cases hchosen : w.chosen with
    | none => exact hleft
    | some k =>
      have hpos : 0 < w.waiting k := waiting_chosen hchosen
      exact hleft.woken hpos

omit [DecidableEq V] in
/-- A vehicle on the bridge is counted. -/
theorem Sound.count_pos (h : Sound kind w) (hv : (w.point v).place = .bridge) : 0 < w.count := by
  rw [← h.count]
  exact Finset.card_pos.mpr ⟨v, (Finset.mem_filter_univ v).mpr hv⟩

/-- A vehicle that is scheduled fails no assertion. -/
theorem Sound.exec (h : Sound kind w) (v : V) :
    ∃ w', exec kind v w = .ok ((), w') ∧ Goes kind v w w' :=
  exec_goes fun hpoint => h.count_pos (v := v) (by rw [hpoint]; rfl)

/-! ### Nobody is forgotten -/

/-- Some vehicle of these kinds will test the bridge: it has been woken up, or it is about to. -/
def Awake (kind : V → Kind) (w : Bridge V) (p : Kind → Prop) : Prop :=
  (∃ k, p k ∧ 0 < w.value (.waiters k)) ∨ ∃ v, p (kind v) ∧ (w.point v).place = .approach

/-- Some vehicle of these kinds is counted as waiting. -/
def Recorded (w : Bridge V) (p : Kind → Prop) : Prop := ∃ k, p k ∧ 0 < w.waiting k

/-- Some vehicle of these kinds has decided to wait, and is not counted yet. -/
def Unrecorded (kind : V → Kind) (w : Bridge V) (p : Kind → Prop) : Prop :=
  ∃ v, p (kind v) ∧ (w.point v).place = .unrecorded

/-- If some vehicle of these kinds waits, another one will test the bridge. -/
def Served (kind : V → Kind) (w : Bridge V) (p : Kind → Prop) : Prop :=
  Recorded w p ∨ Unrecorded kind w p → Awake kind w p

def IsEmergency (k : Kind) : Prop := k.prio = .emergency

def IsVehicle (_ : Kind) : Prop := True

/-- While the bridge is empty, the vehicles that wait are served, and so are the emergency
vehicles. -/
def AllServed (kind : V → Kind) (w : Bridge V) : Prop :=
  w.count = 0 → Served kind w IsEmergency ∧ Served kind w IsVehicle

/-- A vehicle that leaves the bridge empty forgets no vehicle that has decided to wait and is not
counted yet: it wakes up another one, or one will test the bridge anyway, and in the same way for
emergency vehicles. -/
def NoneForgotten (kind : V → Kind) (v : V) (w : Bridge V) : Prop :=
  w.point v = .leave → w.count = 1 → ∀ p, p = IsEmergency ∨ p = IsVehicle →
    Unrecorded kind w p → Recorded w p ∨ Awake kind w p

section Served

variable {q : Kind → Prop}

omit [DecidableEq V] [Fintype V] in
theorem Served.quiet (h : Served kind w q) (hsame : SameTraffic w w') : Served kind w' q := by
  intro hneed
  have hold : Recorded w q ∨ Unrecorded kind w q := by
    refine hneed.imp (fun ⟨k, hk, hpos⟩ => ⟨k, hk, ?_⟩) fun ⟨u, hu, hplace⟩ => ⟨u, hu, ?_⟩
    · rwa [hsame.waiting] at hpos
    · rwa [hsame.place] at hplace
  refine (h hold).imp (fun ⟨k, hk, hpos⟩ => ⟨k, hk, ?_⟩) fun ⟨u, hu, hplace⟩ => ⟨u, hu, ?_⟩
  · rwa [hsame.value]
  · rwa [hsame.place]

variable {a b : Place}

omit [DecidableEq V] [Fintype V] in
/-- A vehicle that was not about to test the bridge goes somewhere, and no value falls. -/
theorem Awake.mono (h : Awake kind w q) (hmoves : Relocates v w w' a b) (ha : a ≠ .approach)
    (hvalue : ∀ k, w.value (.waiters k) ≤ w'.value (.waiters k)) : Awake kind w' q := by
  refine h.imp (fun ⟨k, hk, hpos⟩ => ⟨k, hk, Nat.lt_of_lt_of_le hpos (hvalue k)⟩)
    fun ⟨u, hu, hplace⟩ => ⟨u, hu, ?_⟩
  rw [hmoves.others]
  · exact hplace
  · rintro rfl
    rw [hmoves.old] at hplace
    exact ha hplace

omit [DecidableEq V] [Fintype V] in
theorem Unrecorded.back (h : Unrecorded kind w' q) (hmoves : Relocates v w w' a b)
    (hb : b ≠ .unrecorded) : Unrecorded kind w q := by
  obtain ⟨u, hu, hplace⟩ := h
  refine ⟨u, hu, ?_⟩
  rw [← hmoves.others]
  · exact hplace
  · rintro rfl
    rw [hmoves.new] at hplace
    exact hb hplace

omit [Fintype V] in
/-- A normal vehicle decides to wait, since an emergency vehicle waits. -/
theorem Served.refuse (h : Served kind w IsEmergency) (hq : ∀ k, IsEmergency k → q k)
    (hnormal : (kind v).prio = .normal) (hwaiting : ∃ k : Kind, k.prio = .emergency ∧
      0 < w.waiting k) : Served kind (w.goTo v .waitUp) q := by
  intro _
  refine (h (.inl hwaiting)).imp (fun ⟨k, hk, hpos⟩ => ⟨k, hq k hk, hpos⟩)
    fun ⟨u, hu, hplace⟩ => ⟨u, hq _ hu, ?_⟩
  rw [goTo_point, if_neg]
  · exact hplace
  · rintro rfl
    rw [IsEmergency, hnormal] at hu
    cases hu

omit [Fintype V] in
theorem Served.record (h : Served kind w q) (hpoint : w.point v = .record) :
    Served kind ((w.setWaiting (kind v) (w.waiting (kind v) + 1)).goTo v .down) q := by
  have hmoves : Relocates v w ((w.setWaiting (kind v) (w.waiting (kind v) + 1)).goTo v .down)
      .unrecorded .down := relocates_goTo hpoint .down rfl
  intro hneed
  have hold : Recorded w q ∨ Unrecorded kind w q := by
    rcases hneed with ⟨k, hk, hpos⟩ | hunrecorded
    · replace hpos : 0 < (w.setWaiting (kind v) (w.waiting (kind v) + 1)).waiting k := hpos
      rw [setWaiting_waiting] at hpos
      split_ifs at hpos with hkind
      · exact .inr ⟨v, hkind ▸ hk, hmoves.old⟩
      · exact .inl ⟨k, hk, hpos⟩
    · exact .inr (hunrecorded.back hmoves nofun)
  exact (h hold).mono hmoves nofun fun _ => Nat.le_refl _

omit [Fintype V] in
theorem Served.take (h : Served kind w q) (hpoint : w.point v = .down) :
    Served kind ((w.setValue (.waiters (kind v)) (w.value (.waiters (kind v)) - 1)).goTo v
      .arrive) q := by
  have hmoves : Relocates v w ((w.setValue (.waiters (kind v))
      (w.value (.waiters (kind v)) - 1)).goTo v .arrive) .down .approach :=
    relocates_goTo hpoint .arrive rfl
  intro hneed
  rcases h (hneed.imp_right fun hunrecorded => hunrecorded.back hmoves nofun) with
    ⟨k, hk, hpos⟩ | ⟨u, hu, hplace⟩
  · by_cases hkind : k = kind v
    · exact .inr ⟨v, hkind ▸ hk, hmoves.new⟩
    · refine .inl ⟨k, hk, ?_⟩
      show 0 < Function.update w.value _ _ (.waiters k)
      rw [update_waiters, if_neg hkind]
      exact hpos
  · refine .inr ⟨u, hu, ?_⟩
    rw [hmoves.others]
    · exact hplace
    · rintro rfl
      rw [hmoves.old] at hplace
      cases hplace

omit [DecidableEq V] [Fintype V] in
/-- A vehicle that leaves the bridge empty wakes up an emergency vehicle, if one is counted as
waiting, and else a normal one. -/
theorem chosen_of_recorded (hcount : w.count = 1) (hq : q = IsEmergency ∨ q = IsVehicle)
    (h : Recorded w q) : ∃ k, w.chosen = some k ∧ q k := by
  have hchosen : w.chosen = List.find? (fun k => 0 < w.waiting k)
      [⟨.left, .emergency⟩, ⟨.right, .emergency⟩, ⟨.left, .normal⟩, ⟨.right, .normal⟩] := by
    rw [Bridge.chosen, hcount]
    rfl
  obtain ⟨k, hk, hpos⟩ := h
  by_cases hle : 0 < w.waiting ⟨.left, .emergency⟩
  · refine ⟨⟨.left, .emergency⟩, ?_, by rcases hq with rfl | rfl <;> trivial⟩
    simp [hchosen, hle]
  by_cases hre : 0 < w.waiting ⟨.right, .emergency⟩
  · refine ⟨⟨.right, .emergency⟩, ?_, by rcases hq with rfl | rfl <;> trivial⟩
    simp [hchosen, hle, hre]
  rcases hq with rfl | rfl
  · -- no emergency vehicle is counted
    obtain ⟨direc, prio⟩ := k
    cases hk
    cases direc
    · exact absurd hpos hle
    · exact absurd hpos hre
  by_cases hln : 0 < w.waiting ⟨.left, .normal⟩
  · exact ⟨⟨.left, .normal⟩, by simp [hchosen, hle, hre, hln], trivial⟩
  · refine ⟨⟨.right, .normal⟩, ?_, trivial⟩
    have hrn : 0 < w.waiting ⟨.right, .normal⟩ := by
      obtain ⟨_ | _, _ | _⟩ := k
      · exact absurd hpos hln
      · exact absurd hpos hle
      · exact hpos
      · exact absurd hpos hre
    simp [hchosen, hle, hre, hln, hrn]

omit [DecidableEq V] [Fintype V] in
theorem wake_value (w : Bridge V) (o : Option Kind) (k : Kind) :
    (w.wake o).value (.waiters k) =
      w.value (.waiters k) + if o = some k then 1 else 0 := by
  cases o with
  | none => rfl
  | some k' =>
    show Function.update w.value (.waiters k') _ (.waiters k) = _
    rw [update_waiters]
    by_cases hk : k = k'
    · rw [if_pos hk, if_pos (by rw [hk]), hk]
      rfl
    · rw [if_neg hk, if_neg fun heq => hk (Option.some.inj heq).symm]
      rfl

omit [DecidableEq V] [Fintype V] in
theorem wake_waiting_le (w : Bridge V) (o : Option Kind) (k : Kind) :
    (w.wake o).waiting k ≤ w.waiting k := by
  cases o with
  | none => exact Nat.le_refl _
  | some k' =>
    show (w.setWaiting k' (w.waiting k' - 1)).waiting k ≤ _
    rw [setWaiting_waiting]
    split_ifs with hk
    · rw [hk]
      exact Nat.sub_le _ _
    · exact Nat.le_refl _

omit [DecidableEq V] [Fintype V] in
theorem wake_point (w : Bridge V) (o : Option Kind) : (w.wake o).point = w.point := by
  cases o <;> rfl

omit [DecidableEq V] [Fintype V] in
theorem wake_count (w : Bridge V) (o : Option Kind) : (w.wake o).count = w.count := by
  cases o <;> rfl

omit [Fintype V] in
theorem Served.leave (hpoint : w.point v = .leave) (hcount : w.count = 1)
    (hq : q = IsEmergency ∨ q = IsVehicle)
    (hnone : Unrecorded kind w q → Recorded w q ∨ Awake kind w q) :
    Served kind (Bridge.wake { w.goTo v .exitUp with count := w.count - 1 } w.chosen) q := by
  have hmoves : Relocates v w (Bridge.wake { w.goTo v .exitUp with count := w.count - 1 } w.chosen)
      .bridge .gone := relocates_goTo hpoint .exitUp (wake_point ..)
  intro hneed
  by_cases hrecorded : Recorded w q
  · obtain ⟨k, hchosen, hk⟩ := chosen_of_recorded hcount hq hrecorded
    refine .inl ⟨k, hk, ?_⟩
    rw [wake_value, if_pos hchosen]
    exact Nat.succ_pos _
  · have hunrecorded : Unrecorded kind w q := by
      rcases hneed with ⟨k, hk, hpos⟩ | hunrecorded
      · exact absurd ⟨k, hk, Nat.lt_of_lt_of_le hpos (wake_waiting_le ..)⟩ hrecorded
      · exact hunrecorded.back hmoves nofun
    refine ((hnone hunrecorded).resolve_left hrecorded).mono hmoves nofun fun k => ?_
    rw [wake_value]
    exact Nat.le_add_right _ _

end Served

omit [Fintype V] in
/-- The vehicles that wait at an empty bridge stay served, as long as nobody is forgotten. -/
theorem AllServed.goes (h : AllServed kind w) (hnone : NoneForgotten kind v w)
    (hgoes : Goes kind v w w') : AllServed kind w' := by
  intro hcount
  cases hgoes with
  | quiet hsame =>
    obtain ⟨hemergency, hall⟩ := h (hsame.count ▸ hcount)
    exact ⟨hemergency.quiet hsame, hall.quiet hsame⟩
  | enter hpoint hroom => exact absurd hcount (Nat.succ_ne_zero _)
  | refuse hpoint hwait =>
    obtain ⟨hnormal, hwaiting⟩ := hwait hcount
    obtain ⟨hemergency, -⟩ := h hcount
    exact ⟨hemergency.refuse (fun _ hk => hk) hnormal hwaiting,
      hemergency.refuse (fun _ _ => trivial) hnormal hwaiting⟩
  | record hpoint => exact ⟨(h hcount).1.record hpoint, (h hcount).2.record hpoint⟩
  | wait hpoint hnot hzero => exact h hcount
  | take hpoint hnot hpos => exact ⟨(h hcount).1.take hpoint, (h hcount).2.take hpoint⟩
  | leave hpoint hpos =>
    rw [wake_count] at hcount
    replace hcount : w.count - 1 = 0 := hcount
    have hone : w.count = 1 := by omega
    have hforgotten := hnone hpoint hone
    exact ⟨Served.leave hpoint hone (.inl rfl) (hforgotten _ (.inl rfl)),
      Served.leave hpoint hone (.inr rfl) (hforgotten _ (.inr rfl))⟩

/-! ### Runs -/

/-- Nobody is on the bridge and the mutex is free, but every vehicle that has not finished is
blocked on a semaphore for waiting vehicles, and there is one. -/
def Stuck (w : Bridge V) : Prop :=
  w.count = 0 ∧ 0 < w.value .mutex ∧ (∃ v, w.point v ≠ .finished) ∧
    ∀ v, w.point v ≠ .finished → ∃ k, v ∈ w.waiters (.waiters k)

omit [DecidableEq V] in
/-- Where the waiting vehicles are served, not all are stuck. -/
theorem Sound.not_stuck (h : Sound kind w) (hserved : AllServed kind w) : ¬ Stuck w := by
  rintro ⟨hcount, -, ⟨v, hv⟩, hblocked⟩
  classical
  have hdown : ∀ u, w.point u ≠ .finished → (w.point u).place = .down ∧
      u ∈ w.waiters (.waiters (kind u)) := by
    intro u hu
    obtain ⟨k, hk⟩ := hblocked u hu
    obtain ⟨hkind, hplace⟩ := h.waiters k u hk
    exact ⟨hplace, hkind ▸ hk⟩
  -- whoever is at a semaphore is in its list, so the value is zero
  have hzero : ∀ k, w.value (.waiters k) = 0 := by
    intro k
    have hsub : w.downs k kind ⊆ (w.waiters (.waiters k)).toFinset := by
      intro u hu
      obtain ⟨hkind, hplace⟩ := (Finset.mem_filter_univ u).mp hu
      have hu' : w.point u ≠ .finished := fun heq => by
        rw [heq] at hplace
        cases hplace
      rw [List.mem_toFinset, ← hkind]
      exact (hdown u hu').2
    have hcard := Finset.card_le_card hsub
    rw [List.toFinset_card_of_nodup (h.nodup k), h.downs] at hcard
    have hlength := h.length k
    omega
  have hrecorded : Recorded w IsVehicle := by
    have hmem := (hdown v hv).2
    have hlength := h.length (kind v)
    exact ⟨kind v, trivial, Nat.lt_of_lt_of_le (List.length_pos_of_mem hmem) hlength⟩
  rcases (hserved hcount).2 (.inl hrecorded) with ⟨k, -, hpos⟩ | ⟨u, -, hplace⟩
  · rw [hzero] at hpos
    exact Nat.lt_irrefl 0 hpos
  · have hu : w.point u ≠ .finished := fun heq => by
      rw [heq] at hplace
      cases hplace
    rw [(hdown u hu).1] at hplace
    cases hplace

omit [DecidableEq V] in
theorem sound_init (kind : V → Kind) : Sound kind (Bridge.init V) := by
  refine ⟨?_, Nat.zero_le _, nofun, fun k => ?_, nofun, fun _ => List.nodup_nil,
    fun _ => Nat.le_refl _⟩
  · refine Finset.card_eq_zero.mpr (Finset.filter_eq_empty_iff.mpr fun v _ => ?_)
    exact nofun
  · refine Finset.card_eq_zero.mpr (Finset.filter_eq_empty_iff.mpr fun v _ => ?_)
    exact fun h => nomatch h.2

omit [DecidableEq V] [Fintype V] in
theorem allServed_init (kind : V → Kind) : AllServed kind (Bridge.init V) := by
  have hserved : ∀ q, Served kind (Bridge.init V) q := by
    rintro q (⟨k, -, hpos⟩ | ⟨v, -, hplace⟩)
    · exact absurd hpos (Nat.lt_irrefl 0)
    · cases hplace
  exact fun _ => ⟨hserved _, hserved _⟩

/-- Not more vehicles than allowed are on the bridge, and all go in one direction. -/
def TrafficOk (kind : V → Kind) (w : Bridge V) : Prop :=
  w.crossing.card ≤ bridgeCapacity ∧
    ∀ v, (w.point v).place = .bridge → w.direction = (kind v).direc

/-- In every run, no assertion fails and the traffic is in order; and the vehicles are never stuck,
as long as no vehicle that leaves the bridge empty forgets another one. -/
theorem narrow_bridge_ok (kind : V → Kind) (vs : List V) :
    ((∃ us w, Routine.execAll (exec kind) vs (Bridge.init V) = .ok (us, w)) ∧
      ∀ w, Routine.Visits (exec kind) vs (Bridge.init V) w → TrafficOk kind w) ∧
    ((∀ v w, Routine.Takes (exec kind) vs (Bridge.init V) v w → NoneForgotten kind v w) →
      ∀ w, Routine.Visits (exec kind) vs (Bridge.init V) w → ¬ Stuck w) := by
  have hstep : ∀ w v x w', Sound kind w → exec kind v w = .ok (x, w') → Goes kind v w w' := by
    intro w v x w' h hrun
    obtain ⟨w1, hrun', hgoes⟩ := h.exec v
    rw [hrun] at hrun'
    cases hrun'
    exact hgoes
  have hinit := sound_init kind
  refine ⟨⟨Routine.execAll_of_wp (P := Sound kind) (fun v w _ h => ?_) hinit, fun w hvisits => ?_⟩,
    fun hnone w hvisits => ?_⟩
  · obtain ⟨w', hrun, hgoes⟩ := h.exec v
    exact Routine.wp_of_ok hrun (h.goes hgoes)
  · have hall : ∀ v w, Routine.Takes (exec kind) vs (Bridge.init V) v w → True :=
      fun _ _ _ => trivial
    have hsound : Sound kind w := hvisits.invariant
      (fun w v x w' h _ hrun => h.goes (hstep w v x w' h hrun)) hall hinit
    exact ⟨hsound.count.trans_le hsound.capacity, hsound.direction⟩
  · have hboth : Sound kind w ∧ AllServed kind w := hvisits.invariant
      (P := fun w => Sound kind w ∧ AllServed kind w)
      (fun w v x w' h hv hrun =>
        have hgoes := hstep w v x w' h.1 hrun
        ⟨h.1.goes hgoes, h.2.goes hv hgoes⟩) hnone ⟨hinit, allServed_init kind⟩
    exact hboth.1.not_stuck hboth.2

end Count

/-- A normal vehicle from the left and one from the right. -/
def twoKinds (v : Fin 2) : Kind := ⟨if v = 0 then .left else .right, .normal⟩

/-- The second vehicle waits before the first one leaves the bridge, and is woken up. -/
theorem narrow_bridge_ok_twoKinds : ∀ w, Routine.Visits (exec twoKinds)
    [0, 0, 0, 0, 1, 1, 1, 1, 1, 0, 0, 0, 1, 1, 1, 1] (Bridge.init (Fin 2)) w → ¬ Stuck w := by
  have hcheck : Routine.checkAll (exec twoKinds)
      (fun v w => w.point v ≠ .leave ∨ ∀ u, (w.point u).place ≠ .unrecorded)
      [0, 0, 0, 0, 1, 1, 1, 1, 1, 0, 0, 0, 1, 1, 1, 1] (Bridge.init (Fin 2)) = true := by
    decide +kernel
  refine (narrow_bridge_ok twoKinds _).2 fun v w htakes hleave _ q _ hunrecorded => ?_
  obtain ⟨u, -, hplace⟩ := hunrecorded
  have hchecked := Routine.of_checkAll hcheck htakes
  have hnot := of_decide_eq_true hchecked
  exact absurd hplace (hnot.resolve_left (not_not_intro hleave) u)

/-- The second vehicle has decided to wait when the first one leaves the bridge, and waits then. -/
theorem forgotten_vehicle : ¬ ∀ (V : Type) [Fintype V] [DecidableEq V] (kind : V → Kind)
    (vs : List V) (w : Bridge V), Routine.Visits (exec kind) vs (Bridge.init V) w →
      ¬ Stuck w := by
  intro hclaim
  have hrun : (match Routine.execAll (exec twoKinds) [0, 0, 0, 0, 1, 1, 1, 0, 0, 0, 1, 1]
      (Bridge.init (Fin 2)) with
      | .ok (_, w) => decide (w.count = 0 ∧ 0 < w.value .mutex ∧ w.point 0 = .finished ∧
        w.point 1 ≠ .finished ∧ 1 ∈ w.waiters (.waiters ⟨.right, .normal⟩))
      | .error _ => false) = true := by
    decide +kernel
  cases hexec : Routine.execAll (exec twoKinds) [0, 0, 0, 0, 1, 1, 1, 0, 0, 0, 1, 1]
      (Bridge.init (Fin 2)) with
  | error fault =>
    rw [hexec] at hrun
    cases hrun
  | ok r =>
    obtain ⟨us, w⟩ := r
    rw [hexec] at hrun
    obtain ⟨hcount, hmutex, hfirst, hsecond, hmem⟩ := of_decide_eq_true hrun
    have hvisits : Routine.Visits (exec twoKinds) [0, 0, 0, 0, 1, 1, 1, 0, 0, 0, 1, 1]
        (Bridge.init (Fin 2)) w := ⟨_, [], us, (List.append_nil _).symm, hexec⟩
    refine hclaim (Fin 2) twoKinds _ w hvisits ⟨hcount, hmutex, ⟨1, hsecond⟩, fun v hv => ?_⟩
    by_cases h : v = 0
    · rw [h] at hv
      exact absurd hfirst hv
    · have hone : v = 1 := by omega
      exact ⟨_, hone ▸ hmem⟩

end NarrowBridge

end Pintos
