import Pintos.Devices.Block
import Pintos.Library.Ring
import Pintos.Library.Weakest
import Mathlib.Data.List.Nodup

/-! Interrupt queues (`devices/intq.c`).  Interrupts are off inside `intq_getc` and `intq_putc`, so
a thread in one of them goes on, once it runs, until it returns or blocks: in `lock_acquire` for the
queue's lock (`threads/synch.c`) or in `wait`.  An interrupt handler comes in between. -/

namespace Pintos

namespace Intq

open Routine (wp)

/-- `INTQ_BUFSIZE`. -/
def intqBufsize : Nat := 64

/-- `intq_getc` and `intq_putc`. -/
inductive Op where
  | getc
  | putc (byte : UInt8)
  deriving DecidableEq

/-- Where a thread is: in no call, or running in one; in `lock_acquire` or in `wait`, and whether it
is still blocked there. -/
inductive Phase where
  | running
  | locking (op : Op) (blocked : Bool)
  | waiting (op : Op) (blocked : Bool)
  deriving DecidableEq

/-- The members of `struct intq` that `wait` and `signal` are called with. -/
inductive Waiter where
  | notFull
  | notEmpty
  deriving DecidableEq

/-- A queue and the threads that use it.  `value` and `waiters` are those of the lock's semaphore;
`put` and `got` are the bytes that have gone in and come out. -/
structure State where
  value : Nat
  waiters : List Nat
  holder : Option Nat
  notFull : Option Nat
  notEmpty : Option Nat
  buf : Nat → UInt8
  head : Nat
  tail : Nat
  phase : Nat → Phase
  put : List UInt8
  got : List UInt8

abbrev QueueRoutine := Routine Fault State

/-- `next`. -/
def next (pos : Nat) : Nat := (pos + 1) % intqBufsize

/-- `intq_init`. -/
def intqInit (buf : Nat → UInt8) : State where
  value := 1
  waiters := []
  holder := none
  notFull := none
  notEmpty := none
  buf := buf
  head := 0
  tail := 0
  phase := fun _ => .running
  put := []
  got := []

namespace State

/-- `intq_empty`. -/
def intqEmpty (s : State) : Bool := s.head = s.tail

/-- `intq_full`. -/
def intqFull (s : State) : Bool := next s.head = s.tail

/-- The condition under which a thread waits. -/
def mustWait (s : State) : Waiter → Bool
  | .notEmpty => s.intqEmpty
  | .notFull => s.intqFull

def waiter (s : State) : Waiter → Option Nat
  | .notEmpty => s.notEmpty
  | .notFull => s.notFull

def setWaiter (s : State) (waiter : Waiter) (t : Option Nat) : State :=
  match waiter with
  | .notEmpty => { s with notEmpty := t }
  | .notFull => { s with notFull := t }

def setPhase (s : State) (t : Nat) (phase : Phase) : State :=
  { s with phase := Function.update s.phase t phase }

end State

def Op.waiter : Op → Waiter
  | .getc => .notEmpty
  | .putc _ => .notFull

/-- `thread_unblock`. -/
def threadUnblock (t : Nat) : QueueRoutine Unit := do
  let s ← get
  match s.phase t with
  | .locking op true => set (s.setPhase t (.locking op false))
  | .waiting op true => set (s.setPhase t (.waiting op false))
  | _ => throw (.assertion "t->status == THREAD_BLOCKED")

/-- The first waiting thread of `sema_up`, if there is one, is unblocked. -/
def unblockFirst : QueueRoutine Unit := do
  let s ← get
  match s.waiters with
  | [] => pure ()
  | t :: ts => do
    set { s with waiters := ts }
    threadUnblock t

/-- `sema_up` of the lock's semaphore. -/
def semaUp : QueueRoutine Unit := do
  unblockFirst
  modify fun s => { s with value := s.value + 1 }

/-- `lock_release`. -/
def lockRelease (t : Nat) : QueueRoutine Unit := do
  let s ← get
  if s.holder = some t then do
    set { s with holder := none }
    semaUp
  else throw (.assertion "lock_held_by_current_thread (lock)")

/-- `wait`, up to the switch in `thread_block`. -/
def wait (t : Nat) (op : Op) : QueueRoutine Unit := do
  let s ← get
  if s.mustWait op.waiter then
    set ((s.setWaiter op.waiter (some t)).setPhase t (.waiting op true))
  else throw (.assertion
    "(waiter == &q->not_empty && intq_empty (q)) || (waiter == &q->not_full && intq_full (q))")

/-- The test of `sema_down` in `lock_acquire`.  The thread blocks, or takes the lock and goes on. -/
def semaDown (t : Nat) (op : Op) : QueueRoutine Unit := do
  let s ← get
  if s.value = 0 then
    set ({ s with waiters := s.waiters ++ [t] }.setPhase t (.locking op true))
  else do
    set { s with value := s.value - 1, holder := some t }
    wait t op

/-- `lock_acquire`. -/
def lockAcquire (t : Nat) (op : Op) : QueueRoutine Unit := do
  let s ← get
  if s.holder = some t then throw (.assertion "!lock_held_by_current_thread (lock)")
  else semaDown t op

/-- `signal`. -/
def signal (waiter : Waiter) : QueueRoutine Unit := do
  let s ← get
  if s.mustWait waiter then
    throw (.assertion
      "(waiter == &q->not_empty && !intq_empty (q)) || (waiter == &q->not_full && !intq_full (q))")
  else match s.waiter waiter with
    | none => pure ()
    | some t => do
      threadUnblock t
      modify fun s => s.setWaiter waiter none

/-- What `intq_getc` and `intq_putc` do once they need not wait. -/
def finish : Op → QueueRoutine Unit
  | .getc => do
    modify fun s => { s with tail := next s.tail, got := s.got ++ [s.buf s.tail] }
    signal .notFull
  | .putc byte => do
    modify fun s => { s with
      buf := Function.update s.buf s.head byte
      head := next s.head
      put := s.put ++ [byte] }
    signal .notEmpty

/-- `intq_getc` or `intq_putc`, from the test of its loop on. -/
def loop (t : Nat) (op : Op) : QueueRoutine Unit := do
  let s ← get
  if s.mustWait op.waiter then lockAcquire t op else finish op

/-- What happens next: a thread in no call makes one; a thread that was unblocked runs; or there is
an interrupt whose handler puts a byte if the queue is not full. -/
inductive Action where
  | call (t : Nat) (op : Op)
  | resume (t : Nat)
  | interrupt (byte : UInt8)
  deriving DecidableEq

def exec : Action → QueueRoutine Unit
  | .call t op => do
    let s ← get
    if s.phase t = .running then loop t op else pure ()
  | .resume t => do
    let s ← get
    match s.phase t with
    | .locking op false => do
      set (s.setPhase t .running)
      semaDown t op
    | .waiting op false => do
      set (s.setPhase t .running)
      lockRelease t
      loop t op
    | _ => pure ()
  | .interrupt byte => do
    let s ← get
    if s.intqFull then pure () else finish (.putc byte)

/-! ### What is said about the queue -/

/-- A thread that blocked in `lock_acquire` only takes the lock while the condition that it is to
wait under still holds. -/
def Timely : Action → State → Prop
  | .resume t, s => ∀ op, s.phase t = .locking op false → s.value = 0 ∨ s.mustWait op.waiter
  | _, _ => True

/-- The bytes in the queue. -/
def State.contents (s : State) : List UInt8 := Ring.contents intqBufsize s.buf s.head s.tail

/-- The bytes that were returned are the first of those that were put, the others are in the queue,
and no thread is blocked in `wait` once the condition that it waits for is true. -/
structure InOrder (s : State) : Prop where
  fifo : s.put = s.got ++ s.contents
  woken : ∀ t op, s.phase t = .waiting op true → s.mustWait op.waiter

/-- No `ASSERT` fails in the run, and the queue is in order all the time. -/
structure Works (buf : Nat → UInt8) (actions : List Action) : Prop where
  runs : ∃ rs s, Routine.execAll exec actions (intqInit buf) = .ok (rs, s)
  inOrder : ∀ s, Routine.Visits exec actions (intqInit buf) s → InOrder s

/-! ### The invariant -/

/-- The lock, the waiting threads and where they are match.  `holding` is the thread that runs with
the lock, if there is one. -/
structure Queued (holding : Option Nat) (s : State) : Prop where
  value : s.value = if s.holder = none then 1 else 0
  holder : ∀ t, s.holder = some t ↔ holding = some t ∨ ∃ op b, s.phase t = .waiting op b
  running : ∀ t, holding = some t → s.phase t = .running
  nodup : s.waiters.Nodup
  waiters : ∀ t, t ∈ s.waiters ↔ ∃ op, s.phase t = .locking op true
  waiter : ∀ waiter t, s.waiter waiter = some t ↔
    ∃ op, op.waiter = waiter ∧ s.phase t = .waiting op true

/-- The bytes are in order. -/
structure Bytes (s : State) : Prop where
  head : s.head < intqBufsize
  tail : s.tail < intqBufsize
  fifo : s.put = s.got ++ s.contents

/-- No thread is blocked in `wait` for a condition that is true, other than `exceptFor`. -/
def Woken (exceptFor : Option Waiter) (s : State) : Prop :=
  ∀ t op, s.phase t = .waiting op true → exceptFor ≠ some op.waiter → s.mustWait op.waiter

structure Sound (holding : Option Nat) (s : State) : Prop where
  queued : Queued holding s
  bytes : Bytes s
  woken : Woken none s

/-- The bytes of the queue are the same. -/
structure SameBytes (s s' : State) : Prop where
  buf : s'.buf = s.buf
  head : s'.head = s.head
  tail : s'.tail = s.tail
  put : s'.put = s.put
  got : s'.got = s.got

variable {s s' : State} {t : Nat} {op : Op} {waiter : Waiter} {holding : Option Nat}
  {E : Fault → Prop}

theorem Bytes.congr (h : Bytes s) (hsame : SameBytes s s') : Bytes s' := by
  obtain ⟨hbuf, hhead, htail, hput, hgot⟩ := hsame
  refine ⟨hhead ▸ h.head, htail ▸ h.tail, ?_⟩
  rw [State.contents, hput, hgot, hbuf, hhead, htail]
  exact h.fifo

theorem SameBytes.mustWait (h : SameBytes s s') (waiter : Waiter) :
    s'.mustWait waiter = s.mustWait waiter := by
  cases waiter with
  | notEmpty =>
    show decide (s'.head = s'.tail) = decide (s.head = s.tail)
    rw [h.head, h.tail]
  | notFull =>
    show decide (next s'.head = s'.tail) = decide (next s.head = s.tail)
    rw [h.head, h.tail]

theorem Sound.inOrder (h : Sound none s) : InOrder s where
  fifo := h.bytes.fifo
  woken t op ht := h.woken t op ht nofun

theorem sound_init (buf : Nat → UInt8) : Sound none (intqInit buf) where
  queued := {
    value := rfl
    holder := fun t => iff_of_false nofun (by simp [intqInit])
    running := nofun
    nodup := .nil
    waiters := fun t => iff_of_false List.not_mem_nil (by simp [intqInit])
    waiter := fun waiter t => by cases waiter <;> simp [intqInit, State.waiter] }
  bytes := ⟨Nat.succ_pos 63, Nat.succ_pos 63, by
    simp [State.contents, Ring.contents, Ring.count, intqInit, intqBufsize]⟩
  woken := nofun

theorem phase_setPhase (s : State) (t u : Nat) (phase : Phase) :
    (s.setPhase t phase).phase u = if u = t then phase else s.phase u :=
  Function.update_apply ..

theorem waiter_setWaiter (s : State) (waiter w : Waiter) (t : Option Nat) :
    (s.setWaiter waiter t).waiter w = if w = waiter then t else s.waiter w := by
  cases waiter <;> cases w <;> rfl

/-- What `setWaiter` leaves as it was. -/
theorem setWaiter_same (s : State) (waiter : Waiter) (t : Option Nat) :
    SameBytes s (s.setWaiter waiter t) ∧ (s.setWaiter waiter t).phase = s.phase ∧
      (s.setWaiter waiter t).value = s.value ∧ (s.setWaiter waiter t).waiters = s.waiters ∧
      (s.setWaiter waiter t).holder = s.holder := by
  cases waiter with
  | notEmpty => exact ⟨⟨rfl, rfl, rfl, rfl, rfl⟩, rfl, rfl, rfl, rfl⟩
  | notFull => exact ⟨⟨rfl, rfl, rfl, rfl, rfl⟩, rfl, rfl, rfl, rfl⟩

/-- A thread that runs without the lock blocks in `lock_acquire`. -/
theorem Queued.locks (h : Queued none s) (ht : s.phase t = .running) (op : Op) :
    Queued none ({ s with waiters := s.waiters ++ [t] }.setPhase t (.locking op true)) := by
  have hphase : ∀ u, ({ s with waiters := s.waiters ++ [t] }.setPhase t (.locking op true)).phase u
      = if u = t then .locking op true else s.phase u := fun u => phase_setPhase ..
  have hnot : t ∉ s.waiters := fun hmem => by
    obtain ⟨op', hop⟩ := (h.waiters t).mp hmem
    rw [ht] at hop
    nomatch hop
  refine ⟨h.value, fun u => ?_, nofun, ?_, fun u => ?_, fun w u => ?_⟩
  · refine (h.holder u).trans (or_congr_right ?_)
    rw [hphase]
    split_ifs with hu
    · subst hu
      rw [ht]
      simp
    · exact Iff.rfl
  · exact h.nodup.append (List.nodup_singleton _) (by simpa using hnot)
  · show u ∈ s.waiters ++ [t] ↔ _
    rw [List.mem_append, List.mem_singleton, hphase]
    split_ifs with hu
    · exact iff_of_true (.inr hu) ⟨op, rfl⟩
    · exact (or_iff_left hu).trans (h.waiters u)
  · refine (h.waiter w u).trans ?_
    rw [hphase]
    split_ifs with hu
    · subst hu
      rw [ht]
      simp
    · exact Iff.rfl

/-- A thread that runs without the lock, which is free, takes it and blocks in `wait`. -/
theorem Queued.waits (h : Queued none s) (ht : s.phase t = .running) (hfree : s.value ≠ 0)
    (op : Op) :
    Queued none ((({ s with value := s.value - 1, holder := some t } : State).setWaiter op.waiter
      (some t)).setPhase t (.waiting op true)) := by
  have hnone : s.holder = none := by
    by_contra hsome
    exact hfree (h.value.trans (if_neg hsome))
  have hvalue : s.value = 1 := h.value.trans (if_pos hnone)
  -- nobody waits
  have hwaiting : ∀ u op b, s.phase u ≠ .waiting op b := by
    intro u op b hu
    have := (h.holder u).mpr (.inr ⟨op, b, hu⟩)
    rw [hnone] at this
    nomatch this
  generalize hs1 : ({ s with value := s.value - 1, holder := some t } : State) = s1
  obtain ⟨-, hphase1, hvalue1, hwaiters1, hholder1⟩ := setWaiter_same s1 op.waiter (some t)
  have hphase : ∀ u, ((s1.setWaiter op.waiter (some t)).setPhase t (.waiting op true)).phase u =
      if u = t then .waiting op true else s.phase u := by
    intro u
    rw [phase_setPhase, hphase1, ← hs1]
  refine ⟨?_, fun u => ?_, nofun, ?_, fun u => ?_, fun w u => ?_⟩
  · show (s1.setWaiter op.waiter (some t)).value =
      if (s1.setWaiter op.waiter (some t)).holder = none then 1 else 0
    rw [hvalue1, hholder1, ← hs1]
    show s.value - 1 = _
    rw [hvalue]
    rfl
  · show (s1.setWaiter op.waiter (some t)).holder = some u ↔ _
    rw [hholder1, hphase, ← hs1]
    show some t = some u ↔ _
    split_ifs with hu
    · exact iff_of_true (congrArg some hu.symm) (.inr ⟨op, true, rfl⟩)
    · refine iff_of_false (fun heq => hu (Option.some.inj heq).symm) ?_
      rintro (hor | ⟨op', b, hop⟩)
      · nomatch hor
      · exact hwaiting u op' b hop
  · show (s1.setWaiter op.waiter (some t)).waiters.Nodup
    rw [hwaiters1, ← hs1]
    exact h.nodup
  · show u ∈ (s1.setWaiter op.waiter (some t)).waiters ↔ _
    rw [hwaiters1, hphase, ← hs1]
    refine (h.waiters u).trans ?_
    split_ifs with hu
    · subst hu
      rw [ht]
      simp
    · exact Iff.rfl
  · show (s1.setWaiter op.waiter (some t)).waiter w = some u ↔ _
    rw [waiter_setWaiter, hphase]
    by_cases hu : u = t
    · rw [if_pos hu, hu]
      by_cases hw : w = op.waiter
      · rw [if_pos hw]
        exact iff_of_true rfl ⟨op, hw.symm, rfl⟩
      · rw [if_neg hw, ← hs1]
        refine iff_of_false (fun hsome => ?_) ?_
        · obtain ⟨op', -, hop⟩ := (h.waiter w t).mp hsome
          exact hwaiting _ _ _ hop
        · rintro ⟨op', rfl, hop⟩
          cases hop
          exact hw rfl
    · rw [if_neg hu]
      refine iff_of_false (fun hsome => ?_) ?_
      · split_ifs at hsome with hw
        · exact hu (Option.some.inj hsome).symm
        · rw [← hs1] at hsome
          obtain ⟨op', -, hop⟩ := (h.waiter w u).mp hsome
          exact hwaiting _ _ _ hop
      · rintro ⟨op', -, hop⟩
        exact hwaiting _ _ _ hop

/-- A thread that was unblocked in `wait` runs with the lock. -/
theorem Queued.goes_on {b : Bool} (h : Queued none s) (ht : s.phase t = .waiting op b)
    (hb : b = false) : Queued (some t) (s.setPhase t .running) := by
  subst hb
  have hphase : ∀ u, (s.setPhase t .running).phase u = if u = t then .running else s.phase u :=
    fun u => phase_setPhase ..
  have hheld : s.holder = some t := (h.holder t).mpr (.inr ⟨op, false, ht⟩)
  refine ⟨h.value, fun u => ?_, fun u hu => ?_, h.nodup, fun u => ?_, fun w u => ?_⟩
  · show s.holder = some u ↔ _
    rw [hphase, hheld]
    split_ifs with hu
    · exact iff_of_true (congrArg some hu.symm) (.inl (congrArg some hu.symm))
    · refine iff_of_false (fun heq => hu (Option.some.inj heq).symm) ?_
      rintro (heq | ⟨op', b, hop⟩)
      · exact hu (Option.some.inj heq).symm
      · have := (h.holder u).mpr (.inr ⟨op', b, hop⟩)
        rw [hheld] at this
        exact hu (Option.some.inj this).symm
  · rw [hphase, if_pos (Option.some.inj hu).symm]
  · refine (h.waiters u).trans ?_
    rw [hphase]
    split_ifs with hu
    · rw [hu, ht]
      simp
    · exact Iff.rfl
  · refine (h.waiter w u).trans ?_
    rw [hphase]
    split_ifs with hu
    · rw [hu, ht]
      simp
    · exact Iff.rfl

/-- A thread that was unblocked in `lock_acquire` runs. -/
theorem Queued.retries (h : Queued none s) (ht : s.phase t = .locking op false) :
    Queued none (s.setPhase t .running) := by
  have hphase : ∀ u, (s.setPhase t .running).phase u = if u = t then .running else s.phase u :=
    fun u => phase_setPhase ..
  refine ⟨h.value, fun u => ?_, nofun, h.nodup, fun u => ?_, fun w u => ?_⟩
  · refine (h.holder u).trans (or_congr_right ?_)
    rw [hphase]
    split_ifs with hu
    · rw [hu, ht]
      simp
    · exact Iff.rfl
  · refine (h.waiters u).trans ?_
    rw [hphase]
    split_ifs with hu
    · rw [hu, ht]
      simp
    · exact Iff.rfl
  · refine (h.waiter w u).trans ?_
    rw [hphase]
    split_ifs with hu
    · rw [hu, ht]
      simp
    · exact Iff.rfl

/-- The first thread that waits for the lock, if there is one, is unblocked. -/
theorem wp_unblockFirst (h : ∀ u ∈ s.waiters, ∃ op, s.phase u = .locking op true) :
    wp unblockFirst (fun _ s' => s.waiters = [] ∧ s' = s ∨
      ∃ u us op, s.waiters = u :: us ∧ s.phase u = .locking op true ∧
        s' = ({ s with waiters := us } : State).setPhase u (.locking op false)) E s := by
  rw [unblockFirst, Routine.wp_bind, Routine.wp_get]
  split
  · next hnil => exact .inl ⟨hnil, rfl⟩
  · next u us hcons =>
    obtain ⟨op, hop⟩ := h u (hcons ▸ List.mem_cons_self)
    rw [Routine.wp_bind, Routine.wp_set, threadUnblock, Routine.wp_bind, Routine.wp_get]
    dsimp only
    rw [hop]
    exact .inr ⟨u, us, op, hcons, hop, rfl⟩

/-- The holder of the lock gives it back, and the first thread that waits for it is unblocked. -/
theorem wp_lockRelease (h : Queued (some t) s) :
    wp (lockRelease t) (fun _ s' => Queued none s' ∧ SameBytes s s' ∧
      (∀ u, s.phase u = .running → s'.phase u = .running) ∧ ∀ u op, s'.phase u ≠ .waiting op true)
      E s := by
  have hheld : s.holder = some t := (h.holder t).mpr (.inl rfl)
  have hvalue : s.value = 0 := by
    rw [h.value, hheld]
    rfl
  have hwaiting : ∀ u op b, s.phase u ≠ .waiting op b := by
    intro u op b hu
    have hholder := (h.holder u).mpr (.inr ⟨op, b, hu⟩)
    have hrunning := h.running u (hheld.symm.trans hholder)
    rw [hu] at hrunning
    nomatch hrunning
  have hslot : ∀ w u, s.waiter w ≠ some u := by
    intro w u hw
    obtain ⟨op, -, hop⟩ := (h.waiter w u).mp hw
    exact hwaiting _ _ _ hop
  rw [lockRelease, Routine.wp_bind, Routine.wp_get, if_pos hheld, Routine.wp_bind, Routine.wp_set,
    semaUp, Routine.wp_bind]
  have hfirst := wp_unblockFirst (s := { s with holder := none }) (E := E)
    fun u hu => (h.waiters u).mp hu
  refine hfirst.mono fun _ s1 hs1 => ?_
  rw [Routine.wp_modify]
  rcases hs1 with ⟨-, rfl⟩ | ⟨u, us, op, hcons, hop, rfl⟩
  · refine ⟨⟨?_, fun u => ?_, nofun, h.nodup, h.waiters, h.waiter⟩, ⟨rfl, rfl, rfl, rfl, rfl⟩,
      fun u hu => hu, fun u op => hwaiting u op true⟩
    · show s.value + 1 = 1
      rw [hvalue]
    · refine iff_of_false nofun ?_
      rintro (hor | ⟨op, b, hop⟩)
      · nomatch hor
      · exact hwaiting _ _ _ hop
  · replace hcons : s.waiters = u :: us := hcons
    replace hop : s.phase u = .locking op true := hop
    have hdup := h.nodup
    rw [hcons, List.nodup_cons] at hdup
    have hphase : ∀ v, Function.update s.phase u (.locking op false) v =
        if v = u then .locking op false else s.phase v := fun v => Function.update_apply ..
    have hwaiting' : ∀ v op' b, Function.update s.phase u (.locking op false) v ≠
        .waiting op' b := by
      intro v op' b hv
      rw [hphase] at hv
      split_ifs at hv
      exact hwaiting v op' b hv
    refine ⟨⟨?_, fun v => ?_, nofun, hdup.2, fun v => ?_, fun w v => ?_⟩,
      ⟨rfl, rfl, rfl, rfl, rfl⟩, fun v hv => ?_, fun v op' => hwaiting' v op' true⟩
    · show s.value + 1 = 1
      rw [hvalue]
    · refine iff_of_false nofun ?_
      rintro (hor | ⟨op', b, hop'⟩)
      · nomatch hor
      · exact hwaiting' v op' b hop'
    · show v ∈ us ↔ ∃ op', Function.update s.phase u (.locking op false) v = _
      rw [hphase]
      split_ifs with hv
      · subst hv
        exact iff_of_false hdup.1 nofun
      · rw [← h.waiters v, hcons, List.mem_cons]
        exact (or_iff_right hv).symm
    · refine iff_of_false (hslot w v) ?_
      rintro ⟨op', -, hop'⟩
      exact hwaiting' v op' true hop'
    · show Function.update s.phase u (.locking op false) v = _
      rw [hphase, if_neg]
      · exact hv
      · rintro rfl
        rw [hop] at hv
        nomatch hv

/-- A thread is unblocked if it waits for a condition that is now true. -/
theorem wp_signal (h : Queued none s) (hmust : s.mustWait waiter = false)
    (hwoken : Woken (some waiter) s) :
    wp (signal waiter) (fun _ s' => Queued none s' ∧ SameBytes s s' ∧ Woken none s') E s := by
  rw [signal, Routine.wp_bind, Routine.wp_get, hmust,
    if_neg Bool.false_ne_true]
  split
  · next hnone =>
    -- nobody waits for this
    refine ⟨h, ⟨rfl, rfl, rfl, rfl, rfl⟩, fun t op ht _ => hwoken t op ht fun heq => ?_⟩
    have := (h.waiter waiter t).mpr ⟨op, (Option.some.inj heq).symm, ht⟩
    rw [hnone] at this
    nomatch this
  · next t hsome =>
    obtain ⟨op, hop, ht⟩ := (h.waiter waiter t).mp hsome
    rw [Routine.wp_bind, threadUnblock, Routine.wp_bind, Routine.wp_get, ht]
    dsimp only
    rw [Routine.wp_set, Routine.wp_modify]
    generalize hs1 : s.setPhase t (.waiting op false) = s1
    obtain ⟨hsame, hphase1, hvalue1, hwaiters1, hholder1⟩ := setWaiter_same s1 waiter none
    have hphase : ∀ u, (s1.setWaiter waiter none).phase u =
        if u = t then .waiting op false else s.phase u := by
      intro u
      rw [hphase1, ← hs1, phase_setPhase]
    have hsame1 : SameBytes s (s1.setWaiter waiter none) := by
      obtain ⟨hbuf, hhead, htail, hput, hgot⟩ := hsame
      rw [← hs1] at hbuf hhead htail hput hgot ⊢
      exact ⟨hbuf, hhead, htail, hput, hgot⟩
    have hheld : s.holder = some t := (h.holder t).mpr (.inr ⟨op, true, ht⟩)
    -- only this one waits
    have hself : ∀ u op' b, s.phase u = .waiting op' b → u = t := by
      intro u op' b hu
      have := (h.holder u).mpr (.inr ⟨op', b, hu⟩)
      rw [hheld] at this
      exact (Option.some.inj this).symm
    refine ⟨⟨?_, fun u => ?_, nofun, ?_, fun u => ?_, fun w u => ?_⟩, hsame1, fun u op' hu _ => ?_⟩
    · rw [hvalue1, hholder1, ← hs1]
      exact h.value
    · rw [hholder1, hphase, ← hs1]
      show s.holder = some u ↔ _
      by_cases hu : u = t
      · rw [if_pos hu, hu]
        exact iff_of_true hheld (.inr ⟨op, false, rfl⟩)
      · rw [if_neg hu]
        exact h.holder u
    · rw [hwaiters1, ← hs1]
      exact h.nodup
    · rw [hwaiters1, hphase, ← hs1]
      refine (h.waiters u).trans ?_
      split_ifs with hu
      · subst hu
        rw [ht]
        simp
      · exact Iff.rfl
    · rw [waiter_setWaiter, hphase]
      refine iff_of_false (fun hw => ?_) ?_
      · split_ifs at hw with hwaiter
        · rw [← hs1] at hw
          obtain ⟨op', hop', hu⟩ := (h.waiter w u).mp hw
          obtain rfl := hself u op' true hu
          rw [ht] at hu
          cases hu
          exact hwaiter (hop'.symm.trans hop)
      · rintro ⟨op', -, hu⟩
        split_ifs at hu with hut
        · cases hu
        · exact hut (hself u op' true hu)
    · rw [hphase] at hu
      split_ifs at hu with hut
      · cases hu
      · exact absurd (hself u op' true hu) hut

theorem mustWait_notEmpty : s.mustWait .notEmpty = false ↔ s.head ≠ s.tail := by
  show decide (s.head = s.tail) = false ↔ _
  exact decide_eq_false_iff_not

theorem mustWait_notFull : s.mustWait .notFull = false ↔ next s.head ≠ s.tail := by
  show decide (next s.head = s.tail) = false ↔ _
  exact decide_eq_false_iff_not

/-- A byte is taken out or put in, and who waits for that is woken. -/
theorem wp_finish (h : Sound none s) (hmust : s.mustWait op.waiter = false) :
    wp (finish op) (fun _ s' => Sound none s') E s := by
  obtain ⟨hqueued, ⟨hhead, htail, hfifo⟩, hwoken⟩ := h
  cases op with
  | getc =>
    have hne := mustWait_notEmpty.mp hmust
    rw [finish, Routine.wp_bind, Routine.wp_modify]
    generalize hs1 : ({ s with tail := next s.tail, got := s.got ++ [s.buf s.tail] } : State) = s1
    have hbytes1 : Bytes s1 := by
      rw [← hs1]
      refine ⟨hhead, Ring.next_lt htail, ?_⟩
      show s.put = (s.got ++ [s.buf s.tail]) ++ Ring.contents _ _ _ (Ring.next intqBufsize s.tail)
      rw [hfifo, State.contents, Ring.contents_take hhead htail hne, List.append_assoc]
      rfl
    have hqueued1 : Queued none s1 := by
      rw [← hs1]
      exact ⟨hqueued.value, hqueued.holder, nofun, hqueued.nodup, hqueued.waiters, fun w u => by
        cases w with
        | notFull => exact hqueued.waiter .notFull u
        | notEmpty => exact hqueued.waiter .notEmpty u⟩
    have hfull1 : s1.mustWait .notFull = false := by
      rw [mustWait_notFull, ← hs1]
      show Ring.next intqBufsize s.head ≠ Ring.next intqBufsize s.tail
      rw [Ring.next_eq hhead, Ring.next_eq htail]
      split_ifs <;> omega
    refine (wp_signal hqueued1 hfull1 fun t op ht hop => ?_).mono
      fun _ s' ⟨hqueued', hsame, hwoken'⟩ => ⟨hqueued', hbytes1.congr hsame, hwoken'⟩
    -- no reader waits for the queue that is not empty
    rw [← hs1] at ht
    have hold := hwoken t op ht nofun
    cases op with
    | getc => exact absurd (hmust.symm.trans hold) Bool.false_ne_true
    | putc byte => exact absurd rfl hop
  | putc byte =>
    have hne := mustWait_notFull.mp hmust
    rw [finish, Routine.wp_bind, Routine.wp_modify]
    generalize hs1 : ({ s with
      buf := Function.update s.buf s.head byte
      head := next s.head
      put := s.put ++ [byte] } : State) = s1
    have hbytes1 : Bytes s1 := by
      rw [← hs1]
      refine ⟨Ring.next_lt hhead, htail, ?_⟩
      show s.put ++ [byte] = s.got ++ Ring.contents intqBufsize (Function.update s.buf s.head byte)
        (Ring.next intqBufsize s.head) s.tail
      rw [hfifo, State.contents, Ring.contents_put hhead htail hne, List.append_assoc]
    have hqueued1 : Queued none s1 := by
      rw [← hs1]
      exact ⟨hqueued.value, hqueued.holder, nofun, hqueued.nodup, hqueued.waiters, fun w u => by
        cases w with
        | notFull => exact hqueued.waiter .notFull u
        | notEmpty => exact hqueued.waiter .notEmpty u⟩
    have hempty1 : s1.mustWait .notEmpty = false := by
      rw [mustWait_notEmpty, ← hs1]
      exact hne
    refine (wp_signal hqueued1 hempty1 fun t op ht hop => ?_).mono
      fun _ s' ⟨hqueued', hsame, hwoken'⟩ => ⟨hqueued', hbytes1.congr hsame, hwoken'⟩
    -- no writer waits for the queue that is not full
    rw [← hs1] at ht
    have hold := hwoken t op ht nofun
    cases op with
    | getc => exact absurd rfl hop
    | putc byte => exact absurd (hmust.symm.trans hold) Bool.false_ne_true

theorem wp_semaDown (h : Sound none s) (ht : s.phase t = .running)
    (htimely : s.value = 0 ∨ s.mustWait op.waiter) :
    wp (semaDown t op) (fun _ s' => Sound none s') E s := by
  obtain ⟨hqueued, hbytes, hwoken⟩ := h
  rw [semaDown, Routine.wp_bind, Routine.wp_get]
  split_ifs with hzero
  · refine ⟨hqueued.locks ht op, hbytes.congr ⟨rfl, rfl, rfl, rfl, rfl⟩, fun u op' hu hop => ?_⟩
    replace hu : Function.update s.phase t (.locking op true) u = _ := hu
    rw [Function.update_apply] at hu
    split_ifs at hu
    exact hwoken u op' hu hop
  · have hmust := htimely.resolve_left hzero
    rw [Routine.wp_bind, Routine.wp_set, wait, Routine.wp_bind, Routine.wp_get]
    generalize hs1 : ({ s with value := s.value - 1, holder := some t } : State) = s1
    have hsame1 : SameBytes s s1 := hs1 ▸ ⟨rfl, rfl, rfl, rfl, rfl⟩
    rw [if_pos ((hsame1.mustWait _).trans hmust)]
    rw [Routine.wp_set]
    generalize hs2 : (s1.setWaiter op.waiter (some t)).setPhase t (.waiting op true) = s2
    have hsame2 : SameBytes s s2 := by
      obtain ⟨hbuf, hhead, htail, hput, hgot⟩ := (setWaiter_same s1 op.waiter (some t)).1
      rw [← hs2]
      exact ⟨hbuf.trans hsame1.buf, hhead.trans hsame1.head, htail.trans hsame1.tail,
        hput.trans hsame1.put, hgot.trans hsame1.got⟩
    have hphase2 : ∀ u, s2.phase u = if u = t then .waiting op true else s.phase u := by
      intro u
      rw [← hs2, phase_setPhase, (setWaiter_same s1 op.waiter (some t)).2.1, ← hs1]
    refine ⟨?_, hbytes.congr hsame2, fun u op' hu _ => ?_⟩
    · rw [← hs2, ← hs1]
      exact hqueued.waits ht hzero op
    · rw [hsame2.mustWait]
      rw [hphase2] at hu
      split_ifs at hu
      · cases hu
        exact hmust
      · exact hwoken u op' hu nofun

theorem wp_loop (h : Sound none s) (ht : s.phase t = .running) (op : Op) :
    wp (loop t op) (fun _ s' => Sound none s') E s := by
  rw [loop, Routine.wp_bind, Routine.wp_get]
  split_ifs with hmust
  · have hholder : s.holder ≠ some t := fun hheld => by
      rcases (h.queued.holder t).mp hheld with hor | ⟨op', b, hop⟩
      · nomatch hor
      · rw [ht] at hop
        nomatch hop
    rw [lockAcquire, Routine.wp_bind, Routine.wp_get, if_neg hholder]
    exact wp_semaDown h ht (.inr hmust)
  · exact wp_finish h (Bool.eq_false_iff.mpr hmust)

/-! ### Runs -/

theorem wp_exec {a : Action} (h : Sound none s) (htimely : Timely a s) :
    wp (exec a) (fun _ s' => Sound none s') E s := by
  cases a with
  | call t op =>
    rw [exec, Routine.wp_bind, Routine.wp_get]
    split_ifs with ht
    · exact wp_loop h ht op
    · exact h
  | resume t =>
    rw [exec, Routine.wp_bind, Routine.wp_get]
    split
    · next op ht =>
      have hrunning : (s.setPhase t .running).phase t = .running := Function.update_self ..
      have hwoken : Woken none (s.setPhase t .running) := by
        intro u op' hu hop
        rw [phase_setPhase] at hu
        split_ifs at hu
        exact h.woken u op' hu hop
      rw [Routine.wp_bind, Routine.wp_set]
      exact wp_semaDown ⟨h.queued.retries ht, h.bytes.congr ⟨rfl, rfl, rfl, rfl, rfl⟩, hwoken⟩
        hrunning (htimely op ht)
    · next op ht =>
      have hrunning : (s.setPhase t .running).phase t = .running := Function.update_self ..
      rw [Routine.wp_bind, Routine.wp_set, Routine.wp_bind]
      refine (wp_lockRelease (h.queued.goes_on ht rfl)).mono
        fun _ s1 ⟨hqueued, hsame, hkept, hnone⟩ => ?_
      refine wp_loop ⟨hqueued, ?_, fun u op' hu _ => absurd hu (hnone u op')⟩ (hkept t hrunning) op
      have hbytes : Bytes (s.setPhase t .running) := h.bytes.congr ⟨rfl, rfl, rfl, rfl, rfl⟩
      exact hbytes.congr hsame
    · exact h
  | interrupt byte =>
    rw [exec, Routine.wp_bind, Routine.wp_get]
    split_ifs with hfull
    · exact h
    · exact wp_finish h (Bool.eq_false_iff.mpr hfull)

/-- A thread that takes the lock too late fails in `wait`. -/
theorem timely_of_ok {a : Action} {r : Unit × State} (hrun : exec a s = .ok r) : Timely a s := by
  cases a with
  | call | interrupt => trivial
  | resume t =>
    intro op ht
    by_contra hlate
    obtain ⟨hzero, hmust⟩ := not_or.mp hlate
    replace hzero : ¬ (s.setPhase t .running).value = 0 := hzero
    rw [exec, Routine.get_bind_apply, ht] at hrun
    dsimp only at hrun
    rw [Routine.set_bind_apply, semaDown, Routine.get_bind_apply, if_neg hzero,
      Routine.set_bind_apply, wait, Routine.get_bind_apply] at hrun
    have hsame : SameBytes s { s.setPhase t .running with
        value := (s.setPhase t .running).value - 1, holder := some t } := ⟨rfl, rfl, rfl, rfl, rfl⟩
    rw [if_neg (by rw [hsame.mustWait]; exact hmust)] at hrun
    nomatch hrun

end Intq

/-- An interrupt queue works just as long as no thread, having blocked for the queue's lock, takes
it after the condition that it is to wait for has come true: no `ASSERT` fails, the bytes come out
in the order in which they went in, and a thread in `wait` is woken. -/
theorem intq_works_iff (buf : Nat → UInt8) (actions : List Intq.Action) :
    Intq.Works buf actions ↔
      ∀ a s, Routine.Takes Intq.exec actions (Intq.intqInit buf) a s → Intq.Timely a s := by
  constructor
  · rintro ⟨⟨rs, s', hrun⟩, -⟩ a s ⟨before, after, as, rfl, hbefore⟩
    obtain ⟨as', bs, m, hbefore', hafter, -⟩ := Routine.execAll_append_ok.mp hrun
    cases hbefore.symm.trans hbefore'
    obtain ⟨r, bs', m', ha, -⟩ := Routine.execAll_cons_ok.mp hafter
    exact Intq.timely_of_ok ha
  · intro htimely
    refine ⟨Routine.execAll_of_wp (fun a s htakes hsound => ?_) (Intq.sound_init buf),
      fun s hvisits => ?_⟩
    · exact Intq.wp_exec hsound (htimely a s htakes)
    · have hsound : Intq.Sound none s := Routine.Visits.invariant
        (fun _ _ _ _ h hmay hrun =>
          (Intq.wp_exec (E := fun _ => True) h hmay).of_ok hrun) htimely (Intq.sound_init buf)
          hvisits
      exact hsound.inOrder

/-- Two threads read from the empty queue; the second one blocks for the lock.  Two bytes come in
before the first reader runs, which takes one of them. -/
def secondReader : List Intq.Action :=
  [.call 1 .getc, .call 2 .getc, .interrupt 97, .interrupt 98, .resume 1, .resume 2]

/-- The second reader then calls `wait` on a queue that is not empty. -/
theorem second_reader_fails : ¬ ∀ buf actions, Intq.Works buf actions := by
  intro h
  obtain ⟨rs, s, hrun⟩ := (h (fun _ => 0) secondReader).runs
  have hfails : (Routine.execAll Intq.exec secondReader (Intq.intqInit fun _ => 0)).toBool =
      false := by
    decide +kernel
  rw [hrun] at hfails
  nomatch hfails

end Pintos
