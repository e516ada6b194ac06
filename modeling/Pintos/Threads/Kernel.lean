import Pintos.Devices.Block
import Pintos.Library.Weakest
import Mathlib.Logic.Function.Basic

/-! Kernel threads (`threads/thread.c`) with their semaphores, locks and condition variables
(`threads/synch.c`), on one processor.  A thread is the page of its `struct thread`.  What a thread
still has to do in the calls that it is in is a list of instructions, each of which runs with
interrupts off or is a single store; between two of them an interrupt may come and another thread may
be scheduled. -/

namespace Pintos

namespace Threads

/-- `enum thread_status`. -/
inductive ThreadStatus where
  | running
  | ready
  | blocked
  | dying
  deriving DecidableEq

/-- A semaphore: one that threads and interrupt handlers use as they like, that of a lock, and those
on the stack of a thread in `thread_sleep` and `cond_wait`. -/
inductive Semaphore where
  | user (n : Nat)
  | lock (l : Nat)
  | sleep (t : Nat)
  | waiter (t : Nat)
  deriving DecidableEq

/-- What a thread does without being interrupted.  `recheck` is the test of `sema_down` after a
wait, and `blocked` the return from a `thread_block` that the thread called itself. -/
inductive Instr where
  | down (s : Semaphore)
  | recheck (s : Semaphore)
  | up (s : Semaphore)
  | tryDown (n : Nat)
  | acquire (l : Nat)
  | setHolder (l : Nat)
  | tryAcquire (l : Nat)
  | tryLock (l : Nat)
  | release (l : Nat)
  | clearHolder (l : Nat)
  | condWait (c : Nat)
  | enqueue (c : Nat)
  | leave (c : Nat)
  | condSignal (c : Nat)
  | signal (c : Nat)
  | condBroadcast (c : Nat)
  | broadcast (c : Nat)
  | block
  | blocked
  | yield
  | unblock (t : Nat)
  | sleep (untilsleep : Int)
  | create (t : Nat)
  | allocateTid (t : Nat)
  | unblockNew (t : Nat)
  | exit
  | idle
  deriving DecidableEq

/-- What has happened: what the statements about runs count. -/
inductive Event where
  | init (s : Semaphore)
  | up (s : Semaphore)
  | down (s : Semaphore)
  | acquired (l t : Nat)
  | released (l t : Nat)
  | began (c t : Nat)
  | signal (c : Nat) (t : Option Nat)
  | broadcast (c : Nat)
  | broadcastEnd (c : Nat)
  | left (c t : Nat) (holder : Option Nat)
  deriving DecidableEq

structure State where
  status : Nat → Option ThreadStatus
  tid : Nat → Nat
  nextTid : Nat
  readyList : List Nat
  allList : List Nat
  sleepingList : List (Int × Nat)
  idleThread : Nat
  initialThread : Nat
  current : Nat
  threadTicks : Nat
  value : Semaphore → Nat
  waiters : Semaphore → List Nat
  holder : Nat → Option Nat
  condWaiters : Nat → List Nat
  pending : Nat → List Instr
  log : List Event

abbrev KernelRoutine := Routine Fault State

/-- `TIME_SLICE`. -/
def timeSlice : Nat := 4

/-- `tid_lock`. -/
def tidLock : Nat := 0

namespace State

def setStatus (w : State) (t : Nat) (status : ThreadStatus) : State :=
  { w with status := Function.update w.status t (some status) }

def setPending (w : State) (t : Nat) (is : List Instr) : State :=
  { w with pending := Function.update w.pending t is }

def setValue (w : State) (s : Semaphore) (value : Nat) : State :=
  { w with value := Function.update w.value s value }

def setWaiters (w : State) (s : Semaphore) (ts : List Nat) : State :=
  { w with waiters := Function.update w.waiters s ts }

def setHolder (w : State) (l : Nat) (t : Option Nat) : State :=
  { w with holder := Function.update w.holder l t }

def setCondWaiters (w : State) (c : Nat) (ts : List Nat) : State :=
  { w with condWaiters := Function.update w.condWaiters c ts }

def happens (w : State) (e : Event) : State := { w with log := e :: w.log }

@[simp] theorem setPending_pending (w : State) (t : Nat) (is : List Instr) :
    (w.setPending t is).pending = Function.update w.pending t is := rfl

@[simp] theorem setWaiters_waiters (w : State) (s : Semaphore) (ts : List Nat) :
    (w.setWaiters s ts).waiters = Function.update w.waiters s ts := rfl

@[simp] theorem happens_log (w : State) (e : Event) : (w.happens e).log = e :: w.log := rfl

/-- `palloc_free_page` of a thread's page. -/
def freePage (w : State) (t : Nat) : State :=
  { w with
    status := Function.update w.status t none
    pending := Function.update w.pending t [] }

/-- `thread_unblock` of a blocked thread. -/
def unblock (w : State) (t : Nat) : State :=
  { w.setStatus t .ready with readyList := w.readyList ++ [t] }

/-- `next_thread_to_run`, and the ready list that it leaves. -/
def nextThreadToRun (w : State) : Nat × List Nat :=
  match w.readyList with
  | [] => (w.idleThread, [])
  | t :: ts => (t, ts)

/-- `switch_threads` to `next`, and `thread_schedule_tail` there. -/
def switchTo (w : State) (next : Nat) : State :=
  let w' := { w.setStatus next .running with current := next, threadTicks := 0 }
  if w.current ≠ next ∧ w.status w.current = some .dying ∧ w.current ≠ w.initialThread then
    w'.freePage w.current
  else w'

/-- `sema_init`. -/
def semaInit (w : State) (s : Semaphore) : State :=
  ((w.setValue s 0).setWaiters s []).happens (.init s)

end State

/-- `schedule`. -/
def schedule : KernelRoutine Unit := do
  let w ← get
  let (next, readyList) := w.nextThreadToRun
  if w.status w.current = some .running then throw (.assertion "cur->status != THREAD_RUNNING")
  else if w.status next = none then throw (.assertion "is_thread (next)")
  else set ({ w with readyList := readyList }.switchTo next)

/-- `thread_block`. -/
def threadBlock : KernelRoutine Unit := do
  modify fun w => w.setStatus w.current .blocked
  schedule

/-- `thread_unblock`. -/
def threadUnblock (t : Nat) : KernelRoutine Unit := do
  let w ← get
  match w.status t with
  | some .blocked => set (w.unblock t)
  | some _ => throw (.assertion "t->status == THREAD_BLOCKED")
  | none => throw (.assertion "is_thread (t)")

/-- `thread_yield`. -/
def threadYield : KernelRoutine Unit := do
  modify fun w =>
    { w.setStatus w.current .ready with
      readyList := if w.current ≠ w.idleThread then w.readyList ++ [w.current] else w.readyList }
  schedule

/-! ### Semaphores -/

/-- The thread that calls `sema_down` in `thread_sleep`, `cond_wait` or by itself goes on when it
returns; in `lock_acquire` it is now the holder. -/
def afterDown : Semaphore → List Instr
  | .lock l => [.setHolder l]
  | _ => []

/-- One test of `sema_down`: the thread waits, or takes the semaphore and goes on. -/
def semaDown (s : Semaphore) (rest : List Instr) : KernelRoutine Unit := do
  let w ← get
  if w.value s = 0 then
    set ((w.setWaiters s (w.waiters s ++ [w.current])).setPending w.current (.recheck s :: rest))
    threadBlock
  else
    set (((w.setValue s (w.value s - 1)).setPending w.current (afterDown s ++ rest)).happens
      (.down s))

/-- `sema_try_down`, and what follows if it succeeds and if it fails. -/
def semaTryDown (s : Semaphore) (success failure : List Instr) : KernelRoutine Unit := do
  let w ← get
  if 0 < w.value s then
    set (((w.setValue s (w.value s - 1)).setPending w.current success).happens (.down s))
  else set (w.setPending w.current failure)

/-- The first waiting thread of `sema_up`, if there is one, is unblocked. -/
def unblockFirst (s : Semaphore) : KernelRoutine Unit := do
  let w ← get
  match w.waiters s with
  | [] => pure ()
  | t :: ts => do
    set (w.setWaiters s ts)
    threadUnblock t

/-- `sema_up`.  The value is unsigned. -/
def semaUp (s : Semaphore) : KernelRoutine Unit := do
  unblockFirst s
  modify fun w => (w.setValue s ((w.value s + 1) % 2 ^ 32)).happens (.up s)

/-! ### Sleeping threads -/

/-- The entry is inserted behind all that wake up no later. -/
def insertSleeping (untilsleep : Int) (t : Nat) (sleeping : List (Int × Nat)) : List (Int × Nat) :=
  (sleeping.reverse.dropWhile fun e => ¬ e.1 ≤ untilsleep).reverse ++
    (untilsleep, t) :: (sleeping.reverse.takeWhile fun e => ¬ e.1 ≤ untilsleep).reverse

/-- The loop of `thread_tick` that wakes sleeping threads up. -/
def wakeSleeping (currentticks : Int) : List (Int × Nat) → KernelRoutine Unit
  | [] => pure ()
  | (wakeupTime, t) :: sleeping =>
    if wakeupTime < currentticks then do
      modify fun w => { w with sleepingList := sleeping }
      semaUp (.sleep t)
      wakeSleeping currentticks sleeping
    else pure ()

/-- The timer interrupt: `thread_tick`, and `thread_yield` at the end of the time slice. -/
def threadTick (currentticks : Int) : KernelRoutine Unit := do
  let w ← get
  wakeSleeping currentticks w.sleepingList
  modify fun w => { w with threadTicks := w.threadTicks + 1 }
  let w ← get
  if timeSlice ≤ w.threadTicks then threadYield else pure ()

/-! ### Instructions -/

section

-- the lock that goes with a condition variable
variable (lockOf : Nat → Nat)

/-- The current thread executes its next instruction, which has `rest` behind it. -/
def perform (rest : List Instr) : Instr → KernelRoutine Unit
  | .down s | .recheck s => semaDown s rest
  | .up s => do
    modify fun w => w.setPending w.current rest
    semaUp s
  | .tryDown n => semaTryDown (.user n) rest rest
  | .acquire l => do
    let w ← get
    if w.holder l = some w.current then
      throw (.assertion "!lock_held_by_current_thread (lock)")
    else set (w.setPending w.current (.down (.lock l) :: rest))
  | .setHolder l => modify fun w =>
    ((w.setHolder l (some w.current)).setPending w.current rest).happens (.acquired l w.current)
  | .tryAcquire l => do
    let w ← get
    if w.holder l = some w.current then
      throw (.assertion "!lock_held_by_current_thread (lock)")
    else set (w.setPending w.current (.tryLock l :: rest))
  | .tryLock l => semaTryDown (.lock l) (.setHolder l :: rest) rest
  | .release l => do
    let w ← get
    if w.holder l = some w.current then set (w.setPending w.current (.clearHolder l :: rest))
    else throw (.assertion "lock_held_by_current_thread (lock)")
  | .clearHolder l => modify fun w =>
    ((w.setHolder l none).setPending w.current (.up (.lock l) :: rest)).happens
      (.released l w.current)
  | .condWait c => do
    let w ← get
    if w.holder (lockOf c) = some w.current then
      set (w.setPending w.current (.enqueue c :: rest))
    else throw (.assertion "lock_held_by_current_thread (lock)")
  | .enqueue c => modify fun w =>
    (((w.semaInit (.waiter w.current)).setCondWaiters c (w.condWaiters c ++ [w.current])).setPending
      w.current (.release (lockOf c) :: .down (.waiter w.current) :: .acquire (lockOf c) ::
        .leave c :: rest)).happens (.began c w.current)
  | .leave c => modify fun w =>
    (w.setPending w.current rest).happens (.left c w.current (w.holder (lockOf c)))
  | .condSignal c => do
    let w ← get
    if w.holder (lockOf c) = some w.current then
      set (w.setPending w.current (.signal c :: rest))
    else throw (.assertion "lock_held_by_current_thread (lock)")
  | .signal c => modify fun w =>
    match w.condWaiters c with
    | [] => (w.setPending w.current rest).happens (.signal c none)
    | t :: ts => ((w.setCondWaiters c ts).setPending w.current (.up (.waiter t) :: rest)).happens
        (.signal c (some t))
  | .condBroadcast c => modify fun w =>
    (w.setPending w.current (.broadcast c :: rest)).happens (.broadcast c)
  | .broadcast c => modify fun w =>
    match w.condWaiters c with
    | [] => (w.setPending w.current rest).happens (.broadcastEnd c)
    | _ :: _ => w.setPending w.current (.condSignal c :: .broadcast c :: rest)
  | .block => do
    modify fun w => w.setPending w.current (.blocked :: rest)
    threadBlock
  | .blocked => modify fun w => w.setPending w.current rest
  | .yield => do
    modify fun w => w.setPending w.current rest
    threadYield
  | .unblock t | .unblockNew t => do
    modify fun w => w.setPending w.current rest
    threadUnblock t
  | .sleep untilsleep => do
    let w ← get
    set { w.semaInit (.sleep w.current) with
      sleepingList := insertSleeping untilsleep w.current w.sleepingList }
    semaDown (.sleep w.current) rest
  | .create t => modify fun w =>
    if w.status t = none then
      { (w.setStatus t .blocked).setPending w.current
          (.acquire tidLock :: .allocateTid t :: .release tidLock :: .unblockNew t :: rest) with
        allList := w.allList ++ [t] }
    else w.setPending w.current rest
  | .allocateTid t => modify fun w =>
    { w.setPending w.current rest with
      tid := Function.update w.tid t w.nextTid
      nextTid := w.nextTid + 1 }
  | .exit => do
    modify fun w =>
      { (w.setStatus w.current .dying).setPending w.current [] with
        allList := w.allList.erase w.current }
    schedule
  | .idle => threadBlock

/-- What a thread can call.  `threadCreate` names the page that `palloc_get_page` hands out. -/
inductive Call where
  | semaDown (n : Nat)
  | semaTryDown (n : Nat)
  | semaUp (n : Nat)
  | lockAcquire (l : Nat)
  | lockTryAcquire (l : Nat)
  | lockRelease (l : Nat)
  | condWait (c : Nat)
  | condSignal (c : Nat)
  | condBroadcast (c : Nat)
  | threadBlock
  | threadUnblock (t : Nat)
  | threadYield
  | threadSleep (untilsleep : Int)
  | threadCreate (t : Nat)
  | threadExit
  deriving DecidableEq

/-- The instruction that a call starts with. -/
def Call.body : Call → Instr
  | semaDown n => .down (.user n)
  | semaTryDown n => .tryDown n
  | semaUp n => .up (.user n)
  | lockAcquire l => .acquire l
  | lockTryAcquire l => .tryAcquire l
  | lockRelease l => .release l
  | condWait c => .condWait c
  | condSignal c => .condSignal c
  | condBroadcast c => .condBroadcast c
  | threadBlock => .block
  | threadUnblock t => .unblock t
  | threadYield => .yield
  | threadSleep untilsleep => .sleep untilsleep
  | threadCreate t => .create t
  | threadExit => .exit

/-- What happens next: the current thread, if it is in no call, makes one; it executes its next
instruction; or there is an interrupt. -/
inductive Action where
  | call (call : Call)
  | run
  | tick (currentticks : Int)
  | interruptUp (n : Nat)
  | interruptTryDown (n : Nat)
  | interruptUnblock (t : Nat)
  deriving DecidableEq

def exec : Action → KernelRoutine Unit
  | .call call => modify fun w =>
    if w.pending w.current = [] then w.setPending w.current [call.body] else w
  | .run => do
    let w ← get
    match w.pending w.current with
    | [] => pure ()
    | i :: rest => perform lockOf rest i
  | .tick currentticks => threadTick currentticks
  | .interruptUp n => semaUp (.user n)
  | .interruptTryDown n => do
    let w ← get
    semaTryDown (.user n) (w.pending w.current) (w.pending w.current)
  | .interruptUnblock t => threadUnblock t

end

/-- After `thread_start`: `main` runs, and the idle thread waits in its loop. -/
def started (main idle : Nat) (idleStatus : ThreadStatus) (values : Nat → UInt32) : State where
  status := fun t => if t = main then some .running else if t = idle then some idleStatus else none
  tid := fun t => if t = main then 1 else 2
  nextTid := 3
  readyList := []
  allList := [main, idle]
  sleepingList := []
  idleThread := idle
  initialThread := main
  current := main
  threadTicks := 0
  value := fun s =>
    match s with
    | .user n => (values n).toNat
    | .lock _ => 1
    | _ => 0
  waiters := fun _ => []
  holder := fun _ => none
  condWaiters := fun _ => []
  pending := fun t => if t = idle then [.idle] else []
  log := []

end Threads

end Pintos
