import Pintos.Threads.Scheduler
import Mathlib.Data.List.TakeWhile

/-! Sleeping until a later timer tick: `timer_sleep` and the timer interrupt (`devices/timer.c`)
over `thread_sleep` and `thread_tick` of the threads.  The history of a run says when threads have
read the clock in `timer_sleep`, when they fell asleep and when they were made ready; no part of the
program looks at it. -/

namespace Pintos

namespace Timer

open Threads (Semaphore Instr Scheduled Switched SameData)
open Routine (wp)

/-- The sum of `timer_sleep`, of type `int64_t`. -/
def sleepUntil (now ticks : Int) : Int := (now + ticks).bmod (2 ^ 64)

/-- The thread waits for the semaphore on its stack in `thread_sleep`. -/
def Asleep (w : Threads.State) (t : Nat) : Prop :=
  w.status t = some .blocked ∧ (w.pending t).head? = some (.recheck (.sleep t))

instance (w : Threads.State) (t : Nat) : Decidable (Asleep w t) :=
  inferInstanceAs (Decidable (_ ∧ _))

/-- What the history keeps, each with the clock at that time. -/
inductive Record where
  | read (t : Nat) (ticks now : Int)
  | asleep (t : Nat) (now : Int)
  | ready (t : Nat) (now : Int)
  deriving DecidableEq

def Record.thread : Record → Nat
  | .read t _ _ | .asleep t _ | .ready t _ => t

structure State where
  threads : Threads.State
  ticks : Int
  -- the newest record first
  history : List Record

/-- Whether a thread has fallen asleep or was made ready. -/
def change (w w' : Threads.State) (now : Int) (t : Nat) : List Record :=
  if ¬ Asleep w t ∧ Asleep w' t then [.asleep t now]
  else if Asleep w t ∧ ¬ Asleep w' t then [.ready t now]
  else []

def changes (w w' : Threads.State) (now : Int) : List Record :=
  w.allList.flatMap (change w w' now)

/-- The threads do something, and the history is kept. -/
def onThreads (m : Threads.KernelRoutine Unit) : Routine Fault State Unit := fun s =>
  match m s.threads with
  | .ok (_, w) => .ok ((), { s with
      threads := w, history := changes s.threads w s.ticks ++ s.history })
  | .error e => .error e

/-- What happens next: the current thread, if it is in no call, calls `timer_sleep`; there is a
timer interrupt; or something else happens to the threads. -/
inductive Action where
  | timerSleep (ticks : Int)
  | timerInterrupt
  | other (a : Threads.Action)
  deriving DecidableEq

def exec (lockOf : Nat → Nat) : Action → Routine Fault State Unit
  | .timerSleep ticks => do
    let s ← get
    if s.threads.pending s.threads.current = [] ∧ 0 < ticks then do
      set { s with history := .read s.threads.current ticks s.ticks :: s.history }
      onThreads (Threads.exec lockOf (.call (.threadSleep (sleepUntil s.ticks ticks))))
    else pure ()
  | .timerInterrupt => do
    modify fun s => { s with ticks := s.ticks + 1 }
    let s ← get
    onThreads (Threads.exec lockOf (.tick s.ticks))
  | .other a => onThreads (Threads.exec lockOf a)

/-- Only `timer_sleep` calls `thread_sleep`, with a sum that fits, and only the timer interrupt
`thread_tick`; a thread is only unblocked, other than by `sema_up` and by its creator, if it has
blocked itself. -/
def Proper : Action → State → Prop
  | .timerSleep ticks, s => 0 < ticks → -2 ^ 63 ≤ s.ticks + ticks ∧ s.ticks + ticks < 2 ^ 63
  | .timerInterrupt, _ => True
  | .other a, s => (∀ u, a ≠ .call (.threadSleep u)) ∧ (∀ u, a ≠ .tick u) ∧
      Threads.UnblocksBlocked a s.threads

/-- After `thread_start`, with the clock at `clock`. -/
def started (main idle : Nat) (idleStatus : Threads.ThreadStatus) (values : Nat → UInt32)
    (clock : Int) : State where
  threads := Threads.started main idle idleStatus values
  ticks := clock
  history := []

/-! ### What is said about sleeping threads -/

def State.historyOf (s : State) (t : Nat) : List Record :=
  s.history.filter fun r => r.thread = t

/-- Where a thread is in `timer_sleep`: not yet in `thread_sleep` or there, and else out of it or
already made ready. -/
inductive Stage where
  | out
  | called (ticks now : Int)
  | asleep (ticks now inserted : Int)

/-- A thread reads the clock, falls asleep and is made ready, once each time: at the first tick at
which more than `ticks` ticks have been counted since the clock was read, or, if that is over, at
the next one. -/
inductive Sleeps (t : Nat) : List Record → Stage → Prop where
  | start : Sleeps t [] .out
  | read {rs : List Record} (ticks now : Int) (h : Sleeps t rs .out) :
      Sleeps t (.read t ticks now :: rs) (.called ticks now)
  | asleep {rs : List Record} {ticks now : Int} (inserted : Int)
      (h : Sleeps t rs (.called ticks now)) :
      Sleeps t (.asleep t inserted :: rs) (.asleep ticks now inserted)
  | ready {rs : List Record} {ticks now inserted : Int}
      (h : Sleeps t rs (.asleep ticks now inserted)) :
      Sleeps t (.ready t (max (now + ticks) inserted + 1) :: rs) .out

/-- The stage that the history of a thread has ended in is the one that the thread is in.  While it
is asleep, the tick that makes it ready has not come. -/
def InStage (s : State) (t : Nat) : Stage → Prop
  | .out => ¬ Asleep s.threads t ∧ ∀ u, .sleep u ∉ s.threads.pending t
  | .called ticks now => s.threads.pending t = [.sleep (now + ticks)]
  | .asleep ticks now inserted => Asleep s.threads t ∧
      (now + ticks, t) ∈ s.threads.sleepingList ∧ s.ticks ≤ max (now + ticks) inserted

/-- How many records there are since the thread fell asleep. -/
def sinceAsleep (history : List Record) (t : Nat) : Nat :=
  history.findIdx fun r => match r with
    | .asleep u _ => u = t
    | _ => false

/-- Of two entries of `sleeping_list`, the first wakes up earlier, or at the same time and has
fallen asleep earlier. -/
def Before (history : List Record) (e e' : Int × Nat) : Prop :=
  e.1 < e'.1 ∨ e.1 = e'.1 ∧ sinceAsleep history e'.2 < sinceAsleep history e.2

/-- `sleeping_list` has the threads that are asleep, in order, and every thread sleeps as long as it
is to. -/
structure Sleepers (s : State) : Prop where
  sorted : s.threads.sleepingList.Pairwise (Before s.history)
  asleep : ∀ t, t ∈ s.threads.sleepingList.map Prod.snd ↔ Asleep s.threads t
  once : (s.threads.sleepingList.map Prod.snd).Nodup
  stage : ∀ t, ∃ stage, Sleeps t (s.historyOf t) stage ∧ InStage s t stage

/-- The listed sleepers that the tick to `now` wakes. -/
def due (now : Int) (sleeping : List (Int × Nat)) : List Nat :=
  (sleeping.filter fun e => e.1 < now).map Prod.snd

/-- What the loop of `thread_tick` has done. -/
structure Woken (now : Int) (w w' : Threads.State) : Prop where
  sleepingList : w'.sleepingList = w.sleepingList.filter fun e => ¬ e.1 < now
  readyList : w'.readyList = w.readyList ++ due now w.sleepingList
  ready : ∀ t ∈ due now w.sleepingList, w'.status t = some .ready
  status : ∀ t, t ∉ due now w.sleepingList → w'.status t = w.status t

/-- A tick wakes the sleepers that are due, in the order of the list, and no others. -/
def TickWakes (lockOf : Nat → Nat) (s : State) : Prop :=
  (∃ w, Threads.wakeSleeping (s.ticks + 1) s.threads.sleepingList s.threads = .ok ((), w) ∧
    Woken (s.ticks + 1) s.threads w) ∧
  ∃ s', exec lockOf .timerInterrupt s = .ok ((), s') ∧
    s'.threads.sleepingList = s.threads.sleepingList.filter (fun e => ¬ e.1 < s.ticks + 1) ∧
    ∀ t, Asleep s.threads t ∧ ¬ Asleep s'.threads t ↔ t ∈ due (s.ticks + 1) s.threads.sleepingList

/-! ### The list -/

variable {l l₁ l₂ : List (Int × Nat)} {history : List Record} {t u : Nat} {now : Int}

/-- The entry goes behind the last one that wakes up no later. -/
theorem insertSleeping_split (untilsleep : Int) (t : Nat) (l : List (Int × Nat)) :
    ∃ l₁ l₂, l = l₁ ++ l₂ ∧
      Threads.insertSleeping untilsleep t l = l₁ ++ (untilsleep, t) :: l₂ ∧
      (∀ e ∈ l₂, untilsleep < e.1) ∧ ∀ e, l₁.getLast? = some e → e.1 ≤ untilsleep := by
  refine ⟨_, _, ?_, rfl, fun e he => ?_, fun e he => ?_⟩
  · rw [← List.reverse_append, List.takeWhile_append_dropWhile, List.reverse_reverse]
  · have := List.mem_takeWhile_imp (List.mem_reverse.mp he)
    simpa using this
  · rw [List.getLast?_reverse] at he
    have := List.head?_dropWhile_not (fun e : Int × Nat => decide ¬ e.1 ≤ untilsleep) l.reverse
    rw [he] at this
    simpa using this

/-- In a sorted list nothing that comes before an entry wakes up later. -/
theorem le_of_getLast (hsorted : l.Pairwise (Before history)) {b : Int}
    (hlast : ∀ e, l.getLast? = some e → e.1 ≤ b) : ∀ e ∈ l, e.1 ≤ b := by
  intro e he
  rcases l.eq_nil_or_concat with rfl | ⟨init, last, rfl⟩
  · nomatch he
  have hle := hlast last (by simp)
  rw [List.concat_eq_append, List.pairwise_append] at hsorted
  rw [List.concat_eq_append, List.mem_append, List.mem_singleton] at he
  rcases he with he | rfl
  · rcases hsorted.2.2 e he last (List.mem_singleton.mpr rfl) with hlt | ⟨heq, -⟩
    · exact Int.le_trans (Int.le_of_lt hlt) hle
    · exact heq ▸ hle
  · exact hle

/-- Records of other threads push those of two threads equally far back. -/
theorem sinceAsleep_append {rs : List Record} (h : ∀ r ∈ rs, ∀ now, r ≠ .asleep t now) :
    sinceAsleep (rs ++ history) t = rs.length + sinceAsleep history t := by
  have hnone : ∀ r ∈ rs, (match r with
      | .asleep u _ => decide (u = t)
      | _ => false) = false := by
    intro r hr
    cases r with
    | asleep u now =>
      refine decide_eq_false ?_
      rintro rfl
      exact h _ hr now rfl
    | read | ready => rfl
  rw [sinceAsleep, List.findIdx_append, if_neg, sinceAsleep, Nat.add_comm]
  rw [List.findIdx_lt_length]
  rintro ⟨r, hr, htrue⟩
  rw [hnone r hr] at htrue
  nomatch htrue

theorem sorted_append {rs : List Record} (hsorted : l.Pairwise (Before history))
    (h : ∀ e ∈ l, ∀ r ∈ rs, ∀ now, r ≠ .asleep e.2 now) :
    l.Pairwise (Before (rs ++ history)) := by
  refine hsorted.imp_of_mem fun {e e'} he he' hbefore => ?_
  refine hbefore.imp_right fun ⟨heq, hlt⟩ => ⟨heq, ?_⟩
  rw [sinceAsleep_append (h e he), sinceAsleep_append (h e' he')]
  exact Nat.add_lt_add_left hlt _

/-- A thread that falls asleep is put in its place. -/
theorem sorted_insertSleeping {untilsleep : Int} (hsorted : l.Pairwise (Before history))
    (hnew : t ∉ l.map Prod.snd) :
    (Threads.insertSleeping untilsleep t l).Pairwise (Before (.asleep t now :: history)) := by
  obtain ⟨l₁, l₂, rfl, hinsert, hafter, hlast⟩ := insertSleeping_split untilsleep t l
  rw [hinsert]
  have hother : ∀ e ∈ l₁ ++ l₂, ∀ r ∈ [Record.asleep t now], ∀ now', r ≠ .asleep e.2 now' := by
    rintro e he r hr now' rfl
    cases List.mem_singleton.mp hr
    exact hnew (List.mem_map_of_mem he)
  have hsorted' : (l₁ ++ l₂).Pairwise (Before ([.asleep t now] ++ history)) :=
    sorted_append hsorted hother
  have hbefore : ∀ e ∈ l₁, e.1 ≤ untilsleep :=
    le_of_getLast (List.pairwise_append.mp hsorted).1 hlast
  rw [List.pairwise_append] at hsorted' ⊢
  refine ⟨hsorted'.1, List.pairwise_cons.mpr ⟨fun e he => .inl (hafter e he), hsorted'.2.1⟩, ?_⟩
  intro e he e' he'
  rcases List.mem_cons.mp he' with rfl | he'
  · rcases Int.lt_or_eq_of_le (hbefore e he) with hlt | heq
    · exact .inl hlt
    · refine .inr ⟨heq, ?_⟩
      have hpush : sinceAsleep ([.asleep t now] ++ history) e.2 = _ :=
        sinceAsleep_append (hother e (List.mem_append_left _ he))
      have hself : sinceAsleep (Record.asleep t now :: history) t = 0 := by
        simp [sinceAsleep, List.findIdx_cons]
      rw [List.singleton_append, List.length_singleton] at hpush
      rw [hself, hpush]
      exact Nat.add_pos_left Nat.one_pos _
  · exact hsorted'.2.2 e he e' he'

theorem mem_insertSleeping {untilsleep : Int} {e : Int × Nat} :
    e ∈ Threads.insertSleeping untilsleep t l ↔ e = (untilsleep, t) ∨ e ∈ l := by
  obtain ⟨l₁, l₂, rfl, hinsert, -, -⟩ := insertSleeping_split untilsleep t l
  rw [hinsert]
  simp only [List.mem_append, List.mem_cons]
  exact or_left_comm

theorem nodup_insertSleeping {untilsleep : Int} (hnodup : (l.map Prod.snd).Nodup)
    (hnew : t ∉ l.map Prod.snd) :
    ((Threads.insertSleeping untilsleep t l).map Prod.snd).Nodup := by
  obtain ⟨l₁, l₂, rfl, hinsert, -, -⟩ := insertSleeping_split untilsleep t l
  rw [hinsert, List.map_append, List.map_cons]
  rw [List.map_append] at hnodup hnew
  exact List.nodup_middle.mpr (List.nodup_cons.mpr ⟨hnew, hnodup⟩)

/-! ### What the history keeps -/

variable {w w' : Threads.State}

theorem change_thread {r : Record} (h : r ∈ change w w' now t) : r.thread = t := by
  unfold change at h
  split_ifs at h
  · rw [List.mem_singleton.mp h]
    rfl
  · rw [List.mem_singleton.mp h]
    rfl
  · nomatch h

/-- Of one thread there is what has changed for it. -/
theorem historyOf_flatMap {threads : List Nat} (hnodup : threads.Nodup) :
    (threads.flatMap (change w w' now)).filter (fun r => r.thread = t) =
      if t ∈ threads then change w w' now t else [] := by
  induction threads with
  | nil => rfl
  | cons u threads ih =>
    obtain ⟨hnot, hnodup⟩ := List.nodup_cons.mp hnodup
    rw [List.flatMap_cons, List.filter_append, ih hnodup]
    by_cases hu : u = t
    · subst hu
      rw [if_neg hnot, if_pos List.mem_cons_self, List.append_nil, List.filter_eq_self]
      intro r hr
      exact decide_eq_true (change_thread hr)
    · have hnone : (change w w' now u).filter (fun r => r.thread = t) = [] := by
        rw [List.filter_eq_nil_iff]
        intro r hr heq
        exact hu ((change_thread hr).symm.trans (of_decide_eq_true heq))
      rw [hnone, List.nil_append]
      refine if_congr ?_ rfl rfl
      rw [List.mem_cons]
      exact (or_iff_right fun heq => hu heq.symm).symm

/-- Where the same threads are asleep, nothing is recorded. -/
theorem changes_of_same (h : ∀ t, Asleep w' t ↔ Asleep w t) : changes w w' now = [] := by
  rw [changes, List.flatMap_eq_nil_iff]
  intro t _
  rw [change, if_neg, if_neg]
  · rintro ⟨ha, hn⟩
    exact hn ((h t).mpr ha)
  · rintro ⟨hn, ha⟩
    exact hn ((h t).mp ha)

/-! ### What leaves sleeping threads alone -/

/-- The routine, where it returns, leaves `sleeping_list` as it was. -/
def KeepsList (m : Threads.KernelRoutine Unit) : Prop :=
  ∀ w, wp m (fun _ w' => w'.sleepingList = w.sleepingList) (fun _ => True) w

theorem KeepsList.after {m : Threads.KernelRoutine Unit} (h : KeepsList m)
    (hlist : w'.sleepingList = w.sleepingList) :
    wp m (fun _ w'' => w''.sleepingList = w.sleepingList) (fun _ => True) w' :=
  (h w').mono fun _ _ h' => h'.trans hlist

theorem keepsList_schedule : KeepsList Threads.schedule := by
  intro w
  rw [Threads.schedule, Routine.wp_bind, Routine.wp_get]
  dsimp only
  split_ifs
  · trivial
  · trivial
  · rw [Routine.wp_set, Threads.State.switchTo]
    dsimp only
    split_ifs
    · rfl
    · rfl

theorem keepsList_threadBlock : KeepsList Threads.threadBlock := by
  intro w
  rw [Threads.threadBlock, Routine.wp_bind, Routine.wp_modify]
  exact keepsList_schedule.after rfl

theorem keepsList_threadYield : KeepsList Threads.threadYield := by
  intro w
  rw [Threads.threadYield, Routine.wp_bind, Routine.wp_modify]
  exact keepsList_schedule.after rfl

theorem keepsList_threadUnblock (t : Nat) : KeepsList (Threads.threadUnblock t) := by
  intro w
  rw [Threads.threadUnblock, Routine.wp_bind, Routine.wp_get]
  split
  · exact Routine.wp_set.mpr rfl
  · trivial
  · trivial

theorem keepsList_semaDown (s : Semaphore) (rest : List Instr) :
    KeepsList (Threads.semaDown s rest) := by
  intro w
  rw [Threads.semaDown, Routine.wp_bind, Routine.wp_get]
  split_ifs
  · rw [Routine.wp_bind, Routine.wp_set]
    exact keepsList_threadBlock.after rfl
  · exact Routine.wp_set.mpr rfl

theorem keepsList_semaTryDown (s : Semaphore) (success failure : List Instr) :
    KeepsList (Threads.semaTryDown s success failure) := by
  intro w
  rw [Threads.semaTryDown, Routine.wp_bind, Routine.wp_get]
  split_ifs
  · exact Routine.wp_set.mpr rfl
  · exact Routine.wp_set.mpr rfl

theorem keepsList_semaUp (s : Semaphore) : KeepsList (Threads.semaUp s) := by
  intro w
  rw [Threads.semaUp, Routine.wp_bind, Threads.unblockFirst, Routine.wp_bind, Routine.wp_get]
  split
  · exact Routine.wp_modify.mpr rfl
  · rw [Routine.wp_bind, Routine.wp_set]
    refine ((keepsList_threadUnblock _).after rfl).mono fun _ w' hw' => ?_
    exact Routine.wp_modify.mpr hw'

/-- Only `thread_sleep` puts an entry into the list. -/
theorem keepsList_perform {lockOf : Nat → Nat} {rest : List Instr} {i : Instr}
    (hi : ∀ u, i ≠ .sleep u) : KeepsList (Threads.perform lockOf rest i) := by
  intro w
  cases i with
  | down s => exact keepsList_semaDown s rest w
  | recheck s => exact keepsList_semaDown s rest w
  | up s =>
    rw [Threads.perform, Routine.wp_bind, Routine.wp_modify]
    exact (keepsList_semaUp s).after rfl
  | tryDown n => exact keepsList_semaTryDown _ _ _ w
  | tryLock l => exact keepsList_semaTryDown _ _ _ w
  | acquire l | tryAcquire l =>
    rw [Threads.perform, Routine.wp_bind, Routine.wp_get]
    split_ifs
    · trivial
    · exact Routine.wp_set.mpr rfl
  | release l | condWait c | condSignal c =>
    rw [Threads.perform, Routine.wp_bind, Routine.wp_get]
    split_ifs
    · exact Routine.wp_set.mpr rfl
    · trivial
  | setHolder l | clearHolder l | leave c | condBroadcast c | blocked | allocateTid t =>
    rw [Threads.perform, Routine.wp_modify]
    rfl
  | enqueue c =>
    rw [Threads.perform, Routine.wp_modify]
    simp only [Threads.State.happens, Threads.State.setPending, Threads.State.setCondWaiters,
      Threads.State.semaInit, Threads.State.setValue, Threads.State.setWaiters]
  | signal c | broadcast c =>
    rw [Threads.perform, Routine.wp_modify]
    split
    · rfl
    · rfl
  | block =>
    rw [Threads.perform, Routine.wp_bind, Routine.wp_modify]
    exact keepsList_threadBlock.after rfl
  | yield =>
    rw [Threads.perform, Routine.wp_bind, Routine.wp_modify]
    exact keepsList_threadYield.after rfl
  | unblock t | unblockNew t =>
    rw [Threads.perform, Routine.wp_bind, Routine.wp_modify]
    exact (keepsList_threadUnblock t).after rfl
  | sleep u => exact absurd rfl (hi u)
  | create t =>
    rw [Threads.perform, Routine.wp_modify]
    split_ifs
    · rfl
    · rfl
  | exit =>
    rw [Threads.perform, Routine.wp_bind, Routine.wp_modify]
    exact keepsList_schedule.after rfl
  | idle => exact keepsList_threadBlock w

/-- An instruction that uses the semaphore of a thread in `thread_sleep`. -/
def Sleepy : Instr → Prop
  | .down (.sleep _) | .recheck (.sleep _) | .up (.sleep _) | .sleep _ => True
  | _ => False

/-- The thread is in no `thread_sleep`. -/
def Plain (is : List Instr) : Prop := ∀ i ∈ is, ¬ Sleepy i

/-- What an instruction outside `thread_sleep` does to the semaphores of sleeping threads, and that
the thread does not get there. -/
theorem effect_plain {lockOf : Nat → Nat} {rest : List Instr} {i : Instr} {v : Threads.State}
    (h : Threads.Effect lockOf w rest i v) (hnext : w.pending w.current = i :: rest)
    (hplain : Plain (w.pending w.current)) :
    (∀ t, v.value (.sleep t) = w.value (.sleep t)) ∧
      (∀ t, v.waiters (.sleep t) = w.waiters (.sleep t)) ∧
      ∃ is, Plain is ∧ v.pending = Function.update w.pending w.current is := by
  have hi : ¬ Sleepy i := hplain i (hnext ▸ List.mem_cons_self)
  have hrest : Plain rest := fun j hj => hplain j (hnext ▸ List.mem_cons_of_mem _ hj)
  have hcons : ∀ {j : Instr} {is : List Instr}, ¬ Sleepy j → Plain is → Plain (j :: is) :=
    fun hj his => List.forall_mem_cons.mpr ⟨hj, his⟩
  have hne : ∀ {s : Semaphore}, (i = .down s ∨ i = .recheck s ∨ i = .up s) →
      ∀ t, Semaphore.sleep t ≠ s := by
    rintro s hor t rfl
    rcases hor with rfl | rfl | rfl <;> exact hi trivial
  cases h with
  | @wait _ s hi' hzero =>
    have hs := hne (hi'.imp_right .inl)
    have hrecheck : ¬ Sleepy (.recheck s) := by
      cases s with
      | sleep t => exact absurd rfl (hs t)
      | _ => exact id
    exact ⟨fun t => rfl, fun t => Function.update_of_ne (hs t) _ _, _, hcons hrecheck hrest, rfl⟩
  | @take _ s hi' hpos =>
    have hs := hne (hi'.imp_right .inl)
    have hafter : Plain (Threads.afterDown s ++ rest) := by
      cases s with
      | lock l => exact hcons id hrest
      | _ => exact hrest
    exact ⟨fun t => Function.update_of_ne (hs t) _ _, fun t => rfl, _, hafter, rfl⟩
  | up s =>
    have hs := hne (.inr (.inr rfl))
    exact ⟨fun t => Function.update_of_ne (hs t) _ _, fun t => Function.update_of_ne (hs t) _ _, _,
      hrest, rfl⟩
  | tryDown h => exact ⟨fun t => rfl, fun t => rfl, _, hrest, rfl⟩
  | tryLock h => exact ⟨fun t => rfl, fun t => rfl, _, hcons id hrest, rfl⟩
  | fail | setHolder | leave | signalNone | broadcastEnd | goOn =>
    exact ⟨fun t => rfl, fun t => rfl, _, hrest, rfl⟩
  | acquire | tryAcquire | release | clearHolder | condWait | condSignal | signal | condBroadcast |
    block => exact ⟨fun t => rfl, fun t => rfl, _, hcons id hrest, rfl⟩
  | enqueue c =>
    exact ⟨fun t => rfl, fun t => rfl, _, hcons id (hcons id (hcons id (hcons id hrest))), rfl⟩
  | broadcast h => exact ⟨fun t => rfl, fun t => rfl, _, hcons id (hcons id hrest), rfl⟩
  | sleep u => exact absurd trivial hi
  | create h =>
    exact ⟨fun t => rfl, fun t => rfl, _, hcons id (hcons id (hcons id (hcons id hrest))), rfl⟩
  | exit => exact ⟨fun t => rfl, fun t => rfl, [], nofun, rfl⟩
  | idle =>
    exact ⟨fun t => rfl, fun t => rfl, _, hplain, (Function.update_eq_self _ _).symm⟩

/-! ### The invariant -/

/-- Where a thread is in a stage, and what its semaphore is then. -/
def Holds (w : Threads.State) (ticks : Int) (t : Nat) : Stage → Prop
  | .out => (∀ u, (u, t) ∉ w.sleepingList) ∧ w.waiters (.sleep t) = [] ∧
      (Plain (w.pending t) ∨ w.pending t = [.recheck (.sleep t)] ∧ w.value (.sleep t) = 1)
  | .called n now => (∀ u, (u, t) ∉ w.sleepingList) ∧ w.waiters (.sleep t) = [] ∧
      w.pending t = [.sleep (now + n)]
  | .asleep n now inserted => (now + n, t) ∈ w.sleepingList ∧ w.waiters (.sleep t) = [t] ∧
      w.pending t = [.recheck (.sleep t)] ∧ w.value (.sleep t) = 0 ∧
      ticks ≤ max (now + n) inserted ∧ inserted ≤ ticks

structure Sound (s : State) : Prop where
  scheduled : Scheduled s.threads
  sorted : s.threads.sleepingList.Pairwise (Before s.history)
  once : (s.threads.sleepingList.map Prod.snd).Nodup
  stage : ∀ t, ∃ stage, Sleeps t (s.historyOf t) stage ∧ Holds s.threads s.ticks t stage

variable {s : State} {stage : Stage} {ticks : Int}

theorem asleep_iff_waits (h : Scheduled w) : Asleep w t ↔ t ∈ w.waiters (.sleep t) :=
  ⟨fun hasleep => h.blocked _ t hasleep.1 hasleep.2, h.waiting _ t⟩

theorem mem_listed : t ∈ l.map Prod.snd ↔ ∃ u, (u, t) ∈ l := by
  simp

namespace Sound

theorem asleep_iff (h : Sound s) (t : Nat) :
    Asleep s.threads t ↔ t ∈ s.threads.sleepingList.map Prod.snd := by
  rw [asleep_iff_waits h.scheduled, mem_listed]
  obtain ⟨stage, -, hholds⟩ := h.stage t
  cases stage with
  | out | called =>
    obtain ⟨hnot, hwaiters, -⟩ := hholds
    rw [hwaiters]
    exact iff_of_false List.not_mem_nil fun ⟨u, hu⟩ => hnot u hu
  | asleep n now inserted =>
    obtain ⟨hlisted, hwaiters, -⟩ := hholds
    rw [hwaiters]
    exact iff_of_true (List.mem_singleton.mpr rfl) ⟨_, hlisted⟩

theorem sleepers (h : Sound s) : Sleepers s where
  sorted := h.sorted
  asleep t := (h.asleep_iff t).symm
  once := h.once
  stage t := by
    obtain ⟨stage, hsleeps, hholds⟩ := h.stage t
    refine ⟨stage, hsleeps, ?_⟩
    cases stage with
    | out =>
      obtain ⟨hnot, hwaiters, hpending⟩ := hholds
      refine ⟨fun hasleep => ?_, fun u hu => ?_⟩
      · rw [asleep_iff_waits h.scheduled, hwaiters] at hasleep
        nomatch hasleep
      · rcases hpending with hplain | ⟨hrecheck, -⟩
        · exact hplain _ hu trivial
        · rw [hrecheck, List.mem_singleton] at hu
          nomatch hu
    | called n now => exact hholds.2.2
    | asleep n now inserted =>
      obtain ⟨hlisted, -, -, -, hticks, -⟩ := hholds
      exact ⟨(h.asleep_iff t).mpr (mem_listed.mpr ⟨_, hlisted⟩), hlisted, hticks⟩

end Sound

/-- Nothing happens to a thread as far as sleeping is concerned. -/
structure SameFor (t : Nat) (w w' : Threads.State) : Prop where
  listed : ∀ u, (u, t) ∈ w'.sleepingList ↔ (u, t) ∈ w.sleepingList
  value : w'.value (.sleep t) = w.value (.sleep t)
  waiters : w'.waiters (.sleep t) = w.waiters (.sleep t)
  pending : w'.pending t = w.pending t ∨ Plain (w.pending t) ∧ Plain (w'.pending t)

theorem Plain.not_recheck (h : Plain (w.pending t)) : w.pending t ≠ [.recheck (.sleep u)] :=
  fun heq => h (.recheck (.sleep u)) (by rw [heq]; exact List.mem_singleton.mpr rfl) trivial

theorem Plain.not_sleep {untilsleep : Int} (h : Plain (w.pending t)) :
    w.pending t ≠ [.sleep untilsleep] :=
  fun heq => h (.sleep untilsleep) (by rw [heq]; exact List.mem_singleton.mpr rfl) trivial

theorem Holds.congr (h : Holds w ticks t stage) (hsame : SameFor t w w') :
    Holds w' ticks t stage := by
  obtain ⟨hlisted, hvalue, hwaiters, hpending⟩ := hsame
  cases stage with
  | out =>
    obtain ⟨hnot, hnone, hat⟩ := h
    refine ⟨fun u => (hlisted u).not.mpr (hnot u), hwaiters.trans hnone, ?_⟩
    rcases hpending with heq | ⟨-, hplain⟩
    · rw [heq, hvalue]
      exact hat
    · exact .inl hplain
  | called n now =>
    obtain ⟨hnot, hnone, hat⟩ := h
    refine ⟨fun u => (hlisted u).not.mpr (hnot u), hwaiters.trans hnone, ?_⟩
    rcases hpending with heq | ⟨hplain, -⟩
    · exact heq.trans hat
    · exact absurd hat hplain.not_sleep
  | asleep n now inserted =>
    obtain ⟨hmem, hself, hat, hzero, hticks⟩ := h
    refine ⟨(hlisted _).mpr hmem, hwaiters.trans hself, ?_, hvalue.trans hzero, hticks⟩
    rcases hpending with heq | ⟨hplain, -⟩
    · exact heq.trans hat
    · exact absurd hat hplain.not_recheck

/-- Where nothing happens to a thread, nothing is recorded of it. -/
theorem SameFor.change (h : SameFor t w w') (hw : Scheduled w) (hw' : Scheduled w') :
    change w w' now t = [] := by
  have hiff : Asleep w' t ↔ Asleep w t := by
    rw [asleep_iff_waits hw, asleep_iff_waits hw', h.waiters]
  rw [Timer.change, if_neg, if_neg]
  · exact fun hand => hand.2 (hiff.mpr hand.1)
  · exact fun hand => hand.1 (hiff.mp hand.2)

/-- The state after something has happened to the threads. -/
def State.after (s : State) (w : Threads.State) : State :=
  { s with threads := w, history := changes s.threads w s.ticks ++ s.history }

theorem onThreads_ok {m : Threads.KernelRoutine Unit} {s' : State} :
    onThreads m s = .ok ((), s') ↔ ∃ w, m s.threads = .ok ((), w) ∧ s' = s.after w := by
  unfold onThreads
  split
  · next w hm =>
    constructor
    · intro h
      cases h
      exact ⟨w, hm, rfl⟩
    · rintro ⟨w', hm', rfl⟩
      cases hm.symm.trans hm'
      rfl
  · next e hm =>
    refine iff_of_false nofun ?_
    rintro ⟨w', hm', -⟩
    cases hm.symm.trans hm'

/-- What is recorded of one thread. -/
theorem historyOf_after (h : Scheduled s.threads)
    (ht : t ∈ s.threads.allList ∨ change s.threads w s.ticks t = []) :
    (s.after w).historyOf t = change s.threads w s.ticks t ++ s.historyOf t := by
  show (changes s.threads w s.ticks ++ s.history).filter _ = _
  rw [List.filter_append, changes, historyOf_flatMap h.allNodup]
  refine congrArg (· ++ s.historyOf t) ?_
  split_ifs with hmem
  · rfl
  · exact (ht.resolve_left hmem).symm

/-- Where nothing happens to a thread, it stays in its stage. -/
theorem Sound.same_stage (h : Sound s) (hw : Scheduled w) (hsame : SameFor t s.threads w) :
    ∃ stage, Sleeps t ((s.after w).historyOf t) stage ∧ Holds w s.ticks t stage := by
  obtain ⟨stage, hsleeps, hholds⟩ := h.stage t
  have hnone : change s.threads w s.ticks t = [] := hsame.change h.scheduled hw
  refine ⟨stage, ?_, hholds.congr hsame⟩
  rw [historyOf_after h.scheduled (.inr hnone), hnone]
  exact hsleeps

/-! ### What else the threads do -/

/-- Nothing happens to sleeping threads. -/
structure Quiet (w w' : Threads.State) : Prop where
  scheduled : Scheduled w'
  sleepingList : w'.sleepingList = w.sleepingList
  same : ∀ t, SameFor t w w'

theorem Sound.quiet (h : Sound s) (hw : Quiet s.threads w) : Sound (s.after w) := by
  obtain ⟨hscheduled, hlist, hsame⟩ := hw
  have hnone : changes s.threads w s.ticks = [] := by
    refine changes_of_same fun t => ?_
    rw [asleep_iff_waits h.scheduled, asleep_iff_waits hscheduled, (hsame t).waiters]
  have hhistory : (s.after w).history = s.history := by
    show changes s.threads w s.ticks ++ s.history = s.history
    rw [hnone, List.nil_append]
  refine ⟨hscheduled, ?_, ?_, fun t => h.same_stage hscheduled (hsame t)⟩
  · rw [hhistory]
    show w.sleepingList.Pairwise _
    rw [hlist]
    exact h.sorted
  · show (w.sleepingList.map Prod.snd).Nodup
    rw [hlist]
    exact h.once

/-- The semaphores of sleeping threads are as before, and a thread that is not in `thread_sleep` has
other instructions to execute. -/
theorem Quiet.of_switched {v : Threads.State} (hswitched : Switched v w')
    (hlist : w'.sleepingList = w.sleepingList)
    (hvalue : ∀ t, v.value (.sleep t) = w.value (.sleep t))
    (hwaiters : ∀ t, v.waiters (.sleep t) = w.waiters (.sleep t))
    (hpending : ∀ t, v.pending t = w.pending t ∨ Plain (w.pending t) ∧ Plain (v.pending t)) :
    Quiet w w' := by
  obtain ⟨hscheduled, hdata⟩ := hswitched
  refine ⟨hscheduled, hlist, fun t => ⟨fun u => by rw [hlist], ?_, ?_, ?_⟩⟩
  · rw [hdata.value]
    exact hvalue t
  · rw [hdata.waiters]
    exact hwaiters t
  · rw [hdata.pending]
    exact hpending t

theorem Quiet.refl (h : Scheduled w) : Quiet w w :=
  .of_switched ⟨h, SameData.refl⟩ rfl (fun _ => rfl) (fun _ => rfl) fun _ => .inl rfl

/-- The current thread goes on outside `thread_sleep`. -/
theorem wp_perform_plain {lockOf : Nat → Nat} {i : Instr} {rest : List Instr} (h : Scheduled w)
    (hnext : w.pending w.current = i :: rest) (hplain : Plain (w.pending w.current))
    (hdirect : ∀ t, i = .unblock t → (w.pending t).head? = some .blocked) :
    wp (Threads.perform lockOf rest i) (fun _ w' => Quiet w w') (fun _ => True) w := by
  have hnot : ∀ u, i ≠ .sleep u := by
    rintro u rfl
    exact hplain (.sleep u) (hnext ▸ List.mem_cons_self) trivial
  rcases hrun : Threads.perform lockOf rest i w with e | ⟨_, w'⟩
  · unfold wp
    rw [hrun]
    trivial
  obtain ⟨v, heffect, hswitched⟩ := (Threads.wp_perform h hnext hdirect).of_ok hrun
  obtain ⟨hvalue, hwaiters, is, his, hpending⟩ := effect_plain heffect hnext hplain
  refine Routine.wp_of_ok hrun (.of_switched hswitched ((keepsList_perform hnot w).of_ok hrun)
    hvalue hwaiters fun t => ?_)
  by_cases ht : t = w.current
  · subst ht
    rw [hpending, Function.update_self]
    exact .inr ⟨hplain, his⟩
  · rw [hpending, Function.update_of_ne ht]
    exact .inl rfl

/-- If only one thread changes, that is recorded alone. -/
theorem changes_eq (hnodup : w.allList.Nodup) (hmem : t ∈ w.allList)
    (hother : ∀ u, u ≠ t → change w w' now u = []) : changes w w' now = change w w' now t := by
  have hall : (changes w w' now).filter (fun r => r.thread = t) = changes w w' now := by
    rw [List.filter_eq_self]
    intro r hr
    obtain ⟨u, -, hu⟩ := List.mem_flatMap.mp hr
    have heq : u = t := by
      by_contra hne
      rw [hother u hne] at hu
      nomatch hu
    exact decide_eq_true ((change_thread hu).trans heq)
  rw [← hall, changes, historyOf_flatMap hnodup, if_pos hmem]

/-- Only one thread, which is then in some stage, changes. -/
theorem Sound.moves (h : Sound s) (hscheduled : Scheduled w)
    (hother : ∀ u, u ≠ t → SameFor u s.threads w)
    (hsorted : w.sleepingList.Pairwise (Before (s.after w).history))
    (honce : (w.sleepingList.map Prod.snd).Nodup)
    (hstage : ∃ stage, Sleeps t ((s.after w).historyOf t) stage ∧ Holds w s.ticks t stage) :
    Sound (s.after w) := by
  refine ⟨hscheduled, hsorted, honce, fun u => ?_⟩
  by_cases hu : u = t
  · subst hu
    exact hstage
  · exact h.same_stage hscheduled (hother u hu)

theorem effect_sleep {lockOf : Nat → Nat} {rest : List Instr} {untilsleep : Int}
    {v : Threads.State} (h : Threads.Effect lockOf w rest (.sleep untilsleep) v) :
    v = (w.semaInit (.sleep w.current)).waited (.sleep w.current) rest := by
  cases h with
  | sleep => rfl
  | wait hi => rcases hi with hi | hi <;> nomatch hi
  | take hi => rcases hi with hi | hi <;> nomatch hi
  | fail hi => rcases hi with ⟨_, hi⟩ | ⟨_, hi⟩ <;> nomatch hi
  | goOn hi => rcases hi with hi | hi | ⟨_, hi⟩ | ⟨_, hi⟩ | ⟨_, hi⟩ | ⟨_, hi⟩ <;> nomatch hi

theorem effect_recheck {lockOf : Nat → Nat} {rest : List Instr} {s : Semaphore}
    {v : Threads.State} (h : Threads.Effect lockOf w rest (.recheck s) v) (hpos : 0 < w.value s) :
    v = w.took s (Threads.afterDown s ++ rest) := by
  cases h with
  | take hi =>
    rcases hi with hi | hi
    · nomatch hi
    · cases hi
      rfl
  | wait hi hzero =>
    rcases hi with hi | hi
    · nomatch hi
    · cases hi
      omega
  | fail hi => rcases hi with ⟨_, hi⟩ | ⟨_, hi⟩ <;> nomatch hi
  | goOn hi => rcases hi with hi | hi | ⟨_, hi⟩ | ⟨_, hi⟩ | ⟨_, hi⟩ | ⟨_, hi⟩ <;> nomatch hi

theorem wp_perform_sleep {lockOf : Nat → Nat} {rest : List Instr} {untilsleep : Int} :
    wp (Threads.perform lockOf rest (.sleep untilsleep)) (fun _ w' => w'.sleepingList =
      Threads.insertSleeping untilsleep w.current w.sleepingList) (fun _ => True) w := by
  rw [Threads.perform, Routine.wp_bind, Routine.wp_get, Routine.wp_bind, Routine.wp_set]
  exact (keepsList_semaDown _ _ _).mono fun _ _ hlist => hlist

/-- The current thread has read the clock, and falls asleep. -/
theorem Sound.falls_asleep {lockOf : Nat → Nat} {n since : Int} (h : Sound s)
    (hholds : Holds s.threads s.ticks s.threads.current (.called n since))
    (hsleeps : Sleeps s.threads.current (s.historyOf s.threads.current) (.called n since))
    (hrun : Threads.perform lockOf [] (.sleep (since + n)) s.threads = .ok ((), w)) :
    Sound (s.after w) := by
  obtain ⟨hnot, -, hpending⟩ := hholds
  generalize hc : s.threads.current = c at *
  have hnext : s.threads.pending s.threads.current = .sleep (since + n) :: [] := hc ▸ hpending
  obtain ⟨v, heffect, hscheduled, hdata⟩ :=
    (Threads.wp_perform h.scheduled hnext nofun).of_ok hrun
  have hlist := (wp_perform_sleep (w := s.threads)).of_ok hrun
  have hv := effect_sleep heffect
  rw [hc] at hv hlist
  have hnew : c ∉ s.threads.sleepingList.map Prod.snd := fun hmem => by
    obtain ⟨u, hu⟩ := mem_listed.mp hmem
    exact hnot u hu
  have hvalue : w.value = Function.update s.threads.value (.sleep c) 0 := by
    rw [hdata.value, hv]
    rfl
  have hwaiters : w.waiters (.sleep c) = [c] := by
    rw [hdata.waiters, hv]
    show Function.update _ _ _ _ = _
    rw [Function.update_self]
    show Function.update s.threads.waiters (.sleep c) [] (.sleep c) ++ [s.threads.current] = _
    rw [Function.update_self, hc]
    rfl
  have hwaitersOther : ∀ u, u ≠ c → w.waiters (.sleep u) = s.threads.waiters (.sleep u) := by
    intro u hu
    have hne : Semaphore.sleep u ≠ .sleep c := fun heq => hu (Semaphore.sleep.inj heq)
    rw [hdata.waiters, hv]
    exact (Function.update_of_ne hne _ _).trans (Function.update_of_ne hne _ _)
  have hpend : w.pending = Function.update s.threads.pending c [.recheck (.sleep c)] := by
    rw [hdata.pending, hv, ← hc]
    rfl
  have hother : ∀ u, u ≠ c → SameFor u s.threads w := by
    intro u hu
    refine ⟨fun k => ?_, ?_, hwaitersOther u hu, .inl ?_⟩
    · rw [hlist, mem_insertSleeping]
      exact or_iff_right fun heq => hu (congrArg Prod.snd heq)
    · rw [hvalue]
      exact Function.update_of_ne (fun heq => hu (Semaphore.sleep.inj heq)) _ _
    · rw [hpend]
      exact Function.update_of_ne hu _ _
  have hmem : c ∈ s.threads.allList := hc ▸ h.scheduled.current_mem
  have hchange : change s.threads w s.ticks c = [.asleep c s.ticks] := by
    rw [change, if_pos]
    constructor
    · rw [h.asleep_iff]
      exact hnew
    · rw [asleep_iff_waits hscheduled, hwaiters]
      exact List.mem_singleton.mpr rfl
  have hchanges : changes s.threads w s.ticks = [.asleep c s.ticks] := by
    rw [changes_eq h.scheduled.allNodup hmem fun u hu =>
      (hother u hu).change h.scheduled hscheduled, hchange]
  refine h.moves hscheduled hother ?_ ?_ ⟨.asleep n since s.ticks, ?_, ?_, hwaiters, ?_, ?_, ?_⟩
  · show w.sleepingList.Pairwise (Before (changes s.threads w s.ticks ++ s.history))
    rw [hlist, hchanges]
    exact sorted_insertSleeping h.sorted hnew
  · rw [hlist]
    exact nodup_insertSleeping h.once hnew
  · rw [historyOf_after h.scheduled (.inl hmem), hchange]
    exact .asleep s.ticks hsleeps
  · rw [hlist, mem_insertSleeping]
    exact .inl rfl
  · rw [hpend, Function.update_self]
  · rw [hvalue, Function.update_self]
  · exact ⟨Int.le_max_right _ _, Int.le_refl _⟩

/-- The current thread was made ready, and returns from `thread_sleep`. -/
theorem Sound.returns {lockOf : Nat → Nat} (h : Sound s)
    (hlisted : ∀ u, (u, s.threads.current) ∉ s.threads.sleepingList)
    (hwaiters : s.threads.waiters (.sleep s.threads.current) = [])
    (hpending : s.threads.pending s.threads.current = [.recheck (.sleep s.threads.current)])
    (hvalue : s.threads.value (.sleep s.threads.current) = 1)
    (hsleeps : Sleeps s.threads.current (s.historyOf s.threads.current) .out)
    (hrun : Threads.perform lockOf [] (.recheck (.sleep s.threads.current)) s.threads =
      .ok ((), w)) : Sound (s.after w) := by
  generalize hc : s.threads.current = c at *
  have hnext : s.threads.pending s.threads.current = .recheck (.sleep c) :: [] := hc ▸ hpending
  have hpos : 0 < s.threads.value (.sleep c) := hvalue ▸ Nat.one_pos
  obtain ⟨v, heffect, hscheduled, hdata⟩ :=
    (Threads.wp_perform h.scheduled hnext nofun).of_ok hrun
  have hlist : w.sleepingList = s.threads.sleepingList :=
    (keepsList_perform (by nofun) s.threads).of_ok hrun
  have hv := effect_recheck heffect hpos
  have hpend : w.pending = Function.update s.threads.pending c [] := by
    rw [hdata.pending, hv, ← hc]
    rfl
  have hwait : ∀ u, w.waiters (.sleep u) = s.threads.waiters (.sleep u) := by
    intro u
    rw [hdata.waiters, hv]
    rfl
  have hother : ∀ u, u ≠ c → SameFor u s.threads w := by
    intro u hu
    refine ⟨fun k => by rw [hlist], ?_, hwait u, .inl ?_⟩
    · rw [hdata.value, hv]
      exact Function.update_of_ne (fun heq => hu (Semaphore.sleep.inj heq)) _ _
    · rw [hpend]
      exact Function.update_of_ne hu _ _
  have hmem : c ∈ s.threads.allList := hc ▸ h.scheduled.current_mem
  have hnone : changes s.threads w s.ticks = [] := by
    refine changes_of_same fun u => ?_
    rw [asleep_iff_waits h.scheduled, asleep_iff_waits hscheduled, hwait]
  have hhistory : (s.after w).history = s.history := by
    show changes s.threads w s.ticks ++ s.history = s.history
    rw [hnone, List.nil_append]
  refine h.moves hscheduled hother ?_ ?_ ⟨.out, ?_, ?_, (hwait c).trans hwaiters, .inl ?_⟩
  · rw [hhistory, hlist]
    exact h.sorted
  · rw [hlist]
    exact h.once
  · unfold State.historyOf
    rw [hhistory]
    exact hsleeps
  · rw [hlist]
    exact hlisted
  · rw [hpend, Function.update_self]
    nofun

/-- The current thread executes an instruction. -/
theorem Sound.performs {lockOf : Nat → Nat} {i : Instr} {rest : List Instr} (h : Sound s)
    (hnext : s.threads.pending s.threads.current = i :: rest)
    (hdirect : ∀ t, i = .unblock t → (s.threads.pending t).head? = some .blocked)
    (hrun : Threads.perform lockOf rest i s.threads = .ok ((), w)) : Sound (s.after w) := by
  obtain ⟨stage, hsleeps, hholds⟩ := h.stage s.threads.current
  cases stage with
  | out =>
    obtain ⟨hlisted, hwaiters, hplain | ⟨hpending, hvalue⟩⟩ := hholds
    · exact h.quiet ((wp_perform_plain h.scheduled hnext hplain hdirect).of_ok hrun)
    · obtain ⟨rfl, rfl⟩ := List.cons.inj (hnext.symm.trans hpending)
      exact h.returns hlisted hwaiters hpending hvalue hsleeps hrun
  | called n now =>
    obtain ⟨rfl, rfl⟩ := List.cons.inj (hnext.symm.trans hholds.2.2)
    exact h.falls_asleep hholds hsleeps hrun
  | asleep n now inserted =>
    -- a thread that waits does not run
    refine absurd ?_ (h.scheduled.current_not_waiting (s := .sleep s.threads.current))
    rw [hholds.2.1]
    exact List.mem_singleton.mpr rfl

theorem plain_body {c : Threads.Call} (hc : ∀ u, c ≠ .threadSleep u) : Plain [c.body] := by
  intro i hi
  rw [List.mem_singleton.mp hi]
  cases c with
  | threadSleep u => exact absurd rfl (hc u)
  | _ => exact id

/-- Whatever else happens to the threads. -/
theorem Sound.other {lockOf : Nat → Nat} {a : Threads.Action} (h : Sound s)
    (hproper : Proper (.other a) s) (hrun : Threads.exec lockOf a s.threads = .ok ((), w)) :
    Sound (s.after w) := by
  obtain ⟨hsleep, htick, hunblocks⟩ := hproper
  have hsteps : Threads.Steps lockOf (fun _ _ => True) s.threads w :=
    (Threads.wp_exec h.scheduled hunblocks fun _ _ _ => trivial).of_ok hrun
  have hscheduled : Scheduled w := hsteps.scheduled
  cases a with
  | call c =>
    cases hrun
    refine h.quiet ?_
    dsimp only at hscheduled ⊢
    split_ifs at hscheduled ⊢ with hnil
    · refine .of_switched ⟨hscheduled, SameData.refl⟩ rfl (fun _ => rfl) (fun _ => rfl) fun t => ?_
      by_cases ht : t = s.threads.current
      · subst ht
        refine .inr ⟨?_, ?_⟩
        · rw [hnil]
          nofun
        · rw [Threads.State.setPending_pending, Function.update_self]
          exact plain_body fun u heq => hsleep u (heq ▸ rfl)
      · exact .inl (Function.update_of_ne ht _ _)
    · exact .refl h.scheduled
  | run =>
    rcases hnext : s.threads.pending s.threads.current with _ | ⟨i, rest⟩
    · rw [Threads.exec, Routine.get_bind_apply, hnext] at hrun
      cases hrun
      exact h.quiet (.refl h.scheduled)
    · rw [Threads.exec, Routine.get_bind_apply, hnext] at hrun
      exact h.performs hnext (fun t hi => hunblocks t (by rw [hnext, hi]; rfl)) hrun
  | tick now => exact absurd rfl (htick now)
  | interruptUp n =>
    exact h.quiet (.of_switched ((Threads.wp_semaUp h.scheduled (.user n)).of_ok hrun)
      ((keepsList_semaUp (.user n) s.threads).of_ok hrun) (fun t => rfl) (fun t => rfl)
      fun t => .inl rfl)
  | interruptTryDown n =>
    rw [Threads.exec, Routine.get_bind_apply] at hrun
    have hlist := (keepsList_semaTryDown _ _ _ s.threads).of_ok hrun
    rw [Threads.semaTryDown, Routine.get_bind_apply] at hrun
    have hself : ∀ t, Function.update s.threads.pending s.threads.current
        (s.threads.pending s.threads.current) t = s.threads.pending t := by
      intro t
      rw [Function.update_eq_self]
    split_ifs at hrun
    · cases hrun
      exact h.quiet (.of_switched ⟨hscheduled, SameData.refl⟩ hlist
        (fun t => rfl) (fun t => rfl) fun t => .inl (hself t))
    · cases hrun
      exact h.quiet (.of_switched ⟨hscheduled, SameData.refl⟩ hlist (fun t => rfl) (fun t => rfl)
        fun t => .inl (hself t))
  | interruptUnblock t =>
    have hswitched := (Threads.wp_threadUnblock_blocked h.scheduled hunblocks).of_ok hrun
    exact h.quiet (.of_switched hswitched
      ((keepsList_threadUnblock t s.threads).of_ok hrun) (fun t => rfl) (fun t => rfl)
      fun t => .inl rfl)

/-! ### `timer_sleep` and the timer interrupt -/

theorem sleepUntil_of_fits {n : Int} (hlow : -2 ^ 63 ≤ now + n) (hhigh : now + n < 2 ^ 63) :
    sleepUntil now n = now + n :=
  Int.bmod_eq_of_le (by omega) (by omega)

/-- The current thread, which is in no call, reads the clock. -/
theorem Sound.reads {n : Int} (h : Sound s)
    (hnil : s.threads.pending s.threads.current = []) :
    Sound (State.after { s with history := .read s.threads.current n s.ticks :: s.history }
      (s.threads.setPending s.threads.current [.sleep (s.ticks + n)])) := by
  generalize hw : s.threads.setPending s.threads.current [.sleep (s.ticks + n)] = w
  have hpend : w.pending =
      Function.update s.threads.pending s.threads.current [.sleep (s.ticks + n)] := by
    rw [← hw]
    rfl
  have hlist : w.sleepingList = s.threads.sleepingList := by
    rw [← hw]
    rfl
  have hwaiters : w.waiters = s.threads.waiters := by
    rw [← hw]
    rfl
  have hvalue : w.value = s.threads.value := by
    rw [← hw]
    rfl
  have hidle : s.threads.current ≠ s.threads.idleThread := fun heq => by
    have := h.scheduled.idle
    rw [← heq, hnil] at this
    nomatch this
  have hscheduled : Scheduled w := by
    rw [← hw]
    exact h.scheduled.setPending hidle _ (by simp [Instr.OwnedBy]) (by simp) (by simp)
  have hnone : changes s.threads w s.ticks = [] := by
    refine changes_of_same fun t => ?_
    rw [asleep_iff_waits h.scheduled, asleep_iff_waits hscheduled, hwaiters]
  have hhistory : (State.after { s with
      history := .read s.threads.current n s.ticks :: s.history } w).history =
        [.read s.threads.current n s.ticks] ++ s.history := by
    show changes s.threads w s.ticks ++ _ = _
    rw [hnone]
    rfl
  refine ⟨hscheduled, ?_, ?_, fun t => ?_⟩
  · rw [hhistory]
    show w.sleepingList.Pairwise _
    rw [hlist]
    refine sorted_append h.sorted ?_
    rintro e - r hr now rfl
    nomatch List.mem_singleton.mp hr
  · show (w.sleepingList.map Prod.snd).Nodup
    rw [hlist]
    exact h.once
  obtain ⟨stage, hsleeps, hholds⟩ := h.stage t
  unfold State.historyOf
  rw [hhistory, List.filter_append]
  by_cases ht : t = s.threads.current
  · subst ht
    have hout : stage = .out := by
      cases stage with
      | out => rfl
      | called n now =>
        have := hholds.2.2
        rw [hnil] at this
        nomatch this
      | asleep n now inserted =>
        have := hholds.2.2.1
        rw [hnil] at this
        nomatch this
    subst hout
    refine ⟨.called n s.ticks, ?_, ?_, ?_, ?_⟩
    · have hown : (Record.read s.threads.current n s.ticks).thread = s.threads.current := rfl
      rw [List.filter_cons_of_pos (by simpa using hown), List.filter_nil]
      exact .read n s.ticks hsleeps
    · show ∀ u, (u, _) ∉ w.sleepingList
      rw [hlist]
      exact hholds.1
    · show w.waiters _ = []
      rw [hwaiters]
      exact hholds.2.1
    · show w.pending _ = _
      rw [hpend, Function.update_self]
  · have hne : ¬ (Record.read s.threads.current n s.ticks).thread = t := fun heq => ht heq.symm
    rw [List.filter_cons_of_neg (by simpa using hne), List.filter_nil, List.nil_append]
    refine ⟨stage, hsleeps, hholds.congr ⟨fun u => ?_, ?_, ?_, .inl ?_⟩⟩
    · show (u, t) ∈ w.sleepingList ↔ _
      rw [hlist]
    · show w.value _ = _
      rw [hvalue]
    · show w.waiters _ = _
      rw [hwaiters]
    · show w.pending t = _
      rw [hpend, Function.update_of_ne ht]

/-- What the loop of `thread_tick` has done, with the semaphores of the threads. -/
structure Awake (now : Int) (sleeping : List (Int × Nat)) (w w' : Threads.State) : Prop where
  scheduled : Scheduled w'
  sleepingList : w'.sleepingList = sleeping.filter fun e => ¬ e.1 < now
  readyList : w'.readyList = w.readyList ++ due now sleeping
  status : ∀ t, w'.status t = if t ∈ due now sleeping then some .ready else w.status t
  value : ∀ t, w'.value (.sleep t) = if t ∈ due now sleeping then 1 else w.value (.sleep t)
  waiters : ∀ t, w'.waiters (.sleep t) = if t ∈ due now sleeping then [] else w.waiters (.sleep t)
  pending : w'.pending = w.pending

/-- `sema_up` of the semaphore that a thread sleeps on. -/
theorem wp_semaUp_sleep (hwaiters : w.waiters (.sleep t) = [t])
    (hstatus : w.status t = some .blocked) {E : Fault → Prop} :
    wp (Threads.semaUp (.sleep t)) (fun _ w' => w' =
      ((((w.setWaiters (.sleep t) []).unblock t).setValue (.sleep t)
        ((w.value (.sleep t) + 1) % 2 ^ 32)).happens (.up (.sleep t)))) E w := by
  rw [Threads.semaUp, Routine.wp_bind, Threads.unblockFirst, Routine.wp_bind, Routine.wp_get,
    hwaiters]
  dsimp only
  rw [Routine.wp_bind, Routine.wp_set, Threads.threadUnblock, Routine.wp_bind, Routine.wp_get]
  have hstatus' : (w.setWaiters (.sleep t) []).status t = some .blocked := hstatus
  rw [hstatus']
  dsimp only
  rw [Routine.wp_set, Routine.wp_modify]
  rfl

theorem mem_due_cons {e : Int × Nat} (he : e.1 < now) :
    due now (e :: l) = e.2 :: due now l := by
  rw [due, List.filter_cons_of_pos (by simpa using he), List.map_cons, due]

theorem wp_wakeSleeping_due (h : Scheduled w) (hlist : w.sleepingList = l)
    (hnodup : (l.map Prod.snd).Nodup) (hsorted : l.Pairwise fun e e' => e.1 ≤ e'.1)
    (hasleep : ∀ e ∈ l, w.waiters (.sleep e.2) = [e.2] ∧ w.value (.sleep e.2) = 0) :
    wp (Threads.wakeSleeping now l) (fun _ w' => Awake now l w w') (fun _ => False) w := by
  induction l generalizing w with
  | nil =>
    refine ⟨h, hlist, (List.append_nil _).symm, ?_, ?_, ?_, rfl⟩ <;> exact fun t => rfl
  | cons e l ih =>
    obtain ⟨u, t⟩ := e
    rw [Threads.wakeSleeping]
    split_ifs with hdue
    · obtain ⟨hnot, hnodup⟩ := List.nodup_cons.mp hnodup
      obtain ⟨hwaiters, hvalue⟩ := hasleep _ List.mem_cons_self
      have hwaits : t ∈ w.waiters (.sleep t) := by
        rw [hwaiters]
        exact List.mem_singleton.mpr rfl
      have hstatus := (h.waiting _ t hwaits).1
      rw [Routine.wp_bind, Routine.wp_modify, Routine.wp_bind]
      generalize hw1 : ({ w with sleepingList := l } : Threads.State) = w1
      have h1 : Scheduled w1 := hw1 ▸ h.congr ⟨rfl, rfl, rfl, rfl, rfl, rfl, rfl, rfl⟩
      have hw1waiters : w1.waiters (.sleep t) = [t] := hw1 ▸ hwaiters
      have hw1status : w1.status t = some .blocked := hw1 ▸ hstatus
      obtain ⟨_, w2, hup, hw2⟩ := Routine.ok_of_wp
        (wp_semaUp_sleep (E := fun _ => False) hw1waiters hw1status)
      have h2 : Scheduled w2 := ((Threads.wp_semaUp h1 _).of_ok hup).scheduled
      have hvalue2 : w2.value (.sleep t) = 1 := by
        rw [hw2, ← hw1]
        show Function.update _ _ _ _ = _
        rw [Function.update_self]
        show (w.value (.sleep t) + 1) % 2 ^ 32 = 1
        simp [hvalue]
      have hvalueOther : ∀ x, x ≠ t → w2.value (.sleep x) = w.value (.sleep x) := by
        intro x hx
        rw [hw2, ← hw1]
        exact Function.update_of_ne (fun heq => hx (Semaphore.sleep.inj heq)) _ _
      have hwaiters2 : w2.waiters (.sleep t) = [] := by
        rw [hw2, ← hw1]
        exact Function.update_self ..
      have hwaitersOther : ∀ x, x ≠ t → w2.waiters (.sleep x) = w.waiters (.sleep x) := by
        intro x hx
        rw [hw2, ← hw1]
        exact Function.update_of_ne (fun heq => hx (Semaphore.sleep.inj heq)) _ _
      have hstatus2 : ∀ x, w2.status x = if x = t then some .ready else w.status x := by
        intro x
        rw [hw2, ← hw1]
        exact Function.update_apply ..
      have hne : ∀ e ∈ l, e.2 ≠ t := fun e he heq =>
        hnot (List.mem_map.mpr ⟨e, he, heq⟩)
      refine Routine.wp_of_ok hup ((ih h2 (by rw [hw2, ← hw1]; rfl) hnodup
        (List.pairwise_cons.mp hsorted).2 fun e he => ?_).mono fun _ w' hw' => ?_)
      · rw [hwaitersOther _ (hne e he), hvalueOther _ (hne e he)]
        exact hasleep e (List.mem_cons_of_mem _ he)
      · have hnotDue : t ∉ due now l := fun hmem => by
          obtain ⟨e, he, heq⟩ := List.mem_map.mp hmem
          exact hne e (List.mem_filter.mp he).1 heq
        have hdueCons : due now ((u, t) :: l) = t :: due now l := mem_due_cons hdue
        refine ⟨hw'.scheduled, ?_, ?_, fun x => ?_, fun x => ?_, fun x => ?_, ?_⟩
        · rw [hw'.sleepingList, List.filter_cons_of_neg (by simpa using hdue)]
        · rw [hw'.readyList, hdueCons, hw2, ← hw1]
          exact List.append_assoc ..
        · rw [hw'.status, hstatus2, hdueCons]
          by_cases hx : x = t
          · simp [hx]
          · simp [hx]
        · rw [hw'.value, hdueCons]
          by_cases hx : x = t
          · simp [hx, hnotDue, hvalue2]
          · simp [hx, hvalueOther x hx]
        · rw [hw'.waiters, hdueCons]
          by_cases hx : x = t
          · simp [hx, hnotDue, hwaiters2]
          · simp [hx, hwaitersOther x hx]
        · rw [hw'.pending, hw2, ← hw1]
          rfl
    · -- the first is not due, and no later one is
      have hlate : ∀ e ∈ (u, t) :: l, ¬ e.1 < now := by
        intro e he
        rcases List.mem_cons.mp he with rfl | he
        · exact hdue
        · have := (List.pairwise_cons.mp hsorted).1 e he
          omega
      have hnone : due now ((u, t) :: l) = [] := by
        rw [due, List.filter_eq_nil_iff.mpr fun e he => by simpa using hlate e he, List.map_nil]
      refine ⟨h, ?_, ?_, ?_, ?_, ?_, rfl⟩
      · rw [hlist, List.filter_eq_self.mpr fun e he => by simpa using hlate e he]
      · rw [hnone, List.append_nil]
      all_goals
        intro x
        rw [hnone, if_neg List.not_mem_nil]

theorem le_of_before (hsorted : l.Pairwise (Before history)) :
    l.Pairwise fun e e' => e.1 ≤ e'.1 :=
  hsorted.imp fun hbefore => hbefore.elim Int.le_of_lt fun hand => Int.le_of_eq hand.1

namespace Sound

theorem waits (h : Sound s) {e : Int × Nat} (he : e ∈ s.threads.sleepingList) :
    s.threads.waiters (.sleep e.2) = [e.2] ∧ s.threads.value (.sleep e.2) = 0 := by
  obtain ⟨stage, -, hholds⟩ := h.stage e.2
  cases stage with
  | out | called => exact absurd he (hholds.1 e.1)
  | asleep n now inserted => exact ⟨hholds.2.1, hholds.2.2.2.1⟩

/-- The loop of `thread_tick` wakes those that are due. -/
theorem wakes (h : Sound s) (now : Int) :
    ∃ w, Threads.wakeSleeping now s.threads.sleepingList s.threads = .ok ((), w) ∧
      Awake now s.threads.sleepingList s.threads w := by
  have hloop : wp (Threads.wakeSleeping now s.threads.sleepingList)
      (fun _ w => Awake now s.threads.sleepingList s.threads w) (fun _ => False) s.threads :=
    wp_wakeSleeping_due h.scheduled rfl h.once (le_of_before h.sorted) fun e he => h.waits he
  obtain ⟨_, w, hrun, hawake⟩ := Routine.ok_of_wp hloop
  exact ⟨w, hrun, hawake⟩

/-- A tick returns, and after the loop there is at most a switch. -/
theorem threadTick_ok (h : Sound s) (lockOf : Nat → Nat) (now : Int) :
    ∃ w1 w, Threads.exec lockOf (.tick now) s.threads = .ok ((), w) ∧
      Awake now s.threads.sleepingList s.threads w1 ∧ Switched w1 w ∧
      w.sleepingList = w1.sleepingList := by
  obtain ⟨w1, hloop, hawake⟩ := h.wakes now
  have h2 : Scheduled { w1 with threadTicks := w1.threadTicks + 1 } :=
    hawake.scheduled.congr ⟨rfl, rfl, rfl, rfl, rfl, rfl, rfl, rfl⟩
  have hdata : SameData w1 { w1 with threadTicks := w1.threadTicks + 1 } :=
    ⟨rfl, rfl, rfl, rfl, rfl, rfl, rfl⟩
  rw [Threads.exec, Threads.threadTick, Routine.get_bind_apply, Routine.bind_of_ok hloop,
    Routine.modify_bind_apply, Routine.get_bind_apply]
  split_ifs
  · obtain ⟨_, w, hyield, hswitched⟩ := Routine.ok_of_wp (Threads.wp_threadYield h2)
    exact ⟨w1, w, hyield, hawake, hswitched.of_same hdata,
      (keepsList_threadYield { w1 with threadTicks := w1.threadTicks + 1 }).of_ok hyield⟩
  · exact ⟨w1, _, rfl, hawake, ⟨h2, hdata⟩, rfl⟩

end Sound

/-- The clock has gone on by one tick. -/
def State.ticked (s : State) : State := { s with ticks := s.ticks + 1 }

theorem timerInterrupt_ok {lockOf : Nat → Nat} {s' : State} :
    exec lockOf .timerInterrupt s = .ok ((), s') ↔
      ∃ w, Threads.exec lockOf (.tick (s.ticks + 1)) s.threads = .ok ((), w) ∧
        s' = s.ticked.after w := by
  rw [exec, Routine.modify_bind_apply, Routine.get_bind_apply]
  exact onThreads_ok

theorem mem_due : t ∈ due now l ↔ ∃ u, (u, t) ∈ l ∧ u < now := by
  simp [due]

theorem Sound.ticked (h : Sound s) {w1 : Threads.State}
    (hawake : Awake (s.ticks + 1) s.threads.sleepingList s.threads w1) (hswitched : Switched w1 w)
    (hlist : w.sleepingList = w1.sleepingList) :
    Sound (s.ticked.after w) ∧ ∀ t, Asleep s.threads t ∧ ¬ Asleep w t ↔
      t ∈ due (s.ticks + 1) s.threads.sleepingList := by
  obtain ⟨hscheduled, hdata⟩ := hswitched
  rw [hawake.sleepingList] at hlist
  have hdue : ∀ t, t ∈ due (s.ticks + 1) s.threads.sleepingList →
      w.waiters (.sleep t) = [] ∧ w.value (.sleep t) = 1 := by
    intro t ht
    rw [hdata.waiters, hdata.value, hawake.waiters, hawake.value, if_pos ht, if_pos ht]
    exact ⟨rfl, rfl⟩
  have hsame : ∀ t, t ∉ due (s.ticks + 1) s.threads.sleepingList → SameFor t s.threads w := by
    intro t ht
    refine ⟨fun u => ?_, ?_, ?_, .inl ?_⟩
    · rw [hlist, List.mem_filter]
      refine and_iff_left_of_imp fun hu => ?_
      exact decide_eq_true fun hlt => ht (mem_due.mpr ⟨u, hu, hlt⟩)
    · rw [hdata.value, hawake.value, if_neg ht]
    · rw [hdata.waiters, hawake.waiters, if_neg ht]
    · rw [hdata.pending, hawake.pending]
  have hasleep : ∀ t, t ∈ due (s.ticks + 1) s.threads.sleepingList → Asleep s.threads t := by
    intro t ht
    obtain ⟨u, hu, -⟩ := mem_due.mp ht
    exact (h.asleep_iff t).mpr (mem_listed.mpr ⟨u, hu⟩)
  have hready : ∀ t, t ∈ due (s.ticks + 1) s.threads.sleepingList → ¬ Asleep w t := by
    intro t ht
    rw [asleep_iff_waits hscheduled, (hdue t ht).1]
    exact List.not_mem_nil
  refine ⟨⟨hscheduled, ?_, ?_, fun t => ?_⟩, fun t => ⟨fun hand => ?_, fun ht =>
    ⟨hasleep t ht, hready t ht⟩⟩⟩
  · show w.sleepingList.Pairwise (Before (changes s.threads w _ ++ s.history))
    rw [hlist]
    refine sorted_append (h.sorted.sublist List.filter_sublist) fun e he r hr now heq => ?_
    -- who is on the list was asleep before
    obtain ⟨u, -, hu⟩ := List.mem_flatMap.mp hr
    obtain rfl : e.2 = u := by
      rw [← change_thread hu, heq]
      rfl
    have hbefore : Asleep s.threads e.2 :=
      (h.asleep_iff e.2).mpr (List.mem_map_of_mem (List.mem_filter.mp he).1)
    rw [change, if_neg fun hand => hand.1 hbefore] at hu
    split_ifs at hu
    · cases heq
      nomatch List.mem_singleton.mp hu
    · nomatch hu
  · show (w.sleepingList.map Prod.snd).Nodup
    rw [hlist]
    exact h.once.sublist (List.filter_sublist.map Prod.snd)
  · obtain ⟨stage, hsleeps, hholds⟩ := h.stage t
    by_cases ht : t ∈ due (s.ticks + 1) s.threads.sleepingList
    · obtain ⟨u, hu, hlt⟩ := mem_due.mp ht
      cases stage with
      | out | called => exact absurd hu (hholds.1 u)
      | asleep n now inserted =>
        obtain ⟨hlisted, -, hpending, -, hticks, hinserted⟩ := hholds
        obtain ⟨rfl, -⟩ := Prod.mk.inj (List.inj_on_of_nodup_map h.once hu hlisted rfl)
        have hchange : change s.threads w (s.ticks + 1) t = [.ready t (s.ticks + 1)] := by
          rw [change, if_neg fun hand => hand.1 (hasleep t ht), if_pos ⟨hasleep t ht, hready t ht⟩]
        have hmem : t ∈ s.threads.allList :=
          h.scheduled.waiting_mem ((asleep_iff_waits h.scheduled).mp (hasleep t ht))
        have htime : s.ticks + 1 = max (now + n) inserted + 1 := by omega
        refine ⟨.out, ?_, fun v => ?_, (hdue t ht).1, .inr ⟨?_, (hdue t ht).2⟩⟩
        · rw [historyOf_after (s := s.ticked) h.scheduled (.inl hmem)]
          show Sleeps t (change s.threads w (s.ticks + 1) t ++ s.historyOf t) _
          rw [hchange, htime]
          exact .ready hsleeps
        · show (v, t) ∉ w.sleepingList
          rw [hlist, List.mem_filter]
          rintro ⟨hv, hlate⟩
          obtain ⟨rfl, -⟩ := Prod.mk.inj (List.inj_on_of_nodup_map h.once hv hlisted rfl)
          exact of_decide_eq_true hlate hlt
        · show w.pending t = _
          rw [hdata.pending, hawake.pending]
          exact hpending
    · have hnone : change s.threads w (s.ticks + 1) t = [] :=
        (hsame t ht).change h.scheduled hscheduled
      refine ⟨stage, ?_, ?_⟩
      · rw [historyOf_after (s := s.ticked) h.scheduled (.inr hnone)]
        show Sleeps t (change s.threads w (s.ticks + 1) t ++ s.historyOf t) _
        rw [hnone]
        exact hsleeps
      · have hat := hholds.congr (hsame t ht)
        cases stage with
        | out | called => exact hat
        | asleep n now inserted =>
          obtain ⟨hlisted, hwaiters, hpending, hvalue, hticks, hinserted⟩ := hat
          have hlate : ¬ now + n < s.ticks + 1 := fun hlt =>
            ht (mem_due.mpr ⟨_, hholds.1, hlt⟩)
          refine ⟨hlisted, hwaiters, hpending, hvalue, ?_, ?_⟩
          · show s.ticks + 1 ≤ _
            omega
          · show inserted ≤ s.ticks + 1
            omega
  · by_contra ht
    refine hand.2 ?_
    rw [asleep_iff_waits hscheduled, (hsame t ht).waiters, ← asleep_iff_waits h.scheduled]
    exact hand.1

theorem Sound.step {lockOf : Nat → Nat} {a : Action} {s' : State} (h : Sound s)
    (hproper : Proper a s) (hrun : exec lockOf a s = .ok ((), s')) : Sound s' := by
  cases a with
  | timerSleep n =>
    rw [exec, Routine.get_bind_apply] at hrun
    split_ifs at hrun with hcall
    · obtain ⟨hlow, hhigh⟩ := hproper hcall.2
      rw [Routine.set_bind_apply, onThreads_ok, sleepUntil_of_fits hlow hhigh] at hrun
      obtain ⟨w, hw, rfl⟩ := hrun
      rw [Threads.exec] at hw
      cases hw
      dsimp only
      rw [if_pos hcall.1]
      exact h.reads hcall.1
    · cases hrun
      exact h
  | timerInterrupt =>
    obtain ⟨w, hw, rfl⟩ := timerInterrupt_ok.mp hrun
    obtain ⟨w1, w', hw', hawake, hswitched, hlist⟩ := h.threadTick_ok lockOf (s.ticks + 1)
    cases hw.symm.trans hw'
    exact (h.ticked hawake hswitched hlist).1
  | other a =>
    obtain ⟨w, hw, rfl⟩ := onThreads_ok.mp hrun
    exact h.other hproper hw

theorem Sound.tickWakes (h : Sound s) (lockOf : Nat → Nat) : TickWakes lockOf s := by
  obtain ⟨w0, hloop, hwoken⟩ := h.wakes (s.ticks + 1)
  obtain ⟨w1, w, hw, hawake, hswitched, hlist⟩ := h.threadTick_ok lockOf (s.ticks + 1)
  refine ⟨⟨w0, hloop, hwoken.sleepingList, hwoken.readyList, fun t ht => ?_, fun t ht => ?_⟩,
    s.ticked.after w, timerInterrupt_ok.mpr ⟨w, hw, rfl⟩, hlist.trans hawake.sleepingList,
    (h.ticked hawake hswitched hlist).2⟩
  · rw [hwoken.status, if_pos ht]
  · rw [hwoken.status, if_neg ht]

theorem sound_started {main idle : Nat} (hne : main ≠ idle) {idleStatus : Threads.ThreadStatus}
    (hidle : Threads.IdleStatus idleStatus) (values : Nat → UInt32) (clock : Int) :
    Sound (started main idle idleStatus values clock) where
  scheduled := Threads.scheduled_started hne hidle values
  sorted := .nil
  once := .nil
  stage t := by
    refine ⟨.out, .start, fun u => List.not_mem_nil, rfl, .inl ?_⟩
    show Plain (if t = idle then [.idle] else [])
    split_ifs
    · intro i hi
      rw [List.mem_singleton.mp hi]
      exact id
    · nofun

/-- A thread is created or executes an instruction other than `thread_unblock`; that is enough for
`Proper`. -/
def properCheck : Action → State → Bool
  | .timerSleep ticks, s => -2 ^ 63 ≤ s.ticks + ticks ∧ s.ticks + ticks < 2 ^ 63
  | .timerInterrupt, _ => true
  | .other .run, s =>
    match (s.threads.pending s.threads.current).head? with
    | some (.unblock _) => false
    | _ => true
  | .other (.call (.threadCreate _)), _ => true
  | .other _, _ => false

theorem proper_of_check {a : Action} (h : properCheck a s = true) : Proper a s := by
  unfold properCheck at h
  split at h
  · exact fun _ => of_decide_eq_true h
  · trivial
  · refine ⟨nofun, nofun, fun t ht => ?_⟩
    rw [ht] at h
    nomatch h
  · exact ⟨nofun, nofun, trivial⟩
  · nomatch h

end Timer

/-- Whatever threads call `timer_sleep` and whenever there are ticks and other threads are
scheduled, `sleeping_list` has the threads that are asleep, by the time at which they are to wake up
and then in the order in which they fell asleep; each tick wakes, in this order, those that are due;
and every thread that sleeps is made ready once, at the first tick that it may be. -/
theorem sleepers_wake (lockOf : Nat → Nat) (main idle : Nat) (hne : main ≠ idle)
    (idleStatus : Threads.ThreadStatus) (hidle : Threads.IdleStatus idleStatus)
    (values : Nat → UInt32) (clock : Int) (actions : List Timer.Action)
    (hproper : ∀ a s, Routine.Takes (Timer.exec lockOf) actions
      (Timer.started main idle idleStatus values clock) a s → Timer.Proper a s)
    (s : Timer.State) (hvisits : Routine.Visits (Timer.exec lockOf) actions
      (Timer.started main idle idleStatus values clock) s) :
    Timer.Sleepers s ∧ Timer.TickWakes lockOf s := by
  have hsound : Timer.Sound s :=
    Routine.Visits.invariant (fun _ _ _ _ h hmay hrun => h.step hmay hrun) hproper
      (Timer.sound_started hne hidle values clock) hvisits
  exact ⟨hsound.sleepers, hsound.tickWakes lockOf⟩

/-- The thread in page 2 starts one in page 3 and sleeps for two ticks; the other one, which runs
when the clock has gone on by one, sleeps for one tick. -/
def twoSleepers : List Timer.Action :=
  .other (.call (.threadCreate 3)) :: List.replicate 9 (.other .run) ++
    [.timerSleep 2, .other .run, .timerInterrupt, .timerSleep 1, .other .run]

/-- Both are to wake up at the same time, and did fall asleep in this order. -/
theorem sleepers_wake_twoSleepers : ∃ s, Routine.Visits (Timer.exec id) twoSleepers
    (Timer.started 2 1 .blocked (fun _ => 0) 7) s ∧ s.threads.sleepingList = [(9, 2), (9, 3)] ∧
      Timer.Sleepers s ∧ Timer.TickWakes id s := by
  have hend : (match Routine.execAll (Timer.exec id) twoSleepers
      (Timer.started 2 1 .blocked (fun _ => 0) 7) with
    | .ok (_, s) => decide (s.threads.sleepingList = [(9, 2), (9, 3)])
    | .error _ => false) = true := by
    decide +kernel
  have hcheck : Routine.checkAll (Timer.exec id) Timer.properCheck twoSleepers
      (Timer.started 2 1 .blocked (fun _ => 0) 7) = true := by
    decide +kernel
  rcases hrun : Routine.execAll (Timer.exec id) twoSleepers
      (Timer.started 2 1 .blocked (fun _ => 0) 7) with f | ⟨as, s⟩
  · rw [hrun] at hend
    nomatch hend
  · rw [hrun] at hend
    have hvisits : Routine.Visits (Timer.exec id) twoSleepers
        (Timer.started 2 1 .blocked (fun _ => 0) 7) s :=
      ⟨_, [], as, (List.append_nil _).symm, hrun⟩
    exact ⟨s, hvisits, of_decide_eq_true hend, sleepers_wake id 2 1 (by decide) .blocked
      (.inl rfl) _ 7 twoSleepers
      (fun a s htakes => Timer.proper_of_check (Routine.of_checkAll hcheck htakes)) s hvisits⟩

end Pintos
