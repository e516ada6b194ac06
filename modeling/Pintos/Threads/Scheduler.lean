import Pintos.Threads.Kernel
import Mathlib.Data.List.Nodup
import Mathlib.Logic.Relation

/-! The lists of the scheduler and the statuses of threads.  Whatever is called and whenever there is
an interrupt, they match as long as `thread_unblock` is only called for threads that have blocked
themselves. -/

namespace Pintos

namespace Threads

open Routine (wp)

/-- A semaphore on a thread's stack is waited for by that thread. -/
def Instr.OwnedBy (t : Nat) : Instr → Prop
  | .down (.sleep u) | .recheck (.sleep u) | .down (.waiter u) | .recheck (.waiter u) => u = t
  | _ => True

/-- The lists match the statuses, apart from which thread is running.  A waiting thread is inside
`sema_down`; a thread that is being created is blocked and in no list but `all_list`, and only its
creator will unblock it. -/
structure Queues (w : State) : Prop where
  ready : ∀ t, t ∈ w.readyList ↔ t ≠ w.idleThread ∧ w.status t = some .ready
  readyNodup : w.readyList.Nodup
  waiting : ∀ s t, t ∈ w.waiters s →
    w.status t = some .blocked ∧ (w.pending t).head? = some (.recheck s)
  waitersNodup : ∀ s, (w.waiters s).Nodup
  blocked : ∀ s t, w.status t = some .blocked → (w.pending t).head? = some (.recheck s) →
    t ∈ w.waiters s
  own : ∀ t, ∀ i ∈ w.pending t, i.OwnedBy t
  all : ∀ t, t ∈ w.allList ↔ ∃ status, w.status t = some status ∧ status ≠ .dying
  allNodup : w.allList.Nodup
  idle : w.pending w.idleThread = [.idle]
  idleLive : w.idleThread ∈ w.allList
  new : ∀ t u, .unblockNew u ∈ w.pending t → w.status u = some .blocked ∧ w.pending u = []
  newOnce : ∀ t t' u, .unblockNew u ∈ w.pending t → .unblockNew u ∈ w.pending t' → t = t'
  newCount : ∀ t u, (w.pending t).count (.unblockNew u) ≤ 1
  gone : ∀ t, t ∉ w.allList → w.pending t = []

/-- The current thread is running, and no other. -/
structure Scheduled (w : State) : Prop extends Queues w where
  running : ∀ t, w.status t = some .running ↔ t = w.current
  dying : ∀ t, w.status t = some .dying → t = w.initialThread

/-- No thread is running, just before `schedule`. -/
structure Descheduled (w : State) : Prop extends Queues w where
  running : ∀ t, w.status t ≠ some .running
  dying : ∀ t, w.status t = some .dying → t = w.current ∨ t = w.initialThread

variable {w w' : State} {s : Semaphore} {t : Nat} {i : Instr} {rest new : List Instr}
  {E : Fault → Prop}

/-- The same threads are in the same lists, with the same instructions to execute. -/
structure SameThreads (w w' : State) : Prop where
  status : w'.status = w.status
  readyList : w'.readyList = w.readyList
  waiters : w'.waiters = w.waiters
  allList : w'.allList = w.allList
  idleThread : w'.idleThread = w.idleThread
  initialThread : w'.initialThread = w.initialThread
  current : w'.current = w.current
  pending : w'.pending = w.pending

theorem Scheduled.congr (h : Scheduled w) (hsame : SameThreads w w') : Scheduled w' := by
  obtain ⟨hstatus, hready, hwaiters, hall, hidle, hinitial, hcurrent, hpending⟩ := hsame
  constructor
  · constructor
    · rw [hready, hidle, hstatus]
      exact h.ready
    · rw [hready]
      exact h.readyNodup
    · rw [hwaiters, hstatus, hpending]
      exact h.waiting
    · rw [hwaiters]
      exact h.waitersNodup
    · rw [hwaiters, hstatus, hpending]
      exact h.blocked
    · rw [hpending]
      exact h.own
    · rw [hall, hstatus]
      exact h.all
    · rw [hall]
      exact h.allNodup
    · rw [hpending, hidle]
      exact h.idle
    · rw [hidle, hall]
      exact h.idleLive
    · rw [hpending, hstatus]
      exact h.new
    · rw [hpending]
      exact h.newOnce
    · rw [hpending]
      exact h.newCount
    · rw [hall, hpending]
      exact h.gone
  · rw [hstatus, hcurrent]
    exact h.running
  · rw [hstatus, hinitial]
    exact h.dying

namespace Scheduled

theorem current_running (h : Scheduled w) : w.status w.current = some .running :=
  (h.running _).mpr rfl

theorem current_mem (h : Scheduled w) : w.current ∈ w.allList :=
  (h.all _).mpr ⟨.running, h.current_running, nofun⟩

theorem current_not_waiting (h : Scheduled w) : w.current ∉ w.waiters s := fun hmem => by
  have := (h.waiting s _ hmem).1
  rw [h.current_running] at this
  nomatch this

theorem not_idle (h : Scheduled w) (hnext : w.pending w.current = i :: rest) (hi : i ≠ .idle) :
    w.current ≠ w.idleThread := fun heq => by
  have := h.idle
  rw [← heq, hnext, List.cons.injEq] at this
  exact hi this.1

/-- The current thread has other instructions to execute. -/
theorem setPending (h : Scheduled w) (hidle : w.current ≠ w.idleThread) (is : List Instr)
    (hown : ∀ i ∈ is, i.OwnedBy w.current)
    (hnew : ∀ u, .unblockNew u ∈ is → .unblockNew u ∈ w.pending w.current ∨
      w.status u = some .blocked ∧ w.pending u = [] ∧ ∀ t, .unblockNew u ∉ w.pending t)
    (hcount : ∀ u, is.count (.unblockNew u) ≤ 1) : Scheduled (w.setPending w.current is) := by
  have hself : (w.setPending w.current is).pending w.current = is := Function.update_self ..
  have hother : ∀ t, t ≠ w.current → (w.setPending w.current is).pending t = w.pending t :=
    fun t ht => Function.update_of_ne ht ..
  have hblocked : ∀ t, w.status t = some .blocked → t ≠ w.current := by
    rintro t ht rfl
    rw [h.current_running] at ht
    nomatch ht
  -- whoever is unblocked by its creator was so before, or is new
  have hmem : ∀ t u, .unblockNew u ∈ (w.setPending w.current is).pending t →
      .unblockNew u ∈ w.pending t ∨ t = w.current ∧ w.status u = some .blocked ∧
        w.pending u = [] ∧ ∀ t, .unblockNew u ∉ w.pending t := by
    intro t u hu
    by_cases ht : t = w.current
    · subst ht
      rw [hself] at hu
      exact (hnew u hu).imp_right fun hand => ⟨rfl, hand⟩
    · rw [hother t ht] at hu
      exact .inl hu
  refine ⟨⟨h.ready, h.readyNodup, fun s t ht => ?_, h.waitersNodup, fun s t hst hhead => ?_,
    fun t i hi => ?_, h.all, h.allNodup, ?_, h.idleLive, fun t u hu => ?_, fun t t' u hu hu' => ?_,
    fun t u => ?_, fun t ht => ?_⟩, h.running, h.dying⟩
  · obtain ⟨hst, hhead⟩ := h.waiting s t ht
    rw [hother t (hblocked t hst)]
    exact ⟨hst, hhead⟩
  · rw [hother t (hblocked t hst)] at hhead
    exact h.blocked s t hst hhead
  · by_cases ht : t = w.current
    · subst ht
      rw [hself] at hi
      exact hown i hi
    · rw [hother t ht] at hi
      exact h.own t i hi
  · show (w.setPending w.current is).pending w.idleThread = _
    rw [hother _ hidle.symm]
    exact h.idle
  · have hold : w.status u = some .blocked ∧ w.pending u = [] := by
      rcases hmem t u hu with hu | ⟨-, hst, hnil, -⟩
      · exact h.new t u hu
      · exact ⟨hst, hnil⟩
    rw [hother u (hblocked u hold.1)]
    exact hold
  · rcases hmem t u hu with hu | ⟨rfl, -, -, hnone⟩
    · rcases hmem t' u hu' with hu' | ⟨-, -, -, hnone⟩
      · exact h.newOnce t t' u hu hu'
      · exact absurd hu (hnone t)
    · rcases hmem t' u hu' with hu' | ⟨rfl, -⟩
      · exact absurd hu' (hnone t')
      · rfl
  · by_cases ht : t = w.current
    · subst ht
      rw [hself]
      exact hcount u
    · rw [hother t ht]
      exact h.newCount t u
  · rw [hother]
    · exact h.gone t ht
    · rintro rfl
      exact ht h.current_mem

/-- The current thread has executed an instruction, in whose place are now `new`. -/
theorem goes (h : Scheduled w) (hnext : w.pending w.current = i :: rest) (hi : i ≠ .idle)
    (new : List Instr) (hown : ∀ j ∈ new, j.OwnedBy w.current) (hnew : ∀ u, .unblockNew u ∉ new) :
    Scheduled (w.setPending w.current (new ++ rest)) := by
  refine h.setPending (h.not_idle hnext hi) _ (fun j hj => ?_) (fun u hu => .inl ?_) fun u => ?_
  · rcases List.mem_append.mp hj with hj | hj
    · exact hown j hj
    · exact h.own _ j (hnext ▸ List.mem_cons_of_mem _ hj)
  · rcases List.mem_append.mp hu with hu | hu
    · exact absurd hu (hnew u)
    · exact hnext ▸ List.mem_cons_of_mem _ hu
  · have := h.newCount w.current u
    rw [hnext, List.count_cons] at this
    rw [List.count_append, List.count_eq_zero_of_not_mem (hnew u)]
    omega

end Scheduled

/-- Semaphores, locks, condition variables and what threads have to do are as before. -/
structure SameData (w w' : State) : Prop where
  value : w'.value = w.value
  waiters : w'.waiters = w.waiters
  holder : w'.holder = w.holder
  condWaiters : w'.condWaiters = w.condWaiters
  pending : w'.pending = w.pending
  allList : w'.allList = w.allList
  log : w'.log = w.log

theorem SameData.refl : SameData w w := ⟨rfl, rfl, rfl, rfl, rfl, rfl, rfl⟩

theorem SameData.trans {w'' : State} (h : SameData w w') (h' : SameData w' w'') :
    SameData w w'' :=
  ⟨h'.value.trans h.value, h'.waiters.trans h.waiters, h'.holder.trans h.holder,
    h'.condWaiters.trans h.condWaiters, h'.pending.trans h.pending, h'.allList.trans h.allList,
    h'.log.trans h.log⟩

/-! ### Scheduling -/

/-- A thread that is ready, or the idle thread, is switched to. -/
theorem Descheduled.resume {next : Nat} (h : Descheduled w) (hdata : SameData w w')
    (hidle : w'.idleThread = w.idleThread) (hinitial : w'.initialThread = w.initialThread)
    (hnext : w.status next = some .ready ∨ next = w.idleThread)
    (hready : ∀ t, t ∈ w'.readyList ↔ (t ≠ w.idleThread ∧ w.status t = some .ready) ∧ t ≠ next)
    (hnodup : w'.readyList.Nodup) (hcurrent : w'.current = next)
    (hstatus : w'.status next = some .running)
    (hother : ∀ t, t ≠ next → w'.status t = w.status t ∨
      w.status t = some .dying ∧ w'.status t = none)
    (hdying : ∀ t, w'.status t = some .dying → t = w.initialThread) : Scheduled w' := by
  have hlive : next ∈ w.allList := by
    rcases hnext with hst | rfl
    · exact (h.all next).mpr ⟨.ready, hst, nofun⟩
    · exact h.idleLive
  -- a blocked thread other than the idle one is not the next
  have hblocked : ∀ t, w.status t = some .blocked → w.pending t ≠ [.idle] → t ≠ next := by
    rintro t hst hpend rfl
    rcases hnext with hready | rfl
    · rw [hst] at hready
      nomatch hready
    · exact hpend h.idle
  have hkept : ∀ t, t ≠ next → ∀ st, st ≠ .dying →
      (w'.status t = some st ↔ w.status t = some st) := by
    intro t ht st hst
    rcases hother t ht with heq | ⟨hold, hnone⟩
    · rw [heq]
    · rw [hold, hnone]
      exact iff_of_false nofun fun heq => hst (Option.some.inj heq).symm
  constructor
  · refine ⟨fun t => ?_, hnodup, fun s t ht => ?_, fun s => ?_, fun s t hst hhead => ?_, fun t => ?_,
      fun t => ?_, ?_, ?_, ?_, fun t u hu => ?_, fun t t' u => ?_, fun t u => ?_, fun t ht => ?_⟩
    · rw [hready, hidle]
      by_cases ht : t = next
      · subst ht
        rw [hstatus]
        exact iff_of_false (fun hand => hand.2 rfl) fun hand => by cases hand.2
      · rw [hkept t ht .ready nofun]
        exact and_iff_left ht
    · rw [hdata.waiters] at ht
      obtain ⟨hst, hhead⟩ := h.waiting s t ht
      have ht : t ≠ next := hblocked t hst (by rintro heq; simp [heq] at hhead)
      rw [hdata.pending, hkept t ht .blocked nofun]
      exact ⟨hst, hhead⟩
    · rw [hdata.waiters]
      exact h.waitersNodup s
    · rw [hdata.pending] at hhead
      rw [hdata.waiters]
      have ht : t ≠ next := by
        rintro rfl
        rw [hstatus] at hst
        nomatch hst
      exact h.blocked s t ((hkept t ht .blocked nofun).mp hst) hhead
    · rw [hdata.pending]
      exact h.own t
    · rw [hdata.allList]
      by_cases ht : t = next
      · subst ht
        exact iff_of_true hlive ⟨.running, hstatus, nofun⟩
      · rw [h.all t]
        exact exists_congr fun st => and_congr_left fun hst => (hkept t ht st hst).symm
    · rw [hdata.allList]
      exact h.allNodup
    · rw [hdata.pending, hidle]
      exact h.idle
    · rw [hidle, hdata.allList]
      exact h.idleLive
    · rw [hdata.pending] at hu ⊢
      obtain ⟨hst, hnil⟩ := h.new t u hu
      rw [hkept u (hblocked u hst (by simp [hnil])) .blocked nofun]
      exact ⟨hst, hnil⟩
    · rw [hdata.pending]
      exact h.newOnce t t' u
    · rw [hdata.pending]
      exact h.newCount t u
    · rw [hdata.allList] at ht
      rw [hdata.pending]
      exact h.gone t ht
  · intro t
    rw [hcurrent]
    by_cases ht : t = next
    · subst ht
      exact iff_of_true hstatus rfl
    · rw [hkept t ht .running nofun]
      exact iff_of_false (h.running t) ht
  · rw [hinitial]
    exact hdying

/-- What `schedule` keeps. -/
structure Switched (w w' : State) : Prop where
  scheduled : Scheduled w'
  data : SameData w w'

theorem Switched.of_same {w'' : State} (h : Switched w' w'') (hdata : SameData w w') :
    Switched w w'' := ⟨h.scheduled, hdata.trans h.data⟩

theorem wp_schedule (h : Descheduled w) : wp schedule (fun _ w' => Switched w w') E w := by
  have hcurrent : w.status w.current ≠ some .running := h.running _
  -- the next thread, with the ready list that it leaves
  obtain ⟨next, readyList, heq, hnext, hready, hnodup⟩ : ∃ next readyList,
      w.nextThreadToRun = (next, readyList) ∧
      (w.status next = some .ready ∨ next = w.idleThread) ∧
      (∀ t, t ∈ readyList ↔ (t ≠ w.idleThread ∧ w.status t = some .ready) ∧ t ≠ next) ∧
      readyList.Nodup := by
    have hlist := h.ready
    have hdup := h.readyNodup
    unfold State.nextThreadToRun
    rcases hl : w.readyList with _ | ⟨t, ts⟩
    · rw [hl] at hlist
      refine ⟨_, _, rfl, .inr rfl, fun t => ?_, List.nodup_nil⟩
      rw [← hlist t]
      exact iff_of_false List.not_mem_nil fun hand => List.not_mem_nil hand.1
    · rw [hl] at hlist
      rw [hl, List.nodup_cons] at hdup
      refine ⟨t, ts, rfl, .inl ((hlist t).mp List.mem_cons_self).2, fun u => ?_, hdup.2⟩
      rw [← hlist u, List.mem_cons]
      constructor
      · intro hu
        refine ⟨.inr hu, ?_⟩
        rintro rfl
        exact hdup.1 hu
      · rintro ⟨rfl | hu, hne⟩
        · exact absurd rfl hne
        · exact hu
  have hlive : w.status next ≠ none := by
    rcases hnext with hst | rfl
    · rw [hst]
      nofun
    · obtain ⟨st, hst, -⟩ := (h.all _).mp h.idleLive
      rw [hst]
      nofun
  rw [schedule, Routine.wp_bind, Routine.wp_get, heq]
  dsimp only
  rw [if_neg hcurrent, if_neg hlive, Routine.wp_set, State.switchTo]
  dsimp only [State.setStatus]
  by_cases hfree : w.current ≠ next ∧ w.status w.current = some .dying ∧
      w.current ≠ w.initialThread
  · rw [if_pos hfree]
    obtain ⟨hne, hdying, -⟩ := hfree
    have hpending : w.pending w.current = [] := h.gone _ fun hmem => by
      obtain ⟨st, hst, hnot⟩ := (h.all _).mp hmem
      rw [hdying] at hst
      exact hnot (Option.some.inj hst).symm
    have hdata : SameData w (State.freePage { w with
        status := Function.update w.status next (some .running)
        readyList := readyList
        current := next
        threadTicks := 0 } w.current) := by
      refine ⟨rfl, rfl, rfl, rfl, ?_, rfl, rfl⟩
      show Function.update w.pending w.current [] = w.pending
      rw [← hpending, Function.update_eq_self]
    refine ⟨h.resume hdata rfl rfl hnext hready hnodup rfl ?_ (fun t ht => ?_) fun t ht => ?_, hdata⟩
    · exact (Function.update_of_ne hne.symm ..).trans (Function.update_self ..)
    · by_cases hcur : t = w.current
      · subst hcur
        exact .inr ⟨hdying, Function.update_self ..⟩
      · exact .inl ((Function.update_of_ne hcur ..).trans (Function.update_of_ne ht ..))
    · by_cases hcur : t = w.current
      · subst hcur
        replace ht : Function.update (Function.update w.status next (some .running)) w.current none
          w.current = some .dying := ht
        rw [Function.update_self] at ht
        nomatch ht
      · replace ht : Function.update (Function.update w.status next (some .running)) w.current none
          t = some .dying := ht
        rw [Function.update_of_ne hcur, Function.update_apply] at ht
        split_ifs at ht
        · nomatch ht
        · exact (h.dying t ht).resolve_left hcur
  · rw [if_neg hfree]
    have hdata : SameData w { w with
        status := Function.update w.status next (some .running)
        readyList := readyList
        current := next
        threadTicks := 0 } := ⟨rfl, rfl, rfl, rfl, rfl, rfl, rfl⟩
    refine ⟨h.resume hdata rfl rfl hnext hready hnodup rfl (Function.update_self ..)
      (fun t ht => .inl (Function.update_of_ne ht ..)) fun t ht => ?_, hdata⟩
    replace ht : Function.update w.status next (some .running) t = some .dying := ht
    rw [Function.update_apply] at ht
    split_ifs at ht with hne
    · nomatch ht
    · rcases h.dying t ht with rfl | heq
      · by_contra hinit
        exact hfree ⟨hne, ht, hinit⟩
      · exact heq

namespace Scheduled

/-- A status that a thread other than the current one has, it had before. -/
theorem status_of_ne (h : Scheduled w) {st : ThreadStatus} (ht : w.status t = some st)
    (hst : st ≠ .running) : t ≠ w.current := by
  rintro rfl
  rw [h.current_running] at ht
  exact hst (Option.some.inj ht).symm

/-- The current thread gives up the processor with another status, and the lists follow it. -/
theorem deschedule (h : Scheduled w) (st : ThreadStatus) (hst : st ≠ .running)
    {readyList allList : List Nat} {waiters : Semaphore → List Nat}
    (hready : ∀ t, t ∈ readyList ↔
      t ∈ w.readyList ∨ t = w.current ∧ st = .ready ∧ t ≠ w.idleThread)
    (hreadyNodup : readyList.Nodup)
    (hwaiters : ∀ s t, t ∈ waiters s ↔ t ∈ w.waiters s ∨
      t = w.current ∧ st = .blocked ∧ (w.pending t).head? = some (.recheck s))
    (hwaitersNodup : ∀ s, (waiters s).Nodup)
    (hall : ∀ t, t ∈ allList ↔ t ∈ w.allList ∧ (t = w.current → st ≠ .dying))
    (hallNodup : allList.Nodup)
    (hdying : st = .dying → w.current ≠ w.idleThread ∧ w.pending w.current = []) :
    Descheduled { w.setStatus w.current st with
      readyList := readyList, waiters := waiters, allList := allList } := by
  have hself : Function.update w.status w.current (some st) w.current = some st :=
    Function.update_self ..
  have hother : ∀ t, t ≠ w.current →
      Function.update w.status w.current (some st) t = w.status t :=
    fun t ht => Function.update_of_ne ht ..
  have hnot : w.current ∉ w.readyList := fun hmem => by
    have := ((h.ready _).mp hmem).2
    rw [h.current_running] at this
    nomatch this
  refine ⟨⟨fun t => ?_, hreadyNodup, fun s t ht => ?_, hwaitersNodup, fun s t ht hhead => ?_, h.own,
    fun t => ?_, hallNodup, h.idle, ?_, fun t u hu => ?_, h.newOnce, h.newCount,
    fun t ht => ?_⟩, fun t ht => ?_, fun t ht => ?_⟩
  · show t ∈ readyList ↔
      t ≠ w.idleThread ∧ Function.update w.status w.current (some st) t = some .ready
    rw [hready]
    by_cases ht : t = w.current
    · subst ht
      rw [hself, or_iff_right hnot, and_iff_right rfl, Option.some.injEq]
      exact and_comm
    · rw [hother t ht, ← h.ready]
      exact or_iff_left fun hand => ht hand.1
  · rcases (hwaiters s t).mp ht with ht | ⟨rfl, rfl, hhead⟩
    · obtain ⟨hblocked, hhead⟩ := h.waiting s t ht
      exact ⟨(hother t (h.status_of_ne hblocked nofun)).trans hblocked, hhead⟩
    · exact ⟨hself, hhead⟩
  · refine (hwaiters s t).mpr ?_
    replace ht : Function.update w.status w.current (some st) t = some .blocked := ht
    by_cases hcur : t = w.current
    · subst hcur
      rw [hself] at ht
      exact .inr ⟨rfl, Option.some.inj ht, hhead⟩
    · rw [hother t hcur] at ht
      exact .inl (h.blocked s t ht hhead)
  · show t ∈ allList ↔
      ∃ st', Function.update w.status w.current (some st) t = some st' ∧ st' ≠ .dying
    rw [hall]
    by_cases ht : t = w.current
    · subst ht
      rw [hself, and_iff_right h.current_mem, imp_iff_right rfl]
      simp
    · rw [hother t ht, ← h.all t]
      exact and_iff_left fun heq => absurd heq ht
  · exact (hall _).mpr ⟨h.idleLive, fun heq hst => (hdying hst).1 heq.symm⟩
  · obtain ⟨hblocked, hnil⟩ := h.new t u hu
    exact ⟨(hother u (h.status_of_ne hblocked nofun)).trans hblocked, hnil⟩
  · by_cases hcur : t = w.current
    · subst hcur
      by_cases hst' : st = .dying
      · exact (hdying hst').2
      · exact absurd ((hall _).mpr ⟨h.current_mem, fun _ => hst'⟩) ht
    · exact h.gone t fun hmem => ht ((hall t).mpr ⟨hmem, fun heq => absurd heq hcur⟩)
  · replace ht : Function.update w.status w.current (some st) t = some .running := ht
    by_cases hcur : t = w.current
    · subst hcur
      rw [hself] at ht
      exact hst (Option.some.inj ht)
    · rw [hother t hcur, h.running] at ht
      exact hcur ht
  · replace ht : Function.update w.status w.current (some st) t = some .dying := ht
    by_cases hcur : t = w.current
    · exact .inl hcur
    · rw [hother t hcur] at ht
      exact .inr (h.dying t ht)

/-- `sema_down` puts the current thread on the waiters list. -/
theorem waits (h : Scheduled w) (hhead : (w.pending w.current).head? = some (.recheck s)) :
    Descheduled ((w.setWaiters s (w.waiters s ++ [w.current])).setStatus w.current .blocked) := by
  refine h.deschedule .blocked nofun (fun t => (or_iff_left nofun).symm) h.readyNodup (fun s' t => ?_) (fun s' => ?_)
    (fun t => (and_iff_left fun _ => nofun).symm) h.allNodup nofun
  · by_cases hs : s' = s
    · subst hs
      rw [State.setWaiters_waiters, Function.update_self, List.mem_append, List.mem_singleton]
      refine or_congr_right ⟨fun ht => ⟨ht, rfl, ht ▸ hhead⟩, And.left⟩
    · rw [State.setWaiters_waiters, Function.update_of_ne hs]
      refine (or_iff_left ?_).symm
      rintro ⟨rfl, -, hhead'⟩
      rw [hhead] at hhead'
      cases hhead'
      exact hs rfl
  · by_cases hs : s' = s
    · subst hs
      rw [State.setWaiters_waiters, Function.update_self]
      exact (h.waitersNodup s').append (List.nodup_singleton _)
        (by simpa using h.current_not_waiting)
    · rw [State.setWaiters_waiters, Function.update_of_ne hs]
      exact h.waitersNodup s'

/-- The current thread blocks outside `sema_down`. -/
theorem blocks (h : Scheduled w)
    (hhead : ∀ s, (w.pending w.current).head? ≠ some (.recheck s)) :
    Descheduled (w.setStatus w.current .blocked) := by
  refine h.deschedule .blocked nofun (fun t => (or_iff_left nofun).symm) h.readyNodup
    (fun s t => (or_iff_left ?_).symm) h.waitersNodup (fun t => (and_iff_left fun _ => nofun).symm)
    h.allNodup nofun
  rintro ⟨rfl, -, heq⟩
  exact hhead s heq

/-- The current thread yields; the idle thread is put on no list. -/
theorem yields (h : Scheduled w) : Descheduled { w.setStatus w.current .ready with
    readyList := if w.current ≠ w.idleThread then w.readyList ++ [w.current]
      else w.readyList } := by
  have hnot : w.current ∉ w.readyList := fun hmem => by
    have := ((h.ready _).mp hmem).2
    rw [h.current_running] at this
    nomatch this
  refine h.deschedule .ready nofun (fun t => ?_) ?_
    (fun s t => (or_iff_left fun hand => nomatch hand.2.1).symm) h.waitersNodup
    (fun t => (and_iff_left fun _ => nofun).symm) h.allNodup nofun
  · split_ifs with hidle
    · rw [List.mem_append, List.mem_singleton]
      refine or_congr_right ⟨?_, And.left⟩
      rintro rfl
      exact ⟨rfl, rfl, hidle⟩
    · refine (or_iff_left ?_).symm
      rintro ⟨rfl, -, hne⟩
      exact hidle hne
  · split_ifs
    · exact h.readyNodup.append (List.nodup_singleton _) (by simpa using hnot)
    · exact h.readyNodup

/-- The current thread, which is not the idle one, dies. -/
theorem exits (h : Scheduled w) (hidle : w.current ≠ w.idleThread) :
    Descheduled { (w.setStatus w.current .dying).setPending w.current [] with
      allList := w.allList.erase w.current } := by
  have h1 := h.setPending hidle [] nofun nofun fun u => Nat.zero_le _
  refine h1.deschedule .dying nofun (fun t => (or_iff_left nofun).symm) h1.readyNodup
    (fun s t => (or_iff_left fun hand => nomatch hand.2.1).symm) h1.waitersNodup (fun t => ?_)
    (h.allNodup.erase _) fun _ => ⟨hidle, Function.update_self ..⟩
  rw [h.allNodup.mem_erase_iff, and_comm]
  exact and_congr_right fun _ => ⟨fun hne heq => absurd heq hne, fun hne heq => hne heq rfl⟩

/-- A blocked thread becomes ready and is taken off its waiters list. -/
theorem unblocks (h : Scheduled w) (hst : w.status t = some .blocked)
    {waiters : Semaphore → List Nat} (hmem : ∀ s u, u ∈ waiters s ↔ u ∈ w.waiters s ∧ u ≠ t)
    (hnodup : ∀ s, (waiters s).Nodup) (hidle : t ≠ w.idleThread)
    (hnew : ∀ u, .unblockNew t ∉ w.pending u) :
    Scheduled { w.unblock t with waiters := waiters } := by
  have hself : Function.update w.status t (some .ready) t = some .ready := Function.update_self ..
  have hother : ∀ u, u ≠ t → Function.update w.status t (some .ready) u = w.status u :=
    fun u hu => Function.update_of_ne hu ..
  have hnot : t ∉ w.readyList := fun hmem => by
    have := ((h.ready t).mp hmem).2
    rw [hst] at this
    nomatch this
  refine ⟨⟨fun u => ?_, ?_, fun s u hu => ?_, hnodup, fun s u hu hhead => ?_, h.own,
    fun u => ?_, h.allNodup, h.idle, h.idleLive, fun u v hv => ?_, h.newOnce, h.newCount, h.gone⟩,
    fun u => ?_, fun u hu => ?_⟩
  · show u ∈ w.readyList ++ [t] ↔
      u ≠ w.idleThread ∧ Function.update w.status t (some .ready) u = some .ready
    by_cases hu : u = t
    · subst hu
      rw [hself]
      simp [hidle]
    · rw [hother u hu, ← h.ready]
      simp [hu]
  · exact h.readyNodup.append (List.nodup_singleton _) (by simpa using hnot)
  · obtain ⟨hu, hne⟩ := (hmem s u).mp hu
    obtain ⟨hu', hhead⟩ := h.waiting s u hu
    exact ⟨(hother u hne).trans hu', hhead⟩
  · replace hu : Function.update w.status t (some .ready) u = some .blocked := hu
    by_cases hut : u = t
    · subst hut
      rw [hself] at hu
      nomatch hu
    · rw [hother u hut] at hu
      exact (hmem s u).mpr ⟨h.blocked s u hu hhead, hut⟩
  · show _ ↔ ∃ st, Function.update w.status t (some .ready) u = some st ∧ st ≠ .dying
    by_cases hu : u = t
    · subst hu
      exact iff_of_true ((h.all u).mpr ⟨.blocked, hst, nofun⟩) ⟨.ready, hself, nofun⟩
    · rw [hother u hu]
      exact h.all u
  · obtain ⟨hv', hnil⟩ := h.new u v hv
    refine ⟨(hother v ?_).trans hv', hnil⟩
    rintro rfl
    exact hnew u hv
  · show Function.update w.status t (some .ready) u = some .running ↔ u = w.current
    by_cases hu : u = t
    · subst hu
      rw [hself]
      exact iff_of_false nofun (h.status_of_ne hst nofun)
    · rw [hother u hu]
      exact h.running u
  · replace hu : Function.update w.status t (some .ready) u = some .dying := hu
    by_cases hut : u = t
    · subst hut
      rw [hself] at hu
      nomatch hu
    · rw [hother u hut] at hu
      exact h.dying u hu

end Scheduled

/-! ### What one step does -/

namespace State

/-- `sema_up` as seen by the semaphores. -/
def upped (w : State) (s : Semaphore) : State :=
  ((w.setWaiters s (w.waiters s).tail).setValue s ((w.value s + 1) % 2 ^ 32)).happens (.up s)

/-- The current thread takes a semaphore. -/
def took (w : State) (s : Semaphore) (is : List Instr) : State :=
  ((w.setValue s (w.value s - 1)).setPending w.current is).happens (.down s)

/-- The current thread waits for a semaphore. -/
def waited (w : State) (s : Semaphore) (rest : List Instr) : State :=
  (w.setWaiters s (w.waiters s ++ [w.current])).setPending w.current (.recheck s :: rest)

end State

theorem wp_threadBlock (h : Scheduled w)
    (hhead : ∀ s, (w.pending w.current).head? ≠ some (.recheck s)) :
    wp threadBlock (fun _ w' => Switched w w') E w := by
  rw [threadBlock, Routine.wp_bind, Routine.wp_modify]
  exact (wp_schedule (h.blocks hhead)).mono fun _ w' hw' =>
    hw'.of_same ⟨rfl, rfl, rfl, rfl, rfl, rfl, rfl⟩

theorem wp_threadYield (h : Scheduled w) : wp threadYield (fun _ w' => Switched w w') E w := by
  rw [threadYield, Routine.wp_bind, Routine.wp_modify]
  exact (wp_schedule h.yields).mono fun _ w' hw' =>
    hw'.of_same ⟨rfl, rfl, rfl, rfl, rfl, rfl, rfl⟩

theorem wp_threadUnblock (h : Scheduled w) (hwait : ∀ s, t ∉ w.waiters s)
    (hidle : t ≠ w.idleThread) (hnew : ∀ u, .unblockNew t ∉ w.pending u) :
    wp (threadUnblock t) (fun _ w' => Switched w w') (fun _ => True) w := by
  rw [threadUnblock, Routine.wp_bind, Routine.wp_get]
  rcases hst : w.status t with _ | st
  · trivial
  · cases st with
    | blocked =>
      refine ⟨h.unblocks hst (fun s u => (and_iff_left_of_imp ?_).symm) h.waitersNodup hidle hnew,
        ⟨rfl, rfl, rfl, rfl, rfl, rfl, rfl⟩⟩
      rintro hu rfl
      exact hwait s hu
    | _ => trivial

theorem Scheduled.waiting_mem (h : Scheduled w) (ht : t ∈ w.waiters s) : t ∈ w.allList :=
  (h.all t).mpr ⟨.blocked, (h.waiting s t ht).1, nofun⟩

/-- A thread on a waiters list is on no other. -/
theorem Scheduled.waiting_unique (h : Scheduled w) {s' : Semaphore} (ht : t ∈ w.waiters s)
    (ht' : t ∈ w.waiters s') : s = s' := by
  have hhead := (h.waiting s t ht).2
  rw [(h.waiting s' t ht').2] at hhead
  cases hhead
  rfl

/-- Waiting threads may be taken off their list if they are unblocked at once. -/
theorem wp_semaUp (h : Scheduled w) (s : Semaphore) :
    wp (semaUp s) (fun _ w' => Switched (w.upped s) w') (fun _ => True) w := by
  rw [semaUp, Routine.wp_bind, unblockFirst, Routine.wp_bind, Routine.wp_get]
  rcases hw : w.waiters s with _ | ⟨t, ts⟩
  · rw [Routine.wp_pure, Routine.wp_modify]
    have hself : Function.update w.waiters s [] = w.waiters := by rw [← hw, Function.update_eq_self]
    refine ⟨h.congr ⟨rfl, rfl, rfl, rfl, rfl, rfl, rfl, rfl⟩, ⟨rfl, ?_, rfl, rfl, rfl, rfl, rfl⟩⟩
    show w.waiters = Function.update w.waiters s (w.waiters s).tail
    rw [hw, List.tail_nil, hself]
  have ht : t ∈ w.waiters s := hw ▸ List.mem_cons_self
  obtain ⟨hst, hhead⟩ := h.waiting s t ht
  have hdup := h.waitersNodup s
  rw [hw, List.nodup_cons] at hdup
  have hmem : ∀ s' u, u ∈ Function.update w.waiters s ts s' ↔ u ∈ w.waiters s' ∧ u ≠ t := by
    intro s' u
    by_cases hs : s' = s
    · subst hs
      rw [Function.update_self, hw, List.mem_cons]
      constructor
      · intro hu
        refine ⟨.inr hu, ?_⟩
        rintro rfl
        exact hdup.1 hu
      · rintro ⟨rfl | hu, hne⟩
        · exact absurd rfl hne
        · exact hu
    · rw [Function.update_of_ne hs]
      refine (and_iff_left_of_imp ?_).symm
      rintro hu rfl
      exact hs (h.waiting_unique hu ht)
  have hnodup : ∀ s', (Function.update w.waiters s ts s').Nodup := fun s' => by
    by_cases hs : s' = s
    · subst hs
      rw [Function.update_self]
      exact hdup.2
    · rw [Function.update_of_ne hs]
      exact h.waitersNodup s'
  have hidle : t ≠ w.idleThread := by
    rintro rfl
    rw [h.idle] at hhead
    nomatch hhead
  have hnew : ∀ u, .unblockNew t ∉ w.pending u := fun u hu => by
    rw [(h.new u t hu).2] at hhead
    nomatch hhead
  rw [Routine.wp_bind, Routine.wp_set, threadUnblock, Routine.wp_bind, Routine.wp_get]
  have hstatus : (w.setWaiters s ts).status t = some .blocked := hst
  rw [hstatus]
  dsimp only
  rw [Routine.wp_set, Routine.wp_modify]
  have hready : Scheduled ((w.setWaiters s ts).unblock t) := h.unblocks hst hmem hnodup hidle hnew
  refine ⟨hready.congr ⟨rfl, rfl, rfl, rfl, rfl, rfl, rfl, rfl⟩, ⟨rfl, ?_, rfl, rfl, rfl, rfl, rfl⟩⟩
  show Function.update w.waiters s ts = Function.update w.waiters s (w.waiters s).tail
  rw [hw, List.tail_cons]

/-- The current thread waits for a semaphore or takes it. -/
theorem wp_semaDown (h : Scheduled w) (hnext : w.pending w.current = i :: rest) (hi : i ≠ .idle)
    (hown : (Instr.recheck s).OwnedBy w.current) :
    wp (semaDown s rest) (fun _ w' =>
      w.value s = 0 ∧ Switched (w.waited s rest) w' ∨
        0 < w.value s ∧ Switched (w.took s (afterDown s ++ rest)) w') E w := by
  rw [semaDown, Routine.wp_bind, Routine.wp_get]
  by_cases hzero : w.value s = 0
  · rw [if_pos hzero, Routine.wp_bind, Routine.wp_set]
    have h1 : Scheduled (w.setPending w.current ([.recheck s] ++ rest)) :=
      h.goes hnext hi _ (by simpa using hown) (by simp)
    have hhead : ((w.setPending w.current (.recheck s :: rest)).pending
        (w.setPending w.current (.recheck s :: rest)).current).head? = some (.recheck s) := by
      rw [State.setPending_pending]
      show (Function.update w.pending w.current (.recheck s :: rest) w.current).head? = _
      rw [Function.update_self, List.head?_cons]
    rw [threadBlock, Routine.wp_bind, Routine.wp_modify]
    exact (wp_schedule (h1.waits hhead)).mono fun _ w' hw' =>
      .inl ⟨hzero, hw'.of_same ⟨rfl, rfl, rfl, rfl, rfl, rfl, rfl⟩⟩
  · rw [if_neg hzero, Routine.wp_set]
    have h1 : Scheduled (w.setPending w.current (afterDown s ++ rest)) := by
      refine h.goes hnext hi _ (fun j hj => ?_) fun u hu => ?_
      · cases s <;> simp [afterDown] at hj
        subst hj
        trivial
      · cases s <;> simp [afterDown] at hu
    exact .inr ⟨Nat.pos_of_ne_zero hzero, h1.congr ⟨rfl, rfl, rfl, rfl, rfl, rfl, rfl, rfl⟩,
      SameData.refl⟩

/-- What an instruction of the current thread, with `rest` behind it, does to semaphores, locks,
condition variables and instructions. -/
inductive Effect (lockOf : Nat → Nat) (w : State) (rest : List Instr) : Instr → State → Prop where
  | wait {i : Instr} {s : Semaphore} (hi : i = .down s ∨ i = .recheck s) (h : w.value s = 0) :
      Effect lockOf w rest i (w.waited s rest)
  | take {i : Instr} {s : Semaphore} (hi : i = .down s ∨ i = .recheck s) (h : 0 < w.value s) :
      Effect lockOf w rest i (w.took s (afterDown s ++ rest))
  | up (s : Semaphore) :
      Effect lockOf w rest (.up s) ((w.setPending w.current rest).upped s)
  | tryDown {n : Nat} (h : 0 < w.value (.user n)) :
      Effect lockOf w rest (.tryDown n) (w.took (.user n) rest)
  | tryLock {l : Nat} (h : 0 < w.value (.lock l)) :
      Effect lockOf w rest (.tryLock l) (w.took (.lock l) (.setHolder l :: rest))
  | fail {i : Instr} (hi : (∃ n, i = .tryDown n) ∨ ∃ l, i = .tryLock l) :
      Effect lockOf w rest i (w.setPending w.current rest)
  | acquire {l : Nat} (h : w.holder l ≠ some w.current) :
      Effect lockOf w rest (.acquire l) (w.setPending w.current (.down (.lock l) :: rest))
  | tryAcquire {l : Nat} (h : w.holder l ≠ some w.current) :
      Effect lockOf w rest (.tryAcquire l) (w.setPending w.current (.tryLock l :: rest))
  | setHolder (l : Nat) : Effect lockOf w rest (.setHolder l)
      (((w.setHolder l (some w.current)).setPending w.current rest).happens
        (.acquired l w.current))
  | release {l : Nat} (h : w.holder l = some w.current) :
      Effect lockOf w rest (.release l) (w.setPending w.current (.clearHolder l :: rest))
  | clearHolder (l : Nat) : Effect lockOf w rest (.clearHolder l)
      (((w.setHolder l none).setPending w.current (.up (.lock l) :: rest)).happens
        (.released l w.current))
  | condWait {c : Nat} (h : w.holder (lockOf c) = some w.current) :
      Effect lockOf w rest (.condWait c) (w.setPending w.current (.enqueue c :: rest))
  | enqueue (c : Nat) : Effect lockOf w rest (.enqueue c)
      ((((w.semaInit (.waiter w.current)).setCondWaiters c
        (w.condWaiters c ++ [w.current])).setPending w.current
          (.release (lockOf c) :: .down (.waiter w.current) :: .acquire (lockOf c) ::
            .leave c :: rest)).happens (.began c w.current))
  | leave (c : Nat) : Effect lockOf w rest (.leave c)
      ((w.setPending w.current rest).happens (.left c w.current (w.holder (lockOf c))))
  | condSignal {c : Nat} (h : w.holder (lockOf c) = some w.current) :
      Effect lockOf w rest (.condSignal c) (w.setPending w.current (.signal c :: rest))
  | signalNone {c : Nat} (h : w.condWaiters c = []) : Effect lockOf w rest (.signal c)
      ((w.setPending w.current rest).happens (.signal c none))
  | signal {c t : Nat} {ts : List Nat} (h : w.condWaiters c = t :: ts) :
      Effect lockOf w rest (.signal c) (((w.setCondWaiters c ts).setPending w.current
        (.up (.waiter t) :: rest)).happens (.signal c (some t)))
  | condBroadcast (c : Nat) : Effect lockOf w rest (.condBroadcast c)
      ((w.setPending w.current (.broadcast c :: rest)).happens (.broadcast c))
  | broadcastEnd {c : Nat} (h : w.condWaiters c = []) : Effect lockOf w rest (.broadcast c)
      ((w.setPending w.current rest).happens (.broadcastEnd c))
  | broadcast {c : Nat} (h : w.condWaiters c ≠ []) : Effect lockOf w rest (.broadcast c)
      (w.setPending w.current (.condSignal c :: .broadcast c :: rest))
  | block : Effect lockOf w rest .block (w.setPending w.current (.blocked :: rest))
  | goOn {i : Instr} (hi : i = .blocked ∨ i = .yield ∨ (∃ t, i = .unblock t) ∨
      (∃ t, i = .unblockNew t) ∨ (∃ t, i = .allocateTid t) ∨ ∃ t, i = .create t) :
      Effect lockOf w rest i (w.setPending w.current rest)
  | sleep (untilsleep : Int) : Effect lockOf w rest (.sleep untilsleep)
      ((w.semaInit (.sleep w.current)).waited (.sleep w.current) rest)
  | create {t : Nat} (h : w.status t = none) : Effect lockOf w rest (.create t)
      { w.setPending w.current (.acquire tidLock :: .allocateTid t :: .release tidLock ::
          .unblockNew t :: rest) with allList := w.allList ++ [t] }
  | exit : Effect lockOf w rest .exit
      { w.setPending w.current [] with allList := w.allList.erase w.current }
  | idle : Effect lockOf w rest .idle w

/-- The current thread initializes the semaphore on its stack, for which nobody waits. -/
theorem Scheduled.semaInit (h : Scheduled w)
    (hs : s = .sleep w.current ∨ s = .waiter w.current) : Scheduled (w.semaInit s) := by
  have hnone : w.waiters s = [] := by
    rw [List.eq_nil_iff_forall_not_mem]
    intro t ht
    have hhead := (h.waiting s t ht).2
    have hown := h.own t _ (List.mem_of_head? hhead)
    have hcur : t = w.current := by
      rcases hs with rfl | rfl
      · exact hown.symm
      · exact hown.symm
    subst hcur
    exact h.current_not_waiting ht
  refine h.congr ⟨rfl, rfl, ?_, rfl, rfl, rfl, rfl, rfl⟩
  show Function.update w.waiters s [] = w.waiters
  rw [← hnone, Function.update_eq_self]

/-- A new thread is blocked and in no list but `all_list`, and its creator will unblock it. -/
theorem Scheduled.creates (h : Scheduled w) (hnext : w.pending w.current = i :: rest)
    (hi : i ≠ .idle) (hnone : w.status t = none) :
    Scheduled { (w.setStatus t .blocked).setPending w.current (.acquire tidLock ::
      .allocateTid t :: .release tidLock :: .unblockNew t :: rest) with
        allList := w.allList ++ [t] } := by
  have hself : Function.update w.status t (some .blocked) t = some .blocked :=
    Function.update_self ..
  have hother : ∀ u, u ≠ t → Function.update w.status t (some .blocked) u = w.status u :=
    fun u hu => Function.update_of_ne hu ..
  have hne : ∀ {u st}, w.status u = some st → u ≠ t := by
    rintro u st hu rfl
    rw [hnone] at hu
    nomatch hu
  have hnot : t ∉ w.allList := fun hmem => by
    obtain ⟨st, hst, -⟩ := (h.all t).mp hmem
    exact hne hst rfl
  have hnil := h.gone t hnot
  have h1 : Scheduled { w.setStatus t .blocked with allList := w.allList ++ [t] } := by
    refine ⟨⟨fun u => ?_, h.readyNodup, fun s u hu => ?_, h.waitersNodup, fun s u hu hhead => ?_,
      h.own, fun u => ?_, h.allNodup.append (List.nodup_singleton _) (by simpa using hnot), h.idle,
      List.mem_append_left _ h.idleLive, fun u v hv => ?_, h.newOnce, h.newCount, fun u hu => ?_⟩,
      fun u => ?_, fun u hu => ?_⟩
    · refine (h.ready u).trans (and_congr_right fun _ => ?_)
      show _ ↔ Function.update w.status t (some .blocked) u = some .ready
      by_cases hu : u = t
      · rw [hu, hself, hnone]
        exact iff_of_false nofun nofun
      · rw [hother u hu]
    · obtain ⟨hst, hhead⟩ := h.waiting s u hu
      exact ⟨(hother u (hne hst)).trans hst, hhead⟩
    · by_cases hut : u = t
      · subst hut
        replace hhead : (w.pending u).head? = some (.recheck s) := hhead
        rw [hnil] at hhead
        nomatch hhead
      · exact h.blocked s u ((hother u hut).symm.trans hu) hhead
    · show u ∈ w.allList ++ [t] ↔
        ∃ st, Function.update w.status t (some .blocked) u = some st ∧ st ≠ .dying
      by_cases hu : u = t
      · subst hu
        exact iff_of_true (by simp) ⟨.blocked, hself, nofun⟩
      · rw [hother u hu, ← h.all u]
        simp [hu]
    · obtain ⟨hst, hnil⟩ := h.new u v hv
      exact ⟨(hother v (hne hst)).trans hst, hnil⟩
    · exact h.gone u fun hmem => hu (List.mem_append_left _ hmem)
    · show Function.update w.status t (some .blocked) u = some .running ↔ u = w.current
      by_cases hu : u = t
      · subst hu
        rw [hself]
        exact iff_of_false nofun (hne h.current_running).symm
      · rw [hother u hu]
        exact h.running u
    · by_cases hut : u = t
      · subst hut
        replace hu : Function.update w.status u (some .blocked) u = some .dying := hu
        rw [hself] at hu
        nomatch hu
      · exact h.dying u ((hother u hut).symm.trans hu)
  have hfresh : ∀ u, .unblockNew t ∉ w.pending u := fun u hu => hne (h.new u t hu).1 rfl
  have hrest : ∀ j ∈ rest, j ∈ w.pending w.current := fun j hj => hnext ▸ List.mem_cons_of_mem _ hj
  refine (h1.setPending (h.not_idle hnext hi) _ (fun j hj => ?_) (fun u hu => ?_)
    fun u => ?_).congr ⟨rfl, rfl, rfl, rfl, rfl, rfl, rfl, rfl⟩
  · simp only [List.mem_cons] at hj
    rcases hj with rfl | rfl | rfl | rfl | hj
    · trivial
    · trivial
    · trivial
    · trivial
    · exact h.own _ j (hrest j hj)
  · simp only [List.mem_cons] at hu
    rcases hu with hu | hu | hu | hu | hu
    · nomatch hu
    · nomatch hu
    · nomatch hu
    · cases hu
      exact .inr ⟨hself, hnil, hfresh⟩
    · exact .inl (hrest _ hu)
  · have hcount := h.newCount w.current u
    rw [hnext, List.count_cons] at hcount
    simp only [List.count_cons]
    by_cases hu : u = t
    · subst hu
      have : rest.count (.unblockNew u) = 0 :=
        List.count_eq_zero_of_not_mem fun hmem => hfresh _ (hrest _ hmem)
      simp [this]
    · have hne' : ¬ t = u := fun heq => hu heq.symm
      simp [hne']
      omega

theorem Scheduled.pops (h : Scheduled w) (hnext : w.pending w.current = i :: rest)
    (hi : i ≠ .idle) : Scheduled (w.setPending w.current rest) := by
  have := h.goes hnext hi [] (by simp) (fun u => List.not_mem_nil)
  rwa [List.nil_append] at this

theorem Scheduled.pushes (h : Scheduled w) (hnext : w.pending w.current = i :: rest)
    (hi : i ≠ .idle) (j : Instr) (hown : j.OwnedBy w.current) (hnew : ∀ u, j ≠ .unblockNew u) :
    Scheduled (w.setPending w.current (j :: rest)) := by
  refine h.goes hnext hi [j] (fun k hk => ?_) fun u hu => hnew u (List.mem_singleton.mp hu).symm
  rw [List.mem_singleton.mp hk]
  exact hown

/-- A thread that has blocked itself may be unblocked. -/
theorem wp_threadUnblock_blocked (h : Scheduled w) (ht : (w.pending t).head? = some .blocked) :
    wp (threadUnblock t) (fun _ w' => Switched w w') (fun _ => True) w := by
  refine wp_threadUnblock h (fun s hs => ?_) ?_ fun u hu => ?_
  · have := (h.waiting s t hs).2
    rw [ht] at this
    nomatch this
  · rintro rfl
    rw [h.idle] at ht
    nomatch ht
  · rw [(h.new u t hu).2] at ht
    nomatch ht

/-- The creator of a thread unblocks it. -/
theorem wp_threadUnblock_new (h : Scheduled w)
    (hnext : w.pending w.current = .unblockNew t :: rest) :
    wp (threadUnblock t) (fun _ w' => Switched (w.setPending w.current rest) w') (fun _ => True)
      (w.setPending w.current rest) := by
  have h1 := h.pops hnext nofun
  have hmem : .unblockNew t ∈ w.pending w.current := hnext ▸ List.mem_cons_self
  obtain ⟨hst, hnil⟩ := h.new w.current t hmem
  refine wp_threadUnblock h1 (fun s hs => ?_) ?_ fun u hu => ?_
  · have := (h.waiting s t hs).2
    rw [hnil] at this
    nomatch this
  · rintro rfl
    have := h.idle.symm.trans hnil
    nomatch this
  · rw [State.setPending_pending] at hu
    by_cases hcur : u = w.current
    · subst hcur
      rw [Function.update_self] at hu
      have hcount := h.newCount w.current t
      rw [hnext, List.count_cons_self] at hcount
      have := List.count_pos_iff.mpr hu
      omega
    · rw [Function.update_of_ne hcur] at hu
      exact hcur (h.newOnce u w.current t hu hmem)

/-- What an instruction does, and that the lists still match. -/
theorem wp_perform {lockOf : Nat → Nat} (h : Scheduled w)
    (hnext : w.pending w.current = i :: rest)
    (hdirect : ∀ t, i = .unblock t → (w.pending t).head? = some .blocked) :
    wp (perform lockOf rest i) (fun _ w' => ∃ v, Effect lockOf w rest i v ∧ Switched v w')
      (fun _ => True) w := by
  have hmem : i ∈ w.pending w.current := hnext ▸ List.mem_cons_self
  have hplain : ∀ {v : State}, Effect lockOf w rest i v → Scheduled v →
      ∃ v', Effect lockOf w rest i v' ∧ Switched v' v :=
    fun heffect hv => ⟨_, heffect, hv, SameData.refl⟩
  have hdown : ∀ s, i = .down s ∨ i = .recheck s →
      wp (semaDown s rest) (fun _ w' => ∃ v, Effect lockOf w rest i v ∧ Switched v w')
        (fun _ => True) w := by
    intro s hi
    have hown : (Instr.recheck s).OwnedBy w.current := by
      have := h.own _ i hmem
      rcases hi with rfl | rfl
      · cases s <;> exact this
      · exact this
    refine (wp_semaDown h hnext (by rcases hi with rfl | rfl <;> nofun) hown).mono
      fun _ w' hw' => ?_
    rcases hw' with ⟨hzero, hw'⟩ | ⟨hpos, hw'⟩
    · exact ⟨_, .wait hi hzero, hw'⟩
    · exact ⟨_, .take hi hpos, hw'⟩
  cases i with
  | down s => exact hdown s (.inl rfl)
  | recheck s => exact hdown s (.inr rfl)
  | up s =>
    rw [perform, Routine.wp_bind, Routine.wp_modify]
    exact (wp_semaUp (h.pops hnext nofun) s).mono fun _ w' hw' => ⟨_, .up s, hw'⟩
  | tryDown n =>
    rw [perform, semaTryDown, Routine.wp_bind, Routine.wp_get]
    split_ifs with hpos
    · exact hplain (.tryDown hpos)
        ((h.pops hnext nofun).congr ⟨rfl, rfl, rfl, rfl, rfl, rfl, rfl, rfl⟩)
    · exact hplain (.fail (.inl ⟨n, rfl⟩)) (h.pops hnext nofun)
  | acquire l =>
    rw [perform, Routine.wp_bind, Routine.wp_get]
    split_ifs with hheld
    · trivial
    · exact hplain (.acquire hheld) (h.pushes hnext nofun (.down (.lock l)) trivial nofun)
  | setHolder l =>
    exact hplain (.setHolder l)
      ((h.pops hnext nofun).congr ⟨rfl, rfl, rfl, rfl, rfl, rfl, rfl, rfl⟩)
  | tryAcquire l =>
    rw [perform, Routine.wp_bind, Routine.wp_get]
    split_ifs with hheld
    · trivial
    · exact hplain (.tryAcquire hheld) (h.pushes hnext nofun (.tryLock l) trivial nofun)
  | tryLock l =>
    rw [perform, semaTryDown, Routine.wp_bind, Routine.wp_get]
    split_ifs with hpos
    · exact hplain (.tryLock hpos)
        ((h.pushes hnext nofun (.setHolder l) trivial nofun).congr ⟨rfl, rfl, rfl, rfl, rfl, rfl, rfl, rfl⟩)
    · exact hplain (.fail (.inr ⟨l, rfl⟩)) (h.pops hnext nofun)
  | release l =>
    rw [perform, Routine.wp_bind, Routine.wp_get]
    split_ifs with hheld
    · exact hplain (.release hheld) (h.pushes hnext nofun (.clearHolder l) trivial nofun)
    · trivial
  | clearHolder l =>
    exact hplain (.clearHolder l)
      ((h.pushes hnext nofun (.up (.lock l)) trivial nofun).congr ⟨rfl, rfl, rfl, rfl, rfl, rfl, rfl, rfl⟩)
  | condWait c =>
    rw [perform, Routine.wp_bind, Routine.wp_get]
    split_ifs with hheld
    · exact hplain (.condWait hheld) (h.pushes hnext nofun (.enqueue c) trivial nofun)
    · trivial
  | enqueue c =>
    have h1 := h.semaInit (.inr rfl)
    refine hplain (.enqueue c) ((h1.goes hnext nofun [.release (lockOf c),
      .down (.waiter w.current), .acquire (lockOf c), .leave c] (fun j hj => ?_) (by simp)).congr
        ⟨rfl, rfl, rfl, rfl, rfl, rfl, rfl, rfl⟩)
    simp only [List.mem_cons, List.not_mem_nil, or_false] at hj
    rcases hj with rfl | rfl | rfl | rfl
    · trivial
    · rfl
    · trivial
    · trivial
  | leave c =>
    exact hplain (.leave c)
      ((h.pops hnext nofun).congr ⟨rfl, rfl, rfl, rfl, rfl, rfl, rfl, rfl⟩)
  | condSignal c =>
    rw [perform, Routine.wp_bind, Routine.wp_get]
    split_ifs with hheld
    · exact hplain (.condSignal hheld) (h.pushes hnext nofun (.signal c) trivial nofun)
    · trivial
  | signal c =>
    rw [perform, Routine.wp_modify]
    split
    · next hnil =>
      exact hplain (.signalNone hnil)
        ((h.pops hnext nofun).congr ⟨rfl, rfl, rfl, rfl, rfl, rfl, rfl, rfl⟩)
    · next t ts hcons =>
      exact hplain (.signal hcons)
        ((h.pushes hnext nofun (.up (.waiter t)) trivial nofun).congr ⟨rfl, rfl, rfl, rfl, rfl, rfl, rfl, rfl⟩)
  | condBroadcast c =>
    exact hplain (.condBroadcast c)
      ((h.pushes hnext nofun (.broadcast c) trivial nofun).congr ⟨rfl, rfl, rfl, rfl, rfl, rfl, rfl, rfl⟩)
  | broadcast c =>
    rw [perform, Routine.wp_modify]
    split
    · next hnil =>
      exact hplain (.broadcastEnd hnil)
        ((h.pops hnext nofun).congr ⟨rfl, rfl, rfl, rfl, rfl, rfl, rfl, rfl⟩)
    · next t ts hcons =>
      refine hplain (.broadcast (by rw [hcons]; nofun))
        (h.goes hnext nofun [.condSignal c, .broadcast c] (fun j hj => ?_) (by simp))
      simp only [List.mem_cons, List.not_mem_nil, or_false] at hj
      rcases hj with rfl | rfl
      · trivial
      · trivial
  | block =>
    rw [perform, Routine.wp_bind, Routine.wp_modify]
    refine (wp_threadBlock (h.pushes hnext nofun .blocked trivial nofun) fun s => ?_).mono
      fun _ w' hw' => ⟨_, .block, hw'⟩
    rw [State.setPending_pending]
    show (Function.update w.pending w.current (.blocked :: rest) w.current).head? ≠ _
    rw [Function.update_self]
    nofun
  | blocked => exact hplain (.goOn (.inl rfl)) (h.pops hnext nofun)
  | yield =>
    rw [perform, Routine.wp_bind, Routine.wp_modify]
    exact (wp_threadYield (h.pops hnext nofun)).mono
      fun _ w' hw' => ⟨_, .goOn (.inr (.inl rfl)), hw'⟩
  | unblock t =>
    rw [perform, Routine.wp_bind, Routine.wp_modify]
    refine (wp_threadUnblock_blocked (h.pops hnext nofun) ?_).mono
      fun _ w' hw' => ⟨_, .goOn (.inr (.inr (.inl ⟨t, rfl⟩))), hw'⟩
    have ht := hdirect t rfl
    have hne : t ≠ w.current := by
      rintro rfl
      rw [hnext] at ht
      nomatch ht
    rwa [State.setPending_pending, Function.update_of_ne hne]
  | unblockNew t =>
    rw [perform, Routine.wp_bind, Routine.wp_modify]
    exact (wp_threadUnblock_new h hnext).mono
      fun _ w' hw' => ⟨_, .goOn (.inr (.inr (.inr (.inl ⟨t, rfl⟩)))), hw'⟩
  | sleep untilsleep =>
    rw [perform, Routine.wp_bind, Routine.wp_get, Routine.wp_bind, Routine.wp_set]
    generalize hw1 : ({ w.semaInit (.sleep w.current) with
      sleepingList := insertSleeping untilsleep w.current w.sleepingList } : State) = w1
    have h1 : Scheduled w1 := by
      rw [← hw1]
      exact (h.semaInit (.inl rfl)).congr ⟨rfl, rfl, rfl, rfl, rfl, rfl, rfl, rfl⟩
    have hvalue : w1.value (.sleep w.current) = 0 := by
      rw [← hw1]
      exact Function.update_self ..
    have hcurrent : w1.current = w.current := by rw [← hw1]; rfl
    have hpending : w1.pending w1.current = .sleep untilsleep :: rest := by
      rw [hcurrent, ← hw1]
      exact hnext
    have hown : (Instr.recheck (.sleep w.current)).OwnedBy w1.current := hcurrent.symm
    refine (wp_semaDown h1 hpending nofun hown).mono fun _ w' hw' => ?_
    rcases hw' with ⟨-, hw'⟩ | ⟨hpos, -⟩
    · refine ⟨_, .sleep untilsleep, hw'.of_same ?_⟩
      rw [← hw1]
      exact ⟨rfl, rfl, rfl, rfl, rfl, rfl, rfl⟩
    · rw [hvalue] at hpos
      exact absurd hpos (Nat.lt_irrefl 0)
  | create t =>
    rw [perform, Routine.wp_modify]
    split_ifs with hnone
    · exact ⟨_, .create hnone, h.creates hnext nofun hnone, ⟨rfl, rfl, rfl, rfl, rfl, rfl, rfl⟩⟩
    · exact hplain (.goOn (.inr (.inr (.inr (.inr (.inr ⟨t, rfl⟩)))))) (h.pops hnext nofun)
  | allocateTid t =>
    refine ⟨_, .goOn (.inr (.inr (.inr (.inr (.inl ⟨t, rfl⟩))))),
      (h.pops hnext nofun).congr ⟨rfl, rfl, rfl, rfl, rfl, rfl, rfl, rfl⟩,
      ⟨rfl, rfl, rfl, rfl, rfl, rfl, rfl⟩⟩
  | exit =>
    rw [perform, Routine.wp_bind, Routine.wp_modify]
    exact (wp_schedule (h.exits (h.not_idle hnext nofun))).mono fun _ w' hw' =>
      ⟨_, .exit, hw'.of_same ⟨rfl, rfl, rfl, rfl, rfl, rfl, rfl⟩⟩
  | idle =>
    refine (wp_threadBlock h fun s => ?_).mono fun _ w' hw' => ⟨_, .idle, hw'⟩
    rw [hnext]
    nofun

/-! ### Runs -/

/-- What an action does to semaphores, locks, condition variables and instructions, up to the next
switch, if only instructions that are allowed are executed. -/
inductive Turn (lockOf : Nat → Nat) (allowed : Instr → State → Prop) (w : State) :
    State → Prop where
  | call (c : Call) (h : w.pending w.current = []) :
      Turn lockOf allowed w (w.setPending w.current [c.body])
  | same : Turn lockOf allowed w w
  | run {i : Instr} {rest : List Instr} {v : State} (hnext : w.pending w.current = i :: rest)
      (hallowed : allowed i w) (h : Effect lockOf w rest i v) : Turn lockOf allowed w v
  | up {s : Semaphore} (hs : (∃ n, s = .user n) ∨ ∃ t, s = .sleep t) :
      Turn lockOf allowed w (w.upped s)
  | tryDown {n : Nat} (h : 0 < w.value (.user n)) :
      Turn lockOf allowed w (w.took (.user n) (w.pending w.current))

/-- One turn, after which the lists of the scheduler match again. -/
def Step (lockOf : Nat → Nat) (allowed : Instr → State → Prop) (w w' : State) : Prop :=
  ∃ v, Turn lockOf allowed w v ∧ Switched v w'

/-- An action takes some steps. -/
structure Steps (lockOf : Nat → Nat) (allowed : Instr → State → Prop) (w w' : State) : Prop where
  steps : Relation.ReflTransGen (Step lockOf allowed) w w'
  scheduled : Scheduled w'

/-- A thread is only unblocked, other than by `sema_up` and by its creator, if it has blocked
itself by calling `thread_block`; the idle thread, which blocks itself in its own loop, is not
among these. -/
def UnblocksBlocked : Action → State → Prop
  | .run, w => ∀ t, (w.pending w.current).head? = some (.unblock t) →
      (w.pending t).head? = some .blocked
  | .interruptUnblock t, w => (w.pending t).head? = some .blocked
  | _, _ => True

/-- A check that an action unblocks no thread by `thread_unblock`. -/
def unblocksNone : Action → State → Bool
  | .run, w =>
    match (w.pending w.current).head? with
    | some (.unblock _) => false
    | _ => true
  | .interruptUnblock _, _ => false
  | _, _ => true

theorem of_unblocksNone {a : Action} (h : unblocksNone a w = true) :
    UnblocksBlocked a w := by
  cases a with
  | run =>
    intro t hhead
    rw [unblocksNone, hhead] at h
    nomatch h
  | interruptUnblock t => nomatch h
  | _ => trivial

variable {lockOf : Nat → Nat} {allowed : Instr → State → Prop} {a : Action}

theorem Steps.refl (h : Scheduled w) : Steps lockOf allowed w w := ⟨.refl, h⟩

theorem Steps.trans {w'' : State} (h : Steps lockOf allowed w w') (h' : Steps lockOf allowed w' w'') :
    Steps lockOf allowed w w'' := ⟨h.steps.trans h'.steps, h'.scheduled⟩

theorem Step.steps {v : State} (h : Turn lockOf allowed w v) (hv : Switched v w') : Steps lockOf allowed w w' :=
  ⟨.single ⟨v, h, hv⟩, hv.scheduled⟩

/-- Fields that say nothing about threads change. -/
theorem Steps.of_same (h : Steps lockOf allowed w w') {w'' : State} (hthreads : SameThreads w' w'')
    (hdata : SameData w' w'') : Steps lockOf allowed w w'' :=
  h.trans (Step.steps .same ⟨h.scheduled.congr hthreads, hdata⟩)

theorem wp_wakeSleeping (h : Scheduled w) (currentticks : Int) (sleeping : List (Int × Nat)) :
    wp (wakeSleeping currentticks sleeping) (fun _ w' => Steps lockOf allowed w w') (fun _ => True) w := by
  induction sleeping generalizing w with
  | nil => exact Steps.refl h
  | cons entry sleeping ih =>
    rw [wakeSleeping]
    split_ifs with hwake
    · rw [Routine.wp_bind, Routine.wp_modify, Routine.wp_bind]
      have h1 : Steps lockOf allowed w { w with sleepingList := sleeping } :=
        (Steps.refl h).of_same ⟨rfl, rfl, rfl, rfl, rfl, rfl, rfl, rfl⟩
          ⟨rfl, rfl, rfl, rfl, rfl, rfl, rfl⟩
      refine (wp_semaUp h1.scheduled _).mono fun _ w2 h2 =>
        (ih h2.scheduled).mono fun _ w' hw' => ?_
      exact h1.trans ((Step.steps (.up (.inr ⟨entry.2, rfl⟩)) h2).trans hw')
    · exact Steps.refl h

theorem wp_exec (h : Scheduled w) (hunblocks : UnblocksBlocked a w)
    (hallowed : a = .run → ∀ i, (w.pending w.current).head? = some i → allowed i w) :
    wp (exec lockOf a) (fun _ w' => Steps lockOf allowed w w') (fun _ => True) w := by
  cases a with
  | call c =>
    rw [exec, Routine.wp_modify]
    split_ifs with hnil
    · refine Step.steps (.call c hnil) ⟨h.setPending ?_ [c.body] ?_ ?_ ?_, SameData.refl⟩
      · intro heq
        have := h.idle
        rw [← heq, hnil] at this
        nomatch this
      · intro j hj
        rw [List.mem_singleton.mp hj]
        cases c <;> trivial
      · intro u hu
        cases c <;> nomatch List.mem_singleton.mp hu
      · intro u
        exact List.count_le_length
    · exact Steps.refl h
  | run =>
    rw [exec, Routine.wp_bind, Routine.wp_get]
    rcases hnext : w.pending w.current with _ | ⟨i, rest⟩
    · exact Steps.refl h
    · refine (wp_perform h hnext fun t hi => hunblocks t ?_).mono
        fun _ w' ⟨v, heffect, hw'⟩ => Step.steps (.run hnext (hallowed rfl i (by rw [hnext]; rfl)) heffect) hw'
      rw [hnext, hi]
      rfl
  | tick currentticks =>
    rw [exec, threadTick, Routine.wp_bind, Routine.wp_get, Routine.wp_bind]
    have hloop : wp (wakeSleeping currentticks w.sleepingList)
        (fun _ w' => Steps lockOf allowed w w') (fun _ => True) w := wp_wakeSleeping h _ _
    refine hloop.mono fun _ w1 h1 => ?_
    rw [Routine.wp_bind, Routine.wp_modify, Routine.wp_bind, Routine.wp_get]
    have h2 : Steps lockOf allowed w { w1 with threadTicks := w1.threadTicks + 1 } :=
      h1.of_same ⟨rfl, rfl, rfl, rfl, rfl, rfl, rfl, rfl⟩ ⟨rfl, rfl, rfl, rfl, rfl, rfl, rfl⟩
    split_ifs
    · exact (wp_threadYield h2.scheduled).mono fun _ w' hw' => h2.trans (Step.steps .same hw')
    · exact h2
  | interruptUp n =>
    exact (wp_semaUp h _).mono fun _ w' hw' => Step.steps (.up (.inl ⟨n, rfl⟩)) hw'
  | interruptTryDown n =>
    have hself : ∀ v : State, SameThreads w v →
        SameThreads w (v.setPending w.current (w.pending w.current)) := by
      rintro v ⟨hstatus, hready, hwaiters, hall, hidle, hinitial, hcurrent, hpending⟩
      refine ⟨hstatus, hready, hwaiters, hall, hidle, hinitial, hcurrent, ?_⟩
      rw [State.setPending_pending, hpending, Function.update_eq_self]
    rw [exec, Routine.wp_bind, Routine.wp_get, semaTryDown, Routine.wp_bind, Routine.wp_get]
    split_ifs with hpos
    · refine Step.steps (.tryDown hpos) ⟨h.congr (hself
        ((w.setValue (.user n) (w.value (.user n) - 1)).happens (.down (.user n)))
          ⟨rfl, rfl, rfl, rfl, rfl, rfl, rfl, rfl⟩), SameData.refl⟩
    · refine Step.steps .same ⟨h.congr (hself w ⟨rfl, rfl, rfl, rfl, rfl, rfl, rfl, rfl⟩),
        ⟨rfl, rfl, rfl, rfl, ?_, rfl, rfl⟩⟩
      rw [State.setPending_pending, Function.update_eq_self]
  | interruptUnblock t =>
    exact (wp_threadUnblock_blocked h hunblocks).mono fun _ w' hw' => Step.steps .same hw'

/-- The lists of the scheduler match the statuses of the threads. -/
structure ListsMatch (w : State) : Prop where
  running : ∃! t, w.status t = some .running
  ready : ∀ t, w.readyList.count t =
    if t ≠ w.idleThread ∧ w.status t = some .ready then 1 else 0
  oneList : ∀ t s, (t ∈ w.readyList → t ∉ w.waiters s) ∧ (w.waiters s).count t ≤ 1 ∧
    ∀ s', t ∈ w.waiters s → t ∈ w.waiters s' → s = s'
  blocked : ∀ t, w.status t = some .blocked → t ∉ w.readyList
  destroyed : ∀ t, w.status t = none → t ∉ w.readyList ∧ t ∉ w.allList

theorem Scheduled.listsMatch (h : Scheduled w) : ListsMatch w where
  running := ⟨w.current, h.current_running, fun t ht => (h.running t).mp ht⟩
  ready t := by
    rw [h.readyNodup.count]
    exact if_congr (h.ready t) rfl rfl
  oneList t s := by
    refine ⟨fun hready hwait => ?_, List.nodup_iff_count_le_one.mp (h.waitersNodup s) t,
      fun s' hs hs' => h.waiting_unique hs hs'⟩
    have hst := ((h.ready t).mp hready).2
    rw [(h.waiting s t hwait).1] at hst
    nomatch hst
  blocked t hst hready := by
    have := ((h.ready t).mp hready).2
    rw [hst] at this
    nomatch this
  destroyed t hst := by
    refine ⟨fun hready => ?_, fun hall => ?_⟩
    · have := ((h.ready t).mp hready).2
      rw [hst] at this
      nomatch this
    · obtain ⟨st, hst', -⟩ := (h.all t).mp hall
      rw [hst] at hst'
      nomatch hst'

/-- The idle thread has set `idle_thread` and has blocked, or was interrupted just before. -/
def IdleStatus (status : ThreadStatus) : Prop := status = .blocked ∨ status = .ready

theorem scheduled_started {main idle : Nat} (hne : main ≠ idle) {idleStatus : ThreadStatus}
    (hidle : IdleStatus idleStatus) (values : Nat → UInt32) :
    Scheduled (started main idle idleStatus values) := by
  have hstatus : ∀ t, (started main idle idleStatus values).status t =
      if t = main then some .running else if t = idle then some idleStatus else none :=
    fun t => rfl
  have hpending : ∀ t, (started main idle idleStatus values).pending t =
      if t = idle then [.idle] else [] := fun t => rfl
  have hidleStatus : idleStatus ≠ .dying ∧ idleStatus ≠ .running := by
    rcases hidle with rfl | rfl <;> exact ⟨nofun, nofun⟩
  have hnew : ∀ t u, .unblockNew u ∉ (started main idle idleStatus values).pending t := by
    intro t u hu
    rw [hpending] at hu
    split_ifs at hu
    · simp at hu
    · simp at hu
  refine ⟨⟨fun t => ?_, List.nodup_nil, nofun, fun _ => List.nodup_nil, fun s t _ hhead => ?_,
    fun t i hi => ?_, fun t => ?_, ?_, if_pos rfl, by simp [started],
    fun t u hu => absurd hu (hnew t u), fun t _ u hu => absurd hu (hnew t u), fun t u => ?_,
    fun t ht => ?_⟩, fun t => ?_, fun t ht => ?_⟩
  · refine iff_of_false List.not_mem_nil ?_
    rintro ⟨hti, hst⟩
    replace hti : t ≠ idle := hti
    rw [hstatus, if_neg hti] at hst
    split_ifs at hst
    nomatch hst
  · rw [hpending] at hhead
    split_ifs at hhead <;> nomatch hhead
  · rw [hpending] at hi
    split_ifs at hi
    · rw [List.mem_singleton.mp hi]
      trivial
    · nomatch hi
  · rw [hstatus]
    show t ∈ [main, idle] ↔ _
    rw [List.mem_cons, List.mem_singleton]
    split_ifs with hmain hti
    · exact iff_of_true (.inl hmain) ⟨.running, rfl, nofun⟩
    · exact iff_of_true (.inr hti) ⟨idleStatus, rfl, hidleStatus.1⟩
    · exact iff_of_false (fun hor => hor.elim hmain hti) (by simp)
  · simpa [started] using hne
  · rw [List.count_eq_zero_of_not_mem (hnew t u)]
    exact Nat.zero_le _
  · rw [hpending, if_neg]
    rintro rfl
    exact ht (by simp [started])
  · rw [hstatus]
    show _ ↔ t = main
    split_ifs with hmain hti
    · exact iff_of_true rfl hmain
    · exact iff_of_false (fun heq => hidleStatus.2 (Option.some.inj heq)) hmain
    · exact iff_of_false nofun hmain
  · rw [hstatus] at ht
    split_ifs at ht with hmain hti
    · nomatch ht
    · exact absurd (Option.some.inj ht) hidleStatus.1

/-- Wherever a run passes, the lists of the scheduler match. -/
theorem scheduled_of_visits {actions : List Action} {w0 : State} (h0 : Scheduled w0)
    (hunblocks : ∀ a w, Routine.Takes (exec lockOf) actions w0 a w → UnblocksBlocked a w)
    (hvisits : Routine.Visits (exec lockOf) actions w0 w) : Scheduled w :=
  Routine.Visits.invariant (fun _ _ _ w' h hmay hrun =>
    have hsteps : Steps lockOf (fun _ _ => True) _ w' :=
      (wp_exec h hmay fun _ _ _ => trivial).of_ok hrun
    hsteps.scheduled) hunblocks h0 hvisits

end Threads

/-- From `thread_start` on, the lists of the scheduler match the statuses of the threads, as long as
only threads that have blocked themselves are unblocked by `thread_unblock`. -/
theorem scheduler_lists_match (lockOf : Nat → Nat) (main idle : Nat) (hne : main ≠ idle)
    (idleStatus : Threads.ThreadStatus) (hidle : Threads.IdleStatus idleStatus)
    (values : Nat → UInt32) (actions : List Threads.Action)
    (hunblocks : ∀ a w, Routine.Takes (Threads.exec lockOf) actions
      (Threads.started main idle idleStatus values) a w → Threads.UnblocksBlocked a w)
    (w : Threads.State) (hvisits : Routine.Visits (Threads.exec lockOf) actions
      (Threads.started main idle idleStatus values) w) : Threads.ListsMatch w :=
  (Threads.scheduled_of_visits (Threads.scheduled_started hne hidle values) hunblocks
    hvisits).listsMatch

/-- A semaphore of value 0 is waited for, and an interrupt handler ups it. -/
theorem scheduler_lists_match_woken : ∃ w, Routine.Visits (Threads.exec id)
    [.call (.semaDown 0), .run, .interruptUp 0] (Threads.started 2 1 .blocked fun _ => 0) w ∧
      2 ∈ w.readyList ∧ Threads.ListsMatch w := by
  have hvisits : Routine.Visits (Threads.exec id) [.call (.semaDown 0), .run, .interruptUp 0]
      (Threads.started 2 1 .blocked fun _ => 0) _ := ⟨_, [], _, (List.append_nil _).symm, rfl⟩
  refine ⟨_, hvisits, by decide +kernel, scheduler_lists_match id 2 1 (by decide) .blocked (.inl rfl)
    _ _ (fun a w htakes => ?_) _ hvisits⟩
  rcases (Routine.takes_cons_of_ok rfl).mp htakes with ⟨rfl, rfl⟩ | htakes
  · trivial
  rcases (Routine.takes_cons_of_ok rfl).mp htakes with ⟨rfl, rfl⟩ | htakes
  · nofun
  rcases (Routine.takes_cons_of_ok rfl).mp htakes with ⟨rfl, rfl⟩ | htakes
  · trivial
  · exact absurd htakes Routine.not_takes_nil

/-- The thread in page 2 starts one in page 3 and waits for a semaphore; the new thread unblocks it
by `thread_unblock`. -/
def unblockedWaiter : List Threads.Action :=
  .call (.threadCreate 3) :: List.replicate 10 .run ++
    [.call (.semaDown 0), .run, .call (.threadUnblock 2), .run]

/-- The first thread is then on the waiters list and on the ready list. -/
theorem scheduler_lists_differ : ¬ ∀ w, Routine.Visits (Threads.exec id) unblockedWaiter
    (Threads.started 2 1 .blocked fun _ => 0) w → Threads.ListsMatch w := by
  intro hmatch
  have hboth : (match Routine.execAll (Threads.exec id) unblockedWaiter
      (Threads.started 2 1 .blocked fun _ => 0) with
    | .ok (_, w) => decide (2 ∈ w.readyList ∧ 2 ∈ w.waiters (.user 0))
    | .error _ => false) = true := by
    decide +kernel
  rcases hrun : Routine.execAll (Threads.exec id) unblockedWaiter
      (Threads.started 2 1 .blocked fun _ => 0) with f | ⟨as, w⟩
  · rw [hrun] at hboth
    nomatch hboth
  · rw [hrun] at hboth
    obtain ⟨hready, hwaits⟩ := of_decide_eq_true hboth
    exact ((hmatch w ⟨_, [], as, (List.append_nil _).symm, hrun⟩).oneList 2 (.user 0)).1 hready
      hwaits

end Pintos
