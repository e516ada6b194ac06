import Pintos.Threads.Kernel

/-! The ready list is a queue.  Whatever threads and interrupt handlers do, threads join it at its end
and leave it at its head when they are switched to, and no thread runs longer than a time slice while
others are ready; so a ready thread waits for at most one time slice for each thread before it, and
for the rest of the one that has begun. -/

namespace Pintos

namespace Threads

open Routine (wp)

variable {lockOf : Nat → Nat} {w w' w'' : State} {t k : Nat} {a : Action} {u : Unit}

/-- Threads may have joined the ready list; no other thread was switched to. -/
structure Joins (w w' : State) : Prop where
  readyList : w.readyList <+: w'.readyList
  threadTicks : w'.threadTicks = w.threadTicks

/-- Threads may have joined the ready list, and then its first thread, if there is one, was switched
to. -/
structure Rotates (w w' : State) : Prop where
  readyList : ∃ ready, w.readyList <+: ready ∧ w'.readyList = ready.tail ∧
    ∀ t, ready.head? = some t → w'.current = t
  threadTicks : w'.threadTicks = 0

def JoinsOrRotates (w w' : State) : Prop := Joins w w' ∨ Rotates w w'

theorem Joins.refl (w : State) : Joins w w := ⟨List.prefix_rfl, rfl⟩

theorem Joins.trans (h : Joins w w') (h' : Joins w' w'') : Joins w w'' :=
  ⟨h.readyList.trans h'.readyList, h'.threadTicks.trans h.threadTicks⟩

theorem Joins.rotates (h : Joins w w') (h' : Rotates w' w'') : Rotates w w'' := by
  obtain ⟨ready, hprefix, htail, hhead⟩ := h'.readyList
  exact ⟨⟨ready, h.readyList.trans hprefix, htail, hhead⟩, h'.threadTicks⟩

theorem Joins.progress (h : Joins w w') (h' : JoinsOrRotates w' w'') : JoinsOrRotates w w'' :=
  h'.imp h.trans h.rotates

theorem Joins.of_readyList (h : w'.readyList = w.readyList) (hticks : w'.threadTicks = w.threadTicks) :
    Joins w w' := ⟨h ▸ List.prefix_rfl, hticks⟩

/-! ### Routines -/

theorem rotates_schedule (w : State) : wp schedule (fun _ w' => Rotates w w') (fun _ => True) w := by
  rw [schedule, Routine.wp_bind, Routine.wp_get]
  dsimp only
  split_ifs
  · trivial
  · trivial
  · rw [Routine.wp_set]
    refine ⟨⟨w.readyList, List.prefix_rfl, ?_, fun t ht => ?_⟩, ?_⟩
    · unfold State.switchTo State.nextThreadToRun
      rcases w.readyList with _ | ⟨t, ts⟩ <;> dsimp only <;> split_ifs <;> rfl
    · unfold State.switchTo State.nextThreadToRun
      rcases hready : w.readyList with _ | ⟨t', ts⟩
      · rw [hready] at ht
        cases ht
      · rw [hready] at ht
        cases ht
        dsimp only
        split_ifs <;> rfl
    · unfold State.switchTo
      dsimp only
      split_ifs <;> rfl

theorem rotates_threadBlock (w : State) :
    wp threadBlock (fun _ w' => Rotates w w') (fun _ => True) w := by
  rw [threadBlock, Routine.wp_bind, Routine.wp_modify]
  refine (rotates_schedule _).mono fun _ w' h => Joins.rotates ?_ h
  exact .of_readyList rfl rfl

theorem rotates_threadYield (w : State) :
    wp threadYield (fun _ w' => Rotates w w') (fun _ => True) w := by
  rw [threadYield, Routine.wp_bind, Routine.wp_modify]
  refine (rotates_schedule _).mono fun _ w' h => Joins.rotates ?_ h
  refine ⟨?_, rfl⟩
  show w.readyList <+: if w.current ≠ w.idleThread then w.readyList ++ [w.current] else w.readyList
  split_ifs
  · exact List.prefix_append _ _
  · exact List.prefix_rfl

theorem joins_threadUnblock (t : Nat) (w : State) :
    wp (threadUnblock t) (fun _ w' => Joins w w') (fun _ => True) w := by
  rw [threadUnblock, Routine.wp_bind, Routine.wp_get]
  rcases w.status t with _ | status
  · trivial
  · cases status with
    | blocked => exact ⟨List.prefix_append _ _, rfl⟩
    | _ => trivial

theorem joins_semaUp (s : Semaphore) (w : State) :
    wp (semaUp s) (fun _ w' => Joins w w') (fun _ => True) w := by
  rw [semaUp, Routine.wp_bind, unblockFirst, Routine.wp_bind, Routine.wp_get]
  rcases w.waiters s with _ | ⟨t, ts⟩
  · exact .of_readyList rfl rfl
  · rw [Routine.wp_bind, Routine.wp_set]
    refine (joins_threadUnblock t _).mono fun _ w' h => ?_
    rw [Routine.wp_modify]
    have hwaiters : Joins w (w.setWaiters s ts) := .of_readyList rfl rfl
    exact (hwaiters.trans h).trans (.of_readyList rfl rfl)

theorem progress_semaDown (s : Semaphore) (rest : List Instr) (w : State) :
    wp (semaDown s rest) (fun _ w' => JoinsOrRotates w w') (fun _ => True) w := by
  rw [semaDown, Routine.wp_bind, Routine.wp_get]
  split_ifs
  · rw [Routine.wp_bind, Routine.wp_set]
    refine (rotates_threadBlock _).mono fun _ w' h => .inr (Joins.rotates ?_ h)
    exact .of_readyList rfl rfl
  · exact .inl (.of_readyList rfl rfl)

theorem joins_semaTryDown (s : Semaphore) (success failure : List Instr) (w : State) :
    wp (semaTryDown s success failure) (fun _ w' => Joins w w') (fun _ => True) w := by
  rw [semaTryDown, Routine.wp_bind, Routine.wp_get]
  split_ifs <;> exact .of_readyList rfl rfl

theorem joins_wakeSleeping (currentticks : Int) (sleeping : List (Int × Nat)) (w : State) :
    wp (wakeSleeping currentticks sleeping) (fun _ w' => Joins w w') (fun _ => True) w := by
  induction sleeping generalizing w with
  | nil => exact .refl w
  | cons entry sleeping ih =>
    rw [wakeSleeping]
    split_ifs
    · rw [Routine.wp_bind, Routine.wp_modify, Routine.wp_bind]
      refine (joins_semaUp _ _).mono fun _ w1 h1 => (ih w1).mono fun _ w' h => .trans ?_ (h1.trans h)
      exact .of_readyList rfl rfl
    · exact .refl w

/-- Only the instructions that wait, yield and exit switch threads, and they do it last. -/
theorem progress_perform (rest : List Instr) (i : Instr) (w : State) :
    wp (perform lockOf rest i) (fun _ w' => JoinsOrRotates w w') (fun _ => True) w := by
  have hsame : ∀ {v : State}, v.readyList = w.readyList → v.threadTicks = w.threadTicks →
      JoinsOrRotates w v := fun hready hticks => .inl (.of_readyList hready hticks)
  cases i with
  | down s | recheck s => exact progress_semaDown s rest w
  | up s =>
    rw [perform, Routine.wp_bind, Routine.wp_modify]
    refine (joins_semaUp s _).mono fun _ w' h => .inl (.trans ?_ h)
    exact .of_readyList rfl rfl
  | tryDown n => exact (joins_semaTryDown _ _ _ w).mono fun _ w' h => .inl h
  | tryLock l => exact (joins_semaTryDown _ _ _ w).mono fun _ w' h => .inl h
  | acquire l | tryAcquire l | release l | condWait c | condSignal c =>
    rw [perform, Routine.wp_bind, Routine.wp_get]
    split_ifs <;> first | trivial | exact hsame rfl rfl
  | setHolder l | clearHolder l | leave c | condBroadcast c | blocked | allocateTid t =>
    exact hsame rfl rfl
  | enqueue c =>
    have hinit : Joins w (w.semaInit (.waiter w.current)) := .of_readyList rfl rfl
    exact .inl (hinit.trans (.of_readyList rfl rfl))
  | signal c | broadcast c =>
    rw [perform, Routine.wp_modify]
    rcases w.condWaiters c <;> exact hsame rfl rfl
  | block =>
    rw [perform, Routine.wp_bind, Routine.wp_modify]
    refine (rotates_threadBlock _).mono fun _ w' h => .inr (Joins.rotates ?_ h)
    exact .of_readyList rfl rfl
  | yield =>
    rw [perform, Routine.wp_bind, Routine.wp_modify]
    refine (rotates_threadYield _).mono fun _ w' h => .inr (Joins.rotates ?_ h)
    exact .of_readyList rfl rfl
  | unblock t | unblockNew t =>
    rw [perform, Routine.wp_bind, Routine.wp_modify]
    refine (joins_threadUnblock t _).mono fun _ w' h => .inl (.trans ?_ h)
    exact .of_readyList rfl rfl
  | sleep untilsleep =>
    rw [perform, Routine.wp_bind, Routine.wp_get, Routine.wp_bind, Routine.wp_set]
    refine (progress_semaDown _ rest _).mono fun _ w' h => Joins.progress ?_ h
    exact .of_readyList rfl rfl
  | create t =>
    rw [perform, Routine.wp_modify]
    split_ifs <;> exact hsame rfl rfl
  | exit =>
    rw [perform, Routine.wp_bind, Routine.wp_modify]
    refine (rotates_schedule _).mono fun _ w' h => .inr (Joins.rotates ?_ h)
    exact .of_readyList rfl rfl
  | idle => exact (rotates_threadBlock w).mono fun _ w' h => .inr h

/-! ### Actions -/

/-- A timer interrupt. -/
def Action.isTick : Action → Bool
  | .tick _ => true
  | _ => false

/-- After a timer interrupt the time slice goes on, or the processor was given up. -/
def Ticks (w w' : State) : Prop :=
  w.readyList <+: w'.readyList ∧ w'.threadTicks = w.threadTicks + 1 ∧ w'.threadTicks < timeSlice ∨
    Rotates w w'

theorem ticks_threadTick (currentticks : Int) (w : State) :
    wp (threadTick currentticks) (fun _ w' => Ticks w w') (fun _ => True) w := by
  rw [threadTick, Routine.wp_bind, Routine.wp_get, Routine.wp_bind]
  refine (joins_wakeSleeping currentticks w.sleepingList w).mono fun _ w1 h1 => ?_
  rw [Routine.wp_bind, Routine.wp_modify, Routine.wp_bind, Routine.wp_get]
  split_ifs with hslice
  · refine (rotates_threadYield _).mono fun _ w' h => .inr (h1.rotates ⟨h.readyList, h.threadTicks⟩)
  · have hticks : w1.threadTicks + 1 < timeSlice := Nat.lt_of_not_le hslice
    refine .inl ⟨h1.readyList, ?_, hticks⟩
    show w1.threadTicks + 1 = w.threadTicks + 1
    rw [h1.threadTicks]

theorem progress_exec (a : Action) (w : State) : wp (exec lockOf a)
    (fun _ w' => if a.isTick then Ticks w w' else JoinsOrRotates w w') (fun _ => True) w := by
  cases a with
  | call c =>
    rw [exec, Routine.wp_modify, if_neg (by simp [Action.isTick])]
    split_ifs
    · exact .inl (.of_readyList rfl rfl)
    · exact .inl (.refl w)
  | run =>
    rw [exec, Routine.wp_bind, Routine.wp_get]
    rcases w.pending w.current with _ | ⟨i, rest⟩
    · exact .inl (.refl w)
    · exact progress_perform rest i w
  | tick currentticks => exact ticks_threadTick currentticks w
  | interruptUp n => exact (joins_semaUp _ w).mono fun _ w' h => .inl h
  | interruptTryDown n =>
    rw [exec, Routine.wp_bind, Routine.wp_get]
    exact (joins_semaTryDown _ _ _ w).mono fun _ w' h => .inl h
  | interruptUnblock t => exact (joins_threadUnblock t w).mono fun _ w' h => .inl h

/-! ### The wait of a ready thread -/

/-- The thread `t` has the processor, or is ready and has it before `bound` more timer interrupts. -/
def Served (t bound : Nat) (w : State) : Prop :=
  w.current = t ∨ ∃ k, w.readyList[k]? = some t ∧ timeSlice * (k + 1) ≤ w.threadTicks + bound

/-- A thread leaves the ready list at its head, where it is switched to. -/
theorem Rotates.served (h : Rotates w w') (hk : w.readyList[k]? = some t) {bound : Nat}
    (hbound : timeSlice * k ≤ bound) : Served t bound w' := by
  obtain ⟨ready, ⟨joined, rfl⟩, htail, hhead⟩ := h.readyList
  obtain ⟨hlt, -⟩ := List.getElem?_eq_some_iff.mp hk
  have hk' : (w.readyList ++ joined)[k]? = some t := by rw [List.getElem?_append_left hlt, hk]
  cases k with
  | zero =>
    rw [← List.head?_eq_getElem?] at hk'
    exact .inl (hhead t hk')
  | succ k =>
    refine .inr ⟨k, ?_, ?_⟩
    · rw [htail, List.getElem?_tail, hk']
    · rw [h.threadTicks, Nat.zero_add]
      exact hbound

theorem getElem?_prefix {xs ys : List Nat} (h : xs <+: ys) (hk : xs[k]? = some t) :
    ys[k]? = some t := by
  obtain ⟨zs, rfl⟩ := h
  obtain ⟨hlt, -⟩ := List.getElem?_eq_some_iff.mp hk
  rw [List.getElem?_append_left hlt, hk]

/-- The step lemma: a timer interrupt brings a ready thread nearer to the processor, and nothing
takes it farther away. -/
theorem served_step {bound : Nat} (hticks : w.threadTicks < timeSlice)
    (hk : w.readyList[k]? = some t) (hbound : timeSlice * (k + 1) ≤ w.threadTicks + bound)
    (hrun : exec lockOf a w = .ok (u, w')) :
    w'.threadTicks < timeSlice ∧ Served t (if a.isTick then bound - 1 else bound) w' := by
  have hstep := (@progress_exec lockOf a w).of_ok hrun
  have hrotates : Rotates w w' →
      w'.threadTicks < timeSlice ∧ Served t (if a.isTick then bound - 1 else bound) w' := by
    intro h
    refine ⟨h.threadTicks ▸ Nat.zero_lt_succ _, h.served hk ?_⟩
    unfold timeSlice at *
    split_ifs <;> omega
  split_ifs at hstep with htick
  · rcases hstep with ⟨hready, hnext, hslice⟩ | hstep
    · refine ⟨hslice, .inr ⟨k, getElem?_prefix hready hk, ?_⟩⟩
      rw [if_pos htick]
      unfold timeSlice at *
      omega
    · exact hrotates hstep
  · rcases hstep with hstep | hstep
    · refine ⟨hstep.threadTicks ▸ hticks, .inr ⟨k, getElem?_prefix hstep.readyList hk, ?_⟩⟩
      rw [if_neg htick, hstep.threadTicks]
      exact hbound
    · exact hrotates hstep

/-- The run lemma. -/
theorem served_of_run {actions : List Action} {as : List Unit} (hticks : w.threadTicks < timeSlice)
    (hserved : Served t (actions.countP Action.isTick) w)
    (hrun : Routine.execAll (exec lockOf) actions w = .ok (as, w')) :
    ∃ v, Routine.Visits (exec lockOf) actions w v ∧ v.current = t := by
  induction actions generalizing w as with
  | nil =>
    rcases hserved with hcurrent | ⟨k, -, hbound⟩
    · exact ⟨w, Routine.visits_start [] w, hcurrent⟩
    · unfold timeSlice at *
      rw [List.countP_nil] at hbound
      omega
  | cons a actions ih =>
    rcases hserved with hcurrent | ⟨k, hk, hbound⟩
    · exact ⟨w, Routine.visits_start _ w, hcurrent⟩
    · obtain ⟨u, w1, bs, hfirst, hrest, -⟩ := Routine.execAll_cons_ok.mp hrun
      obtain ⟨hticks1, hserved1⟩ := served_step hticks hk hbound hfirst
      have hcount : (if a.isTick then (a :: actions).countP Action.isTick - 1
          else (a :: actions).countP Action.isTick) = actions.countP Action.isTick := by
        rw [List.countP_cons]
        split_ifs <;> omega
      rw [hcount] at hserved1
      obtain ⟨v, hv, hcurrent⟩ := ih hticks1 hserved1 hrest
      exact ⟨v, (Routine.visits_cons_of_ok hfirst).mpr (.inr hv), hcurrent⟩

/-- Between actions a time slice is never used up. -/
theorem threadTicks_lt_of_visits {actions : List Action} {w0 : State}
    (h0 : w0.threadTicks < timeSlice) (hvisits : Routine.Visits (exec lockOf) actions w0 w) :
    w.threadTicks < timeSlice := by
  refine Routine.Visits.invariant (P := fun v => v.threadTicks < timeSlice)
    (fun v a u v' hv _ hrun => ?_) (fun _ _ _ => trivial) h0 hvisits
  have hstep := (@progress_exec lockOf a v).of_ok hrun
  have hrotates : Rotates v v' → v'.threadTicks < timeSlice := fun h =>
    h.threadTicks ▸ Nat.zero_lt_succ _
  split_ifs at hstep
  · exact hstep.elim (fun h => h.2.2) hrotates
  · exact hstep.elim (fun h => h.threadTicks ▸ hv) hrotates

end Threads

/-- A thread with `k` threads before it on the ready list gets the processor before `TIME_SLICE`
times `k + 1` timer interrupts have been counted from the begin of the current time slice, whatever
threads and interrupt handlers do in the meantime. -/
theorem ready_threads_take_turns (lockOf : Nat → Nat) (main idle : Nat)
    (idleStatus : Threads.ThreadStatus) (values : Nat → UInt32) (before after : List Threads.Action)
    (w : Threads.State) (hbefore : Routine.Visits (Threads.exec lockOf) before
      (Threads.started main idle idleStatus values) w) (k t : Nat)
    (hready : w.readyList[k]? = some t)
    (hticks : Threads.timeSlice * (k + 1) ≤
      w.threadTicks + after.countP Threads.Action.isTick)
    (hruns : ∃ r, Routine.execAll (Threads.exec lockOf) after w = .ok r) :
    ∃ v, Routine.Visits (Threads.exec lockOf) after w v ∧ v.current = t := by
  obtain ⟨⟨as, w'⟩, hrun⟩ := hruns
  exact Threads.served_of_run (Threads.threadTicks_lt_of_visits (Nat.zero_lt_succ _) hbefore)
    (.inr ⟨k, hready, hticks⟩) hrun

/-- The thread in page 2 starts two more, in the pages 3 and 4. -/
def startTwo : List Threads.Action :=
  .call (.threadCreate 3) :: List.replicate 10 .run ++
    .call (.threadCreate 4) :: List.replicate 10 .run

/-- The thread in page 4 runs within the next eight ticks, though the other two never yield. -/
theorem ready_threads_take_turns_second : ∃ w, Routine.Visits (Threads.exec id) startTwo
    (Threads.started 2 1 .blocked fun _ => 0) w ∧ ∃ v, Routine.Visits (Threads.exec id)
      (List.replicate 8 (.tick 0)) w v ∧ v.current = 4 := by
  have hboth : (match Routine.execAll (Threads.exec id) startTwo
      (Threads.started 2 1 .blocked fun _ => 0) with
    | .ok (_, w) => decide (w.readyList[1]? = some 4) &&
        (Routine.execAll (Threads.exec id) (List.replicate 8 (.tick 0)) w).toBool
    | .error _ => false) = true := by
    decide +kernel
  rcases hrun : Routine.execAll (Threads.exec id) startTwo
      (Threads.started 2 1 .blocked fun _ => 0) with f | ⟨as, w⟩
  · rw [hrun] at hboth
    cases hboth
  · rw [hrun] at hboth
    obtain ⟨hready, hruns⟩ := (Bool.and_eq_true _ _).mp hboth
    have hvisits : Routine.Visits (Threads.exec id) startTwo
        (Threads.started 2 1 .blocked fun _ => 0) w := ⟨_, [], as, (List.append_nil _).symm, hrun⟩
    exact ⟨w, hvisits, ready_threads_take_turns id 2 1 .blocked _ startTwo _ w hvisits 1 4
      (of_decide_eq_true hready) (Nat.le_add_left 8 _) (Routine.ok_of_toBool hruns)⟩

end Pintos
