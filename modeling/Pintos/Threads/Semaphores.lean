import Pintos.Threads.Scheduler
import Mathlib.Data.Finset.Card

/-! Semaphores count, and lose no wake-up.  A thread that was woken may find the value taken by
another; the threads that are still to look at the value are counted against it. -/

namespace Pintos

namespace Threads

open Routine (wp)

variable {w w' v : State} {s s' : Semaphore} {t l : Nat} {i : Instr} {rest is : List Instr}
  {lockOf : Nat → Nat} {allowed : Instr → State → Prop} {values : Nat → UInt32} {e : Event} {log : List Event}

/-- The value that a semaphore starts with. -/
def startValue (values : Nat → UInt32) : Semaphore → Int
  | .user n => (values n).toNat
  | .lock _ => 1
  | _ => 0

/-- What has happened since the last `sema_init` of a semaphore. -/
def sinceInit (s : Semaphore) (log : List Event) : List Event := log.takeWhile (· ≠ .init s)

/-- The initial value of a semaphore, plus the completed ups, minus the completed downs. -/
def balance (values : Nat → UInt32) (s : Semaphore) (log : List Event) : Int :=
  (if .init s ∈ log then 0 else startValue values s) + (sinceInit s log).count (.up s) -
    (sinceInit s log).count (.down s)

/-- The value of the semaphore has always been small enough for its type. -/
def Fits (values : Nat → UInt32) (s : Semaphore) (log : List Event) : Prop :=
  ∀ earlier, earlier <:+ log → balance values s earlier < 2 ^ 32

theorem Fits.tail (h : Fits values s (e :: log)) : Fits values s log := fun earlier hearlier =>
  h earlier (hearlier.trans (List.suffix_cons e log))

theorem balance_init : balance values s (.init s :: log) = 0 := by
  simp [balance, sinceInit]

theorem balance_cons (he : e ≠ .init s) : balance values s (e :: log) =
    balance values s log + (if e = .up s then 1 else 0) - (if e = .down s then 1 else 0) := by
  have hmem : .init s ∈ e :: log ↔ .init s ∈ log := by
    rw [List.mem_cons]
    exact or_iff_right he.symm
  have hsince : sinceInit s (e :: log) = e :: sinceInit s log := by
    simp [sinceInit, he]
  rw [balance, balance, hsince, List.count_cons, List.count_cons]
  simp only [hmem, beq_iff_eq]
  split_ifs <;> simp <;> omega

theorem balance_up (s s' : Semaphore) : balance values s (.up s' :: log) =
    balance values s log + if s' = s then 1 else 0 := by
  have hinit : Event.up s' ≠ .init s := nofun
  have hdown : Event.up s' ≠ .down s := nofun
  rw [balance_cons hinit, if_neg hdown]
  simp

theorem balance_down (s s' : Semaphore) : balance values s (.down s' :: log) =
    balance values s log - if s' = s then 1 else 0 := by
  have hinit : Event.down s' ≠ .init s := nofun
  have hup : Event.down s' ≠ .up s := nofun
  rw [balance_cons hinit, if_neg hup]
  simp

/-- An event that says nothing about the values of semaphores. -/
def Event.Plain : Event → Prop
  | .init _ | .up _ | .down _ => False
  | _ => True

theorem balance_plain (he : e.Plain) : balance values s (e :: log) = balance values s log := by
  rw [balance_cons (by rintro rfl; exact he), if_neg (by rintro rfl; exact he),
    if_neg (by rintro rfl; exact he)]
  omega

/-- The instructions that may stand behind another. -/
def Instr.IsEntry : Instr → Prop
  | .down _ | .acquire _ | .release _ | .leave _ | .broadcast _ | .allocateTid _
  | .unblockNew _ => True
  | _ => False

/-- Threads that were taken off a waiters list and have not looked at the value since. -/
def State.woken (w : State) (s : Semaphore) : Finset Nat :=
  w.allList.toFinset.filter fun t =>
    (w.pending t).head? = some (.recheck s) ∧ t ∉ w.waiters s

theorem mem_woken : t ∈ w.woken s ↔
    t ∈ w.allList ∧ (w.pending t).head? = some (.recheck s) ∧ t ∉ w.waiters s := by
  rw [State.woken, Finset.mem_filter, List.mem_toFinset]

/-- The values of semaphores are their balances, and no wake-up is lost. -/
structure Counts (values : Nat → UInt32) (w : State) : Prop where
  tails : ∀ t, ∀ i ∈ (w.pending t).tail, i.IsEntry
  modulo : ∀ s, (w.value s : Int) = balance values s w.log % 2 ^ 32
  value : ∀ s, Fits values s w.log → (w.value s : Int) = balance values s w.log
  wakeups : ∀ s, w.waiters s ≠ [] → w.value s ≤ (w.woken s).card

theorem Counts.congr (h : Counts values w) (hpending : v.pending = w.pending)
    (hvalue : v.value = w.value) (hwaiters : v.waiters = w.waiters)
    (hall : v.allList = w.allList) (hlog : v.log = w.log) : Counts values v := by
  have hwoken : ∀ s, v.woken s = w.woken s := fun s => by
    rw [State.woken, State.woken, hpending, hwaiters, hall]
  constructor
  · rw [hpending]
    exact h.tails
  · rw [hvalue, hlog]
    exact h.modulo
  · rw [hvalue, hlog]
    exact h.value
  · intro s
    rw [hwaiters, hvalue, hwoken]
    exact h.wakeups s

theorem Counts.of_same (h : Counts values w) (hdata : SameData w w') : Counts values w' :=
  h.congr hdata.pending hdata.value hdata.waiters hdata.allList hdata.log

/-- Something else happens. -/
theorem Counts.happens (h : Counts values w) (he : e.Plain) : Counts values (w.happens e) := by
  refine ⟨h.tails, fun s => ?_, fun s hfits => ?_, h.wakeups⟩
  · rw [State.happens_log, balance_plain he]
    exact h.modulo s
  · rw [State.happens_log, balance_plain he]
    exact h.value s hfits.tail

/-- Entries stay behind the first instruction. -/
theorem Counts.entries (h : Counts values w) (hnext : w.pending t = i :: rest) :
    ∀ j ∈ rest, j.IsEntry := fun j hj => h.tails t j (by rw [hnext]; exact hj)

theorem entries_head (h : ∀ j ∈ rest, j.IsEntry) (hi : ¬ i.IsEntry) : rest.head? ≠ some i :=
  fun hhead => hi (h i (List.mem_of_head? hhead))

theorem entries_tail (h : ∀ j ∈ rest, j.IsEntry) : ∀ j ∈ rest.tail, j.IsEntry :=
  fun j hj => h j (List.mem_of_mem_tail hj)

theorem Counts.tails_setPending (h : Counts values w) (htail : ∀ j ∈ is.tail, j.IsEntry) (t : Nat) :
    ∀ j ∈ (Function.update w.pending w.current is t).tail, j.IsEntry := by
  rw [Function.update_apply]
  split_ifs
  · exact htail
  · exact h.tails t

/-- The current thread has other instructions to execute, and has looked at no semaphore; other
threads may appear. -/
theorem Counts.setThreads (h : Counts values w)
    (hi : ∀ s, (w.pending w.current).head? ≠ some (.recheck s))
    (htail : ∀ j ∈ is.tail, j.IsEntry) {all : List Nat}
    (hall : ∀ t ∈ w.allList, t ≠ w.current → t ∈ all) :
    Counts values { w.setPending w.current is with allList := all } := by
  refine ⟨h.tails_setPending htail, h.modulo, h.value, fun s hs => ?_⟩
  refine Nat.le_trans (h.wakeups s hs) (Finset.card_le_card fun t ht => ?_)
  rw [mem_woken] at ht ⊢
  obtain ⟨hmem, hhead, hnot⟩ := ht
  have hne : t ≠ w.current := by
    rintro rfl
    exact hi s hhead
  refine ⟨hall t hmem hne, ?_, hnot⟩
  show (Function.update w.pending w.current is t).head? = _
  rw [Function.update_of_ne hne]
  exact hhead

theorem Counts.setPending (h : Counts values w)
    (hi : ∀ s, (w.pending w.current).head? ≠ some (.recheck s))
    (htail : ∀ j ∈ is.tail, j.IsEntry) : Counts values (w.setPending w.current is) :=
  h.setThreads hi htail fun _ ht _ => ht

/-- `sema_up`. -/
theorem Counts.upped (h : Counts values w) (hscheduled : Scheduled w) (s : Semaphore) :
    Counts values (w.upped s) := by
  have hvalue : (w.upped s).value = Function.update w.value s ((w.value s + 1) % 2 ^ 32) := rfl
  have hwaiters : (w.upped s).waiters = Function.update w.waiters s (w.waiters s).tail := rfl
  have hlog : (w.upped s).log = .up s :: w.log := rfl
  refine ⟨h.tails, fun s' => ?_, fun s' hfits => ?_, fun s' hs => ?_⟩
  · have hold := h.modulo s'
    rw [hlog, balance_up, hvalue]
    by_cases hss : s' = s
    · subst hss
      rw [Function.update_self, if_pos rfl]
      omega
    · rw [Function.update_of_ne hss, if_neg fun heq => hss heq.symm]
      omega
  · have hold := h.value s' hfits.tail
    have hbound := hfits _ List.suffix_rfl
    rw [hlog, balance_up] at hbound ⊢
    rw [hvalue]
    by_cases hss : s' = s
    · subst hss
      rw [Function.update_self, if_pos rfl] at *
      omega
    · rw [Function.update_of_ne hss, if_neg fun heq => hss heq.symm]
      omega
  · rw [hwaiters] at hs
    rw [hvalue]
    by_cases hss : s' = s
    · subst hss
      rw [Function.update_self] at hs ⊢
      rcases hlist : w.waiters s' with _ | ⟨t, ts⟩
      · rw [hlist] at hs
        exact absurd rfl hs
      -- the first waiter is woken
      have ht : t ∈ w.waiters s' := hlist ▸ List.mem_cons_self
      have hnodup := hscheduled.waitersNodup s'
      rw [hlist, List.nodup_cons] at hnodup
      have htail : (w.upped s').waiters s' = ts := by
        rw [hwaiters, Function.update_self, hlist, List.tail_cons]
      have hnot : t ∉ w.woken s' := fun hmem => (mem_woken.mp hmem).2.2 ht
      have hsub : insert t (w.woken s') ⊆ (w.upped s').woken s' := by
        intro u hu
        rw [mem_woken, htail]
        rcases Finset.mem_insert.mp hu with rfl | hu
        · exact ⟨hscheduled.waiting_mem ht, (hscheduled.waiting s' u ht).2, hnodup.1⟩
        · obtain ⟨hall, hhead, hnot⟩ := mem_woken.mp hu
          refine ⟨hall, hhead, fun hmem => hnot ?_⟩
          rw [hlist]
          exact List.mem_cons_of_mem _ hmem
      have hcard := Finset.card_le_card hsub
      rw [Finset.card_insert_of_notMem hnot] at hcard
      have hold := h.wakeups s' (by rw [hlist]; nofun)
      have := Nat.mod_le (w.value s' + 1) (2 ^ 32)
      omega
    · rw [Function.update_of_ne hss] at hs ⊢
      have hwoken : (w.upped s).woken s' = w.woken s' := by
        rw [State.woken, State.woken, hwaiters, Function.update_of_ne hss]
        rfl
      rw [hwoken]
      exact h.wakeups s' hs

/-- The current thread takes a semaphore, perhaps after a wake-up. -/
theorem Counts.took (h : Counts values w) (hpos : 0 < w.value s)
    (hkeep : ∀ s', (w.pending w.current).head? = some (.recheck s') →
      s' = s ∨ is.head? = some (.recheck s'))
    (htail : ∀ j ∈ is.tail, j.IsEntry) : Counts values (w.took s is) := by
  have hvalue : (w.took s is).value = Function.update w.value s (w.value s - 1) := rfl
  have hpending : (w.took s is).pending = Function.update w.pending w.current is := rfl
  have hothers : ∀ s' t, t ∈ w.woken s' → t ≠ w.current ∨ s' ≠ s → t ∈ (w.took s is).woken s' := by
    intro s' t ht hor
    obtain ⟨hall, hhead, hnot⟩ := mem_woken.mp ht
    refine mem_woken.mpr ⟨hall, ?_, hnot⟩
    rw [hpending, Function.update_apply]
    split_ifs with hcur
    · subst hcur
      refine (hkeep s' hhead).resolve_left ?_
      exact hor.resolve_left fun hne => hne rfl
    · exact hhead
  have hlog : (w.took s is).log = .down s :: w.log := rfl
  refine ⟨h.tails_setPending htail, fun s' => ?_, fun s' hfits => ?_, fun s' hs => ?_⟩
  · have hold := h.modulo s'
    rw [hlog, balance_down, hvalue]
    by_cases hss : s' = s
    · subst hss
      rw [Function.update_self, if_pos rfl]
      omega
    · rw [Function.update_of_ne hss, if_neg fun heq => hss heq.symm]
      omega
  · have hold := h.value s' hfits.tail
    rw [hlog, balance_down, hvalue]
    by_cases hss : s' = s
    · subst hss
      rw [Function.update_self, if_pos rfl]
      omega
    · rw [Function.update_of_ne hss, if_neg fun heq => hss heq.symm]
      omega
  · have hold := h.wakeups s' hs
    rw [hvalue]
    by_cases hss : s' = s
    · subst hss
      have hsub : (w.woken s').erase w.current ⊆ (w.took s' is).woken s' := fun t ht =>
        hothers s' t (Finset.mem_of_mem_erase ht) (.inl (Finset.ne_of_mem_erase ht))
      have hcard := Finset.card_le_card hsub
      have := Finset.pred_card_le_card_erase (s := w.woken s') (a := w.current)
      rw [Function.update_self]
      omega
    · rw [Function.update_of_ne hss]
      exact Nat.le_trans hold (Finset.card_le_card fun t ht => hothers s' t ht (.inr hss))

/-- The current thread waits for a semaphore, again or for the first time. -/
theorem Counts.waited (h : Counts values w) (hzero : w.value s = 0)
    (hhead : ∀ s', (w.pending w.current).head? = some (.recheck s') → s' = s)
    (htail : ∀ j ∈ rest, j.IsEntry) : Counts values (w.waited s rest) := by
  have hwaiters : (w.waited s rest).waiters =
      Function.update w.waiters s (w.waiters s ++ [w.current]) := rfl
  have hpending : (w.waited s rest).pending =
      Function.update w.pending w.current (.recheck s :: rest) := rfl
  refine ⟨h.tails_setPending htail, h.modulo, h.value, fun s' hs => ?_⟩
  show w.value s' ≤ _
  by_cases hss : s' = s
  · subst hss
    rw [hzero]
    exact Nat.zero_le _
  rw [hwaiters, Function.update_of_ne hss] at hs
  refine Nat.le_trans (h.wakeups s' hs) (Finset.card_le_card fun t ht => ?_)
  obtain ⟨hall, hthead, hnot⟩ := mem_woken.mp ht
  refine mem_woken.mpr ⟨hall, ?_, ?_⟩
  · rw [hpending, Function.update_of_ne]
    · exact hthead
    · rintro rfl
      exact hss (hhead s' hthead)
  · rw [hwaiters, Function.update_of_ne hss]
    exact hnot

/-- `sema_init`. -/
theorem Counts.semaInit (h : Counts values w) (s : Semaphore) : Counts values (w.semaInit s) := by
  have hvalue : (w.semaInit s).value = Function.update w.value s 0 := rfl
  have hwaiters : (w.semaInit s).waiters = Function.update w.waiters s [] := rfl
  have hlog : (w.semaInit s).log = .init s :: w.log := rfl
  have hothers : ∀ s' ≠ s, balance values s' (.init s :: w.log) = balance values s' w.log := by
    intro s' hss
    have hne : Event.init s ≠ .init s' := fun heq => hss (by cases heq; rfl)
    rw [balance_cons hne, if_neg nofun, if_neg nofun]
    omega
  refine ⟨h.tails, fun s' => ?_, fun s' hfits => ?_, fun s' hs => ?_⟩
  · rw [hlog, hvalue]
    by_cases hss : s' = s
    · subst hss
      rw [Function.update_self, balance_init]
      rfl
    · rw [Function.update_of_ne hss, hothers s' hss, h.modulo s']
  · rw [hlog, hvalue]
    by_cases hss : s' = s
    · subst hss
      rw [Function.update_self, balance_init]
      rfl
    · rw [Function.update_of_ne hss, hothers s' hss, h.value s' hfits.tail]
  · rw [hwaiters] at hs
    by_cases hss : s' = s
    · subst hss
      rw [Function.update_self] at hs
      exact absurd rfl hs
    · rw [Function.update_of_ne hss] at hs
      have hwoken : (w.semaInit s).woken s' = w.woken s' := by
        rw [State.woken, State.woken, hwaiters, Function.update_of_ne hss]
        rfl
      rw [hvalue, Function.update_of_ne hss, hwoken]
      exact h.wakeups s' hs

/-- An instruction of the current thread. -/
theorem Counts.effect (h : Counts values w) (hscheduled : Scheduled w)
    (hnext : w.pending w.current = i :: rest) (heffect : Effect lockOf w rest i v) :
    Counts values v := by
  have hrest := h.entries hnext
  have htail := entries_tail hrest
  have hhead : ∀ s, i ≠ .recheck s → (w.pending w.current).head? ≠ some (.recheck s) := by
    intro s hi
    rw [hnext]
    exact fun heq => hi (Option.some.inj heq)
  have hdown : ∀ {s s'}, i = .down s ∨ i = .recheck s →
      (w.pending w.current).head? = some (.recheck s') → s' = s := by
    intro s s' hi heq
    rw [hnext, List.head?_cons, Option.some.injEq] at heq
    subst heq
    rcases hi with hi | hi <;> cases hi
    rfl
  have hset : ∀ is, (∀ s, i ≠ .recheck s) → (∀ j ∈ is.tail, j.IsEntry) →
      Counts values (w.setPending w.current is) :=
    fun is hi his => h.setPending (fun s => hhead s (hi s)) his
  cases heffect with
  | wait hi hzero => exact h.waited hzero (fun s' => hdown hi) hrest
  | @take _ s hi hpos =>
    refine h.took hpos (fun s' hs' => .inl (hdown hi hs')) ?_
    cases s with
    | lock l => exact hrest
    | _ => exact htail
  | up s => exact (hset rest nofun htail).upped (hscheduled.pops hnext nofun) s
  | tryDown hpos => exact h.took hpos (fun s' hs' => absurd hs' (hhead s' nofun)) htail
  | tryLock hpos => exact h.took hpos (fun s' hs' => absurd hs' (hhead s' nofun)) hrest
  | fail hi =>
    refine hset rest (fun s => ?_) htail
    rcases hi with ⟨n, rfl⟩ | ⟨l, rfl⟩ <;> nofun
  | goOn hi =>
    refine hset rest (fun s => ?_) htail
    rcases hi with rfl | rfl | ⟨t, rfl⟩ | ⟨t, rfl⟩ | ⟨t, rfl⟩ | ⟨t, rfl⟩ <;> nofun
  | acquire | tryAcquire | release | condWait | condSignal | block => exact hset _ nofun hrest
  | broadcast =>
    refine hset _ nofun fun j hj => ?_
    rcases List.mem_cons.mp hj with rfl | hj
    · trivial
    · exact hrest j hj
  | setHolder | leave | signalNone | broadcastEnd =>
    exact Counts.happens ((hset rest nofun htail).congr rfl rfl rfl rfl rfl) trivial
  | clearHolder l =>
    exact Counts.happens ((hset (.up (.lock l) :: rest) nofun hrest).congr rfl rfl rfl rfl rfl)
      trivial
  | @signal c t ts hlist =>
    exact Counts.happens ((hset (.up (.waiter t) :: rest) nofun hrest).congr rfl rfl rfl rfl rfl)
      trivial
  | condBroadcast c => exact Counts.happens (hset (.broadcast c :: rest) nofun hrest) trivial
  | enqueue c =>
    have hentries : ∀ j ∈ [Instr.down (.waiter w.current), .acquire (lockOf c), .leave c] ++ rest,
        j.IsEntry := by
      intro j hj
      rcases List.mem_append.mp hj with hj | hj
      · simp only [List.mem_cons, List.not_mem_nil, or_false] at hj
        rcases hj with rfl | rfl | rfl <;> trivial
      · exact hrest j hj
    have h1 := h.semaInit (.waiter w.current)
    have h2 : Counts values ((w.semaInit (.waiter w.current)).setPending w.current
        (.release (lockOf c) :: .down (.waiter w.current) :: .acquire (lockOf c) :: .leave c ::
          rest)) := h1.setPending (fun s => hhead s nofun) hentries
    exact Counts.happens (h2.congr rfl rfl rfl rfl rfl) trivial
  | sleep untilsleep =>
    have h1 := h.semaInit (.sleep w.current)
    exact h1.waited (Function.update_self ..) (fun s' hs' => absurd hs' (hhead s' nofun)) hrest
  | create hnone =>
    refine h.setThreads (fun s => hhead s nofun) (fun j hj => ?_) fun t ht _ =>
      List.mem_append_left _ ht
    simp only [List.tail_cons, List.mem_cons] at hj
    rcases hj with rfl | rfl | rfl | hj
    · trivial
    · trivial
    · trivial
    · exact hrest j hj
  | exit =>
    exact h.setThreads (fun s => hhead s nofun) (by simp) fun t ht hne =>
      (List.mem_erase_of_ne hne).mpr ht
  | idle => exact h

theorem Counts.turn (h : Counts values w) (hscheduled : Scheduled w) (hturn : Turn lockOf allowed w v) :
    Counts values v := by
  cases hturn with
  | call c hnil => exact h.setPending (by rw [hnil]; nofun) (by simp)
  | same => exact h
  | run hnext _ heffect => exact h.effect hscheduled hnext heffect
  | up hs => exact h.upped hscheduled _
  | tryDown hpos => exact h.took hpos (fun s' hs' => .inr hs') (h.tails w.current)

/-! ### Locks -/

/-- `t` has acquired lock `l` and has not released it. -/
def Holding (l t : Nat) (log : List Event) : Prop :=
  (log.find? fun e => e = .acquired l t ∨ e = .released l t) = some (.acquired l t)

instance : Decidable (Holding l t log) := inferInstanceAs (Decidable (_ = _))

/-- Between taking the semaphore of lock `l` and setting the holder, or between clearing the holder
and giving the semaphore back. -/
def State.between (w : State) (l t : Nat) : Prop :=
  (w.pending t).head? = some (.setHolder l) ∨ (w.pending t).head? = some (.up (.lock l))

/-- Lock `l` is free, or `owner` has it. -/
structure Owned (l : Nat) (w : State) (owner : Option Nat) : Prop where
  value : w.value (.lock l) = if owner = none then 1 else 0
  between : ∀ t, w.between l t → owner = some t ∧ w.holder l = none
  held : ∀ t, w.holder l = some t → owner = some t
  clearing : ∀ t, (w.pending t).head? = some (.clearHolder l) → w.holder l = some t
  holding : ∀ t, Holding l t w.log ↔ w.holder l = some t

/-- Every lock is free or has an owner. -/
def Locks (w : State) : Prop := ∀ l, ∃ owner, Owned l w owner

theorem Owned.congr {owner : Option Nat} (h : Owned l w owner) (hpending : v.pending = w.pending)
    (hvalue : v.value (.lock l) = w.value (.lock l)) (hholder : v.holder l = w.holder l)
    (hholding : ∀ t, Holding l t v.log ↔ Holding l t w.log) : Owned l v owner := by
  have hbetween : ∀ t, v.between l t ↔ w.between l t := fun t => by
    rw [State.between, State.between, hpending]
  constructor
  · rw [hvalue]
    exact h.value
  · simp only [hbetween, hholder]
    exact h.between
  · rw [hholder]
    exact h.held
  · rw [hpending, hholder]
    exact h.clearing
  · simp only [hholding, hholder]
    exact h.holding

theorem Locks.of_same (h : Locks w) (hdata : SameData w w') : Locks w' := fun l =>
  let ⟨owner, howned⟩ := h l
  ⟨owner, howned.congr hdata.pending (congrFun hdata.value _) (congrFun hdata.holder _)
    fun t => by rw [hdata.log]⟩

/-- An event that says nothing about who has lock `l`. -/
def Event.Apart (l : Nat) : Event → Prop
  | .acquired l' _ | .released l' _ => l' ≠ l
  | _ => True

theorem holding_cons (he : e.Apart l) : Holding l t (e :: log) ↔ Holding l t log := by
  rw [Holding, Holding, List.find?_cons_of_neg]
  simp only [decide_eq_true_eq]
  rintro (rfl | rfl) <;> exact he rfl

/-- The current thread may go on with an instruction that does not concern lock `l`, or with the
release of lock `l` if it holds it. -/
def Instr.Apart (l : Nat) (w : State) : Instr → Prop
  | .setHolder l' => l' ≠ l
  | .up s => s ≠ .lock l
  | .clearHolder l' => l' = l → w.holder l = some w.current
  | _ => True

theorem Instr.IsEntry.apart (h : i.IsEntry) (l : Nat) (w : State) : i.Apart l w := by
  cases i <;> trivial

theorem entries_apart (h : ∀ j ∈ rest, j.IsEntry) (l : Nat) (w : State) :
    ∀ j, rest.head? = some j → j.Apart l w := fun j hj => (h j (List.mem_of_head? hj)).apart l w

/-- Another thread is about to execute what is never an entry. -/
theorem head_elsewhere (hpending : v.pending = Function.update w.pending w.current rest)
    (hrest : ∀ j ∈ rest, j.IsEntry) (ht : (v.pending t).head? = some i) (hi : ¬ i.IsEntry) :
    t ≠ w.current ∧ (w.pending t).head? = some i := by
  rw [hpending, Function.update_apply] at ht
  split_ifs at ht with hcur
  · exact absurd ht (entries_head hrest hi)
  · exact ⟨hcur, ht⟩

/-- The current thread goes on, and leaves lock `l` alone. -/
theorem Owned.goes {owner : Option Nat} (h : Owned l w owner)
    (hpending : v.pending = Function.update w.pending w.current is)
    (hhead : ∀ j, is.head? = some j → j.Apart l w)
    (hvalue : v.value (.lock l) = w.value (.lock l)) (hholder : v.holder l = w.holder l)
    (hholding : ∀ t, Holding l t v.log ↔ Holding l t w.log) : Owned l v owner := by
  have hold : ∀ j t, (v.pending t).head? = some j → (w.pending t).head? = some j ∨
      t = w.current ∧ j.Apart l w := by
    intro j t hj
    rw [hpending, Function.update_apply] at hj
    split_ifs at hj with ht
    · exact .inr ⟨ht, hhead j hj⟩
    · exact .inl hj
  refine ⟨hvalue.trans h.value, fun t ht => ?_, fun t ht => h.held t (hholder ▸ ht),
    fun t ht => ?_, fun t => (hholding t).trans (hholder ▸ h.holding t)⟩
  · rw [hholder]
    rcases ht with ht | ht
    · rcases hold _ t ht with ht | ⟨-, hapart⟩
      · exact h.between t (.inl ht)
      · exact absurd rfl hapart
    · rcases hold _ t ht with ht | ⟨-, hapart⟩
      · exact h.between t (.inr ht)
      · exact absurd rfl hapart
  · rw [hholder]
    rcases hold _ t ht with ht | ⟨rfl, hapart⟩
    · exact h.clearing t ht
    · exact hapart rfl

/-- Lock `l` is free if its semaphore can be taken. -/
theorem Owned.free {owner : Option Nat} (h : Owned l w owner) (hpos : 0 < w.value (.lock l)) :
    owner = none := by
  by_contra hne
  rw [h.value, if_neg hne] at hpos
  exact absurd hpos (Nat.lt_irrefl 0)

theorem Owned.not_held (h : Owned l w none) : w.holder l = none := by
  rcases hholder : w.holder l with _ | t
  · rfl
  · nomatch h.held t hholder

/-- Nobody is about to take or to give back lock `l` once its owner has gone on. -/
theorem Owned.not_between {owner : Option Nat} (h : Owned l w owner)
    (howner : owner = some w.current)
    (hpending : v.pending = Function.update w.pending w.current rest)
    (hrest : ∀ j ∈ rest, j.IsEntry) : ¬ v.between l t := by
  have hnot : t ≠ w.current → ¬ w.between l t := fun hne ht => by
    rw [howner] at h
    exact hne (Option.some.inj (h.between t ht).1).symm
  rintro (ht | ht)
  · obtain ⟨hne, ht⟩ := head_elsewhere hpending hrest ht not_false
    exact hnot hne (.inl ht)
  · obtain ⟨hne, ht⟩ := head_elsewhere hpending hrest ht not_false
    exact hnot hne (.inr ht)

/-- The current thread takes the semaphore of lock `l`. -/
theorem Owned.takes (h : Owned l w none) :
    Owned l (w.took (.lock l) (.setHolder l :: rest)) (some w.current) := by
  have hpending : (w.took (.lock l) (.setHolder l :: rest)).pending =
      Function.update w.pending w.current (.setHolder l :: rest) := rfl
  have hvalue : w.value (.lock l) = 1 := by rw [h.value, if_pos rfl]
  have hapart : (Event.down (.lock l)).Apart l := trivial
  refine ⟨?_, fun t ht => ?_, fun t ht => ?_, fun t ht => ?_,
    fun t => (holding_cons hapart).trans (h.holding t)⟩
  · show Function.update w.value (.lock l) (w.value (.lock l) - 1) (.lock l) = _
    rw [Function.update_self, hvalue, if_neg nofun]
  · refine ⟨?_, h.not_held⟩
    by_contra hne
    have hother : t ≠ w.current := fun heq => hne (by rw [heq])
    rw [State.between, hpending, Function.update_of_ne hother] at ht
    nomatch (h.between t ht).1
  · nomatch h.held t ht
  · rw [hpending, Function.update_apply] at ht
    split_ifs at ht
    · simp at ht
    · exact h.clearing t ht

/-- The current thread, which has just taken the semaphore of lock `l`, becomes its holder. -/
theorem Owned.acquires {owner : Option Nat} (h : Owned l w owner)
    (hnext : w.pending w.current = .setHolder l :: rest) (hrest : ∀ j ∈ rest, j.IsEntry) :
    Owned l (((w.setHolder l (some w.current)).setPending w.current rest).happens
      (.acquired l w.current)) owner := by
  obtain ⟨howner, hnone⟩ := h.between w.current (.inl (by rw [hnext]; rfl))
  generalize hv : ((w.setHolder l (some w.current)).setPending w.current rest).happens
    (.acquired l w.current) = v
  have hpending : v.pending = Function.update w.pending w.current rest := by rw [← hv]; rfl
  have hholder : v.holder l = some w.current := by
    rw [← hv]
    exact Function.update_self ..
  refine ⟨?_, fun t ht => ?_, fun t ht => ?_, fun t ht => ?_, fun t => ?_⟩
  · rw [← hv]
    exact h.value
  · exact absurd ht (h.not_between howner hpending hrest)
  · rw [hholder] at ht
    rw [howner, ht]
  · obtain ⟨-, ht⟩ := head_elsewhere hpending hrest ht not_false
    have := h.clearing t ht
    rw [hnone] at this
    nomatch this
  · have hlog : v.log = .acquired l w.current :: w.log := by rw [← hv]; rfl
    rw [hlog, hholder]
    by_cases ht : t = w.current
    · subst ht
      simp [Holding]
    · have hne : ¬ some w.current = some t := fun heq => ht (Option.some.inj heq).symm
      refine iff_of_false (fun hholding => ?_) hne
      rw [Holding, List.find?_cons_of_neg] at hholding
      · have := (h.holding t).mp hholding
        rw [hnone] at this
        nomatch this
      · have hne' : ¬ w.current = t := fun heq => ht heq.symm
        simp [hne']

/-- The current thread, which releases lock `l`, is no longer its holder. -/
theorem Owned.clears {owner : Option Nat} (h : Owned l w owner)
    (hnext : w.pending w.current = .clearHolder l :: rest) :
    Owned l (((w.setHolder l none).setPending w.current (.up (.lock l) :: rest)).happens
      (.released l w.current)) owner := by
  have hcur : w.holder l = some w.current := h.clearing w.current (by rw [hnext]; rfl)
  have howner := h.held w.current hcur
  have hnot : ∀ t, ¬ w.between l t := fun t ht => by
    have := (h.between t ht).2
    rw [hcur] at this
    nomatch this
  generalize hv : ((w.setHolder l none).setPending w.current (.up (.lock l) :: rest)).happens
    (.released l w.current) = v
  have hpending : v.pending = Function.update w.pending w.current (.up (.lock l) :: rest) := by
    rw [← hv]
    rfl
  have hholder : v.holder l = none := by
    rw [← hv]
    exact Function.update_self ..
  refine ⟨?_, fun t ht => ⟨?_, hholder⟩, fun t ht => ?_, fun t ht => ?_, fun t => ?_⟩
  · rw [← hv]
    exact h.value
  · by_cases ht' : t = w.current
    · rw [howner, ht']
    · rw [State.between, hpending, Function.update_of_ne ht'] at ht
      exact absurd ht (hnot t)
  · rw [hholder] at ht
    nomatch ht
  · rw [hpending, Function.update_apply] at ht
    split_ifs at ht with ht'
    · simp at ht
    · have := h.clearing t ht
      rw [hcur] at this
      exact absurd (Option.some.inj this).symm ht'
  · have hlog : v.log = .released l w.current :: w.log := by rw [← hv]; rfl
    rw [hlog, hholder]
    refine iff_of_false (fun hholding => ?_) nofun
    by_cases ht : w.current = t
    · subst ht
      simp [Holding] at hholding
    · rw [Holding, List.find?_cons_of_neg (by simp [ht])] at hholding
      have := (h.holding t).mp hholding
      rw [hcur] at this
      exact ht (Option.some.inj this)

/-- The current thread gives the semaphore of lock `l` back. -/
theorem Owned.gives {owner : Option Nat} (h : Owned l w owner)
    (hnext : w.pending w.current = .up (.lock l) :: rest) (hrest : ∀ j ∈ rest, j.IsEntry) :
    Owned l ((w.setPending w.current rest).upped (.lock l)) none := by
  obtain ⟨howner, hnone⟩ := h.between w.current (.inr (by rw [hnext]; rfl))
  have hpending : ((w.setPending w.current rest).upped (.lock l)).pending =
      Function.update w.pending w.current rest := rfl
  have hvalue : w.value (.lock l) = 0 := by rw [h.value, howner, if_neg nofun]
  have hapart : (Event.up (.lock l)).Apart l := trivial
  refine ⟨?_, fun t ht => ?_, fun t ht => ?_, fun t ht => ?_,
    fun t => (holding_cons hapart).trans (h.holding t)⟩
  · show Function.update w.value (.lock l) ((w.value (.lock l) + 1) % 2 ^ 32) (.lock l) = 1
    rw [Function.update_self]
    omega
  · exact absurd ht (h.not_between howner hpending hrest)
  · replace ht : w.holder l = some t := ht
    rw [hnone] at ht
    nomatch ht
  · obtain ⟨-, ht⟩ := head_elsewhere hpending hrest ht not_false
    exact h.clearing t ht

/-- An instruction of the current thread. -/
theorem Locks.effect (h : Locks w) (hrest : ∀ j ∈ rest, j.IsEntry)
    (hnext : w.pending w.current = i :: rest) (heffect : Effect lockOf w rest i v) : Locks v := by
  intro l
  obtain ⟨owner, howned⟩ := h l
  have hentries := entries_apart hrest l w
  have hhead : ∀ j is, Instr.Apart l w j → ∀ j', (j :: is).head? = some j' → j'.Apart l w := by
    rintro j is hj _ ⟨⟩
    exact hj
  have htake : ∀ s is, 0 < w.value s → (s = .lock l → is = .setHolder l :: rest) →
      (s ≠ .lock l → ∀ j, is.head? = some j → j.Apart l w) →
      ∃ owner, Owned l (w.took s is) owner := by
    intro s is hpos hlock hother
    by_cases hs : s = .lock l
    · rw [hlock hs, hs]
      rw [hs] at hpos
      rw [howned.free hpos] at howned
      exact ⟨some w.current, howned.takes⟩
    · have hapart : (Event.down s).Apart l := trivial
      exact ⟨owner, howned.goes rfl (hother hs) (Function.update_of_ne (Ne.symm hs) ..) rfl
        fun t => holding_cons hapart⟩
  have hgo : ∀ is, (∀ j, is.head? = some j → j.Apart l w) →
      Owned l (w.setPending w.current is) owner :=
    fun is his => howned.goes rfl his rfl rfl fun _ => Iff.rfl
  cases heffect with
  | @wait _ s hi hzero =>
    exact ⟨owner, howned.goes rfl (hhead (.recheck s) rest trivial) rfl rfl fun _ => Iff.rfl⟩
  | @take _ s hi hpos =>
    refine htake s _ hpos (fun hs => by rw [hs]; rfl) fun hs => ?_
    cases s with
    | lock l' => exact hhead (.setHolder l') rest fun heq => hs (by rw [heq])
    | _ => exact hentries
  | up s =>
    by_cases hs : s = .lock l
    · subst hs
      exact ⟨none, howned.gives hnext hrest⟩
    · have hapart : (Event.up s).Apart l := trivial
      exact ⟨owner, howned.goes rfl hentries (Function.update_of_ne (Ne.symm hs) ..) rfl
        fun t => holding_cons hapart⟩
  | @tryDown n hpos => exact htake (.user n) rest hpos nofun fun _ => hentries
  | @tryLock l' hpos =>
    refine htake (.lock l') _ hpos (fun hs => by cases hs; rfl) fun hs => ?_
    exact hhead (.setHolder l') rest fun heq => hs (by rw [heq])
  | @setHolder l' =>
    by_cases hl : l' = l
    · subst hl
      exact ⟨owner, howned.acquires hnext hrest⟩
    · have hapart : (Event.acquired l' w.current).Apart l := hl
      exact ⟨owner, howned.goes rfl hentries rfl (Function.update_of_ne (Ne.symm hl) ..)
        fun t => holding_cons hapart⟩
  | @clearHolder l' =>
    by_cases hl : l' = l
    · subst hl
      exact ⟨owner, howned.clears hnext⟩
    · have hapart : (Event.released l' w.current).Apart l := hl
      have hup : Semaphore.lock l' ≠ .lock l := fun heq => hl (by cases heq; rfl)
      exact ⟨owner, howned.goes rfl (hhead (.up (.lock l')) rest hup) rfl
        (Function.update_of_ne (Ne.symm hl) ..) fun t => holding_cons hapart⟩
  | @release l' hheld =>
    refine ⟨owner, hgo (.clearHolder l' :: rest) (hhead _ rest ?_)⟩
    rintro rfl
    exact hheld
  | fail | goOn => exact ⟨owner, hgo rest hentries⟩
  | acquire | tryAcquire | condWait | condSignal | broadcast | block =>
    exact ⟨owner, hgo _ (hhead _ _ trivial)⟩
  | leave c =>
    have hapart : (Event.left c w.current (w.holder (lockOf c))).Apart l := trivial
    exact ⟨owner, howned.goes rfl hentries rfl rfl fun t => holding_cons hapart⟩
  | @signalNone c hnil =>
    have hapart : (Event.signal c none).Apart l := trivial
    exact ⟨owner, howned.goes rfl hentries rfl rfl fun t => holding_cons hapart⟩
  | @signal c u ts hlist =>
    have hapart : (Event.signal c (some u)).Apart l := trivial
    exact ⟨owner, howned.goes rfl (hhead (.up (.waiter u)) rest nofun) rfl rfl
      fun t => holding_cons hapart⟩
  | condBroadcast c =>
    have hapart : (Event.broadcast c).Apart l := trivial
    exact ⟨owner, howned.goes rfl (hhead (.broadcast c) rest trivial) rfl rfl
      fun t => holding_cons hapart⟩
  | @broadcastEnd c hnil =>
    have hapart : (Event.broadcastEnd c).Apart l := trivial
    exact ⟨owner, howned.goes rfl hentries rfl rfl fun t => holding_cons hapart⟩
  | enqueue c =>
    have hinit : (Event.init (.waiter w.current)).Apart l := trivial
    have hbegan : (Event.began c w.current).Apart l := trivial
    have hne : Semaphore.lock l ≠ .waiter w.current := nofun
    exact ⟨owner, howned.goes rfl (hhead (.release (lockOf c)) _ trivial)
      (Function.update_of_ne hne 0 w.value) rfl
      fun t => (holding_cons hbegan).trans (holding_cons hinit)⟩
  | sleep untilsleep =>
    have hinit : (Event.init (.sleep w.current)).Apart l := trivial
    have hne : Semaphore.lock l ≠ .sleep w.current := nofun
    exact ⟨owner, howned.goes rfl (hhead (.recheck (.sleep w.current)) rest trivial)
      (Function.update_of_ne hne 0 w.value) rfl fun t => holding_cons hinit⟩
  | @create u hnone =>
    exact ⟨owner, howned.goes rfl (hhead (.acquire tidLock) _ trivial) rfl rfl fun _ => Iff.rfl⟩
  | exit => exact ⟨owner, howned.goes rfl nofun rfl rfl fun _ => Iff.rfl⟩
  | idle => exact ⟨owner, howned⟩

theorem Locks.turn (h : Locks w) (hcounts : Counts values w) (hturn : Turn lockOf allowed w v) :
    Locks v := by
  cases hturn with
  | call c hnil =>
    intro l
    obtain ⟨owner, howned⟩ := h l
    refine ⟨owner, howned.goes rfl ?_ rfl rfl fun _ => Iff.rfl⟩
    rintro _ ⟨⟩
    cases c <;> first | trivial | nofun
  | same => exact h
  | run hnext _ heffect => exact h.effect (hcounts.entries hnext) hnext heffect
  | @up s hs =>
    intro l
    obtain ⟨owner, howned⟩ := h l
    have hapart : (Event.up s).Apart l := trivial
    have hne : .lock l ≠ s := by rcases hs with ⟨n, rfl⟩ | ⟨t, rfl⟩ <;> nofun
    exact ⟨owner, howned.congr rfl (Function.update_of_ne hne ..) rfl fun t => holding_cons hapart⟩
  | @tryDown n hpos =>
    intro l
    obtain ⟨owner, howned⟩ := h l
    have hapart : (Event.down (.user n)).Apart l := trivial
    have hne : Semaphore.lock l ≠ .user n := nofun
    exact ⟨owner, howned.congr (Function.update_eq_self ..)
      (Function.update_of_ne hne (w.value (.user n) - 1) w.value) rfl
      fun t => holding_cons hapart⟩

/-! ### Runs -/

/-- What holds between any two actions. -/
structure Synchronized (values : Nat → UInt32) (w : State) : Prop where
  scheduled : Scheduled w
  counts : Counts values w
  locks : Locks w

theorem Synchronized.step (h : Synchronized values w) (hstep : Step lockOf allowed w w') :
    Synchronized values w' := by
  obtain ⟨v, hturn, hswitched⟩ := hstep
  exact ⟨hswitched.scheduled, (h.counts.turn h.scheduled hturn).of_same hswitched.data,
    (h.locks.turn h.counts hturn).of_same hswitched.data⟩

theorem Synchronized.steps (h : Synchronized values w) (hsteps : Steps lockOf allowed w w') :
    Synchronized values w' := by
  obtain ⟨hsteps, -⟩ := hsteps
  induction hsteps with
  | refl => exact h
  | tail _ hstep ih => exact ih.step hstep

theorem synchronized_started {main idle : Nat} (hne : main ≠ idle) {idleStatus : ThreadStatus}
    (hidle : IdleStatus idleStatus) (values : Nat → UInt32) :
    Synchronized values (started main idle idleStatus values) := by
  have hpending : ∀ t, (started main idle idleStatus values).pending t =
      if t = idle then [.idle] else [] := fun t => rfl
  have hhead : ∀ t i, ((started main idle idleStatus values).pending t).head? = some i →
      i = .idle := by
    intro t i ht
    rw [hpending] at ht
    split_ifs at ht
    · exact (Option.some.inj ht).symm
    · nomatch ht
  have hvalue : ∀ s, ((started main idle idleStatus values).value s : Int) =
      startValue values s := by
    rintro (n | l | t | t) <;> rfl
  have hbalance : ∀ s, balance values s [] = startValue values s := fun s => by
    simp [balance, sinceInit]
  refine ⟨scheduled_started hne hidle values, ⟨fun t i hi => ?_, fun s => ?_, fun s _ => ?_,
    fun s hs => absurd rfl hs⟩, fun l => ⟨none, rfl, fun t ht => ?_, nofun, fun t ht => ?_,
      fun t => iff_of_false nofun nofun⟩⟩
  · rw [hpending] at hi
    split_ifs at hi <;> nomatch hi
  · rw [hvalue]
    show startValue values s = balance values s [] % 2 ^ 32
    rw [hbalance]
    rcases s with n | l | t | t
    · have := (values n).toNat_lt
      show ((values n).toNat : Int) = ((values n).toNat : Int) % 2 ^ 32
      omega
    · rfl
    · rfl
    · rfl
  · rw [hvalue]
    exact (hbalance s).symm
  · rcases ht with ht | ht <;> nomatch hhead t _ ht
  · nomatch hhead t _ ht

/-- Wherever a run passes, semaphores and locks are as they should be. -/
theorem synchronized_of_visits {actions : List Action} {w0 : State} (h0 : Synchronized values w0)
    (hunblocks : ∀ a w, Routine.Takes (exec lockOf) actions w0 a w → UnblocksBlocked a w)
    (hvisits : Routine.Visits (exec lockOf) actions w0 w) : Synchronized values w :=
  Routine.Visits.invariant (fun _ _ _ w' h hmay hrun =>
    have hsteps : Steps lockOf (fun _ _ => True) _ w' :=
      (wp_exec h.scheduled hmay fun _ _ _ => trivial).of_ok hrun
    h.steps hsteps) hunblocks h0 hvisits

/-- Threads that have been unblocked from a semaphore and have not looked at its value since. -/
def State.unblockedFrom (w : State) (s : Semaphore) : Finset Nat :=
  w.allList.toFinset.filter fun t =>
    (w.pending t).head? = some (.recheck s) ∧ w.status t ≠ some .blocked

theorem Scheduled.woken_subset (h : Scheduled w) (s : Semaphore) :
    w.woken s ⊆ w.unblockedFrom s := by
  intro t ht
  obtain ⟨hall, hhead, hnot⟩ := mem_woken.mp ht
  rw [State.unblockedFrom, Finset.mem_filter, List.mem_toFinset]
  exact ⟨hall, hhead, fun hst => hnot (h.blocked s t hst hhead)⟩

end Threads

/-- The value of a semaphore is its initial value, plus the ups, minus the downs, in the arithmetic
of `unsigned`, and so exactly that if it was always small enough.  While threads wait it is at most
the number of those that were unblocked and have not rechecked it.  A thread that has acquired a lock
and has not released it is the lock's holder. -/
theorem semaphores_and_locks (lockOf : Nat → Nat) (main idle : Nat) (hne : main ≠ idle)
    (idleStatus : Threads.ThreadStatus) (hidle : Threads.IdleStatus idleStatus)
    (values : Nat → UInt32) (actions : List Threads.Action)
    (hunblocks : ∀ a w, Routine.Takes (Threads.exec lockOf) actions
      (Threads.started main idle idleStatus values) a w → Threads.UnblocksBlocked a w)
    (w : Threads.State) (hvisits : Routine.Visits (Threads.exec lockOf) actions
      (Threads.started main idle idleStatus values) w) :
    (∀ s, (w.value s : Int) = Threads.balance values s w.log % 2 ^ 32 ∧
      (Threads.Fits values s w.log → (w.value s : Int) = Threads.balance values s w.log ∧
        0 ≤ Threads.balance values s w.log)) ∧
    (∀ s, w.waiters s ≠ [] → w.value s ≤ (w.unblockedFrom s).card) ∧
    ∀ l t, Threads.Holding l t w.log → w.holder l = some t ∧
      ∀ u, Threads.Holding l u w.log → u = t := by
  have h := Threads.synchronized_of_visits (Threads.synchronized_started hne hidle values) hunblocks
    hvisits
  refine ⟨fun s => ⟨h.counts.modulo s, fun hfits => ?_⟩, fun s hs => ?_, fun l t ht => ?_⟩
  · have hvalue := h.counts.value s hfits
    exact ⟨hvalue, hvalue ▸ Int.natCast_nonneg _⟩
  · exact Nat.le_trans (h.counts.wakeups s hs) (Finset.card_le_card (h.scheduled.woken_subset s))
  · obtain ⟨owner, howned⟩ := h.locks l
    have hholder := (howned.holding t).mp ht
    refine ⟨hholder, fun u hu => ?_⟩
    have := (howned.holding u).mp hu
    rw [hholder] at this
    exact (Option.some.inj this).symm

/-- The thread in page 2 acquires lock 1 and starts one in page 3, which waits for the lock; then an
interrupt handler ups a semaphore. -/
def lockWaitedFor : List Threads.Action :=
  .call (.lockAcquire 1) :: List.replicate 3 .run ++
    .call (.threadCreate 3) :: List.replicate 9 .run ++
    .call .threadYield :: .run ::
    .call (.lockAcquire 1) :: List.replicate 2 .run ++ [.interruptUp 0]

theorem semaphores_and_locks_waited : ∃ w, Routine.Visits (Threads.exec id) lockWaitedFor
    (Threads.started 2 1 .blocked fun _ => 0) w ∧
      w.waiters (.lock 1) = [3] ∧
      w.value (.lock 1) ≤ (w.unblockedFrom (.lock 1)).card ∧
      w.holder 1 = some 2 ∧ (∀ u, Threads.Holding 1 u w.log → u = 2) ∧
      w.value (.user 0) = 1 ∧
      (w.value (.user 0) : Int) = Threads.balance (fun _ => 0) (.user 0) w.log % 2 ^ 32 := by
  have hwaits : (match Routine.execAll (Threads.exec id) lockWaitedFor
      (Threads.started 2 1 .blocked fun _ => 0) with
    | .ok (_, w) => decide (w.waiters (.lock 1) = [3] ∧ Threads.Holding 1 2 w.log ∧
        w.value (.user 0) = 1)
    | .error _ => false) = true := by
    decide +kernel
  have hcheck : Routine.checkAll (Threads.exec id) Threads.unblocksNone lockWaitedFor
      (Threads.started 2 1 .blocked fun _ => 0) = true := by
    decide +kernel
  rcases hrun : Routine.execAll (Threads.exec id) lockWaitedFor
      (Threads.started 2 1 .blocked fun _ => 0) with f | ⟨as, w⟩
  · rw [hrun] at hwaits
    nomatch hwaits
  · rw [hrun] at hwaits
    obtain ⟨hwaiters, hholding, hupped⟩ := of_decide_eq_true hwaits
    have hvisits : Routine.Visits (Threads.exec id) lockWaitedFor
        (Threads.started 2 1 .blocked fun _ => 0) w := ⟨_, [], as, (List.append_nil _).symm, hrun⟩
    obtain ⟨hcounts, hwakeups, hlocks⟩ := semaphores_and_locks id 2 1 (by decide) .blocked
      (.inl rfl) _ _ (fun a w htakes => Threads.of_unblocksNone (Routine.of_checkAll hcheck htakes))
      w hvisits
    obtain ⟨hholder, hothers⟩ := hlocks 1 2 hholding
    exact ⟨w, hvisits, hwaiters, hwakeups _ (by rw [hwaiters]; simp), hholder, hothers, hupped,
      (hcounts (.user 0)).1⟩

/-- A semaphore that starts with the largest value is upped. -/
theorem semaphore_wraps : ¬ ∀ w, Routine.Visits (Threads.exec id) [.interruptUp 0]
    (Threads.started 2 1 .blocked fun _ => 0xffffffff) w →
      (w.value (.user 0) : Int) = Threads.balance (fun _ => 0xffffffff) (.user 0) w.log := by
  intro hvalue
  have hvisits : Routine.Visits (Threads.exec id) [.interruptUp 0]
      (Threads.started 2 1 .blocked fun _ => 0xffffffff) _ :=
    ⟨_, [], _, (List.append_nil _).symm, rfl⟩
  exact absurd (hvalue _ hvisits) (by decide +kernel)

end Pintos
