import Pintos.Filesys.CacheRefinement
import Pintos.Filesys.CacheThreads

/-! Which states of the buffer cache have a cycle of blocked threads.  `bc_block_read` and the
read-ahead daemon take `cache_lock` while they hold the `elock` of their entry; a lookup that hits,
the flush passes, `bc_remove` and the victim scan take an `elock` while they hold `cache_lock`.  A
cycle is a pair of such threads at one entry, and a run has none exactly when no thread goes for the
`elock` of an entry in the first kind of place. -/

namespace Pintos

open LockProgram

namespace CachePc

/-- The entry whose `elock` a thread with `cache_lock` is going to acquire. -/
def awaits : CachePc → Option (Fin 64)
  | hit _ i | flushVisit _ i | removeVisit _ i => some i
  | scan _ round i => if round > 5 then some i else none
  | _ => none

/-- The entry whose `elock` a thread has that is going to acquire `cache_lock`. -/
def inWindow : CachePc → Option (Fin 64)
  | locked _ i _ => some i
  | _ => none

theorem acquire_of_awaits {p : CachePc} {i : Fin 64} (h : p.awaits = some i) :
    (∃ next, program p = .acquire (.elock i) next) ∧ p.holds .cacheLock := by
  cases p with
  | hit call j =>
    obtain rfl := Option.some.inj h
    exact ⟨⟨_, rfl⟩, rfl⟩
  | flushVisit daemon j =>
    obtain rfl := Option.some.inj h
    exact ⟨⟨_, rfl⟩, rfl⟩
  | removeVisit sector j =>
    obtain rfl := Option.some.inj h
    exact ⟨⟨_, rfl⟩, rfl⟩
  | scan call round j =>
    by_cases hround : round > 5
    · rw [awaits, if_pos hround] at h
      obtain rfl := Option.some.inj h
      exact ⟨⟨_, if_pos hround⟩, rfl⟩
    · rw [awaits, if_neg hround] at h
      nomatch h
  | _ => nomatch h

theorem acquire_of_inWindow {p : CachePc} {i : Fin 64} (h : p.inWindow = some i) :
    (∃ next, program p = .acquire .cacheLock next) ∧ p.holds (.elock i) := by
  cases p with
  | locked call j isCacheMiss => exact ⟨⟨_, rfl⟩, h⟩
  | _ => nomatch h

/-- A thread that acquires a lock while it has another one is in one of the two kinds of places. -/
theorem acquire_cases {p : CachePc} {l k : CacheLock}
    {next : SharedCache → SharedCache × CachePc} (h : program p = .acquire l next)
    (hk : p.holds k) :
    (l = .cacheLock ∧ ∃ i, k = .elock i ∧ p.inWindow = some i) ∨
      (k = .cacheLock ∧ ∃ i, l = .elock i ∧ p.awaits = some i) := by
  cases p with
  | hit call i =>
    cases h
    exact .inr ⟨(holds_cache rfl rfl k).mp hk, i, rfl, rfl⟩
  | flushVisit daemon i =>
    cases h
    exact .inr ⟨(holds_cache rfl rfl k).mp hk, i, rfl, rfl⟩
  | removeVisit sector i =>
    cases h
    exact .inr ⟨(holds_cache rfl rfl k).mp hk, i, rfl, rfl⟩
  | scan call round i =>
    rw [program] at h
    split at h
    · rename_i hround
      cases h
      exact .inr ⟨(holds_cache rfl rfl k).mp hk, i, rfl, if_pos hround⟩
    · cases h
  | locked call i isCacheMiss =>
    cases h
    exact .inl ⟨rfl, i, (holds_entry rfl rfl k).mp hk, rfl⟩
  | getLock call => exact (holds_none rfl rfl k hk).elim
  | flushLock daemon => exact (holds_none rfl rfl k hk).elim
  | removeLock sector => exact (holds_none rfl rfl k hk).elim
  | copyOut r i bytes => exact (holds_none rfl rfl k hk).elim
  | _ => cases h

end CachePc

open CachePc

variable {T : Type} [DecidableEq T] {c c' : CacheConfig T} {t u : T}

/-- A thread with `cache_lock` goes for the `elock` of an entry, and the thread that has it goes for
`cache_lock`. -/
def Collision (c : CacheConfig T) : Prop :=
  ∃ t u i, (c.pc t).awaits = some i ∧ (c.pc u).inWindow = some i

omit [DecidableEq T] in
/-- On a cycle, the thread that has `cache_lock` collides with the next one. -/
theorem collision_of_cycle (h : Locked holds c) (ht : (c.pc t).holds .cacheLock)
    (hcycle : Relation.TransGen (WaitsFor program c) t t) : Collision c := by
  obtain ⟨u, ⟨l, ⟨next, hpc⟩, hholder⟩, hcycle⟩ := cycle_next hcycle
  obtain ⟨-, i, hi, -⟩ | ⟨-, i, rfl, hi⟩ := acquire_cases hpc ht
  · nomatch hi
  · obtain ⟨v, ⟨k, ⟨next', hpc'⟩, -⟩, -⟩ := cycle_next hcycle
    obtain ⟨-, j, hj, hwindow⟩ | ⟨hj, -⟩ := acquire_cases hpc' ((h _ _).mp hholder)
    · cases hj
      exact ⟨t, u, i, hi, hwindow⟩
    · nomatch hj

omit [DecidableEq T] in
/-- Two colliding threads are a cycle, and every cycle has such a pair. -/
theorem hasCycle_iff_collision (h : Locked holds c) : HasCycle program c ↔ Collision c := by
  constructor
  · rintro ⟨t, hcycle⟩
    obtain ⟨u, ⟨l, -, hholder⟩, hcycle'⟩ := cycle_next hcycle
    have hu := (h _ _).mp hholder
    obtain ⟨v, ⟨k, ⟨next, hpc⟩, hholder'⟩, hcycle''⟩ := cycle_next hcycle'
    obtain ⟨rfl, -⟩ | ⟨rfl, -⟩ := acquire_cases hpc hu
    · exact collision_of_cycle h ((h _ _).mp hholder') hcycle''
    · exact collision_of_cycle h hu hcycle'
  · rintro ⟨t, u, i, ht, hu⟩
    obtain ⟨htacq, htheld⟩ := acquire_of_awaits ht
    obtain ⟨huacq, huheld⟩ := acquire_of_inWindow hu
    exact hasCycle_of_two ⟨_, htacq, (h _ _).mpr huheld⟩ ⟨_, huacq, (h _ _).mpr htheld⟩

/-! ### Steps -/

/-- The entry for whose `elock` the next step of thread `t` brings it, with `cache_lock` held: the
entry that a lookup or `bc_remove` finds, the next entry of a flush pass, or the next entry of a
victim scan beyond round 5. -/
def comesFor (c : CacheConfig T) (t : T) : Option (Fin 64) :=
  match c.pc t with
  | .getLock call => bcGetEntryBySector c.shared.toCache call.sector
  | .removeLock sector => bcGetEntryBySector c.shared.toCache sector
  | .flushLock _ => some 0
  | .flushNext _ i => if i = 63 then none else some (i + 1)
  | .pass call round i => (advance call round i).awaits
  | .scan call round i =>
    if c.holder (.elock i) = none then none else (advance call round i).awaits
  | _ => none

/-- Thread `t` does not come for the `elock` of an entry that a thread has which is going to acquire
`cache_lock`. -/
def Careful (c : CacheConfig T) (t : T) : Prop :=
  ∀ i, comesFor c t = some i → ∀ u, (c.pc u).inWindow ≠ some i

/-- What the step of thread `t` to the point `p` may bring: what it is going to acquire is
`comesFor`, and only a thread that had `cache_lock` is now going to acquire it again. -/
structure Arrives (c : CacheConfig T) (t : T) (p : CachePc) : Prop where
  awaits : p.awaits = comesFor c t
  inWindow : p.inWindow = none ∨ (c.pc t).holds .cacheLock

omit [DecidableEq T] in
theorem arrives_visit {call : Fetch} {round : Nat} {i : Fin 64} (hp : c.pc t = scan call round i)
    (hfree : c.holder (.elock i) = none) : Arrives c t (visit call round i c.shared).2 := by
  have hnone : comesFor c t = none := by
    rw [comesFor, hp]
    exact if_pos hfree
  refine ⟨?_, .inr (by rw [hp]; rfl)⟩
  rw [hnone]
  unfold visit
  split
  · split
    · split <;> rfl
    · rfl
  · rfl
  · rfl

theorem awaits_checkReaders (w : WriteCall) (i : Fin 64) (s : SharedCache) :
    (checkReaders w i s).2.awaits = none ∧ (checkReaders w i s).2.inWindow = none := by
  unfold checkReaders
  split <;> exact ⟨rfl, rfl⟩

theorem awaits_use (i : Fin 64) (isCacheMiss : Bool) (s : SharedCache) (call : Fetch) :
    (use i isCacheMiss s call).2.awaits = none := by
  cases call with
  | read r => rfl
  | readAhead sector => rfl
  | write w =>
    cases isCacheMiss with
    | false => exact (awaits_checkReaders w i s).1
    | true =>
      simp only [use, if_true]
      split
      · split <;> rfl
      · rfl

theorem arrives_of_executes {p : CachePc} (hp : c.pc t = p)
    (h : (program p).Executes t c c') : Arrives c t (c'.pc t) := by
  have hcomes : comesFor c t = comesFor { c with pc := fun _ => p } t := by
    rw [comesFor, hp]
    rfl
  have harrives : ∀ {q : CachePc}, q.awaits = comesFor { c with pc := fun _ => p } t →
      (q.inWindow = none ∨ p.holds .cacheLock) → Arrives c t q := by
    intro q hawaits hwindow
    exact ⟨hawaits.trans hcomes.symm, by rwa [hp]⟩
  cases p with
  | idle => exact h.elim
  | returned r bytes => exact h.elim
  | crashed => exact h.elim
  | panicked locked i => exact h.elim
  | getLock call =>
    obtain ⟨-, rfl⟩ := h
    rw [Config.go_pc]
    split
    · rename_i i hi
      exact harrives hi.symm (.inl rfl)
    · rename_i hi
      exact harrives hi.symm (.inl rfl)
  | hit call i =>
    obtain ⟨-, rfl⟩ := h
    rw [Config.go_pc]
    split <;> exact harrives rfl (.inl rfl)
  | scan call round i =>
    rw [program] at h
    split at h
    · obtain ⟨hfree, rfl⟩ := h
      rw [Config.go_pc]
      exact arrives_visit hp hfree
    · obtain ⟨hfree, rfl⟩ | ⟨hheld, rfl⟩ := h
      · rw [Config.go_pc]
        exact arrives_visit hp hfree
      · rw [Config.jump_pc]
        exact harrives (if_neg hheld).symm (.inr rfl)
  | pass call round i =>
    obtain rfl := h
    rw [Config.go_pc]
    exact harrives rfl (.inr rfl)
  | flushVictim call i k =>
    obtain rfl := h
    rw [Config.go_pc]
    dsimp only
    split <;> exact harrives rfl (.inl rfl)
  | fetched call i isCacheMiss =>
    obtain rfl := h
    rw [Config.go_pc]
    exact harrives (awaits_use i isCacheMiss _ call) (.inr rfl)
  | notFound call i =>
    obtain rfl := h
    rw [Config.go_pc]
    exact harrives rfl (.inl rfl)
  | retry call =>
    obtain rfl := h
    rw [Config.go_pc]
    exact harrives rfl (.inl rfl)
  | locked call i isCacheMiss =>
    obtain ⟨-, rfl⟩ := h
    rw [Config.go_pc]
    split
    · split <;> exact harrives rfl (.inl rfl)
    · exact harrives rfl (.inl rfl)
  | fill call i k =>
    obtain rfl := h
    rw [Config.go_pc]
    split <;> exact harrives rfl (.inl rfl)
  | filled call i =>
    obtain rfl := h
    rw [Config.go_pc]
    exact harrives rfl (.inl rfl)
  | release call i =>
    obtain rfl := h
    rw [Config.go_pc]
    split <;> exact harrives rfl (.inl rfl)
  | copyOut r i bytes =>
    rw [program] at h
    split at h
    · obtain rfl := h
      rw [Config.go_pc]
      exact harrives rfl (.inl rfl)
    · obtain ⟨-, rfl⟩ := h
      rw [Config.go_pc]
      exact harrives rfl (.inl rfl)
  | uncount r i bytes =>
    obtain rfl := h
    rw [Config.go_pc]
    exact harrives rfl (.inl rfl)
  | writeFill w i k =>
    obtain rfl := h
    rw [Config.go_pc]
    split
    · exact harrives rfl (.inl rfl)
    · exact harrives (awaits_checkReaders w i _).1 (.inl (awaits_checkReaders w i _).2)
  | writeClear w i k =>
    obtain rfl := h
    rw [Config.go_pc]
    split
    · exact harrives rfl (.inl rfl)
    · exact harrives (awaits_checkReaders w i _).1 (.inl (awaits_checkReaders w i _).2)
  | copyIn w i k =>
    obtain rfl := h
    rw [Config.go_pc]
    split <;> exact harrives rfl (.inl rfl)
  | written w i =>
    obtain rfl := h
    rw [Config.go_pc]
    exact harrives rfl (.inl rfl)
  | refused w i =>
    obtain rfl := h
    rw [Config.go_pc]
    exact harrives rfl (.inl rfl)
  | flushLock daemon =>
    obtain ⟨-, rfl⟩ := h
    rw [Config.go_pc]
    exact harrives rfl (.inl rfl)
  | flushVisit daemon i =>
    obtain ⟨-, rfl⟩ := h
    rw [Config.go_pc]
    split
    · split <;> exact harrives rfl (.inl rfl)
    · exact harrives rfl (.inl rfl)
  | flushWrite daemon i k =>
    obtain rfl := h
    rw [Config.go_pc]
    dsimp only
    split <;> exact harrives rfl (.inl rfl)
  | flushNext daemon i =>
    obtain rfl := h
    rw [Config.go_pc]
    by_cases hi : i = 63
    · rw [if_pos hi]
      exact harrives (if_pos hi).symm (.inr rfl)
    · rw [if_neg hi]
      exact harrives (if_neg hi).symm (.inr rfl)
  | flushUnlock =>
    obtain rfl := h
    rw [Config.go_pc]
    exact harrives rfl (.inl rfl)
  | removeLock sector =>
    obtain ⟨-, rfl⟩ := h
    rw [Config.go_pc]
    split
    · rename_i i hi
      exact harrives hi.symm (.inl rfl)
    · rename_i hi
      exact harrives hi.symm (.inl rfl)
  | removeVisit sector i =>
    obtain ⟨-, rfl⟩ := h
    rw [Config.go_pc]
    dsimp only
    split <;> exact harrives rfl (.inl rfl)
  | removed i =>
    obtain rfl := h
    rw [Config.go_pc]
    exact harrives rfl (.inl rfl)
  | removeUnlock =>
    obtain rfl := h
    rw [Config.go_pc]
    exact harrives rfl (.inl rfl)

/-- What a thread is going to acquire after its step. -/
theorem arrives_step (h : Step program start c t c') : Arrives c t (c'.pc t) := by
  cases h with
  | instr h => exact arrives_of_executes rfl h
  | @start p hstart =>
    obtain ⟨hidle, hstarts⟩ := hstart
    have hnone : comesFor c t = none := by
      rcases hidle with h | ⟨r, bytes, h⟩ <;> rw [comesFor, h]
    rw [Config.jump_pc]
    refine ⟨?_, .inl ?_⟩
    · rw [hnone]
      cases hstarts <;> rfl
    · cases hstarts <;> rfl

theorem not_awaits_of_inWindow {p : CachePc} {i : Fin 64} (h : p.inWindow = some i) :
    p.awaits = none := by
  cases p with
  | locked call j isCacheMiss => rfl
  | _ => nomatch h

/-- A careful step causes no collision, and one that is not careful does. -/
theorem careful_iff (h : Locked holds c) (hstep : Step program start c t c')
    (hno : ¬ Collision c) : Careful c t ↔ ¬ Collision c' := by
  have harrives := arrives_step hstep
  constructor
  · rintro hcareful ⟨v, u, i, hv, hu⟩
    by_cases hvt : v = t
    · subst hvt
      have hut : u ≠ v := by
        rintro rfl
        rw [not_awaits_of_inWindow hu] at hv
        nomatch hv
      rw [hstep.pc_ne hut] at hu
      exact hcareful i (harrives.awaits.symm.trans hv) u hu
    · rw [hstep.pc_ne hvt] at hv
      by_cases hut : u = t
      · subst hut
        rcases harrives.inWindow with hnone | hheld
        · rw [hnone] at hu
          nomatch hu
        · exact hvt (h.unique (acquire_of_awaits hv).2 hheld)
      · rw [hstep.pc_ne hut] at hu
        exact hno ⟨v, u, i, hv, hu⟩
  · intro hno' i hi u hu
    have hut : u ≠ t := by
      rintro rfl
      unfold comesFor at hi
      split at hi <;> simp_all [CachePc.inWindow]
    exact hno' ⟨t, u, i, harrives.awaits.trans hi, by rwa [hstep.pc_ne hut]⟩

/-- In a run of the cache from `bc_init`, by any number of threads, no state has a cycle of threads
that hold a lock the next one is blocked on, if and only if every step is careful. -/
theorem no_lock_cycle_iff (memory : Fin 64 → SectorData) (fsDevice : Block)
    (cs : List (CacheConfig T)) (hrun : (.initial memory fsDevice :: cs).IsChain CacheStep) :
    (∀ c ∈ .initial memory fsDevice :: cs, ¬ HasCycle program c) ↔
      (.initial memory fsDevice :: cs).IsChain fun c c' =>
        ∃ t, Step program start c t c' ∧ Careful c t := by
  have hinit : Locked holds (CacheConfig.initial memory fsDevice : CacheConfig T) := by
    intro l t
    exact iff_of_false nofun (holds_none rfl rfl l)
  refine isChain_safe_iff (I := Locked holds) ?_ ?_ hrun hinit ?_
  · rintro a b hlocked ⟨t, hstep⟩
    exact typed.step hlocked hstep
  · rintro a b hlocked ⟨t, hstep⟩ hno
    rw [hasCycle_iff_collision (typed.step hlocked hstep)]
    rw [hasCycle_iff_collision hlocked] at hno
    constructor
    · rintro ⟨u, hstep', hcareful⟩
      exact (careful_iff hlocked hstep' hno).mp hcareful
    · intro hno'
      exact ⟨t, hstep, (careful_iff hlocked hstep hno).mpr hno'⟩
  · rw [hasCycle_iff_collision hinit]
    rintro ⟨t, u, i, ht, -⟩
    nomatch ht

/-- A check that a thread comes for no `elock` that is in the window of thread `true` or `false`. -/
def carefulBool (c : CacheConfig Bool) (t : Bool) : Bool :=
  (comesFor c t).all fun i => (c.pc true).inWindow ≠ some i ∧ (c.pc false).inWindow ≠ some i

theorem careful_of_check {c : CacheConfig Bool} {t : Bool} (h : carefulBool c t = true) :
    Careful c t := by
  intro i hi u
  rw [carefulBool, hi] at h
  obtain ⟨htrue, hfalse⟩ := of_decide_eq_true h
  cases u with
  | true => exact htrue
  | false => exact hfalse

/-- Careful moves, in which idle threads read one byte or start a flush pass. -/
def carefulMoves (c : CacheConfig Bool) (t : Bool) : Option CachePc → Bool
  | none => carefulBool c t
  | some p =>
    carefulBool c t && match c.pc t, p with
      | .idle, .getLock (.read r) => r.offset + r.size ≤ 512
      | .idle, .flushLock false => true
      | _, _ => false

theorem start_of_carefulMoves (c : CacheConfig Bool) (t : Bool) (p : CachePc)
    (h : carefulMoves c t (some p) = true) : start (c.pc t) p := by
  obtain ⟨-, h⟩ := (Bool.and_eq_true _ _).mp h
  split at h
  · rename_i hidle _
    exact ⟨.inl hidle, .read (of_decide_eq_true h)⟩
  · rename_i hidle _
    exact ⟨.inl hidle, .flushAll⟩
  · cases h

theorem careful_of_carefulMoves {c : CacheConfig Bool} {t : Bool} {task : Option CachePc}
    (h : carefulMoves c t task = true) : Careful c t := by
  cases task with
  | none => exact careful_of_check h
  | some p => exact careful_of_check ((Bool.and_eq_true _ _).mp h).1

/-- One thread starts to read, but the other one goes through the whole cache first to flush it. -/
def readWhileFlushed : List (Bool × Option CachePc) :=
  (false, some (.getLock (.read ⟨0, 0, 1⟩))) :: (true, some (.flushLock false)) ::
    (List.replicate 130 (true, none) ++ List.replicate 4 (false, none))

/-- Each of the threads has `cache_lock` and the `elock` of entry 0 for a while. -/
theorem no_lock_cycle_iff_readWhileFlushed :
    ∃ cs : List (CacheConfig Bool),
      (.initial (fun _ => SectorData.zeros) oneSectorDevice :: cs).IsChain CacheStep ∧
      (∀ t : Bool, ∃ c ∈ cs, c.holder .cacheLock = some t ∧ c.holder (.elock 0) = some t) ∧
      ∀ c ∈ .initial (fun _ => SectorData.zeros) oneSectorDevice :: cs, ¬ HasCycle program c := by
  have hfollow : ((follow program carefulMoves readWhileFlushed
      (CacheConfig.initial (fun _ => SectorData.zeros) oneSectorDevice)).any fun cs => decide
        (∀ t : Bool, ∃ c ∈ cs, c.holder .cacheLock = some t ∧ c.holder (.elock 0) = some t)) =
          true := by
    decide +kernel
  obtain ⟨cs, hcs, hholds⟩ := (Option.any_eq_true _ _).mp hfollow
  have hchain := isChain_of_follow start_of_carefulMoves hcs
  have hrun : (CacheConfig.initial (fun _ => SectorData.zeros) oneSectorDevice :: cs).IsChain
      CacheStep := isChain_step_of_follow start_of_carefulMoves hcs
  refine ⟨cs, hrun, of_decide_eq_true hholds, (no_lock_cycle_iff _ _ cs hrun).mpr ?_⟩
  refine hchain.imp fun c c' h => ?_
  obtain ⟨t, task, hstep, hallowed, -⟩ := h
  exact ⟨t, hstep, careful_of_carefulMoves hallowed⟩

/-- One thread has read sector 0 up to its second `lock_acquire (&cache_lock)`; another one has
`cache_lock` to read the same sector. -/
theorem readers_deadlock :
    ∃ c, Relation.ReflTransGen CacheStep
        (.initial (fun _ => SectorData.zeros) oneSectorDevice : CacheConfig Bool) c ∧
      HasCycle program c := by
  have hstart : ∀ (c : CacheConfig Bool) t, c.pc t = .idle →
      CacheStep c (c.jump t (.getLock (.read ⟨0, 0, 1⟩))) := fun c t h =>
    ⟨t, .start ⟨.inl h, .read (by decide)⟩⟩
  have hfirst := Relation.ReflTransGen.single
    (hstart (.initial (fun _ => SectorData.zeros) oneSectorDevice) false rfl)
  have hsecond := hfirst.tail (hstart _ true rfl)
  have hlock := hsecond.tail ⟨false, .instr ⟨rfl, rfl⟩⟩
  have hscan := hlock.tail ⟨false, .instr (.inl ⟨rfl, rfl⟩)⟩
  have hrelease := hscan.tail ⟨false, .instr rfl⟩
  have hhit := hrelease.tail ⟨true, .instr ⟨rfl, rfl⟩⟩
  exact ⟨_, hhit, hasCycle_of_two (t := true) (u := false) ⟨.elock 0, ⟨_, rfl⟩, rfl⟩
    ⟨.cacheLock, ⟨_, rfl⟩, rfl⟩⟩
end Pintos
