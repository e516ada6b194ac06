import Pintos.Library.Routine
import Mathlib.Logic.Function.Basic

/-! The `exec` system call (`userprog/syscall.c`) with `process_execute` and `start_process`
(`userprog/process.c`): any number of processes, each of which may be a parent and a child, and
the initial thread, which starts a process without waiting for its load (`run_task` of
`threads/init.c`).  A step is one access to a field of a `struct thread`, one semaphore operation,
one `lookup_tid`, or one load or creation of a thread as a whole.  Threads are numbered by their
`tid`, which is used once. -/

namespace Pintos

/-- What a thread does next: in `start_process`, in user code, in `exec`, or in `thread_exit`.
`result` is what `load` returned, and `threadId` what `process_execute` did, with `none` for
`TID_ERROR`. -/
inductive ExecPc where
  | unborn
  | initial
  | load
  | lookupParent (result : Bool)
  | setStatus (result : Bool) (parentThread : Nat)
  | upSema (result : Bool) (parentThread : Nat)
  | user
  | resetStatus
  | create
  | lookupChild (threadId : Nat)
  | pushChild (threadId chld : Nat)
  | downSema (threadId : Nat)
  | testStatus (threadId : Option Nat)
  | returns (threadId : Option Nat) (value : Int)
  | exitUp
  | exitDown
  | dead
  deriving DecidableEq

/-- The fields of a `struct thread` that the handshake uses; `loaded` is what the thread's `load`
returned, once it has. -/
structure ExecThread where
  pc : ExecPc
  parentTid : Nat
  childBornStatus : Int
  childSema : Nat
  exitStatusReadSema : Nat
  childrenList : List Nat
  loaded : Option Bool

structure ExecWorld where
  thread : Nat → ExecThread
  nextTid : Nat

/-- A step: a thread goes on, where `succeeds` decides a load or a creation; a process calls `exec`
or exits; the initial thread starts a process; or a thread lets a child that it has waited for
go. -/
inductive ExecStep where
  | next (tid : Nat) (succeeds : Bool)
  | exec (tid : Nat)
  | exit (tid : Nat)
  | runTask (tid : Nat)
  | wait (tid chld : Nat)

abbrev ExecRoutine := Routine Unit ExecWorld Unit

namespace ExecWorld

/-- `TID_ERROR`. -/
def tidError : Int := -1

/-- The status that `start_process` stores for a result of `load`. -/
def bornStatus (result : Bool) : Int := if result then 1 else -1

/-- The thread that `thread_create` makes. -/
def created (parentTid : Nat) : ExecThread := ⟨.load, parentTid, 0, 0, 0, [], none⟩

def setThread (w : ExecWorld) (p : Nat) (t : ExecThread) : ExecWorld :=
  { w with thread := Function.update w.thread p t }

def setPc (w : ExecWorld) (p : Nat) (pc : ExecPc) : ExecWorld :=
  w.setThread p { w.thread p with pc }

/-- `lookup_tid`: the thread is on `all_list`. -/
def lookupTid (w : ExecWorld) (tid : Nat) : Option Nat :=
  if (w.thread tid).pc = .unborn ∨ (w.thread tid).pc = .dead then none else some tid

/-- `sema_up` of the `exit_status_read_sema` of threads `l`. -/
def letGo (w : ExecWorld) (l : List Nat) : ExecWorld :=
  { w with
    thread := fun c =>
      if c ∈ l then
        { w.thread c with exitStatusReadSema := (w.thread c).exitStatusReadSema + 1 }
      else w.thread c }

/-- Where `start_process` goes after the parent was told. -/
def started (result : Bool) : ExecPc := if result then .user else .exitUp

/-- The step of thread `p`; `sema_down` may block, and so may a null pointer stop it. -/
def nextStep (p : Nat) (succeeds : Bool) : ExecRoutine := do
  let w ← get
  let t := w.thread p
  match t.pc with
  | .load => set (w.setThread p { t with pc := .lookupParent succeeds, loaded := some succeeds })
  | .lookupParent result =>
    match w.lookupTid t.parentTid with
    | some parentThread => set (w.setPc p (.setStatus result parentThread))
    | none => set (w.setPc p (started result))
  | .setStatus result q =>
    set ((w.setThread q { w.thread q with childBornStatus := bornStatus result }).setPc p
      (.upSema result q))
  | .upSema result q =>
    set ((w.setThread q { w.thread q with childSema := (w.thread q).childSema + 1 }).setPc p
      (started result))
  | .resetStatus => set (w.setThread p { t with pc := .create, childBornStatus := 0 })
  | .create =>
    if succeeds then
      set { (w.setThread w.nextTid (created p)).setPc p (.lookupChild w.nextTid) with
        nextTid := w.nextTid + 1 }
    else set (w.setPc p (.testStatus none))
  | .lookupChild threadId =>
    match w.lookupTid threadId with
    | some chld => set (w.setPc p (.pushChild threadId chld))
    | none => throw ()
  | .pushChild threadId chld =>
    set (w.setThread p
      { t with pc := .downSema threadId, childrenList := t.childrenList ++ [chld] })
  | .downSema threadId =>
    if t.childSema = 0 then throw ()
    else set (w.setThread p
      { t with pc := .testStatus (some threadId), childSema := t.childSema - 1 })
  | .testStatus threadId =>
    if t.childBornStatus = -1 then set (w.setPc p (.returns threadId (-1)))
    else set (w.setPc p (.returns threadId
      (match threadId with
        | some tid => tid
        | none => tidError)))
  | .returns _ _ => set (w.setPc p .user)
  | .exitUp => set ((w.letGo t.childrenList).setPc p .exitDown)
  | .exitDown =>
    if t.exitStatusReadSema = 0 then throw ()
    else set (w.setThread p { t with pc := .dead, exitStatusReadSema := t.exitStatusReadSema - 1 })
  | .unborn | .initial | .user | .dead => throw ()

/-- A step of thread `p` from user code. -/
def userStep (p : Nat) (pc : ExecPc) : ExecRoutine := do
  let w ← get
  if (w.thread p).pc = .user then set (w.setPc p pc) else throw ()

def exec : ExecStep → ExecRoutine
  | .next p succeeds => nextStep p succeeds
  | .exec p => userStep p .resetStatus
  | .exit p => userStep p .exitUp
  | .runTask p => do
    let w ← get
    if (w.thread p).pc = .initial then
      set { (w.setThread w.nextTid (created p)).setThread p
          { w.thread p with childrenList := (w.thread p).childrenList ++ [w.nextTid] } with
        nextTid := w.nextTid + 1 }
    else throw ()
  | .wait p c => do
    let w ← get
    let t := w.thread p
    if (t.pc = .user ∨ t.pc = .initial) ∧ c ∈ t.childrenList then
      set ((w.letGo [c]).setThread p
        { (w.letGo [c]).thread p with childrenList := t.childrenList.erase c })
    else throw ()

/-- The initial thread has `tid` 1. -/
def init : ExecWorld where
  thread p := ⟨if p = 1 then .initial else .unborn, 0, 0, 0, 0, [], none⟩
  nextTid := 2

/-- A thread in `exec`, or in `start_process` up to where its parent is told. -/
def inHandshake : ExecPc → Bool
  | .load | .lookupParent _ | .setStatus _ _ | .upSema _ _ | .resetStatus | .create
  | .lookupChild _ | .pushChild _ _ | .downSema _ | .testStatus _ | .returns _ _ => true
  | .unborn | .initial | .user | .exitUp | .exitDown | .dead => false

/-- What `exec` of thread `p` has to return, where `threadId` is what `process_execute` returned. -/
structure Answers (w : ExecWorld) (p : Nat) (threadId : Option Nat) (value : Int) : Prop where
  child : ∀ c, threadId = some c → (w.thread c).parentTid = p
  finished : ∀ c, threadId = some c → (w.thread c).loaded ≠ none
  tid : ∀ c, threadId = some c → (value = c ↔ (w.thread c).loaded = some true)
  error : value = -1 ↔ threadId = none ∨ ∃ c, threadId = some c ∧ (w.thread c).loaded = some false

/-! ### The invariant -/

/-- The child whose `sema_up` the next `sema_down` of a thread at `pc` is for. -/
def waitsFor : ExecPc → Option Nat
  | .lookupChild c | .pushChild c _ | .downSema c => some c
  | _ => none

/-- A thread at `pc` has not told its parent yet. -/
def starting : ExecPc → Bool
  | .load | .lookupParent _ | .setStatus _ _ | .upSema _ _ => true
  | _ => false

/-- Thread `c` is a child of `p` whose `load` returned `result`. -/
def LoadedAs (w : ExecWorld) (c p : Nat) (result : Bool) : Prop :=
  (w.thread c).parentTid = p ∧ (w.thread c).loaded = some result

theorem waitsFor_of_starting {pc : ExecPc} (h : starting pc = true) : waitsFor pc = none := by
  cases pc <;> first | rfl | simp [starting] at h

/-- A thread that waits for a child is alive. -/
theorem alive_of_waitsFor {pc : ExecPc} {c : Nat} (h : waitsFor pc = some c) :
    pc ≠ .unborn ∧ pc ≠ .dead ∧ pc ≠ .initial := by
  refine ⟨?_, ?_, ?_⟩ <;> rintro rfl <;> nomatch h

/-- What `exec` of thread `p` returns, by what is known of the child. -/
def Returns (w : ExecWorld) (p : Nat) : Option Nat → Int → Prop
  | none, value => value = -1
  | some c, value => ∃ result, w.LoadedAs c p result ∧ value = if result then (c : Int) else -1

/-- What holds of thread `p` by itself. -/
def Own (w : ExecWorld) (p : Nat) : Prop :=
  match (w.thread p).pc with
  | .unborn | .load => (w.thread p).loaded = none
  | .lookupParent result => (w.thread p).loaded = some result
  | .setStatus result q | .upSema result q =>
    (w.thread p).loaded = some result ∧ q = (w.thread p).parentTid
  | .pushChild c chld => chld = c
  | .create | .testStatus none => (w.thread p).childBornStatus = 0
  | .testStatus (some c) => ∃ result, w.LoadedAs c p result ∧
    (w.thread p).childBornStatus = bornStatus result
  | .returns threadId value => w.Returns p threadId value
  | .initial | .user | .resetStatus | .lookupChild _ | .downSema _ | .exitUp | .exitDown | .dead =>
    True

/-- The semaphore of thread `p` has been raised exactly if it waits for a child that has told it how
its `load` ended. -/
def SemaOk (w : ExecWorld) (p : Nat) : Prop :=
  match waitsFor (w.thread p).pc with
  | none => (w.thread p).childSema = 0
  | some c => (w.thread c).parentTid = p ∧
    if starting (w.thread c).pc then (w.thread p).childSema = 0
    else (w.thread p).childSema = 1 ∧ ∃ result, (w.thread c).loaded = some result ∧
      (w.thread p).childBornStatus = bornStatus result

/-- The parent of `p` waits for `p`, or is the initial thread. -/
def Awaited (w : ExecWorld) (p : Nat) : Prop :=
  (w.thread (w.thread p).parentTid).pc = .initial ∨
    waitsFor (w.thread (w.thread p).parentTid).pc = some p

/-- A child whose struct is about to be looked up cannot get past the end of `process_exit`. -/
def Fresh (w : ExecWorld) (p : Nat) : Prop :=
  match (w.thread p).pc with
  | .lookupChild c | .pushChild c _ => c ∉ (w.thread p).childrenList ∧
    (w.thread c).exitStatusReadSema = 0 ∧ (w.thread c).pc ≠ .dead
  | _ => True

structure Inv (w : ExecWorld) : Prop where
  unborn : ∀ p, w.nextTid ≤ p → (w.thread p).pc = .unborn
  own : ∀ p, w.Own p
  sema : ∀ p, (w.thread p).pc ≠ .initial → w.SemaOk p
  awaited : ∀ p, starting (w.thread p).pc = true → w.Awaited p
  upSema : ∀ p result q, (w.thread p).pc = .upSema result q →
    (w.thread q).pc = .initial ∨ (w.thread q).childBornStatus = bornStatus result
  fresh : ∀ p, w.Fresh p
  children : ∀ p, ∀ c ∈ (w.thread p).childrenList,
    (w.thread c).parentTid = p ∧ (w.thread c).pc ≠ .unborn

variable {w w' : ExecWorld} {p q c x : Nat} {t : ExecThread} {result : Bool}

theorem init_pc (p : Nat) :
    (init.thread p).pc = .initial ∨ (init.thread p).pc = .unborn := by
  by_cases hp : p = 1
  · exact .inl (if_pos hp)
  · exact .inr (if_neg hp)

theorem Inv.of_init : init.Inv := by
  refine ⟨fun p hp => ?_, fun p => ?_, fun p hp => ?_, fun p hp => ?_, fun p r q hp => ?_,
    fun p => ?_, nofun⟩
  · have hne : p ≠ 1 := by
      change 2 ≤ p at hp
      omega
    exact if_neg hne
  · unfold Own
    rcases init_pc p with hpc | hpc <;> rw [hpc]
    · trivial
    · rfl
  · rcases init_pc p with hpc | hpc
    · exact absurd hpc hp
    · unfold SemaOk
      rw [hpc]
      rfl
  · rcases init_pc p with hpc | hpc <;> rw [hpc] at hp <;> nomatch hp
  · rcases init_pc p with hpc | hpc <;> rw [hpc] at hp <;> nomatch hp
  · unfold Fresh
    rcases init_pc p with hpc | hpc <;> rw [hpc] <;> trivial

/-! ### What other threads see of a step -/

@[simp] theorem setThread_thread_self (w : ExecWorld) (p : Nat) (t : ExecThread) :
    (w.setThread p t).thread p = t := by
  simp [setThread]

theorem setThread_thread_ne (w : ExecWorld) (t : ExecThread) (h : q ≠ p) :
    (w.setThread p t).thread q = w.thread q := by
  simp [setThread, h]

/-- What a change of thread `p` leaves alone in it, it leaves alone everywhere. -/
theorem setThread_same {β : Type} (f : ExecThread → β) (h : f t = f (w.thread p)) (q : Nat) :
    f ((w.setThread p t).thread q) = f (w.thread q) := by
  by_cases hq : q = p
  · rw [hq, setThread_thread_self, h]
  · rw [setThread_thread_ne w t hq]

/-- A thread that changed from `t` to `t'` is the same to its parent. -/
structure Alike (t t' : ExecThread) : Prop where
  parentTid : t'.parentTid = t.parentTid
  starting : starting t'.pc = starting t.pc
  initial : t'.pc = .initial ↔ t.pc = .initial
  born : t.pc ≠ .unborn ∧ t'.pc ≠ .unborn
  loaded : ∀ result, t.loaded = some result → t'.loaded = some result
  dies : t'.exitStatusReadSema = t.exitStatusReadSema ∧ t'.pc ≠ .dead ∨ 0 < t.exitStatusReadSema

/-- What was learnt of a child stays. -/
theorem LoadedAs.mono (h : w.LoadedAs c p result)
    (hparent : (w'.thread c).parentTid = (w.thread c).parentTid)
    (hloaded : ∀ result, (w.thread c).loaded = some result → (w'.thread c).loaded = some result) :
    w'.LoadedAs c p result :=
  ⟨hparent.trans h.1, hloaded _ h.2⟩

theorem LoadedAs.setThread (h : w.LoadedAs c p result)
    (hparent : t.parentTid = (w.thread x).parentTid)
    (hloaded : ∀ result, (w.thread x).loaded = some result → t.loaded = some result) :
    (w.setThread x t).LoadedAs c p result := by
  by_cases hc : c = x
  · subst hc
    exact h.mono (by rw [setThread_thread_self, hparent]) (by rwa [setThread_thread_self])
  · rwa [LoadedAs, setThread_thread_ne w t hc]

/-- What holds of a thread by itself stays when it does nothing. -/
theorem Own.frame (h : w.Own p) (hpc : (w'.thread p).pc = (w.thread p).pc)
    (hparent : (w'.thread p).parentTid = (w.thread p).parentTid)
    (hloaded : (w'.thread p).loaded = (w.thread p).loaded)
    (hstatus : (w.thread p).pc ≠ .initial → waitsFor (w.thread p).pc = none →
      (w'.thread p).childBornStatus = (w.thread p).childBornStatus)
    (hlearnt : ∀ c result, w.LoadedAs c p result → w'.LoadedAs c p result) : w'.Own p := by
  unfold Own at h ⊢
  rw [hpc, hparent, hloaded]
  cases hp : (w.thread p).pc with
  | testStatus threadId =>
    rw [hp] at h
    have hsame := hstatus (by rw [hp]; nofun) (by rw [hp]; rfl)
    cases threadId with
    | none =>
      dsimp only at h ⊢
      rwa [hsame]
    | some c =>
      obtain ⟨result, hchild, hbe⟩ := h
      exact ⟨result, hlearnt c result hchild, hsame.trans hbe⟩
  | returns threadId value =>
    rw [hp] at h
    cases threadId with
    | none => exact h
    | some c =>
      obtain ⟨result, hchild, hbe⟩ := h
      exact ⟨result, hlearnt c result hchild, hbe⟩
  | create =>
    rw [hp] at h
    exact (hstatus (by rw [hp]; nofun) (by rw [hp]; rfl)).trans h
  | _ =>
    rw [hp] at h
    exact h

/-- What holds of a semaphore stays when neither the thread nor the child it waits for changes in
what matters. -/
theorem SemaOk.frame (h : w.SemaOk p)
    (hwaits : waitsFor (w'.thread p).pc = waitsFor (w.thread p).pc)
    (hsema : (w'.thread p).childSema = (w.thread p).childSema)
    (hstatus : waitsFor (w.thread p).pc ≠ none →
      (w'.thread p).childBornStatus = (w.thread p).childBornStatus)
    (hchild : ∀ c, waitsFor (w.thread p).pc = some c →
      (w'.thread c).parentTid = (w.thread c).parentTid ∧
        starting (w'.thread c).pc = starting (w.thread c).pc ∧
          ∀ result, (w.thread c).loaded = some result → (w'.thread c).loaded = some result) :
    w'.SemaOk p := by
  unfold SemaOk at h ⊢
  rw [hwaits, hsema]
  cases hw : waitsFor (w.thread p).pc with
  | none =>
    rw [hw] at h
    exact h
  | some c =>
    rw [hw] at h
    obtain ⟨hparent, hstarting, hloaded⟩ := hchild c hw
    dsimp only at h ⊢
    rw [hparent, hstarting, hstatus (by rw [hw]; nofun)]
    refine ⟨h.1, ?_⟩
    by_cases hs : starting (w.thread c).pc = true
    · have hrest := h.2
      rw [if_pos hs] at hrest ⊢
      exact hrest
    · have hrest := h.2
      rw [if_neg hs] at hrest ⊢
      obtain ⟨hone, result, hresult, hbe⟩ := hrest
      exact ⟨hone, result, hloaded result hresult, hbe⟩

/-- The struct of a fresh child stays as it is. -/
theorem Fresh.frame (h : w.Fresh p) (hpc : (w'.thread p).pc = (w.thread p).pc)
    (hlist : (w'.thread p).childrenList = (w.thread p).childrenList)
    (hchild : ∀ c, waitsFor (w.thread p).pc = some c → (w.thread c).exitStatusReadSema = 0 →
      (w.thread c).pc ≠ .dead →
        (w'.thread c).exitStatusReadSema = 0 ∧ (w'.thread c).pc ≠ .dead) : w'.Fresh p := by
  unfold Fresh at h ⊢
  rw [hpc, hlist]
  cases hp : (w.thread p).pc with
  | lookupChild c | pushChild c chld =>
    rw [hp] at h
    obtain ⟨hmem, hsema, hdead⟩ := h
    exact ⟨hmem, hchild c (by rw [hp]; rfl) hsema hdead⟩
  | _ => trivial

/-- A thread that tells its parent is awaited by it. -/
theorem Inv.awaited_of_upSema (h : w.Inv) (hp : (w.thread p).pc = .upSema result q) :
    (w.thread q).pc = .initial ∨ waitsFor (w.thread q).pc = some p := by
  have hown := h.own p
  unfold Own at hown
  rw [hp] at hown
  obtain ⟨-, rfl⟩ := hown
  exact h.awaited p (by rw [hp]; rfl)

/-- A step of a thread that stays alike, and goes on waiting for a child that has not told it. -/
theorem Inv.setThread (h : w.Inv) (halike : Alike (w.thread x) t)
    (hawaits : ∀ p, waitsFor (w.thread x).pc = some p → starting (w.thread p).pc = true →
      waitsFor t.pc = some p)
    (hstatus : ∀ p result, waitsFor (w.thread x).pc = some p →
      (w.thread p).pc = .upSema result x → t.childBornStatus = (w.thread x).childBornStatus)
    (hown : (w.setThread x t).Own x)
    (hsema : t.pc ≠ .initial → (w.setThread x t).SemaOk x) (hfresh : (w.setThread x t).Fresh x)
    (hup : ∀ result q, t.pc = .upSema result q → ((w.setThread x t).thread q).pc = .initial ∨
      ((w.setThread x t).thread q).childBornStatus = bornStatus result)
    (hlist : ∀ c ∈ t.childrenList, (w.thread c).parentTid = x ∧ (w.thread c).pc ≠ .unborn) :
    (w.setThread x t).Inv := by
  have hself := setThread_thread_self w x t
  have hother := fun {p : Nat} (hp : p ≠ x) => setThread_thread_ne w t hp
  have hparent := setThread_same (fun t => t.parentTid) halike.parentTid
  have hstarting := setThread_same (fun t => starting t.pc) halike.starting
  have hloaded : ∀ p result, (w.thread p).loaded = some result →
      ((w.setThread x t).thread p).loaded = some result := by
    intro p result hresult
    by_cases hp : p = x
    · rw [hp, hself]
      exact halike.loaded result (hp ▸ hresult)
    · rwa [hother hp]
  have hinitial : ∀ p, ((w.setThread x t).thread p).pc = .initial ↔ (w.thread p).pc = .initial := by
    intro p
    by_cases hp : p = x
    · rw [hp, hself, halike.initial]
    · rw [hother hp]
  have hborn : ∀ p, ((w.setThread x t).thread p).pc = .unborn ↔ (w.thread p).pc = .unborn := by
    intro p
    by_cases hp : p = x
    · rw [hp, hself]
      exact iff_of_false halike.born.2 halike.born.1
    · rw [hother hp]
  refine ⟨fun p hp => (hborn p).mpr (h.unborn p hp), fun p => ?_, fun p hp => ?_, fun p hp => ?_,
    fun p result q hp => ?_, fun p => ?_, fun p c hc => ?_⟩
  · by_cases hp : p = x
    · rw [hp]
      exact hown
    · exact (h.own p).frame (by rw [hother hp]) (hparent p) (by rw [hother hp])
        (fun _ _ => by rw [hother hp]) fun c result hc => hc.mono (hparent c) (hloaded c)
  · by_cases hpx : p = x
    · subst hpx
      rw [hself] at hp
      exact hsema hp
    · rw [hother hpx] at hp
      exact (h.sema p hp).frame (by rw [hother hpx]) (by rw [hother hpx])
        (fun _ => by rw [hother hpx]) fun c _ => ⟨hparent c, hstarting c, hloaded c⟩
  · rw [hstarting] at hp
    unfold Awaited
    rw [hparent, hinitial]
    refine (h.awaited p hp).imp_right fun hwait => ?_
    by_cases hqx : (w.thread p).parentTid = x
    · rw [hqx, hself]
      exact hawaits p (hqx ▸ hwait) hp
    · rwa [hother hqx]
  · by_cases hpx : p = x
    · rw [hpx, hself] at hp
      exact hup result q hp
    · rw [hother hpx] at hp
      rw [hinitial]
      rcases h.awaited_of_upSema hp with hinit | hwait
      · exact .inl hinit
      · refine (h.upSema p result q hp).imp_right fun hbe => ?_
        by_cases hqx : q = x
        · subst hqx
          rwa [hself, hstatus p result hwait hp]
        · rwa [hother hqx]
  · by_cases hpx : p = x
    · rw [hpx]
      exact hfresh
    · refine (h.fresh p).frame (by rw [hother hpx]) (by rw [hother hpx]) fun c _ hread hdead => ?_
      by_cases hcx : c = x
      · subst hcx
        rw [hself]
        rcases halike.dies with ⟨hsame, hnot⟩ | hpos
        · exact ⟨hsame.trans hread, hnot⟩
        · omega
      · rw [hother hcx]
        exact ⟨hread, hdead⟩
  · rw [hparent, ne_eq, hborn]
    by_cases hpx : p = x
    · rw [hpx, hself] at hc
      rw [hpx]
      exact hlist c hc
    · rw [hother hpx] at hc
      exact h.children p c hc

/-- A thread that waits for no child before and after the step. -/
theorem Inv.moves (h : w.Inv) (halike : Alike (w.thread x) t)
    (hwaits : waitsFor (w.thread x).pc = none) (hwaits' : waitsFor t.pc = none)
    (hsame : t.childSema = (w.thread x).childSema)
    (hown : (w.setThread x t).Own x)
    (hup : ∀ result q, t.pc = .upSema result q → ((w.setThread x t).thread q).pc = .initial ∨
      ((w.setThread x t).thread q).childBornStatus = bornStatus result)
    (hlist : ∀ c ∈ t.childrenList, c ∈ (w.thread x).childrenList) :
    (w.setThread x t).Inv := by
  refine h.setThread halike (fun p hp => ?_) (fun p result hp => ?_) hown (fun hnot => ?_) ?_ hup
    fun c hc => h.children x c (hlist c hc)
  · rw [hwaits] at hp
    nomatch hp
  · rw [hwaits] at hp
    nomatch hp
  · have hold := h.sema x fun heq => hnot (halike.initial.mpr heq)
    unfold SemaOk at hold ⊢
    rw [hwaits] at hold
    rw [setThread_thread_self, hwaits', hsame]
    exact hold
  · unfold Fresh
    rw [setThread_thread_self]
    cases hpc : t.pc <;> first | trivial | (rw [hpc] at hwaits'; nomatch hwaits')

/-! ### The steps -/

/-- The thread that a child tells how its `load` ended is not the child. -/
theorem Inv.parent_ne (h : w.Inv) (hp : starting (w.thread p).pc = true) :
    (w.thread p).parentTid ≠ p := by
  intro heq
  have hawaited := h.awaited p hp
  unfold Awaited at hawaited
  rw [heq, waitsFor_of_starting hp] at hawaited
  rcases hawaited with hinit | hwait
  · rw [hinit] at hp
    nomatch hp
  · nomatch hwait

/-- `lookup_tid` finds the parent of a thread that has not told it. -/
theorem Inv.lookup_parent (h : w.Inv) (hp : starting (w.thread p).pc = true) :
    w.lookupTid (w.thread p).parentTid = some (w.thread p).parentTid := by
  rw [lookupTid, if_neg]
  rcases h.awaited p hp with hinit | hwait
  · rw [hinit]
    simp
  · have halive := alive_of_waitsFor hwait
    simp [halive]

/-- `child_born_status` of the parent is set. -/
theorem Inv.setStatus (h : w.Inv) (hp : (w.thread p).pc = .setStatus result q) :
    ((w.setThread q { w.thread q with childBornStatus := bornStatus result }).setPc p
      (.upSema result q)).Inv := by
  have hown := h.own p
  unfold Own at hown
  rw [hp] at hown
  obtain ⟨hloaded, hq⟩ := hown
  have hstarting : starting (w.thread p).pc = true := by rw [hp]; rfl
  have hne : q ≠ p := hq ▸ h.parent_ne hstarting
  have hawaited := h.awaited p hstarting
  unfold Awaited at hawaited
  rw [← hq] at hawaited
  have hborn : (w.thread q).pc ≠ .unborn ∧ (w.thread q).pc ≠ .dead := by
    rcases hawaited with hinit | hwait
    · rw [hinit]
      exact ⟨nofun, nofun⟩
    · exact ⟨(alive_of_waitsFor hwait).1, (alive_of_waitsFor hwait).2.1⟩
  have hinv : (w.setThread q { w.thread q with childBornStatus := bornStatus result }).Inv := by
    refine h.setThread ⟨rfl, rfl, Iff.rfl, ⟨hborn.1, hborn.1⟩, fun _ h => h, .inl ⟨rfl, hborn.2⟩⟩
      (fun p' hp' _ => hp') (fun p' result' hwait hp' => ?_) ?_ (fun hnot => ?_) ?_ ?_
      fun c hc => h.children q c hc
    · rcases hawaited with hinit | hwait'
      · rw [hinit] at hwait
        nomatch hwait
      · obtain rfl := Option.some.inj (hwait'.symm.trans hwait)
        rw [hp] at hp'
        nomatch hp'
    · refine (h.own q).frame (by rw [setThread_thread_self]) (by rw [setThread_thread_self])
        (by rw [setThread_thread_self]) (fun hnot hnone => ?_)
        fun c r hc => hc.setThread rfl fun _ h => h
      rcases hawaited with hinit | hwait
      · exact absurd hinit hnot
      · rw [hwait] at hnone
        nomatch hnone
    · rcases hawaited with hinit | hwait
      · exact absurd hinit hnot
      · have hold := h.sema q hnot
        unfold SemaOk at hold ⊢
        rw [hwait] at hold
        rw [setThread_thread_self, hwait]
        dsimp only at hold ⊢
        rw [setThread_thread_ne _ _ hne.symm, if_pos hstarting]
        rw [if_pos hstarting] at hold
        exact hold
    · refine (h.fresh q).frame (by rw [setThread_thread_self]) (by rw [setThread_thread_self])
        fun c _ hread hdead => ?_
      by_cases hcq : c = q
      · subst hcq
        rw [setThread_thread_self]
        exact ⟨hread, hdead⟩
      · rw [setThread_thread_ne _ _ hcq]
        exact ⟨hread, hdead⟩
    · intro r q' hup
      rcases hawaited with hinit | hwait
      · rw [hinit] at hup
        nomatch hup
      · rw [show (w.thread q).pc = _ from hup] at hwait
        nomatch hwait
  have hself := setThread_thread_ne w { w.thread q with childBornStatus := bornStatus result }
    hne.symm
  refine hinv.moves ⟨rfl, ?_, ?_, ?_, fun _ h => h, ?_⟩ ?_ rfl rfl ?_ (fun r q' hup => ?_)
    fun c hc => hc
  · rw [hself, hp]
    rfl
  · rw [hself, hp]
    exact iff_of_false nofun nofun
  · rw [hself, hp]
    exact ⟨nofun, nofun⟩
  · exact .inl ⟨rfl, nofun⟩
  · rw [hself, hp]
    rfl
  · unfold Own
    rw [setThread_thread_self]
    dsimp only
    rw [hself]
    exact ⟨hloaded, hq⟩
  · cases hup
    rw [setThread_thread_ne _ _ hne, setThread_thread_self]
    exact .inr rfl

/-- The parent is told. -/
theorem Inv.tell (h : w.Inv) (hp : (w.thread p).pc = .upSema result q) :
    ((w.setThread q { w.thread q with childSema := (w.thread q).childSema + 1 }).setPc p
      (started result)).Inv := by
  have hown := h.own p
  unfold Own at hown
  rw [hp] at hown
  obtain ⟨hloaded, hq⟩ := hown
  have hstarting : starting (w.thread p).pc = true := by rw [hp]; rfl
  have hne : q ≠ p := hq ▸ h.parent_ne hstarting
  have hawaited := h.awaited_of_upSema hp
  have hsemaP := h.sema p (by rw [hp]; nofun)
  unfold SemaOk at hsemaP
  rw [hp] at hsemaP
  generalize hw' : (w.setThread q { w.thread q with
    childSema := (w.thread q).childSema + 1 }).setPc p (started result) = w'
  have hthreadP : w'.thread p = { w.thread p with pc := started result } := by
    rw [← hw', setPc, setThread_thread_self, setThread_thread_ne _ _ hne.symm]
  have hthreadQ : w'.thread q = { w.thread q with childSema := (w.thread q).childSema + 1 } := by
    rw [← hw', setPc, setThread_thread_ne _ _ hne, setThread_thread_self]
  have hother : ∀ y, y ≠ p → y ≠ q → w'.thread y = w.thread y := fun y hyp hyq => by
    rw [← hw', setPc, setThread_thread_ne _ _ hyp, setThread_thread_ne _ _ hyq]
  have hsame : ∀ y, (w'.thread y).parentTid = (w.thread y).parentTid ∧
      (w'.thread y).loaded = (w.thread y).loaded ∧
      (w'.thread y).childBornStatus = (w.thread y).childBornStatus ∧
      (w'.thread y).exitStatusReadSema = (w.thread y).exitStatusReadSema ∧
      (w'.thread y).childrenList = (w.thread y).childrenList := by
    intro y
    by_cases hyp : y = p
    · rw [hyp, hthreadP]
      exact ⟨rfl, rfl, rfl, rfl, rfl⟩
    · by_cases hyq : y = q
      · rw [hyq, hthreadQ]
        exact ⟨rfl, rfl, rfl, rfl, rfl⟩
      · rw [hother y hyp hyq]
        exact ⟨rfl, rfl, rfl, rfl, rfl⟩
  have hpc : ∀ y, y ≠ p → (w'.thread y).pc = (w.thread y).pc := by
    intro y hyp
    by_cases hyq : y = q
    · rw [hyq, hthreadQ]
    · rw [hother y hyp hyq]
  have hpcP : (w'.thread p).pc = started result := by rw [hthreadP]
  have hnext : w'.nextTid = w.nextTid := by rw [← hw']; rfl
  refine ⟨fun y hy => ?_, fun y => ?_, fun y hy => ?_, fun y hy => ?_, fun y r z hy => ?_,
    fun y => ?_, fun y c hc => ?_⟩
  · have hborn := h.unborn y (hnext ▸ hy)
    rw [hpc y]
    · exact hborn
    · rintro rfl
      rw [hp] at hborn
      nomatch hborn
  · by_cases hyp : y = p
    · unfold Own
      rw [hyp, hpcP]
      cases result <;> trivial
    · exact (h.own y).frame (hpc y hyp) (hsame y).1 (hsame y).2.1 (fun _ _ => (hsame y).2.2.1)
        fun c r hc => hc.mono (hsame c).1 fun r hr => (hsame c).2.1.trans hr
  · by_cases hyp : y = p
    · unfold SemaOk
      rw [hyp, hthreadP]
      cases result <;> exact hsemaP
    · rw [hpc y hyp] at hy
      by_cases hyq : y = q
      · subst hyq
        have hwait := hawaited.resolve_left hy
        have hold := h.sema y hy
        have hstatus := (h.upSema p result y hp).resolve_left hy
        unfold SemaOk at hold ⊢
        rw [hwait] at hold
        dsimp only at hold
        rw [if_pos hstarting] at hold
        rw [hpc y hyp, hwait]
        dsimp only
        rw [(hsame p).1, hpcP, (hsame p).2.1, (hsame y).2.2.1, hthreadQ]
        refine ⟨hold.1, ?_⟩
        have hnot : starting (started result) = false := by cases result <;> rfl
        rw [hnot, if_neg Bool.false_ne_true]
        exact ⟨congrArg (· + 1) hold.2, result, hloaded, hstatus⟩
      · refine (h.sema y hy).frame (by rw [hpc y hyp]) (by rw [hother y hyp hyq])
          (fun _ => (hsame y).2.2.1) fun c hc =>
            ⟨(hsame c).1, ?_, fun r hr => (hsame c).2.1.trans hr⟩
        have hcp : c ≠ p := by
          rintro rfl
          have hold := h.sema y hy
          unfold SemaOk at hold
          rw [hc] at hold
          exact hyq (hold.1.symm.trans hq.symm)
        rw [hpc c hcp]
  · have hyp : y ≠ p := by
      rintro rfl
      rw [hpcP] at hy
      cases result <;> nomatch hy
    rw [hpc y hyp] at hy
    have hold := h.awaited y hy
    unfold Awaited at hold ⊢
    rw [(hsame y).1]
    have hparent : (w.thread y).parentTid ≠ p := by
      intro heq
      rw [heq, hp] at hold
      rcases hold with hold | hold <;> nomatch hold
    rwa [hpc _ hparent]
  · have hyp : y ≠ p := by
      rintro rfl
      rw [hpcP] at hy
      cases result <;> nomatch hy
    rw [hpc y hyp] at hy
    rw [(hsame z).2.2.1]
    refine (h.upSema y r z hy).imp_left fun hinit => ?_
    rw [hpc z]
    · exact hinit
    · rintro rfl
      rw [hp] at hinit
      nomatch hinit
  · by_cases hyp : y = p
    · unfold Fresh
      rw [hyp, hpcP]
      cases result <;> trivial
    · refine (h.fresh y).frame (hpc y hyp) (hsame y).2.2.2.2 fun c _ hread hdead => ?_
      rw [(hsame c).2.2.2.1]
      refine ⟨hread, ?_⟩
      by_cases hcp : c = p
      · rw [hcp, hpcP]
        cases result <;> nofun
      · rwa [hpc c hcp]
  · rw [(hsame y).2.2.2.2] at hc
    obtain ⟨hparent, hborn⟩ := h.children y c hc
    rw [(hsame c).1]
    refine ⟨hparent, ?_⟩
    by_cases hcp : c = p
    · rw [hcp, hpcP]
      cases result <;> nofun
    · rwa [hpc c hcp]

/-- No thread knows of one that was not created. -/
structure Unknown (w : ExecWorld) (n : Nat) : Prop where
  loaded : ∀ r, (w.thread n).loaded ≠ some r
  waits : ∀ y, waitsFor (w.thread y).pc ≠ some n
  parent : ∀ y, starting (w.thread y).pc = true → (w.thread y).parentTid ≠ n
  children : ∀ y, n ∉ (w.thread y).childrenList

theorem Inv.unknown (h : w.Inv) (hn : (w.thread c).pc = .unborn) : w.Unknown c := by
  have hloaded : (w.thread c).loaded = none := by
    have hown := h.own c
    unfold Own at hown
    rw [hn] at hown
    exact hown
  refine ⟨fun r hr => ?_, fun y hy => ?_, fun y hy heq => ?_, fun y hy => ?_⟩
  · rw [hloaded] at hr
    nomatch hr
  · have hsema := h.sema y (alive_of_waitsFor hy).2.2
    unfold SemaOk at hsema
    rw [hy] at hsema
    dsimp only at hsema
    rw [hn, hloaded] at hsema
    obtain ⟨-, -, r, hr, -⟩ := hsema
    nomatch hr
  · have hawaited := h.awaited y hy
    unfold Awaited at hawaited
    rw [heq, hn] at hawaited
    rcases hawaited with hawaited | hawaited <;> nomatch hawaited
  · exact (h.children y c hy).2 hn

/-- Thread `p` creates a thread, which it waits for unless it is the initial thread. -/
theorem Inv.spawn (h : w.Inv) (hborn : (w.thread p).pc ≠ .unborn)
    (hstarting : starting (w.thread p).pc = false) (hwaits : waitsFor (w.thread p).pc = none)
    (hpc : t.pc = .initial ∧ (w.thread p).pc = .initial ∨
      t.pc = .lookupChild w.nextTid ∧ (w.thread p).pc ≠ .initial ∧
        t.childrenList = (w.thread p).childrenList)
    (hsame : t.parentTid = (w.thread p).parentTid ∧ t.loaded = (w.thread p).loaded ∧
      t.childBornStatus = (w.thread p).childBornStatus ∧ t.childSema = (w.thread p).childSema ∧
      t.exitStatusReadSema = (w.thread p).exitStatusReadSema)
    (hlist : ∀ c ∈ t.childrenList, c ∈ (w.thread p).childrenList ∨ c = w.nextTid) :
    Inv { (w.setThread w.nextTid (created p)).setThread p t with nextTid := w.nextTid + 1 } := by
  have hunborn := h.unborn
  generalize w.nextTid = n at hunborn hpc hlist ⊢
  have hn := hunborn n (Nat.le_refl n)
  have hunknown := h.unknown hn
  have hpn : p ≠ n := by
    rintro rfl
    exact hborn hn
  generalize hw' : ({ (w.setThread n (created p)).setThread p t with nextTid := n + 1 } :
    ExecWorld) = w'
  have hthreadP : w'.thread p = t := by
    rw [← hw']
    exact setThread_thread_self _ p t
  have hthreadN : w'.thread n = created p := by
    rw [← hw']
    exact (setThread_thread_ne _ t hpn.symm).trans (setThread_thread_self w n _)
  have hother : ∀ y, y ≠ p → y ≠ n → w'.thread y = w.thread y := fun y hyp hyn => by
    rw [← hw']
    exact (setThread_thread_ne _ t hyp).trans (setThread_thread_ne w _ hyn)
  have hnext : w'.nextTid = n + 1 := by rw [← hw']
  have htpc : starting t.pc = false ∧ t.pc ≠ .unborn ∧ t.pc ≠ .dead ∧
      ((w.thread p).pc = .initial → t.pc = .initial) := by
    rcases hpc with ⟨hinit, -⟩ | ⟨hlookup, hnot, -⟩
    · rw [hinit]
      exact ⟨rfl, nofun, nofun, fun _ => rfl⟩
    · rw [hlookup]
      exact ⟨rfl, nofun, nofun, fun heq => absurd heq hnot⟩
  obtain ⟨hparent, hloaded, hstatus, hsema, hread⟩ := hsame
  have hkept : ∀ y, y ≠ n → (w'.thread y).parentTid = (w.thread y).parentTid ∧
      (w'.thread y).loaded = (w.thread y).loaded ∧
      (w'.thread y).childBornStatus = (w.thread y).childBornStatus ∧
      (w'.thread y).exitStatusReadSema = (w.thread y).exitStatusReadSema ∧
      starting (w'.thread y).pc = starting (w.thread y).pc ∧
      ((w.thread y).pc = .initial → (w'.thread y).pc = .initial) ∧
      ((w.thread y).pc ≠ .unborn → (w'.thread y).pc ≠ .unborn) := by
    intro y hyn
    by_cases hyp : y = p
    · rw [hyp, hthreadP, hstarting]
      exact ⟨hparent, hloaded, hstatus, hread, htpc.1, htpc.2.2.2, fun _ => htpc.2.1⟩
    · rw [hother y hyp hyn]
      exact ⟨rfl, rfl, rfl, rfl, rfl, id, id⟩
  refine ⟨fun y hy => ?_, fun y => ?_, fun y hy => ?_, fun y hy => ?_, fun y r z hy => ?_,
    fun y => ?_, fun y c hc => ?_⟩
  · rw [hnext] at hy
    have hfree := hunborn y (by omega)
    have hyp : y ≠ p := by
      rintro rfl
      exact hborn hfree
    rwa [hother y hyp (by omega)]
  · by_cases hyn : y = n
    · unfold Own
      rw [hyn, hthreadN]
      rfl
    · by_cases hyp : y = p
      · unfold Own
        rw [hyp, hthreadP]
        rcases hpc with ⟨hinit, -⟩ | ⟨hlookup, -⟩
        · rw [hinit]
          trivial
        · rw [hlookup]
          trivial
      · refine (h.own y).frame (by rw [hother y hyp hyn]) (hkept y hyn).1 (hkept y hyn).2.1
          (fun _ _ => (hkept y hyn).2.2.1) fun c r hc => ?_
        have hcn : c ≠ n := by
          rintro rfl
          exact hunknown.loaded r hc.2
        exact hc.mono (hkept c hcn).1 fun r hr => (hkept c hcn).2.1.trans hr
  · by_cases hyn : y = n
    · unfold SemaOk
      rw [hyn, hthreadN]
      rfl
    · by_cases hyp : y = p
      · subst hyp
        rw [hthreadP] at hy
        obtain ⟨hlookup, hnot, -⟩ := hpc.resolve_left fun hinit => hy hinit.1
        have hold := h.sema y hnot
        unfold SemaOk at hold ⊢
        rw [hwaits] at hold
        rw [hthreadP, hlookup]
        dsimp only [waitsFor]
        rw [hthreadN, if_pos (show starting (created y).pc = true from rfl), hsema]
        exact ⟨rfl, hold⟩
      · rw [hother y hyp hyn] at hy
        refine (h.sema y hy).frame (by rw [hother y hyp hyn]) (by rw [hother y hyp hyn])
          (fun _ => (hkept y hyn).2.2.1) fun c hc => ?_
        have hcn : c ≠ n := by
          rintro rfl
          exact hunknown.waits y hc
        exact ⟨(hkept c hcn).1, (hkept c hcn).2.2.2.2.1, fun r hr => (hkept c hcn).2.1.trans hr⟩
  · by_cases hyn : y = n
    · unfold Awaited
      rw [hyn, hthreadN]
      dsimp only [created]
      rw [hthreadP]
      rcases hpc with ⟨hinit, -⟩ | ⟨hlookup, -⟩
      · exact .inl hinit
      · rw [hlookup]
        exact .inr rfl
    · rw [(hkept y hyn).2.2.2.2.1] at hy
      have hold := h.awaited y hy
      unfold Awaited at hold ⊢
      rw [(hkept y hyn).1]
      have hzn := hunknown.parent y hy
      refine hold.imp (hkept _ hzn).2.2.2.2.2.1 fun hwait => ?_
      by_cases hzp : (w.thread y).parentTid = p
      · rw [hzp, hwaits] at hwait
        nomatch hwait
      · rwa [hother _ hzp hzn]
  · have hyn : y ≠ n := by
      rintro rfl
      rw [hthreadN] at hy
      nomatch hy
    have hyp : y ≠ p := by
      rintro rfl
      have hnot := htpc.1
      rw [hthreadP] at hy
      rw [hy] at hnot
      nomatch hnot
    rw [hother y hyp hyn] at hy
    have hzn : z ≠ n := by
      rintro rfl
      have hold := h.awaited_of_upSema hy
      rw [hn] at hold
      rcases hold with hold | hold <;> nomatch hold
    rw [(hkept z hzn).2.2.1]
    exact (h.upSema y r z hy).imp_left (hkept z hzn).2.2.2.2.2.1
  · by_cases hyn : y = n
    · unfold Fresh
      rw [hyn, hthreadN]
      trivial
    · by_cases hyp : y = p
      · unfold Fresh
        rw [hyp, hthreadP]
        rcases hpc with ⟨hinit, -⟩ | ⟨hlookup, -, hsame⟩
        · rw [hinit]
          trivial
        · rw [hlookup]
          dsimp only
          rw [hthreadN, hsame]
          exact ⟨hunknown.children p, rfl, nofun⟩
      · refine (h.fresh y).frame (by rw [hother y hyp hyn]) (by rw [hother y hyp hyn])
          fun c hc hzero hdead => ?_
        have hcn : c ≠ n := by
          rintro rfl
          exact hunknown.waits y hc
        rw [(hkept c hcn).2.2.2.1]
        refine ⟨hzero, ?_⟩
        by_cases hcp : c = p
        · rw [hcp, hthreadP]
          exact htpc.2.2.1
        · rwa [hother c hcp hcn]
  · have hchild : ∀ c z, c ∈ (w.thread z).childrenList →
        (w'.thread c).parentTid = z ∧ (w'.thread c).pc ≠ .unborn := by
      intro c z hc
      have hcn : c ≠ n := by
        rintro rfl
        exact hunknown.children z hc
      obtain ⟨hcparent, hcborn⟩ := h.children z c hc
      exact ⟨(hkept c hcn).1.trans hcparent, (hkept c hcn).2.2.2.2.2.2 hcborn⟩
    by_cases hyn : y = n
    · rw [hyn, hthreadN] at hc
      nomatch hc
    · by_cases hyp : y = p
      · subst hyp
        rw [hthreadP] at hc
        rcases hlist c hc with hold | rfl
        · exact hchild c y hold
        · rw [hthreadN]
          exact ⟨rfl, nofun⟩
      · rw [hother y hyp hyn] at hc
        exact hchild c y hc

/-- What does not read `exit_status_read_sema` does not see it raised. -/
theorem letGo_same {β : Type} (f : ExecThread → β)
    (hf : ∀ t : ExecThread, ∀ k, f { t with exitStatusReadSema := k } = f t) (l : List Nat)
    (p : Nat) : f ((w.letGo l).thread p) = f (w.thread p) := by
  unfold letGo
  dsimp only
  split
  · exact hf _ _
  · rfl

@[simp] theorem letGo_pc (w : ExecWorld) (l : List Nat) (p : Nat) :
    ((w.letGo l).thread p).pc = (w.thread p).pc := letGo_same (fun t => t.pc) (fun _ _ => rfl) l p

/-- Thread `p` lets children go. -/
theorem Inv.letGo (h : w.Inv) {l : List Nat} (hl : ∀ c ∈ l, (w.thread c).parentTid = p)
    (hwaits : waitsFor (w.thread p).pc = none) : (w.letGo l).Inv := by
  have hpc := letGo_pc w l
  have hparent := letGo_same (w := w) (fun t => t.parentTid) (fun _ _ => rfl) l
  have hloaded := letGo_same (w := w) (fun t => t.loaded) (fun _ _ => rfl) l
  have hstatus := letGo_same (w := w) (fun t => t.childBornStatus) (fun _ _ => rfl) l
  have hsema := letGo_same (w := w) (fun t => t.childSema) (fun _ _ => rfl) l
  have hlist := letGo_same (w := w) (fun t => t.childrenList) (fun _ _ => rfl) l
  refine ⟨fun y hy => ?_, fun y => ?_, fun y hy => ?_, fun y hy => ?_, fun y r z hy => ?_,
    fun y => ?_, fun y c hc => ?_⟩
  · rw [hpc]
    exact h.unborn y hy
  · exact (h.own y).frame (hpc y) (hparent y) (hloaded y) (fun _ _ => hstatus y)
      fun c r hc => hc.mono (hparent c) fun r hr => (hloaded c).trans hr
  · rw [hpc] at hy
    exact (h.sema y hy).frame (by rw [hpc]) (hsema y) (fun _ => hstatus y)
      fun c _ => ⟨hparent c, by rw [hpc], fun r hr => (hloaded c).trans hr⟩
  · rw [hpc] at hy
    unfold Awaited
    rw [hparent, hpc]
    exact h.awaited y hy
  · rw [hpc] at hy
    rw [hpc, hstatus]
    exact h.upSema y r z hy
  · refine (h.fresh y).frame (hpc y) (hlist y) fun c hc hread hdead => ?_
    have hcl : c ∉ l := by
      intro hmem
      have hold := h.sema y (alive_of_waitsFor hc).2.2
      unfold SemaOk at hold
      rw [hc] at hold
      have hyp := hold.1.symm.trans (hl c hmem)
      rw [hyp, hwaits] at hc
      nomatch hc
    rw [show (w.letGo l).thread c = w.thread c from if_neg hcl]
    exact ⟨hread, hdead⟩
  · rw [hlist] at hc
    rw [hparent, hpc]
    exact h.children y c hc

/-- A thread goes on and waits for no child. -/
theorem Inv.goes (h : w.Inv) {old pc : ExecPc} (hold : (w.thread x).pc = old)
    (hborn : old ≠ .unborn ∧ pc ≠ .unborn) (hinitial : old ≠ .initial ∧ pc ≠ .initial)
    (hstarting : starting pc = starting old) (hwaits : waitsFor old = none)
    (hwaits' : waitsFor pc = none) (hdead : pc ≠ .dead) (hup : ∀ result q, pc ≠ .upSema result q)
    (hown : (w.setPc x pc).Own x) : (w.setPc x pc).Inv := by
  subst hold
  exact h.moves ⟨rfl, hstarting, iff_of_false hinitial.2 hinitial.1, hborn, fun _ h => h,
    .inl ⟨rfl, hdead⟩⟩ hwaits hwaits' rfl hown (fun result q heq => absurd heq (hup result q))
    fun _ hc => hc

theorem own_of_pc {pc : ExecPc} (hw : (w.thread p).pc = pc)
    (hpc : pc = .user ∨ pc = .resetStatus ∨ pc = .exitUp ∨ pc = .exitDown ∨ pc = .dead ∨
      pc = .initial ∨ ∃ c, pc = .downSema c) : w.Own p := by
  unfold Own
  rw [hw]
  obtain rfl | rfl | rfl | rfl | rfl | rfl | ⟨c, rfl⟩ := hpc <;> trivial

/-- A thread that calls `exec` or exits. -/
theorem Inv.user (h : w.Inv) {pc : ExecPc} (hpc : pc = .resetStatus ∨ pc = .exitUp)
    (hrun : userStep x pc w = .ok ((), w')) : w'.Inv := by
  rw [userStep, Routine.get_bind_apply] at hrun
  split at hrun
  · rename_i huser
    cases hrun
    have hown : (w.setPc x pc).Own x := by
      refine own_of_pc (by rw [setPc, setThread_thread_self]) ?_
      rcases hpc with rfl | rfl <;> simp
    rcases hpc with rfl | rfl
    · exact h.goes huser ⟨nofun, nofun⟩ ⟨nofun, nofun⟩ rfl rfl rfl nofun nofun hown
    · exact h.goes huser ⟨nofun, nofun⟩ ⟨nofun, nofun⟩ rfl rfl rfl nofun nofun hown
  · cases hrun

/-- The child that thread `p` looks up is alive, and is the thread that it created. -/
theorem Inv.lookup_child (h : w.Inv) (hp : (w.thread p).pc = .lookupChild c) :
    w.lookupTid c = some c := by
  have hfresh := h.fresh p
  unfold Fresh at hfresh
  rw [hp] at hfresh
  have hborn : (w.thread c).pc ≠ .unborn := by
    intro hn
    exact (h.unknown hn).waits p (by rw [hp]; rfl)
  rw [lookupTid, if_neg (by simp [hborn, hfresh.2.2])]

theorem starting_of_waitsFor {pc : ExecPc} (h : waitsFor pc = some c) : starting pc = false := by
  cases hs : starting pc with
  | false => rfl
  | true =>
    rw [waitsFor_of_starting hs] at h
    nomatch h

/-- The child that thread `p` waits for. -/
theorem Inv.waited (h : w.Inv) (hc : waitsFor (w.thread p).pc = some c) :
    (w.thread c).parentTid = p ∧ (w.thread c).pc ≠ .unborn := by
  have hsema := h.sema p (alive_of_waitsFor hc).2.2
  unfold SemaOk at hsema
  rw [hc] at hsema
  exact ⟨hsema.1, fun hn => (h.unknown hn).waits p hc⟩

/-- A thread that waits for a child keeps doing so. -/
theorem Inv.keepsWaiting (h : w.Inv) (hc : waitsFor (w.thread x).pc = some c)
    (hc' : waitsFor t.pc = some c)
    (hsame : t.parentTid = (w.thread x).parentTid ∧ t.loaded = (w.thread x).loaded ∧
      t.childBornStatus = (w.thread x).childBornStatus ∧ t.childSema = (w.thread x).childSema ∧
      t.exitStatusReadSema = (w.thread x).exitStatusReadSema)
    (hown : (w.setThread x t).Own x) (hfresh : (w.setThread x t).Fresh x)
    (hlist : ∀ d ∈ t.childrenList, d ∈ (w.thread x).childrenList ∨ d = c) :
    (w.setThread x t).Inv := by
  obtain ⟨hparent, hloaded, hstatus, hsema, hread⟩ := hsame
  have halive := alive_of_waitsFor hc
  have halive' := alive_of_waitsFor hc'
  have hstarting := starting_of_waitsFor hc
  have hstarting' := starting_of_waitsFor hc'
  have halike : Alike (w.thread x) t := by
    refine ⟨hparent, by rw [hstarting, hstarting'], iff_of_false halive'.2.2 halive.2.2,
      ⟨halive.1, halive'.1⟩, fun r hr => hloaded.trans hr, .inl ⟨hread, halive'.2.1⟩⟩
  refine h.setThread halike (fun p hp _ => ?_) (fun _ _ _ _ => hstatus) hown (fun _ => ?_) hfresh
    (fun r q hup => ?_) fun d hd => ?_
  · exact hc'.trans (hc.symm.trans hp)
  · refine (h.sema x halive.2.2).frame ?_ ?_ (fun _ => ?_) fun d _ => ⟨?_, ?_, fun r hr => ?_⟩
    · rw [setThread_thread_self, hc, hc']
    · rw [setThread_thread_self, hsema]
    · rw [setThread_thread_self, hstatus]
    · exact setThread_same (fun t => t.parentTid) hparent d
    · exact setThread_same (fun t => starting t.pc) halike.starting d
    · exact (setThread_same (fun t => t.loaded) hloaded d).trans hr
  · rw [hup] at hc'
    nomatch hc'
  · rcases hlist d hd with hold | rfl
    · exact h.children x d hold
    · exact h.waited hc

/-- The child has told that its `load` ended. -/
theorem Inv.downSema (h : w.Inv) (hp : (w.thread x).pc = .downSema c)
    (hpos : (w.thread x).childSema ≠ 0) :
    (w.setThread x { w.thread x with
      pc := .testStatus (some c), childSema := (w.thread x).childSema - 1 }).Inv := by
  have hsema := h.sema x (by rw [hp]; nofun)
  unfold SemaOk at hsema
  rw [hp] at hsema
  obtain ⟨hparent, htold⟩ := hsema
  have hnot : ¬ starting (w.thread c).pc = true := fun hs => by
    rw [if_pos hs] at htold
    exact hpos htold
  rw [if_neg hnot] at htold
  obtain ⟨hone, result, hresult, hstatus⟩ := htold
  refine h.setThread ⟨rfl, by rw [hp]; rfl, by rw [hp]; exact iff_of_false nofun nofun,
    ⟨by rw [hp]; nofun, nofun⟩, fun _ h => h, .inl ⟨rfl, nofun⟩⟩ (fun p hwait hs => ?_)
    (fun _ _ _ _ => rfl) ?_ (fun _ => ?_) ?_ nofun fun d hd => h.children x d hd
  · rw [hp] at hwait
    cases hwait
    exact absurd hs hnot
  · unfold Own
    rw [setThread_thread_self]
    exact ⟨result, LoadedAs.setThread ⟨hparent, hresult⟩ rfl fun _ h => h, hstatus⟩
  · unfold SemaOk
    rw [setThread_thread_self]
    show (w.thread x).childSema - 1 = 0
    rw [hone]
  · unfold Fresh
    rw [setThread_thread_self]
    trivial

theorem setPc_self (w : ExecWorld) (p : Nat) (pc : ExecPc) :
    (w.setPc p pc).thread p = { w.thread p with pc } := setThread_thread_self w p _

/-- A new process knows how its `load` ended. -/
theorem Inv.loads (h : w.Inv) (hp : (w.thread x).pc = .load) (result : Bool) :
    (w.setThread x { w.thread x with pc := .lookupParent result, loaded := some result }).Inv := by
  have hown := h.own x
  unfold Own at hown
  rw [hp] at hown
  refine h.moves ⟨rfl, by rw [hp]; rfl, by rw [hp]; exact iff_of_false nofun nofun,
    ⟨by rw [hp]; nofun, nofun⟩, fun r hr => ?_, .inl ⟨rfl, nofun⟩⟩ (by rw [hp]; rfl) rfl rfl ?_
    nofun fun c hc => hc
  · rw [hown] at hr
    nomatch hr
  · unfold Own
    rw [setThread_thread_self]

theorem Inv.resets (h : w.Inv) (hp : (w.thread x).pc = .resetStatus) :
    (w.setThread x { w.thread x with pc := .create, childBornStatus := 0 }).Inv := by
  refine h.moves ⟨rfl, by rw [hp]; rfl, by rw [hp]; exact iff_of_false nofun nofun,
    ⟨by rw [hp]; nofun, nofun⟩, fun _ h => h, .inl ⟨rfl, nofun⟩⟩ (by rw [hp]; rfl) rfl rfl ?_
    nofun fun c hc => hc
  unfold Own
  rw [setThread_thread_self]

/-- What `exec` returns is decided by the status that the child left. -/
theorem Inv.tests (h : w.Inv) {threadId : Option Nat}
    (hp : (w.thread x).pc = .testStatus threadId) :
    (w.setPc x (.returns threadId (if (w.thread x).childBornStatus = -1 then -1 else
      match threadId with
      | some tid => tid
      | none => tidError))).Inv := by
  have hown := h.own x
  unfold Own at hown
  rw [hp] at hown
  refine h.goes hp ⟨nofun, nofun⟩ ⟨nofun, nofun⟩ rfl rfl rfl nofun nofun ?_
  unfold Own
  rw [setPc_self]
  cases threadId with
  | none =>
    show (if (w.thread x).childBornStatus = -1 then (-1 : Int) else tidError) = -1
    rw [tidError, ite_self]
  | some c =>
    obtain ⟨result, hchild, hstatus⟩ := hown
    refine ⟨result, hchild.setThread rfl fun _ h => h, ?_⟩
    rw [hstatus]
    cases result <;> rfl

/-- A thread that exits lets all its children go. -/
theorem Inv.exitsUp (h : w.Inv) (hp : (w.thread x).pc = .exitUp) :
    ((w.letGo (w.thread x).childrenList).setPc x .exitDown).Inv := by
  have hgone := h.letGo (l := (w.thread x).childrenList) (fun c hc => (h.children x c hc).1)
    (by rw [hp]; rfl)
  exact hgone.goes ((letGo_pc w _ x).trans hp) ⟨nofun, nofun⟩ ⟨nofun, nofun⟩ rfl rfl rfl nofun
    nofun (own_of_pc (by rw [setPc_self]) (by simp))

theorem Inv.dies (h : w.Inv) (hp : (w.thread x).pc = .exitDown)
    (hpos : (w.thread x).exitStatusReadSema ≠ 0) :
    (w.setThread x { w.thread x with
      pc := .dead, exitStatusReadSema := (w.thread x).exitStatusReadSema - 1 }).Inv :=
  h.moves ⟨rfl, by rw [hp]; rfl, by rw [hp]; exact iff_of_false nofun nofun,
    ⟨by rw [hp]; nofun, nofun⟩, fun _ h => h, .inr (Nat.pos_of_ne_zero hpos)⟩ (by rw [hp]; rfl)
    rfl rfl (own_of_pc (by rw [setThread_thread_self]) (by simp)) nofun fun c hc => hc

theorem Inv.looksUp (h : w.Inv) (hp : (w.thread x).pc = .lookupChild c) :
    (w.setPc x (.pushChild c c)).Inv := by
  have hfresh := h.fresh x
  unfold Fresh at hfresh
  rw [hp] at hfresh
  refine h.keepsWaiting (c := c) (by rw [hp]; rfl) rfl ⟨rfl, rfl, rfl, rfl, rfl⟩ ?_ ?_
    fun d hd => .inl hd
  · unfold Own
    rw [setThread_thread_self]
  · unfold Fresh
    rw [setThread_thread_self]
    have hread := setThread_same (w := w) (p := x) (t := { w.thread x with pc := .pushChild c c })
      (fun t => t.exitStatusReadSema) rfl c
    refine ⟨hfresh.1, hread.trans hfresh.2.1, ?_⟩
    by_cases hcx : c = x
    · rw [hcx, setThread_thread_self]
      nofun
    · rw [setThread_thread_ne _ _ hcx]
      exact hfresh.2.2

theorem Inv.pushes (h : w.Inv) {chld : Nat} (hp : (w.thread x).pc = .pushChild c chld) :
    (w.setThread x { w.thread x with
      pc := .downSema c, childrenList := (w.thread x).childrenList ++ [chld] }).Inv := by
  have hown := h.own x
  unfold Own at hown
  rw [hp] at hown
  obtain rfl := hown
  refine h.keepsWaiting (c := chld) (by rw [hp]; rfl) rfl ⟨rfl, rfl, rfl, rfl, rfl⟩ ?_ ?_
    fun d hd => ?_
  · exact own_of_pc (by rw [setThread_thread_self]) (by simp)
  · unfold Fresh
    rw [setThread_thread_self]
    trivial
  · simpa using hd

/-- Every step keeps the invariant. -/
theorem Inv.next (h : w.Inv) {succeeds : Bool} (hrun : nextStep x succeeds w = .ok ((), w')) :
    w'.Inv := by
  rw [nextStep, Routine.get_bind_apply] at hrun
  cases hp : (w.thread x).pc with
  | load =>
    rw [hp] at hrun
    cases hrun
    exact h.loads hp succeeds
  | lookupParent result =>
    have hstarting : starting (w.thread x).pc = true := by rw [hp]; rfl
    rw [hp] at hrun
    dsimp only at hrun
    rw [h.lookup_parent hstarting] at hrun
    cases hrun
    have hown := h.own x
    unfold Own at hown
    rw [hp] at hown
    refine h.goes hp ⟨nofun, nofun⟩ ⟨nofun, nofun⟩ rfl rfl rfl nofun nofun ?_
    unfold Own
    rw [setPc_self]
    exact ⟨hown, rfl⟩
  | setStatus result q =>
    rw [hp] at hrun
    cases hrun
    exact h.setStatus hp
  | upSema result q =>
    rw [hp] at hrun
    cases hrun
    exact h.tell hp
  | resetStatus =>
    rw [hp] at hrun
    cases hrun
    exact h.resets hp
  | create =>
    have hown := h.own x
    unfold Own at hown
    rw [hp] at hown hrun
    dsimp only at hrun
    split at hrun
    · cases hrun
      have hborn : (w.thread x).pc ≠ .unborn := by rw [hp]; nofun
      have hne : x ≠ w.nextTid := by
        rintro heq
        exact hborn (h.unborn x (Nat.le_of_eq heq.symm))
      rw [setPc, setThread_thread_ne _ _ hne]
      exact h.spawn hborn (by rw [hp]; rfl) (by rw [hp]; rfl) (.inr ⟨rfl, by rw [hp]; nofun, rfl⟩)
        ⟨rfl, rfl, rfl, rfl, rfl⟩ fun c hc => .inl hc
    · cases hrun
      refine h.goes hp ⟨nofun, nofun⟩ ⟨nofun, nofun⟩ rfl rfl rfl nofun nofun ?_
      unfold Own
      rw [setPc_self]
      exact hown
  | lookupChild threadId =>
    rw [hp] at hrun
    dsimp only at hrun
    rw [h.lookup_child hp] at hrun
    cases hrun
    exact h.looksUp hp
  | pushChild threadId chld =>
    rw [hp] at hrun
    cases hrun
    exact h.pushes hp
  | downSema threadId =>
    rw [hp] at hrun
    dsimp only at hrun
    split at hrun
    · cases hrun
    · rename_i hpos
      cases hrun
      exact h.downSema hp hpos
  | testStatus threadId =>
    have htests := h.tests hp
    rw [hp] at hrun
    dsimp only at hrun
    split at hrun
    · rename_i hstatus
      rw [if_pos hstatus] at htests
      cases hrun
      exact htests
    · rename_i hstatus
      rw [if_neg hstatus] at htests
      cases hrun
      cases threadId <;> exact htests
  | returns threadId value =>
    rw [hp] at hrun
    cases hrun
    exact h.goes hp ⟨nofun, nofun⟩ ⟨nofun, nofun⟩ rfl rfl rfl nofun nofun
      (own_of_pc (by rw [setPc_self]) (by simp))
  | exitUp =>
    rw [hp] at hrun
    cases hrun
    exact h.exitsUp hp
  | exitDown =>
    rw [hp] at hrun
    dsimp only at hrun
    split at hrun
    · cases hrun
    · rename_i hpos
      cases hrun
      exact h.dies hp hpos
  | _ =>
    rw [hp] at hrun
    cases hrun

theorem Inv.runTask (h : w.Inv) (hrun : exec (.runTask x) w = .ok ((), w')) : w'.Inv := by
  rw [exec, Routine.get_bind_apply] at hrun
  split at hrun
  · rename_i hp
    cases hrun
    exact h.spawn (by rw [hp]; nofun) (by rw [hp]; rfl) (by rw [hp]; rfl) (.inl ⟨hp, hp⟩)
      ⟨rfl, rfl, rfl, rfl, rfl⟩ fun c hc => by simpa using hc
  · cases hrun

theorem Inv.wait (h : w.Inv) (hrun : exec (.wait x c) w = .ok ((), w')) : w'.Inv := by
  rw [exec, Routine.get_bind_apply] at hrun
  dsimp only at hrun
  split at hrun
  · rename_i hp
    obtain ⟨hpc, hc⟩ := hp
    cases hrun
    have hwaits : waitsFor (w.thread x).pc = none := by
      rcases hpc with hpc | hpc <;> rw [hpc] <;> rfl
    have hborn : (w.thread x).pc ≠ .unborn ∧ (w.thread x).pc ≠ .dead := by
      rcases hpc with hpc | hpc <;> rw [hpc] <;> exact ⟨nofun, nofun⟩
    have hgone : (w.letGo [c]).Inv :=
      h.letGo (fun d hd => List.mem_singleton.mp hd ▸ (h.children x c hc).1) hwaits
    refine hgone.moves ⟨rfl, rfl, Iff.rfl, ?_, fun _ h => h, .inl ⟨rfl, ?_⟩⟩ ?_ ?_ rfl ?_
      (fun result q hup => ?_) fun d hd => ?_
    · exact ⟨by rw [letGo_pc]; exact hborn.1, by dsimp only; rw [letGo_pc]; exact hborn.1⟩
    · dsimp only
      rw [letGo_pc]
      exact hborn.2
    · rw [letGo_pc]
      exact hwaits
    · dsimp only
      rw [letGo_pc]
      exact hwaits
    · refine own_of_pc (by rw [setThread_thread_self]) ?_
      dsimp only
      rw [letGo_pc]
      rcases hpc with hpc | hpc <;> rw [hpc] <;> simp
    · dsimp only at hup
      rw [letGo_pc] at hup
      rcases hpc with hpc | hpc <;> rw [hpc] at hup <;> nomatch hup
    · rw [letGo_same (fun t => t.childrenList) fun _ _ => rfl]
      exact List.mem_of_mem_erase hd
  · cases hrun

theorem Inv.step (h : w.Inv) {i : ExecStep} (hrun : exec i w = .ok ((), w')) : w'.Inv := by
  cases i with
  | next p succeeds => exact h.next hrun
  | exec p => exact h.user (.inl rfl) hrun
  | exit p => exact h.user (.inr rfl) hrun
  | runTask p => exact h.runTask hrun
  | wait p c => exact h.wait hrun

theorem Inv.visits {steps : List ExecStep} (hvisits : Routine.Visits exec steps init w) : w.Inv :=
  hvisits.invariant (fun _ _ _ _ h _ hrun => h.step hrun)
    (fun _ _ _ => trivial) Inv.of_init

/-- `exec` that is about to return has the right answer. -/
theorem Inv.answers (h : w.Inv) {threadId : Option Nat} {value : Int}
    (hp : (w.thread p).pc = .returns threadId value) : w.Answers p threadId value := by
  have hown := h.own p
  unfold Own at hown
  rw [hp] at hown
  cases threadId with
  | none =>
    have hvalue : value = -1 := hown
    exact ⟨nofun, nofun, nofun, iff_of_true hvalue (.inl rfl)⟩
  | some c =>
    obtain ⟨result, ⟨hparent, hloaded⟩, rfl⟩ := hown
    have hne : (c : Int) ≠ -1 := by omega
    refine ⟨fun d hd => ?_, fun d hd => ?_, fun d hd => ?_, ?_⟩
    · cases hd
      exact hparent
    · cases hd
      rw [hloaded]
      nofun
    · cases hd
      rw [hloaded]
      cases result
      · exact iff_of_false hne.symm nofun
      · exact iff_of_true rfl rfl
    · cases result
      · exact iff_of_true rfl (.inr ⟨c, rfl, hloaded⟩)
      · refine iff_of_false hne ?_
        rintro (hnone | ⟨d, hd, hfailed⟩)
        · nomatch hnone
        · cases hd
          rw [hloaded] at hfailed
          nomatch hfailed

/-- A thread in the handshake goes on, unless it waits for a child that does. -/
theorem Inv.progress (h : w.Inv) (hp : inHandshake (w.thread p).pc = true) (succeeds : Bool) :
    (nextStep p succeeds w).toBool = true ∨
      ∃ c, (w.thread p).pc = .downSema c ∧ starting (w.thread c).pc = true := by
  rw [nextStep, Routine.get_bind_apply]
  cases hpc : (w.thread p).pc with
  | downSema c =>
    by_cases hzero : (w.thread p).childSema = 0
    · refine .inr ⟨c, rfl, ?_⟩
      have hsema := h.sema p (by rw [hpc]; nofun)
      unfold SemaOk at hsema
      rw [hpc] at hsema
      obtain ⟨-, htold⟩ := hsema
      split at htold
      · assumption
      · rw [hzero] at htold
        nomatch htold.1
    · left
      dsimp only
      rw [if_neg hzero]
      rfl
  | lookupChild c =>
    left
    dsimp only
    rw [h.lookup_child hpc]
    rfl
  | lookupParent result =>
    left
    dsimp only
    rw [h.lookup_parent (by rw [hpc]; rfl)]
    rfl
  | create =>
    left
    dsimp only
    split <;> rfl
  | testStatus threadId =>
    left
    dsimp only
    split <;> rfl
  | load | setStatus _ _ | upSema _ _ | resetStatus | pushChild _ _ | returns _ _ => exact .inl rfl
  | _ =>
    rw [hpc] at hp
    nomatch hp

end ExecWorld

/-- In every interleaving `exec` answers for the child that it created, after the child's `load`;
and a thread on its way there is never stuck. -/
theorem exec_answers_for_its_child (steps : List ExecStep) (w : ExecWorld)
    (hvisits : Routine.Visits ExecWorld.exec steps ExecWorld.init w) :
    (∀ p threadId value, (w.thread p).pc = .returns threadId value →
      w.Answers p threadId value) ∧
    ∀ p, ExecWorld.inHandshake (w.thread p).pc = true → ∀ succeeds,
      (ExecWorld.exec (.next p succeeds) w).toBool = true ∨
        ∃ c, (w.thread p).pc = .downSema c ∧ ExecWorld.starting (w.thread c).pc = true := by
  have hinv := ExecWorld.Inv.visits hvisits
  exact ⟨fun _ _ _ hp => hinv.answers hp, fun _ hp succeeds => hinv.progress hp succeeds⟩

/-- Thread 2 starts thread 3, whose `load` fails, while thread 2 runs on to its `sema_down`. -/
def execOfBadFile : List ExecStep :=
  [.runTask 1] ++ List.replicate 4 (.next 2 true) ++ [.exec 2] ++
    List.replicate 4 (.next 2 true) ++ List.replicate 4 (.next 3 false) ++
    List.replicate 2 (.next 2 true)

/-- Where thread `p` stands after a run. -/
def ExecWorld.pcAfter (steps : List ExecStep) (p : Nat) : Option ExecPc :=
  match Routine.execAll ExecWorld.exec steps ExecWorld.init with
  | .ok (_, w) => some (w.thread p).pc
  | .error _ => none

theorem ExecWorld.visits_of_pcAfter {steps : List ExecStep} {p : Nat} {pc : ExecPc}
    (h : ExecWorld.pcAfter steps p = some pc) :
    ∃ w, Routine.Visits ExecWorld.exec steps ExecWorld.init w ∧ (w.thread p).pc = pc := by
  unfold ExecWorld.pcAfter at h
  split at h
  · rename_i rs w hrun
    exact ⟨w, ⟨_, [], rs, (List.append_nil _).symm, hrun⟩, Option.some.inj h⟩
  · nomatch h

theorem exec_answers_badFile :
    ∃ w, Routine.Visits ExecWorld.exec execOfBadFile ExecWorld.init w ∧
      w.Answers 2 (some 3) (-1) := by
  obtain ⟨w, hvisits, hpc⟩ := ExecWorld.visits_of_pcAfter
    (show ExecWorld.pcAfter execOfBadFile 2 = some (.returns (some 3) (-1)) by decide +kernel)
  exact ⟨w, hvisits, (exec_answers_for_its_child _ w hvisits).1 2 _ _ hpc⟩

end Pintos
