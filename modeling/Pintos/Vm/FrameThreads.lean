import Pintos.Library.LockProgram
import Pintos.Vm.FrameOps

/-! The frame table under threads.  Each process is one thread.  The instructions of a thread are
the steps of `vm_frame_alloc`, of its callers, of `vm_frame_free` and of `process_exit` that other
threads can see; the search for a victim and its page-out are under `frame_hash_lock`.  A program
counter names the thread that stands there, for `thread_current ()`. -/

namespace Pintos

open LockProgram (Instr Step Reach)

namespace Pagedir

/-- The frames of the present pages, in the order of `pagedir_destroy`. -/
def presentPages (pd : Pagedir) : List Nat :=
  (List.range (pdNo physBase)).flatMap fun pde =>
    if pd.pde pde then
      (List.range 1024).filterMap fun pte =>
        let pte := pd.pte (pde * 2 ^ 22 + pte * pgSize)
        if pte.present then some pte.page else none
    else []

/-- The pages of the kernel pool that a page directory takes. -/
def kernelPages (pd : Pagedir) : Nat := (List.range (pdNo physBase)).countP pd.pde + 1

end Pagedir

/-- What the threads share: the state of virtual memory, and for which processes `pagedir` is
NULL. -/
structure VmShared extends Vm where
  noPagedir : Nat → Bool

/-- A caller of `vm_frame_alloc`. -/
inductive FrameCaller where
  | setupStack
  | growStack (front : Nat)
  | pageIn (faultAddr : Nat)

namespace FrameCaller

/-- The page that the frame is for. -/
def vaddr : FrameCaller → Nat
  | setupStack => physBase - pgSize
  | growStack front => pgRoundDown front
  | pageIn faultAddr => pgRoundDown faultAddr

/-- Whether the caller passes `PAL_ZERO`. -/
def palZero : FrameCaller → Bool
  | setupStack | growStack _ => true
  | pageIn _ => false

/-- What happens to the frame before it is mapped: `pt_suppl_page_in` reads a page that is in a
file. -/
def fill (cur page : Nat) : FrameCaller → VmRoutine Bool
  | setupStack | growStack _ => pure true
  | pageIn faultAddr => do
    match ((← get).process cur).ptSuppl.get (pgRoundDown faultAddr) with
    | none => throw (.undefined "the entry was freed")
    | some entry =>
      match entry.presence, entry.fileInfo with
      | .swapped, _ => pure true
      | .unloaded, some inf => ptSupplRead page inf
      | .unloaded, none => throw (.assertion "inf != NULL")
      | .present, _ => throw (.panic "Trying to page-in already loaded page")

/-- The mapping of the frame. -/
def install (cur page : Nat) : FrameCaller → VmRoutine Bool
  | setupStack => installPage cur (physBase - pgSize) page true
  | growStack front => pagedirSetPage cur (pgRoundDown front) page true
  | pageIn faultAddr => do
    match ((← get).process cur).ptSuppl.get (pgRoundDown faultAddr) with
    | none => throw (.undefined "the entry was freed")
    | some entry =>
      pagedirSetPage cur entry.vaddr page (entry.fileInfo.all (·.writable))

/-- What `pt_suppl_page_in` does once the page is mapped. -/
def finish (cur : Nat) : FrameCaller → VmRoutine Unit
  | setupStack | growStack _ => pure ()
  | pageIn faultAddr => do
    match ((← get).process cur).ptSuppl.get (pgRoundDown faultAddr) with
    | none => throw (.undefined "the entry was freed")
    | some entry =>
      if entry.presence = .swapped then swapIn cur entry.swapSlot entry.vaddr
      ptSupplLoaded cur entry

end FrameCaller

/-- What else a process does that concerns its pages. -/
inductive ProcessCall where
  | addLazy (file offset pageAddr readBytes zeroBytes : Nat) (writable : Bool)
  | access (vaddr : Nat) (write : Option UInt8)
  | mmap (fe startPg : Nat)
  | munmap (mapId : Nat)

def ProcessCall.exec (bucket : PtSuppl → List Nat) (cur : Nat) : ProcessCall → VmRoutine Unit
  | addLazy file offset pageAddr readBytes zeroBytes writable => do
    let _ ← ptSupplAddLazy cur file offset pageAddr readBytes zeroBytes writable
  | access vaddr write => do let _ ← Pintos.access cur vaddr write
  | mmap fe startPg => do let _ ← ptSupplHandleMmap cur fe startPg
  | munmap mapId => memoryUnmapFile bucket cur mapId

/-- Where a thread is.  In comments, `l` where it holds `frame_hash_lock`. -/
inductive FramePhase where
  | unborn
  | load
  | idle
  | call (call : ProcessCall)
  | pageFault (faultAddr esp : Nat)
  -- `vm_frame_alloc`
  | palloc (caller : FrameCaller)
  | hashAdd (caller : FrameCaller) (page : Nat)
  | hashInsert (caller : FrameCaller) (page : Nat)         -- l
  | evict (caller : FrameCaller)
  | select (caller : FrameCaller) (rest : List Nat)        -- l
  | pageOut (caller : FrameCaller) (page : Nat)            -- l
  | setOwner (caller : FrameCaller) (page : Nat)           -- l
  | setVaddr (caller : FrameCaller) (page : Nat)
  -- its callers, once it has returned
  | received (caller : FrameCaller) (page : Nat)
  | setPage (caller : FrameCaller) (page : Nat)
  | mapped (caller : FrameCaller)
  -- `vm_frame_free` on a list of frames; in `pagedir_destroy` with the kernel pages to give back
  | frameFree (exiting : Option Nat) (pages : List Nat)
  | hashDelete (exiting : Option Nat) (page : Nat) (rest : List Nat) -- l
  | pallocFree (exiting : Option Nat) (page : Nat) (rest : List Nat)
  -- `process_exit`
  | exit
  | dead
  -- a fault has stopped the machine here; the failed assertion of `lookup_page` is `noPd`
  | panicked (fault : Fault) (phase : FramePhase)
  | noPd                                                   -- l

@[ext]
structure FramePc where
  current : Nat
  phase : FramePhase

abbrev FrameInstr := Instr Unit VmShared FramePc

namespace FramePc

/-- Executes a routine and goes on in the phase `next`, unless the routine stops the machine.  A
machine that has stopped is left in the state before the routine. -/
def attempt {α : Type} (pc : FramePc) (routine : VmRoutine α) (next : α → FramePhase)
    (s : VmShared) : VmShared × FramePc :=
  match routine s.toVm with
  | .ok (a, vm) => ({ s with toVm := vm }, ⟨pc.current, next a⟩)
  | .error fault => (s, ⟨pc.current, .panicked fault pc.phase⟩)

/-- `page_fault`: what the handler does about an address whose page is not present. -/
def handleFault (cur faultAddr esp : Nat) (s : Vm) : FramePhase :=
  if ((s.process cur).pagedir.getPage faultAddr).isSome then .idle
  else if faultAddr ≠ 0 ∧ faultAddr < physBase then
    match (s.process cur).ptSuppl.get (pgRoundDown faultAddr) with
    | some _ => .palloc (.pageIn faultAddr)
    | none => if isStackGrowth faultAddr esp then .palloc (.growStack faultAddr) else .exit
  else .exit

/-- `palloc_get_page`. -/
def getPage (cur : Nat) (caller : FrameCaller) (s : VmShared) : VmShared × FramePc :=
  match s.userPool.scanAndFlip 0 1 false with
  | some (page, userPool) =>
    ({ s with
      userPool
      memory := if caller.palZero then Function.update s.memory page PageData.zeros
        else s.memory }, ⟨cur, .hashAdd caller page⟩)
  | none => (s, ⟨cur, .evict caller⟩)

/-- The entry of a frame. -/
def find (s : Vm) (page : Nat) : Option FrameEntry := s.frameHash.find? fun fe => fe.page = page

/-- The body of the loop of `select_frame_to_evict`. -/
def inspect (cur : Nat) (caller : FrameCaller) (page : Nat) (rest : List Nat) (s : VmShared) :
    VmShared × FramePc :=
  match find s.toVm page with
  | none => (s, ⟨cur, .select caller rest⟩)
  | some fe =>
    if s.noPagedir fe.owner then (s, ⟨cur, .noPd⟩)
    else
      let pagedir := (s.process fe.owner).pagedir
      if pagedir.isAccessed fe.threadVaddr then
        let pagedir := pagedir.setAccessed fe.threadVaddr false
        ({ s with toVm := s.toVm.setPagedir fe.owner pagedir }, ⟨cur, .select caller rest⟩)
      else (s, ⟨cur, .pageOut caller page⟩)

/-- `page_out_evicted_frame`. -/
def pageOutVictim (cur : Nat) (caller : FrameCaller) (page : Nat) (s : VmShared) :
    VmShared × FramePc :=
  match find s.toVm page with
  | none =>
    (s, ⟨cur, .panicked (.undefined "the frame entry was freed") (.pageOut caller page)⟩)
  | some fe =>
    match pageOutEvictedFrame cur fe s.toVm with
    | .error fault => (s, ⟨cur, .panicked fault (.pageOut caller page)⟩)
    | .ok ((), vm) =>
      if s.noPagedir fe.owner then (s, ⟨cur, .noPd⟩)
      else ({ s with toVm := vm }, ⟨cur, .setOwner caller page⟩)

/-- The code of the frame table. -/
def program (order : List FrameEntry → List FrameEntry) (bucket : PtSuppl → List Nat) :
    FramePc → FrameInstr
  | ⟨_, .unborn⟩ | ⟨_, .idle⟩ | ⟨_, .dead⟩ | ⟨_, .panicked _ _⟩ | ⟨_, .noPd⟩ => .halt
  | ⟨cur, .load⟩ => .run fun s =>
    -- `pagedir_create`
    if s.kernelPages = 0 then (s, ⟨cur, .dead⟩)
    else
      ({ s with
        toVm := { s.toVm.setPagedir cur Pagedir.empty with kernelPages := s.kernelPages - 1 }
        noPagedir := Function.update s.noPagedir cur false }, ⟨cur, .idle⟩)
  | ⟨cur, .call call⟩ => .run (attempt ⟨cur, .call call⟩ (call.exec bucket cur) fun _ => .idle)
  | ⟨cur, .pageFault faultAddr esp⟩ => .run fun s =>
    (s, ⟨cur, handleFault cur faultAddr esp s.toVm⟩)
  | ⟨cur, .palloc caller⟩ => .run (getPage cur caller)
  | ⟨cur, .hashAdd caller page⟩ => .acquire () fun s => (s, ⟨cur, .hashInsert caller page⟩)
  | ⟨cur, .hashInsert caller page⟩ => .release () fun s =>
    ({ s with frameHash := order (⟨page, cur, pgRoundDown caller.vaddr⟩ :: s.frameHash) },
      ⟨cur, .received caller page⟩)
  | ⟨cur, .evict caller⟩ => .acquire () fun s => (s, ⟨cur, .select caller []⟩)
  | ⟨cur, .select caller []⟩ => .run fun s =>
    (s, ⟨cur, .select caller (s.frameHash.map FrameEntry.page)⟩)
  | ⟨cur, .select caller (page :: rest)⟩ => .run (inspect cur caller page rest)
  | ⟨cur, .pageOut caller page⟩ => .run (pageOutVictim cur caller page)
  | ⟨cur, .setOwner caller page⟩ => .release () fun s =>
    ({ s with frameHash := s.frameHash.map fun fe =>
        if fe.page = page then { fe with owner := cur } else fe }, ⟨cur, .setVaddr caller page⟩)
  | ⟨cur, .setVaddr caller page⟩ => .run fun s =>
    ({ s with frameHash := s.frameHash.map fun fe =>
        if fe.page = page then { fe with threadVaddr := caller.vaddr } else fe },
      ⟨cur, .received caller page⟩)
  | ⟨cur, .received caller page⟩ =>
    .run (attempt ⟨cur, .received caller page⟩ (caller.fill cur page) fun read =>
      if read then .setPage caller page else .frameFree none [page])
  | ⟨cur, .setPage caller page⟩ =>
    .run (attempt ⟨cur, .setPage caller page⟩ (caller.install cur page) fun pgdir =>
      if pgdir then .mapped caller else .frameFree none [page])
  | ⟨cur, .mapped caller⟩ =>
    .run (attempt ⟨cur, .mapped caller⟩ (caller.finish cur) fun _ => .idle)
  | ⟨cur, .frameFree none []⟩ => .run fun s => (s, ⟨cur, .idle⟩)
  | ⟨cur, .frameFree (some kernelPages) []⟩ => .run fun s =>
    -- the end of `pagedir_destroy`, and `pt_suppl_free`
    ({ s with
      toVm := { s.toVm.setPtSuppl cur PtSuppl.empty with
        kernelPages := s.kernelPages + kernelPages } }, ⟨cur, .dead⟩)
  | ⟨cur, .frameFree exiting (page :: rest)⟩ => .acquire () fun s =>
    (s, ⟨cur, .hashDelete exiting page rest⟩)
  | ⟨cur, .hashDelete exiting page rest⟩ => .release () fun s =>
    ({ s with frameHash := order (s.frameHash.filter fun fe => fe.page ≠ page) },
      ⟨cur, .pallocFree exiting page rest⟩)
  | ⟨cur, .pallocFree exiting page rest⟩ => .run fun s =>
    ({ s with
      userPool := s.userPool.setMultiple page 1 false
      memory := Function.update s.memory page fun _ => 0xcc }, ⟨cur, .frameFree exiting rest⟩)
  | ⟨cur, .exit⟩ => .run fun s =>
    let currpagedirectory := (s.process cur).pagedir
    ({ s with
      toVm := s.toVm.setPagedir cur Pagedir.empty
      noPagedir := Function.update s.noPagedir cur true },
      ⟨cur, .frameFree (some currpagedirectory.kernelPages) currpagedirectory.presentPages⟩)

/-- What a process may do next. -/
def starts : FramePhase → FramePhase → Bool
  | .unborn, .load | .idle, .palloc .setupStack | .idle, .call _ | .idle, .pageFault _ _
  | .idle, .exit => true
  | _, _ => false

def start (p q : FramePc) : Prop := q.current = p.current ∧ starts p.phase q.phase = true

instance : DecidableRel start := fun _ _ => inferInstanceAs (Decidable (_ ∧ _))

end FramePc

/-- The machine with one thread for each number. -/
abbrev FrameConfig := LockProgram.Config Nat Unit VmShared FramePc

/-- No process has been loaded. -/
def FrameConfig.initial (s : Vm) : FrameConfig where
  shared :=
    { s with
      process := fun _ => ⟨Pagedir.empty, PtSuppl.empty⟩
      frameHash := []
      noPagedir := fun _ => true }
  holder _ := none
  pc t := ⟨t, .unborn⟩

/-- A step of some thread. -/
def FrameStep (order : List FrameEntry → List FrameEntry) (bucket : PtSuppl → List Nat)
    (c c' : FrameConfig) : Prop :=
  ∃ t, Step (FramePc.program order bucket) FramePc.start c t c'

namespace FramePhase

/-- Whether `pagedir` of a process there is NULL. -/
def noPagedir : FramePhase → Bool
  | unborn | load | frameFree (some _) _ | hashDelete (some _) _ _ | pallocFree (some _) _ _
  | dead => true
  | panicked _ phase => phase.noPagedir
  | _ => false

end FramePhase

variable {cur page : Nat} {s s' : Vm}

/-! ### The routines of the instructions -/

theorem ProcessCall.exec_frames {bucket : PtSuppl → List Nat} {call : ProcessCall}
    (h : call.exec bucket cur s = .ok ((), s')) : s.SameFrames s' := by
  cases call with
  | addLazy file offset pageAddr readBytes zeroBytes writable =>
    obtain ⟨b, s1, hadd, hend⟩ := Routine.bind_ok.mp h
    cases hend
    rw [ptSupplAddLazy, Routine.get_bind_apply] at hadd
    exact ptSupplAdd_frames hadd
  | access vaddr write =>
    obtain ⟨b, s1, haccess, hend⟩ := Routine.bind_ok.mp h
    cases hend
    exact access_frames haccess
  | mmap fe startPg =>
    obtain ⟨r, s1, hmmap, hend⟩ := Routine.bind_ok.mp h
    cases hend
    exact ptSupplHandleMmap_frames hmmap
  | munmap mapId =>
    rw [ProcessCall.exec, memoryUnmapFile, ptSupplHandleUnmap, Routine.get_bind_apply] at h
    exact unmapLoop_frames h

namespace FrameCaller

variable {caller : FrameCaller}

theorem vaddr_aligned (caller : FrameCaller) : caller.vaddr % pgSize = 0 := by
  cases caller with
  | setupStack => rfl
  | growStack front => exact pgRoundDown_aligned front
  | pageIn faultAddr => exact pgRoundDown_aligned faultAddr

theorem fill_frames {read : Bool} (h : caller.fill cur page s = .ok (read, s')) :
    s.SameFrames s' := by
  cases caller with
  | setupStack | growStack front =>
    cases h
    exact .refl _
  | pageIn faultAddr =>
    rw [fill, Routine.get_bind_apply] at h
    cases hentry : (s.process cur).ptSuppl.get (pgRoundDown faultAddr) with
    | none =>
      rw [hentry] at h
      cases h
    | some entry =>
      rw [hentry] at h
      dsimp only at h
      cases hpresence : entry.presence with
      | swapped =>
        rw [hpresence] at h
        cases h
        exact .refl _
      | unloaded =>
        cases hinfo : entry.fileInfo with
        | none =>
          rw [hpresence, hinfo] at h
          cases h
        | some inf =>
          rw [hpresence, hinfo] at h
          exact ptSupplRead_frames h
      | present =>
        rw [hpresence] at h
        cases h

/-- The caller maps the frame at the page that it is for. -/
theorem install_maps {pgdir : Bool} (h : caller.install cur page s = .ok (pgdir, s')) :
    (pgdir = false ∧ s' = s) ∨ pgdir = true ∧ s.Maps cur caller.vaddr page s' := by
  have hset : ∀ {v : Nat} {w : Bool}, pagedirSetPage cur v page w s = .ok (pgdir, s') →
      (pgdir = false ∧ s' = s) ∨ pgdir = true ∧ s.Maps cur v page s' := by
    intro v w h
    rcases pagedirSetPage_maps h with hfalse | ⟨htrue, -, hmaps⟩
    · exact .inl hfalse
    · exact .inr ⟨htrue, hmaps⟩
  cases caller with
  | setupStack =>
    rw [install, installPage, Routine.get_bind_apply] at h
    split at h
    · exact hset h
    · cases h
      exact .inl ⟨rfl, rfl⟩
  | growStack front => exact hset h
  | pageIn faultAddr =>
    rw [install, Routine.get_bind_apply] at h
    cases hentry : (s.process cur).ptSuppl.get (pgRoundDown faultAddr) with
    | none =>
      rw [hentry] at h
      cases h
    | some entry =>
      rw [hentry] at h
      dsimp only at h
      rw [(s.process cur).ptSuppl.vaddr_eq hentry] at h
      exact hset h

theorem finish_frames (h : caller.finish cur s = .ok ((), s')) : s.SameFrames s' := by
  cases caller with
  | setupStack | growStack front =>
    cases h
    exact .refl _
  | pageIn faultAddr =>
    rw [finish, Routine.get_bind_apply] at h
    cases hentry : (s.process cur).ptSuppl.get (pgRoundDown faultAddr) with
    | none =>
      rw [hentry] at h
      cases h
    | some entry =>
      rw [hentry] at h
      dsimp only at h
      split at h
      · obtain ⟨u, s1, hin, h⟩ := Routine.bind_ok.mp h
        exact (swapIn_frames hin).trans (ptSupplLoaded_frames h)
      · exact ptSupplLoaded_frames h

end FrameCaller

/-- A routine of an instruction ends in a new state, or the machine stops. -/
theorem FramePc.attempt_cases {α : Type} (pc : FramePc) (routine : VmRoutine α)
    (next : α → FramePhase) (s : VmShared) :
    (∃ a vm, routine s.toVm = .ok (a, vm) ∧
      attempt pc routine next s = ({ s with toVm := vm }, ⟨pc.current, next a⟩)) ∨
    ∃ fault, attempt pc routine next s = (s, ⟨pc.current, .panicked fault pc.phase⟩) := by
  unfold attempt
  cases hrun : routine s.toVm with
  | ok r => exact .inl ⟨r.1, r.2, rfl, rfl⟩
  | error fault => exact .inr ⟨fault, rfl⟩

end Pintos
