import Pintos.Devices.Block
import Pintos.Lib.String
import Pintos.Vm.Pagedir

/-! `process_execute` (`userprog/process.c`) with the copies it makes of a command string: the whole
string and its first token go to the two fields of a `struct args_struct`, in a page that
`palloc_get_page` gives.  What `malloc` answers is an input, and `thread_create` fails when no page
is left. -/

namespace Pintos

/-- `ARG_MAX`. -/
def argMax : Nat := 100

/-- Offset of `file_name` in a `struct args_struct`. -/
def fileNameOffset : Nat := 0

/-- Offset of `file_args` in a `struct args_struct`. -/
def fileArgsOffset : Nat := argMax

/-- A thread that `thread_create` made: its `name`, and the page that it is started with. -/
structure StartedThread where
  tid : Nat
  name : List UInt8
  aux : Nat

/-- What `process_execute` works on: the kernel pool of `poolSize` pages with its bitmap and its
memory, the sizes of the blocks that `malloc` has handed out, the next `tid`, the threads, and the
`children_list` of the caller. -/
structure ExecKernel where
  poolSize : Nat
  used : Nat → Bool
  memory : Memory
  blocks : List Nat
  nextTid : Nat
  threads : List StartedThread
  childrenList : List Nat

/-- A kernel while `process_execute` runs, with the stores to the page of arguments so far, each as
an address and a size. -/
structure ExecRun where
  kernel : ExecKernel
  stores : List (Nat × Nat)

abbrev ExecuteRoutine := Routine Fault ExecRun

namespace ExecKernel

/-- The page that `palloc_get_page` gives. -/
def freePage (k : ExecKernel) : Option Nat := (List.range k.poolSize).find? fun p => !k.used p

def setUsed (k : ExecKernel) (page : Nat) (value : Bool) : ExecKernel :=
  { k with used := fun p => if p = page then value else k.used p }

end ExecKernel

namespace ExecRun

/-- `palloc_get_page`, with `none` for a null pointer. -/
def pallocGetPage : ExecuteRoutine (Option Nat) := do
  let r ← get
  match r.kernel.freePage with
  | none => pure none
  | some page => do
    set { r with kernel := r.kernel.setUsed page true }
    pure (some page)

/-- `palloc_free_page`. -/
def pallocFreePage (page : Nat) : ExecuteRoutine Unit :=
  modify fun r => { r with kernel := r.kernel.setUsed page false }

/-- `malloc`. -/
def malloc (size : Nat) (succeeds : Bool) : ExecuteRoutine Bool := do
  if succeeds then
    modify fun r => { r with kernel := { r.kernel with blocks := size :: r.kernel.blocks } }
  pure succeeds

/-- `free` of a block of `size` bytes. -/
def free (size : Nat) : ExecuteRoutine Unit :=
  modify fun r => { r with kernel := { r.kernel with blocks := r.kernel.blocks.erase size } }

/-- `strlcpy` to offset `ofs` of a page; past its end is memory of something else. -/
def copyToPage (page ofs : Nat) (src : List UInt8) (size : Nat) : ExecuteRoutine Unit := do
  let bytes := strlcpy src size
  if pgSize < ofs + bytes.length then throw (.undefined "strlcpy past the end of the page")
  let dst := page * pgSize + ofs
  modify fun r =>
    { kernel := { r.kernel with memory := r.kernel.memory.store dst bytes }
      stores := r.stores ++ [(dst, bytes.length)] }

/-- `strlen`, which a null pointer stops. -/
def strlen (s : Option (List UInt8)) : ExecuteRoutine Nat :=
  match s with
  | none => throw (.assertion "string != NULL")
  | some s => pure s.length

/-- `thread_create`, with `none` for `TID_ERROR`. -/
def threadCreate (name : List UInt8) (aux : Nat) : ExecuteRoutine (Option Nat) := do
  match ← pallocGetPage with
  | none => pure none
  | some _ => do
    let r ← get
    let tid := r.kernel.nextTid
    let t : StartedThread := { tid, name := name.take 15, aux }
    set { r with
      kernel := { r.kernel with nextTid := tid + 1, threads := r.kernel.threads ++ [t] } }
    pure (some tid)

/-- The end of `process_execute`, once the thread was created or not. -/
def finish (argumentNames fnSize : Nat) (threadId : Option Nat) : ExecuteRoutine (Option Nat) := do
  match threadId with
  | none => pallocFreePage argumentNames
  | some chld =>
    modify fun r =>
      { r with kernel := { r.kernel with childrenList := r.kernel.childrenList ++ [chld] } }
  free fnSize
  pure threadId

/-- `process_execute` from its `strlcpy` to `file_args` on, with the copy `fnCopy` of the string. -/
def copyAndCreate (argumentNames : Nat) (fnCopy : List UInt8) : ExecuteRoutine (Option Nat) := do
  copyToPage argumentNames fileArgsOffset fnCopy (fnCopy.length + 1)
  let onlyFn := (strtokR [space] fnCopy).1
  let length ← strlen onlyFn
  copyToPage argumentNames fileNameOffset (onlyFn.getD []) (length + 1)
  let threadId ← threadCreate (onlyFn.getD []) argumentNames
  finish argumentNames (fnCopy.length + 1) threadId

/-- `process_execute`, with `none` for `TID_ERROR`. -/
def processExecute (fileName : CString) (mallocSucceeds : Bool) :
    ExecuteRoutine (Option Nat) := do
  match ← pallocGetPage with
  | none => pure none
  | some argumentNames => do
    match ← malloc (fileName.bytes.length + 1) mallocSucceeds with
    | false => do
      pallocFreePage argumentNames
      pure none
    | true => copyAndCreate argumentNames fileName.bytes

end ExecRun

/-- The kernel is as before, up to the bytes of pages that are not in use. -/
structure ExecKernel.Unchanged (k k' : ExecKernel) : Prop where
  used : k'.used = k.used
  blocks : k'.blocks = k.blocks
  nextTid : k'.nextTid = k.nextTid
  threads : k'.threads = k.threads
  childrenList : k'.childrenList = k.childrenList
  memory : ∀ page, k.used page = true → ∀ i < pgSize,
    k'.memory (page * pgSize + i) = k.memory (page * pgSize + i)

/-- Thread `tid` was started for the command string `s`, with its arguments in `page`. -/
structure ExecKernel.Started (k k' : ExecKernel) (s : List UInt8) (tid page : Nat) : Prop where
  taken : k.used page = false ∧ k'.used page = true
  thread : ∃ token rest, tokens s = token :: rest ∧
    k'.threads = k.threads ++ [⟨tid, token.take 15, page⟩] ∧
    k'.memory.Holds (page * pgSize + fileNameOffset) (token ++ [0])
  fileArgs : k'.memory.Holds (page * pgSize + fileArgsOffset) (s ++ [0])
  childrenList : k'.childrenList = k.childrenList ++ [tid]
  blocks : k'.blocks = k.blocks

/-- A store stays in one of the two fields of the arguments in `page`. -/
def InField (page : Nat) (store : Nat × Nat) : Prop :=
  ∃ ofs ∈ [fileNameOffset, fileArgsOffset],
    store.1 = page * pgSize + ofs ∧ store.2 ≤ argMax

/-- What `process_execute` of the command string `s` is to do. -/
def HandlesCommand (k : ExecKernel) (s : List UInt8)
    (result : Except Fault (Option Nat × ExecRun)) : Prop :=
  ∃ threadId r page, result = .ok (threadId, r) ∧ (∀ store ∈ r.stores, InField page store) ∧
    (threadId = none ∧ k.Unchanged r.kernel ∨
      ∃ tid, threadId = some tid ∧ k.Started r.kernel s tid page)

/-! ### The steps -/

namespace ExecKernel

variable {k : ExecKernel} {page : Nat}

theorem freePage_unused (h : k.freePage = some page) : k.used page = false := by
  have hfound := List.find?_some h
  simpa using hfound

@[simp] theorem setUsed_used_self (k : ExecKernel) (page : Nat) (value : Bool) :
    (k.setUsed page value).used page = value := if_pos rfl

/-- A page that was taken and is given back. -/
theorem setUsed_back (h : k.used page = false) : ((k.setUsed page true).setUsed page false).used =
    k.used := by
  funext p
  by_cases hp : p = page
  · rw [hp, setUsed_used_self, h]
  · simp [setUsed, hp]

end ExecKernel

namespace ExecRun

variable {r : ExecRun} {page ofs size : Nat}

theorem pallocGetPage_none (h : r.kernel.freePage = none) : pallocGetPage r = .ok (none, r) := by
  rw [pallocGetPage, Routine.get_bind_apply, h]
  rfl

theorem pallocGetPage_some (h : r.kernel.freePage = some page) :
    pallocGetPage r = .ok (some page, { r with kernel := r.kernel.setUsed page true }) := by
  rw [pallocGetPage, Routine.get_bind_apply, h]
  rfl

/-- The kernel with a string in a page. -/
def stored (r : ExecRun) (dst : Nat) (bytes : List UInt8) : ExecRun where
  kernel := { r.kernel with memory := r.kernel.memory.store dst bytes }
  stores := r.stores ++ [(dst, bytes.length)]

theorem copyToPage_of_le {s : List UInt8} (h : ofs + (s.length + 1) ≤ pgSize) (r : ExecRun) :
    copyToPage page ofs s (s.length + 1) r =
      .ok ((), r.stored (page * pgSize + ofs) (s ++ [0])) := by
  rw [copyToPage, strlcpy_length_succ]
  simp only [List.length_append, List.length_singleton]
  rw [if_neg (by omega)]
  simp [stored]

theorem copyToPage_of_lt {s : List UInt8} (h : pgSize < ofs + (s.length + 1)) (r : ExecRun) :
    copyToPage page ofs s (s.length + 1) r =
      .error (.undefined "strlcpy past the end of the page") := by
  rw [copyToPage, strlcpy_length_succ]
  simp only [List.length_append, List.length_singleton]
  rw [if_pos h]
  rfl

/-- The run once the page and the block were allocated. -/
def allocated (r : ExecRun) (page size : Nat) : ExecRun where
  kernel := { r.kernel.setUsed page true with blocks := size :: r.kernel.blocks }
  stores := r.stores

variable {fileName : CString} {token : List UInt8}

theorem processExecute_noPage (h : r.kernel.freePage = none) (mallocSucceeds : Bool) :
    processExecute fileName mallocSucceeds r = .ok (none, r) := by
  rw [processExecute, Routine.bind_of_ok (pallocGetPage_none h)]
  rfl

theorem processExecute_noBlock (h : r.kernel.freePage = some page) :
    processExecute fileName false r = .ok (none,
      { r with kernel := (r.kernel.setUsed page true).setUsed page false }) := by
  rw [processExecute, Routine.bind_of_ok (pallocGetPage_some h)]
  rfl

theorem processExecute_block (h : r.kernel.freePage = some page) :
    processExecute fileName true r =
      copyAndCreate page fileName.bytes (r.allocated page (fileName.bytes.length + 1)) := by
  rw [processExecute, Routine.bind_of_ok (pallocGetPage_some h)]
  rfl

/-- The command string is longer than what is left of the page. -/
theorem copyAndCreate_tooLong {s : List UInt8}
    (hlong : pgSize < fileArgsOffset + (s.length + 1)) :
    copyAndCreate page s r = .error (.undefined "strlcpy past the end of the page") := by
  rw [copyAndCreate, Routine.bind_of_error (copyToPage_of_lt hlong r)]

/-- The command string has no token. -/
theorem copyAndCreate_noToken {s : List UInt8}
    (hfits : fileArgsOffset + (s.length + 1) ≤ pgSize)
    (htoken : (strtokR [space] s).1 = none) :
    copyAndCreate page s r = .error (.assertion "string != NULL") := by
  rw [copyAndCreate, Routine.bind_of_ok (copyToPage_of_le hfits r), htoken]
  rfl

/-- The strings are in the page. -/
def copied (r : ExecRun) (page : Nat) (s token : List UInt8) : ExecRun :=
  (r.stored (page * pgSize + fileArgsOffset) (s ++ [0])).stored
    (page * pgSize + fileNameOffset) (token ++ [0])

theorem copyAndCreate_copied {s : List UInt8} (hfits : fileArgsOffset + (s.length + 1) ≤ pgSize)
    (htoken : (strtokR [space] s).1 = some token) (hlength : token.length ≤ s.length) :
    copyAndCreate page s r =
      (threadCreate token page >>= finish page (s.length + 1)) (r.copied page s token) := by
  have hfits' : fileNameOffset + (token.length + 1) ≤ pgSize := by
    unfold fileNameOffset fileArgsOffset argMax at *
    omega
  rw [copyAndCreate, Routine.bind_of_ok (copyToPage_of_le hfits r), htoken]
  show (strlen (some token) >>= _) _ = _
  rw [Routine.bind_of_ok (show strlen (some token) _ = .ok (token.length, _) from rfl),
    Option.getD_some, Routine.bind_of_ok (copyToPage_of_le hfits' _)]
  rfl

theorem threadCreate_none (h : r.kernel.freePage = none) (name : List UInt8) :
    (threadCreate name page >>= finish page size) r =
      .ok (none, { r with kernel := { r.kernel.setUsed page false with
        blocks := r.kernel.blocks.erase size } }) := by
  rw [Routine.bind_of_ok (show threadCreate name page r = .ok (none, r) by
    rw [threadCreate, Routine.bind_of_ok (pallocGetPage_none h)]
    rfl)]
  rfl

/-- The run with the new thread, whose `struct thread` is in `frame`. -/
def started (r : ExecRun) (page frame size : Nat) (name : List UInt8) : ExecRun where
  kernel := { r.kernel.setUsed frame true with
    nextTid := r.kernel.nextTid + 1
    threads := r.kernel.threads ++ [⟨r.kernel.nextTid, name.take 15, page⟩]
    childrenList := r.kernel.childrenList ++ [r.kernel.nextTid]
    blocks := r.kernel.blocks.erase size }
  stores := r.stores

theorem threadCreate_some {frame : Nat} (h : r.kernel.freePage = some frame) (name : List UInt8) :
    (threadCreate name page >>= finish page size) r =
      .ok (some r.kernel.nextTid, r.started page frame size name) := by
  rw [Routine.bind_of_ok (show threadCreate name page r = .ok (some r.kernel.nextTid, _) by
    rw [threadCreate, Routine.bind_of_ok (pallocGetPage_some h)]
    rfl)]
  rfl

/-- A store to one page leaves the bytes of the others. -/
theorem store_otherPage {m : Memory} {page p ofs i : Nat} {bytes : List UInt8} (hne : p ≠ page)
    (hfits : ofs + bytes.length ≤ pgSize) (hi : i < pgSize) :
    m.store (page * pgSize + ofs) bytes (p * pgSize + i) = m (p * pgSize + i) := by
  unfold pgSize at *
  rw [Memory.store_apply, if_neg (by omega)]

section Handles

variable {k : ExecKernel} {s : List UInt8}

/-- Nothing was changed where no thread was created. -/
theorem unchanged_of_given_back (hpage : k.freePage = some page)
    (hfits : fileArgsOffset + (s.length + 1) ≤ pgSize) (hlength : token.length ≤ s.length) :
    k.Unchanged { ((((⟨k, []⟩ : ExecRun).allocated page (s.length + 1)).copied page s
      token).kernel.setUsed page false) with
        blocks := (((⟨k, []⟩ : ExecRun).allocated page (s.length + 1)).copied page s
          token).kernel.blocks.erase (s.length + 1) } := by
  have hfree := ExecKernel.freePage_unused hpage
  refine ⟨ExecKernel.setUsed_back hfree, ?_, rfl, rfl, rfl, fun p hp i hi => ?_⟩
  · exact List.erase_cons_head ..
  · have hne : p ≠ page := by
      rintro rfl
      rw [hfree] at hp
      nomatch hp
    have hname : fileNameOffset + (token ++ [0]).length ≤ pgSize := by
      unfold fileNameOffset fileArgsOffset argMax at *
      simp
      omega
    have hargs : fileArgsOffset + (s ++ [0]).length ≤ pgSize := by simpa using hfits
    exact (store_otherPage hne hname hi).trans (store_otherPage hne hargs hi)

/-- A thread that was created has its arguments. -/
theorem started_of_created {frame : Nat} (hpage : k.freePage = some page) (hne : page ≠ frame)
    {rest : List (List UInt8)} (htokens : tokens s = token :: rest) (hshort : s.length < argMax)
    (hlength : token.length ≤ s.length) :
    k.Started ((((⟨k, []⟩ : ExecRun).allocated page (s.length + 1)).copied page s
      token).started page frame (s.length + 1) token).kernel s k.nextTid page := by
  have hfree := ExecKernel.freePage_unused hpage
  refine ⟨⟨hfree, ?_⟩, ⟨token, rest, htokens, rfl, Memory.holds_store _ _ _⟩, ?_, rfl,
    List.erase_cons_head ..⟩
  · exact (if_neg hne).trans (ExecKernel.setUsed_used_self k page true)
  · refine (Memory.holds_store _ _ _).store (.inr ?_)
    unfold fileNameOffset fileArgsOffset
    simp
    omega

theorem stores_copied (r : ExecRun) (page : Nat) (s token : List UInt8) :
    (r.copied page s token).stores = r.stores ++
      [(page * pgSize + fileArgsOffset, s.length + 1),
        (page * pgSize + fileNameOffset, token.length + 1)] := by
  simp [copied, stored]

/-- The stores of the two strings stay in their fields if the string is short, and only then. -/
theorem inField_copied (hshort : s.length < argMax) (hlength : token.length ≤ s.length) :
    ∀ store ∈ (((⟨k, []⟩ : ExecRun).allocated page (s.length + 1)).copied page s token).stores,
      InField page store := by
  rw [stores_copied]
  intro store hstore
  rcases List.mem_pair.mp hstore with rfl | rfl
  · exact ⟨fileArgsOffset, by simp, rfl, by dsimp only; omega⟩
  · exact ⟨fileNameOffset, by simp, rfl, by dsimp only; omega⟩

theorem short_of_inField {page' : Nat}
    (h : ∀ store ∈ (((⟨k, []⟩ : ExecRun).allocated page (s.length + 1)).copied page s
      token).stores, InField page' store) : s.length < argMax := by
  rw [stores_copied] at h
  obtain ⟨-, -, -, hsize⟩ := h (page * pgSize + fileArgsOffset, s.length + 1) (by simp)
  exact hsize

/-- The end of `process_execute` keeps the stores as they are. -/
theorem created_cases (r : ExecRun) (page size : Nat) (name : List UInt8) :
    ∃ threadId r', (threadCreate name page >>= finish page size) r = .ok (threadId, r') ∧
      r'.stores = r.stores := by
  cases h : r.kernel.freePage with
  | none => exact ⟨_, _, threadCreate_none h name, rfl⟩
  | some frame => exact ⟨_, _, threadCreate_some h name, rfl⟩

/-- The command string has a token and is short. -/
theorem handlesCommand_of_short (hpage : k.freePage = some page) {rest : List (List UInt8)}
    (htokens : tokens s = token :: rest) (hshort : s.length < argMax)
    (hlength : token.length ≤ s.length) :
    HandlesCommand k s ((threadCreate token page >>= finish page (s.length + 1))
      (((⟨k, []⟩ : ExecRun).allocated page (s.length + 1)).copied page s token)) := by
  have hfits : fileArgsOffset + (s.length + 1) ≤ pgSize := by
    unfold fileArgsOffset pgSize argMax at *
    omega
  have hstores : ∀ store ∈ (((⟨k, []⟩ : ExecRun).allocated page (s.length + 1)).copied page s
      token).stores, InField page store := inField_copied hshort hlength
  cases h : (((⟨k, []⟩ : ExecRun).allocated page (s.length + 1)).copied page s
      token).kernel.freePage with
  | none =>
    exact ⟨_, _, page, threadCreate_none h token, hstores,
      .inl ⟨rfl, unchanged_of_given_back hpage hfits hlength⟩⟩
  | some frame =>
    have hne : page ≠ frame := by
      rintro rfl
      have hused := ExecKernel.freePage_unused h
      rw [show (((⟨k, []⟩ : ExecRun).allocated page (s.length + 1)).copied page s
        token).kernel.used page = true from ExecKernel.setUsed_used_self k page true] at hused
      nomatch hused
    exact ⟨_, _, page, threadCreate_some h token, hstores,
      .inr ⟨_, rfl, started_of_created hpage hne htokens hshort hlength⟩⟩

/-- The command string has no token, or is too long for `file_args`. -/
theorem not_handlesCommand (h : ¬ (tokens s ≠ [] ∧ s.length < argMax)) :
    ¬ HandlesCommand k s (copyAndCreate page s ((⟨k, []⟩ : ExecRun).allocated page
      (s.length + 1))) := by
  rintro ⟨threadId, r, page', hrun, hstores, -⟩
  by_cases hfits : fileArgsOffset + (s.length + 1) ≤ pgSize
  · rcases strtokR_space s with ⟨hnone, -⟩ | ⟨token, rest, htoken, htokens, hle, -, -⟩
    · rw [copyAndCreate_noToken hfits (by rw [hnone])] at hrun
      cases hrun
    · rw [copyAndCreate_copied hfits (by rw [htoken]) (by omega)] at hrun
      obtain ⟨threadId', r', hcreated, hsame⟩ := created_cases
        (((⟨k, []⟩ : ExecRun).allocated page (s.length + 1)).copied page s token) page
        (s.length + 1) token
      cases hcreated.symm.trans hrun
      rw [hsame] at hstores
      exact h ⟨by rw [htokens]; nofun, short_of_inField hstores⟩
  · rw [copyAndCreate_tooLong (by omega)] at hrun
    cases hrun

end Handles

end ExecRun

/-- `process_execute` does what it is to do exactly if there is no page or no block to copy to, or
if the command string has a token and at most 99 bytes. -/
theorem process_execute_handles_iff (k : ExecKernel) (fileName : CString) (mallocSucceeds : Bool) :
    HandlesCommand k fileName.bytes (ExecRun.processExecute fileName mallocSucceeds ⟨k, []⟩) ↔
      k.freePage = none ∨ mallocSucceeds = false ∨
        (tokens fileName.bytes ≠ [] ∧ fileName.bytes.length < argMax) := by
  cases hpage : k.freePage with
  | none =>
    rw [ExecRun.processExecute_noPage hpage]
    refine iff_of_true ⟨_, _, 0, rfl, fun _ hstore => ?_, .inl ⟨rfl, ?_⟩⟩ (.inl rfl)
    · nomatch hstore
    · exact ⟨rfl, rfl, rfl, rfl, rfl, fun _ _ _ _ => rfl⟩
  | some page =>
    cases mallocSucceeds with
    | false =>
      rw [ExecRun.processExecute_noBlock hpage]
      refine iff_of_true ⟨_, _, 0, rfl, fun _ hstore => ?_, .inl ⟨rfl, ?_⟩⟩ (.inr (.inl rfl))
      · nomatch hstore
      · exact ⟨ExecKernel.setUsed_back (ExecKernel.freePage_unused hpage), rfl, rfl, rfl, rfl,
          fun _ _ _ _ => rfl⟩
    | true =>
      rw [ExecRun.processExecute_block hpage]
      constructor
      · intro h
        refine .inr (.inr ?_)
        by_contra hnot
        exact ExecRun.not_handlesCommand hnot h
      · rintro (hnone | hfalse | ⟨hne, hshort⟩)
        · nomatch hnone
        · nomatch hfalse
        · rcases strtokR_space fileName.bytes with
            ⟨-, hnil⟩ | ⟨token, rest, htoken, htokens, hle, -⟩
          · exact absurd hnil hne
          · have hfits : fileArgsOffset + (fileName.bytes.length + 1) ≤ pgSize := by
              unfold fileArgsOffset pgSize argMax at *
              omega
            rw [ExecRun.copyAndCreate_copied hfits (by rw [htoken]) (by omega)]
            exact ExecRun.handlesCommand_of_short hpage htokens hshort (by omega)

/-- A kernel with 16 free pages, as at the first `exec`. -/
def freshKernel : ExecKernel := ⟨16, fun _ => false, fun _ => 0, [], 4, [], []⟩

/-- `strlen` is called on a null pointer. -/
theorem process_execute_empty :
    ¬ HandlesCommand freshKernel []
      (ExecRun.processExecute ⟨[], nofun⟩ true ⟨freshKernel, []⟩) := by
  rw [ExecRun.processExecute_block (show freshKernel.freePage = some 0 by decide)]
  exact ExecRun.not_handlesCommand (by decide)

end Pintos
