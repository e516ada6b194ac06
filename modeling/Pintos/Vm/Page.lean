import Pintos.Lib.Bitmap
import Pintos.Library.Routine
import Pintos.Vm.Pagedir

/-! Virtual memory: the supplemental page table (`vm/page.c`), the frame table (`vm/frame.c`) and
the swap device (`vm/swap.c`), with the page fault handler that drives them.  Calls run one after
another, so the locks are left out, and memory allocation from the heap succeeds.  The user pool
holds the frames, numbered from 0; files are their bytes. -/

namespace Pintos

instance neZero_pageBytes : NeZero 4096 := ⟨by decide⟩

/-- The bytes of a page. -/
abbrev PageData := Fin 4096 → UInt8

namespace PageData

def zeros : PageData := fun _ => 0

/-- The `k`-th sector of a page. -/
def sector (data : PageData) (k : Nat) : SectorData := fun i =>
  if h : k * 512 + i.val < 4096 then data ⟨k * 512 + i.val, h⟩ else 0

def setSector (data : PageData) (k : Nat) (sector : SectorData) : PageData := fun j =>
  if j.val / 512 = k then sector ⟨j.val % 512, Nat.mod_lt _ (by decide)⟩ else data j

/-- The bytes of `buffer` over the start of the page. -/
def copyIn (data : PageData) (buffer : List UInt8) : PageData := fun j => buffer.getD j.val (data j)

/-- `memset` of `size` bytes from `start` to zero. -/
def clear (data : PageData) (start size : Nat) : PageData := fun j =>
  if start ≤ j.val ∧ j.val < start + size then 0 else data j

def copyOut (data : PageData) (size : Nat) : List UInt8 := (List.ofFn data).take size

end PageData

/-- The `TYPE_MASK` bits of `enum pt_status`. -/
inductive PtType where
  | mmf
  | lazy
  deriving DecidableEq

/-- The `PRESENCE_MASK` bits of `enum pt_status`. -/
inductive PtPresence where
  | unloaded
  | present
  | swapped
  deriving DecidableEq

/-- `struct pt_suppl_file_info`. -/
structure PtSupplFileInfo where
  file : Nat
  owner : Nat
  mapId : Nat
  offset : Nat
  readBytes : Nat
  zeroBytes : Nat
  writable : Bool

/-- `struct pt_suppl_entry`, with the two parts of its status. -/
structure PtSupplEntry where
  vaddr : Nat
  type : PtType
  presence : PtPresence
  swapSlot : Nat
  fileInfo : Option PtSupplFileInfo

/-- `struct frame_entry`. -/
structure FrameEntry where
  page : Nat
  owner : Nat
  threadVaddr : Nat

/-- A supplemental page table: the hash table finds an entry by its address. -/
structure PtSuppl where
  get : Nat → Option PtSupplEntry
  vaddr_eq : ∀ {vaddr entry}, get vaddr = some entry → entry.vaddr = vaddr

namespace PtSuppl

def empty : PtSuppl := ⟨fun _ => none, nofun⟩

/-- The table with `entry` under its address. -/
def put (table : PtSuppl) (entry : PtSupplEntry) : PtSuppl where
  get := Function.update table.get entry.vaddr (some entry)
  vaddr_eq {vaddr e} h := by
    by_cases hv : vaddr = entry.vaddr
    · subst hv
      rw [Function.update_self] at h
      cases h
      rfl
    · rw [Function.update_of_ne hv] at h
      exact table.vaddr_eq h

/-- `hash_delete`. -/
def delete (table : PtSuppl) (vaddr : Nat) : PtSuppl where
  get := Function.update table.get vaddr none
  vaddr_eq {v e} h := by
    by_cases hv : v = vaddr
    · subst hv
      simp at h
    · rw [Function.update_of_ne hv] at h
      exact table.vaddr_eq h

theorem put_get (table : PtSuppl) (entry : PtSupplEntry) (v : Nat) :
    (table.put entry).get v = if v = entry.vaddr then some entry else table.get v := by
  simp [put, Function.update_apply]

theorem delete_get (table : PtSuppl) (vaddr v : Nat) :
    (table.delete vaddr).get v = if v = vaddr then none else table.get v := by
  simp [delete, Function.update_apply]

end PtSuppl

/-- The paging state of a process. -/
structure Process where
  pagedir : Pagedir
  ptSuppl : PtSuppl

/-- The state of virtual memory.  `frameHash` lists the frame table in the order of
`hash_next`. -/
structure Vm where
  process : Nat → Process
  frameHash : List FrameEntry
  userPool : Bitmap
  kernelPages : Nat
  memory : Nat → PageData
  swapBm : Bitmap
  swapDevice : Block
  file : Nat → List UInt8
  denyWrite : Nat → Bool
  lastMap : Nat

abbrev VmRoutine := Routine Fault Vm

namespace Vm

def setProcess (s : Vm) (p : Nat) (process : Process) : Vm :=
  { s with process := Function.update s.process p process }

def setPagedir (s : Vm) (p : Nat) (pagedir : Pagedir) : Vm :=
  s.setProcess p { s.process p with pagedir }

def setPtSuppl (s : Vm) (p : Nat) (ptSuppl : PtSuppl) : Vm :=
  s.setProcess p { s.process p with ptSuppl }

def setMemory (s : Vm) (page : Nat) (data : PageData) : Vm :=
  { s with memory := Function.update s.memory page data }

end Vm

/-- `SECTORS_PER_PAGE`. -/
def sectorsPerPage : Nat := 8

/-! ### Swap -/

/-- The loop of `swap_out`, from sector `iter` of the page on. -/
def swapOutLoop (slot : Nat) (data : PageData) (iters : List Nat) : VmRoutine Unit :=
  iters.forM fun iter => do
    let s ← get
    let swapDevice ← s.swapDevice.blockWrite (slot * sectorsPerPage + iter) (data.sector iter)
    set { s with swapDevice }

/-- `swap_out`, with `none` for `SWAP_ERROR`. -/
def swapOut (data : PageData) : VmRoutine (Option Nat) := do
  let s ← get
  match s.swapBm.scanAndFlip 0 1 true with
  | none => pure none
  | some (slot, swapBm) =>
    set { s with swapBm }
    swapOutLoop slot data (List.range sectorsPerPage)
    pure (some slot)

/-- The loop of `swap_in`: the sectors are read to the user address `vaddr` of process `cur`, so
the processor marks the page accessed and dirty. -/
def swapInLoop (cur slot vaddr : Nat) (iters : List Nat) : VmRoutine Unit :=
  iters.forM fun iter => do
    let s ← get
    let data ← s.swapDevice.blockRead (slot * sectorsPerPage + iter)
    match (s.process cur).pagedir.getPage vaddr with
    | none => throw (.undefined "swap_in to a page that is not present")
    | some page =>
      let s := s.setPagedir cur ((s.process cur).pagedir.touch vaddr true)
      set (s.setMemory page ((s.memory page).setSector iter data))

/-- `swap_in`, which ends with `swap_free`. -/
def swapIn (cur slot vaddr : Nat) : VmRoutine Unit := do
  swapInLoop cur slot vaddr (List.range sectorsPerPage)
  modify fun s => { s with swapBm := s.swapBm.flip slot }

/-! ### Frames -/

/-- One pass of `select_frame_to_evict` over the frame table. -/
def selectSweep : List FrameEntry → Vm → Vm × Option FrameEntry
  | [], s => (s, none)
  | fe :: rest, s =>
    let pagedir := (s.process fe.owner).pagedir
    if pagedir.isAccessed fe.threadVaddr then
      selectSweep rest (s.setPagedir fe.owner (pagedir.setAccessed fe.threadVaddr false))
    else (s, some fe)

/-- `select_frame_to_evict`.  After a pass without a result no frame is accessed, so the second
pass takes the first frame; over an empty table the loop never ends. -/
def selectFrameToEvict : VmRoutine FrameEntry := do
  let s ← get
  match selectSweep s.frameHash s with
  | (s, some fe) => set s; pure fe
  | (s, none) =>
    match selectSweep s.frameHash s with
    | (s, some fe) => set s; pure fe
    | (_, none) => throw .spin

/-- The first `size` bytes at `vaddr` as a copy in kernel code by process `cur` reads them while
`frame_hash_lock` is held.  If the page is absent, its fault comes back to the frame table or kills
the process. -/
def userBytes (cur vaddr size : Nat) : VmRoutine (List UInt8) := do
  let s ← get
  match (s.process cur).pagedir.getPage vaddr with
  | some page =>
    set (s.setPagedir cur ((s.process cur).pagedir.touch vaddr false))
    pure ((s.memory page).copyOut size)
  | none =>
    if ((s.process cur).ptSuppl.get (pgRoundDown vaddr)).isSome then
      throw (.assertion "!lock_held_by_current_thread (lock)")
    else throw (.exit (-1))

/-- The bytes of a file once `buffer` is stored at `offset`. -/
def overwrite (bytes buffer : List UInt8) (offset : Nat) : List UInt8 :=
  let padded := bytes ++ List.replicate (offset - bytes.length) 0
  padded.take offset ++ buffer ++ padded.drop (offset + buffer.length)

/-- `file_write_at` from the user address `vaddr`.  `inode_write_at` reads nothing for an empty write
and while writes to the file are denied. -/
def fileWriteAt (cur file vaddr size offset : Nat) : VmRoutine Unit := do
  if size = 0 ∨ (← get).denyWrite file then pure ()
  else
    let buffer ← userBytes cur vaddr size
    modify fun s =>
      { s with file := Function.update s.file file (overwrite (s.file file) buffer offset) }

/-- The write of a dirty mapped page to its file in `page_out_evicted_frame`. -/
def writeBackMmf (cur : Nat) (fe : FrameEntry) (pt : PtSupplEntry) (info : PtSupplFileInfo) :
    VmRoutine Unit := do
  if ((← get).process fe.owner).pagedir.isDirty pt.vaddr then
    fileWriteAt cur info.file pt.vaddr info.readBytes info.offset

/-- `pagedir_clear_page` on the page directory of process `p`. -/
def pagedirClearPage (p upage : Nat) : VmRoutine Unit := do
  if upage % pgSize ≠ 0 then throw (.assertion "pg_ofs (upage) == 0")
  if physBase ≤ upage then throw (.assertion "is_user_vaddr (upage)")
  modify fun s => s.setPagedir p ((s.process p).pagedir.clearPage upage)

/-- `page_out_evicted_frame`, run by a thread of process `cur`. -/
def pageOutEvictedFrame (cur : Nat) (fe : FrameEntry) : VmRoutine Unit := do
  let s ← get
  match (s.process fe.owner).ptSuppl.get fe.threadVaddr with
  | none =>
    match ← swapOut (s.memory fe.page) with
    | none => throw (.panic "Cannot swap")
    | some swapSlot =>
      modify fun s => s.setPtSuppl fe.owner ((s.process fe.owner).ptSuppl.put
        { vaddr := fe.threadVaddr, type := .lazy, presence := .swapped, swapSlot,
          fileInfo := none })
      pagedirClearPage fe.owner fe.threadVaddr
  | some pt =>
    if pt.type = .mmf then
      match pt.fileInfo with
      | none => throw (.undefined "file_info is null")
      | some info =>
        writeBackMmf cur fe pt info
        modify fun s => s.setPtSuppl fe.owner ((s.process fe.owner).ptSuppl.put
          { pt with type := .mmf, presence := .unloaded })
        pagedirClearPage fe.owner pt.vaddr
    else throw (.panic "STATUS of page")

/-- `evict_and_get_frame` and the assignment to `thread_vaddr` after it. -/
def evictAndGetFrame (cur threadVaddr : Nat) : VmRoutine Nat := do
  let vict ← selectFrameToEvict
  pageOutEvictedFrame cur vict
  modify fun s => { s with
    frameHash := s.frameHash.map fun fe =>
      if fe.page = vict.page then { fe with owner := cur, threadVaddr } else fe }
  pure vict.page

/-- `vm_frame_alloc` with `PAL_USER`.  `order` gives the order in which `hash_next` meets the
entries once one has been inserted. -/
def vmFrameAlloc (order : List FrameEntry → List FrameEntry) (cur : Nat) (palZero : Bool)
    (threadVaddr : Nat) : VmRoutine Nat := do
  let s ← get
  match s.userPool.scanAndFlip 0 1 false with
  | some (page, userPool) =>
    set { s with
      userPool
      memory := if palZero then Function.update s.memory page PageData.zeros else s.memory
      frameHash := order (⟨page, cur, pgRoundDown threadVaddr⟩ :: s.frameHash) }
    pure page
  | none => evictAndGetFrame cur threadVaddr

/-- `vm_frame_free`; a freed page is filled with 0xcc. -/
def vmFrameFree (page : Nat) : VmRoutine Unit :=
  modify fun s => { s with
    frameHash := s.frameHash.filter fun fe => fe.page ≠ page
    userPool := s.userPool.setMultiple page 1 false
    memory := Function.update s.memory page fun _ => 0xcc }

/-- `pagedir_set_page` on the page directory of process `cur`. -/
def pagedirSetPage (cur upage kpage : Nat) (writable : Bool) : VmRoutine Bool := do
  let s ← get
  match ← (s.process cur).pagedir.setPage s.kernelPages upage kpage writable with
  | none => pure false
  | some (kernelPages, pagedir) =>
    set (Vm.setPagedir { s with kernelPages } cur pagedir)
    pure true

/-! ### Supplemental entries -/

/-- `pt_suppl_add`: `hash_insert` keeps an entry that is there. -/
def ptSupplAdd (cur : Nat) (entry : PtSupplEntry) : VmRoutine Bool := do
  let s ← get
  if ((s.process cur).ptSuppl.get entry.vaddr).isNone then
    set (s.setPtSuppl cur ((s.process cur).ptSuppl.put entry))
  pure true

/-- `pt_suppl_setup_file_info`. -/
def ptSupplSetupFileInfo (cur lastMap file offset pageAddr readBytes zeroBytes : Nat)
    (writable : Bool) (type : PtType) : PtSupplEntry where
  vaddr := pageAddr
  type := type
  presence := .unloaded
  swapSlot := 0
  fileInfo := some
    { file, owner := cur, mapId := lastMap, offset, readBytes, zeroBytes, writable }

def ptSupplAddMmf (cur file offset pageAddr readBytes : Nat) : VmRoutine Bool := do
  let s ← get
  ptSupplAdd cur (ptSupplSetupFileInfo cur s.lastMap file offset pageAddr readBytes
    (pgSize - readBytes) true .mmf)

def ptSupplAddLazy (cur file offset pageAddr readBytes zeroBytes : Nat) (writable : Bool) :
    VmRoutine Bool := do
  let s ← get
  ptSupplAdd cur (ptSupplSetupFileInfo cur s.lastMap file offset pageAddr readBytes zeroBytes
    writable .lazy)

/-- What both branches of `pt_suppl_page_in` do with the entry once the page is loaded. -/
def ptSupplLoaded (cur : Nat) (entry : PtSupplEntry) : VmRoutine Unit :=
  modify fun s => s.setPtSuppl cur
    (if entry.type = .lazy then (s.process cur).ptSuppl.delete entry.vaddr
    else (s.process cur).ptSuppl.put { entry with presence := .present })

/-- The bytes that `file_read` finds at `offset`. -/
def fileRead (s : Vm) (file offset size : Nat) : List UInt8 := ((s.file file).drop offset).take size

variable (order : List FrameEntry → List FrameEntry)

/-- The end of both branches of `pt_suppl_page_in`. -/
def ptSupplFinish (cur frm : Nat) (entry : PtSupplEntry) (pgdir : Bool) : VmRoutine Bool := do
  if pgdir then ptSupplLoaded cur entry else vmFrameFree frm
  pure pgdir

/-- The branch of `pt_suppl_page_in` for a swapped page. -/
def ptSupplSwapIn (cur frm : Nat) (entry : PtSupplEntry) : VmRoutine Bool := do
  let isWrit := entry.fileInfo.all (·.writable)
  let pgdir ← pagedirSetPage cur entry.vaddr frm isWrit
  if pgdir then swapIn cur entry.swapSlot entry.vaddr
  ptSupplFinish cur frm entry pgdir

/-- The reading of a page from its file in `pt_suppl_page_in`. -/
def ptSupplRead (frm : Nat) (inf : PtSupplFileInfo) : VmRoutine Bool := do
  let s ← get
  let bytes := fileRead s inf.file inf.offset inf.readBytes
  set (s.setMemory frm (((s.memory frm).copyIn bytes).clear inf.readBytes inf.zeroBytes))
  pure (inf.readBytes = 0 || !bytes.isEmpty)

/-- The branch of `pt_suppl_page_in` for a page still in its file. -/
def ptSupplReadIn (cur frm : Nat) (entry : PtSupplEntry) (inf : PtSupplFileInfo) :
    VmRoutine Bool := do
  let read ← ptSupplRead frm inf
  (if read then pagedirSetPage cur entry.vaddr frm inf.writable else pure false) >>=
    ptSupplFinish cur frm entry

/-- `pt_suppl_page_in` for the entry of `vaddr`, which is read again once there is a frame. -/
def ptSupplPageIn (cur vaddr : Nat) : VmRoutine Bool := do
  let frm ← vmFrameAlloc order cur false vaddr
  match ((← get).process cur).ptSuppl.get vaddr with
  | none => throw (.undefined "the entry was freed")
  | some entry =>
    match entry.presence, entry.fileInfo with
    | .swapped, _ => ptSupplSwapIn cur frm entry
    | .unloaded, some inf => ptSupplReadIn cur frm entry inf
    | .unloaded, none => throw (.assertion "inf != NULL")
    | .present, _ => throw (.panic "Trying to page-in already loaded page")

/-- `pt_suppl_grow_stack`. -/
def ptSupplGrowStack (cur front : Nat) : VmRoutine Unit := do
  let page ← vmFrameAlloc order cur true (pgRoundDown front)
  if !(← pagedirSetPage cur (pgRoundDown front) page true) then vmFrameFree page

/-- `MAX_STACK`. -/
def maxStack : Nat := 8 * 2 ^ 20

/-- The test of `pt_suppl_check_and_grow_stack`: the comparison with `esp - 32` is of 32-bit
addresses, and `PHYS_BASE - pg` is a signed 32-bit difference. -/
def isStackGrowth (vaddress esp : Nat) : Bool :=
  (esp + 2 ^ 32 - 32) % 2 ^ 32 ≤ vaddress &&
    ((physBase : Int) - pgRoundDown vaddress).bmod (2 ^ 32) ≤ maxStack

def ptSupplCheckAndGrowStack (cur vaddress esp : Nat) : VmRoutine Bool := do
  if isStackGrowth vaddress esp then ptSupplGrowStack order cur vaddress
  pure (isStackGrowth vaddress esp)

def ptSupplHandlePageFault (cur vaddress esp : Nat) : VmRoutine Bool := do
  if ¬ (vaddress ≠ 0 ∧ vaddress < physBase) then
    throw (.assertion "vaddress != NULL && vaddress < PHYS_BASE")
  let s ← get
  match (s.process cur).ptSuppl.get (pgRoundDown vaddress) with
  | some entry => ptSupplPageIn order cur entry.vaddr
  | none => ptSupplCheckAndGrowStack order cur vaddress esp

/-- `page_fault`: the access goes on if the result is true, else the process is ended. -/
def pageFault (cur faultAddr esp : Nat) : VmRoutine Bool := do
  let s ← get
  if (s.process cur).pagedir.getPage faultAddr = none ∧ faultAddr ≠ 0 ∧ faultAddr < physBase then
    let handled ← ptSupplHandlePageFault order cur faultAddr esp
    let s ← get
    pure (handled && ((s.process cur).pagedir.getPage faultAddr).isSome)
  else pure false

def installPage (cur upage kpage : Nat) (writable : Bool) : VmRoutine Bool := do
  let s ← get
  if ((s.process cur).pagedir.getPage upage).isNone then pagedirSetPage cur upage kpage writable
  else pure false

/-- The part of `setup_stack` that installs the page. -/
def setupStackPage (cur : Nat) : VmRoutine Bool := do
  let start := physBase - pgSize
  let kernelPage ← vmFrameAlloc order cur true start
  let result ← installPage cur start kernelPage true
  if !result then vmFrameFree kernelPage
  pure result

end Pintos
