import Pintos.Vm.Mmap
import Pintos.Vm.Permission

/-! The end of a mapping (`munmap`) and of a process (`process_exit`), and the operations from which
the runs of the paging system are made.  `pt_suppl_hash` gives every entry the same bucket, so the
order of that bucket decides which entry of a mapping `hash_delete` meets first; it is a parameter. -/

namespace Pintos

/-- The comparison by which `hash_delete` finds the entries of a mapping. -/
def PtSupplEntry.inMapping (e : PtSupplEntry) (mapId : Nat) : Bool :=
  e.type = .mmf && e.fileInfo.any (·.mapId = mapId)

/-- The first entry of a mapping in the bucket. -/
def findMapping (bucket : List Nat) (table : PtSuppl) (mapId : Nat) : Option PtSupplEntry :=
  bucket.findSome? fun vaddr => (table.get vaddr).filter (·.inMapping mapId)

/-- `pt_suppl_flush_mmf`. -/
def ptSupplFlushMmf (cur : Nat) (entry : PtSupplEntry) : VmRoutine Unit := do
  if entry.presence = .present ∨ entry.presence = .swapped then
    match entry.fileInfo with
    | none => throw (.assertion "mmfile != NULL")
    | some mmfile => fileWriteAt cur mmfile.file entry.vaddr mmfile.readBytes mmfile.offset

section

variable (bucket : PtSuppl → List Nat)

/-- At most `fuel` passes of the loop of `pt_suppl_handle_unmap`. -/
def unmapLoop (cur mapId : Nat) : (fuel : Nat) → VmRoutine Unit
  | 0 => throw .spin
  | fuel + 1 => do
    let s ← get
    let table := (s.process cur).ptSuppl
    match findMapping (bucket table) table mapId with
    | none => pure ()
    | some delet =>
      set (s.setPtSuppl cur (table.delete delet.vaddr))
      if (s.process cur).pagedir.isDirty delet.vaddr then ptSupplFlushMmf cur delet
      unmapLoop cur mapId fuel

/-- `pt_suppl_handle_unmap`; the loop deletes an entry in each pass but the last. -/
def ptSupplHandleUnmap (cur mapId : Nat) : VmRoutine Unit := do
  let s ← get
  unmapLoop bucket cur mapId ((bucket (s.process cur).ptSuppl).length + 1)

/-- `memory_unmap_file`. -/
def memoryUnmapFile (cur mapId : Nat) : VmRoutine Unit := ptSupplHandleUnmap bucket cur mapId

end

/-- `pagedir_destroy`: the frames of the present pages go back, then each page table, then the page
directory. -/
def pagedirDestroy (pd : Pagedir) : VmRoutine Unit := do
  (List.range (Pagedir.pdNo physBase)).forM fun pde => do
    if pd.pde pde then
      (List.range 1024).forM fun pte => do
        let pte := pd.pte (pde * 2 ^ 22 + pte * pgSize)
        if pte.present then vmFrameFree pte.page
      modify fun s => { s with kernelPages := s.kernelPages + 1 }
  modify fun s => { s with kernelPages := s.kernelPages + 1 }

/-- `pt_suppl_free`: `pt_suppl_free_entry` gives back the memory of the entries, and nothing else. -/
def ptSupplFree (cur : Nat) : VmRoutine Unit := modify fun s => s.setPtSuppl cur PtSuppl.empty

/-- What `process_exit` does to the memory of the process, which has no page directory from then
on. -/
def processExit (cur : Nat) : VmRoutine Unit := do
  let currpagedirectory := ((← get).process cur).pagedir
  modify fun s => s.setPagedir cur Pagedir.empty
  pagedirDestroy currpagedirectory
  ptSupplFree cur

/-- What happens to the pages of the processes over their lives.  Evictions happen inside faults. -/
inductive PagingOp where
  | page (op : VmOp)
  | mmap (cur fe startPg : Nat)
  | munmap (cur mapId : Nat)
  | exit (cur : Nat)

/-- Executes an operation; only that it ends is of interest for the last three. -/
def PagingOp.exec (order : List FrameEntry → List FrameEntry) (bucket : PtSuppl → List Nat) :
    PagingOp → VmRoutine Unit
  | page op => do let _ ← op.exec order
  | mmap cur fe startPg => do let _ ← ptSupplHandleMmap cur fe startPg
  | munmap cur mapId => memoryUnmapFile bucket cur mapId
  | exit cur => processExit cur

end Pintos
