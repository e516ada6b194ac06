import Pintos.Vm.PageSpec

/-! The bytes in a page after it has been read from its file or from swap, and the bytes of a file
after a write. -/

namespace Pintos

/-! ### Bytes of files and pages -/

theorem length_overwrite (bytes buffer : List UInt8) (offset : Nat) :
    (overwrite bytes buffer offset).length = max bytes.length (offset + buffer.length) := by
  simp only [overwrite, List.length_append, List.length_take, List.length_drop,
    List.length_replicate]
  omega

/-- A read of what has just been written. -/
theorem take_drop_overwrite (bytes buffer : List UInt8) (offset : Nat) :
    ((overwrite bytes buffer offset).drop offset).take buffer.length = buffer := by
  have hlen : ((bytes ++ List.replicate (offset - bytes.length) 0).take offset).length = offset := by
    simp only [List.length_take, List.length_append, List.length_replicate]
    omega
  rw [overwrite, List.append_assoc, List.drop_append_of_le_length (by omega), ← hlen]
  simp

/-- A write within the file replaces the bytes it covers. -/
theorem getElem?_overwrite {bytes buffer : List UInt8} {offset : Nat}
    (h : offset + buffer.length ≤ bytes.length) (o : Nat) :
    (overwrite bytes buffer offset)[o]? =
      if offset ≤ o ∧ o < offset + buffer.length then buffer[o - offset]? else bytes[o]? := by
  have hpad : offset - bytes.length = 0 := by omega
  have htake : (bytes.take offset).length = offset := by
    rw [List.length_take]
    omega
  simp only [overwrite, hpad, List.replicate_zero, List.append_nil]
  by_cases hbefore : o < offset
  · rw [if_neg (by omega), List.append_assoc, List.getElem?_append_left (by omega),
      List.getElem?_take_of_lt hbefore]
  · rw [List.append_assoc, List.getElem?_append_right (by omega), htake]
    by_cases hin : o < offset + buffer.length
    · rw [if_pos ⟨by omega, hin⟩, List.getElem?_append_left (by omega)]
    · rw [if_neg (by omega), List.getElem?_append_right (by omega), List.getElem?_drop]
      congr 1
      omega

namespace PageData

theorem getElem?_copyOut (data : PageData) {size i : Nat} (hi : i < size) (hsize : size ≤ 4096) :
    (data.copyOut size)[i]? = some (data ⟨i, by omega⟩) := by
  rw [copyOut, List.getElem?_take_of_lt hi, List.getElem?_ofFn, dif_pos]

theorem length_copyOut (data : PageData) {size : Nat} (h : size ≤ 4096) :
    (data.copyOut size).length = size := by
  rw [copyOut, List.length_take, List.length_ofFn, Nat.min_eq_left h]

theorem getElem_copyOut (data : PageData) {size i : Nat} (h : i < (data.copyOut size).length) :
    (data.copyOut size)[i] =
      data ⟨i, by rw [copyOut, List.length_take, List.length_ofFn] at h; omega⟩ := by
  simp only [copyOut, List.getElem_take, List.getElem_ofFn]

/-- The bytes that `copyIn` and `clear` leave at the start of a page. -/
theorem copyOut_copyIn_clear (data : PageData) (buffer : List UInt8) (zeroBytes : Nat)
    (h : buffer.length ≤ 4096) :
    ((data.copyIn buffer).clear buffer.length zeroBytes).copyOut buffer.length = buffer := by
  apply List.ext_getElem (length_copyOut _ h)
  intro i hi hb
  rw [getElem_copyOut]
  simp [clear, copyIn, hb]

end PageData

/-! ### Mapping a page -/

theorem Pagedir.getPage_eq (pd : Pagedir) (u : Nat) : pd.getPage u =
    if pd.pde (pdNo u) = true ∧ (pd.pte (pgRoundDown u)).present = true then
      some (pd.pte (pgRoundDown u)).page else none := by
  rw [getPage, lookupPage]
  cases pd.pde (pdNo u) <;> simp

theorem Pagedir.setPage_getPage {pd pd' : Pagedir} {freePages kernelPages upage kpage : Nat}
    {writable : Bool}
    (h : pd.setPage freePages upage kpage writable = .ok (some (kernelPages, pd'))) :
    pd'.getPage upage = some kpage := by
  simp only [setPage] at h
  split at h
  · cases h
  rename_i halign
  have hround := pgRoundDown_of_aligned (not_not.mp halign)
  split at h
  · cases h
  split at h
  · rename_i hpde
    split at h
    · cases h
    · cases h
      simp [getPage, lookupPage, hpde, hround]
  · split at h
    · cases h
    · cases h
      simp [getPage, lookupPage, hround]

variable {cur p : Nat} {s s' : Vm}

/-- A page table is all that `pagedir_set_page` may lack; else it changes only the page directory. -/
theorem pagedirSetPage_ok {upage kpage : Nat} {writable b : Bool}
    (h : pagedirSetPage cur upage kpage writable s = .ok (b, s')) :
    (b = false ∧ s' = s) ∨ b = true ∧ ∃ kernelPages pd,
      (s.process cur).pagedir.setPage s.kernelPages upage kpage writable =
        .ok (some (kernelPages, pd)) ∧
      s' = Vm.setPagedir { s with kernelPages } cur pd := by
  rw [pagedirSetPage, Routine.get_bind_apply] at h
  obtain ⟨r, s1, hset, h⟩ := Routine.bind_ok.mp h
  have hset1 := Routine.lift_ok hset
  obtain rfl := Routine.lift_state hset
  cases r with
  | none =>
    cases h
    exact .inl ⟨rfl, rfl⟩
  | some r =>
    cases h
    exact .inr ⟨rfl, r.1, r.2, hset1, rfl⟩

/-! ### A page from its file -/

/-- What `pt_suppl_page_in` makes of a page with the contents `old` when it reads a file. -/
def Vm.readPage (s : Vm) (inf : PtSupplFileInfo) (old : PageData) : PageData :=
  (old.copyIn (fileRead s inf.file inf.offset inf.readBytes)).clear inf.readBytes inf.zeroBytes

theorem ptSupplReadIn_contents {e : PtSupplEntry} {inf : PtSupplFileInfo} {frm : Nat}
    (h : ptSupplReadIn p frm e inf s = .ok (true, s')) :
    (s'.process p).pagedir.getPage e.vaddr = some frm ∧
      s'.memory = Function.update s.memory frm (s.readPage inf (s.memory frm)) ∧
      s'.file = s.file := by
  rw [ptSupplReadIn] at h
  obtain ⟨read, s1, hread, h⟩ := Routine.bind_ok.mp h
  obtain ⟨pgdir, s2, hset, hfinish⟩ := Routine.bind_ok.mp h
  cases hread
  rcases ptSupplFinish_ok hfinish with ⟨rfl, -, hloaded⟩ | ⟨-, hb, -⟩
  · cases hloaded
    split at hset
    · rcases pagedirSetPage_ok hset with ⟨hb, -⟩ | ⟨-, kernelPages, pd, hpd, rfl⟩
      · cases hb
      · refine ⟨?_, rfl, rfl⟩
        simpa using Pagedir.setPage_getPage hpd
    · cases hset
  · cases hb

/-! ### A page from swap -/

theorem sectorByte_lt (j : Fin 4096) : j.val % 512 < 512 := Nat.mod_lt _ (by decide)

/-- The page that fills slot `slot` of the swap device. -/
def swapPage (device : Block) (slot : Nat) : PageData := fun j =>
  device.data (slot * sectorsPerPage + j.val / 512) ⟨j.val % 512, sectorByte_lt j⟩

/-- What the loop of `swap_in` makes of a page with the contents `old`. -/
def readSectors (device : Block) (slot : Nat) (old : PageData) (iters : List Nat) : PageData :=
  iters.foldl (fun data iter => data.setSector iter (device.data (slot * sectorsPerPage + iter))) old

theorem readSectors_apply (device : Block) (slot : Nat) (old : PageData) (iters : List Nat)
    (j : Fin 4096) : readSectors device slot old iters j =
      if j.val / 512 ∈ iters then swapPage device slot j else old j := by
  induction iters generalizing old with
  | nil => simp [readSectors]
  | cons iter iters ih =>
    have hstep := ih (old.setSector iter (device.data (slot * sectorsPerPage + iter)))
    rw [readSectors, List.foldl_cons]
    rw [readSectors] at hstep
    rw [hstep]
    by_cases hin : j.val / 512 ∈ iters
    · rw [if_pos hin, if_pos (List.mem_cons_of_mem _ hin)]
    · rw [if_neg hin]
      by_cases hiter : j.val / 512 = iter
      · subst hiter
        simp [PageData.setSector, swapPage]
      · rw [if_neg (by simp [hin, hiter])]
        simp [PageData.setSector, hiter]

/-- The eight sectors of a slot fill the page. -/
theorem readSectors_all (device : Block) (slot : Nat) (old : PageData) :
    readSectors device slot old (List.range sectorsPerPage) = swapPage device slot := by
  funext j
  rw [readSectors_apply, if_pos]
  rw [List.mem_range, sectorsPerPage]
  omega

theorem Pagedir.touch_getPage (pd : Pagedir) (v u : Nat) (write : Bool) :
    (pd.touch v write).getPage u = pd.getPage u := by
  unfold touch modifyPte
  split
  · rw [getPage_eq, getPage_eq]
    by_cases hu : pgRoundDown u = pgRoundDown v
    · simp [hu]
    · simp [Function.update_of_ne hu]
  · rfl

theorem swapInLoop_contents {slot vaddr page : Nat} {iters : List Nat}
    (hpage : (s.process cur).pagedir.getPage vaddr = some page)
    (h : swapInLoop cur slot vaddr iters s = .ok ((), s')) :
    (s'.process cur).pagedir.getPage vaddr = some page ∧
      s'.memory = Function.update s.memory page
        (readSectors s.swapDevice slot (s.memory page) iters) ∧
      s'.swapDevice = s.swapDevice ∧ s'.file = s.file ∧ s'.swapBm = s.swapBm := by
  induction iters generalizing s with
  | nil =>
    cases h
    exact ⟨hpage, (Function.update_eq_self _ _).symm, rfl, rfl, rfl⟩
  | cons iter iters ih =>
    rw [swapInLoop, List.forM_eq_forM, List.forM_cons] at h
    obtain ⟨u, s1, h1, h⟩ := Routine.bind_ok.mp h
    rw [Routine.get_bind_apply] at h1
    obtain ⟨data, s2, h2, h1⟩ := Routine.bind_ok.mp h1
    have hread := Routine.lift_ok h2
    obtain rfl := Routine.lift_state h2
    rw [hpage] at h1
    cases h1
    have hdata : data = s2.swapDevice.data (slot * sectorsPerPage + iter) := by
      by_cases hlt : slot * sectorsPerPage + iter < s2.swapDevice.size
      · rw [Block.blockRead_of_lt hlt] at hread
        cases hread
        rfl
      · simp [Block.blockRead, Block.checkSector, Nat.le_of_not_lt hlt, bind, Except.bind, throw,
          throwThe, MonadExceptOf.throw] at hread
    obtain ⟨hmapped, hmemory, hdevice, hfile, hbm⟩ := ih (by
      simpa [Vm.setMemory, Pagedir.touch_getPage] using hpage) h
    refine ⟨hmapped, ?_, hdevice, hfile, hbm⟩
    rw [hmemory, hdata]
    simp [Vm.setMemory, Vm.setPagedir, Vm.setProcess, readSectors]

/-- `swap_in` fills the page with the slot, whatever was in it. -/
theorem swapIn_contents {slot vaddr page : Nat}
    (hpage : (s.process cur).pagedir.getPage vaddr = some page)
    (h : swapIn cur slot vaddr s = .ok ((), s')) :
    (s'.process cur).pagedir.getPage vaddr = some page ∧
      s'.memory = Function.update s.memory page (swapPage s.swapDevice slot) ∧
      s'.file = s.file := by
  rw [swapIn] at h
  obtain ⟨u, s1, hloop, h⟩ := Routine.bind_ok.mp h
  cases h
  obtain ⟨hmapped, hmemory, -, hfile, -⟩ := swapInLoop_contents hpage hloop
  rw [readSectors_all] at hmemory
  exact ⟨hmapped, hmemory, hfile⟩

theorem ptSupplSwapIn_contents {e : PtSupplEntry} {frm : Nat}
    (h : ptSupplSwapIn p frm e s = .ok (true, s')) :
    (s'.process p).pagedir.getPage e.vaddr = some frm ∧
      s'.memory = Function.update s.memory frm (swapPage s.swapDevice e.swapSlot) ∧
      s'.file = s.file := by
  rw [ptSupplSwapIn] at h
  obtain ⟨pgdir, s1, hset, hrest⟩ := Routine.bind_ok.mp h
  rcases pagedirSetPage_ok hset with ⟨rfl, rfl⟩ | ⟨rfl, kernelPages, pd, hpd, rfl⟩
  · replace hrest : ptSupplFinish p frm e false s1 = .ok (true, s') := hrest
    obtain ⟨u, s2, hfree, hend⟩ := Routine.bind_ok.mp hrest
    cases hend
  · obtain ⟨u, s2, hin, hfinish⟩ := Routine.bind_ok.mp hrest
    replace hfinish : ptSupplFinish p frm e true s2 = .ok (true, s') := hfinish
    obtain ⟨u', s3, hloaded, hend⟩ := Routine.bind_ok.mp hfinish
    cases hend
    cases hloaded
    obtain ⟨hmapped, hmemory, hfile⟩ := swapIn_contents
      (by simpa using Pagedir.setPage_getPage hpd) hin
    refine ⟨?_, hmemory, hfile⟩
    simpa using hmapped

end Pintos
