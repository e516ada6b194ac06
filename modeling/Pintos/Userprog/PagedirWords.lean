import Mathlib.Logic.Function.Basic
import Pintos.Vm.Pagedir

/-! Page directories and page tables as words in memory (`userprog/pagedir.c`, `threads/pte.h`,
`threads/vaddr.h`): the split of a virtual address into two indexes and an offset, the entries with
their flag bits, and the kernel addresses of physical memory.  Memory is read and written in words;
`palloc` is the page that `palloc_get_page (PAL_ZERO)` returns if it is called. -/

namespace Pintos

abbrev Word := BitVec 32

namespace PageWords

/-- A routine on the words of memory. -/
abbrev WordRoutine := Routine Fault (Word → Word)

def pgMask : Word := 0x00000fff
def ptMask : Word := 0x003ff000

def pteAddr : Word := 0xfffff000
def pteP : Word := 0x1
def pteW : Word := 0x2
def pteU : Word := 0x4
def pteA : Word := 0x20
def pteD : Word := 0x40

/-- `PHYS_BASE`. -/
def physBase : Word := 0xc0000000

def pgOfs (va : Word) : Word := va &&& pgMask

def ptNo (va : Word) : Word := (va &&& ptMask) >>> 12

def pdNo (va : Word) : Word := va >>> 22

def isUserVaddr (vaddr : Word) : Bool := vaddr < physBase

def isKernelVaddr (vaddr : Word) : Bool := physBase ≤ vaddr

def ptov (paddr : Word) : Except Fault Word :=
  if paddr < physBase then .ok (paddr + physBase)
  else .error (.assertion "(void *) paddr < PHYS_BASE")

def vtop (vaddr : Word) : Except Fault Word :=
  if isKernelVaddr vaddr then .ok (vaddr - physBase)
  else .error (.assertion "is_kernel_vaddr (vaddr)")

def pdeCreate (pt : Word) : Except Fault Word := do
  if pgOfs pt ≠ 0 then throw (.assertion "pg_ofs (pt) == 0")
  let paddr ← vtop pt
  pure (paddr ||| pteU ||| pteP ||| pteW)

def pdeGetPt (pde : Word) : Except Fault Word :=
  if pde &&& pteP = 0 then .error (.assertion "pde & PTE_P") else ptov (pde &&& pteAddr)

def pteCreateKernel (page : Word) (writable : Bool) : Except Fault Word := do
  if pgOfs page ≠ 0 then throw (.assertion "pg_ofs (page) == 0")
  let paddr ← vtop page
  pure (paddr ||| pteP ||| if writable then pteW else 0)

def pteCreateUser (page : Word) (writable : Bool) : Except Fault Word := do
  let pte ← pteCreateKernel page writable
  pure (pte ||| pteU)

def pteGetPage (pte : Word) : Except Fault Word := ptov (pte &&& pteAddr)

/-- Memory with the page at `page` cleared. -/
def zeroPage (mem : Word → Word) (page : Word) : Word → Word := fun addr =>
  if page.toNat ≤ addr.toNat ∧ addr.toNat < page.toNat + pgSize then 0 else mem addr

/-- The address of entry `i` of the directory or table at `pt`. -/
def entryAddr (pt i : Word) : Word := pt + 4 * i

/-- The end of `lookup_page`: the address of the entry for `vaddr` in the page table of `pde`. -/
def tableEntry (pde vaddr : Word) : WordRoutine Word := do
  let mem ← get
  let pt ← pdeGetPt (mem pde)
  pure (entryAddr pt (ptNo vaddr))

/-- `lookup_page`, with `none` for a null pointer. -/
def lookupPage (pd vaddr : Word) (create : Bool) (palloc : Option Word) :
    WordRoutine (Option Word) := do
  if pd = 0 then throw (.assertion "pd != NULL")
  if create && !isUserVaddr vaddr then throw (.assertion "!create || is_user_vaddr (vaddr)")
  let pde := entryAddr pd (pdNo vaddr)
  let mem ← get
  if mem pde ≠ 0 then some <$> tableEntry pde vaddr
  else if create then
    match palloc with
    | none => pure none
    | some pt =>
      let entry ← pdeCreate pt
      set (Function.update (zeroPage mem pt) pde entry)
      some <$> tableEntry pde vaddr
  else pure none

/-- What `pagedir_set_page` does once its arguments are checked. -/
def setEntry (pd upage kpage : Word) (writable : Bool) (palloc : Option Word) :
    WordRoutine Bool := do
  match ← lookupPage pd upage true palloc with
  | none => pure false
  | some pte =>
    let mem ← get
    if mem pte &&& pteP ≠ 0 then throw (.assertion "(*pte & PTE_P) == 0")
    let word ← pteCreateUser kpage writable
    set (Function.update mem pte word)
    pure true

def pagedirSetPage (initRamPages initPageDir pd upage kpage : Word) (writable : Bool)
    (palloc : Option Word) : WordRoutine Bool := do
  if pgOfs upage ≠ 0 then throw (.assertion "pg_ofs (upage) == 0")
  if pgOfs kpage ≠ 0 then throw (.assertion "pg_ofs (kpage) == 0")
  if !isUserVaddr upage then throw (.assertion "is_user_vaddr (upage)")
  let paddr ← vtop kpage
  if initRamPages ≤ paddr >>> 12 then
    throw (.assertion "vtop (kpage) >> PTSHIFT < init_ram_pages")
  if pd = initPageDir then throw (.assertion "pd != init_page_dir")
  setEntry pd upage kpage writable palloc

/-- `pagedir_get_page`, with `none` for a null pointer. -/
def pagedirGetPage (pd uaddr : Word) : WordRoutine (Option Word) := do
  if !isUserVaddr uaddr then throw (.assertion "is_user_vaddr (uaddr)")
  match ← lookupPage pd uaddr false none with
  | none => pure none
  | some pte =>
    let mem ← get
    if mem pte &&& pteP = 0 then pure none
    else
      let page ← pteGetPage (mem pte)
      pure (some (page + pgOfs uaddr))

/-- A change of the entry that `lookup_page` finds. -/
def changeEntry (pd vpage : Word) (change : Word → Word) : WordRoutine Unit := do
  match ← lookupPage pd vpage false none with
  | none => pure ()
  | some pte => modify fun mem => Function.update mem pte (change (mem pte))

/-- `pagedir_clear_page`; the translations that the processor has cached are no part of memory. -/
def pagedirClearPage (pd upage : Word) : WordRoutine Unit := do
  if pgOfs upage ≠ 0 then throw (.assertion "pg_ofs (upage) == 0")
  if !isUserVaddr upage then throw (.assertion "is_user_vaddr (upage)")
  changeEntry pd upage fun pte => if pte &&& pteP = 0 then pte else pte &&& ~~~pteP

/-- The value of a flag in the entry that `lookup_page` finds. -/
def readFlag (pd vpage flag : Word) : WordRoutine Bool := do
  match ← lookupPage pd vpage false none with
  | none => pure false
  | some pte =>
    let mem ← get
    pure (mem pte &&& flag ≠ 0)

def pagedirIsDirty (pd vpage : Word) : WordRoutine Bool := readFlag pd vpage pteD

def pagedirIsWritable (pd vpage : Word) : WordRoutine Bool := readFlag pd vpage pteW

def pagedirIsAccessed (pd vpage : Word) : WordRoutine Bool := readFlag pd vpage pteA

def pagedirSetDirty (pd vpage : Word) (dirty : Bool) : WordRoutine Unit :=
  changeEntry pd vpage fun pte => if dirty then pte ||| pteD else pte &&& ~~~pteD

def pagedirSetAccessed (pd vpage : Word) (accessed : Bool) : WordRoutine Unit :=
  changeEntry pd vpage fun pte => if accessed then pte ||| pteA else pte &&& ~~~pteA

/-! ### Addresses -/

theorem physBase_toNat : physBase.toNat = Pintos.physBase := rfl

theorem isUserVaddr_iff (va : Word) : isUserVaddr va = true ↔ va.toNat < Pintos.physBase := by
  rw [isUserVaddr, decide_eq_true_eq, BitVec.lt_def, physBase_toNat]

theorem isKernelVaddr_iff (va : Word) : isKernelVaddr va = true ↔ Pintos.physBase ≤ va.toNat := by
  rw [isKernelVaddr, decide_eq_true_eq, BitVec.le_def, physBase_toNat]

theorem pgOfs_toNat (va : Word) : (pgOfs va).toNat = va.toNat % pgSize := by
  rw [pgOfs, BitVec.toNat_and]
  exact Nat.and_two_pow_sub_one_eq_mod va.toNat 12

theorem pdNo_toNat (va : Word) : (pdNo va).toNat = Pagedir.pdNo va.toNat := by
  rw [pdNo, BitVec.toNat_ushiftRight, Nat.shiftRight_eq_div_pow]
  rfl

theorem ptNo_toNat (va : Word) : (ptNo va).toNat = va.toNat / pgSize % 1024 := by
  rw [ptNo, BitVec.toNat_ushiftRight, BitVec.toNat_and, Nat.shiftRight_and_distrib,
    Nat.shiftRight_eq_div_pow]
  exact Nat.and_two_pow_sub_one_eq_mod _ 10

theorem pgOfs_eq_zero_iff (va : Word) : pgOfs va = 0 ↔ va.toNat % pgSize = 0 := by
  rw [← pgOfs_toNat]
  constructor
  · intro h
    rw [h]
    rfl
  · intro h
    exact BitVec.eq_of_toNat_eq h

theorem entryAddr_toNat {pt i : Word} (hpt : pt.toNat % pgSize = 0) (hi : i.toNat < 1024) :
    (entryAddr pt i).toNat = pt.toNat + 4 * i.toNat := by
  have hlt := pt.isLt
  simp only [pgSize] at hpt
  rw [entryAddr, BitVec.toNat_add, BitVec.toNat_mul]
  show (pt.toNat + 4 * i.toNat % 2 ^ 32) % 2 ^ 32 = _
  omega

/-- The entries of different tables are apart. -/
theorem entryAddr_inj {pt pt' i i' : Word} (hpt : pt.toNat % pgSize = 0)
    (hpt' : pt'.toNat % pgSize = 0) (hi : i.toNat < 1024) (hi' : i'.toNat < 1024)
    (h : entryAddr pt i = entryAddr pt' i') : pt = pt' ∧ i = i' := by
  have hnat := congrArg BitVec.toNat h
  rw [entryAddr_toNat hpt hi, entryAddr_toNat hpt' hi'] at hnat
  simp only [pgSize] at hpt hpt'
  constructor
  · exact BitVec.eq_of_toNat_eq (by omega)
  · exact BitVec.eq_of_toNat_eq (by omega)

theorem pdNo_lt {va : Word} (hva : isUserVaddr va) : (pdNo va).toNat < 768 := by
  have hlt := (isUserVaddr_iff va).mp hva
  rw [pdNo_toNat, Pagedir.pdNo]
  simp only [Pintos.physBase] at hlt
  omega

theorem ptNo_lt (va : Word) : (ptNo va).toNat < 1024 := by
  rw [ptNo_toNat]
  exact Nat.mod_lt _ (by decide)

/-! ### Entries -/

/-- The page table entry in a word. -/
def pteOf (word : Word) : Pte where
  page := (word &&& pteAddr).toNat / pgSize
  present := word &&& pteP ≠ 0
  writable := word &&& pteW ≠ 0
  accessed := word &&& pteA ≠ 0
  dirty := word &&& pteD ≠ 0

theorem pteOf_zero : pteOf 0 = Pagedir.zeroPte := rfl

theorem or_and_of_disjoint {word flag mask : Word} (h : flag &&& mask = 0) :
    (word ||| flag) &&& mask = word &&& mask := by
  rw [BitVec.and_or_distrib_right, h]
  simp

theorem or_and_self {word flag : Word} (h : flag ≠ 0) : (word ||| flag) &&& flag ≠ 0 := by
  rw [BitVec.and_or_distrib_right, BitVec.and_self]
  intro hzero
  exact h (BitVec.or_eq_zero_iff.mp hzero).2

theorem and_not_of_disjoint {word flag mask : Word} (h : ~~~flag &&& mask = mask) :
    word &&& ~~~flag &&& mask = word &&& mask := by
  rw [BitVec.and_assoc, h]

theorem and_not_and_self (word flag : Word) : word &&& ~~~flag &&& flag = 0 := by
  rw [BitVec.and_assoc]
  simp

theorem pteOf_clearP (word : Word) :
    pteOf (if word &&& pteP = 0 then word else word &&& ~~~pteP) =
      { pteOf word with present := false } := by
  split
  · next h => simp [pteOf, h]
  · rw [pteOf, and_not_of_disjoint (show ~~~pteP &&& pteAddr = pteAddr by decide), and_not_and_self,
      and_not_of_disjoint (show ~~~pteP &&& pteW = pteW by decide),
      and_not_of_disjoint (show ~~~pteP &&& pteA = pteA by decide),
      and_not_of_disjoint (show ~~~pteP &&& pteD = pteD by decide)]
    rfl

theorem pteOf_setD (word : Word) (dirty : Bool) :
    pteOf (if dirty then word ||| pteD else word &&& ~~~pteD) = { pteOf word with dirty } := by
  cases dirty with
  | true =>
    have hself : (word ||| pteD) &&& pteD ≠ 0 := or_and_self (by decide)
    simp only [pteOf, if_true, or_and_of_disjoint (show pteD &&& pteAddr = 0 by decide),
      or_and_of_disjoint (show pteD &&& pteP = 0 by decide),
      or_and_of_disjoint (show pteD &&& pteW = 0 by decide),
      or_and_of_disjoint (show pteD &&& pteA = 0 by decide), hself, ne_eq, not_false_eq_true,
      decide_true]
  | false =>
    simp only [pteOf, Bool.false_eq_true, if_false,
      and_not_of_disjoint (show ~~~pteD &&& pteAddr = pteAddr by decide),
      and_not_of_disjoint (show ~~~pteD &&& pteP = pteP by decide),
      and_not_of_disjoint (show ~~~pteD &&& pteW = pteW by decide),
      and_not_of_disjoint (show ~~~pteD &&& pteA = pteA by decide), and_not_and_self, ne_eq,
      not_true_eq_false, decide_false]

theorem pteOf_setA (word : Word) (accessed : Bool) :
    pteOf (if accessed then word ||| pteA else word &&& ~~~pteA) =
      { pteOf word with accessed } := by
  cases accessed with
  | true =>
    have hself : (word ||| pteA) &&& pteA ≠ 0 := or_and_self (by decide)
    simp only [pteOf, if_true, or_and_of_disjoint (show pteA &&& pteAddr = 0 by decide),
      or_and_of_disjoint (show pteA &&& pteP = 0 by decide),
      or_and_of_disjoint (show pteA &&& pteW = 0 by decide),
      or_and_of_disjoint (show pteA &&& pteD = 0 by decide), hself, ne_eq, not_false_eq_true,
      decide_true]
  | false =>
    simp only [pteOf, Bool.false_eq_true, if_false,
      and_not_of_disjoint (show ~~~pteA &&& pteAddr = pteAddr by decide),
      and_not_of_disjoint (show ~~~pteA &&& pteP = pteP by decide),
      and_not_of_disjoint (show ~~~pteA &&& pteW = pteW by decide),
      and_not_of_disjoint (show ~~~pteA &&& pteD = pteD by decide), and_not_and_self, ne_eq,
      not_true_eq_false, decide_false]

/-- The address bits of a word. -/
theorem and_pteAddr_toNat (word : Word) :
    (word &&& pteAddr).toNat = word.toNat / pgSize * pgSize := by
  have hbits : ∀ i < 32, pteAddr.getLsbD i = decide (12 ≤ i) := by decide
  have hshift : word &&& pteAddr = word >>> 12 <<< 12 := by
    refine BitVec.eq_of_getLsbD_eq fun i hi => ?_
    rw [BitVec.getLsbD_and, hbits i hi, BitVec.getLsbD_shiftLeft, BitVec.getLsbD_ushiftRight]
    by_cases hlow : i < 12
    · simp [hlow, Nat.not_le.mpr hlow]
    · rw [Nat.add_sub_of_le (Nat.not_lt.mp hlow)]
      simp [hlow, Nat.not_lt.mp hlow, hi]
  have hlt := word.isLt
  rw [hshift, BitVec.toNat_shiftLeft, BitVec.toNat_ushiftRight, Nat.shiftRight_eq_div_pow,
    Nat.shiftLeft_eq]
  simp only [pgSize]
  omega

/-- The kernel address of a frame of physical memory. -/
def kernelPage (frame : Nat) : Word := BitVec.ofNat 32 (Pintos.physBase + frame * pgSize)

/-- The frame at a kernel address. -/
def frameOf (kpage : Word) : Nat := (kpage.toNat - Pintos.physBase) / pgSize

/-- Physical memory ends where its kernel addresses do. -/
def maxFrames : Nat := 2 ^ 18

/-- A page of the kernel's map of physical memory. -/
structure IsKernelPage (page : Word) : Prop where
  aligned : page.toNat % pgSize = 0
  kernel : Pintos.physBase ≤ page.toNat

theorem IsKernelPage.vtop {page : Word} (h : IsKernelPage page) :
    PageWords.vtop page = .ok (page - physBase) ∧ (page - physBase).toNat = frameOf page * pgSize ∧
      frameOf page < maxFrames := by
  have hlt := page.isLt
  have haligned := h.aligned
  have hkernel := h.kernel
  refine ⟨by rw [PageWords.vtop, if_pos ((isKernelVaddr_iff page).mpr h.kernel)], ?_, ?_⟩
  · rw [BitVec.toNat_sub_of_le (by rw [BitVec.le_def]; exact h.kernel), physBase_toNat]
    simp only [frameOf, pgSize, Pintos.physBase] at *
    omega
  · simp only [frameOf, maxFrames, pgSize, Pintos.physBase] at *
    omega

theorem IsKernelPage.kernelPage_frameOf {page : Word} (h : IsKernelPage page) :
    kernelPage (frameOf page) = page := by
  have hlt := page.isLt
  have haligned := h.aligned
  have hkernel := h.kernel
  refine BitVec.eq_of_toNat_eq ?_
  rw [kernelPage, BitVec.toNat_ofNat]
  simp only [frameOf, pgSize, Pintos.physBase] at *
  omega

/-- `pte_get_page` of an entry for a frame of physical memory. -/
theorem pteGetPage_eq {word : Word} (h : (pteOf word).page < maxFrames) :
    pteGetPage word = .ok (kernelPage (pteOf word).page) := by
  have haddr := and_pteAddr_toNat word
  have hpage : (word &&& pteAddr).toNat = (pteOf word).page * pgSize := by
    rw [pteOf, haddr, Nat.mul_div_cancel _ (by decide)]
  have hlt : word &&& pteAddr < physBase := by
    rw [BitVec.lt_def, physBase_toNat, hpage]
    simp only [maxFrames, pgSize, Pintos.physBase] at *
    omega
  rw [pteGetPage, ptov, if_pos hlt]
  refine congrArg Except.ok (BitVec.eq_of_toNat_eq ?_)
  rw [BitVec.toNat_add, hpage, physBase_toNat, kernelPage, BitVec.toNat_ofNat, Nat.add_comm]

/-- The entry in a word made of a page-aligned address and flags. -/
theorem pteOf_or {paddr flags : Word} (hpaddr : pgOfs paddr = 0) (hflags : flags &&& pteAddr = 0) :
    pteOf (paddr ||| flags) = { pteOf flags with page := paddr.toNat / pgSize } := by
  have hflag : ∀ flag, pgMask &&& flag = flag → (paddr ||| flags) &&& flag = flags &&& flag := by
    intro flag hlow
    have hnone : paddr &&& flag = 0 := by
      rw [← hlow, ← BitVec.and_assoc]
      show pgOfs paddr &&& flag = 0
      rw [hpaddr]
      simp
    rw [BitVec.and_or_distrib_right, hnone]
    simp
  have haddr := and_pteAddr_toNat paddr
  have hmod := (pgOfs_eq_zero_iff paddr).mp hpaddr
  rw [pteOf, pteOf, or_and_of_disjoint hflags, hflag pteP (by decide), hflag pteW (by decide),
    hflag pteA (by decide), hflag pteD (by decide), haddr, Nat.mul_div_cancel _ (by decide)]

theorem IsKernelPage.pgOfs_vtop {page : Word} (h : IsKernelPage page) :
    pgOfs (page - physBase) = 0 := by
  rw [pgOfs_eq_zero_iff, h.vtop.2.1]
  exact Nat.mul_mod_left _ _

/-- The entry that `pte_create_user` makes. -/
theorem pteCreateUser_eq {kpage : Word} (h : IsKernelPage kpage) (writable : Bool) :
    ∃ word, pteCreateUser kpage writable = .ok word ∧
      pteOf word = ⟨frameOf kpage, true, writable, false, false⟩ := by
  have hofs : pgOfs kpage = 0 := (pgOfs_eq_zero_iff kpage).mpr h.aligned
  obtain ⟨hvtop, hnat, -⟩ := h.vtop
  have hframe : (kpage - physBase).toNat / pgSize = frameOf kpage := by
    rw [hnat, Nat.mul_div_cancel _ (by decide)]
  refine ⟨(kpage - physBase) ||| (pteP ||| (if writable then pteW else 0) ||| pteU), ?_, ?_⟩
  · rw [pteCreateUser, pteCreateKernel, if_neg (not_not_intro hofs), hvtop]
    show Except.ok ((kpage - physBase ||| pteP ||| _) ||| pteU) = _
    simp only [BitVec.or_assoc]
  · rw [pteOf_or h.pgOfs_vtop (by cases writable <;> decide), hframe]
    cases writable <;> rfl

/-- The entry that `pde_create` makes leads to the page table. -/
theorem pdeCreate_eq {pt : Word} (h : IsKernelPage pt) :
    ∃ word, pdeCreate pt = .ok word ∧ word ≠ 0 ∧ pdeGetPt word = .ok pt := by
  have hofs : pgOfs pt = 0 := (pgOfs_eq_zero_iff pt).mpr h.aligned
  obtain ⟨hvtop, hnat, hlt⟩ := h.vtop
  have hpte := @pteOf_or (pt - physBase) (pteU ||| pteP ||| pteW) h.pgOfs_vtop (by decide)
  have hpresent : ((pt - physBase) ||| (pteU ||| pteP ||| pteW)) &&& pteP ≠ 0 :=
    of_decide_eq_true ((congrArg Pte.present hpte).trans rfl)
  refine ⟨(pt - physBase) ||| (pteU ||| pteP ||| pteW), ?_, ?_, ?_⟩
  · rw [pdeCreate, if_neg (not_not_intro hofs), hvtop]
    show Except.ok (pt - physBase ||| pteU ||| pteP ||| pteW) = _
    simp only [BitVec.or_assoc]
  · intro hzero
    rw [hzero] at hpresent
    exact hpresent (by decide)
  · have hpage : (pteOf ((pt - physBase) ||| (pteU ||| pteP ||| pteW))).page = frameOf pt := by
      rw [hpte]
      show (pt - physBase).toNat / pgSize = _
      rw [hnat, Nat.mul_div_cancel _ (by decide)]
    have hget := pteGetPage_eq (hpage ▸ hlt)
    rw [hpage, h.kernelPage_frameOf] at hget
    rw [pdeGetPt, if_neg hpresent]
    exact hget

end PageWords

end Pintos
