import Pintos.Userprog.PagedirWords
import Pintos.Vm.Isolation
import Pintos.Vm.ValidAddress

/-! The words of a page directory and its page tables represent a `Pagedir`: no two entries share an
address, so an operation on the words changes the entry of its own page alone.  Over any sequence of
operations, a page directory is a map from pages to frames and flags. -/

namespace Pintos

namespace PageWords

variable {initRamPages initPageDir pd : Word} {mem mem' : Word → Word} {table : Nat → Word}
  {A A' : Pagedir}

/-- The words in `mem` represent `A`, where `table` tells where the page tables are. -/
structure Rep (pd : Word) (table : Nat → Word) (mem : Word → Word) (A : Pagedir) : Prop where
  directory : IsKernelPage pd
  absent : ∀ va, isUserVaddr va → A.pde (Pagedir.pdNo va.toNat) = false →
    mem (entryAddr pd (pdNo va)) = 0
  present : ∀ va, isUserVaddr va → A.pde (Pagedir.pdNo va.toNat) →
    mem (entryAddr pd (pdNo va)) ≠ 0 ∧
    pdeGetPt (mem (entryAddr pd (pdNo va))) = .ok (table (Pagedir.pdNo va.toNat))
  page : ∀ va, isUserVaddr va → A.pde (Pagedir.pdNo va.toNat) →
    IsKernelPage (table (Pagedir.pdNo va.toNat)) ∧ table (Pagedir.pdNo va.toNat) ≠ pd
  distinct : ∀ u v, isUserVaddr u → isUserVaddr v → A.pde (Pagedir.pdNo u.toNat) →
    A.pde (Pagedir.pdNo v.toNat) →
    table (Pagedir.pdNo u.toNat) = table (Pagedir.pdNo v.toNat) → pdNo u = pdNo v
  entry : ∀ va, isUserVaddr va → A.pde (Pagedir.pdNo va.toNat) →
    A.pte (pgRoundDown va.toNat) = pteOf (mem (entryAddr (table (Pagedir.pdNo va.toNat)) (ptNo va)))
  frames : ∀ va, isUserVaddr va → A.pde (Pagedir.pdNo va.toNat) →
    (A.pte (pgRoundDown va.toNat)).page < maxFrames

/-- Two addresses are in one page if both of their indexes are the same. -/
theorem pgRoundDown_eq_iff (u v : Word) :
    pgRoundDown u.toNat = pgRoundDown v.toNat ↔ pdNo u = pdNo v ∧ ptNo u = ptNo v := by
  have hpd := pdNo_toNat u
  have hpd' := pdNo_toNat v
  have hpt := ptNo_toNat u
  have hpt' := ptNo_toNat v
  rw [← BitVec.toNat_inj, ← BitVec.toNat_inj, hpd, hpd', hpt, hpt']
  simp only [pgRoundDown, Pagedir.pdNo, pgSize]
  omega

theorem IsKernelPage.ne_zero {page : Word} (h : IsKernelPage page) : page ≠ 0 := by
  intro hzero
  have hkernel := h.kernel
  rw [hzero] at hkernel
  exact absurd hkernel (by decide)

theorem Rep.lookup_absent (h : Rep pd table mem A) {va : Word} (hva : isUserVaddr va)
    (hpde : A.pde (Pagedir.pdNo va.toNat) = false) (palloc : Option Word) :
    lookupPage pd va false palloc mem = .ok (none, mem) := by
  have hzero := h.absent va hva hpde
  rw [lookupPage, if_neg h.directory.ne_zero]
  simp only [Bool.false_and, Bool.false_eq_true, if_false, Routine.get_bind_apply]
  rw [if_neg (not_not_intro hzero)]
  rfl

theorem Rep.lookup_present (h : Rep pd table mem A) {va : Word} (hva : isUserVaddr va)
    (hpde : A.pde (Pagedir.pdNo va.toNat)) (create : Bool) (palloc : Option Word) :
    lookupPage pd va create palloc mem =
      .ok (some (entryAddr (table (Pagedir.pdNo va.toNat)) (ptNo va)), mem) := by
  obtain ⟨hne, hpt⟩ := h.present va hva hpde
  have huser : (create && !isUserVaddr va) = false := by simp [hva]
  rw [lookupPage, if_neg h.directory.ne_zero]
  simp only [huser, Bool.false_eq_true, if_false, Routine.get_bind_apply]
  rw [if_pos hne, Routine.map_apply, tableEntry, Routine.get_bind_apply, hpt]
  rfl

/-- No entry of a page table is in the directory. -/
theorem Rep.directory_ne (h : Rep pd table mem A) {u va : Word} (hu : isUserVaddr u)
    (hva : isUserVaddr va) (hpde : A.pde (Pagedir.pdNo va.toNat)) :
    entryAddr pd (pdNo u) ≠ entryAddr (table (Pagedir.pdNo va.toNat)) (ptNo va) := by
  intro hsame
  obtain ⟨hpage, hne⟩ := h.page va hva hpde
  have hu' : (pdNo u).toNat < 1024 := Nat.lt_trans (pdNo_lt hu) (by decide)
  exact hne (entryAddr_inj h.directory.aligned hpage.aligned hu' (ptNo_lt va) hsame).1.symm

/-- Two addresses whose entries are in one place are in one page. -/
theorem Rep.entry_inj (h : Rep pd table mem A) {u va : Word} (hu : isUserVaddr u)
    (hva : isUserVaddr va) (hpdeU : A.pde (Pagedir.pdNo u.toNat))
    (hpde : A.pde (Pagedir.pdNo va.toNat))
    (hsame : entryAddr (table (Pagedir.pdNo u.toNat)) (ptNo u) =
      entryAddr (table (Pagedir.pdNo va.toNat)) (ptNo va)) :
    pgRoundDown u.toNat = pgRoundDown va.toNat := by
  obtain ⟨htable, hpt⟩ := entryAddr_inj (h.page u hu hpdeU).1.aligned (h.page va hva hpde).1.aligned
    (ptNo_lt u) (ptNo_lt va) hsame
  exact (pgRoundDown_eq_iff u va).mpr ⟨h.distinct u va hu hva hpdeU hpde htable, hpt⟩

/-- A new word in the entry of a page changes the entry of that page alone. -/
theorem Rep.write (h : Rep pd table mem A) {va word : Word} (hva : isUserVaddr va)
    (hpde : A.pde (Pagedir.pdNo va.toNat)) (hframe : (pteOf word).page < maxFrames) :
    Rep pd table
      (Function.update mem (entryAddr (table (Pagedir.pdNo va.toNat)) (ptNo va)) word)
      (A.modifyPte va.toNat fun _ => pteOf word) := by
  have hA : A.modifyPte va.toNat (fun _ => pteOf word) =
      { A with pte := Function.update A.pte (pgRoundDown va.toNat) (pteOf word) } := by
    rw [Pagedir.modifyPte, if_pos hpde]
  rw [hA]
  refine ⟨h.directory, fun u hu hno => ?_, fun u hu hyes => ?_, h.page, h.distinct,
    fun u hu hyes => ?_, fun u hu hyes => ?_⟩
  · rw [Function.update_of_ne (h.directory_ne hu hva hpde)]
    exact h.absent u hu hno
  · rw [Function.update_of_ne (h.directory_ne hu hva hpde)]
    exact h.present u hu hyes
  · dsimp only
    by_cases hsame : pgRoundDown u.toNat = pgRoundDown va.toNat
    · obtain ⟨hpd, hpt⟩ := (pgRoundDown_eq_iff u va).mp hsame
      have hno : Pagedir.pdNo u.toNat = Pagedir.pdNo va.toNat := by
        rw [← pdNo_toNat, ← pdNo_toNat, hpd]
      rw [hno, hpt, hsame, Function.update_self, Function.update_self]
    · have hne := fun haddr => hsame (h.entry_inj hu hva hyes hpde haddr)
      rw [Function.update_of_ne hsame, Function.update_of_ne hne]
      exact h.entry u hu hyes
  · dsimp only
    by_cases hsame : pgRoundDown u.toNat = pgRoundDown va.toNat
    · rw [hsame, Function.update_self]
      exact hframe
    · rw [Function.update_of_ne hsame]
      exact h.frames u hu hyes

/-- An operation on the entry that `lookup_page` finds, as `modifyPte` does it. -/
theorem Rep.changeEntry (h : Rep pd table mem A) {va : Word} (hva : isUserVaddr va)
    {change : Word → Word} {f : Pte → Pte} (hchange : ∀ word, pteOf (change word) = f (pteOf word))
    (hpage : ∀ pte, (f pte).page = pte.page) : ∃ mem',
      PageWords.changeEntry pd va change mem = .ok ((), mem') ∧
      Rep pd table mem' (A.modifyPte va.toNat f) := by
  cases hpde : A.pde (Pagedir.pdNo va.toNat) with
  | false =>
    refine ⟨mem, ?_, ?_⟩
    · rw [PageWords.changeEntry, Routine.bind_of_ok (h.lookup_absent hva hpde none)]
      rfl
    · rw [Pagedir.modifyPte, if_neg (by simp [hpde])]
      exact h
  | true =>
    let pte := entryAddr (table (Pagedir.pdNo va.toNat)) (ptNo va)
    refine ⟨Function.update mem pte (change (mem pte)), ?_, ?_⟩
    · rw [PageWords.changeEntry, Routine.bind_of_ok (h.lookup_present hva hpde false none)]
      rfl
    · have hword : pteOf (change (mem pte)) = f (A.pte (pgRoundDown va.toNat)) := by
        rw [hchange, h.entry va hva hpde]
      have hframe : (pteOf (change (mem pte))).page < maxFrames := by
        rw [hword, hpage]
        exact h.frames va hva hpde
      have hwrite := h.write hva hpde hframe
      rw [hword] at hwrite
      have hsame : A.modifyPte va.toNat (fun _ => f (A.pte (pgRoundDown va.toNat))) =
          A.modifyPte va.toNat f := by
        simp only [Pagedir.modifyPte]
      rw [hsame] at hwrite
      exact hwrite

/-! ### The queries -/

theorem Rep.getPage (h : Rep pd table mem A) {va : Word} (hva : isUserVaddr va) :
    pagedirGetPage pd va mem =
      .ok ((A.getPage va.toNat).map fun frame => kernelPage frame + pgOfs va, mem) := by
  have huser : (!isUserVaddr va) = false := by simp [hva]
  rw [pagedirGetPage, huser, if_neg Bool.false_ne_true, Pagedir.getPage, Pagedir.lookupPage]
  dsimp only
  cases hpde : A.pde (Pagedir.pdNo va.toNat) with
  | false =>
    rw [Routine.bind_of_ok (h.lookup_absent hva hpde none)]
    rfl
  | true =>
    have hentry := h.entry va hva hpde
    have hframe := h.frames va hva hpde
    rw [Routine.bind_of_ok (h.lookup_present hva hpde false none)]
    simp only [Routine.get_bind_apply, if_true]
    by_cases hpresent : mem (entryAddr (table (Pagedir.pdNo va.toNat)) (ptNo va)) &&& pteP = 0
    · have hno : (A.pte (pgRoundDown va.toNat)).present = false := by
        rw [hentry]
        exact decide_eq_false (not_not_intro hpresent)
      rw [if_pos hpresent, hno]
      rfl
    · have hyes : (A.pte (pgRoundDown va.toNat)).present = true := by
        rw [hentry]
        exact decide_eq_true hpresent
      rw [hentry] at hframe
      rw [if_neg hpresent, hyes, pteGetPage_eq hframe, hentry]
      rfl

theorem Rep.readFlag (h : Rep pd table mem A) {va : Word} (hva : isUserVaddr va) (flag : Word)
    (field : Pte → Bool) (hfield : ∀ word, field (pteOf word) = decide (word &&& flag ≠ 0)) :
    PageWords.readFlag pd va flag mem = .ok ((A.lookupPage va.toNat).any field, mem) := by
  rw [PageWords.readFlag, Pagedir.lookupPage]
  cases hpde : A.pde (Pagedir.pdNo va.toNat) with
  | false =>
    rw [Routine.bind_of_ok (h.lookup_absent hva hpde none)]
    rfl
  | true =>
    rw [Routine.bind_of_ok (h.lookup_present hva hpde false none), if_pos rfl, Option.any_some,
      h.entry va hva hpde, hfield]
    rfl

/-! ### A new page table -/

/-- A page that `palloc_get_page` may return: a page of kernel memory that is neither the directory
nor one of its page tables. -/
structure Fresh (pd : Word) (mem : Word → Word) (pt : Word) : Prop where
  page : IsKernelPage pt
  directory : pt ≠ pd
  tables : ∀ va, isUserVaddr va → pdeGetPt (mem (entryAddr pd (pdNo va))) ≠ .ok pt

theorem zeroPage_other {pt page i : Word} (hpt : pt.toNat % pgSize = 0)
    (hpage : page.toNat % pgSize = 0) (hi : i.toNat < 1024) (hne : page ≠ pt) :
    zeroPage mem pt (entryAddr page i) = mem (entryAddr page i) := by
  have hne' : page.toNat ≠ pt.toNat := fun hsame => hne (BitVec.eq_of_toNat_eq hsame)
  rw [zeroPage, entryAddr_toNat hpage hi, if_neg]
  simp only [pgSize] at *
  omega

theorem zeroPage_self {pt i : Word} (hpt : pt.toNat % pgSize = 0) (hi : i.toNat < 1024) :
    zeroPage mem pt (entryAddr pt i) = 0 := by
  rw [zeroPage, entryAddr_toNat hpt hi, if_pos]
  simp only [pgSize] at *
  omega

theorem pdNo_pgRoundDown (v : Nat) : Pagedir.pdNo (pgRoundDown v) = Pagedir.pdNo v := by
  simp only [Pagedir.pdNo, pgRoundDown, pgSize]
  omega

/-- A page directory with a new page table for `upage`. -/
def addTable (A : Pagedir) (upage : Nat) : Pagedir where
  pde := Function.update A.pde (Pagedir.pdNo upage) true
  pte v := if Pagedir.pdNo v = Pagedir.pdNo upage then Pagedir.zeroPte else A.pte v

theorem addTable_pde_self (A : Pagedir) (upage : Nat) :
    (addTable A upage).pde (Pagedir.pdNo upage) = true := Function.update_self ..

theorem addTable_pde_ne (A : Pagedir) {upage i : Nat} (hi : i ≠ Pagedir.pdNo upage) :
    (addTable A upage).pde i = A.pde i := Function.update_of_ne hi ..

theorem addTable_pte (A : Pagedir) (upage v : Nat) :
    (addTable A upage).pte v =
      if Pagedir.pdNo v = Pagedir.pdNo upage then Pagedir.zeroPte else A.pte v := rfl

theorem Rep.addTable (h : Rep pd table mem A) {upage pt word : Word} (hu : isUserVaddr upage)
    (hfresh : Fresh pd mem pt) (hword : word ≠ 0) (hget : pdeGetPt word = .ok pt) :
    Rep pd (Function.update table (Pagedir.pdNo upage.toNat) pt)
      (Function.update (zeroPage mem pt) (entryAddr pd (pdNo upage)) word)
      (addTable A upage.toNat) := by
  have hlt : ∀ {va}, isUserVaddr va → (pdNo va).toNat < 1024 := fun hva =>
    Nat.lt_trans (pdNo_lt hva) (by decide)
  -- the entries of the directory
  have hdirectory : ∀ va, isUserVaddr va →
      Pagedir.pdNo va.toNat ≠ Pagedir.pdNo upage.toNat →
      Function.update (zeroPage mem pt) (entryAddr pd (pdNo upage)) word (entryAddr pd (pdNo va)) =
        mem (entryAddr pd (pdNo va)) := by
    intro va hva hne
    rw [Function.update_of_ne, zeroPage_other hfresh.page.aligned h.directory.aligned (hlt hva)
      hfresh.directory.symm]
    intro hsame
    have hno := (entryAddr_inj h.directory.aligned h.directory.aligned (hlt hva) (hlt hu) hsame).2
    rw [← pdNo_toNat, ← pdNo_toNat, hno] at hne
    exact hne rfl
  have hold : ∀ va, isUserVaddr va → Pagedir.pdNo va.toNat ≠ Pagedir.pdNo upage.toNat →
      (PageWords.addTable A upage.toNat).pde (Pagedir.pdNo va.toNat) →
      A.pde (Pagedir.pdNo va.toNat) := by
    intro va _ hne hyes
    rwa [addTable_pde_ne A hne] at hyes
  have hfreshTable : ∀ va, isUserVaddr va → A.pde (Pagedir.pdNo va.toNat) →
      table (Pagedir.pdNo va.toNat) ≠ pt := by
    intro va hva hyes hsame
    exact hfresh.tables va hva (hsame ▸ (h.present va hva hyes).2)
  refine ⟨h.directory, fun va hva hno => ?_, fun va hva hyes => ?_, fun va hva hyes => ?_,
    fun u v huser hv hyes hyes' hsame => ?_, fun va hva hyes => ?_, fun va hva hyes => ?_⟩
  · have hne : Pagedir.pdNo va.toNat ≠ Pagedir.pdNo upage.toNat := by
      intro hsame
      rw [hsame, addTable_pde_self] at hno
      cases hno
    rw [hdirectory va hva hne]
    rw [addTable_pde_ne A hne] at hno
    exact h.absent va hva hno
  · by_cases hsame : Pagedir.pdNo va.toNat = Pagedir.pdNo upage.toNat
    · have hno : pdNo va = pdNo upage := by
        rw [← BitVec.toNat_inj, pdNo_toNat, pdNo_toNat, hsame]
      rw [hno, hsame, Function.update_self, Function.update_self]
      exact ⟨hword, hget⟩
    · rw [hdirectory va hva hsame, Function.update_of_ne hsame]
      exact h.present va hva (hold va hva hsame hyes)
  · by_cases hsame : Pagedir.pdNo va.toNat = Pagedir.pdNo upage.toNat
    · rw [hsame, Function.update_self]
      exact ⟨hfresh.page, hfresh.directory⟩
    · rw [Function.update_of_ne hsame]
      exact h.page va hva (hold va hva hsame hyes)
  · by_cases hsameU : Pagedir.pdNo u.toNat = Pagedir.pdNo upage.toNat
    · by_cases hsameV : Pagedir.pdNo v.toNat = Pagedir.pdNo upage.toNat
      · rw [← BitVec.toNat_inj, pdNo_toNat, pdNo_toNat, hsameU, hsameV]
      · rw [hsameU, Function.update_self, Function.update_of_ne hsameV] at hsame
        exact absurd hsame.symm (hfreshTable v hv (hold v hv hsameV hyes'))
    · by_cases hsameV : Pagedir.pdNo v.toNat = Pagedir.pdNo upage.toNat
      · rw [hsameV, Function.update_self, Function.update_of_ne hsameU] at hsame
        exact absurd hsame (hfreshTable u huser (hold u huser hsameU hyes))
      · rw [Function.update_of_ne hsameU, Function.update_of_ne hsameV] at hsame
        exact h.distinct u v huser hv (hold u huser hsameU hyes) (hold v hv hsameV hyes') hsame
  · by_cases hsame : Pagedir.pdNo va.toNat = Pagedir.pdNo upage.toNat
    · have hne : entryAddr pt (ptNo va) ≠ entryAddr pd (pdNo upage) := fun haddr =>
        hfresh.directory (entryAddr_inj hfresh.page.aligned h.directory.aligned (ptNo_lt va)
          (hlt hu) haddr).1
      rw [addTable_pte, pdNo_pgRoundDown, if_pos hsame, hsame, Function.update_self,
        Function.update_of_ne hne, zeroPage_self hfresh.page.aligned (ptNo_lt va), pteOf_zero]
    · have hyesA := hold va hva hsame hyes
      have htable := h.page va hva hyesA
      rw [addTable_pte, pdNo_pgRoundDown, if_neg hsame, Function.update_of_ne hsame,
        Function.update_of_ne (h.directory_ne hu hva hyesA).symm,
        zeroPage_other hfresh.page.aligned htable.1.aligned (ptNo_lt va)
          (hfreshTable va hva hyesA)]
      exact h.entry va hva hyesA
  · rw [addTable_pte, pdNo_pgRoundDown]
    split
    · exact by decide
    · next hne => exact h.frames va hva (hold va hva hne hyes)

/-! ### Mapping a page -/

/-- The arguments with which `pagedir_set_page` may be called. -/
structure Mappable (initRamPages initPageDir pd upage kpage : Word) : Prop where
  user : isUserVaddr upage
  aligned : pgOfs upage = 0
  kernel : IsKernelPage kpage
  ram : frameOf kpage < initRamPages.toNat
  directory : pd ≠ initPageDir

/-- The page directory once `upage` is mapped to a frame, in a new page table if there was none. -/
def mapPage (A : Pagedir) (upage frame : Nat) (writable : Bool) : Pagedir :=
  (if A.pde (Pagedir.pdNo upage) then A else addTable A upage).modifyPte upage
    fun _ => ⟨frame, true, writable, false, false⟩

/-- `mapPage` is what `pagedir_set_page` does in the model of the paging system. -/
theorem setPage_eq_mapPage {freePages upage frame : Nat} {writable : Bool}
    (halign : upage % pgSize = 0) (huser : upage < Pintos.physBase)
    (hnot : A.getPage upage = none)
    (hfree : A.pde (Pagedir.pdNo upage) = true ∨ freePages ≠ 0) : ∃ kernelPages,
      A.setPage freePages upage frame writable =
        .ok (some (kernelPages, mapPage A upage frame writable)) := by
  have hround := pgRoundDown_of_aligned halign
  rw [Pagedir.setPage, if_neg (not_not_intro halign), if_neg (Nat.not_le.mpr huser), mapPage,
    Pagedir.modifyPte]
  cases hpde : A.pde (Pagedir.pdNo upage) with
  | true =>
    rw [Pagedir.getPage_eq, hpde, hround] at hnot
    have hclear : ¬ (A.pte upage).present = true := by simpa using hnot
    rw [if_pos rfl, if_neg hclear, if_pos rfl, if_pos hpde, hround]
    exact ⟨freePages, rfl⟩
  | false =>
    rw [if_neg Bool.false_ne_true, if_neg (hfree.resolve_left (by simp [hpde])),
      if_neg Bool.false_ne_true, if_pos (addTable_pde_self A upage), hround]
    exact ⟨freePages - 1, rfl⟩

/-- The assertions about the arguments hold. -/
theorem pagedirSetPage_eq {upage kpage : Word}
    (hargs : Mappable initRamPages initPageDir pd upage kpage) (writable : Bool)
    (palloc : Option Word) :
    pagedirSetPage initRamPages initPageDir pd upage kpage writable palloc mem =
      setEntry pd upage kpage writable palloc mem := by
  obtain ⟨hvtop, hnat, -⟩ := hargs.kernel.vtop
  have hofs : pgOfs kpage = 0 := (pgOfs_eq_zero_iff kpage).mpr hargs.kernel.aligned
  have huser : (!isUserVaddr upage) = false := by simp [hargs.user]
  have hram : ¬ initRamPages ≤ (kpage - physBase) >>> 12 := by
    have hlt := hargs.ram
    rw [BitVec.le_def, BitVec.toNat_ushiftRight, Nat.shiftRight_eq_div_pow, hnat]
    simp only [pgSize] at *
    omega
  rw [pagedirSetPage, if_neg (not_not_intro hargs.aligned), if_neg (not_not_intro hofs), huser,
    if_neg Bool.false_ne_true, hvtop]
  show (if initRamPages ≤ (kpage - physBase) >>> 12 then _ else _ : WordRoutine Bool) mem = _
  rw [if_neg hram, if_neg hargs.directory]

/-- The entry of a page that has a page table is made. -/
theorem Rep.setEntry_present (h : Rep pd table mem A) {upage kpage : Word}
    (hu : isUserVaddr upage) (hk : IsKernelPage kpage) (writable : Bool) (palloc : Option Word)
    {mem0 : Word → Word} (hpde : A.pde (Pagedir.pdNo upage.toNat))
    (hlookup : lookupPage pd upage true palloc mem0 =
      .ok (some (entryAddr (table (Pagedir.pdNo upage.toNat)) (ptNo upage)), mem))
    (hnot : (A.pte (pgRoundDown upage.toNat)).present = false) :
    ∃ mem', setEntry pd upage kpage writable palloc mem0 = .ok (true, mem') ∧
      Rep pd table mem' (A.modifyPte upage.toNat
        fun _ => ⟨frameOf kpage, true, writable, false, false⟩) := by
  obtain ⟨word, hcreate, hpte⟩ := pteCreateUser_eq hk writable
  let pte := entryAddr (table (Pagedir.pdNo upage.toNat)) (ptNo upage)
  have hclear : ¬ mem pte &&& pteP ≠ 0 := by
    rw [h.entry upage hu hpde] at hnot
    exact of_decide_eq_false hnot
  refine ⟨Function.update mem pte word, ?_, ?_⟩
  · rw [setEntry, Routine.bind_of_ok hlookup]
    simp only [Routine.get_bind_apply]
    rw [if_neg hclear, hcreate]
    rfl
  · rw [← hpte]
    exact h.write hu hpde (by rw [hpte]; exact hk.vtop.2.2)

theorem Rep.setPage (h : Rep pd table mem A) {upage kpage : Word}
    (hargs : Mappable initRamPages initPageDir pd upage kpage) (writable : Bool)
    (palloc : Option Word) (hnot : A.getPage upage.toNat = none)
    (hfresh : ∀ pt, palloc = some pt → A.pde (Pagedir.pdNo upage.toNat) = false →
      Fresh pd mem pt) :
    (A.pde (Pagedir.pdNo upage.toNat) = false ∧ palloc = none ∧
      pagedirSetPage initRamPages initPageDir pd upage kpage writable palloc mem =
        .ok (false, mem)) ∨
    ∃ table' mem', pagedirSetPage initRamPages initPageDir pd upage kpage writable palloc mem =
        .ok (true, mem') ∧
      Rep pd table' mem' (mapPage A upage.toNat (frameOf kpage) writable) := by
  have hu := hargs.user
  rw [pagedirSetPage_eq hargs]
  cases hpde : A.pde (Pagedir.pdNo upage.toNat) with
  | true =>
    have hclear : (A.pte (pgRoundDown upage.toNat)).present = false := by
      rw [Pagedir.getPage_eq, hpde] at hnot
      simpa using hnot
    obtain ⟨mem', hset, hrep⟩ := h.setEntry_present hu hargs.kernel writable palloc hpde
      (h.lookup_present hu hpde true palloc) hclear
    refine .inr ⟨table, mem', hset, ?_⟩
    rw [mapPage, if_pos hpde]
    exact hrep
  | false =>
    have hzero := h.absent upage hu hpde
    have huser : (true && !isUserVaddr upage) = false := by simp [hu]
    cases palloc with
    | none =>
      refine .inl ⟨rfl, rfl, ?_⟩
      have hlookup : lookupPage pd upage true none mem = .ok (none, mem) := by
        rw [lookupPage, if_neg h.directory.ne_zero]
        simp only [huser, Bool.false_eq_true, if_false, Routine.get_bind_apply]
        rw [if_neg (not_not_intro hzero)]
        rfl
      rw [setEntry, Routine.bind_of_ok hlookup]
      rfl
    | some pt =>
      have hpt := hfresh pt rfl hpde
      obtain ⟨word, hcreate, hword, hget⟩ := pdeCreate_eq hpt.page
      have hrep := h.addTable hu hpt hword hget
      have hyes := addTable_pde_self A upage.toNat
      have hlookup : lookupPage pd upage true (some pt) mem = .ok (some (entryAddr
          (Function.update table (Pagedir.pdNo upage.toNat) pt (Pagedir.pdNo upage.toNat))
          (ptNo upage)), Function.update (zeroPage mem pt) (entryAddr pd (pdNo upage)) word) := by
        rw [lookupPage, if_neg h.directory.ne_zero]
        simp only [huser, Bool.false_eq_true, if_false, Routine.get_bind_apply]
        rw [if_neg (not_not_intro hzero), if_pos trivial,
          Routine.bind_of_ok (Routine.lift_of_ok hcreate mem), Routine.set_bind_apply,
          Routine.map_apply, tableEntry, Routine.get_bind_apply, (hrep.present upage hu hyes).2]
        rfl
      have hclear :
          ((PageWords.addTable A upage.toNat).pte (pgRoundDown upage.toNat)).present = false := by
        rw [addTable_pte, pdNo_pgRoundDown, if_pos rfl]
        rfl
      obtain ⟨mem', hset, hrep'⟩ :=
        hrep.setEntry_present hu hargs.kernel writable (some pt) hyes hlookup hclear
      have hmap : mapPage A upage.toNat (frameOf kpage) writable =
          (PageWords.addTable A upage.toNat).modifyPte upage.toNat
            fun _ => ⟨frameOf kpage, true, writable, false, false⟩ := by
        rw [mapPage, if_neg (by simp [hpde])]
      rw [hmap]
      exact .inr ⟨_, mem', hset, hrep'⟩

/-! ### The entry of a page -/

/-- The entry of the page of `v`; a page without a page table is as one with a cleared entry. -/
def pteAt (A : Pagedir) (v : Nat) : Pte := (A.lookupPage v).getD Pagedir.zeroPte

theorem getPage_pteAt (A : Pagedir) (v : Nat) :
    A.getPage v = if (pteAt A v).present then some (pteAt A v).page else none := by
  rw [Pagedir.getPage, pteAt]
  cases A.lookupPage v <;> rfl

theorem any_pteAt (A : Pagedir) (v : Nat) {field : Pte → Bool}
    (hzero : field Pagedir.zeroPte = false) : (A.lookupPage v).any field = field (pteAt A v) := by
  rw [pteAt]
  cases A.lookupPage v with
  | none => exact hzero.symm
  | some pte => rfl

theorem pteAt_of_pde {v : Nat} (hpde : A.pde (Pagedir.pdNo v)) :
    pteAt A v = A.pte (pgRoundDown v) := by
  rw [pteAt, Pagedir.lookupPage, if_pos hpde]
  rfl

theorem pteAt_of_no_pde {v : Nat} (hpde : A.pde (Pagedir.pdNo v) = false) :
    pteAt A v = Pagedir.zeroPte := by
  rw [pteAt, Pagedir.lookupPage, if_neg (by simp [hpde])]
  rfl

theorem modifyPte_pde (A : Pagedir) (v : Nat) (f : Pte → Pte) :
    (A.modifyPte v f).pde = A.pde := by
  rw [Pagedir.modifyPte]
  split <;> rfl

theorem modifyPte_pteAt (A : Pagedir) (v u : Nat) (f : Pte → Pte) :
    pteAt (A.modifyPte v f) u =
      if pgRoundDown u = pgRoundDown v ∧ A.pde (Pagedir.pdNo v) then f (pteAt A u)
      else pteAt A u := by
  cases hv : A.pde (Pagedir.pdNo v) with
  | false =>
    rw [Pagedir.modifyPte, hv, if_neg Bool.false_ne_true, if_neg fun h => Bool.false_ne_true h.2]
  | true =>
    cases hu : A.pde (Pagedir.pdNo u) with
    | false =>
      have hne : ¬ pgRoundDown u = pgRoundDown v := by
        intro hsame
        rw [← pdNo_pgRoundDown u, hsame, pdNo_pgRoundDown, hv] at hu
        cases hu
      rw [pteAt_of_no_pde (by rw [modifyPte_pde, hu]), pteAt_of_no_pde hu, if_neg fun h => hne h.1]
    | true =>
      rw [pteAt_of_pde (by rw [modifyPte_pde, hu]), pteAt_of_pde hu, Pagedir.modifyPte, if_pos hv]
      by_cases hsame : pgRoundDown u = pgRoundDown v
      · rw [if_pos ⟨hsame, rfl⟩, hsame]
        dsimp only
        rw [Function.update_self]
      · rw [if_neg fun h => hsame h.1]
        dsimp only
        rw [Function.update_of_ne hsame]

theorem addTable_pteAt (A : Pagedir) {v : Nat} (hv : A.pde (Pagedir.pdNo v) = false) (u : Nat) :
    pteAt (addTable A v) u = pteAt A u := by
  by_cases hno : Pagedir.pdNo u = Pagedir.pdNo v
  · have hyes : (addTable A v).pde (Pagedir.pdNo u) = true := by rw [hno, addTable_pde_self]
    rw [pteAt_of_pde hyes, addTable_pte, pdNo_pgRoundDown, if_pos hno,
      pteAt_of_no_pde (by rw [hno, hv])]
  · cases hu : A.pde (Pagedir.pdNo u) with
    | false => rw [pteAt_of_no_pde hu, pteAt_of_no_pde (by rw [addTable_pde_ne A hno, hu])]
    | true =>
      rw [pteAt_of_pde hu, pteAt_of_pde (by rw [addTable_pde_ne A hno, hu]), addTable_pte,
        pdNo_pgRoundDown, if_neg hno]

/-- Mapping a page changes the entry of that page alone. -/
theorem mapPage_pteAt (A : Pagedir) (v frame u : Nat) (writable : Bool) :
    pteAt (mapPage A v frame writable) u =
      if pgRoundDown u = pgRoundDown v then ⟨frame, true, writable, false, false⟩
      else pteAt A u := by
  rw [mapPage, modifyPte_pteAt]
  cases hv : A.pde (Pagedir.pdNo v) with
  | true => simp [hv]
  | false =>
    have hyes := addTable_pde_self A v
    simp [hyes, addTable_pteAt A hv]

theorem mapPage_pde (A : Pagedir) (v frame : Nat) (writable : Bool) :
    (mapPage A v frame writable).pde (Pagedir.pdNo v) = true ∧
      ∀ i, A.pde i → (mapPage A v frame writable).pde i := by
  rw [mapPage, modifyPte_pde]
  split
  · next hv => exact ⟨hv, fun _ h => h⟩
  · next hv =>
    refine ⟨addTable_pde_self A v, fun i hi => ?_⟩
    rwa [addTable_pde_ne A fun hsame => hv (hsame ▸ hi)]

/-! ### Runs -/

/-- An operation on a page directory. -/
inductive PagedirOp where
  | setPage (upage kpage : Word) (writable : Bool) (palloc : Option Word)
  | clearPage (upage : Word)
  | setDirty (vpage : Word) (dirty : Bool)
  | setAccessed (vpage : Word) (accessed : Bool)

namespace PagedirOp

/-- The address that an operation is on. -/
def addr : PagedirOp → Word
  | setPage upage _ _ _ => upage
  | clearPage upage => upage
  | setDirty vpage _ => vpage
  | setAccessed vpage _ => vpage

section

variable (initRamPages initPageDir pd : Word)

/-- The operation, with the result of `pagedir_set_page`; the others return nothing. -/
def exec : PagedirOp → WordRoutine Bool
  | setPage upage kpage writable palloc =>
    pagedirSetPage initRamPages initPageDir pd upage kpage writable palloc
  | clearPage upage => do
    pagedirClearPage pd upage
    pure true
  | setDirty vpage dirty => do
    pagedirSetDirty pd vpage dirty
    pure true
  | setAccessed vpage accessed => do
    pagedirSetAccessed pd vpage accessed
    pure true

/-- The operations on user pages that callers make: `pagedir_set_page` only on pages that are not
present, and the page tables that it allocates are in pages that are not in use. -/
def Valid (mem : Word → Word) : PagedirOp → Prop
  | setPage upage kpage _ palloc =>
    Mappable initRamPages initPageDir pd upage kpage ∧
      pagedirGetPage pd upage mem = .ok (none, mem) ∧
      ∀ pt, palloc = some pt → mem (entryAddr pd (pdNo upage)) = 0 → Fresh pd mem pt
  | clearPage upage => isUserVaddr upage ∧ pgOfs upage = 0
  | setDirty vpage _ => isUserVaddr vpage
  | setAccessed vpage _ => isUserVaddr vpage

end

end PagedirOp

/-- `pg_no`. -/
def pgNo (va : Word) : Word := va >>> 12

theorem pgNo_eq_iff (u v : Word) : pgNo u = pgNo v ↔ pgRoundDown u.toNat = pgRoundDown v.toNat := by
  rw [← BitVec.toNat_inj, pgNo, pgNo, BitVec.toNat_ushiftRight, BitVec.toNat_ushiftRight,
    Nat.shiftRight_eq_div_pow, Nat.shiftRight_eq_div_pow]
  simp only [pgRoundDown, pgSize]
  omega

/-- What the operations on a page have made of it: the frame that it was last set to, if it has not
been cleared since, the flags, and whether it was ever set. -/
structure PageInfo where
  frame : Option Word
  writable : Bool
  accessed : Bool
  dirty : Bool
  wasSet : Bool

namespace PageInfo

/-- A page on which there was no operation. -/
def start : PageInfo := ⟨none, false, false, false, false⟩

/-- An operation on the page, with its result. -/
def apply (info : PageInfo) : PagedirOp × Bool → PageInfo
  | (.setPage _ kpage writable _, true) => ⟨some kpage, writable, false, false, true⟩
  | (.setPage _ _ _ _, false) => info
  | (.clearPage _, _) => { info with frame := none }
  | (.setDirty _ dirty, _) => { info with dirty }
  | (.setAccessed _ accessed, _) => { info with accessed }

/-- The operations of a run that are on the page of `va`. -/
def ofRun (trace : List (PagedirOp × Bool)) (va : Word) : PageInfo :=
  (trace.filter fun step => pgNo step.1.addr = pgNo va).foldl apply start

theorem ofRun_append (trace : List (PagedirOp × Bool)) (step : PagedirOp × Bool) (va : Word) :
    ofRun (trace ++ [step]) va =
      if pgNo step.1.addr = pgNo va then (ofRun trace va).apply step else ofRun trace va := by
  rw [ofRun, List.filter_append, List.foldl_append, ← ofRun]
  by_cases hpage : pgNo step.1.addr = pgNo va
  · simp [hpage]
  · simp [hpage]

end PageInfo

/-- The runs of operations on the directory at `pd`, which has no page table for user pages at the
start, with the results of the operations. -/
inductive PagedirRun (initRamPages initPageDir pd : Word) :
    List (PagedirOp × Bool) → (Word → Word) → Prop
  | start {mem : Word → Word} (hpd : IsKernelPage pd)
      (hempty : ∀ va, isUserVaddr va → mem (entryAddr pd (pdNo va)) = 0) :
      PagedirRun initRamPages initPageDir pd [] mem
  | step {trace : List (PagedirOp × Bool)} {mem mem' : Word → Word} {op : PagedirOp} {result : Bool}
      (hrun : PagedirRun initRamPages initPageDir pd trace mem)
      (hvalid : op.Valid initRamPages initPageDir pd mem)
      (hexec : op.exec initRamPages initPageDir pd mem = .ok (result, mem')) :
      PagedirRun initRamPages initPageDir pd (trace ++ [(op, result)]) mem'

/-- A page table entry is as the operations on its page have made it.  Flags of a page that was
never set may lack: they are dropped while there is no page table. -/
structure Agrees (A : Pagedir) (va : Word) (info : PageInfo) : Prop where
  present : (pteAt A va.toNat).present = info.frame.isSome
  frame : ∀ kpage, info.frame = some kpage →
    IsKernelPage kpage ∧ (pteAt A va.toNat).page = frameOf kpage
  writable : (pteAt A va.toNat).writable = info.writable
  accessed : (pteAt A va.toNat).accessed → info.accessed
  dirty : (pteAt A va.toNat).dirty → info.dirty
  wasSet : info.wasSet → A.pde (Pagedir.pdNo va.toNat) ∧
    (pteAt A va.toNat).accessed = info.accessed ∧ (pteAt A va.toNat).dirty = info.dirty

namespace Agrees

variable {va : Word} {info : PageInfo}

theorem start (hpde : A.pde (Pagedir.pdNo va.toNat) = false) : Agrees A va .start := by
  have hzero := pteAt_of_no_pde hpde
  refine ⟨by rw [hzero]; rfl, nofun, by rw [hzero]; rfl, ?_, ?_, nofun⟩
  · rw [hzero]
    exact nofun
  · rw [hzero]
    exact nofun

/-- An operation on another page. -/
theorem other (h : Agrees A va info) (hpte : pteAt A' va.toNat = pteAt A va.toNat)
    (hpde : ∀ i, A.pde i → A'.pde i) : Agrees A' va info := by
  refine ⟨?_, ?_, ?_, ?_, ?_, fun hset => ⟨hpde _ (h.wasSet hset).1, ?_⟩⟩
  · rw [hpte, h.present]
  · rw [hpte]
    exact h.frame
  · rw [hpte, h.writable]
  · rw [hpte]
    exact h.accessed
  · rw [hpte]
    exact h.dirty
  · rw [hpte]
    exact (h.wasSet hset).2

theorem setPage {kpage : Word} {writable : Bool} (hk : IsKernelPage kpage)
    (hpte : pteAt A va.toNat = ⟨frameOf kpage, true, writable, false, false⟩)
    (hpde : A.pde (Pagedir.pdNo va.toNat)) :
    Agrees A va ⟨some kpage, writable, false, false, true⟩ where
  present := by rw [hpte]; rfl
  frame k hsome := by
    cases hsome
    exact ⟨hk, by rw [hpte]⟩
  writable := by rw [hpte]
  accessed := by rw [hpte]; exact id
  dirty := by rw [hpte]; exact id
  wasSet _ := by rw [hpte]; exact ⟨hpde, rfl, rfl⟩

theorem clearPage (h : Agrees A va info)
    (hpte : pteAt A' va.toNat = { pteAt A va.toNat with present := false })
    (hpde : A'.pde = A.pde) : Agrees A' va { info with frame := none } where
  present := by rw [hpte]; rfl
  frame := nofun
  writable := by rw [hpte]; exact h.writable
  accessed := by rw [hpte]; exact h.accessed
  dirty := by rw [hpte]; exact h.dirty
  wasSet hset := by
    rw [hpte, hpde]
    exact h.wasSet hset

theorem setDirty (h : Agrees A va info) {dirty : Bool}
    (hpte : pteAt A' va.toNat =
      if A.pde (Pagedir.pdNo va.toNat) then { pteAt A va.toNat with dirty } else pteAt A va.toNat)
    (hpde : A'.pde = A.pde) : Agrees A' va { info with dirty } := by
  cases hyes : A.pde (Pagedir.pdNo va.toNat) with
  | true =>
    rw [hyes, if_pos rfl] at hpte
    refine ⟨by rw [hpte]; exact h.present, by rw [hpte]; exact h.frame,
      by rw [hpte]; exact h.writable, by rw [hpte]; exact h.accessed, by rw [hpte]; exact id,
      fun hset => ?_⟩
    rw [hpte, hpde]
    exact ⟨hyes, (h.wasSet hset).2.1, rfl⟩
  | false =>
    rw [hyes, if_neg Bool.false_ne_true] at hpte
    refine ⟨by rw [hpte]; exact h.present, by rw [hpte]; exact h.frame,
      by rw [hpte]; exact h.writable, by rw [hpte]; exact h.accessed, ?_, fun hset => ?_⟩
    · rw [hpte, pteAt_of_no_pde hyes]
      exact nofun
    · exact absurd (h.wasSet hset).1 (by simp [hyes])

theorem setAccessed (h : Agrees A va info) {accessed : Bool}
    (hpte : pteAt A' va.toNat =
      if A.pde (Pagedir.pdNo va.toNat) then { pteAt A va.toNat with accessed }
      else pteAt A va.toNat)
    (hpde : A'.pde = A.pde) : Agrees A' va { info with accessed } := by
  cases hyes : A.pde (Pagedir.pdNo va.toNat) with
  | true =>
    rw [hyes, if_pos rfl] at hpte
    refine ⟨by rw [hpte]; exact h.present, by rw [hpte]; exact h.frame,
      by rw [hpte]; exact h.writable, by rw [hpte]; exact id, by rw [hpte]; exact h.dirty,
      fun hset => ?_⟩
    rw [hpte, hpde]
    exact ⟨hyes, rfl, (h.wasSet hset).2.2⟩
  | false =>
    rw [hyes, if_neg Bool.false_ne_true] at hpte
    refine ⟨by rw [hpte]; exact h.present, by rw [hpte]; exact h.frame,
      by rw [hpte]; exact h.writable, ?_, by rw [hpte]; exact h.dirty, fun hset => ?_⟩
    · rw [hpte, pteAt_of_no_pde hyes]
      exact nofun
    · exact absurd (h.wasSet hset).1 (by simp [hyes])

end Agrees

/-- A change of the flags of one page, on that page and on the others. -/
theorem modifyPte_pteAt_word (A : Pagedir) (v va : Word) (f : Pte → Pte) :
    (pgNo v = pgNo va → pteAt (A.modifyPte v.toNat f) va.toNat =
      if A.pde (Pagedir.pdNo va.toNat) then f (pteAt A va.toNat) else pteAt A va.toNat) ∧
    (pgNo v ≠ pgNo va → pteAt (A.modifyPte v.toNat f) va.toNat = pteAt A va.toNat) := by
  rw [modifyPte_pteAt]
  constructor
  · intro hpage
    have hround := (pgNo_eq_iff v va).mp hpage
    have hno : Pagedir.pdNo v.toNat = Pagedir.pdNo va.toNat := by
      rw [← pdNo_pgRoundDown, hround, pdNo_pgRoundDown]
    simp [hround, hno]
  · intro hpage
    rw [if_neg fun h => hpage ((pgNo_eq_iff v va).mpr h.1.symm)]

/-- What an operation does to the entries; only a missing page table makes it fail. -/
structure Does (A A' : Pagedir) (op : PagedirOp) (result : Bool) : Prop where
  fails : result = false → ∃ upage kpage writable, op = .setPage upage kpage writable none
  same : ∀ va info, Agrees A va info → pgNo op.addr = pgNo va →
    Agrees A' va (info.apply (op, result))
  other : ∀ va, pgNo op.addr ≠ pgNo va → pteAt A' va.toNat = pteAt A va.toNat
  pde : ∀ i, A.pde i → A'.pde i

theorem Does.agrees {op : PagedirOp} {result : Bool} (h : Does A A' op result) {va : Word}
    {info : PageInfo} (hinfo : Agrees A va info) :
    Agrees A' va (if pgNo op.addr = pgNo va then info.apply (op, result) else info) := by
  split
  · next hpage => exact h.same va info hinfo hpage
  · next hpage => exact hinfo.other (h.other va hpage) h.pde

/-- The step lemma. -/
theorem Rep.exec (h : Rep pd table mem A) {op : PagedirOp}
    (hvalid : op.Valid initRamPages initPageDir pd mem) : ∃ result mem' table' A',
      op.exec initRamPages initPageDir pd mem = .ok (result, mem') ∧ Rep pd table' mem' A' ∧
      Does A A' op result := by
  cases op with
  | setPage upage kpage writable palloc =>
    obtain ⟨hargs, hnone, hfresh⟩ := hvalid
    have hnot : A.getPage upage.toNat = none := by
      rw [h.getPage hargs.user] at hnone
      simpa using congrArg Prod.fst (Except.ok.inj hnone)
    rcases h.setPage hargs writable palloc hnot
      (fun pt hpt hpde => hfresh pt hpt (h.absent upage hargs.user hpde)) with
      ⟨-, rfl, hset⟩ | ⟨table', mem', hset, hrep⟩
    · exact ⟨false, mem, table, A, hset, h, fun _ => ⟨upage, kpage, writable, rfl⟩,
        fun _ _ hinfo _ => hinfo, fun _ _ => rfl, fun _ => id⟩
    · obtain ⟨hself, hpde⟩ := mapPage_pde A upage.toNat (frameOf kpage) writable
      refine ⟨true, mem', table', _, hset, hrep, nofun, fun va info hinfo hpage => ?_,
        fun va hpage => ?_, hpde⟩
      · have hround := (pgNo_eq_iff upage va).mp hpage
        refine .setPage hargs.kernel ?_ ?_
        · rw [mapPage_pteAt, if_pos hround.symm]
        · rwa [← pdNo_pgRoundDown, ← hround, pdNo_pgRoundDown]
      · rw [mapPage_pteAt, if_neg fun hround => hpage ((pgNo_eq_iff upage va).mpr hround.symm)]
  | clearPage upage =>
    obtain ⟨huser, halign⟩ := hvalid
    have huser' : (!isUserVaddr upage) = false := by simp [huser]
    obtain ⟨mem', hchange, hrep⟩ :=
      h.changeEntry huser (f := fun pte => { pte with present := false }) pteOf_clearP fun _ => rfl
    refine ⟨true, mem', table, _, ?_, hrep, nofun, fun va info hinfo hpage => ?_,
      fun va hpage => ?_, ?_⟩
    · rw [PagedirOp.exec, pagedirClearPage, if_neg (not_not_intro halign), huser',
        if_neg Bool.false_ne_true]
      dsimp only
      rw [Routine.bind_of_ok hchange]
      rfl
    · refine hinfo.clearPage ?_ (modifyPte_pde ..)
      rw [(modifyPte_pteAt_word A upage va _).1 hpage]
      cases hpde : A.pde (Pagedir.pdNo va.toNat) with
      | true => rfl
      | false =>
        rw [pteAt_of_no_pde hpde]
        rfl
    · exact (modifyPte_pteAt_word A upage va _).2 hpage
    · rw [modifyPte_pde]
      exact fun _ => id
  | setDirty vpage dirty =>
    obtain ⟨mem', hchange, hrep⟩ := h.changeEntry hvalid (f := fun pte => { pte with dirty })
      (fun word => pteOf_setD word dirty) fun _ => rfl
    refine ⟨true, mem', table, _, ?_, hrep, nofun, fun va info hinfo hpage => ?_,
      fun va hpage => ?_, ?_⟩
    · rw [PagedirOp.exec, pagedirSetDirty, Routine.bind_of_ok hchange]
      rfl
    · exact hinfo.setDirty ((modifyPte_pteAt_word A vpage va _).1 hpage) (modifyPte_pde ..)
    · exact (modifyPte_pteAt_word A vpage va _).2 hpage
    · rw [modifyPte_pde]
      exact fun _ => id
  | setAccessed vpage accessed =>
    obtain ⟨mem', hchange, hrep⟩ := h.changeEntry hvalid (f := fun pte => { pte with accessed })
      (fun word => pteOf_setA word accessed) fun _ => rfl
    refine ⟨true, mem', table, _, ?_, hrep, nofun, fun va info hinfo hpage => ?_,
      fun va hpage => ?_, ?_⟩
    · rw [PagedirOp.exec, pagedirSetAccessed, Routine.bind_of_ok hchange]
      rfl
    · exact hinfo.setAccessed ((modifyPte_pteAt_word A vpage va _).1 hpage) (modifyPte_pde ..)
    · exact (modifyPte_pteAt_word A vpage va _).2 hpage
    · rw [modifyPte_pde]
      exact fun _ => id

/-- The run lemma. -/
theorem PagedirRun.rep {trace : List (PagedirOp × Bool)}
    (h : PagedirRun initRamPages initPageDir pd trace mem) : ∃ table A, Rep pd table mem A ∧
      ∀ va, isUserVaddr va → Agrees A va (PageInfo.ofRun trace va) := by
  induction h with
  | start hpd hempty =>
    refine ⟨fun _ => 0, .empty, ⟨hpd, fun va hva _ => hempty va hva, nofun, nofun, nofun, nofun,
      nofun⟩, fun va _ => .start rfl⟩
  | step hrun hvalid hexec ih =>
    obtain ⟨table, A, hrep, hagrees⟩ := ih
    obtain ⟨result, mem', table', A', hexec', hrep', hdoes⟩ := hrep.exec hvalid
    cases hexec.symm.trans hexec'
    refine ⟨table', A', hrep', fun va hva => ?_⟩
    rw [PageInfo.ofRun_append]
    exact hdoes.agrees (hagrees va hva)

/-- What the queries return for `va`: its address in the kernel's map of physical memory, and the
writable, accessed and dirty flags. -/
def pageAnswers (pd va : Word) : WordRoutine (Option Word × Bool × Bool × Bool) := do
  let page ← pagedirGetPage pd va
  let writable ← pagedirIsWritable pd va
  let accessed ← pagedirIsAccessed pd va
  let dirty ← pagedirIsDirty pd va
  pure (page, writable, accessed, dirty)

theorem Rep.answers (h : Rep pd table mem A) {va : Word} (hva : isUserVaddr va) :
    pageAnswers pd va mem = .ok
      (((if (pteAt A va.toNat).present then some (pteAt A va.toNat).page else none).map
          fun frame => kernelPage frame + pgOfs va,
        (pteAt A va.toNat).writable, (pteAt A va.toNat).accessed, (pteAt A va.toNat).dirty),
      mem) := by
  have hpage := h.getPage hva
  have hwritable := h.readFlag hva pteW Pte.writable fun _ => rfl
  have haccessed := h.readFlag hva pteA Pte.accessed fun _ => rfl
  have hdirty := h.readFlag hva pteD Pte.dirty fun _ => rfl
  rw [any_pteAt A _ rfl] at hwritable haccessed hdirty
  rw [getPage_pteAt] at hpage
  rw [pageAnswers, Routine.bind_of_ok hpage, pagedirIsWritable, Routine.bind_of_ok hwritable,
    pagedirIsAccessed, Routine.bind_of_ok haccessed, pagedirIsDirty, Routine.bind_of_ok hdirty]
  rfl

/-- A page directory is a map from pages to frames and flags.  After any run, `pagedir_get_page`
finds the frame that the page was last set to, if it has not been cleared since, and the flags of a
page that was set are as the operations on it since then have made them; on a page that was never
set, an operation on a flag may be dropped.  An operation changes no result for another page. -/
theorem pagedir_is_map {trace : List (PagedirOp × Bool)}
    (h : PagedirRun initRamPages initPageDir pd trace mem) :
    (∀ va, isUserVaddr va → ∃ accessed dirty,
      pageAnswers pd va mem = .ok (((PageInfo.ofRun trace va).frame.map (· + pgOfs va),
        (PageInfo.ofRun trace va).writable, accessed, dirty), mem) ∧
      (accessed → (PageInfo.ofRun trace va).accessed) ∧ (dirty → (PageInfo.ofRun trace va).dirty) ∧
      ((PageInfo.ofRun trace va).wasSet → accessed = (PageInfo.ofRun trace va).accessed ∧
        dirty = (PageInfo.ofRun trace va).dirty)) ∧
    ∀ op : PagedirOp, op.Valid initRamPages initPageDir pd mem → ∃ result mem',
      op.exec initRamPages initPageDir pd mem = .ok (result, mem') ∧
      (result = false → ∃ upage kpage writable, op = .setPage upage kpage writable none) ∧
      ∀ va, isUserVaddr va → pgNo op.addr ≠ pgNo va → ∃ answers,
        pageAnswers pd va mem = .ok (answers, mem) ∧
        pageAnswers pd va mem' = .ok (answers, mem') := by
  obtain ⟨table, A, hrep, hagrees⟩ := h.rep
  refine ⟨fun va hva => ?_, fun op hvalid => ?_⟩
  · have hinfo := hagrees va hva
    refine ⟨_, _, ?_, hinfo.accessed, hinfo.dirty, fun hset => (hinfo.wasSet hset).2⟩
    rw [hrep.answers hva, hinfo.present, hinfo.writable]
    cases hframe : (PageInfo.ofRun trace va).frame with
    | none => rfl
    | some kpage =>
      obtain ⟨hk, hpage⟩ := hinfo.frame kpage hframe
      rw [hpage]
      show Except.ok ((some (kernelPage (frameOf kpage) + pgOfs va), _), mem) = _
      rw [hk.kernelPage_frameOf]
      rfl
  · obtain ⟨result, mem', table', A', hexec, hrep', hdoes⟩ := hrep.exec hvalid
    refine ⟨result, mem', hexec, hdoes.fails, fun va hva hpage => ?_⟩
    have hsame := hdoes.other va hpage
    have hafter := hrep'.answers hva
    rw [hsame] at hafter
    exact ⟨_, hrep.answers hva, hafter⟩

/-- Where a page has been set, the pages of the same page table that are not mapped can be set, and
no new page table is taken. -/
theorem PagedirRun.valid_setPage {trace : List (PagedirOp × Bool)} {va upage kpage : Word}
    {writable : Bool} {palloc : Option Word}
    (h : PagedirRun initRamPages initPageDir pd trace mem) (hva : isUserVaddr va)
    (hset : (PageInfo.ofRun trace va).wasSet) (hsame : pdNo va = pdNo upage)
    (hmappable : Mappable initRamPages initPageDir pd upage kpage)
    (hnone : (PageInfo.ofRun trace upage).frame = none) :
    (PagedirOp.setPage upage kpage writable palloc).Valid initRamPages initPageDir pd mem := by
  obtain ⟨table, A, hrep, hagrees⟩ := h.rep
  refine ⟨hmappable, ?_, fun pt _ hzero => ?_⟩
  · have habsent := (hagrees upage hmappable.user).present
    rw [hnone, Option.isSome_none] at habsent
    rw [hrep.getPage hmappable.user, getPage_pteAt, habsent]
    rfl
  · obtain ⟨hne, -⟩ := hrep.present va hva ((hagrees va hva).wasSet hset).1
    rw [hsame] at hne
    exact absurd hzero hne

/-- Two pages are set, one is written and the other one is read and cleared. -/
def twoPages : List (PagedirOp × Bool) :=
  [(.setPage 0x08048000 0xc0100000 true (some 0xc0003000), true),
    (.setPage 0x08049000 0xc0101000 false (some 0xc0004000), true),
    (.setDirty 0x08048000 true, true), (.setAccessed 0x08049000 true, true),
    (.clearPage 0x08049000, true)]

/-- The first page keeps its frame and is dirty, and of the other one there are the flags. -/
theorem pagedir_is_map_twoPages : ∃ mem', PagedirRun 4096 0xc0001000 0xc0002000 twoPages mem' ∧
    pageAnswers 0xc0002000 0x08048123 mem' = .ok ((some 0xc0100123, true, false, true), mem') ∧
    pageAnswers 0xc0002000 0x08049456 mem' = .ok ((none, false, true, false), mem') := by
  have hnext : ∀ {trace mem} op, PagedirRun 4096 0xc0001000 0xc0002000 trace mem →
      PagedirOp.Valid 4096 0xc0001000 0xc0002000 mem op →
      (∀ upage kpage writable, op ≠ .setPage upage kpage writable none) →
      ∃ mem', PagedirRun 4096 0xc0001000 0xc0002000 (trace ++ [(op, true)]) mem' := by
    intro trace mem op hrun hvalid hop
    obtain ⟨result, mem', hexec, hfails, -⟩ := (pagedir_is_map hrun).2 op hvalid
    cases result with
    | true => exact ⟨mem', hrun.step hvalid hexec⟩
    | false =>
      obtain ⟨upage, kpage, writable, rfl⟩ := hfails rfl
      exact absurd rfl (hop upage kpage writable)
  have huser : isUserVaddr 0x08048000 := by decide
  have huser' : isUserVaddr 0x08049000 := by decide
  have hstart : PagedirRun 4096 0xc0001000 0xc0002000 [] fun _ => 0 :=
    .start ⟨by decide, by decide⟩ fun _ _ => rfl
  obtain ⟨mem1, hrun1⟩ := hnext (.setPage 0x08048000 0xc0100000 true (some 0xc0003000)) hstart
    ⟨⟨by decide, by decide, ⟨by decide, by decide⟩, by decide, by decide⟩, rfl, fun pt hpt _ => by
      cases hpt
      exact ⟨⟨by decide, by decide⟩, by decide, fun _ _ => nofun⟩⟩ (by simp)
  obtain ⟨mem2, hrun2⟩ := hnext (.setPage 0x08049000 0xc0101000 false (some 0xc0004000)) hrun1
    (hrun1.valid_setPage huser rfl (by decide)
      ⟨by decide, by decide, ⟨by decide, by decide⟩, by decide, by decide⟩ rfl) (by simp)
  obtain ⟨mem3, hrun3⟩ := hnext (.setDirty 0x08048000 true) hrun2 huser (by simp)
  obtain ⟨mem4, hrun4⟩ := hnext (.setAccessed 0x08049000 true) hrun3 huser' (by simp)
  obtain ⟨mem5, hrun⟩ := hnext (.clearPage 0x08049000) hrun4 ⟨huser', by decide⟩ (by simp)
  obtain ⟨accessed, dirty, hfirst, -, -, hset⟩ := (pagedir_is_map hrun).1 0x08048123 (by decide)
  obtain ⟨rfl, rfl⟩ := hset rfl
  obtain ⟨accessed, dirty, hsecond, -, -, hset⟩ := (pagedir_is_map hrun).1 0x08049456 (by decide)
  obtain ⟨rfl, rfl⟩ := hset rfl
  exact ⟨mem5, hrun, hfirst, hsecond⟩

end PageWords

end Pintos
