import Pintos.Vm.Isolation

/-! The bytes that a process would read in its pages, and what finding a frame does to them.  A page
without a supplemental entry goes to swap as it is; a mapped page is what its file has from then on,
and the file changes under the other pages that are to be read from it. -/

namespace Pintos

/-! ### The bytes of a page -/

namespace Vm

/-- The byte that a page read from a file has at `i`; `none` where the file ends before it. -/
def fileByte (s : Vm) (inf : PtSupplFileInfo) (i : Fin 4096) : Option UInt8 :=
  if inf.readBytes ≤ i.val ∧ i.val < inf.readBytes + inf.zeroBytes then some 0
  else if i.val < inf.readBytes then (s.file inf.file)[inf.offset + i.val]? else none

/-- The bytes that process `p` would read in page `v`, if something backs the page. -/
def wouldRead (s : Vm) (p v : Nat) : Option (Fin 4096 → Option UInt8) :=
  match s.mapped p v with
  | some page => some fun i => some (s.memory page i)
  | none =>
    match s.entry p v with
    | none => none
    | some e =>
      match e.presence, e.fileInfo with
      | .swapped, _ => some fun i => some (swapPage s.swapDevice e.swapSlot i)
      | .unloaded, some inf => some (s.fileByte inf)
      | _, _ => none

variable {s s' s1 : Vm} {cur p v : Nat} {e : PtSupplEntry} {inf : PtSupplFileInfo}

theorem wouldRead_mapped {page : Nat} (h : s.mapped p v = some page) :
    s.wouldRead p v = some fun i => some (s.memory page i) := by
  rw [wouldRead, h]

theorem wouldRead_swapped (h : s.mapped p v = none) (he : s.entry p v = some e)
    (hpresence : e.presence = .swapped) :
    s.wouldRead p v = some fun i => some (swapPage s.swapDevice e.swapSlot i) := by
  simp only [wouldRead, h, he, hpresence]

theorem wouldRead_unloaded (h : s.mapped p v = none) (he : s.entry p v = some e)
    (hpresence : e.presence = .unloaded) (hinf : e.fileInfo = some inf) :
    s.wouldRead p v = some (s.fileByte inf) := by
  simp only [wouldRead, h, he, hpresence, hinf]

/-- A page that is not mapped is backed by its entry. -/
theorem wouldRead_entry {x : Fin 4096 → Option UInt8} (h : s.mapped p v = none)
    (hx : s.wouldRead p v = some x) : ∃ e, s.entry p v = some e ∧
      ((e.presence = .swapped ∧ x = fun i => some (swapPage s.swapDevice e.swapSlot i)) ∨
        ∃ inf, e.presence = .unloaded ∧ e.fileInfo = some inf ∧ x = s.fileByte inf) := by
  rw [wouldRead, h] at hx
  cases he : s.entry p v with
  | none =>
    rw [he] at hx
    cases hx
  | some e =>
    rw [he] at hx
    refine ⟨e, rfl, ?_⟩
    cases hpresence : e.presence with
    | swapped =>
      simp only [hpresence, Option.some.injEq] at hx
      exact .inl ⟨rfl, hx.symm⟩
    | present =>
      simp only [hpresence] at hx
      cases hx
    | unloaded =>
      cases hinf : e.fileInfo with
      | none =>
        simp only [hpresence, hinf] at hx
        cases hx
      | some inf =>
        simp only [hpresence, hinf, Option.some.injEq] at hx
        exact .inr ⟨inf, rfl, rfl, hx.symm⟩

/-- A page-in from a file leaves the bytes that the file does not reach. -/
theorem readPage_apply (s : Vm) (inf : PtSupplFileInfo) (old : PageData) (i : Fin 4096) :
    s.readPage inf old i = (s.fileByte inf i).getD (old i) := by
  rw [readPage, PageData.clear, fileByte]
  split
  · rfl
  · rw [PageData.copyIn, fileRead, List.getD_eq_getElem?_getD]
    split
    · rename_i hlt
      rw [List.getElem?_take_of_lt hlt, List.getElem?_drop]
    · rename_i hle
      rw [List.getElem?_take_eq_none (not_lt.mp hle)]

/-- With a free frame a page-in brings the bytes that the process would read. -/
theorem ptSupplPageIn_reads {order : List FrameEntry → List FrameEntry} (hinv : s.Sound)
    (hv : v % pgSize = 0) (hnone : s.mapped p v = none) (hfree : s.HasFreePage)
    (h : ptSupplPageIn order p v s = .ok (true, s')) :
    ∃ x frm, s.wouldRead p v = some x ∧
      s'.pageContents p v = some fun i => (x i).getD (s.memory frm i) := by
  obtain ⟨frm, s1, e, halloc, hentry, hcontents⟩ := ptSupplPageIn_contents h
  rw [vmFrameAlloc_entry hinv.frames hv hnone halloc] at hentry
  obtain ⟨r, hscan⟩ := scanAndFlip_of_free hfree
  rw [vmFrameAlloc, Routine.get_bind_apply, hscan] at halloc
  cases halloc
  rcases hcontents with ⟨hpresence, hcontents⟩ | ⟨inf, hpresence, hinf, hcontents⟩
  · exact ⟨_, 0, wouldRead_swapped hnone hentry hpresence, hcontents⟩
  · refine ⟨_, r.1, wouldRead_unloaded hnone hentry hpresence hinf, ?_⟩
    rw [hcontents, Option.some_inj]
    funext i
    rw [readPage_apply]
    rfl

/-- The page is present and its entry says that it is not loaded. -/
def Clash (s : Vm) (p v : Nat) : Prop :=
  (s.mapped p v).isSome ∧ ∃ e, s.entry p v = some e ∧ e.presence ≠ .present

/-! ### The page tables and the dirty bits -/

/-- The same page tables exist, and the kernel pool has as many free pages. -/
structure SameTables (s s' : Vm) : Prop where
  kernelPages : s'.kernelPages = s.kernelPages
  pde : ∀ p, (s'.process p).pagedir.pde = (s.process p).pagedir.pde

theorem SameTables.refl (s : Vm) : s.SameTables s := ⟨rfl, fun _ => rfl⟩

theorem SameTables.trans (h1 : s.SameTables s1) (h2 : s1.SameTables s') : s.SameTables s' :=
  ⟨h2.kernelPages.trans h1.kernelPages, fun p => (h2.pde p).trans (h1.pde p)⟩

theorem SameTables.setPagedir {pd : Pagedir} (h : pd.pde = (s.process cur).pagedir.pde) :
    s.SameTables (s.setPagedir cur pd) := by
  refine ⟨rfl, fun p => ?_⟩
  by_cases hp : p = cur
  · subst hp
    rw [setPagedir_process_self, h]
  · rw [setPagedir_process_ne s hp]

theorem SameTables.setPtSuppl (s : Vm) (cur : Nat) (table : PtSuppl) :
    s.SameTables (s.setPtSuppl cur table) := by
  refine ⟨rfl, fun p => ?_⟩
  by_cases hp : p = cur
  · subst hp
    rw [setPtSuppl_process_self]
  · rw [setPtSuppl_process_ne s hp]

theorem entry_setPagedir (s : Vm) (cur : Nat) (pd : Pagedir) (p v : Nat) :
    (s.setPagedir cur pd).entry p v = s.entry p v := by
  by_cases hp : p = cur
  · subst hp
    rw [entry, setPagedir_process_self]
    rfl
  · rw [entry, setPagedir_process_ne s hp]
    rfl

end Vm

theorem Pagedir.modifyPte_pde (pd : Pagedir) (v : Nat) (f : Pte → Pte) :
    (pd.modifyPte v f).pde = pd.pde := by
  rw [modifyPte]
  split <;> rfl

theorem Pagedir.setAccessed_isDirty (pd : Pagedir) (v u : Nat) (accessed : Bool) :
    (pd.setAccessed v accessed).isDirty u = pd.isDirty u := by
  rw [isDirty, isDirty, lookupPage, lookupPage, setAccessed, modifyPte_pde]
  split
  · rw [modifyPte]
    split
    · by_cases hu : pgRoundDown u = pgRoundDown v
      · simp [hu]
      · simp [hu]
    · rfl
  · rfl

variable {s s' s1 : Vm} {cur frm : Nat} {fe : FrameEntry}

theorem selectFrameToEvict_tables (h : selectFrameToEvict s = .ok (fe, s')) : s.SameTables s' :=
  selectFrameToEvict_rel .refl (fun _ _ _ ht => (Vm.SameTables.setPagedir
    (Pagedir.modifyPte_pde _ _ _)).trans ht) h

theorem selectFrameToEvict_dirty (h : selectFrameToEvict s = .ok (fe, s')) (p v : Nat) :
    (s'.process p).pagedir.isDirty v = (s.process p).pagedir.isDirty v := by
  refine selectFrameToEvict_rel (R := fun s t =>
    (t.process p).pagedir.isDirty v = (s.process p).pagedir.isDirty v) (fun _ => rfl) ?_ h
  intro s fe t ht
  rw [ht]
  by_cases hp : p = fe.owner
  · subst hp
    rw [Vm.setPagedir_process_self, Pagedir.setAccessed_isDirty]
  · rw [Vm.setPagedir_process_ne s hp]

theorem pagedirClearPage_tables {q v : Nat} (h : pagedirClearPage q v s = .ok ((), s')) :
    s.SameTables s' := by
  obtain ⟨-, rfl⟩ := pagedirClearPage_ok h
  exact .setPagedir (Pagedir.modifyPte_pde _ _ _)

theorem writeBackMmf_tables {pt : PtSupplEntry} {info : PtSupplFileInfo}
    (h : writeBackMmf cur fe pt info s = .ok ((), s')) : s.SameTables s' := by
  rcases writeBackMmf_ok h with ⟨-, rfl⟩ | ⟨-, hwrite⟩
  · exact .refl _
  · rcases fileWriteAt_ok hwrite with ⟨-, rfl⟩ | ⟨-, page, -, rfl⟩
    · exact .refl _
    · have htouch : s.SameTables (s.setPagedir cur ((s.process cur).pagedir.touch pt.vaddr false)) :=
        .setPagedir (Pagedir.modifyPte_pde _ _ _)
      exact ⟨htouch.kernelPages, htouch.pde⟩

/-! ### Eviction -/

namespace Vm

/-- Whether the eviction of a mapped page writes to its file. -/
def writesBack (s : Vm) (fe : FrameEntry) (info : PtSupplFileInfo) : Bool :=
  (s.process fe.owner).pagedir.isDirty fe.threadVaddr && info.readBytes ≠ 0 &&
    !s.denyWrite info.file

/-- The byte that an eviction by process `cur` stores at `o` in file `f`, if it stores one. -/
def storedByte (s : Vm) (cur : Nat) (fe : FrameEntry) (info : PtSupplFileInfo) (f o : Nat) :
    Option UInt8 :=
  if s.writesBack fe info = true ∧ f = info.file ∧ info.offset ≤ o ∧
      o < info.offset + info.readBytes then
    (s.pageContents cur fe.threadVaddr).map (· (Fin.ofNat 4096 (o - info.offset)))
  else none

/-- What an eviction does to the entry of its page, and to the bytes that are not in memory. -/
inductive PagedOut (s : Vm) (cur : Nat) (fe : FrameEntry) (s' : Vm) : Prop
  | swap (slot : Nat) (hnone : s.entry fe.owner fe.threadVaddr = none)
      (hentry : s.SetsEntry fe.owner fe.threadVaddr
        (some ⟨fe.threadVaddr, .lazy, .swapped, slot, none⟩) s')
      (hpage : swapPage s'.swapDevice slot = s.memory fe.page) (hfile : s'.file = s.file)
  | file (pt : PtSupplEntry) (info : PtSupplFileInfo)
      (hpt : s.entry fe.owner fe.threadVaddr = some pt) (hinfo : pt.fileInfo = some info)
      (hentry : s.SetsEntry fe.owner fe.threadVaddr
        (some { pt with type := .mmf, presence := .unloaded }) s')
      (hfile : ∀ f o, (s'.file f)[o]? = (s.storedByte cur fe info f o).or (s.file f)[o]?)

end Vm

theorem RaceEvent.written_evicts (data : PageData) (n m : Nat) :
    written data (beforeStep n (List.replicate m evict)) = data := by
  induction m generalizing n with
  | zero => cases n <;> rfl
  | succ m ih =>
    cases n with
    | zero => rfl
    | succ n => exact ih n

/-- A page without an entry is in swap after its eviction. -/
theorem pageOutEvictedFrame_parked (hresident : s.mapped fe.owner fe.threadVaddr = some fe.page)
    (hnone : s.entry fe.owner fe.threadVaddr = none)
    (h : pageOutEvictedFrame cur fe s = .ok ((), s')) :
    ∃ slot, s'.Parked fe.owner fe.threadVaddr slot (s.memory fe.page) := by
  obtain ⟨as, slot, hrun⟩ := (pageOutSteps_iff cur hnone).mpr h
  replace hrun : Routine.execAll (RaceEvent.exec fe) (List.replicate 10 .evict ++ [.evict])
      ⟨s, .takeSlot⟩ = .ok (as, ⟨s', .done slot⟩) := hrun
  obtain ⟨-, hparked⟩ := parked_of_run hresident hrun
  refine ⟨slot, hparked.entry, hparked.used, ?_⟩
  rw [hparked.contents]
  funext i
  rw [RaceEvent.written_evicts]

/-- A write-back within the file stores the bytes that the evicting process sees. -/
theorem writeBackMmf_file {pt : PtSupplEntry} {info : PtSupplFileInfo}
    (hvaddr : pt.vaddr = fe.threadVaddr) (hsize : info.readBytes ≤ 4096)
    (hwithin : info.offset + info.readBytes ≤ (s.file info.file).length)
    (h : writeBackMmf cur fe pt info s = .ok ((), s')) (f o : Nat) :
    (s'.file f)[o]? = (s.storedByte cur fe info f o).or (s.file f)[o]? := by
  rcases writeBackMmf_ok h with ⟨hclean, rfl⟩ | ⟨hdirty, hwrite⟩
  · rw [Vm.storedByte, if_neg]
    · rfl
    · rw [hvaddr] at hclean
      simp [Vm.writesBack, hclean]
  · rcases fileWriteAt_ok hwrite with ⟨hnothing, rfl⟩ | ⟨hwrites, page, hpage, rfl⟩
    · rw [Vm.storedByte, if_neg]
      · rfl
      · rcases hnothing with hzero | hdenied
        · simp [Vm.writesBack, hzero]
        · simp [Vm.writesBack, hdenied]
    · rw [hvaddr] at hdirty hpage
      have hstores : s.writesBack fe info = true := by
        simpa [Vm.writesBack, hdirty] using hwrites
      have hsees : s.pageContents cur fe.threadVaddr = some (s.memory page) := by
        rw [Vm.pageContents, Vm.mapped, hpage]
        rfl
      rw [Vm.storedByte, hstores, hsees]
      show (Function.update s.file info.file (overwrite (s.file info.file)
        ((s.memory page).copyOut info.readBytes) info.offset) f)[o]? = _
      by_cases hf : f = info.file
      · subst hf
        have hlen := PageData.length_copyOut (s.memory page) hsize
        rw [Function.update_self, getElem?_overwrite (by rw [hlen]; exact hwithin), hlen]
        by_cases hin : info.offset ≤ o ∧ o < info.offset + info.readBytes
        · have hj : o - info.offset < info.readBytes := by omega
          rw [if_pos hin, if_pos ⟨rfl, rfl, hin⟩, PageData.getElem?_copyOut _ hj hsize]
          simp only [Option.map_some, Option.some_or, Option.some.injEq]
          congr 1
          exact Fin.ext (Nat.mod_eq_of_lt (by omega)).symm
        · rw [if_neg hin, if_neg fun hall => hin hall.2.2]
          rfl
      · rw [Function.update_of_ne hf, if_neg fun hall => hf hall.2.1]
        rfl

theorem pageOutEvictedFrame_out (hinv : s.InfosInv)
    (hresident : s.mapped fe.owner fe.threadVaddr = some fe.page)
    (h : pageOutEvictedFrame cur fe s = .ok ((), s')) :
    s.PagedOut cur fe s' ∧ s.SameTables s' := by
  have hparked := fun hnone => pageOutEvictedFrame_parked hresident hnone h
  rw [pageOutEvictedFrame, Routine.get_bind_apply] at h
  cases hpt : (s.process fe.owner).ptSuppl.get fe.threadVaddr with
  | none =>
    rw [hpt] at h
    obtain ⟨slot, s1, hout, h⟩ := Routine.bind_ok.mp h
    cases slot with
    | none => cases h
    | some slot =>
      obtain ⟨⟨⟩, s2, hput, h⟩ := Routine.bind_ok.mp h
      cases hput
      obtain ⟨swapBm, swapDevice, rfl⟩ := swapOut_ok hout
      have htables := pagedirClearPage_tables h
      obtain ⟨-, rfl⟩ := pagedirClearPage_ok h
      let e : PtSupplEntry := ⟨fe.threadVaddr, .lazy, .swapped, slot, none⟩
      have hput := Vm.setsEntry_put { s with swapBm, swapDevice } fe.owner e
      obtain ⟨slot', hslot⟩ := hparked hpt
      have hentry := hslot.entry
      rw [Vm.entry_setPagedir, hput, if_pos ⟨rfl, rfl⟩] at hentry
      obtain rfl : slot = slot' := congrArg PtSupplEntry.swapSlot (Option.some.inj hentry)
      refine ⟨.swap slot hpt (fun p v => ?_) hslot.contents rfl, ?_⟩
      · rw [Vm.entry_setPagedir, hput]
        rfl
      · have hbegin : s.SameTables { s with swapBm, swapDevice } := ⟨rfl, fun _ => rfl⟩
        exact (hbegin.trans (.setPtSuppl _ _ _)).trans htables
  | some pt =>
    rw [hpt] at h
    have hvaddr := (s.process fe.owner).ptSuppl.vaddr_eq hpt
    dsimp only at h
    split at h
    · rename_i htype
      cases hinfo : pt.fileInfo with
      | none =>
        rw [hinfo] at h
        cases h
      | some info =>
        rw [hinfo] at h
        dsimp only at h
        rw [← hinfo] at h
        obtain ⟨u, s1, hwrite, h⟩ := Routine.bind_ok.mp h
        obtain ⟨⟨⟩, s2, hput, h⟩ := Routine.bind_ok.mp h
        cases hput
        have htables := pagedirClearPage_tables h
        obtain ⟨-, rfl⟩ := pagedirClearPage_ok h
        have hput := Vm.setsEntry_put s1 fe.owner { pt with type := .mmf, presence := .unloaded }
        have hsize : info.readBytes ≤ 4096 := by
          have hfills := hinv.fills hpt hinfo
          unfold pgSize at hfills
          omega
        refine ⟨.file pt info hpt hinfo (fun p v => ?_) ?_, ?_⟩
        · rw [Vm.entry_setPagedir, hput, (writeBackMmf_same hwrite).entry]
          show (if p = fe.owner ∧ v = pt.vaddr then _ else _) = _
          rw [hvaddr]
        · have hfile := writeBackMmf_file hvaddr hsize (hinv.within hpt hinfo htype) hwrite
          exact hfile
        · exact ((writeBackMmf_tables hwrite).trans (.setPtSuppl _ _ _)).trans htables
    · cases h

/-- What finding a frame does to the processes and to the bytes they would read. -/
inductive FrameFound (s : Vm) (cur frm : Nat) (s1 : Vm) : Prop
  | free (hfree : s.HasFreePage) (hentry : ∀ p v, s1.entry p v = s.entry p v)
      (hmapped : ∀ p v, s1.mapped p v = s.mapped p v)
      (hmemory : ∀ page, page ≠ frm → s1.memory page = s.memory page)
      (hdevice : s1.swapDevice = s.swapDevice) (hfile : s1.file = s.file)
  | evicted (fe : FrameEntry) (hfull : ¬ s.HasFreePage) (hvictim : s.victim = some fe)
      (hresident : s.mapped fe.owner fe.threadVaddr = some fe.page) (hpage : fe.page = frm)
      (hout : s.PagedOut cur fe s1) (hunmaps : ∀ p u, s1.mapped p u =
        if p = fe.owner ∧ pgRoundDown u = fe.threadVaddr then none else s.mapped p u)
      (hmemory : s1.memory = s.memory)

/-- The choice of a frame makes no difference to what its eviction does. -/
theorem Vm.PagedOut.of_select {g : FrameEntry} (h : s1.PagedOut cur fe s')
    (hselect : selectFrameToEvict s = .ok (g, s1)) : s.PagedOut cur fe s' := by
  have hview := selectFrameToEvict_same hselect
  have hframes := selectFrameToEvict_frames hselect
  have hdirty := selectFrameToEvict_dirty hselect
  obtain ⟨process, rfl⟩ := selectFrameToEvict_process hselect
  cases h with
  | swap slot hnone hentry hpage hfile =>
    rw [hview.entry] at hnone
    exact .swap slot hnone (hentry.congr hview) hpage hfile
  | file pt info hpt hinfo hentry hfile =>
    rw [hview.entry] at hpt
    refine .file pt info hpt hinfo (hentry.congr hview) fun f o => ?_
    have hwrites : Vm.writesBack { s with process } fe info = s.writesBack fe info := by
      rw [Vm.writesBack, Vm.writesBack, hdirty]
    have hsees : Vm.pageContents { s with process } cur fe.threadVaddr =
        s.pageContents cur fe.threadVaddr := by
      rw [Vm.pageContents, Vm.pageContents, hframes.mapped]
    have hstored : Vm.storedByte { s with process } cur fe info f o =
        s.storedByte cur fe info f o := by
      rw [Vm.storedByte, Vm.storedByte, hwrites, hsees]
    rw [hfile, hstored]

theorem Vm.PagedOut.rename (h : s.PagedOut cur fe s') (frameHash : List FrameEntry) :
    s.PagedOut cur fe { s' with frameHash } := by
  cases h with
  | swap slot hnone hentry hpage hfile => exact .swap slot hnone hentry hpage hfile
  | file pt info hpt hinfo hentry hfile => exact .file pt info hpt hinfo hentry hfile

theorem vmFrameAlloc_found {order : List FrameEntry → List FrameEntry} {palZero : Bool} {v : Nat}
    (hinv : s.Sound) (h : vmFrameAlloc order cur palZero v s = .ok (frm, s')) :
    FrameFound s cur frm s' ∧ s.SameTables s' := by
  have hmemory := (vmFrameAlloc_memory hinv h).2
  rw [vmFrameAlloc, Routine.get_bind_apply] at h
  cases hscan : s.userPool.scanAndFlip 0 1 false with
  | none =>
    rw [hscan] at h
    dsimp only at h
    rw [evictAndGetFrame] at h
    obtain ⟨vict, s1, hselect, h⟩ := Routine.bind_ok.mp h
    obtain ⟨u, s2, hout, h⟩ := Routine.bind_ok.mp h
    obtain ⟨rfl, rfl⟩ := Prod.mk.inj (Except.ok.inj h)
    have hfull : ¬ s.HasFreePage := by
      intro hfree
      obtain ⟨r, hr⟩ := scanAndFlip_of_free hfree
      rw [hscan] at hr
      cases hr
    have hmem := (selectFrameToEvict_ok (p := cur) (Nat.zero_mod pgSize) hselect).1
    have hresident := (hinv.frames.backed vict hmem id).2
    have hframes := selectFrameToEvict_frames hselect
    have hinfos := (selectFrameToEvict_infos hselect).keeps hinv.infos
    have hresident1 : s1.mapped vict.owner vict.threadVaddr = some vict.page := by
      rw [hframes.mapped]
      exact hresident
    obtain ⟨hpaged, htables⟩ := pageOutEvictedFrame_out hinfos hresident1 hout
    have hunmaps := (pageOutEvictedFrame_unmaps hout).2
    have hkept : s2.memory = s.memory := by
      rcases hmemory with ⟨hfree, -⟩ | ⟨-, -, hkept⟩
      · exact absurd hfree hfull
      · exact hkept
    refine ⟨.evicted vict hfull (Vm.selectFrameToEvict_victim hinv.frames hselect) hresident rfl
      ((hpaged.of_select hselect).rename _) (fun p u => ?_) hkept, ?_⟩
    · exact (hunmaps.mapped p u).trans (by rw [hframes.mapped])
    · have htables' := (selectFrameToEvict_tables hselect).trans htables
      exact ⟨htables'.kernelPages, htables'.pde⟩
  | some r =>
    rw [hscan] at h
    obtain ⟨rfl, rfl⟩ := Prod.mk.inj (Except.ok.inj h)
    rw [Bitmap.scanAndFlip, Option.map_eq_some_iff] at hscan
    obtain ⟨i, hscan, rfl⟩ := hscan
    obtain ⟨hlt, hbit⟩ := Bitmap.scan_one hscan
    refine ⟨.free ⟨i, hlt, hbit⟩ (fun _ _ => rfl) (fun _ _ => rfl) (fun page hpage => ?_) rfl rfl,
      rfl, fun _ => rfl⟩
    cases palZero with
    | true => exact Function.update_of_ne hpage _ _
    | false => rfl

end Pintos
