import Pintos.Vm.Page

/-! What the routines of virtual memory do to one page of one process: to its supplemental entry and
to the permission it is mapped with.  Most routines keep both; an eviction may take the page out, and
the lemma for each routine says which. -/

namespace Pintos

theorem pgRoundDown_of_aligned {v : Nat} (h : v % pgSize = 0) : pgRoundDown v = v := by
  unfold pgRoundDown
  have := Nat.div_add_mod v pgSize
  rw [h, Nat.mul_comm] at this
  omega

theorem pgRoundDown_aligned (v : Nat) : pgRoundDown v % pgSize = 0 := Nat.mul_mod_left _ _

namespace Pagedir

variable {pd pd' : Pagedir} {pg : Nat}

/-- `pd'` maps the page `pg` with the permission it has in `pd`, and keeps its page table. -/
structure Keeps (pg : Nat) (pd pd' : Pagedir) : Prop where
  permission : pd'.permission pg = pd.permission pg
  pde : pd.pde (pdNo pg) = true → pd'.pde (pdNo pg) = true

theorem Keeps.refl (pg : Nat) (pd : Pagedir) : pd.Keeps pg pd := ⟨rfl, id⟩

theorem permission_eq (pd : Pagedir) (hpg : pg % pgSize = 0) :
    pd.permission pg = if pd.pde (pdNo pg) = true ∧ (pd.pte pg).present = true then
      some (pd.pte pg).writable else none := by
  rw [permission, lookupPage, pgRoundDown_of_aligned hpg]
  cases pd.pde (pdNo pg) <;> simp

theorem keeps_of_pte (hpg : pg % pgSize = 0) (hpde : pd'.pde = pd.pde)
    (hpresent : (pd'.pte pg).present = (pd.pte pg).present)
    (hwritable : (pd'.pte pg).writable = (pd.pte pg).writable) : pd.Keeps pg pd' := by
  refine ⟨?_, fun h => by rwa [hpde]⟩
  rw [permission_eq pd hpg, permission_eq pd' hpg, hpde, hpresent, hwritable]

/-- A change of accessed and dirty bits keeps every permission. -/
theorem modifyPte_keeps (pd : Pagedir) (hpg : pg % pgSize = 0) (v : Nat) {f : Pte → Pte}
    (hf : ∀ pte, (f pte).present = pte.present ∧ (f pte).writable = pte.writable) :
    pd.Keeps pg (pd.modifyPte v f) := by
  unfold modifyPte
  split
  · by_cases hv : pg = pgRoundDown v
    · apply keeps_of_pte hpg
      · rfl
      · simp [← hv, (hf (pd.pte pg)).1]
      · simp [← hv, (hf (pd.pte pg)).2]
    · apply keeps_of_pte hpg <;> simp [Function.update_of_ne hv]
  · exact Keeps.refl pg pd

theorem touch_keeps (pd : Pagedir) (hpg : pg % pgSize = 0) (v : Nat) (write : Bool) :
    pd.Keeps pg (pd.touch v write) :=
  modifyPte_keeps pd hpg v fun _ => ⟨rfl, rfl⟩

theorem setAccessed_keeps (pd : Pagedir) (hpg : pg % pgSize = 0) (v : Nat) (accessed : Bool) :
    pd.Keeps pg (pd.setAccessed v accessed) :=
  modifyPte_keeps pd hpg v fun _ => ⟨rfl, rfl⟩

theorem clearPage_keeps (pd : Pagedir) (hpg : pg % pgSize = 0) {v : Nat} (hv : v % pgSize = 0)
    (hne : pg ≠ v) : pd.Keeps pg (pd.clearPage v) := by
  unfold clearPage modifyPte
  rw [pgRoundDown_of_aligned hv]
  split
  · apply keeps_of_pte hpg <;> simp [Function.update_of_ne hne]
  · exact Keeps.refl pg pd

theorem clearPage_self (pd : Pagedir) (hpg : pg % pgSize = 0) :
    (pd.clearPage pg).permission pg = none ∧
      (pd.pde (pdNo pg) = true → (pd.clearPage pg).pde (pdNo pg) = true) := by
  unfold clearPage modifyPte
  rw [pgRoundDown_of_aligned hpg]
  split
  · refine ⟨?_, id⟩
    rw [permission_eq _ hpg]
    simp
  · rename_i hpde
    refine ⟨?_, id⟩
    rw [permission_eq _ hpg]
    simp [hpde]

/-- What `pagedir_set_page` does when it succeeds: the page is mapped as asked and no other page
changes. -/
theorem setPage_some {freePages kernelPages upage kpage : Nat} {writable : Bool}
    (h : pd.setPage freePages upage kpage writable = .ok (some (kernelPages, pd'))) :
    upage % pgSize = 0 ∧ pd'.permission upage = some writable ∧
      ∀ pg, pg % pgSize = 0 → pg ≠ upage → pd.Keeps pg pd' := by
  simp only [setPage] at h
  split at h
  · cases h
  rename_i halign
  have halign : upage % pgSize = 0 := not_not.mp halign
  split at h
  · cases h
  split at h
  · rename_i hpde
    split at h
    · cases h
    · cases h
      refine ⟨halign, ?_, fun pg hpg hne => ?_⟩
      · rw [permission_eq _ halign]
        simp [hpde]
      · apply keeps_of_pte hpg <;> simp [Function.update_of_ne hne]
  · rename_i hpde
    split at h
    · cases h
    · cases h
      refine ⟨halign, ?_, fun pg hpg hne => ?_⟩
      · rw [permission_eq _ halign]
        simp
      · by_cases hregion : pdNo pg = pdNo upage
        · refine ⟨?_, fun _ => by simp [hregion]⟩
          rw [permission_eq _ hpg, permission_eq _ hpg]
          simp [Function.update_of_ne hne, hregion, hpde, zeroPte]
        · refine ⟨?_, fun h => by simpa [Function.update_of_ne hregion] using h⟩
          rw [permission_eq _ hpg, permission_eq _ hpg]
          simp [Function.update_of_ne hne, hregion]

/-- `pagedir_set_page` finds the page table of a page that has one. -/
theorem setPage_ne_none {freePages upage kpage : Nat} {writable : Bool}
    (hpde : pd.pde (pdNo upage) = true) :
    pd.setPage freePages upage kpage writable ≠ .ok none := by
  simp only [setPage, hpde, if_true]
  split
  · nofun
  split
  · nofun
  split <;> nofun

end Pagedir

namespace Vm

/-- The supplemental entry of page `pg` of process `p`. -/
def entry (s : Vm) (p pg : Nat) : Option PtSupplEntry := (s.process p).ptSuppl.get pg

/-- The permission with which page `pg` of process `p` is mapped, if it is present. -/
def permission (s : Vm) (p pg : Nat) : Option Bool := (s.process p).pagedir.permission pg

/-- Nothing about page `pg` of process `p` changes from `s` to `s'`. -/
structure Keeps (p pg : Nat) (s s' : Vm) : Prop where
  entry : s'.entry p pg = s.entry p pg
  pagedir : (s.process p).pagedir.Keeps pg (s'.process p).pagedir

variable {p pg cur : Nat} {s s' s1 s2 : Vm}

theorem Keeps.refl (p pg : Nat) (s : Vm) : s.Keeps p pg s := ⟨rfl, Pagedir.Keeps.refl _ _⟩

theorem Keeps.trans (h1 : s.Keeps p pg s1) (h2 : s1.Keeps p pg s2) : s.Keeps p pg s2 where
  entry := h2.entry.trans h1.entry
  pagedir :=
    ⟨h2.pagedir.permission.trans h1.pagedir.permission,
      fun h => h2.pagedir.pde (h1.pagedir.pde h)⟩

theorem Keeps.permission (h : s.Keeps p pg s') : s'.permission p pg = s.permission p pg :=
  h.pagedir.permission

/-- A step that leaves the processes alone. -/
theorem keeps_of_process (h : s'.process = s.process) : s.Keeps p pg s' := by
  refine ⟨?_, ?_⟩
  · rw [Vm.entry, Vm.entry, h]
  · rw [h]
    exact Pagedir.Keeps.refl _ _

@[simp] theorem setPagedir_process_self (s : Vm) (p : Nat) (pd : Pagedir) :
    (s.setPagedir p pd).process p = { s.process p with pagedir := pd } := by
  simp [setPagedir, setProcess]

theorem setPagedir_process_ne (s : Vm) {p q : Nat} (h : p ≠ q) (pd : Pagedir) :
    (s.setPagedir q pd).process p = s.process p := by
  simp [setPagedir, setProcess, h]

@[simp] theorem setPtSuppl_process_self (s : Vm) (p : Nat) (table : PtSuppl) :
    (s.setPtSuppl p table).process p = { s.process p with ptSuppl := table } := by
  simp [setPtSuppl, setProcess]

theorem setPtSuppl_process_ne (s : Vm) {p q : Nat} (h : p ≠ q) (table : PtSuppl) :
    (s.setPtSuppl q table).process p = s.process p := by
  simp [setPtSuppl, setProcess, h]

theorem setPagedir_keeps {pd : Pagedir} (h : p = cur → (s.process p).pagedir.Keeps pg pd) :
    s.Keeps p pg (s.setPagedir cur pd) := by
  by_cases hp : p = cur
  · subst hp
    refine ⟨?_, ?_⟩
    · simp [Vm.entry]
    · rw [setPagedir_process_self]
      exact h rfl
  · refine ⟨?_, ?_⟩
    · rw [Vm.entry, Vm.entry, setPagedir_process_ne s hp]
    · rw [setPagedir_process_ne s hp]
      exact Pagedir.Keeps.refl _ _

theorem setPtSuppl_keeps {table : PtSuppl} (h : p = cur → table.get pg = s.entry p pg) :
    s.Keeps p pg (s.setPtSuppl cur table) := by
  by_cases hp : p = cur
  · subst hp
    refine ⟨?_, ?_⟩
    · rw [Vm.entry, setPtSuppl_process_self]
      exact h rfl
    · rw [setPtSuppl_process_self]
      exact Pagedir.Keeps.refl _ _
  · refine ⟨?_, ?_⟩
    · rw [Vm.entry, Vm.entry, setPtSuppl_process_ne s hp]
    · rw [setPtSuppl_process_ne s hp]
      exact Pagedir.Keeps.refl _ _

end Vm

/-! ### Swap -/

variable {p pg cur : Nat} {s s' : Vm}

theorem swapOutLoop_process {slot : Nat} {data : PageData} {iters : List Nat}
    (h : swapOutLoop slot data iters s = .ok ((), s')) : s'.process = s.process := by
  induction iters generalizing s with
  | nil =>
    cases h
    rfl
  | cons iter iters ih =>
    rw [swapOutLoop, List.forM_eq_forM, List.forM_cons] at h
    obtain ⟨u, s1, h1, h⟩ := Routine.bind_ok.mp h
    rw [Routine.get_bind_apply] at h1
    obtain ⟨dev, s2, h2, h1⟩ := Routine.bind_ok.mp h1
    obtain rfl := Routine.lift_state h2
    cases h1
    rw [ih h]

theorem swapOut_process {data : PageData} {slot : Option Nat}
    (h : swapOut data s = .ok (slot, s')) : s'.process = s.process := by
  rw [swapOut, Routine.get_bind_apply] at h
  rcases hscan : s.swapBm.scanAndFlip 0 1 true with _ | ⟨i, bm⟩
  · rw [hscan] at h
    cases h
    rfl
  · rw [hscan] at h
    obtain ⟨⟨⟩, s0, hset, h⟩ := Routine.bind_ok.mp h
    cases hset
    obtain ⟨u, s1, h1, h⟩ := Routine.bind_ok.mp h
    cases h
    have hloop := swapOutLoop_process h1
    exact hloop

theorem swapInLoop_keeps (hpg : pg % pgSize = 0) {slot vaddr : Nat} {iters : List Nat}
    (h : swapInLoop cur slot vaddr iters s = .ok ((), s')) : s.Keeps p pg s' := by
  induction iters generalizing s with
  | nil =>
    cases h
    exact Vm.Keeps.refl p pg _
  | cons iter iters ih =>
    rw [swapInLoop, List.forM_eq_forM, List.forM_cons] at h
    obtain ⟨u, s1, h1, h⟩ := Routine.bind_ok.mp h
    rw [Routine.get_bind_apply] at h1
    obtain ⟨data, s2, h2, h1⟩ := Routine.bind_ok.mp h1
    obtain rfl := Routine.lift_state h2
    cases hpage : (s2.process cur).pagedir.getPage vaddr with
    | none =>
      rw [hpage] at h1
      cases h1
    | some page =>
      rw [hpage] at h1
      cases h1
      refine Vm.Keeps.trans ?_ (ih h)
      refine Vm.Keeps.trans (Vm.setPagedir_keeps (fun hp : p = cur => ?_))
        (Vm.keeps_of_process rfl)
      rw [hp]
      exact Pagedir.touch_keeps _ hpg vaddr true

theorem swapIn_keeps (hpg : pg % pgSize = 0) {slot vaddr : Nat}
    (h : swapIn cur slot vaddr s = .ok ((), s')) : s.Keeps p pg s' := by
  rw [swapIn] at h
  obtain ⟨u, s1, h1, h⟩ := Routine.bind_ok.mp h
  cases h
  exact (swapInLoop_keeps hpg h1).trans (Vm.keeps_of_process rfl)

/-! ### Eviction -/

/-- What the clearing of one accessed bit keeps, a pass over the frame table keeps. -/
theorem selectSweep_rel {R : Vm → Vm → Prop}
    (hclear : ∀ (s : Vm) (fe : FrameEntry) {t : Vm}, R (s.setPagedir fe.owner
      ((s.process fe.owner).pagedir.setAccessed fe.threadVaddr false)) t → R s t)
    (fes : List FrameEntry) {s t : Vm} (h : R (selectSweep fes s).1 t) : R s t := by
  induction fes generalizing s with
  | nil => exact h
  | cons fe fes ih =>
    rw [selectSweep] at h
    split at h
    · exact hclear s fe (ih h)
    · exact h

/-- What the clearing of one accessed bit keeps, the choice of a frame keeps. -/
theorem selectFrameToEvict_rel {R : Vm → Vm → Prop} (hrefl : ∀ s, R s s)
    (hclear : ∀ (s : Vm) (fe : FrameEntry) {t : Vm}, R (s.setPagedir fe.owner
      ((s.process fe.owner).pagedir.setAccessed fe.threadVaddr false)) t → R s t)
    {fe : FrameEntry} (h : selectFrameToEvict s = .ok (fe, s')) : R s s' := by
  rw [selectFrameToEvict, Routine.get_bind_apply] at h
  refine selectSweep_rel hclear s.frameHash ?_
  rcases hsweep : selectSweep s.frameHash s with ⟨s1, _ | fe1⟩
  · rw [hsweep] at h
    dsimp only at h ⊢
    refine selectSweep_rel hclear s1.frameHash ?_
    rcases hsweep2 : selectSweep s1.frameHash s1 with ⟨s2, _ | fe2⟩
    · rw [hsweep2] at h
      cases h
    · rw [hsweep2] at h
      cases h
      exact hrefl _
  · rw [hsweep] at h
    cases h
    exact hrefl _

theorem selectSweep_keeps (hpg : pg % pgSize = 0) (fes : List FrameEntry) (s : Vm) :
    s.Keeps p pg (selectSweep fes s).1 := by
  induction fes generalizing s with
  | nil => exact Vm.Keeps.refl p pg s
  | cons fe fes ih =>
    rw [selectSweep]
    split
    · refine Vm.Keeps.trans (Vm.setPagedir_keeps fun hp => ?_) (ih _)
      rw [hp]
      exact Pagedir.setAccessed_keeps _ hpg fe.threadVaddr false
    · exact Vm.Keeps.refl p pg s

theorem selectSweep_mem {fes : List FrameEntry} {s s' : Vm} {fe : FrameEntry}
    (h : selectSweep fes s = (s', some fe)) : fe ∈ fes := by
  induction fes generalizing s with
  | nil => cases h
  | cons fe' fes ih =>
    rw [selectSweep] at h
    split at h
    · exact List.mem_cons_of_mem _ (ih h)
    · cases h
      exact List.mem_cons_self

theorem selectSweep_frameHash (fes : List FrameEntry) (s : Vm) :
    (selectSweep fes s).1.frameHash = s.frameHash := by
  induction fes generalizing s with
  | nil => rfl
  | cons fe fes ih =>
    rw [selectSweep]
    split
    · rw [ih]
      rfl
    · rfl

theorem selectFrameToEvict_ok (hpg : pg % pgSize = 0) {fe : FrameEntry}
    (h : selectFrameToEvict s = .ok (fe, s')) :
    fe ∈ s.frameHash ∧ s'.frameHash = s.frameHash ∧ s.Keeps p pg s' := by
  rw [selectFrameToEvict, Routine.get_bind_apply] at h
  have h1 := selectSweep_keeps (p := p) hpg s.frameHash s
  have hhash1 := selectSweep_frameHash s.frameHash s
  rcases hsweep : selectSweep s.frameHash s with ⟨s1, _ | fe1⟩
  · rw [hsweep] at h h1 hhash1
    dsimp only at h
    have h2 := selectSweep_keeps (p := p) hpg s1.frameHash s1
    have hhash2 := selectSweep_frameHash s1.frameHash s1
    rcases hsweep2 : selectSweep s1.frameHash s1 with ⟨s2, _ | fe2⟩
    · rw [hsweep2] at h
      cases h
    · rw [hsweep2] at h h2 hhash2
      cases h
      exact ⟨hhash1 ▸ selectSweep_mem hsweep2, hhash2.trans hhash1, h1.trans h2⟩
  · rw [hsweep] at h h1 hhash1
    cases h
    exact ⟨selectSweep_mem hsweep, hhash1, h1⟩

/-- What an eviction does to page `pg` of process `p`.  The page is taken out only if some frame
names it. -/
inductive PageOut (p pg : Nat) (s s' : Vm) : Prop where
  | keeps (h : s.Keeps p pg s')
  | anonymous (slot : Nat) (hframe : ∃ fe ∈ s.frameHash, fe.owner = p ∧ fe.threadVaddr = pg)
      (hnone : s.entry p pg = none)
      (hentry : s'.entry p pg = some ⟨pg, .lazy, .swapped, slot, none⟩)
      (hperm : s'.permission p pg = none)
      (hpde : (s.process p).pagedir.pde (Pagedir.pdNo pg) = true →
        (s'.process p).pagedir.pde (Pagedir.pdNo pg) = true)
  | mmf (pt : PtSupplEntry) (hframe : ∃ fe ∈ s.frameHash, fe.owner = p ∧ fe.threadVaddr = pg)
      (hpt : s.entry p pg = some pt) (htype : pt.type = .mmf)
      (hentry : s'.entry p pg = some { pt with type := .mmf, presence := .unloaded })
      (hperm : s'.permission p pg = none)

/-- Reading from user memory marks the page accessed. -/
theorem userBytes_ok {vaddr size : Nat} {buffer : List UInt8}
    (h : userBytes cur vaddr size s = .ok (buffer, s')) :
    ∃ page, (s.process cur).pagedir.getPage vaddr = some page ∧
      buffer = (s.memory page).copyOut size ∧
      s' = s.setPagedir cur ((s.process cur).pagedir.touch vaddr false) := by
  rw [userBytes, Routine.get_bind_apply] at h
  cases hpage : (s.process cur).pagedir.getPage vaddr with
  | some page =>
    rw [hpage] at h
    cases h
    exact ⟨page, rfl, rfl, rfl⟩
  | none =>
    rw [hpage] at h
    dsimp only at h
    split at h <;> cases h

/-- A write to a file changes the bytes of the file and the accessed bit of the page it comes
from. -/
theorem fileWriteAt_ok {file vaddr size offset : Nat}
    (h : fileWriteAt cur file vaddr size offset s = .ok ((), s')) :
    ((size = 0 ∨ s.denyWrite file = true) ∧ s' = s) ∨
      ¬ (size = 0 ∨ s.denyWrite file = true) ∧
        ∃ page, (s.process cur).pagedir.getPage vaddr = some page ∧
          s' = { s.setPagedir cur ((s.process cur).pagedir.touch vaddr false) with
            file := Function.update s.file file
              (overwrite (s.file file) ((s.memory page).copyOut size) offset) } := by
  rw [fileWriteAt, Routine.get_bind_apply] at h
  split at h
  · rename_i hnothing
    cases h
    exact .inl ⟨hnothing, rfl⟩
  · rename_i hwrites
    obtain ⟨buffer, s1, hbytes, h⟩ := Routine.bind_ok.mp h
    cases h
    obtain ⟨page, hpage, rfl, rfl⟩ := userBytes_ok hbytes
    exact .inr ⟨hwrites, page, hpage, rfl⟩

theorem writeBackMmf_ok {fe : FrameEntry} {pt : PtSupplEntry} {info : PtSupplFileInfo}
    (h : writeBackMmf cur fe pt info s = .ok ((), s')) :
    (((s.process fe.owner).pagedir.isDirty pt.vaddr = false ∧ s' = s) ∨
      (s.process fe.owner).pagedir.isDirty pt.vaddr = true ∧
        fileWriteAt cur info.file pt.vaddr info.readBytes info.offset s = .ok ((), s')) := by
  rw [writeBackMmf, Routine.get_bind_apply] at h
  split at h
  · rename_i hdirty
    exact .inr ⟨hdirty, h⟩
  · rename_i hclean
    cases h
    exact .inl ⟨Bool.eq_false_iff.mpr hclean, rfl⟩

theorem fileWriteAt_keeps (hpg : pg % pgSize = 0) {file vaddr size offset : Nat}
    (h : fileWriteAt cur file vaddr size offset s = .ok ((), s')) : s.Keeps p pg s' := by
  rcases fileWriteAt_ok h with ⟨-, rfl⟩ | ⟨-, page, -, rfl⟩
  · exact Vm.Keeps.refl p pg _
  · refine Vm.Keeps.trans (Vm.setPagedir_keeps fun hp : p = cur => ?_) (Vm.keeps_of_process rfl)
    rw [hp]
    exact Pagedir.touch_keeps _ hpg vaddr false

theorem writeBackMmf_keeps (hpg : pg % pgSize = 0) {fe : FrameEntry} {pt : PtSupplEntry}
    {info : PtSupplFileInfo} (h : writeBackMmf cur fe pt info s = .ok ((), s')) :
    s.Keeps p pg s' := by
  rcases writeBackMmf_ok h with ⟨-, rfl⟩ | ⟨-, hwrite⟩
  · exact Vm.Keeps.refl p pg _
  · exact fileWriteAt_keeps hpg hwrite

theorem pagedirClearPage_ok {q upage : Nat} (h : pagedirClearPage q upage s = .ok ((), s')) :
    upage % pgSize = 0 ∧
      s' = s.setPagedir q ((s.process q).pagedir.clearPage upage) := by
  rw [pagedirClearPage] at h
  split at h
  · cases h
  · rename_i halign
    beta_reduce at h
    split at h
    · cases h
    · cases h
      exact ⟨not_not.mp halign, rfl⟩

/-- The end of a page-out: the entry is stored and its page is no longer present. -/
def Vm.takeOut (s : Vm) (q : Nat) (e : PtSupplEntry) : Vm :=
  let s := s.setPtSuppl q ((s.process q).ptSuppl.put e)
  s.setPagedir q ((s.process q).pagedir.clearPage e.vaddr)

theorem Vm.takeOut_self (s : Vm) (q : Nat) {e : PtSupplEntry} (h : e.vaddr % pgSize = 0) :
    (s.takeOut q e).entry q e.vaddr = some e ∧ (s.takeOut q e).permission q e.vaddr = none ∧
      ((s.process q).pagedir.pde (Pagedir.pdNo e.vaddr) = true →
        ((s.takeOut q e).process q).pagedir.pde (Pagedir.pdNo e.vaddr) = true) := by
  have hclear := Pagedir.clearPage_self (s.process q).pagedir h
  refine ⟨?_, ?_, fun hpde => ?_⟩
  · simp [Vm.entry, takeOut, PtSuppl.put_get]
  · simpa [Vm.permission, takeOut] using hclear.1
  · simpa [takeOut] using hclear.2 hpde

theorem Vm.takeOut_keeps (hpg : pg % pgSize = 0) (s : Vm) (q : Nat) {e : PtSupplEntry}
    (h : e.vaddr % pgSize = 0) (hne : ¬ (q = p ∧ e.vaddr = pg)) :
    s.Keeps p pg (s.takeOut q e) := by
  unfold takeOut
  refine Vm.Keeps.trans (Vm.setPtSuppl_keeps fun hp => ?_) (Vm.setPagedir_keeps fun hp => ?_)
  · subst hp
    rw [PtSuppl.put_get, if_neg fun hv => hne ⟨rfl, hv.symm⟩]
    rfl
  · subst hp
    exact Pagedir.clearPage_keeps _ hpg h fun hv => hne ⟨rfl, hv.symm⟩

theorem pageOutEvictedFrame_ok (hpg : pg % pgSize = 0) {fe : FrameEntry}
    (hfe : fe ∈ s.frameHash) (h : pageOutEvictedFrame cur fe s = .ok ((), s')) :
    PageOut p pg s s' := by
  rw [pageOutEvictedFrame, Routine.get_bind_apply] at h
  cases hpt : (s.process fe.owner).ptSuppl.get fe.threadVaddr with
  | none =>
    rw [hpt] at h
    obtain ⟨slot, s1, hout, h⟩ := Routine.bind_ok.mp h
    have hprocess := swapOut_process hout
    cases slot with
    | none => cases h
    | some slot =>
      simp only [Routine.modify_bind_apply] at h
      obtain ⟨halign, rfl⟩ := pagedirClearPage_ok h
      let e : PtSupplEntry := ⟨fe.threadVaddr, .lazy, .swapped, slot, none⟩
      by_cases hsame : fe.owner = p ∧ fe.threadVaddr = pg
      · obtain ⟨rfl, rfl⟩ := hsame
        obtain ⟨hentry, hperm, hpde⟩ := Vm.takeOut_self s1 fe.owner (e := e) halign
        rw [hprocess] at hpde
        exact .anonymous slot ⟨fe, hfe, rfl, rfl⟩ hpt hentry hperm hpde
      · exact .keeps ((Vm.keeps_of_process hprocess).trans
          (Vm.takeOut_keeps hpg s1 fe.owner (e := e) halign hsame))
  | some pt =>
    rw [hpt] at h
    have hvaddr := (s.process fe.owner).ptSuppl.vaddr_eq hpt
    dsimp only at h
    split at h
    · rename_i htype
      cases hinfo : pt.fileInfo with
      | none =>
        rw [hinfo] at h
        cases h
      | some info =>
        rw [hinfo] at h
        dsimp only at h
        rw [← hinfo] at h
        obtain ⟨u, s1, hwrite, h⟩ := Routine.bind_ok.mp h
        have hkeeps : s.Keeps p pg s1 := writeBackMmf_keeps hpg hwrite
        simp only [Routine.modify_bind_apply] at h
        obtain ⟨halign, rfl⟩ := pagedirClearPage_ok h
        let e : PtSupplEntry := { pt with type := .mmf, presence := .unloaded }
        by_cases hsame : fe.owner = p ∧ fe.threadVaddr = pg
        · obtain ⟨rfl, rfl⟩ := hsame
          obtain ⟨hentry, hperm, -⟩ := Vm.takeOut_self s1 fe.owner (e := e) halign
          rw [show e.vaddr = fe.threadVaddr from hvaddr] at hentry hperm
          exact .mmf pt ⟨fe, hfe, rfl, rfl⟩ hpt htype hentry hperm
        · exact .keeps (hkeeps.trans (Vm.takeOut_keeps hpg s1 fe.owner (e := e) halign
            fun he => hsame ⟨he.1, hvaddr.symm.trans he.2⟩))
    · cases h

theorem PageOut.trans_keeps {s1 s2 : Vm} (h : PageOut p pg s s1) (h2 : s1.Keeps p pg s2) :
    PageOut p pg s s2 := by
  cases h with
  | keeps h => exact .keeps (h.trans h2)
  | anonymous slot hframe hnone hentry hperm hpde =>
    exact .anonymous slot hframe hnone (h2.entry.trans hentry) (h2.permission.trans hperm)
      fun h => h2.pagedir.pde (hpde h)
  | mmf pt hframe hpt htype hentry hperm =>
    exact .mmf pt hframe hpt htype (h2.entry.trans hentry) (h2.permission.trans hperm)

theorem PageOut.of_keeps {s1 s2 : Vm} (h : s.Keeps p pg s1) (hhash : s1.frameHash = s.frameHash)
    (h2 : PageOut p pg s1 s2) : PageOut p pg s s2 := by
  cases h2 with
  | keeps h2 => exact .keeps (h.trans h2)
  | anonymous slot hframe hnone hentry hperm hpde =>
    rw [hhash] at hframe
    exact .anonymous slot hframe (h.entry.symm.trans hnone) hentry hperm
      fun hp => hpde (h.pagedir.pde hp)
  | mmf pt hframe hpt htype hentry hperm =>
    rw [hhash] at hframe
    exact .mmf pt hframe (h.entry.symm.trans hpt) htype hentry hperm

theorem evictAndGetFrame_ok (hpg : pg % pgSize = 0) {vaddr frm : Nat}
    (h : evictAndGetFrame cur vaddr s = .ok (frm, s')) : PageOut p pg s s' := by
  rw [evictAndGetFrame] at h
  obtain ⟨vict, s1, hselect, h⟩ := Routine.bind_ok.mp h
  obtain ⟨u, s2, hout, h⟩ := Routine.bind_ok.mp h
  cases h
  obtain ⟨hmem, hhash, hkeeps⟩ := selectFrameToEvict_ok (p := p) hpg hselect
  refine .of_keeps hkeeps hhash ((pageOutEvictedFrame_ok hpg ?_ hout).trans_keeps
    (Vm.keeps_of_process rfl))
  rwa [hhash]

theorem vmFrameAlloc_ok (hpg : pg % pgSize = 0) {order : List FrameEntry → List FrameEntry}
    {palZero : Bool} {vaddr frm : Nat}
    (h : vmFrameAlloc order cur palZero vaddr s = .ok (frm, s')) : PageOut p pg s s' := by
  rw [vmFrameAlloc, Routine.get_bind_apply] at h
  rcases hscan : s.userPool.scanAndFlip 0 1 false with _ | ⟨page, pool⟩
  · rw [hscan] at h
    exact evictAndGetFrame_ok hpg h
  · rw [hscan] at h
    cases h
    exact .keeps (Vm.keeps_of_process rfl)

/-! ### Mapping a page -/

theorem pagedirSetPage_keeps (hpg : pg % pgSize = 0) {upage kpage : Nat} {writable b : Bool}
    (hne : ¬ (cur = p ∧ upage = pg)) (h : pagedirSetPage cur upage kpage writable s = .ok (b, s')) :
    s.Keeps p pg s' := by
  rw [pagedirSetPage, Routine.get_bind_apply] at h
  obtain ⟨r, s1, hset, h⟩ := Routine.bind_ok.mp h
  have hset1 := Routine.lift_ok hset
  obtain rfl := Routine.lift_state hset
  cases r with
  | none =>
    cases h
    exact Vm.Keeps.refl p pg _
  | some r =>
    cases h
    obtain ⟨halign, -, hother⟩ := Pagedir.setPage_some hset1
    have hpages : s1.Keeps p pg { s1 with kernelPages := r.1 } := Vm.keeps_of_process rfl
    refine hpages.trans (Vm.setPagedir_keeps fun hp => ?_)
    subst hp
    exact hother pg hpg fun hv => hne ⟨rfl, hv.symm⟩

theorem pagedirSetPage_self {kpage : Nat} {writable b : Bool}
    (h : pagedirSetPage p pg kpage writable s = .ok (b, s')) :
    if b then s'.entry p pg = s.entry p pg ∧ s'.permission p pg = some writable
    else s' = s ∧ (s.process p).pagedir.pde (Pagedir.pdNo pg) = false := by
  rw [pagedirSetPage, Routine.get_bind_apply] at h
  obtain ⟨r, s1, hset, h⟩ := Routine.bind_ok.mp h
  have hset1 := Routine.lift_ok hset
  obtain rfl := Routine.lift_state hset
  cases r with
  | none =>
    cases h
    refine ⟨rfl, ?_⟩
    by_contra hpde
    exact Pagedir.setPage_ne_none (by simpa using hpde) hset1
  | some r =>
    cases h
    obtain ⟨-, hperm, -⟩ := Pagedir.setPage_some hset1
    exact ⟨by simp [Vm.entry], by simpa [Vm.permission] using hperm⟩

theorem vmFrameFree_process {page : Nat} (h : vmFrameFree page s = .ok ((), s')) :
    s'.process = s.process := by
  cases h
  rfl

theorem ptSupplLoaded_keeps {e : PtSupplEntry} (hne : ¬ (cur = p ∧ e.vaddr = pg))
    (h : ptSupplLoaded cur e s = .ok ((), s')) : s.Keeps p pg s' := by
  cases h
  refine Vm.setPtSuppl_keeps fun hp => ?_
  subst hp
  split
  · rw [PtSuppl.delete_get, if_neg fun hv => hne ⟨rfl, hv.symm⟩]
    rfl
  · rw [PtSuppl.put_get, if_neg fun hv => hne ⟨rfl, hv.symm⟩]
    rfl

theorem ptSupplLoaded_self {e : PtSupplEntry} (h : ptSupplLoaded p e s = .ok ((), s')) :
    s'.entry p e.vaddr = (if e.type = .lazy then none else some { e with presence := .present }) ∧
      s'.permission p e.vaddr = s.permission p e.vaddr := by
  cases h
  refine ⟨?_, by simp [Vm.permission]⟩
  rw [Vm.entry, Vm.setPtSuppl_process_self]
  split
  · simp [PtSuppl.delete_get]
  · simp [PtSuppl.put_get]

/-- The entry is settled if its page has been mapped, and else the frame is given back. -/
theorem ptSupplFinish_ok {frm : Nat} {e : PtSupplEntry} {pgdir b : Bool}
    (h : ptSupplFinish cur frm e pgdir s = .ok (b, s')) :
    pgdir = true ∧ b = true ∧ ptSupplLoaded cur e s = .ok ((), s') ∨
      pgdir = false ∧ b = false ∧ vmFrameFree frm s = .ok ((), s') := by
  rw [ptSupplFinish] at h
  cases pgdir with
  | true =>
    obtain ⟨⟨⟩, s1, hloaded, hend⟩ := Routine.bind_ok.mp h
    cases hend
    exact .inl ⟨rfl, rfl, hloaded⟩
  | false =>
    obtain ⟨⟨⟩, s1, hfree, hend⟩ := Routine.bind_ok.mp h
    cases hend
    exact .inr ⟨rfl, rfl, hfree⟩

theorem ptSupplFinish_keeps {frm : Nat} {e : PtSupplEntry} {pgdir b : Bool}
    (hne : ¬ (cur = p ∧ e.vaddr = pg)) (h : ptSupplFinish cur frm e pgdir s = .ok (b, s')) :
    s.Keeps p pg s' := by
  rcases ptSupplFinish_ok h with ⟨-, -, hloaded⟩ | ⟨-, -, hfree⟩
  · exact ptSupplLoaded_keeps hne hloaded
  · exact Vm.keeps_of_process (vmFrameFree_process hfree)

/-- The page of entry `e` is mapped with permission `w`, and its entry is settled. -/
structure LoadedAs (p : Nat) (e : PtSupplEntry) (w : Bool) (s' : Vm) : Prop where
  entry : s'.entry p e.vaddr =
    if e.type = .lazy then none else some { e with presence := .present }
  permission : s'.permission p e.vaddr = some w

theorem ptSupplFinish_self {frm : Nat} {e : PtSupplEntry} {pgdir b w : Bool}
    (hperm : pgdir = true → s.permission p e.vaddr = some w)
    (h : ptSupplFinish p frm e pgdir s = .ok (b, s')) :
    b = pgdir ∧ (b = true → LoadedAs p e w s') ∧ (b = false → s.Keeps p e.vaddr s') := by
  rcases ptSupplFinish_ok h with ⟨rfl, rfl, hloaded⟩ | ⟨rfl, rfl, hfree⟩
  · obtain ⟨hentry, hsame⟩ := ptSupplLoaded_self hloaded
    exact ⟨rfl, fun _ => ⟨hentry, hsame.trans (hperm rfl)⟩, by simp⟩
  · exact ⟨rfl, by simp, fun _ => Vm.keeps_of_process (vmFrameFree_process hfree)⟩

theorem ptSupplSwapIn_keeps (hpg : pg % pgSize = 0) {e : PtSupplEntry} {frm : Nat} {b : Bool}
    (hne : ¬ (cur = p ∧ e.vaddr = pg)) (h : ptSupplSwapIn cur frm e s = .ok (b, s')) :
    s.Keeps p pg s' := by
  rw [ptSupplSwapIn] at h
  obtain ⟨pgdir, s1, hset, h⟩ := Routine.bind_ok.mp h
  have h1 := pagedirSetPage_keeps hpg hne hset
  cases pgdir with
  | true =>
    obtain ⟨u, s2, hin, h⟩ := Routine.bind_ok.mp h
    exact (h1.trans (swapIn_keeps hpg hin)).trans (ptSupplFinish_keeps hne h)
  | false =>
    replace h : ptSupplFinish cur frm e false s1 = .ok (b, s') := h
    exact h1.trans (ptSupplFinish_keeps hne h)

/-- A swapped page is mapped with the permission its entry still carries; only a missing page table
prevents it. -/
theorem ptSupplSwapIn_self {e : PtSupplEntry} {frm : Nat} {b : Bool} (hpg : e.vaddr % pgSize = 0)
    (h : ptSupplSwapIn p frm e s = .ok (b, s')) :
    (b = true → LoadedAs p e (e.fileInfo.all (·.writable)) s') ∧
      (b = false → (s.process p).pagedir.pde (Pagedir.pdNo e.vaddr) = false) := by
  rw [ptSupplSwapIn] at h
  obtain ⟨pgdir, s1, hset, h⟩ := Routine.bind_ok.mp h
  have hself := pagedirSetPage_self hset
  cases pgdir with
  | true =>
    obtain ⟨u, s2, hin, h⟩ := Routine.bind_ok.mp h
    obtain ⟨rfl, hloaded, -⟩ := ptSupplFinish_self
      (fun _ => (swapIn_keeps hpg hin).permission.trans hself.2) h
    exact ⟨hloaded, nofun⟩
  | false =>
    replace h : ptSupplFinish p frm e false s1 = .ok (b, s') := h
    obtain ⟨rfl, -, -⟩ := ptSupplFinish_self (w := true) (by simp) h
    exact ⟨nofun, fun _ => hself.2⟩

theorem ptSupplRead_process {inf : PtSupplFileInfo} {frm : Nat} {read : Bool}
    (h : ptSupplRead frm inf s = .ok (read, s')) : s'.process = s.process := by
  cases h
  rfl

theorem ptSupplReadIn_keeps (hpg : pg % pgSize = 0) {e : PtSupplEntry} {inf : PtSupplFileInfo}
    {frm : Nat} {b : Bool} (hne : ¬ (cur = p ∧ e.vaddr = pg))
    (h : ptSupplReadIn cur frm e inf s = .ok (b, s')) : s.Keeps p pg s' := by
  rw [ptSupplReadIn] at h
  obtain ⟨read, s1, hread, h⟩ := Routine.bind_ok.mp h
  have h1 : s.Keeps p pg s1 := Vm.keeps_of_process (ptSupplRead_process hread)
  obtain ⟨pgdir, s2, hset, hfinish⟩ := Routine.bind_ok.mp h
  cases read with
  | true => exact (h1.trans (pagedirSetPage_keeps hpg hne hset)).trans (ptSupplFinish_keeps hne hfinish)
  | false =>
    cases hset
    exact h1.trans (ptSupplFinish_keeps hne hfinish)

/-- A page read from its file is mapped with the permission of its entry, or stays as it was. -/
theorem ptSupplReadIn_self {e : PtSupplEntry} {inf : PtSupplFileInfo} {frm : Nat} {b : Bool}
    (h : ptSupplReadIn p frm e inf s = .ok (b, s')) :
    (b = true → LoadedAs p e inf.writable s') ∧ (b = false → s.Keeps p e.vaddr s') := by
  rw [ptSupplReadIn] at h
  obtain ⟨read, s1, hread, h⟩ := Routine.bind_ok.mp h
  have h1 : s.Keeps p e.vaddr s1 := Vm.keeps_of_process (ptSupplRead_process hread)
  obtain ⟨pgdir, s2, hset, hfinish⟩ := Routine.bind_ok.mp h
  cases read with
  | true =>
    have hself := pagedirSetPage_self hset
    cases pgdir with
    | true =>
      obtain ⟨rfl, hloaded, -⟩ := ptSupplFinish_self (fun _ => hself.2) hfinish
      exact ⟨hloaded, nofun⟩
    | false =>
      obtain ⟨rfl, -, hkeeps⟩ := ptSupplFinish_self (w := true) (by simp) hfinish
      obtain ⟨rfl, -⟩ := hself
      exact ⟨nofun, fun _ => h1.trans (hkeeps rfl)⟩
  | false =>
    cases hset
    obtain ⟨rfl, -, hkeeps⟩ := ptSupplFinish_self (w := true) (by simp) hfinish
    exact ⟨nofun, fun _ => h1.trans (hkeeps rfl)⟩

variable {order : List FrameEntry → List FrameEntry}

/-- What `pt_suppl_page_in` finds once it has its frame. -/
theorem ptSupplPageIn_found {b : Bool}
    (h : ptSupplPageIn order p pg s = .ok (b, s')) :
    ∃ frm s1 e, vmFrameAlloc order p false pg s = .ok (frm, s1) ∧ s1.entry p pg = some e ∧
      (e.presence = .swapped ∧ ptSupplSwapIn p frm e s1 = .ok (b, s') ∨
        ∃ inf, e.presence = .unloaded ∧ e.fileInfo = some inf ∧
          ptSupplReadIn p frm e inf s1 = .ok (b, s')) := by
  rw [ptSupplPageIn] at h
  obtain ⟨frm, s1, halloc, h⟩ := Routine.bind_ok.mp h
  rw [Routine.get_bind_apply] at h
  cases hentry : (s1.process p).ptSuppl.get pg with
  | none =>
    rw [hentry] at h
    cases h
  | some e =>
    rw [hentry] at h
    refine ⟨frm, s1, e, halloc, hentry, ?_⟩
    dsimp only at h
    cases hpresence : e.presence with
    | swapped =>
      rw [hpresence] at h
      exact Or.inl ⟨rfl, h⟩
    | present =>
      rw [hpresence] at h
      cases h
    | unloaded =>
      cases hinfo : e.fileInfo with
      | none =>
        rw [hpresence, hinfo] at h
        cases h
      | some inf =>
        rw [hpresence, hinfo] at h
        exact Or.inr ⟨inf, rfl, rfl, h⟩

/-- Paging in another page can at most evict this one. -/
theorem ptSupplPageIn_other (hpg : pg % pgSize = 0) {v : Nat} {b : Bool}
    (hne : ¬ (cur = p ∧ v = pg)) (h : ptSupplPageIn order cur v s = .ok (b, s')) :
    PageOut p pg s s' := by
  rw [ptSupplPageIn] at h
  obtain ⟨frm, s1, halloc, h⟩ := Routine.bind_ok.mp h
  rw [Routine.get_bind_apply] at h
  cases hentry : (s1.process cur).ptSuppl.get v with
  | none =>
    rw [hentry] at h
    cases h
  | some e =>
    have hv : e.vaddr = v := (s1.process cur).ptSuppl.vaddr_eq hentry
    rw [hentry] at h
    refine (vmFrameAlloc_ok hpg halloc).trans_keeps ?_
    rw [← hv] at hne
    dsimp only at h
    cases hpresence : e.presence with
    | swapped =>
      rw [hpresence] at h
      exact ptSupplSwapIn_keeps hpg hne h
    | present =>
      rw [hpresence] at h
      cases h
    | unloaded =>
      cases hinfo : e.fileInfo with
      | none =>
        rw [hpresence, hinfo] at h
        cases h
      | some inf =>
        rw [hpresence, hinfo] at h
        exact ptSupplReadIn_keeps hpg hne h

theorem ptSupplGrowStack_other (hpg : pg % pgSize = 0) {front : Nat}
    (hne : ¬ (cur = p ∧ pgRoundDown front = pg))
    (h : ptSupplGrowStack order cur front s = .ok ((), s')) : PageOut p pg s s' := by
  rw [ptSupplGrowStack] at h
  obtain ⟨frm, s1, halloc, h⟩ := Routine.bind_ok.mp h
  obtain ⟨mapped, s2, hset, h⟩ := Routine.bind_ok.mp h
  refine (vmFrameAlloc_ok hpg halloc).trans_keeps ((pagedirSetPage_keeps hpg hne hset).trans ?_)
  cases mapped with
  | true =>
    cases h
    exact Vm.Keeps.refl p pg _
  | false => exact Vm.keeps_of_process (vmFrameFree_process h)

end Pintos
