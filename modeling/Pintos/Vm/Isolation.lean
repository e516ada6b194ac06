import Mathlib.Data.List.Find
import Pintos.Vm.Sound
import Pintos.Vm.TwoRuns

/-! What a process sees in a page that it obtains, in two runs whose states differ only in the bytes
of free user pages and of frames of other processes.  `palloc` honours `PAL_ZERO` and an eviction does
not, and a file may be shorter than the part that is to be read, so a page can show what its frame held
before. -/

namespace Pintos

/-! ### The victim of an eviction -/

namespace Pagedir

theorem isAccessed_eq (pd : Pagedir) (u : Nat) :
    pd.isAccessed u = (pd.pde (pdNo u) && (pd.pte (pgRoundDown u)).accessed) := by
  rw [isAccessed, lookupPage]
  cases pd.pde (pdNo u) <;> simp

theorem clearAccessed_isAccessed (pd : Pagedir) {v u : Nat} (hv : v % pgSize = 0)
    (hu : u % pgSize = 0) :
    (pd.setAccessed v false).isAccessed u = if u = v then false else pd.isAccessed u := by
  simp only [isAccessed_eq, setAccessed, modifyPte, pgRoundDown_of_aligned hv,
    pgRoundDown_of_aligned hu]
  by_cases huv : u = v
  · subst huv
    cases hpde : pd.pde (pdNo u) <;> simp [hpde]
  · rw [if_neg huv]
    split
    · dsimp only
      rw [Function.update_of_ne huv]
    · rfl

end Pagedir

namespace Vm

/-- The accessed bit of the page that the entry of a frame names. -/
def accessed (s : Vm) (fe : FrameEntry) : Bool :=
  (s.process fe.owner).pagedir.isAccessed fe.threadVaddr

/-- The entry that is evicted next: the first one whose page has not been accessed, or the first one
if all have been. -/
def victim (s : Vm) : Option FrameEntry :=
  (s.frameHash.find? fun fe => !s.accessed fe).or s.frameHash.head?

variable {s s' : Vm} {fe g : FrameEntry} {fes : List FrameEntry}

/-- Clearing the accessed bit of one page leaves the others' alone. -/
theorem accessed_clear (hfe : fe.threadVaddr % pgSize = 0) (hg : g.threadVaddr % pgSize = 0) :
    (s.setPagedir fe.owner ((s.process fe.owner).pagedir.setAccessed fe.threadVaddr false)).accessed g =
      if g.owner = fe.owner ∧ g.threadVaddr = fe.threadVaddr then false else s.accessed g := by
  rw [accessed, accessed]
  by_cases howner : g.owner = fe.owner
  · rw [howner, setPagedir_process_self, Pagedir.clearAccessed_isAccessed _ hfe hg]
    simp
  · rw [setPagedir_process_ne s howner, if_neg fun h => howner h.1]

/-- The search sets no accessed bit. -/
theorem selectSweep_accessed (hfes : ∀ fe ∈ fes, fe.threadVaddr % pgSize = 0)
    (hg : g.threadVaddr % pgSize = 0) (h : s.accessed g = false) :
    (selectSweep fes s).1.accessed g = false := by
  induction fes generalizing s with
  | nil => exact h
  | cons fe fes ih =>
    rw [selectSweep]
    split
    · refine ih (fun fe' hfe' => hfes fe' (List.mem_cons_of_mem _ hfe')) ?_
      rw [accessed_clear (hfes fe List.mem_cons_self) hg, h, ite_self]
    · exact h

/-- A pass over pages that differ finds the first one that has not been accessed. -/
theorem selectSweep_find (hfes : ∀ fe ∈ fes, fe.threadVaddr % pgSize = 0)
    (hdiffer : fes.Pairwise fun fe g =>
      ¬ (g.owner = fe.owner ∧ g.threadVaddr = fe.threadVaddr)) :
    (selectSweep fes s).2 = fes.find? fun fe => !s.accessed fe := by
  induction fes generalizing s with
  | nil => rfl
  | cons fe fes ih =>
    obtain ⟨hfirst, hdiffer⟩ := List.pairwise_cons.mp hdiffer
    have hrest : ∀ g ∈ fes, g.threadVaddr % pgSize = 0 :=
      fun g hg => hfes g (List.mem_cons_of_mem _ hg)
    rw [selectSweep]
    cases haccessed : s.accessed fe with
    | true =>
      rw [accessed] at haccessed
      rw [if_pos haccessed, ih hrest hdiffer, List.find?_cons_of_neg (by simp [accessed, haccessed])]
      have hsame : ∀ g ∈ fes, (s.setPagedir fe.owner
          ((s.process fe.owner).pagedir.setAccessed fe.threadVaddr false)).accessed g =
            s.accessed g := by
        intro g hg
        rw [accessed_clear (hfes fe List.mem_cons_self) (hrest g hg), if_neg (hfirst g hg)]
      exact List.find?_congr fun g hg => by rw [hsame g hg]
    | false =>
      rw [List.find?_cons_of_pos (by simp [haccessed])]
      rw [accessed] at haccessed
      rw [if_neg (by simp [haccessed])]

/-- A pass that finds nothing clears every accessed bit. -/
theorem selectSweep_clears (hfes : ∀ fe ∈ fes, fe.threadVaddr % pgSize = 0)
    (h : (selectSweep fes s).2 = none) (hg : g ∈ fes) :
    (selectSweep fes s).1.accessed g = false := by
  induction fes generalizing s with
  | nil => cases hg
  | cons fe fes ih =>
    have hrest : ∀ g ∈ fes, g.threadVaddr % pgSize = 0 :=
      fun g hg => hfes g (List.mem_cons_of_mem _ hg)
    rw [selectSweep] at h ⊢
    split at h
    · rename_i haccessed
      rw [if_pos haccessed]
      rcases List.mem_cons.mp hg with rfl | hg
      · refine selectSweep_accessed hrest (hfes g List.mem_cons_self) ?_
        rw [accessed_clear (hfes g List.mem_cons_self) (hfes g List.mem_cons_self),
          if_pos ⟨rfl, rfl⟩]
      · exact ih hrest h hg
    · cases h

/-- The frames of the table hold different pages. -/
theorem FrameInv.pages_differ (h : s.FramesAgree) : s.frameHash.Pairwise fun fe g =>
    ¬ (g.owner = fe.owner ∧ g.threadVaddr = fe.threadVaddr) := by
  refine (List.pairwise_map.mp h.nodup).imp_of_mem fun {fe g} hfe hg hne => ?_
  rintro ⟨howner, hvaddr⟩
  have hback := (h.backed g hg id).2
  rw [howner, hvaddr, (h.backed fe hfe id).2] at hback
  exact hne (Option.some.inj hback)

theorem selectFrameToEvict_victim (hinv : s.FramesAgree)
    (h : selectFrameToEvict s = .ok (fe, s')) : s.victim = some fe := by
  have hfes : ∀ fe ∈ s.frameHash, fe.threadVaddr % pgSize = 0 :=
    fun fe hfe => (hinv.backed fe hfe id).1
  have hfind := selectSweep_find (s := s) hfes hinv.pages_differ
  have hframes := selectSweep_frameHash s.frameHash s
  rw [selectFrameToEvict, Routine.get_bind_apply] at h
  rcases hsweep : selectSweep s.frameHash s with ⟨s1, _ | fe1⟩
  · rw [hsweep] at h hfind hframes
    dsimp only at h hfind hframes
    rw [hframes] at h
    rw [victim, ← hfind, Option.none_or]
    cases hlist : s.frameHash with
    | nil =>
      rw [hlist] at h
      cases h
    | cons fe1 fes =>
      have hclear : s1.accessed fe1 = false := by
        have hclears := selectSweep_clears (s := s) (g := fe1) hfes (by rw [hsweep])
          (by rw [hlist]; exact List.mem_cons_self)
        rwa [hsweep] at hclears
      rw [hlist, selectSweep] at h
      rw [accessed] at hclear
      rw [hclear, if_neg (by simp)] at h
      cases h
      rfl
  · rw [hsweep] at h hfind
    cases h
    rw [victim, ← hfind]
    rfl

end Vm

/-! ### The pages that a process obtains -/

/-- How a process obtains a page: at the start of its stack, or by a fault. -/
inductive Obtain where
  | setupStack
  | pageFault (faultAddr esp : Nat)

/-- Where the bytes of a page come from. -/
inductive PageSource where
  | zeros
  | file (inf : PtSupplFileInfo)
  | swap (slot : Nat)

namespace Obtain

/-- The page. -/
def page : Obtain → Nat
  | setupStack => physBase - pgSize
  | pageFault faultAddr _ => pgRoundDown faultAddr

def exec (order : List FrameEntry → List FrameEntry) (cur : Nat) : Obtain → VmRoutine Bool
  | setupStack => setupStackPage order cur
  | pageFault faultAddr esp => Pintos.pageFault order cur faultAddr esp

def source (cur : Nat) (s : Vm) : Obtain → PageSource
  | setupStack => .zeros
  | pageFault faultAddr _ =>
    match s.entry cur (pgRoundDown faultAddr) with
    | none => .zeros
    | some e =>
      match e.presence, e.fileInfo with
      | .unloaded, some inf => .file inf
      | _, _ => .swap e.swapSlot

end Obtain

namespace PageSource

/-- Whether the frame is asked for with `PAL_ZERO`. -/
def palZero : PageSource → Bool
  | zeros => true
  | file _ | swap _ => false

/-- The page that is made in frame `frm`, once the frame has been found. -/
def contents (s : Vm) (frm : Nat) : PageSource → PageData
  | zeros => s.memory frm
  | file inf => s.readPage inf (s.memory frm)
  | swap slot => swapPage s.swapDevice slot

end PageSource

variable {s s' s1 t : Vm} {cur : Nat} {order : List FrameEntry → List FrameEntry}

/-- A page that is not mapped keeps its entry when a frame is found for it. -/
theorem vmFrameAlloc_entry {palZero : Bool} {v frm : Nat} (hinv : s.FramesAgree)
    (halign : v % pgSize = 0) (hnone : s.mapped cur v = none)
    (h : vmFrameAlloc order cur palZero v s = .ok (frm, s')) : s'.entry cur v = s.entry cur v := by
  have hframe : ¬ ∃ fe ∈ s.frameHash, fe.owner = cur ∧ fe.threadVaddr = v := by
    rintro ⟨fe, hfe, rfl, rfl⟩
    rw [(hinv.backed fe hfe id).2] at hnone
    cases hnone
  cases vmFrameAlloc_ok (p := cur) halign h with
  | keeps hkeeps => exact hkeeps.entry
  | anonymous slot hex => exact absurd hex hframe
  | mmf pt hex => exact absurd hex hframe

/-- A page that has been mapped, and the contents of its frame since. -/
theorem pageContents_of_maps {v frm : Nat} (halign : v % pgSize = 0)
    (hmaps : s.Maps cur v frm s') : s'.pageContents cur v = some (s'.memory frm) := by
  rw [Vm.pageContents, hmaps.mapped, if_pos ⟨rfl, pgRoundDown_of_aligned halign⟩]
  rfl

theorem pagedirSetPage_contents {v frm : Nat} {writable : Bool}
    (h : pagedirSetPage cur v frm writable s = .ok (true, s')) :
    s'.pageContents cur v = some (s.memory frm) := by
  rcases pagedirSetPage_maps h with ⟨hfalse, -⟩ | ⟨-, halign, hmaps⟩
  · cases hfalse
  · rw [pageContents_of_maps halign hmaps]
    rcases pagedirSetPage_ok h with ⟨hfalse, -⟩ | ⟨-, kernelPages, pd, -, rfl⟩
    · cases hfalse
    · rfl

theorem setupStackPage_contents (h : setupStackPage order cur s = .ok (true, s')) :
    ∃ frm s1, vmFrameAlloc order cur true (physBase - pgSize) s = .ok (frm, s1) ∧
      s'.pageContents cur (physBase - pgSize) = some (s1.memory frm) := by
  rw [setupStackPage] at h
  obtain ⟨frm, s1, halloc, h⟩ := Routine.bind_ok.mp h
  obtain ⟨result, s2, hinstall, h⟩ := Routine.bind_ok.mp h
  cases result with
  | true =>
    cases h
    rw [installPage, Routine.get_bind_apply] at hinstall
    split at hinstall
    · exact ⟨frm, s1, halloc, pagedirSetPage_contents hinstall⟩
    · cases hinstall
  | false =>
    obtain ⟨u, s3, hfree, h⟩ := Routine.bind_ok.mp h
    cases h

theorem ptSupplGrowStack_contents {front : Nat} (hnone : s.mapped cur front = none)
    (h : ptSupplGrowStack order cur front s = .ok ((), s'))
    (hmapped : (s'.mapped cur front).isSome) :
    ∃ frm s1, vmFrameAlloc order cur true (pgRoundDown front) s = .ok (frm, s1) ∧
      s'.pageContents cur (pgRoundDown front) = some (s1.memory frm) := by
  rw [ptSupplGrowStack] at h
  obtain ⟨frm, s1, halloc, h⟩ := Routine.bind_ok.mp h
  obtain ⟨mapped, s2, hset, h⟩ := Routine.bind_ok.mp h
  refine ⟨frm, s1, halloc, ?_⟩
  cases mapped with
  | true =>
    cases h
    exact pagedirSetPage_contents hset
  | false =>
    have hfree : vmFrameFree frm s2 = .ok ((), s') := h
    rcases pagedirSetPage_ok hset with ⟨-, rfl⟩ | ⟨htrue, -⟩
    · have hperm : s.permission cur (pgRoundDown front) = none := Vm.getPage_eq_none_iff.mp hnone
      have hperm1 : s2.permission cur (pgRoundDown front) = none := by
        cases vmFrameAlloc_ok (p := cur) (pgRoundDown_aligned front) halloc with
        | keeps hkeeps => rw [hkeeps.permission, hperm]
        | anonymous slot _ _ _ hout => exact hout
        | mmf pt _ _ _ _ hout => exact hout
      rw [Vm.mapped, vmFrameFree_process hfree, Vm.getPage_eq_none_iff.mpr hperm1] at hmapped
      cases hmapped
    · cases htrue

theorem ptSupplPageIn_contents {v : Nat} (hin : ptSupplPageIn order cur v s = .ok (true, s')) :
    ∃ frm s1 e, vmFrameAlloc order cur false v s = .ok (frm, s1) ∧ s1.entry cur v = some e ∧
      ((e.presence = .swapped ∧ s'.pageContents cur v = some (swapPage s1.swapDevice e.swapSlot)) ∨
        ∃ inf, e.presence = .unloaded ∧ e.fileInfo = some inf ∧
          s'.pageContents cur v = some (s1.readPage inf (s1.memory frm))) := by
  obtain ⟨frm, s1, e, halloc, hentry, hbranch⟩ := ptSupplPageIn_found hin
  obtain rfl : e.vaddr = v := (s1.process cur).ptSuppl.vaddr_eq hentry
  refine ⟨frm, s1, e, halloc, hentry, ?_⟩
  rcases hbranch with ⟨hpresence, hswap⟩ | ⟨inf, hpresence, hinf, hread⟩
  · obtain ⟨hmapped, hmemory, -⟩ := ptSupplSwapIn_contents hswap
    refine .inl ⟨hpresence, ?_⟩
    rw [Vm.pageContents, Vm.mapped, hmapped, hmemory]
    simp
  · obtain ⟨hmapped, hmemory, -⟩ := ptSupplReadIn_contents hread
    refine .inr ⟨inf, hpresence, hinf, ?_⟩
    rw [Vm.pageContents, Vm.mapped, hmapped, hmemory]
    simp

/-- What a process that obtains a page sees in it. -/
theorem Obtain.exec_contents {op : Obtain} (hinv : s.Sound)
    (h : op.exec order cur s = .ok (true, s')) :
    ∃ frm s1, vmFrameAlloc order cur (op.source cur s).palZero op.page s = .ok (frm, s1) ∧
      s'.pageContents cur op.page = some ((op.source cur s).contents s1 frm) ∧
      ∀ slot, op.source cur s = .swap slot → s.swapBm.Used slot := by
  cases op with
  | setupStack =>
    obtain ⟨frm, s1, halloc, hcontents⟩ := setupStackPage_contents h
    exact ⟨frm, s1, halloc, hcontents, (by rintro _ ⟨⟩)⟩
  | pageFault faultAddr esp =>
    rcases pageFault_found h with ⟨hfalse, -⟩ | ⟨hnone, -, -, hmapped, hserved⟩
    · cases hfalse
    replace hmapped : (s'.mapped cur faultAddr).isSome := hmapped rfl
    have halign := pgRoundDown_aligned faultAddr
    rcases hserved with ⟨e, hentry, handled, hin, hhandled⟩ | ⟨hentry, handled, hgrow⟩
    · obtain rfl := hhandled rfl
      have hunmapped : s.mapped cur (pgRoundDown faultAddr) = none := by
        rw [Vm.mapped, Pagedir.getPage_round, hnone]
      obtain ⟨frm, s1, e1, halloc, hentry1, hcontents⟩ := ptSupplPageIn_contents hin
      rw [vmFrameAlloc_entry hinv.frames halign hunmapped halloc, hentry] at hentry1
      cases hentry1
      have hpage : Obtain.page (.pageFault faultAddr esp) = pgRoundDown faultAddr := rfl
      rcases hcontents with ⟨hpresence, hcontents⟩ | ⟨inf, hpresence, hinf, hcontents⟩
      · have hsource : Obtain.source cur s (.pageFault faultAddr esp) = .swap e.swapSlot := by
          simp only [source, hentry, hpresence]
        rw [hsource, hpage]
        refine ⟨frm, s1, halloc, hcontents, fun slot hslot => ?_⟩
        cases hslot
        exact hinv.slots.used ⟨e, hentry, hpresence, rfl⟩
      · have hsource : Obtain.source cur s (.pageFault faultAddr esp) = .file inf := by
          simp only [source, hentry, hpresence, hinf]
        rw [hsource, hpage]
        exact ⟨frm, s1, halloc, hcontents, (by simp)⟩
    · have hsource : Obtain.source cur s (.pageFault faultAddr esp) = .zeros := by
        simp only [source, hentry]
      rw [hsource]
      rcases ptSupplCheckAndGrowStack_found hgrow with ⟨-, rfl⟩ | ⟨-, hgrow⟩
      · rw [Vm.mapped, hnone] at hmapped
        cases hmapped
      · obtain ⟨frm, s1, halloc, hcontents⟩ := ptSupplGrowStack_contents hnone hgrow hmapped
        exact ⟨frm, s1, halloc, hcontents, (by simp)⟩

/-! ### What is hidden from a process -/

namespace Vm

/-- The user pool has a free page. -/
def HasFreePage (s : Vm) : Prop := ∃ page < s.userPool.bitCnt, s.userPool.bits page = false

/-- A free user page, or a frame of another process. -/
def Hidden (s : Vm) (cur page : Nat) : Prop :=
  (page < s.userPool.bitCnt ∧ s.userPool.bits page = false) ∨
    ∃ fe ∈ s.frameHash, fe.page = page ∧ fe.owner ≠ cur

/-- The next frame that the process gets is one of its own, which is evicted. -/
def EvictsOwn (s : Vm) (cur : Nat) : Prop :=
  ¬ s.HasFreePage ∧ ∃ fe, s.victim = some fe ∧ fe.owner = cur

/-- A process does not see what is hidden from it. -/
theorem FrameInv.unseen (h : s.FramesAgree) (cur : Nat) : s.Unseen cur (s.Hidden cur) := by
  intro v page hpage
  have hin := (h.listed cur v page hpage).2
  rintro (⟨-, hfree⟩ | ⟨fe, hfe, hsame, howner⟩)
  · have hused := h.used _ hin
    rw [hfree] at hused
    cases hused
  · exact howner (congrArg FrameEntry.owner (h.unique hfe hin hsame))

end Vm

/-- Whether the page does not depend on what its frame held before. -/
def PageSource.Filled (s : Vm) : PageSource → Prop
  | zeros => s.HasFreePage
  | file inf => inf.readBytes ≤ (s.file inf.file).length - inf.offset
  | swap _ => True

theorem scanAndFlip_of_free (h : s.HasFreePage) :
    ∃ r, s.userPool.scanAndFlip 0 1 false = some r := by
  obtain ⟨page, hlt, hfree⟩ := h
  cases hscan : s.userPool.scan 0 1 false with
  | some i => exact ⟨_, by rw [Bitmap.scanAndFlip, hscan]; rfl⟩
  | none =>
    rw [Bitmap.scan, if_pos (by omega)] at hscan
    have hpage := List.find?_eq_none.mp hscan page (List.mem_range.mpr (by omega))
    simp [Bitmap.contains, hfree] at hpage

theorem writeBackMmf_bytes {fe : FrameEntry} {pt : PtSupplEntry} {info : PtSupplFileInfo}
    (hwithin : info.offset + info.readBytes ≤ (s.file info.file).length)
    (h : writeBackMmf cur fe pt info s = .ok ((), s')) :
    s'.memory = s.memory ∧ ∀ f, (s'.file f).length = (s.file f).length := by
  rcases writeBackMmf_ok h with ⟨-, rfl⟩ | ⟨-, hwrite⟩
  · exact ⟨rfl, fun _ => rfl⟩
  · rcases fileWriteAt_ok hwrite with ⟨-, rfl⟩ | ⟨-, page, -, rfl⟩
    · exact ⟨rfl, fun _ => rfl⟩
    · refine ⟨rfl, fun f => ?_⟩
      show (Function.update s.file info.file _ f).length = _
      by_cases hf : f = info.file
      · subst hf
        rw [Function.update_self, length_overwrite, PageData.copyOut, List.length_take]
        omega
      · rw [Function.update_of_ne hf]

/-- An eviction leaves the frames and the lengths of the files as they are. -/
theorem pageOutEvictedFrame_bytes {fe : FrameEntry} (hinv : s.InfosInv)
    (h : pageOutEvictedFrame cur fe s = .ok ((), s')) :
    s'.memory = s.memory ∧ ∀ f, (s'.file f).length = (s.file f).length := by
  rw [pageOutEvictedFrame, Routine.get_bind_apply] at h
  cases hpt : (s.process fe.owner).ptSuppl.get fe.threadVaddr with
  | none =>
    rw [hpt] at h
    obtain ⟨slot, s1, hout, h⟩ := Routine.bind_ok.mp h
    cases slot with
    | none => cases h
    | some slot =>
      obtain ⟨swapBm, swapDevice, rfl⟩ := swapOut_ok hout
      obtain ⟨⟨⟩, s2, hput, h⟩ := Routine.bind_ok.mp h
      cases hput
      obtain ⟨-, rfl⟩ := pagedirClearPage_ok h
      exact ⟨rfl, fun _ => rfl⟩
  | some pt =>
    rw [hpt] at h
    dsimp only at h
    split at h
    · rename_i htype
      cases hinfo : pt.fileInfo with
      | none =>
        rw [hinfo] at h
        cases h
      | some info =>
        rw [hinfo] at h
        obtain ⟨u, s1, hwrite, h⟩ := Routine.bind_ok.mp h
        obtain ⟨⟨⟩, s2, hput, h⟩ := Routine.bind_ok.mp h
        cases hput
        obtain ⟨-, rfl⟩ := pagedirClearPage_ok h
        have hbytes := writeBackMmf_bytes (hinv.within hpt hinfo htype) hwrite
        exact hbytes
    · cases h

/-- The frame that is found is a free page or the victim, and what it holds is kept, unless it is a
free page that is asked for with `PAL_ZERO`. -/
theorem vmFrameAlloc_memory {palZero : Bool} {v frm : Nat} (hinv : s.Sound)
    (h : vmFrameAlloc order cur palZero v s = .ok (frm, s')) :
    (∀ f, (s'.file f).length = (s.file f).length) ∧
      ((s.HasFreePage ∧ frm < s.userPool.bitCnt ∧ s.userPool.bits frm = false ∧
          s'.memory frm = if palZero then PageData.zeros else s.memory frm) ∨
        ¬ s.HasFreePage ∧ (∃ fe ∈ s.frameHash, s.victim = some fe ∧ fe.page = frm) ∧
          s'.memory = s.memory) := by
  rw [vmFrameAlloc, Routine.get_bind_apply] at h
  cases hscan : s.userPool.scanAndFlip 0 1 false with
  | none =>
    rw [hscan] at h
    dsimp only at h
    rw [evictAndGetFrame] at h
    obtain ⟨vict, s1, hselect, h⟩ := Routine.bind_ok.mp h
    obtain ⟨u, s2, hout, h⟩ := Routine.bind_ok.mp h
    obtain ⟨rfl, rfl⟩ := Prod.mk.inj (Except.ok.inj h)
    have hvictim := Vm.selectFrameToEvict_victim hinv.frames hselect
    have hmem := (selectFrameToEvict_ok (p := cur) (Nat.zero_mod pgSize) hselect).1
    have hinfos := (selectFrameToEvict_infos hselect).keeps hinv.infos
    obtain ⟨process, rfl⟩ := selectFrameToEvict_process hselect
    obtain ⟨hmemory, hlength⟩ := pageOutEvictedFrame_bytes hinfos hout
    refine ⟨hlength, .inr ⟨fun hfree => ?_, ⟨vict, hmem, hvictim, rfl⟩, hmemory⟩⟩
    obtain ⟨r, hr⟩ := scanAndFlip_of_free hfree
    rw [hscan] at hr
    cases hr
  | some r =>
    rw [hscan] at h
    obtain ⟨rfl, rfl⟩ := Prod.mk.inj (Except.ok.inj h)
    rw [Bitmap.scanAndFlip, Option.map_eq_some_iff] at hscan
    obtain ⟨i, hscan, rfl⟩ := hscan
    obtain ⟨hlt, hfree⟩ := Bitmap.scan_one hscan
    refine ⟨fun _ => rfl, .inl ⟨⟨i, hlt, hfree⟩, hlt, hfree, ?_⟩⟩
    cases palZero <;> simp

theorem Vm.Hidden.of_alloc {palZero : Bool} {v frm : Nat} (hinv : s.Sound)
    (h : vmFrameAlloc order cur palZero v s = .ok (frm, s')) :
    s.Hidden cur frm ↔ ¬ s.EvictsOwn cur := by
  obtain ⟨-, ⟨hfree, hlt, hbit, -⟩ | ⟨hfull, ⟨fe, hfe, hvictim, hpage⟩, -⟩⟩ :=
    vmFrameAlloc_memory hinv h
  · exact iff_of_true (.inl ⟨hlt, hbit⟩) fun hown => hown.1 hfree
  · constructor
    · rintro (hbit | ⟨fe', hfe', hpage', howner⟩) ⟨-, fe0, hvictim0, howner0⟩
      · exact hfull ⟨frm, hbit⟩
      · rw [hvictim] at hvictim0
        cases hvictim0
        obtain rfl := hinv.frames.unique hfe' hfe (hpage'.trans hpage.symm)
        exact howner howner0
    · intro hother
      refine .inr ⟨fe, hfe, hpage, fun howner => hother ⟨hfull, fe, hvictim, howner⟩⟩

/-- A page that is read from a file is the same for any old contents if the file fills its part. -/
theorem readPage_filled {inf : PtSupplFileInfo} (hsum : inf.readBytes + inf.zeroBytes = pgSize)
    (hlen : inf.readBytes ≤ (s.file inf.file).length - inf.offset) (old old' : PageData) :
    s.readPage inf old = s.readPage inf old' := by
  funext j
  have hj := j.isLt
  have hbytes : (fileRead s inf.file inf.offset inf.readBytes).length = inf.readBytes := by
    rw [fileRead, List.length_take, List.length_drop]
    omega
  simp only [Vm.readPage, PageData.clear]
  split
  · rfl
  · rename_i hout
    have hin : j.val < inf.readBytes := by
      unfold pgSize at hsum
      omega
    rw [← hbytes] at hin
    simp [PageData.copyIn, hin]

/-- A byte that the file does not reach keeps its old contents. -/
theorem readPage_short {inf : PtSupplFileInfo} {j : Fin 4096}
    (hshort : (s.file inf.file).length - inf.offset ≤ j.val) (hj : j.val < inf.readBytes)
    (old : PageData) : s.readPage inf old j = old j := by
  have hbytes : (fileRead s inf.file inf.offset inf.readBytes).length ≤ j.val := by
    rw [fileRead, List.length_take, List.length_drop]
    omega
  have hread : ¬ (inf.readBytes ≤ j.val ∧ j.val < inf.readBytes + inf.zeroBytes) := by omega
  rw [Vm.readPage, PageData.clear, if_neg hread]
  simp [PageData.copyIn, hbytes]

/-- Other bytes in the frames. -/
theorem Vm.Sound.setMemory (h : s.Sound) (memory : Nat → PageData) :
    Vm.Sound { s with memory } where
  frames := h.frames.congr rfl rfl fun _ _ => rfl
  slots := ⟨h.slots.used, h.slots.unique, h.slots.mmf⟩
  infos := ⟨h.infos.fills, h.infos.within⟩

theorem Obtain.source_fills {op : Obtain} {inf : PtSupplFileInfo} (hinv : s.Sound)
    (h : op.source cur s = .file inf) : inf.readBytes + inf.zeroBytes = pgSize := by
  cases op with
  | setupStack => cases h
  | pageFault faultAddr esp =>
    rw [source] at h
    cases hentry : s.entry cur (pgRoundDown faultAddr) with
    | none =>
      rw [hentry] at h
      cases h
    | some e =>
      rw [hentry] at h
      dsimp only at h
      split at h
      · rename_i hinf
        cases h
        exact hinv.infos.fills hentry hinf
      · cases h

/-- The second run beside the first one. -/
theorem Obtain.exec_twin {op : Obtain} {memory : Nat → PageData} (hinv : s.Sound)
    (hsame : ∀ page, ¬ s.Hidden cur page → memory page = s.memory page)
    (h : op.exec order cur s = .ok (true, s')) :
    ∃ frm s1 t1 t', vmFrameAlloc order cur (op.source cur s).palZero op.page s = .ok (frm, s1) ∧
      vmFrameAlloc order cur (op.source cur s).palZero op.page { s with memory } = .ok (frm, t1) ∧
      op.exec order cur { s with memory } = .ok (true, t') ∧ s1.Twin (s.Hidden cur) t1 ∧
      s'.pageContents cur op.page = some ((op.source cur s).contents s1 frm) ∧
      t'.pageContents cur op.page = some ((op.source cur s).contents t1 frm) ∧
      ∀ slot, op.source cur s = .swap slot → s.swapBm.Used slot := by
  have hunseen := hinv.frames.unseen cur
  have htwin : s.Twin (s.Hidden cur) { s with memory } := ⟨memory, s.swapDevice, rfl, hsame, rfl⟩
  obtain ⟨frm, s1, halloc, hcontents, hused⟩ := op.exec_contents hinv h
  obtain ⟨t1, halloc', htwin1⟩ := vmFrameAlloc_coupled hunseen htwin halloc
  have hrun : ∃ t', op.exec order cur { s with memory } = .ok (true, t') := by
    cases op with
    | setupStack =>
      obtain ⟨t', ht', -⟩ := setupStackPage_coupled hunseen htwin h
      exact ⟨t', ht'⟩
    | pageFault faultAddr esp =>
      obtain ⟨t', ht', -⟩ := pageFault_coupled hunseen htwin h
      exact ⟨t', ht'⟩
  obtain ⟨t', ht'⟩ := hrun
  have hsource : op.source cur { s with memory } = op.source cur s := by
    cases op <;> rfl
  obtain ⟨frm', t2, halloc2, hcontents', -⟩ := op.exec_contents (hinv.setMemory memory) ht'
  rw [hsource] at halloc2 hcontents'
  cases halloc'.symm.trans halloc2
  exact ⟨frm, s1, t1, t', halloc, halloc', ht', htwin1, hcontents, hcontents', hused⟩

/-- Two states that differ in what is hidden from a process bring it the same page, if the page does
not depend on what its frame held before or the frame is its own. -/
theorem Obtain.same_of_filled {op : Obtain} {memory : Nat → PageData} (hinv : s.Sound)
    (hsame : ∀ page, ¬ s.Hidden cur page → memory page = s.memory page)
    (hfilled : s.EvictsOwn cur ∨ (op.source cur s).Filled s)
    (h : op.exec order cur s = .ok (true, s')) :
    ∃ t', op.exec order cur { s with memory } = .ok (true, t') ∧
      t'.pageContents cur op.page = s'.pageContents cur op.page := by
  obtain ⟨frm, s1, t1, t', halloc, halloc', hrun, htwin, hs, ht, hused⟩ :=
    op.exec_twin hinv hsame h
  refine ⟨t', hrun, ?_⟩
  rw [hs, ht, Option.some_inj]
  have hkept : s.EvictsOwn cur → t1.memory frm = s1.memory frm := by
    intro hown
    obtain ⟨memory', swapDevice, rfl, hmemory, -⟩ := htwin
    exact hmemory frm fun hhidden => (Vm.Hidden.of_alloc hinv halloc).mp hhidden hown
  have hfile : t1.file = s1.file := by
    obtain ⟨memory', swapDevice, rfl, -⟩ := htwin
    rfl
  cases hsource : op.source cur s with
  | zeros =>
    rw [hsource] at hfilled halloc halloc'
    rcases hfilled with hown | hfree
    · exact hkept hown
    · obtain ⟨-, ⟨-, -, -, hzeros⟩ | ⟨hfull, -⟩⟩ := vmFrameAlloc_memory hinv halloc
      · obtain ⟨-, ⟨-, -, -, hzeros'⟩ | ⟨hfull, -⟩⟩ :=
          vmFrameAlloc_memory (hinv.setMemory memory) halloc'
        · exact hzeros'.trans hzeros.symm
        · exact absurd hfree hfull
      · exact absurd hfree hfull
  | file inf =>
    have hread : t1.readPage inf (t1.memory frm) = s1.readPage inf (t1.memory frm) := by
      rw [Vm.readPage, Vm.readPage, fileRead, fileRead, hfile]
    rw [hsource] at hfilled
    refine hread.trans ?_
    rcases hfilled with hown | hlen
    · exact congrArg (s1.readPage inf) (hkept hown)
    · refine readPage_filled (op.source_fills hinv hsource) ?_ _ _
      rw [(vmFrameAlloc_memory hinv halloc).1]
      exact hlen
  | swap slot =>
    have hslot := hused slot hsource
    refine (vmFrameAlloc_swapPage (s := { s with memory }) hslot halloc').trans ?_
    exact (vmFrameAlloc_swapPage hslot halloc).symm

/-- Other bytes in the frame that the process gets show in a page that the file, or `PAL_ZERO`, does
not fill. -/
theorem Obtain.differ_of_not_filled {op : Obtain} (hinv : s.Sound) (hother : ¬ s.EvictsOwn cur)
    (hshort : ¬ (op.source cur s).Filled s) (h : op.exec order cur s = .ok (true, s')) :
    ∃ memory : Nat → PageData, (∀ page, ¬ s.Hidden cur page → memory page = s.memory page) ∧
      ∃ t', op.exec order cur { s with memory } = .ok (true, t') ∧
        t'.pageContents cur op.page ≠ s'.pageContents cur op.page := by
  obtain ⟨frm, s1, halloc, -⟩ := op.exec_contents hinv h
  have hhidden := (Vm.Hidden.of_alloc hinv halloc).mpr hother
  let memory : Nat → PageData := Function.update s.memory frm fun i => s.memory frm i + 1
  have hsame : ∀ page, ¬ s.Hidden cur page → memory page = s.memory page := by
    intro page hpage
    refine Function.update_of_ne ?_ _ _
    rintro rfl
    exact hpage hhidden
  obtain ⟨frm', s1', t1, t', halloc1, halloc', hrun, htwin, hs, ht, -⟩ :=
    op.exec_twin hinv hsame h
  cases halloc.symm.trans halloc1
  refine ⟨memory, hsame, t', hrun, fun heq => ?_⟩
  rw [hs, ht, Option.some_inj] at heq
  have hbyte : ∀ x : UInt8, x + 1 ≠ x := by simp
  -- in both states the frame still holds what it held before
  have hdiffer : ∀ j, t1.memory frm j = s1.memory frm j → (op.source cur s).palZero = false ∨
      ¬ s.HasFreePage → False := by
    intro j hj hkept
    have hold : s1.memory frm = s.memory frm := by
      obtain ⟨-, ⟨hfree, -, -, hmemory⟩ | ⟨-, -, hmemory⟩⟩ := vmFrameAlloc_memory hinv halloc
      · rcases hkept with hzero | hfull
        · rw [hmemory, hzero]
          rfl
        · exact absurd hfree hfull
      · rw [hmemory]
    have hnew : t1.memory frm = memory frm := by
      obtain ⟨-, ⟨hfree, -, -, hmemory⟩ | ⟨-, -, hmemory⟩⟩ :=
        vmFrameAlloc_memory (hinv.setMemory memory) halloc'
      · rcases hkept with hzero | hfull
        · rw [hmemory, hzero]
          rfl
        · exact absurd hfree hfull
      · rw [hmemory]
    rw [hold, hnew] at hj
    simp only [memory, Function.update_self] at hj
    exact hbyte _ hj
  cases hsource : op.source cur s with
  | zeros =>
    rw [hsource] at heq hshort
    exact hdiffer 0 (congrFun heq 0) (.inr hshort)
  | file inf =>
    rw [hsource] at heq hshort hdiffer
    have hsum := op.source_fills hinv hsource
    have hlen : (s.file inf.file).length - inf.offset < inf.readBytes := not_le.mp hshort
    unfold pgSize at hsum
    let j : Fin 4096 := ⟨(s.file inf.file).length - inf.offset, by omega⟩
    have hs1 := (vmFrameAlloc_memory hinv halloc).1 inf.file
    have ht1 := (vmFrameAlloc_memory (hinv.setMemory memory) halloc').1 inf.file
    have hread : s1.readPage inf (s1.memory frm) j = s1.memory frm j :=
      readPage_short (by rw [hs1]) hlen _
    have hread' : t1.readPage inf (t1.memory frm) j = t1.memory frm j :=
      readPage_short (by rw [ht1]) hlen _
    refine hdiffer j ?_ (.inl rfl)
    rw [← hread, ← hread']
    exact congrFun heq j
  | swap slot =>
    rw [hsource] at hshort
    exact hshort trivial

/-- In every state that a run reaches, a page that a process obtains is the same whatever the free
user pages and the frames of other processes hold exactly if the frame is its own, or does not show
what it held: `palloc` has cleared it, the file fills its part of the page, or the page comes from
swap. -/
theorem obtained_bytes_same_iff {bucket : PtSuppl → List Nat} {ops : List PagingOp} {s0 : Vm}
    {op : Obtain} (horder : ∀ fes, (order fes).Perm fes) (hproper : ∀ op ∈ ops, op.Proper)
    (hboot : s0.Unused) (hrun : Routine.Visits (PagingOp.exec order bucket) ops s0 s)
    (hop : op.exec order cur s = .ok (true, s')) :
    (∀ memory : Nat → PageData, (∀ page, ¬ s.Hidden cur page → memory page = s.memory page) →
      ∃ t', op.exec order cur { s with memory } = .ok (true, t') ∧
        t'.pageContents cur op.page = s'.pageContents cur op.page) ↔
      s.EvictsOwn cur ∨ (op.source cur s).Filled s := by
  have hinv := sound_of_run horder hproper hboot hrun
  constructor
  · intro hall
    by_contra hnot
    obtain ⟨hother, hshort⟩ := not_or.mp hnot
    obtain ⟨memory, hsame, t', hrun', hdiffer⟩ :=
      op.differ_of_not_filled hinv hother hshort hop
    obtain ⟨t'', hrun'', hcontents⟩ := hall memory hsame
    cases hrun'.symm.trans hrun''
    exact hdiffer hcontents
  · intro hfilled memory hsame
    exact op.same_of_filled hinv hsame hfilled hop

theorem oneFrameVm_unused : oneFrameVm.Unused where
  booted := oneFrameVm_booted
  frameHash := rfl
  mapped _ _ := rfl

/-- Process 0 sets up its stack on a machine with one frame, and then process 1 does. -/
theorem twoSetups_runs : ∃ s s' : Vm,
    Routine.Visits (PagingOp.exec id fun _ => []) [.page (.setupStack 0)] oneFrameVm s ∧
      Obtain.setupStack.exec id 1 s = .ok (true, s') ∧ ¬ s.HasFreePage ∧
      s.victim.map FrameEntry.owner = some 0 := by
  have hends : ((Routine.execAll (PagingOp.exec id fun _ => []) [.page (.setupStack 0)]
      oneFrameVm).bind fun r => (Obtain.setupStack.exec id 1 r.2).map fun q =>
        (q.1, r.2.userPool.scan 0 1 false, r.2.victim.map FrameEntry.owner)) =
      .ok (true, none, some 0) := by decide +kernel
  cases hrun : Routine.execAll (PagingOp.exec id fun _ => []) [.page (.setupStack 0)]
      oneFrameVm with
  | error fault =>
    rw [hrun] at hends
    cases hends
  | ok r =>
    rw [hrun] at hends
    cases hset : Obtain.setupStack.exec id 1 r.2 with
    | error fault =>
      simp only [Except.bind, hset] at hends
      cases hends
    | ok q =>
      simp only [Except.bind, hset] at hends
      obtain ⟨htrue, hends⟩ := Prod.mk.inj (Except.ok.inj hends)
      obtain ⟨hscan, hvictim⟩ := Prod.mk.inj hends
      refine ⟨r.2, q.2, ⟨[.page (.setupStack 0)], [], r.1, rfl, hrun⟩, ?_, fun hfree => ?_, hvictim⟩
      · rw [hset, ← htrue]
      · obtain ⟨p, hp⟩ := scanAndFlip_of_free hfree
        rw [Bitmap.scanAndFlip, hscan] at hp
        cases hp

/-- `obtained_bytes_same_iff` for the stack of process 1. -/
theorem obtained_bytes_same_iff_twoSetups : ∃ s s' : Vm,
    (∀ memory : Nat → PageData, (∀ page, ¬ s.Hidden 1 page → memory page = s.memory page) →
      ∃ t', Obtain.setupStack.exec id 1 { s with memory } = .ok (true, t') ∧
        t'.pageContents 1 Obtain.setupStack.page = s'.pageContents 1 Obtain.setupStack.page) ↔
      s.EvictsOwn 1 ∨ (Obtain.setupStack.source 1 s).Filled s := by
  obtain ⟨s, s', hvisits, hset, -⟩ := twoSetups_runs
  have hproper : ∀ op ∈ [PagingOp.page (.setupStack 0)], op.Proper := by
    intro op hop
    rw [List.mem_singleton.mp hop]
    trivial
  exact ⟨s, s', obtained_bytes_same_iff (fun _ => .refl _) hproper oneFrameVm_unused hvisits hset⟩

/-- The stack page of process 1 shows what process 0 had in the frame. -/
theorem evicted_frame_leaks : ∃ (s s' t' : Vm) (memory : Nat → PageData),
    Routine.Visits (PagingOp.exec id fun _ => []) [.page (.setupStack 0)] oneFrameVm s ∧
      (∀ page, ¬ s.Hidden 1 page → memory page = s.memory page) ∧
      Obtain.setupStack.exec id 1 s = .ok (true, s') ∧
      Obtain.setupStack.exec id 1 { s with memory } = .ok (true, t') ∧
      t'.pageContents 1 (physBase - pgSize) ≠ s'.pageContents 1 (physBase - pgSize) := by
  obtain ⟨s, s', hvisits, hset, hfull, hvictim⟩ := twoSetups_runs
  have hinv : s.Sound := sound_of_run (fun _ => .refl _) (fun op hop => by
    rw [List.mem_singleton.mp hop]
    trivial) oneFrameVm_unused hvisits
  have hother : ¬ s.EvictsOwn 1 := by
    rintro ⟨-, fe, hfe, howner⟩
    rw [hfe, Option.map_some, howner] at hvictim
    cases hvictim
  obtain ⟨memory, hsame, t', hrun, hdiffer⟩ :=
    Obtain.setupStack.differ_of_not_filled hinv hother hfull hset
  exact ⟨s, s', t', memory, hvisits, hsame, hset, hrun, hdiffer⟩

end Pintos
