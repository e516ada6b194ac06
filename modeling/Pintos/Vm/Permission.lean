import Pintos.Vm.PageSpec

/-! The write permission of a user page over its life: from its installation through any sequence of
page-ins and evictions.  The supplemental entry that carries the permission of a lazily loaded page
is deleted when the page is loaded, and the one made at eviction carries none, so the permission is
lost exactly when a read-only page comes back from swap. -/

namespace Pintos

/-- A memory access by process `cur` that does not fault, with the byte it stores if it is a
write. -/
def access (cur vaddr : Nat) (write : Option UInt8) : VmRoutine Bool := do
  let s ← get
  match (s.process cur).pagedir.getPage vaddr with
  | none => pure false
  | some page =>
    set (s.setPagedir cur ((s.process cur).pagedir.touch vaddr write.isSome))
    match write with
    | none => pure true
    | some value =>
      modify fun s => s.setMemory page fun i =>
        if i.val = vaddr % pgSize then value else s.memory page i
      pure true

section

variable {p pg cur : Nat} {s s' : Vm} {order : List FrameEntry → List FrameEntry}

theorem access_keeps (hpg : pg % pgSize = 0) {vaddr : Nat} {write : Option UInt8} {b : Bool}
    (h : access cur vaddr write s = .ok (b, s')) : s.Keeps p pg s' := by
  rw [access, Routine.get_bind_apply] at h
  cases hpage : (s.process cur).pagedir.getPage vaddr with
  | none =>
    rw [hpage] at h
    cases h
    exact Vm.Keeps.refl p pg _
  | some page =>
    rw [hpage] at h
    have htouch : s.Keeps p pg
        (s.setPagedir cur ((s.process cur).pagedir.touch vaddr write.isSome)) := by
      refine Vm.setPagedir_keeps fun hp => ?_
      rw [hp]
      exact Pagedir.touch_keeps _ hpg vaddr _
    cases write with
    | none =>
      cases h
      exact htouch
    | some value =>
      cases h
      exact htouch.trans (Vm.keeps_of_process rfl)

/-- An entry added for another page. -/
theorem ptSupplAdd_keeps {e : PtSupplEntry} {b : Bool} (hne : ¬ (cur = p ∧ e.vaddr = pg))
    (h : ptSupplAdd cur e s = .ok (b, s')) : s.Keeps p pg s' := by
  rw [ptSupplAdd, Routine.get_bind_apply] at h
  split at h
  · cases h
    refine Vm.setPtSuppl_keeps fun hp => ?_
    subst hp
    rw [PtSuppl.put_get, if_neg fun hv => hne ⟨rfl, hv.symm⟩]
    rfl
  · cases h
    exact Vm.Keeps.refl p pg _

theorem ptSupplAdd_self {e : PtSupplEntry} {b : Bool} (hnone : s.entry cur e.vaddr = none)
    (h : ptSupplAdd cur e s = .ok (b, s')) :
    s'.entry cur e.vaddr = some e ∧ s'.permission cur e.vaddr = s.permission cur e.vaddr := by
  rw [ptSupplAdd, Routine.get_bind_apply, show (s.process cur).ptSuppl.get e.vaddr = none from hnone]
    at h
  cases h
  exact ⟨by simp [Vm.entry, PtSuppl.put_get], by simp [Vm.permission]⟩

theorem installPage_keeps (hpg : pg % pgSize = 0) {upage kpage : Nat} {writable b : Bool}
    (hne : ¬ (cur = p ∧ upage = pg)) (h : installPage cur upage kpage writable s = .ok (b, s')) :
    s.Keeps p pg s' := by
  rw [installPage, Routine.get_bind_apply] at h
  split at h
  · exact pagedirSetPage_keeps hpg hne h
  · cases h
    exact Vm.Keeps.refl p pg _

theorem setupStackPage_other (hpg : pg % pgSize = 0) {b : Bool}
    (hne : ¬ (cur = p ∧ physBase - pgSize = pg)) (h : setupStackPage order cur s = .ok (b, s')) :
    PageOut p pg s s' := by
  rw [setupStackPage] at h
  obtain ⟨frm, s1, halloc, h⟩ := Routine.bind_ok.mp h
  obtain ⟨result, s2, hinstall, h⟩ := Routine.bind_ok.mp h
  refine (vmFrameAlloc_ok hpg halloc).trans_keeps ((installPage_keeps hpg hne hinstall).trans ?_)
  cases result with
  | true =>
    cases h
    exact Vm.Keeps.refl p pg _
  | false =>
    obtain ⟨u, s3, hfree, h⟩ := Routine.bind_ok.mp h
    cases h
    exact Vm.keeps_of_process (vmFrameFree_process hfree)

/-- The stack grows exactly if the test says so. -/
theorem ptSupplCheckAndGrowStack_found {vaddress esp : Nat} {b : Bool}
    (h : ptSupplCheckAndGrowStack order cur vaddress esp s = .ok (b, s')) :
    (b = false ∧ s' = s) ∨ b = true ∧ ptSupplGrowStack order cur vaddress s = .ok ((), s') := by
  rw [ptSupplCheckAndGrowStack] at h
  cases hgrows : isStackGrowth vaddress esp with
  | true =>
    rw [hgrows, if_pos rfl] at h
    obtain ⟨u, s1, hgrow, h⟩ := Routine.bind_ok.mp h
    cases h
    exact .inr ⟨rfl, hgrow⟩
  | false =>
    rw [hgrows, if_neg nofun] at h
    cases h
    exact .inl ⟨rfl, rfl⟩

theorem ptSupplCheckAndGrowStack_other (hpg : pg % pgSize = 0) {vaddress esp : Nat} {b : Bool}
    (hne : ¬ (cur = p ∧ pgRoundDown vaddress = pg))
    (h : ptSupplCheckAndGrowStack order cur vaddress esp s = .ok (b, s')) : PageOut p pg s s' := by
  rcases ptSupplCheckAndGrowStack_found h with ⟨-, rfl⟩ | ⟨-, hgrow⟩
  · exact .keeps (Vm.Keeps.refl p pg _)
  · exact ptSupplGrowStack_other hpg hne hgrow

theorem setupStackPage_self (h : setupStackPage order cur s = .ok (true, s')) :
    (∃ t, PageOut cur (physBase - pgSize) s t ∧
      s'.entry cur (physBase - pgSize) = t.entry cur (physBase - pgSize)) ∧
      s'.permission cur (physBase - pgSize) = some true := by
  rw [setupStackPage] at h
  obtain ⟨frm, s1, halloc, h⟩ := Routine.bind_ok.mp h
  obtain ⟨result, s2, hinstall, h⟩ := Routine.bind_ok.mp h
  cases result with
  | true =>
    cases h
    rw [installPage, Routine.get_bind_apply] at hinstall
    split at hinstall
    · obtain ⟨hentry, hperm⟩ := pagedirSetPage_self hinstall
      exact ⟨⟨s1, vmFrameAlloc_ok (by decide) halloc, hentry⟩, hperm⟩
    · cases hinstall
  | false =>
    obtain ⟨u, s3, hfree, h⟩ := Routine.bind_ok.mp h
    cases h

/-- Stack growth maps the page writable, or leaves it as the search for a frame left it. -/
theorem ptSupplCheckAndGrowStack_self {vaddress esp : Nat} {b : Bool}
    (h : ptSupplCheckAndGrowStack order cur vaddress esp s = .ok (b, s')) :
    ∃ t, PageOut cur (pgRoundDown vaddress) s t ∧
      s'.entry cur (pgRoundDown vaddress) = t.entry cur (pgRoundDown vaddress) ∧
      (s'.permission cur (pgRoundDown vaddress) = some true ∨
        s'.permission cur (pgRoundDown vaddress) = t.permission cur (pgRoundDown vaddress)) := by
  rcases ptSupplCheckAndGrowStack_found h with ⟨-, rfl⟩ | ⟨-, hgrow⟩
  · exact ⟨s', .keeps (Vm.Keeps.refl _ _ _), rfl, Or.inr rfl⟩
  · rw [ptSupplGrowStack] at hgrow
    obtain ⟨frm, s1, halloc, hmap⟩ := Routine.bind_ok.mp hgrow
    obtain ⟨mapped, s2, hset, hlast⟩ := Routine.bind_ok.mp hmap
    refine ⟨s1, vmFrameAlloc_ok (pgRoundDown_aligned vaddress) halloc, ?_⟩
    have hself := pagedirSetPage_self hset
    cases mapped with
    | true =>
      cases hlast
      exact ⟨hself.1, Or.inl hself.2⟩
    | false =>
      obtain ⟨rfl, -⟩ := hself
      have hprocess := vmFrameFree_process hlast
      exact ⟨by rw [Vm.entry, hprocess]; rfl, Or.inr (by rw [Vm.permission, hprocess]; rfl)⟩

/-- How `page_fault` serves a fault. -/
theorem pageFault_found {faultAddr esp : Nat} {b : Bool}
    (h : pageFault order cur faultAddr esp s = .ok (b, s')) :
    (b = false ∧ s' = s ∧ ¬ ((s.process cur).pagedir.getPage faultAddr = none ∧
        faultAddr ≠ 0 ∧ faultAddr < physBase)) ∨
      ((s.process cur).pagedir.getPage faultAddr = none ∧ faultAddr ≠ 0 ∧ faultAddr < physBase ∧
        (b = true → ((s'.process cur).pagedir.getPage faultAddr).isSome) ∧
        ((∃ e, s.entry cur (pgRoundDown faultAddr) = some e ∧
            ∃ handled, ptSupplPageIn order cur (pgRoundDown faultAddr) s = .ok (handled, s') ∧
              (b = true → handled = true)) ∨
          s.entry cur (pgRoundDown faultAddr) = none ∧
            ∃ handled, ptSupplCheckAndGrowStack order cur faultAddr esp s = .ok (handled, s'))) := by
  rw [pageFault, Routine.get_bind_apply] at h
  split at h
  · rename_i hvalid
    refine Or.inr ⟨hvalid.1, hvalid.2.1, hvalid.2.2, ?_⟩
    obtain ⟨handled, s1, hhandled, h⟩ := Routine.bind_ok.mp h
    cases h
    have hboth : ∀ {found : Bool}, (handled && found) = true → handled = true ∧ found = true :=
      fun hb => by rwa [Bool.and_eq_true] at hb
    refine ⟨fun hb => (hboth hb).2, ?_⟩
    · rw [ptSupplHandlePageFault, if_neg (not_not.mpr hvalid.2)] at hhandled
      beta_reduce at hhandled
      rw [Routine.get_bind_apply] at hhandled
      cases hentry : (s.process cur).ptSuppl.get (pgRoundDown faultAddr) with
      | some e =>
        rw [hentry] at hhandled
        rw [← (s.process cur).ptSuppl.vaddr_eq hentry]
        rw [← (s.process cur).ptSuppl.vaddr_eq hentry] at hentry
        exact Or.inl ⟨e, hentry, handled, hhandled, fun hb => (hboth hb).1⟩
      | none =>
        rw [hentry] at hhandled
        exact Or.inr ⟨hentry, handled, hhandled⟩
  · rename_i hvalid
    cases h
    exact Or.inl ⟨rfl, rfl, hvalid⟩

theorem pageFault_other (hpg : pg % pgSize = 0) {faultAddr esp : Nat} {b : Bool}
    (hne : ¬ (cur = p ∧ pgRoundDown faultAddr = pg ∧ faultAddr ≠ 0 ∧ faultAddr < physBase))
    (h : pageFault order cur faultAddr esp s = .ok (b, s')) : PageOut p pg s s' := by
  rcases pageFault_found h with ⟨-, rfl, -⟩ | ⟨-, h0, hlt, -, hserved⟩
  · exact .keeps (Vm.Keeps.refl p pg _)
  have hne' : ¬ (cur = p ∧ pgRoundDown faultAddr = pg) := fun he => hne ⟨he.1, he.2, h0, hlt⟩
  rcases hserved with ⟨e, -, handled, hin, -⟩ | ⟨-, handled, hgrow⟩
  · exact ptSupplPageIn_other hpg hne' hin
  · exact ptSupplCheckAndGrowStack_other hpg hne' hgrow

end

/-- What can happen to the pages of the processes: a page is installed by `load`, by `mmap` or by
`setup_stack`; an access faults, which pages a page in, grows the stack or ends the process; an
access goes through.  Evictions happen inside these, when there is no free frame. -/
inductive VmOp where
  | addLazy (cur file offset pageAddr readBytes zeroBytes : Nat) (writable : Bool)
  | addMmf (cur file offset pageAddr readBytes : Nat)
  | setupStack (cur : Nat)
  | pageFault (cur faultAddr esp : Nat)
  | access (cur vaddr : Nat) (write : Option UInt8)

namespace VmOp

def exec (order : List FrameEntry → List FrameEntry) : VmOp → VmRoutine Bool
  | addLazy cur file offset pageAddr readBytes zeroBytes writable =>
    ptSupplAddLazy cur file offset pageAddr readBytes zeroBytes writable
  | addMmf cur file offset pageAddr readBytes => ptSupplAddMmf cur file offset pageAddr readBytes
  | setupStack cur => setupStackPage order cur
  | pageFault cur faultAddr esp => Pintos.pageFault order cur faultAddr esp
  | access cur vaddr write => Pintos.access cur vaddr write

/-- The step installs page `pg` of process `p` and gives it permission `w`.  A fault does so when it
grows the stack. -/
def Gives (p pg : Nat) (w : Bool) : VmOp → Prop
  | addLazy cur _ _ pageAddr _ _ writable => cur = p ∧ pageAddr = pg ∧ writable = w
  | addMmf cur _ _ pageAddr _ => cur = p ∧ pageAddr = pg ∧ w = true
  | setupStack cur => cur = p ∧ physBase - pgSize = pg ∧ w = true
  | pageFault cur faultAddr _ => cur = p ∧ pgRoundDown faultAddr = pg ∧ w = true
  | access _ _ _ => False

/-- The step installs page `pg` of process `p`, in whatever state it is taken. -/
def Installs (p pg : Nat) : VmOp → Prop
  | addLazy cur _ _ pageAddr _ _ _ => cur = p ∧ pageAddr = pg
  | addMmf cur _ _ pageAddr _ => cur = p ∧ pageAddr = pg
  | setupStack cur => cur = p ∧ physBase - pgSize = pg
  | pageFault _ _ _ | access _ _ _ => False

/-- The step is a fault of process `p` on page `pg`. -/
def FaultsAt (p pg : Nat) : VmOp → Prop
  | pageFault cur faultAddr _ =>
    cur = p ∧ pgRoundDown faultAddr = pg ∧ faultAddr ≠ 0 ∧ faultAddr < physBase
  | _ => False

end VmOp

namespace Vm

/-- Page `pg` of process `p` is not in use. -/
structure Fresh (s : Vm) (p pg : Nat) : Prop where
  aligned : pg % pgSize = 0
  entry : s.entry p pg = none
  permission : s.permission p pg = none
  frame : ∀ fe ∈ s.frameHash, ¬ (fe.owner = p ∧ fe.threadVaddr = pg)

/-- The entry of the page says that it is in swap. -/
def InSwap (s : Vm) (p pg : Nat) : Prop := ∃ e, s.entry p pg = some e ∧ e.presence = .swapped

/-- Where page `pg` of process `p`, installed with permission `w`, can be while it has kept it: still
in its file, a mapped file's page, loaded without an entry, or in swap, where the entry no longer
says. -/
inductive Kept (w : Bool) (p pg : Nat) (s : Vm) : Prop where
  | inFile {e : PtSupplEntry} {inf : PtSupplFileInfo} (hentry : s.entry p pg = some e)
      (htype : e.type = .lazy) (hpresence : e.presence = .unloaded) (hinfo : e.fileInfo = some inf)
      (hw : inf.writable = w) (hperm : s.permission p pg = none)
  | mapped {e : PtSupplEntry} {inf : PtSupplFileInfo} (hentry : s.entry p pg = some e)
      (htype : e.type = .mmf) (hpresence : e.presence ≠ .swapped) (hinfo : e.fileInfo = some inf)
      (hw : inf.writable = w) (hperm : ∀ w', s.permission p pg = some w' → w' = w)
  | loaded (hentry : s.entry p pg = none) (hperm : s.permission p pg = some w)
  | inSwap {e : PtSupplEntry} (hentry : s.entry p pg = some e) (htype : e.type = .lazy)
      (hpresence : e.presence = .swapped) (hinfo : e.fileInfo = none)
      (hperm : s.permission p pg = none)
      (hpde : (s.process p).pagedir.pde (Pagedir.pdNo pg) = true)

variable {w : Bool} {p pg cur : Nat} {s s' : Vm}

theorem Kept.permission (h : Kept w p pg s) {w' : Bool} (hp : s.permission p pg = some w') :
    w' = w := by
  cases h with
  | inFile _ _ _ _ _ hperm =>
    rw [hperm] at hp
    cases hp
  | mapped _ _ _ _ _ hperm => exact hperm w' hp
  | loaded _ hperm =>
    rw [hperm] at hp
    cases hp
    rfl
  | inSwap _ _ _ _ hperm _ =>
    rw [hperm] at hp
    cases hp

theorem Kept.keeps (h : Kept w p pg s) (hk : s.Keeps p pg s') : Kept w p pg s' := by
  cases h with
  | inFile hentry htype hpresence hinfo hw hperm =>
    exact .inFile (hk.entry.trans hentry) htype hpresence hinfo hw (hk.permission.trans hperm)
  | mapped hentry htype hpresence hinfo hw hperm =>
    refine .mapped (hk.entry.trans hentry) htype hpresence hinfo hw fun w' hw' => ?_
    exact hperm w' (hk.permission.symm.trans hw')
  | loaded hentry hperm => exact .loaded (hk.entry.trans hentry) (hk.permission.trans hperm)
  | inSwap hentry htype hpresence hinfo hperm hpde =>
    exact .inSwap (hk.entry.trans hentry) htype hpresence hinfo (hk.permission.trans hperm)
      (hk.pagedir.pde hpde)

theorem pde_of_permission (h : s.permission p pg = some w) :
    (s.process p).pagedir.pde (Pagedir.pdNo pg) = true := by
  by_contra hpde
  rw [Vm.permission, Pagedir.permission, Pagedir.lookupPage, if_neg hpde] at h
  cases h

/-- An eviction loses no permission yet: it takes a loaded page to swap. -/
theorem Kept.pageOut (h : Kept w p pg s) (ho : PageOut p pg s s') : Kept w p pg s' := by
  cases ho with
  | keeps hk => exact h.keeps hk
  | anonymous slot hframe hnone hentry hperm hpde =>
    cases h with
    | inFile he _ _ _ _ _ =>
      rw [hnone] at he
      cases he
    | mapped he _ _ _ _ _ =>
      rw [hnone] at he
      cases he
    | loaded _ hp => exact .inSwap hentry rfl rfl rfl hperm (hpde (pde_of_permission hp))
    | inSwap he _ _ _ _ _ =>
      rw [hnone] at he
      cases he
  | mmf pt hframe hpt htype hentry hperm =>
    cases h with
    | inFile he ht _ _ _ _ =>
      rw [hpt] at he
      cases he
      rw [htype] at ht
      cases ht
    | mapped he ht _ hinfo hw _ =>
      rw [hpt] at he
      cases he
      refine .mapped hentry rfl nofun hinfo hw fun w' hw' => ?_
      rw [hperm] at hw'
      cases hw'
    | loaded he _ =>
      rw [hpt] at he
      cases he
    | inSwap he ht _ _ _ _ =>
      rw [hpt] at he
      cases he
      rw [htype] at ht
      cases ht

/-- An eviction for the frame of a page that is being paged in takes no page to swap. -/
theorem inSwap_of_pageOut {e : PtSupplEntry} (hentry : s.entry p pg = some e)
    (ho : PageOut p pg s s') (hswap : s'.InSwap p pg) : s.InSwap p pg := by
  obtain ⟨e', he', hpresence⟩ := hswap
  cases ho with
  | keeps hk => exact ⟨e', hk.entry.symm.trans he', hpresence⟩
  | anonymous slot hframe hnone _ _ _ =>
    rw [hnone] at hentry
    cases hentry
  | mmf pt hframe hpt htype hout _ =>
    rw [hout] at he'
    cases he'
    cases hpresence

/-- Paging in a page that is not in swap maps it with the permission it was installed with. -/
theorem Kept.pageIn {order : List FrameEntry → List FrameEntry} {e : PtSupplEntry} {b : Bool}
    (hpg : pg % pgSize = 0) (h : Kept w p pg s) (hentry : s.entry p pg = some e)
    (hswap : ¬ s.InSwap p pg) (hrun : ptSupplPageIn order p pg s = .ok (b, s')) :
    Kept w p pg s' := by
  obtain ⟨frm, s1, e1, halloc, hentry1, hbranch⟩ := ptSupplPageIn_found hrun
  have hout : PageOut p pg s s1 := vmFrameAlloc_ok hpg halloc
  obtain rfl : e1.vaddr = pg := (s1.process p).ptSuppl.vaddr_eq hentry1
  rcases hbranch with ⟨hpresence, -⟩ | ⟨inf, hpresence, hinfo, hread⟩
  · exact absurd (inSwap_of_pageOut hentry hout ⟨e1, hentry1, hpresence⟩) hswap
  obtain ⟨hloaded, hkeeps⟩ := ptSupplReadIn_self hread
  cases b with
  | false => exact (h.pageOut hout).keeps (hkeeps rfl)
  | true =>
    obtain ⟨hentry2, hperm⟩ := hloaded rfl
    cases h.pageOut hout with
    | inFile he htype _ hi hw _ =>
      rw [hentry1] at he
      cases he
      rw [hinfo] at hi
      cases hi
      rw [if_pos htype] at hentry2
      rw [hw] at hperm
      exact .loaded hentry2 hperm
    | mapped he htype _ hi hw _ =>
      rw [hentry1] at he
      cases he
      rw [hinfo] at hi
      cases hi
      rw [if_neg (by rw [htype]; nofun)] at hentry2
      refine .mapped hentry2 htype nofun hinfo hw fun w' hw' => ?_
      rw [hperm, hw] at hw'
      cases hw'
      rfl
    | loaded he _ =>
      rw [hentry1] at he
      cases he
    | inSwap he _ hp _ _ _ =>
      rw [hentry1] at he
      cases he
      rw [hpresence] at hp
      cases hp

/-- Paging in a page from swap maps it writable. -/
theorem Kept.swapIn {order : List FrameEntry → List FrameEntry} {b : Bool}
    (hpg : pg % pgSize = 0) (h : Kept w p pg s) (hswap : s.InSwap p pg)
    (hrun : ptSupplPageIn order p pg s = .ok (b, s')) :
    s'.entry p pg = none ∧ s'.permission p pg = some true := by
  obtain ⟨frm, s1, e1, halloc, hentry1, hbranch⟩ := ptSupplPageIn_found hrun
  obtain ⟨e, he, hpresence⟩ := hswap
  have hinswap : ∃ e', s1.entry p pg = some e' ∧ e'.type = .lazy ∧ e'.presence = .swapped ∧
      e'.fileInfo = none ∧ (s1.process p).pagedir.pde (Pagedir.pdNo pg) = true := by
    cases h with
    | inFile he' _ hp _ _ _ =>
      rw [he] at he'
      cases he'
      rw [hpresence] at hp
      cases hp
    | mapped he' _ hp _ _ _ =>
      rw [he] at he'
      cases he'
      exact absurd hpresence hp
    | loaded he' _ =>
      rw [he] at he'
      cases he'
    | inSwap he' htype hp hinfo hperm hpde =>
      cases vmFrameAlloc_ok hpg halloc with
      | keeps hk => exact ⟨_, hk.entry.trans he', htype, hp, hinfo, hk.pagedir.pde hpde⟩
      | anonymous slot hframe hnone _ _ _ =>
        rw [hnone] at he'
        cases he'
      | mmf pt hframe hpt ht _ _ =>
        rw [hpt] at he'
        cases he'
        rw [ht] at htype
        cases htype
  obtain ⟨e', he1, htype, hp, hinfo, hpde⟩ := hinswap
  rw [hentry1] at he1
  cases he1
  obtain rfl : e1.vaddr = pg := (s1.process p).ptSuppl.vaddr_eq hentry1
  rcases hbranch with ⟨-, hin⟩ | ⟨inf, hp', -, -⟩
  · obtain ⟨hloaded, hfails⟩ := ptSupplSwapIn_self hpg hin
    cases b with
    | false =>
      rw [hfails rfl] at hpde
      cases hpde
    | true =>
      obtain ⟨hentry2, hperm⟩ := hloaded rfl
      rw [if_pos htype] at hentry2
      rw [hinfo] at hperm
      exact ⟨hentry2, hperm⟩
  · rw [hp] at hp'
    cases hp'

/-- A step that leaves the page to others keeps its permission. -/
theorem Kept.other {order : List FrameEntry → List FrameEntry} {op : VmOp} {b : Bool}
    (hpg : pg % pgSize = 0) (h : Kept w p pg s) (hop : ¬ op.Installs p pg)
    (hfault : ¬ op.FaultsAt p pg) (hrun : op.exec order s = .ok (b, s')) : Kept w p pg s' := by
  cases op with
  | addLazy cur file offset pageAddr readBytes zeroBytes writable =>
    rw [VmOp.exec, ptSupplAddLazy, Routine.get_bind_apply] at hrun
    refine h.keeps (ptSupplAdd_keeps ?_ hrun)
    exact hop
  | addMmf cur file offset pageAddr readBytes =>
    rw [VmOp.exec, ptSupplAddMmf, Routine.get_bind_apply] at hrun
    refine h.keeps (ptSupplAdd_keeps ?_ hrun)
    exact hop
  | setupStack cur => exact h.pageOut (setupStackPage_other hpg hop hrun)
  | access cur vaddr write => exact h.keeps (access_keeps hpg hrun)
  | pageFault cur faultAddr esp => exact h.pageOut (pageFault_other hpg hfault hrun)

theorem getPage_isSome_iff (pd : Pagedir) (v : Nat) :
    (pd.getPage v).isSome ↔ (pd.permission (pgRoundDown v)).isSome := by
  have hpd : Pagedir.pdNo (pgRoundDown v) = Pagedir.pdNo v := by
    unfold Pagedir.pdNo pgRoundDown pgSize
    omega
  rw [Pagedir.getPage, Pagedir.permission, Pagedir.lookupPage, Pagedir.lookupPage, hpd,
    pgRoundDown_of_aligned (pgRoundDown_aligned v)]
  split
  · split <;> rfl
  · rfl

theorem getPage_eq_none_iff {v : Nat} :
    (s.process p).pagedir.getPage v = none ↔ s.permission p (pgRoundDown v) = none := by
  rw [← Option.not_isSome_iff_eq_none, ← Option.not_isSome_iff_eq_none, getPage_isSome_iff]
  rfl

theorem Kept.permission_inSwap (h : Kept w p pg s) (hswap : s.InSwap p pg) :
    s.permission p pg = none := by
  obtain ⟨e, he, hpresence⟩ := hswap
  cases h with
  | inFile _ _ _ _ _ hperm => exact hperm
  | mapped he' _ hp _ _ _ =>
    rw [he] at he'
    cases he'
    exact absurd hpresence hp
  | loaded he' _ =>
    rw [he] at he'
    cases he'
  | inSwap _ _ _ _ hperm _ => exact hperm

/-- A fault of the page's own process keeps the permission unless the page is in swap; then the page
is mapped writable. -/
theorem Kept.fault {order : List FrameEntry → List FrameEntry} {op : VmOp} {b : Bool}
    (hpg : pg % pgSize = 0) (h : Kept w p pg s) (hfault : op.FaultsAt p pg)
    (hrun : op.exec order s = .ok (b, s')) :
    (¬ s.InSwap p pg ∧ Kept w p pg s') ∨
      (s.InSwap p pg ∧ s'.entry p pg = none ∧ s'.permission p pg = some true) := by
  cases op with
  | pageFault cur faultAddr esp =>
    obtain ⟨rfl, rfl, h0, hlt⟩ := hfault
    by_cases hswap : s.InSwap cur (pgRoundDown faultAddr)
    · refine Or.inr ⟨hswap, ?_⟩
      rcases pageFault_found hrun with
        ⟨-, -, hpresent⟩ | ⟨-, -, -, -, ⟨e, -, handled, hin, -⟩ | ⟨hnone, -⟩⟩
      · exact absurd ⟨getPage_eq_none_iff.mpr (h.permission_inSwap hswap), h0, hlt⟩ hpresent
      · exact h.swapIn hpg hswap hin
      · obtain ⟨e, he, -⟩ := hswap
        rw [hnone] at he
        cases he
    · refine Or.inl ⟨hswap, ?_⟩
      rcases pageFault_found hrun with
        ⟨-, rfl, -⟩ | ⟨hget, -, -, -, ⟨e, he, handled, hin, -⟩ | ⟨hnone, -⟩⟩
      · exact h
      · exact h.pageIn hpg he hswap hin
      · -- without an entry the page is loaded, so it does not fault
        have hperm := getPage_eq_none_iff.mp hget
        cases h with
        | inFile he _ _ _ _ _ =>
          rw [hnone] at he
          cases he
        | mapped he _ _ _ _ _ =>
          rw [hnone] at he
          cases he
        | loaded _ hp =>
          rw [hperm] at hp
          cases hp
        | inSwap he _ _ _ _ _ =>
          rw [hnone] at he
          cases he
  | addLazy _ _ _ _ _ _ _ => exact hfault.elim
  | addMmf _ _ _ _ _ => exact hfault.elim
  | setupStack _ => exact hfault.elim
  | access _ _ _ => exact hfault.elim

/-- An installation of a page that is not in use gives it its permission. -/
theorem Kept.of_install {order : List FrameEntry → List FrameEntry} {how : VmOp}
    (hfresh : s.Fresh p pg) (hgives : how.Gives p pg w)
    (hrun : how.exec order s = .ok (true, s')) : Kept w p pg s' := by
  have hkeeps : ∀ {t : Vm}, PageOut p pg s t → s.Keeps p pg t := fun ho => by
    cases ho with
    | keeps hk => exact hk
    | anonymous _ hframe _ _ _ _ =>
      obtain ⟨fe, hfe, hnames⟩ := hframe
      exact absurd hnames (hfresh.frame fe hfe)
    | mmf _ hframe _ _ _ _ =>
      obtain ⟨fe, hfe, hnames⟩ := hframe
      exact absurd hnames (hfresh.frame fe hfe)
  cases how with
  | addLazy cur file offset pageAddr readBytes zeroBytes writable =>
    obtain ⟨rfl, rfl, rfl⟩ := hgives
    rw [VmOp.exec, ptSupplAddLazy, Routine.get_bind_apply] at hrun
    obtain ⟨hentry, hperm⟩ := ptSupplAdd_self hfresh.entry hrun
    exact .inFile hentry rfl rfl rfl rfl (hperm.trans hfresh.permission)
  | addMmf cur file offset pageAddr readBytes =>
    obtain ⟨rfl, rfl, rfl⟩ := hgives
    rw [VmOp.exec, ptSupplAddMmf, Routine.get_bind_apply] at hrun
    obtain ⟨hentry, hperm⟩ := ptSupplAdd_self hfresh.entry hrun
    have hnone := hperm.trans hfresh.permission
    refine .mapped hentry rfl nofun rfl rfl fun w' hw' => ?_
    cases hw'.symm.trans hnone
  | setupStack cur =>
    obtain ⟨rfl, rfl, rfl⟩ := hgives
    obtain ⟨hentry, hperm⟩ := setupStackPage_self hrun
    obtain ⟨t, hout, hsame⟩ := hentry
    exact .loaded (hsame.trans ((hkeeps hout).entry.trans hfresh.entry)) hperm
  | pageFault cur faultAddr esp =>
    obtain ⟨rfl, rfl, rfl⟩ := hgives
    rcases pageFault_found hrun with ⟨hb, -⟩ | ⟨-, -, -, hpresent, ⟨e, he, -⟩ | ⟨-, handled, hgrow⟩⟩
    · cases hb
    · rw [hfresh.entry] at he
      cases he
    · have hsome := (getPage_isSome_iff _ _).mp (hpresent rfl)
      obtain ⟨t, hout, hentry, hperm⟩ := ptSupplCheckAndGrowStack_self hgrow
      have hk := hkeeps hout
      refine .loaded (hentry.trans (hk.entry.trans hfresh.entry)) ?_
      rcases hperm with hperm | hperm
      · exact hperm
      · have hnone := hperm.trans (hk.permission.trans hfresh.permission)
        rw [show (s'.process cur).pagedir.permission _ = none from hnone] at hsome
        cases hsome
  | access cur vaddr write => exact hgives.elim

/-- The run lemma: from a state in which the page has kept its permission, it keeps it exactly as
long as no read-only page comes back from swap. -/
theorem Kept.permission_iff {order : List FrameEntry → List FrameEntry} {ops : List VmOp}
    (hpg : pg % pgSize = 0) (h : Kept w p pg s) (hops : ∀ op ∈ ops, ¬ op.Installs p pg)
    (hrun : ∃ r, Routine.execAll (VmOp.exec order) ops s = .ok r) :
    (∀ m, Routine.Visits (VmOp.exec order) ops s m →
        ∀ w', m.permission p pg = some w' → w' = w) ↔
      ∀ op m, Routine.Takes (VmOp.exec order) ops s op m → op.FaultsAt p pg →
        m.InSwap p pg → w = true := by
  induction ops generalizing s with
  | nil =>
    refine iff_of_true (fun m hm => ?_) fun op m htakes => absurd htakes Routine.not_takes_nil
    rw [Routine.visits_nil.mp hm]
    exact fun w' => h.permission
  | cons op ops ih =>
    obtain ⟨⟨outs, t⟩, hrun⟩ := hrun
    obtain ⟨b, bs, s1, hop, hrest, -⟩ := Routine.execAll_cons_ok.mp hrun
    have hops1 : ∀ o ∈ ops, ¬ o.Installs p pg := fun o ho => hops o (List.mem_cons_of_mem _ ho)
    -- the run after a step that has kept the permission
    have rest : Kept w p pg s1 → (op.FaultsAt p pg → s.InSwap p pg → w = true) →
        ((∀ m, Routine.Visits (VmOp.exec order) (op :: ops) s m →
            ∀ w', m.permission p pg = some w' → w' = w) ↔
          ∀ o m, Routine.Takes (VmOp.exec order) (op :: ops) s o m → o.FaultsAt p pg →
            m.InSwap p pg → w = true) := by
      intro h1 hhead
      constructor
      · intro hvisits o m htakes hfault hswap
        rcases (Routine.takes_cons_of_ok hop).mp htakes with ⟨rfl, rfl⟩ | htakes
        · exact hhead hfault hswap
        · refine (ih h1 hops1 ⟨_, hrest⟩).mp (fun m hm => ?_) o m htakes hfault hswap
          exact hvisits m ((Routine.visits_cons_of_ok hop).mpr (Or.inr hm))
      · intro htakes m hm
        rcases (Routine.visits_cons_of_ok hop).mp hm with rfl | hm
        · exact fun w' => h.permission
        · refine (ih h1 hops1 ⟨_, hrest⟩).mpr (fun o m hm => ?_) m hm
          exact htakes o m ((Routine.takes_cons_of_ok hop).mpr (Or.inr hm))
    by_cases hfault : op.FaultsAt p pg
    · rcases h.fault hpg hfault hop with ⟨hswap, h1⟩ | ⟨hswap, hentry, hperm⟩
      · exact rest h1 fun _ hs => absurd hs hswap
      · cases w with
        | true => exact rest (.loaded hentry hperm) fun _ _ => rfl
        | false =>
          refine iff_of_false (fun hvisits => ?_) fun htakes => ?_
          · have hvisit := (Routine.visits_cons_of_ok hop).mpr
              (Or.inr (Routine.visits_start ops s1))
            cases hvisits s1 hvisit true hperm
          · cases htakes op s ((Routine.takes_cons_of_ok hop).mpr (Or.inl ⟨rfl, rfl⟩)) hfault hswap
    · exact rest (h.other hpg (hops op List.mem_cons_self) hfault hop) fun hf => absurd hf hfault

end Vm

/-- A page that is installed with permission `w` is mapped with `w` in every state of a run of page
faults, evictions and accesses if and only if no fault of the run brings it back from swap, or it was
installed writable. -/
theorem page_permission_iff (order : List FrameEntry → List FrameEntry) {how : VmOp} {p pg : Nat}
    {w : Bool} {s0 s1 : Vm} (hfresh : s0.Fresh p pg) (hgives : how.Gives p pg w)
    (hinstall : how.exec order s0 = .ok (true, s1)) {ops : List VmOp}
    (hops : ∀ op ∈ ops, ¬ op.Installs p pg)
    (hrun : ∃ r, Routine.execAll (VmOp.exec order) ops s1 = .ok r) :
    (∀ m, Routine.Visits (VmOp.exec order) ops s1 m →
        ∀ w', m.permission p pg = some w' → w' = w) ↔
      ∀ op m, Routine.Takes (VmOp.exec order) ops s1 op m → op.FaultsAt p pg →
        m.InSwap p pg → w = true :=
  (Vm.Kept.of_install hfresh hgives hinstall).permission_iff hfresh.aligned hops hrun

theorem twoSlots_size : 16 < 2 ^ 32 := by decide

/-- A machine with one frame, a swap device of two slots and one file of one byte. -/
def oneFrameVm : Vm where
  process _ := ⟨Pagedir.empty, PtSuppl.empty⟩
  frameHash := []
  userPool := Bitmap.ofAll 1 false
  kernelPages := 4
  memory _ := PageData.zeros
  swapBm := Bitmap.ofAll 2 true
  swapDevice := ⟨16, twoSlots_size, fun _ => SectorData.zeros⟩
  file _ := [0x90]
  denyWrite _ := false
  lastMap := 0

theorem oneFrameVm_fresh : oneFrameVm.Fresh 0 0x8048000 :=
  ⟨by decide, rfl, rfl, fun fe hfe => nomatch hfe⟩

/-- The read-only code page of a process is loaded, evicted for a stack page, and paged in again. -/
def codeStackCode : List VmOp :=
  [.pageFault 0 0x8048010 0, .pageFault 0 0xbffffff0 0xbffffff0, .pageFault 0 0x8048020 0]

/-- The state after the code page has been added. -/
def codePageVm : Vm :=
  oneFrameVm.setPtSuppl 0 (PtSuppl.empty.put
    (ptSupplSetupFileInfo 0 0 0 0 0x8048000 1 4095 false .lazy))

theorem codePageVm_install :
    VmOp.exec id (.addLazy 0 0 0 0x8048000 1 4095 false) oneFrameVm = .ok (true, codePageVm) := rfl

theorem codePageVm_runs :
    (Routine.execAll (VmOp.exec id) codeStackCode codePageVm).toBool = true := by
  decide +kernel

/-- `page_permission_iff` for the code page in this run. -/
theorem page_permission_iff_codeStackCode :
    (∀ m, Routine.Visits (VmOp.exec id) codeStackCode codePageVm m →
        ∀ w', m.permission 0 0x8048000 = some w' → w' = false) ↔
      ∀ op m, Routine.Takes (VmOp.exec id) codeStackCode codePageVm op m →
        op.FaultsAt 0 0x8048000 → m.InSwap 0 0x8048000 → false = true :=
  page_permission_iff id oneFrameVm_fresh
    (show (VmOp.addLazy 0 0 0 0x8048000 1 4095 false).Gives 0 0x8048000 false from ⟨rfl, rfl, rfl⟩)
    codePageVm_install (by simp [codeStackCode, VmOp.Installs])
    (Routine.ok_of_toBool codePageVm_runs)

/-- The code page was installed read-only, and `pt_suppl_page_in` maps it writable when it comes back
from swap. -/
theorem codePage_becomes_writable :
    VmOp.exec id (.addLazy 0 0 0 0x8048000 1 4095 false) oneFrameVm = .ok (true, codePageVm) ∧
      (Routine.execAll (VmOp.exec id) codeStackCode codePageVm).map
          (fun r => (r.1, r.2.permission 0 0x8048000)) =
        .ok ([true, true, true], some true) := by
  refine ⟨codePageVm_install, ?_⟩
  decide +kernel

end Pintos
