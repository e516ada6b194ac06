import Pintos.Vm.Lifecycle
import Pintos.Vm.PageContents

/-! What the operations of the paging system do to the supplemental entries, to the mapped pages and
to the bitmap of the swap slots: every operation is a sequence of a few kinds of changes, and an
invariant of the three has to be checked against these only. -/

namespace Pintos

namespace Vm

/-- Nothing happens to the entries, the mapped pages and the swap slots. -/
structure SameView (s s' : Vm) : Prop where
  ptSuppl : ∀ p, (s'.process p).ptSuppl = (s.process p).ptSuppl
  permission : ∀ p pg, pg % pgSize = 0 → s'.permission p pg = s.permission p pg
  swapBm : s'.swapBm = s.swapBm

/-- The entry of page `v` of process `o` becomes `x`. -/
def SetsEntry (s : Vm) (o v : Nat) (x : Option PtSupplEntry) (s' : Vm) : Prop :=
  ∀ p pg, s'.entry p pg = if p = o ∧ pg = v then x else s.entry p pg

/-- Page `v` of process `o` becomes mapped with a permission, or not mapped. -/
def SetsPermission (s : Vm) (o v : Nat) (x : Option Bool) (s' : Vm) : Prop :=
  ∀ p pg, pg % pgSize = 0 →
    s'.permission p pg = if p = o ∧ pg = v then x else s.permission p pg

/-- The page of entry `e` has been loaded. -/
def loadedEntry (e : PtSupplEntry) : Option PtSupplEntry :=
  if e.type = .lazy then none else some { e with presence := .present }

/-- The kinds of changes. -/
inductive Change (s s' : Vm) : Prop
  | same (h : s.SameView s')
  | swapOut (o v slot : Nat) (hscan : s.swapBm.scanAndFlip 0 1 true = some (slot, s'.swapBm))
      (hnone : s.entry o v = none)
      (hentry : s.SetsEntry o v (some ⟨v, .lazy, .swapped, slot, none⟩) s')
      (hperm : ∀ p pg, pg % pgSize = 0 → s'.permission p pg = s.permission p pg)
  | writeOut (o v : Nat) (pt : PtSupplEntry) (hpt : s.entry o v = some pt) (htype : pt.type = .mmf)
      (hentry : s.SetsEntry o v (some { pt with presence := .unloaded }) s')
      (hperm : ∀ p pg, pg % pgSize = 0 → s'.permission p pg = s.permission p pg)
      (hbm : s'.swapBm = s.swapBm)
  | clear (o v : Nat) (hout : ∀ e, s.entry o v = some e → e.presence ≠ .present)
      (hptSuppl : ∀ p, (s'.process p).ptSuppl = (s.process p).ptSuppl)
      (hperm : s.SetsPermission o v none s') (hbm : s'.swapBm = s.swapBm)
  | map (o v : Nat) (w : Bool) (hptSuppl : ∀ p, (s'.process p).ptSuppl = (s.process p).ptSuppl)
      (hperm : s.SetsPermission o v (some w) s') (hbm : s'.swapBm = s.swapBm)
  | readIn (o : Nat) (e : PtSupplEntry) (he : s.entry o e.vaddr = some e)
      (hpresence : e.presence = .unloaded) (halign : e.vaddr % pgSize = 0)
      (hmapped : (s.permission o e.vaddr).isSome)
      (hentry : s.SetsEntry o e.vaddr (loadedEntry e) s')
      (hperm : ∀ p pg, pg % pgSize = 0 → s'.permission p pg = s.permission p pg)
      (hbm : s'.swapBm = s.swapBm)
  | swapIn (o : Nat) (e : PtSupplEntry) (he : s.entry o e.vaddr = some e)
      (hpresence : e.presence = .swapped) (halign : e.vaddr % pgSize = 0)
      (hmapped : (s.permission o e.vaddr).isSome)
      (hentry : s.SetsEntry o e.vaddr (loadedEntry e) s')
      (hperm : ∀ p pg, pg % pgSize = 0 → s'.permission p pg = s.permission p pg)
      (hbm : s'.swapBm = s.swapBm.flip e.swapSlot)
  | add (o : Nat) (e : PtSupplEntry) (hnone : s.entry o e.vaddr = none)
      (hpresence : e.presence = .unloaded) (hentry : s.SetsEntry o e.vaddr (some e) s')
      (hperm : ∀ p pg, pg % pgSize = 0 → s'.permission p pg = s.permission p pg)
      (hbm : s'.swapBm = s.swapBm)
  | delete (o : Nat) (e : PtSupplEntry) (he : s.entry o e.vaddr = some e) (htype : e.type = .mmf)
      (hentry : s.SetsEntry o e.vaddr none s')
      (hperm : ∀ p pg, pg % pgSize = 0 → s'.permission p pg = s.permission p pg)
      (hbm : s'.swapBm = s.swapBm)

/-- A sequence of changes. -/
abbrev Changes : Vm → Vm → Prop := Relation.ReflTransGen Change

variable {s s' s1 s2 : Vm} {p q cur : Nat}

theorem SameView.refl (s : Vm) : s.SameView s := ⟨fun _ => rfl, fun _ _ _ => rfl, rfl⟩

theorem SameView.trans (h1 : s.SameView s1) (h2 : s1.SameView s2) : s.SameView s2 where
  ptSuppl p := (h2.ptSuppl p).trans (h1.ptSuppl p)
  permission p pg hpg := (h2.permission p pg hpg).trans (h1.permission p pg hpg)
  swapBm := h2.swapBm.trans h1.swapBm

/-- The two states have the same processes and the same swap bitmap. -/
theorem SameView.of_process (hprocess : s'.process = s.process) (hbm : s'.swapBm = s.swapBm) :
    s.SameView s' where
  ptSuppl p := by rw [hprocess]
  permission p pg _ := by rw [Vm.permission, Vm.permission, hprocess]
  swapBm := hbm

theorem SameView.entry (h : s.SameView s') (p pg : Nat) : s'.entry p pg = s.entry p pg := by
  rw [Vm.entry, Vm.entry, h.ptSuppl]

/-- Only bits of a page directory change that say nothing of its permissions. -/
theorem SameView.setPagedir {pd : Pagedir}
    (h : ∀ pg, pg % pgSize = 0 → (s.process cur).pagedir.Keeps pg pd) :
    s.SameView (s.setPagedir cur pd) where
  ptSuppl p := by
    by_cases hp : p = cur
    · subst hp
      simp
    · rw [setPagedir_process_ne s hp]
  permission p pg hpg := (setPagedir_keeps fun hp => by rw [hp]; exact h pg hpg).permission
  swapBm := rfl

theorem SameView.touch (s : Vm) (cur v : Nat) (write : Bool) :
    s.SameView (s.setPagedir cur ((s.process cur).pagedir.touch v write)) :=
  .setPagedir fun _ hpg => Pagedir.touch_keeps _ hpg v write

theorem Changes.same (h : s.SameView s') : s.Changes s' := .single (.same h)

theorem setPtSuppl_permission (s : Vm) (cur : Nat) (table : PtSuppl) (p pg : Nat) :
    (s.setPtSuppl cur table).permission p pg = s.permission p pg := by
  rw [Vm.permission, Vm.permission]
  by_cases hp : p = cur
  · subst hp
    simp
  · rw [setPtSuppl_process_ne s hp]

theorem setsEntry_setPtSuppl {table : PtSuppl} {v : Nat} {x : Option PtSupplEntry}
    (h : ∀ pg, table.get pg = if pg = v then x else s.entry cur pg) :
    s.SetsEntry cur v x (s.setPtSuppl cur table) := by
  intro p pg
  by_cases hp : p = cur
  · subst hp
    rw [Vm.entry, setPtSuppl_process_self, h]
    simp
  · rw [Vm.entry, setPtSuppl_process_ne s hp, if_neg fun h => hp h.1]
    rfl

theorem setsEntry_put (s : Vm) (cur : Nat) (e : PtSupplEntry) :
    s.SetsEntry cur e.vaddr (some e)
      (s.setPtSuppl cur ((s.process cur).ptSuppl.put e)) := by
  apply setsEntry_setPtSuppl
  intro pg
  rw [PtSuppl.put_get]
  rfl

theorem setsEntry_delete (s : Vm) (cur v : Nat) :
    s.SetsEntry cur v none (s.setPtSuppl cur ((s.process cur).ptSuppl.delete v)) := by
  apply setsEntry_setPtSuppl
  intro pg
  rw [PtSuppl.delete_get]
  rfl

/-- A change of entries seen from states that agree on them. -/
theorem SetsEntry.congr {o v : Nat} {x : Option PtSupplEntry} (h1 : s.SameView s1)
    (h : s1.SetsEntry o v x s') : s.SetsEntry o v x s' := by
  intro p pg
  rw [h p pg, h1.entry]

end Vm

variable {s s' : Vm} {cur : Nat}

/-! ### Eviction -/

theorem swapOutLoop_same {slot : Nat} {data : PageData} {iters : List Nat}
    (h : swapOutLoop slot data iters s = .ok ((), s')) : s.SameView s' := by
  induction iters generalizing s with
  | nil =>
    cases h
    exact Vm.SameView.refl _
  | cons iter iters ih =>
    rw [swapOutLoop, List.forM_eq_forM, List.forM_cons] at h
    obtain ⟨u, s1, h1, h⟩ := Routine.bind_ok.mp h
    rw [Routine.get_bind_apply] at h1
    obtain ⟨dev, s2, h2, h1⟩ := Routine.bind_ok.mp h1
    obtain rfl := Routine.lift_state h2
    cases h1
    have hset : s2.SameView { s2 with swapDevice := dev } := .of_process rfl rfl
    exact hset.trans (ih h)

/-- `swap_out` takes a free slot. -/
theorem swapOut_takes {data : PageData} {slot : Nat}
    (h : swapOut data s = .ok (some slot, s')) :
    s.swapBm.scanAndFlip 0 1 true = some (slot, s'.swapBm) ∧ s'.process = s.process := by
  have hprocess := swapOut_process h
  rw [swapOut, Routine.get_bind_apply] at h
  rcases hscan : s.swapBm.scanAndFlip 0 1 true with _ | ⟨i, bm⟩
  · rw [hscan] at h
    cases h
  · rw [hscan] at h
    obtain ⟨⟨⟩, s0, hset, h⟩ := Routine.bind_ok.mp h
    cases hset
    obtain ⟨u, s1, h1, h⟩ := Routine.bind_ok.mp h
    cases h
    have hbm := (swapOutLoop_same h1).swapBm
    exact ⟨by rw [hbm], hprocess⟩

theorem selectSweep_same (fes : List FrameEntry) (s : Vm) :
    s.SameView (selectSweep fes s).1 := by
  induction fes generalizing s with
  | nil => exact Vm.SameView.refl s
  | cons fe fes ih =>
    rw [selectSweep]
    split
    · refine Vm.SameView.trans (Vm.SameView.setPagedir fun pg hpg => ?_) (ih _)
      exact Pagedir.setAccessed_keeps _ hpg fe.threadVaddr false
    · exact Vm.SameView.refl s

theorem selectFrameToEvict_same {fe : FrameEntry} (h : selectFrameToEvict s = .ok (fe, s')) :
    s.SameView s' := by
  rw [selectFrameToEvict, Routine.get_bind_apply] at h
  have h1 := selectSweep_same s.frameHash s
  rcases hsweep : selectSweep s.frameHash s with ⟨s1, _ | fe1⟩
  · rw [hsweep] at h h1
    dsimp only at h
    have h2 := selectSweep_same s1.frameHash s1
    rcases hsweep2 : selectSweep s1.frameHash s1 with ⟨s2, _ | fe2⟩
    · rw [hsweep2] at h
      cases h
    · rw [hsweep2] at h h2
      cases h
      exact h1.trans h2
  · rw [hsweep] at h h1
    cases h
    exact h1

theorem fileWriteAt_same {file vaddr size offset : Nat}
    (h : fileWriteAt cur file vaddr size offset s = .ok ((), s')) : s.SameView s' := by
  rcases fileWriteAt_ok h with ⟨-, rfl⟩ | ⟨-, page, -, rfl⟩
  · exact Vm.SameView.refl _
  · exact (Vm.SameView.touch s cur vaddr false).trans (.of_process rfl rfl)

theorem writeBackMmf_same {fe : FrameEntry} {pt : PtSupplEntry} {info : PtSupplFileInfo}
    (h : writeBackMmf cur fe pt info s = .ok ((), s')) : s.SameView s' := by
  rcases writeBackMmf_ok h with ⟨-, rfl⟩ | ⟨-, hwrite⟩
  · exact Vm.SameView.refl _
  · exact fileWriteAt_same hwrite

/-- A page whose entry says that it is not loaded is unmapped. -/
theorem pagedirClearPage_changes {q v : Nat}
    (hout : ∀ e, s.entry q v = some e → e.presence ≠ .present)
    (h : pagedirClearPage q v s = .ok ((), s')) : s.Changes s' := by
  obtain ⟨halign, rfl⟩ := pagedirClearPage_ok h
  refine .single (.clear q v hout (fun p => ?_) (fun p pg hpg => ?_) rfl)
  · by_cases hp : p = q
    · subst hp
      simp
    · rw [Vm.setPagedir_process_ne s hp]
  · by_cases hsame : p = q ∧ pg = v
    · rw [if_pos hsame]
      obtain ⟨rfl, rfl⟩ := hsame
      simpa [Vm.permission] using (Pagedir.clearPage_self (s.process p).pagedir hpg).1
    · rw [if_neg hsame]
      refine (Vm.setPagedir_keeps fun hp => ?_).permission
      subst hp
      exact Pagedir.clearPage_keeps _ hpg halign fun hv => hsame ⟨rfl, hv⟩

theorem pageOutEvictedFrame_changes {fe : FrameEntry}
    (h : pageOutEvictedFrame cur fe s = .ok ((), s')) : s.Changes s' := by
  rw [pageOutEvictedFrame, Routine.get_bind_apply] at h
  cases hpt : (s.process fe.owner).ptSuppl.get fe.threadVaddr with
  | none =>
    rw [hpt] at h
    obtain ⟨slot, s1, hout, h⟩ := Routine.bind_ok.mp h
    cases slot with
    | none => cases h
    | some slot =>
      obtain ⟨hscan, hprocess⟩ := swapOut_takes hout
      simp only [Routine.modify_bind_apply] at h
      let e : PtSupplEntry := ⟨fe.threadVaddr, .lazy, .swapped, slot, none⟩
      have hput := Vm.setsEntry_put s1 fe.owner e
      have hchange : s.Change (s1.setPtSuppl fe.owner ((s1.process fe.owner).ptSuppl.put e)) := by
        refine .swapOut fe.owner fe.threadVaddr slot hscan hpt (fun p pg => ?_) fun p pg _ => ?_
        · rw [hput p pg, Vm.entry, hprocess]
          rfl
        · rw [Vm.setPtSuppl_permission, Vm.permission, hprocess]
          rfl
      refine Relation.ReflTransGen.head hchange (pagedirClearPage_changes (fun e' he' => ?_) h)
      rw [hput fe.owner fe.threadVaddr, if_pos ⟨rfl, rfl⟩] at he'
      cases he'
      simp
  | some pt =>
    rw [hpt] at h
    have hvaddr := (s.process fe.owner).ptSuppl.vaddr_eq hpt
    dsimp only at h
    split at h
    · rename_i htype
      cases hinfo : pt.fileInfo with
      | none =>
        rw [hinfo] at h
        cases h
      | some info =>
        rw [hinfo] at h
        dsimp only at h
        rw [← hinfo] at h
        obtain ⟨u, s1, hwrite, h⟩ := Routine.bind_ok.mp h
        have hsame := writeBackMmf_same hwrite
        simp only [Routine.modify_bind_apply] at h
        let e : PtSupplEntry := { pt with type := .mmf, presence := .unloaded }
        have hput := Vm.setsEntry_put s1 fe.owner e
        have he : e = { pt with presence := .unloaded } := by
          rw [htype]
        have hchange : s.Change (s1.setPtSuppl fe.owner ((s1.process fe.owner).ptSuppl.put e)) := by
          refine .writeOut fe.owner pt.vaddr pt (hvaddr ▸ hpt) htype ?_ (fun p pg hpg => ?_)
            hsame.swapBm
          · rw [← he]
            exact hput.congr hsame
          · rw [Vm.setPtSuppl_permission, hsame.permission p pg hpg]
        refine Relation.ReflTransGen.head hchange (pagedirClearPage_changes (fun e' he' => ?_) h)
        rw [hput fe.owner pt.vaddr, if_pos ⟨rfl, rfl⟩] at he'
        cases he'
        simp
    · cases h

theorem vmFrameAlloc_changes {order : List FrameEntry → List FrameEntry} {palZero : Bool}
    {vaddr frm : Nat} (h : vmFrameAlloc order cur palZero vaddr s = .ok (frm, s')) :
    s.Changes s' := by
  rw [vmFrameAlloc, Routine.get_bind_apply] at h
  rcases hscan : s.userPool.scanAndFlip 0 1 false with _ | ⟨page, pool⟩
  · rw [hscan] at h
    dsimp only at h
    rw [evictAndGetFrame] at h
    obtain ⟨vict, s1, hselect, h⟩ := Routine.bind_ok.mp h
    obtain ⟨u, s2, hout, h⟩ := Routine.bind_ok.mp h
    cases h
    exact ((Vm.Changes.same (selectFrameToEvict_same hselect)).trans
      (pageOutEvictedFrame_changes hout)).trans (Vm.Changes.same (.of_process rfl rfl))
  · rw [hscan] at h
    cases h
    exact Vm.Changes.same (.of_process rfl rfl)

/-! ### Page-in -/

theorem vmFrameFree_same {page : Nat} (h : vmFrameFree page s = .ok ((), s')) : s.SameView s' := by
  cases h
  exact .of_process rfl rfl

theorem pagedirSetPage_changes {upage kpage : Nat} {writable b : Bool}
    (h : pagedirSetPage cur upage kpage writable s = .ok (b, s')) :
    s.Changes s' ∧ (∀ p pg, s'.entry p pg = s.entry p pg) ∧
      (b = true → upage % pgSize = 0 ∧ (s'.permission cur upage).isSome) := by
  rcases pagedirSetPage_ok h with ⟨rfl, rfl⟩ | ⟨rfl, kernelPages, pd, hpd, rfl⟩
  · exact ⟨.refl, fun _ _ => rfl, nofun⟩
  obtain ⟨halign, hperm, hother⟩ := Pagedir.setPage_some hpd
  have hptSuppl : ∀ p, ((Vm.setPagedir { s with kernelPages } cur pd).process p).ptSuppl =
      (s.process p).ptSuppl := by
    intro p
    by_cases hp : p = cur
    · subst hp
      simp
    · rw [Vm.setPagedir_process_ne _ hp]
  have hpages : s.SetsPermission cur upage (some writable)
      (Vm.setPagedir { s with kernelPages } cur pd) := by
    intro p pg hpg
    by_cases hsame : p = cur ∧ pg = upage
    · rw [if_pos hsame]
      obtain ⟨rfl, rfl⟩ := hsame
      simpa [Vm.permission] using hperm
    · rw [if_neg hsame]
      refine (Vm.Keeps.trans (Vm.keeps_of_process rfl) (Vm.setPagedir_keeps fun hp => ?_)).permission
      subst hp
      exact hother pg hpg fun hv => hsame ⟨rfl, hv⟩
  refine ⟨.single (.map cur upage writable hptSuppl hpages rfl), fun p pg => ?_, fun _ => ?_⟩
  · rw [Vm.entry, Vm.entry, hptSuppl]
  · refine ⟨halign, ?_⟩
    rw [hpages cur upage halign, if_pos ⟨rfl, rfl⟩]
    rfl

/-- The entry of a page once the page is loaded. -/
theorem setsEntry_loaded (s : Vm) (cur : Nat) (e : PtSupplEntry) :
    s.SetsEntry cur e.vaddr (Vm.loadedEntry e) (s.setPtSuppl cur
      (if e.type = .lazy then (s.process cur).ptSuppl.delete e.vaddr
      else (s.process cur).ptSuppl.put { e with presence := .present })) := by
  rw [Vm.loadedEntry]
  split
  · exact Vm.setsEntry_delete s cur e.vaddr
  · exact Vm.setsEntry_put s cur { e with presence := .present }

theorem ptSupplReadIn_changes {e : PtSupplEntry} {inf : PtSupplFileInfo} {frm : Nat} {b : Bool}
    (he : s.entry cur e.vaddr = some e) (hpresence : e.presence = .unloaded)
    (h : ptSupplReadIn cur frm e inf s = .ok (b, s')) : s.Changes s' := by
  rw [ptSupplReadIn] at h
  obtain ⟨read, s1, hread, h⟩ := Routine.bind_ok.mp h
  have hsame : s.SameView s1 := by
    cases hread
    exact .of_process rfl rfl
  obtain ⟨pgdir, s2, hset, hfinish⟩ := Routine.bind_ok.mp h
  have hmap : s1.Changes s2 ∧ (∀ p pg, s2.entry p pg = s1.entry p pg) ∧
      (pgdir = true → e.vaddr % pgSize = 0 ∧ (s2.permission cur e.vaddr).isSome) := by
    cases read with
    | true => exact pagedirSetPage_changes hset
    | false =>
      cases hset
      exact ⟨.refl, fun _ _ => rfl, (by simp)⟩
  obtain ⟨hchanges, hentries, hmapped⟩ := hmap
  refine ((Vm.Changes.same hsame).trans hchanges).trans ?_
  rcases ptSupplFinish_ok hfinish with ⟨rfl, -, hloaded⟩ | ⟨-, -, hfree⟩
  · cases hloaded
    obtain ⟨halign, hperm⟩ := hmapped rfl
    refine .single (.readIn cur e ?_ hpresence halign hperm (setsEntry_loaded s2 cur e)
      (fun p pg _ => Vm.setPtSuppl_permission s2 cur _ p pg) rfl)
    rw [hentries, hsame.entry, he]
  · exact Vm.Changes.same (vmFrameFree_same hfree)

theorem swapInLoop_same {slot vaddr : Nat} {iters : List Nat}
    (h : swapInLoop cur slot vaddr iters s = .ok ((), s')) : s.SameView s' := by
  induction iters generalizing s with
  | nil =>
    cases h
    exact Vm.SameView.refl _
  | cons iter iters ih =>
    rw [swapInLoop, List.forM_eq_forM, List.forM_cons] at h
    obtain ⟨u, s1, h1, h⟩ := Routine.bind_ok.mp h
    rw [Routine.get_bind_apply] at h1
    obtain ⟨data, s2, h2, h1⟩ := Routine.bind_ok.mp h1
    obtain rfl := Routine.lift_state h2
    cases hpage : (s2.process cur).pagedir.getPage vaddr with
    | none =>
      rw [hpage] at h1
      cases h1
    | some page =>
      rw [hpage] at h1
      cases h1
      refine (Vm.SameView.touch s2 cur vaddr true).trans (Vm.SameView.trans ?_ (ih h))
      exact .of_process rfl rfl

theorem ptSupplSwapIn_changes {e : PtSupplEntry} {frm : Nat} {b : Bool}
    (he : s.entry cur e.vaddr = some e) (hpresence : e.presence = .swapped)
    (h : ptSupplSwapIn cur frm e s = .ok (b, s')) : s.Changes s' := by
  rw [ptSupplSwapIn] at h
  obtain ⟨pgdir, s1, hset, hrest⟩ := Routine.bind_ok.mp h
  obtain ⟨hchanges, hentries, hmapped⟩ := pagedirSetPage_changes hset
  refine hchanges.trans ?_
  cases pgdir with
  | true =>
    obtain ⟨u, s2, hin, hfinish⟩ := Routine.bind_ok.mp hrest
    replace hfinish : ptSupplFinish cur frm e true s2 = .ok (b, s') := hfinish
    obtain ⟨u', s3, hloaded, hend⟩ := Routine.bind_ok.mp hfinish
    cases hend
    cases hloaded
    rw [swapIn] at hin
    obtain ⟨u'', s4, hloop, hflip⟩ := Routine.bind_ok.mp hin
    cases hflip
    have hsame := swapInLoop_same hloop
    obtain ⟨halign, hperm⟩ := hmapped rfl
    refine (Vm.Changes.same hsame).trans (.single (.swapIn cur e ?_ hpresence halign ?_ ?_ ?_ rfl))
    · rw [hsame.entry, hentries, he]
    · rw [hsame.permission cur _ halign]
      exact hperm
    · exact setsEntry_loaded { s4 with swapBm := s4.swapBm.flip e.swapSlot } cur e
    · intro p pg _
      exact Vm.setPtSuppl_permission _ cur _ p pg
  | false =>
    replace hrest : ptSupplFinish cur frm e false s1 = .ok (b, s') := hrest
    obtain ⟨u, s2, hfree, hend⟩ := Routine.bind_ok.mp hrest
    cases hend
    exact Vm.Changes.same (vmFrameFree_same hfree)

variable {order : List FrameEntry → List FrameEntry} {bucket : PtSuppl → List Nat}

theorem ptSupplPageIn_changes {v : Nat} {b : Bool}
    (h : ptSupplPageIn order cur v s = .ok (b, s')) : s.Changes s' := by
  obtain ⟨frm, s1, e, halloc, hentry, hbranch⟩ := ptSupplPageIn_found h
  have hv : e.vaddr = v := (s1.process cur).ptSuppl.vaddr_eq hentry
  rw [← hv] at hentry
  refine (vmFrameAlloc_changes halloc).trans ?_
  rcases hbranch with ⟨hpresence, hin⟩ | ⟨inf, hpresence, -, hin⟩
  · exact ptSupplSwapIn_changes hentry hpresence hin
  · exact ptSupplReadIn_changes hentry hpresence hin

theorem ptSupplGrowStack_changes {front : Nat}
    (h : ptSupplGrowStack order cur front s = .ok ((), s')) : s.Changes s' := by
  rw [ptSupplGrowStack] at h
  obtain ⟨frm, s1, halloc, h⟩ := Routine.bind_ok.mp h
  obtain ⟨mapped, s2, hset, h⟩ := Routine.bind_ok.mp h
  refine ((vmFrameAlloc_changes halloc).trans (pagedirSetPage_changes hset).1).trans ?_
  cases mapped with
  | true =>
    cases h
    exact .refl
  | false => exact Vm.Changes.same (vmFrameFree_same h)

theorem setupStackPage_changes {b : Bool} (h : setupStackPage order cur s = .ok (b, s')) :
    s.Changes s' := by
  rw [setupStackPage] at h
  obtain ⟨frm, s1, halloc, h⟩ := Routine.bind_ok.mp h
  obtain ⟨result, s2, hinstall, h⟩ := Routine.bind_ok.mp h
  have hmap : s1.Changes s2 := by
    rw [installPage, Routine.get_bind_apply] at hinstall
    split at hinstall
    · exact (pagedirSetPage_changes hinstall).1
    · cases hinstall
      exact .refl
  refine ((vmFrameAlloc_changes halloc).trans hmap).trans ?_
  cases result with
  | true =>
    cases h
    exact .refl
  | false =>
    obtain ⟨u, s3, hfree, h⟩ := Routine.bind_ok.mp h
    cases h
    exact Vm.Changes.same (vmFrameFree_same hfree)

theorem pageFault_changes {faultAddr esp : Nat} {b : Bool}
    (h : pageFault order cur faultAddr esp s = .ok (b, s')) : s.Changes s' := by
  rcases pageFault_found h with
    ⟨-, rfl, -⟩ | ⟨-, -, -, -, ⟨e, -, handled, hin, -⟩ | ⟨-, handled, hgrow⟩⟩
  · exact .refl
  · exact ptSupplPageIn_changes hin
  · rcases ptSupplCheckAndGrowStack_found hgrow with ⟨-, rfl⟩ | ⟨-, hgrow⟩
    · exact .refl
    · exact ptSupplGrowStack_changes hgrow

theorem access_same {vaddr : Nat} {write : Option UInt8} {b : Bool}
    (h : access cur vaddr write s = .ok (b, s')) : s.SameView s' := by
  rw [access, Routine.get_bind_apply] at h
  cases hpage : (s.process cur).pagedir.getPage vaddr with
  | none =>
    rw [hpage] at h
    cases h
    exact .refl _
  | some page =>
    rw [hpage] at h
    have htouch := Vm.SameView.touch s cur vaddr write.isSome
    cases write with
    | none =>
      cases h
      exact htouch
    | some value =>
      cases h
      exact htouch.trans (.of_process rfl rfl)

/-! ### New entries, `munmap` and the end of a process -/

theorem ptSupplAdd_changes {e : PtSupplEntry} {b : Bool} (hpresence : e.presence = .unloaded)
    (h : ptSupplAdd cur e s = .ok (b, s')) : s.Changes s' := by
  rw [ptSupplAdd, Routine.get_bind_apply] at h
  split at h
  · rename_i hnone
    cases h
    exact .single (.add cur e (Option.isNone_iff_eq_none.mp hnone) hpresence
      (Vm.setsEntry_put s cur e) (fun p pg _ => Vm.setPtSuppl_permission s cur _ p pg) rfl)
  · cases h
    exact .refl

theorem mmapLoop_changes {fe len pageAddress : Nat} {ofss : List Nat} {b : Bool}
    (h : mmapLoop cur fe len ofss pageAddress s = .ok (b, s')) : s.Changes s' := by
  induction ofss generalizing s pageAddress with
  | nil =>
    cases h
    exact .refl
  | cons ofs ofss ih =>
    rw [mmapLoop, Routine.get_bind_apply] at h
    split at h
    · cases h
      exact .refl
    · by_cases huser : physBase ≤ (pageAddress + ofs) % 2 ^ 32
      · rw [if_pos huser] at h
        cases h
      · rw [if_neg huser] at h
        beta_reduce at h
        split at h
        · cases h
          exact .refl
        · obtain ⟨added, s1, hadd, h⟩ := Routine.bind_ok.mp h
          rw [ptSupplAddMmf, Routine.get_bind_apply] at hadd
          exact (ptSupplAdd_changes rfl hadd).trans (ih h)

theorem findMapping_found {table : PtSuppl} {vs : List Nat} {mapId : Nat} {e : PtSupplEntry}
    (h : findMapping vs table mapId = some e) :
    table.get e.vaddr = some e ∧ e.inMapping mapId = true := by
  obtain ⟨v, -, hv⟩ := List.exists_of_findSome?_eq_some h
  obtain ⟨hget, hin⟩ := Option.filter_eq_some_iff.mp hv
  exact ⟨(table.vaddr_eq hget).symm ▸ hget, hin⟩

theorem PtSupplEntry.type_of_inMapping {e : PtSupplEntry} {mapId : Nat}
    (h : e.inMapping mapId = true) : e.type = .mmf := by
  rw [inMapping, Bool.and_eq_true, decide_eq_true_eq] at h
  exact h.1

theorem ptSupplFlushMmf_same {e : PtSupplEntry} (h : ptSupplFlushMmf cur e s = .ok ((), s')) :
    s.SameView s' := by
  rw [ptSupplFlushMmf] at h
  split at h
  · cases hinfo : e.fileInfo with
    | none =>
      rw [hinfo] at h
      cases h
    | some info =>
      rw [hinfo] at h
      exact fileWriteAt_same h
  · cases h
    exact .refl _

/-- What the deletion of an entry and a write to a file keep, the loop of `munmap` keeps. -/
theorem unmapLoop_rel {R : Vm → Vm → Prop} {mapId fuel : Nat} (hrefl : ∀ s, R s s)
    (hdelete : ∀ {s t e}, s.entry cur e.vaddr = some e → e.inMapping mapId = true →
      R (s.setPtSuppl cur ((s.process cur).ptSuppl.delete e.vaddr)) t → R s t)
    (hflush : ∀ {s s1 t e}, ptSupplFlushMmf cur e s = .ok ((), s1) → R s1 t → R s t)
    (h : unmapLoop bucket cur mapId fuel s = .ok ((), s')) : R s s' := by
  induction fuel generalizing s with
  | zero => cases h
  | succ fuel ih =>
    rw [unmapLoop, Routine.get_bind_apply] at h
    cases hfound : findMapping (bucket (s.process cur).ptSuppl) (s.process cur).ptSuppl mapId with
    | none =>
      rw [hfound] at h
      cases h
      exact hrefl _
    | some delet =>
      rw [hfound] at h
      obtain ⟨hget, hin⟩ := findMapping_found hfound
      obtain ⟨⟨⟩, s1, hset, h⟩ := Routine.bind_ok.mp h
      cases hset
      refine hdelete hget hin ?_
      split at h
      · obtain ⟨u, s2, hrun, h⟩ := Routine.bind_ok.mp h
        exact hflush hrun (ih h)
      · exact ih h

theorem unmapLoop_changes {mapId fuel : Nat}
    (h : unmapLoop bucket cur mapId fuel s = .ok ((), s')) : s.Changes s' := by
  refine unmapLoop_rel (R := Vm.Changes) (fun _ => .refl) (fun {s t e} hget hin hrest => ?_)
    (fun hflush hrest => (Vm.Changes.same (ptSupplFlushMmf_same hflush)).trans hrest) h
  have hchange : s.Change (s.setPtSuppl cur ((s.process cur).ptSuppl.delete e.vaddr)) :=
    .delete cur e hget (PtSupplEntry.type_of_inMapping hin) (Vm.setsEntry_delete s cur e.vaddr)
      (fun p pg _ => Vm.setPtSuppl_permission s cur _ p pg) rfl
  exact Relation.ReflTransGen.head hchange hrest

/-- The loop of `munmap` unmaps no page. -/
theorem unmapLoop_permission {mapId fuel : Nat}
    (h : unmapLoop bucket cur mapId fuel s = .ok ((), s')) :
    ∀ p pg, pg % pgSize = 0 → s'.permission p pg = s.permission p pg := by
  refine unmapLoop_rel
    (R := fun s t => ∀ p pg, pg % pgSize = 0 → t.permission p pg = s.permission p pg)
    (fun _ _ _ _ => rfl) (fun {s t e} _ _ hrest p pg hpg => ?_)
    (fun hflush hrest p pg hpg =>
      (hrest p pg hpg).trans ((ptSupplFlushMmf_same hflush).permission p pg hpg)) h
  rw [hrest p pg hpg, Vm.setPtSuppl_permission]

/-- The processes, the swap bitmap and the files of a state. -/
def Vm.ShowsProcesses (s : Vm) (d : (Nat → Process) × Bitmap × (Nat → List UInt8)) : Prop :=
  s.process = d.1 ∧ s.swapBm = d.2.1 ∧ s.file = d.2.2

theorem pagedirDestroy_runs (pd : Pagedir) (d : (Nat → Process) × Bitmap × (Nat → List UInt8)) :
    Routine.Runs Vm.ShowsProcesses (pagedirDestroy pd) d () d := by
  have hpages : Routine.Runs Vm.ShowsProcesses
      (modify fun s => { s with kernelPages := s.kernelPages + 1 } : VmRoutine Unit) d () d :=
    .of_modify fun s hs => hs
  rw [pagedirDestroy]
  refine (Routine.Runs.forM fun pde _ => ?_).bind hpages
  split
  · refine (Routine.Runs.forM fun pte _ => ?_).bind hpages
    dsimp only
    split
    · exact .of_modify fun s hs => hs
    · exact .pure
  · exact .pure

/-- `process_exit` ends and leaves the process without pages and entries. -/
theorem processExit_ends (cur : Nat) (s : Vm) : ∃ s', processExit cur s = .ok ((), s') ∧
    s'.process = Function.update s.process cur ⟨Pagedir.empty, PtSuppl.empty⟩ ∧
      s'.swapBm = s.swapBm ∧ s'.file = s.file := by
  obtain ⟨s1, hrun, hprocess, hbm, hfile⟩ := pagedirDestroy_runs (s.process cur).pagedir
    ((s.setPagedir cur Pagedir.empty).process, s.swapBm, s.file) (s.setPagedir cur Pagedir.empty)
    ⟨rfl, rfl, rfl⟩
  refine ⟨s1.setPtSuppl cur PtSuppl.empty, ?_, ?_, hbm, hfile⟩
  · rw [processExit, Routine.get_bind_apply, Routine.modify_bind_apply, Routine.bind_of_ok hrun]
    rfl
  · simp [Vm.setPtSuppl, Vm.setPagedir, Vm.setProcess, hprocess]

/-- Every operation but the end of a process is a sequence of changes. -/
theorem PagingOp.exec_changes {op : PagingOp} (hop : ∀ cur, op ≠ .exit cur)
    (h : op.exec order bucket s = .ok ((), s')) : s.Changes s' := by
  cases op with
  | page op =>
    rw [PagingOp.exec] at h
    obtain ⟨b, s1, h, hend⟩ := Routine.bind_ok.mp h
    cases hend
    cases op with
    | addLazy cur file offset pageAddr readBytes zeroBytes writable =>
      rw [VmOp.exec, ptSupplAddLazy, Routine.get_bind_apply] at h
      exact ptSupplAdd_changes rfl h
    | addMmf cur file offset pageAddr readBytes =>
      rw [VmOp.exec, ptSupplAddMmf, Routine.get_bind_apply] at h
      exact ptSupplAdd_changes rfl h
    | setupStack cur => exact setupStackPage_changes h
    | pageFault cur faultAddr esp => exact pageFault_changes h
    | access cur vaddr write => exact Vm.Changes.same (access_same h)
  | mmap cur fe startPg =>
    rw [PagingOp.exec] at h
    obtain ⟨r, s1, hmmap, hend⟩ := Routine.bind_ok.mp h
    obtain rfl : s1 = s' := by
      cases hend
      rfl
    rw [ptSupplHandleMmap, Routine.get_bind_apply] at hmmap
    split at hmmap
    · cases hmmap
      exact .refl
    · obtain ⟨⟨⟩, s2, hcount, hmmap⟩ := Routine.bind_ok.mp hmmap
      cases hcount
      obtain ⟨b, s3, hloop, hmmap⟩ := Routine.bind_ok.mp hmmap
      have hlast : s1 = s3 := by
        split at hmmap <;> cases hmmap <;> rfl
      subst hlast
      refine Relation.ReflTransGen.trans ?_ (mmapLoop_changes hloop)
      exact Vm.Changes.same (.of_process rfl rfl)
  | munmap cur mapId =>
    rw [PagingOp.exec, memoryUnmapFile, ptSupplHandleUnmap, Routine.get_bind_apply] at h
    exact unmapLoop_changes h
  | exit cur => exact absurd rfl (hop cur)

end Pintos
