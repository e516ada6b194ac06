import Mathlib.Data.Finset.Card
import Mathlib.Data.Set.Finite.Basic
import Pintos.Vm.WrittenBytes

/-! `munmap` from any state that the paging system reaches: the entries of the mapping are deleted and
its dirty pages are written to the file, but its pages stay in the page directory.  The bytes of a page
that has been evicted before are in the file only if the eviction has written them there. -/

namespace Pintos

namespace Vm

/-- Page `pg` of process `cur` belongs to the mapping. -/
def InMapping (s : Vm) (cur mapId pg : Nat) : Prop :=
  ∃ e, s.entry cur pg = some e ∧ e.inMapping mapId = true

/-- The files `file` have the bytes last written through the pages of the mapping. -/
def HasWritten (s : Vm) (w : LastWritten) (cur mapId : Nat) (file : Nat → List UInt8) : Prop :=
  ∀ pg e info (i : Fin 4096) b, s.entry cur pg = some e → e.inMapping mapId = true →
    e.fileInfo = some info → i.val < info.readBytes → w cur pg i = some b →
      (file info.file)[info.offset + i.val]? = some b

end Vm

/-- The mapping has ended in `s'`, and nothing else has changed for the process. -/
structure UnmapExact (s : Vm) (w : LastWritten) (cur mapId : Nat) (s' : Vm) : Prop where
  written : s.HasWritten w cur mapId s'.file
  noEntry : ∀ pg, ¬ s'.InMapping cur mapId pg
  notPresent : ∀ pg, s.InMapping cur mapId pg → s'.permission cur pg = none
  otherEntries : ∀ pg, ¬ s.InMapping cur mapId pg → s'.entry cur pg = s.entry cur pg
  otherPages : ∀ pg, ¬ s.InMapping cur mapId pg →
    (s'.process cur).pagedir.lookupPage pg = (s.process cur).pagedir.lookupPage pg ∧
      ∀ page, (s.process cur).pagedir.getPage pg = some page → s'.memory page = s.memory page

/-- `bucket` lists the addresses of a table, and of every table that deletions leave of it. -/
def ListsEntries (bucket : PtSuppl → List Nat) (table : PtSuppl) : Prop :=
  ∀ t : PtSuppl, (∀ v e, t.get v = some e → table.get v = some e) →
    ∀ v, v ∈ bucket t ↔ (t.get v).isSome

variable {bucket : PtSuppl → List Nat} {s s' : Vm} {w : LastWritten} {cur mapId : Nat}

theorem ListsEntries.delete {table : PtSuppl} (h : ListsEntries bucket table) (v : Nat) :
    ListsEntries bucket (table.delete v) := by
  intro t ht
  apply h t
  intro u e hu
  have hget := ht u e hu
  rw [PtSuppl.delete_get] at hget
  split at hget
  · cases hget
  · exact hget

/-- The bucket without the entry that was deleted. -/
theorem ListsEntries.card_lt {table : PtSuppl} (h : ListsEntries bucket table) {v : Nat}
    (hv : (table.get v).isSome) :
    (bucket (table.delete v)).toFinset.card < (bucket table).toFinset.card := by
  have hmem : v ∈ (bucket table).toFinset :=
    List.mem_toFinset.mpr ((h table (fun _ _ he => he) v).mpr hv)
  have herase : (bucket (table.delete v)).toFinset = (bucket table).toFinset.erase v := by
    ext u
    rw [List.mem_toFinset, Finset.mem_erase, List.mem_toFinset, h table (fun _ _ he => he),
      h.delete v (table.delete v) (fun _ _ he => he), PtSuppl.delete_get]
    split
    · rename_i hu
      simp [hu]
    · rename_i hu
      simp [hu]
  rw [herase]
  exact Finset.card_erase_lt_of_mem hmem

/-- The search by map id misses no entry of the mapping. -/
theorem findMapping_none {table : PtSuppl} (h : ListsEntries bucket table)
    (hnone : findMapping (bucket table) table mapId = none) {v : Nat} {e : PtSupplEntry}
    (he : table.get v = some e) : e.inMapping mapId = false := by
  have hmem : v ∈ bucket table := (h table (fun _ _ he => he) v).mpr (by rw [he]; rfl)
  have hfilter := List.findSome?_eq_none_iff.mp hnone v hmem
  rw [he] at hfilter
  simpa using Option.filter_eq_none_iff.mp hfilter e rfl

theorem Vm.setPtSuppl_self (s : Vm) (cur : Nat) :
    s.setPtSuppl cur (s.process cur).ptSuppl = s := by
  rw [Vm.setPtSuppl, Vm.setProcess, Function.update_eq_self]

theorem Vm.setPtSuppl_setPtSuppl (s : Vm) (cur : Nat) (table table' : PtSuppl) :
    (s.setPtSuppl cur table).setPtSuppl cur table' = s.setPtSuppl cur table' := by
  simp [Vm.setPtSuppl, Vm.setProcess]

theorem ptSupplFlushMmf_of_unloaded {e : PtSupplEntry} (h : e.presence = .unloaded) (s : Vm) :
    ptSupplFlushMmf cur e s = .ok ((), s) := by
  rw [ptSupplFlushMmf, if_neg]
  · rfl
  · rw [h]
    simp

/-- When all pages of the mapping are in their file, the loop deletes their entries and does nothing
else. -/
theorem unmapLoop_unloaded {fuel : Nat} (hlists : ListsEntries bucket (s.process cur).ptSuppl)
    (hfuel : (bucket (s.process cur).ptSuppl).toFinset.card < fuel)
    (hunloaded : ∀ v e, s.entry cur v = some e → e.inMapping mapId = true →
      e.presence = .unloaded) :
    ∃ table, unmapLoop bucket cur mapId fuel s = .ok ((), s.setPtSuppl cur table) ∧
      ∀ v, table.get v = (s.entry cur v).filter fun e => !e.inMapping mapId := by
  induction fuel generalizing s with
  | zero => omega
  | succ fuel ih =>
    rw [unmapLoop, Routine.get_bind_apply]
    dsimp only
    cases hfound : findMapping (bucket (s.process cur).ptSuppl) (s.process cur).ptSuppl mapId with
    | none =>
      refine ⟨(s.process cur).ptSuppl, ?_, fun v => ?_⟩
      · rw [Vm.setPtSuppl_self]
        rfl
      · show s.entry cur v = _
        cases he : s.entry cur v with
        | none => rfl
        | some e => rw [Option.filter_some, findMapping_none hlists hfound he, Bool.not_false, if_pos rfl]
    | some delet =>
      obtain ⟨hget, hin⟩ := findMapping_found hfound
      have hflush : ∀ t, ptSupplFlushMmf cur delet t = .ok ((), t) :=
        ptSupplFlushMmf_of_unloaded (hunloaded _ _ hget hin)
      have hsome : ((s.process cur).ptSuppl.get delet.vaddr).isSome := by
        rw [hget]
        rfl
      have hcard := hlists.card_lt hsome
      have hprocess := Vm.setPtSuppl_process_self s cur ((s.process cur).ptSuppl.delete delet.vaddr)
      have hentry := Vm.setsEntry_delete s cur delet.vaddr cur
      obtain ⟨table, hrun, htable⟩ := ih
        (s := s.setPtSuppl cur ((s.process cur).ptSuppl.delete delet.vaddr))
        (by rw [hprocess]; exact hlists.delete delet.vaddr) (by rw [hprocess]; dsimp only; omega)
        (fun v e he => by
          rw [hentry v] at he
          split at he
          · cases he
          · exact hunloaded v e he)
      refine ⟨table, ?_, fun v => ?_⟩
      · rw [Vm.setPtSuppl_setPtSuppl] at hrun
        dsimp only
        rw [Routine.set_bind_apply]
        split
        · rw [Routine.bind_of_ok (hflush _)]
          exact hrun
        · exact hrun
      · rw [htable v, hentry v]
        split
        · rename_i hv
          rw [hv.2, show s.entry cur delet.vaddr = some delet from hget, Option.filter_some, hin,
            Bool.not_true, if_neg (by simp)]
          rfl
        · rfl

/-- A page and the addresses in it are mapped alike. -/
theorem Vm.permission_pgRoundDown (s : Vm) (p pg : Nat) :
    s.permission p (pgRoundDown pg) = s.permission p pg := by
  have hpd : Pagedir.pdNo (pgRoundDown pg) = Pagedir.pdNo pg := by
    unfold Pagedir.pdNo pgRoundDown pgSize
    omega
  rw [Vm.permission, Vm.permission, Pagedir.permission, Pagedir.permission, Pagedir.lookupPage,
    Pagedir.lookupPage, hpd, pgRoundDown_of_aligned (pgRoundDown_aligned pg)]

/-- The mapping has ended only if its pages were not present, and only its entries are deleted then. -/
theorem munmap_unloaded (hresident : s.Resident) (hlists : ListsEntries bucket (s.process cur).ptSuppl)
    (habsent : ∀ pg, s.InMapping cur mapId pg → s.permission cur pg = none) :
    ∃ table, memoryUnmapFile bucket cur mapId s = .ok ((), s.setPtSuppl cur table) ∧
      ∀ v, table.get v = (s.entry cur v).filter fun e => !e.inMapping mapId := by
  have hunloaded : ∀ v e, s.entry cur v = some e → e.inMapping mapId = true →
      e.presence = .unloaded := by
    intro v e he hin
    rcases hresident cur v e he (PtSupplEntry.type_of_inMapping hin) with
      hunloaded | ⟨-, -, hmapped⟩
    · exact hunloaded
    · rw [habsent v ⟨e, he, hin⟩] at hmapped
      cases hmapped
  have hfuel := List.toFinset_card_le (bucket (s.process cur).ptSuppl)
  obtain ⟨table, hrun, htable⟩ := unmapLoop_unloaded hlists (Nat.lt_succ_of_le hfuel) hunloaded
  refine ⟨table, ?_, htable⟩
  rw [memoryUnmapFile, ptSupplHandleUnmap, Routine.get_bind_apply]
  exact hrun

/-- The entries of the mapping are deleted, and the files have the bytes if they had them. -/
theorem unmapExact_of_unloaded {table : PtSuppl}
    (htable : ∀ v, table.get v = (s.entry cur v).filter fun e => !e.inMapping mapId)
    (habsent : ∀ pg, s.InMapping cur mapId pg → s.permission cur pg = none)
    (hwritten : s.HasWritten w cur mapId s.file) :
    UnmapExact s w cur mapId (s.setPtSuppl cur table) := by
  have hentry : ∀ pg, (s.setPtSuppl cur table).entry cur pg =
      (s.entry cur pg).filter fun e => !e.inMapping mapId := by
    intro pg
    rw [Vm.entry, Vm.setPtSuppl_process_self]
    exact htable pg
  constructor
  · exact hwritten
  · rintro pg ⟨e, he, hin⟩
    rw [hentry, Option.filter_eq_some_iff] at he
    simp [hin] at he
  · intro pg hpg
    rw [Vm.setPtSuppl_permission]
    exact habsent pg hpg
  · intro pg hpg
    rw [hentry]
    cases he : s.entry cur pg with
    | none => rfl
    | some e =>
      have hout : e.inMapping mapId = false := by
        by_contra hin
        exact hpg ⟨e, he, by simpa using hin⟩
      simp [hout]
  · intro pg _
    rw [Vm.setPtSuppl_process_self]
    exact ⟨rfl, fun _ _ => rfl⟩

/-- `munmap` ends the mapping exactly when no page of it is present and the files have what has been
written through its pages. -/
theorem unmapExact_iff (hresident : s.Resident)
    (hlists : ListsEntries bucket (s.process cur).ptSuppl) :
    (∃ s', memoryUnmapFile bucket cur mapId s = .ok ((), s') ∧ UnmapExact s w cur mapId s') ↔
      (∀ pg, s.InMapping cur mapId pg → s.permission cur pg = none) ∧
        s.HasWritten w cur mapId s.file := by
  constructor
  · rintro ⟨s', hrun, hexact⟩
    have habsent : ∀ pg, s.InMapping cur mapId pg → s.permission cur pg = none := by
      intro pg hpg
      have hgone := hexact.notPresent pg hpg
      have hloop := hrun
      rw [memoryUnmapFile, ptSupplHandleUnmap, Routine.get_bind_apply] at hloop
      rw [← Vm.permission_pgRoundDown] at hgone ⊢
      rwa [unmapLoop_permission hloop _ _ (pgRoundDown_aligned pg)] at hgone
    obtain ⟨table, hunloaded, -⟩ := munmap_unloaded hresident hlists habsent
    cases hunloaded.symm.trans hrun
    exact ⟨habsent, hexact.written⟩
  · rintro ⟨habsent, hwritten⟩
    obtain ⟨table, hrun, htable⟩ := munmap_unloaded hresident hlists habsent
    exact ⟨_, hrun, unmapExact_of_unloaded htable habsent hwritten⟩

/-- The bytes of a page that is not present are in the file. -/
theorem Vm.Tracked.hasWritten (h : s.Tracked w)
    (habsent : ∀ pg, s.InMapping cur mapId pg → s.permission cur pg = none) :
    s.HasWritten w cur mapId s.file := by
  intro pg e info i b he hin hinfo hi hb
  have hbyte : s.MapsByte cur pg info i :=
    ⟨⟨e, he, PtSupplEntry.type_of_inMapping hin, hinfo⟩, hi⟩
  have hnone : s.mapped cur pg = none := Vm.getPage_eq_none_iff.mpr
    ((s.permission_pgRoundDown cur pg).trans (habsent pg ⟨e, he, hin⟩))
  have hholds := h.holds hbyte hb
  rw [Vm.Holds, hnone] at hholds
  exact hholds

/-- From every state that a run reaches, `munmap` ends the mapping exactly when no page of the mapping
is in the page directory and the files have what has been written through the pages that were evicted.
Where every eviction has written the bytes of the owner, the pages alone decide. -/
theorem munmap_exact_iff {s0 : Vm} (order : List FrameEntry → List FrameEntry)
    {ops : List PagingOp} (hstart : ∀ p pg, s0.entry p pg = none)
    (hvisits : Routine.Visits (PagingOp.execWritten order bucket) ops (s0, .nothing) (s, w))
    (hlists : ListsEntries bucket (s.process cur).ptSuppl) :
    ((∃ s', memoryUnmapFile bucket cur mapId s = .ok ((), s') ∧ UnmapExact s w cur mapId s') ↔
      (∀ pg, s.InMapping cur mapId pg → s.permission cur pg = none) ∧
        s.HasWritten w cur mapId s.file) ∧
    (s0.Unused → (∀ fes, (order fes).Perm fes) → (∀ op ∈ ops, op.Proper) →
      (∀ op t, Routine.Takes (PagingOp.exec order bucket) ops s0 op t → op.KeepsWritten t) →
      ((∃ s', memoryUnmapFile bucket cur mapId s = .ok ((), s') ∧ UnmapExact s w cur mapId s') ↔
        ∀ pg, s.InMapping cur mapId pg → s.permission cur pg = none)) := by
  have hresident : s.Resident := by
    apply Vm.Resident.of_visits _ (visits_of_written hvisits)
    intro p pg e he
    rw [hstart] at he
    cases he
  refine ⟨unmapExact_iff hresident hlists, fun hunused horder hproper hkeeps => ?_⟩
  rw [unmapExact_iff hresident hlists, and_iff_left_of_imp]
  exact (tracked_of_run horder hunused hproper hkeeps hvisits).hasWritten

/-! ### Every table that a run reaches can be listed -/

/-- The addresses of a table that has finitely many. -/
noncomputable def PtSuppl.addresses (table : PtSuppl) : List Nat :=
  open Classical in
  if h : {v | (table.get v).isSome}.Finite then h.toFinset.toList else []

theorem PtSuppl.mem_addresses {table : PtSuppl} (h : {v | (table.get v).isSome}.Finite) {v : Nat} :
    v ∈ table.addresses ↔ (table.get v).isSome := by
  rw [addresses, dif_pos h, Finset.mem_toList, Set.Finite.mem_toFinset]
  rfl

theorem listsEntries_addresses {table : PtSuppl} (h : {v | (table.get v).isSome}.Finite) :
    ListsEntries PtSuppl.addresses table := by
  intro t ht v
  refine PtSuppl.mem_addresses (h.subset fun u hu => ?_)
  obtain ⟨e, he⟩ := Option.isSome_iff_exists.mp hu
  rw [Set.mem_ofPred, ht u e he]
  rfl

namespace Vm

/-- Every process has finitely many entries. -/
def FewEntries (s : Vm) : Prop := ∀ p, {v | (s.entry p v).isSome}.Finite

theorem FewEntries.sets {o v : Nat} {x : Option PtSupplEntry} (h : s.FewEntries)
    (hsets : s.SetsEntry o v x s') : s'.FewEntries := by
  intro p
  refine ((h p).insert v).subset fun u hu => ?_
  rw [Set.mem_ofPred, hsets p u] at hu
  split at hu
  · rename_i hsame
    exact .inl hsame.2
  · exact .inr hu

theorem FewEntries.congr (h : s.FewEntries)
    (hsame : ∀ p, (s'.process p).ptSuppl = (s.process p).ptSuppl) : s'.FewEntries := by
  intro p
  have hp := h p
  simp only [Vm.entry, ← hsame] at hp
  exact hp

theorem Change.fewEntries (hchange : s.Change s') (h : s.FewEntries) : s'.FewEntries := by
  cases hchange with
  | same hsame => exact h.congr hsame.ptSuppl
  | swapOut _ _ _ _ _ hentry => exact h.sets hentry
  | writeOut _ _ _ _ _ hentry => exact h.sets hentry
  | clear _ _ _ hptSuppl => exact h.congr hptSuppl
  | map _ _ _ hptSuppl => exact h.congr hptSuppl
  | readIn _ _ _ _ _ _ hentry => exact h.sets hentry
  | swapIn _ _ _ _ _ _ hentry => exact h.sets hentry
  | add _ _ _ _ hentry => exact h.sets hentry
  | delete _ _ _ _ hentry => exact h.sets hentry

theorem Changes.fewEntries (h : s.Changes s') (hs : s.FewEntries) : s'.FewEntries := by
  induction h with
  | refl => exact hs
  | tail _ hlast ih => exact hlast.fewEntries ih

theorem FewEntries.exec {order : List FrameEntry → List FrameEntry} {op : PagingOp}
    (h : s.FewEntries) (hrun : op.exec order bucket s = .ok ((), s')) : s'.FewEntries := by
  by_cases hexit : ∃ cur, op = .exit cur
  · obtain ⟨cur, rfl⟩ := hexit
    obtain ⟨t, hends, hprocess, -⟩ := processExit_ends cur s
    cases hrun.symm.trans hends
    refine fun p => (h p).subset fun v hv => ?_
    by_cases hp : p = cur
    · rw [Set.mem_ofPred, Vm.entry, hprocess, hp, Function.update_self] at hv
      cases hv
    · rwa [Set.mem_ofPred, Vm.entry, hprocess, Function.update_of_ne hp] at hv
  · exact (PagingOp.exec_changes (fun cur hop => hexit ⟨cur, hop⟩) hrun).fewEntries h

/-- The run lemma. -/
theorem listsEntries_of_visits {order : List FrameEntry → List FrameEntry} {ops : List PagingOp}
    (h : ∀ p v, s.entry p v = none)
    (hvisits : Routine.Visits (PagingOp.exec order bucket) ops s s') (cur : Nat) :
    ListsEntries PtSuppl.addresses (s'.process cur).ptSuppl := by
  have hfew : s'.FewEntries :=
    hvisits.invariant (P := FewEntries) (fun _ _ _ _ ht _ hrun => ht.exec hrun) (fun _ _ _ => trivial)
      fun p => by simp [h]
  exact listsEntries_addresses (hfew cur)

end Vm

/-! ### A page that is evicted, and one that is not -/

/-- Process 0 has mapped a file of one byte at 0x10000000. -/
def mappedVm : Vm :=
  { oneFrameVm with lastMap := 1 }.setPtSuppl 0
    (PtSuppl.empty.put (ptSupplSetupFileInfo 0 1 0 0 0x10000000 1 4095 true .mmf))

/-- The file is mapped, its page is read, and 5 is written to it. -/
def touchOps : List PagingOp :=
  [.mmap 0 0 0x10000000, .page (.pageFault 0 0x10000000 0xbffffff0),
    .page (.access 0 0x10000000 (some 5))]

/-- Then a page of the stack takes the only frame. -/
def evictOps : List PagingOp := touchOps ++ [.page (.pageFault 0 0xbfffffe0 0xbffffff0)]

theorem faults_infos {a esp a' esp' : Nat} {value : UInt8} {as : List Unit}
    (h : Routine.execAll (PagingOp.exec id bucket) [.page (.pageFault cur a esp),
      .page (.access cur a (some value)), .page (.pageFault cur a' esp')] s = .ok (as, s')) :
    s.KeepsInfos s' := by
  obtain ⟨_, _, s1, hfault, h, -⟩ := Routine.execAll_cons_ok.mp h
  obtain ⟨_, _, s2, haccess, h, -⟩ := Routine.execAll_cons_ok.mp h
  obtain ⟨_, _, s3, hfault', h, -⟩ := Routine.execAll_cons_ok.mp h
  cases h
  obtain ⟨ok, t, hfault, hend⟩ := Routine.bind_ok.mp hfault
  cases hend
  obtain ⟨ok', t', haccess, hend⟩ := Routine.bind_ok.mp haccess
  cases hend
  obtain ⟨ok'', t'', hfault', hend⟩ := Routine.bind_ok.mp hfault'
  cases hend
  exact ((pageFault_infos hfault).trans (access_infos haccess)).trans (pageFault_infos hfault')

/-- The eviction has written the byte to the file. -/
theorem mappedVm_evicted : ∃ s w,
    Routine.Visits (PagingOp.execWritten id PtSuppl.addresses) evictOps (oneFrameVm, .nothing) (s, w) ∧
      mappedVm.KeepsInfos s ∧ s.permission 0 0x10000000 = none ∧ (s.file 0)[0]? = some 5 ∧
        w 0 0x10000000 0 = some 5 := by
  have hfacts : (Routine.execAll (PagingOp.execWritten id PtSuppl.addresses) evictOps
      (oneFrameVm, .nothing)).map (fun r => (r.2.1.permission 0 0x10000000, (r.2.1.file 0)[0]?,
        r.2.2 0 0x10000000 0)) = .ok (none, some 5, some 5) := by decide +kernel
  cases hrun : Routine.execAll (PagingOp.execWritten id PtSuppl.addresses) evictOps
      (oneFrameVm, .nothing) with
  | error e =>
    rw [hrun] at hfacts
    cases hfacts
  | ok r =>
    obtain ⟨as, s, w⟩ := r
    rw [hrun] at hfacts
    obtain ⟨hperm, hrest⟩ := Prod.mk.inj (Except.ok.inj hfacts)
    obtain ⟨hfile, hw⟩ := Prod.mk.inj hrest
    obtain ⟨t, hplain, rfl⟩ := Routine.execAll_follows PagingOp.execWritten_follows rfl hrun
    obtain ⟨_, _, s1, hmap, hplain, -⟩ := Routine.execAll_cons_ok.mp hplain
    cases hmap
    exact ⟨_, w, ⟨evictOps, [], as, rfl, hrun⟩, faults_infos hplain, hperm, hfile, hw⟩

/-- `munmap` of the evicted page ends the mapping, and the file has the 5. -/
theorem munmap_exact_iff_evicted : ∃ s w,
    Routine.Visits (PagingOp.execWritten id PtSuppl.addresses) evictOps (oneFrameVm, .nothing) (s, w) ∧
      w 0 0x10000000 0 = some 5 ∧
        ∃ s', memoryUnmapFile PtSuppl.addresses 0 1 s = .ok ((), s') ∧ UnmapExact s w 0 1 s' := by
  obtain ⟨s, w, hvisits, hinfos, hperm, hfile, hw⟩ := mappedVm_evicted
  have hmapping : ∀ pg e info, s.entry 0 pg = some e → e.fileInfo = some info →
      pg = 0x10000000 ∧ info = ⟨0, 0, 1, 0, 1, 4095, true⟩ := by
    intro pg e info he hinfo
    obtain ⟨e0, he0, hinfo0, -⟩ := hinfos.entry he hinfo
    rw [mappedVm, Vm.entry, Vm.setPtSuppl_process_self, PtSuppl.put_get] at he0
    split at he0
    · rename_i hpg
      cases he0
      cases hinfo0
      exact ⟨hpg, rfl⟩
    · cases he0
  refine ⟨s, w, hvisits, hw, (munmap_exact_iff id (fun _ _ => rfl) hvisits
    (Vm.listsEntries_of_visits (fun _ _ => rfl) (visits_of_written hvisits) 0)).1.mpr ⟨?_, ?_⟩⟩
  · rintro pg ⟨e, he, hin⟩
    rw [PtSupplEntry.inMapping, Bool.and_eq_true, Option.any_eq_true] at hin
    obtain ⟨-, info, hinfo, -⟩ := hin
    obtain ⟨rfl, -⟩ := hmapping pg e info he hinfo
    exact hperm
  · intro pg e info i b he _ hinfo hi hb
    obtain ⟨rfl, rfl⟩ := hmapping pg e info he hinfo
    obtain rfl : i = 0 := Fin.ext (Nat.lt_one_iff.mp hi)
    rw [hw] at hb
    cases hb
    exact hfile

/-- The page of the mapping stays in the page directory after `munmap`. -/
theorem unmapped_page_still_mapped : ∃ s w,
    Routine.Visits (PagingOp.execWritten id PtSuppl.addresses) touchOps (oneFrameVm, .nothing) (s, w) ∧
      ¬ ∃ s', memoryUnmapFile PtSuppl.addresses 0 1 s = .ok ((), s') ∧ UnmapExact s w 0 1 s' := by
  have hfacts : (Routine.execAll (PagingOp.execWritten id PtSuppl.addresses) touchOps
      (oneFrameVm, .nothing)).map (fun r => ((r.2.1.entry 0 0x10000000).map (·.inMapping 1),
        r.2.1.permission 0 0x10000000)) = .ok (some true, some true) := by decide +kernel
  cases hrun : Routine.execAll (PagingOp.execWritten id PtSuppl.addresses) touchOps
      (oneFrameVm, .nothing) with
  | error e =>
    rw [hrun] at hfacts
    cases hfacts
  | ok r =>
    obtain ⟨as, s, w⟩ := r
    rw [hrun] at hfacts
    obtain ⟨hentry, hperm⟩ := Prod.mk.inj (Except.ok.inj hfacts)
    refine ⟨s, w, ⟨touchOps, [], as, rfl, hrun⟩, ?_⟩
    rintro ⟨s', hunmap, hexact⟩
    have hgone := hexact.notPresent 0x10000000 (Option.map_eq_some_iff.mp hentry)
    rw [memoryUnmapFile, ptSupplHandleUnmap, Routine.get_bind_apply] at hunmap
    rw [unmapLoop_permission hunmap 0 0x10000000 (by decide), hperm] at hgone
    cases hgone

end Pintos
