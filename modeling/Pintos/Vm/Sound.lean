import Pintos.Vm.FrameExclusive
import Pintos.Vm.SwapSlots

/-! What holds of virtual memory from boot on while the operations run one after another: the frame
table and the page directories agree, the entries name used slots, every page that is to be read from
a file is filled by its two parts, and a mapped page lies within its file. -/

namespace Pintos

namespace Vm

/-- No entry gets another file part or type, and no file gets shorter. -/
structure KeepsInfos (s s' : Vm) : Prop where
  entry : ∀ {p v e inf}, s'.entry p v = some e → e.fileInfo = some inf →
    ∃ e0, s.entry p v = some e0 ∧ e0.fileInfo = some inf ∧ e0.type = e.type
  file : ∀ f, (s.file f).length ≤ (s'.file f).length

/-- Every page with a file part is filled, and a mapped page lies within its file. -/
structure InfosInv (s : Vm) : Prop where
  fills : ∀ {p v e inf}, s.entry p v = some e → e.fileInfo = some inf →
    inf.readBytes + inf.zeroBytes = pgSize
  within : ∀ {p v e inf}, s.entry p v = some e → e.fileInfo = some inf → e.type = .mmf →
    inf.offset + inf.readBytes ≤ (s.file inf.file).length

variable {s s1 s' : Vm} {o v : Nat} {x : Option PtSupplEntry}

theorem KeepsInfos.refl (s : Vm) : s.KeepsInfos s := ⟨fun he hinf => ⟨_, he, hinf, rfl⟩, fun _ => le_rfl⟩

theorem KeepsInfos.trans (h1 : s.KeepsInfos s1) (h2 : s1.KeepsInfos s') : s.KeepsInfos s' where
  entry he hinf := by
    obtain ⟨e1, he1, hinf1, htype1⟩ := h2.entry he hinf
    obtain ⟨e0, he0, hinf0, htype0⟩ := h1.entry he1 hinf1
    exact ⟨e0, he0, hinf0, htype0.trans htype1⟩
  file f := (h1.file f).trans (h2.file f)

theorem KeepsInfos.of_view (h : s.SameView s') (hfile : ∀ f, (s.file f).length ≤ (s'.file f).length) :
    s.KeepsInfos s' where
  entry {p v e inf} he hinf := by
    rw [h.entry] at he
    exact ⟨e, he, hinf, rfl⟩
  file := hfile

/-- An entry changes but keeps its file part and its type, or loses its file part. -/
theorem KeepsInfos.sets (h : s.SetsEntry o v x s') (hfile : s'.file = s.file)
    (hx : ∀ e inf, x = some e → e.fileInfo = some inf →
      ∃ e0, s.entry o v = some e0 ∧ e0.fileInfo = some inf ∧ e0.type = e.type) :
    s.KeepsInfos s' where
  entry {p u e inf} he hinf := by
    rw [h p u] at he
    split at he
    · rename_i hsame
      rw [hsame.1, hsame.2]
      exact hx e inf he hinf
    · exact ⟨e, he, hinf, rfl⟩
  file f := by rw [hfile]

theorem KeepsInfos.keeps (h : s.KeepsInfos s') (hinv : s.InfosInv) : s'.InfosInv where
  fills he hinf := by
    obtain ⟨e0, he0, hinf0, -⟩ := h.entry he hinf
    exact hinv.fills he0 hinf0
  within he hinf htype := by
    obtain ⟨e0, he0, hinf0, htype0⟩ := h.entry he hinf
    exact (hinv.within he0 hinf0 (htype0.trans htype)).trans (h.file _)

end Vm

variable {s s' : Vm} {cur : Nat}

/-! ### The file parts of the entries -/

theorem fileWriteAt_infos {file vaddr size offset : Nat}
    (h : fileWriteAt cur file vaddr size offset s = .ok ((), s')) : s.KeepsInfos s' := by
  refine .of_view (fileWriteAt_same h) fun f => ?_
  rcases fileWriteAt_ok h with ⟨-, rfl⟩ | ⟨-, page, -, rfl⟩
  · exact le_rfl
  · show _ ≤ (Function.update s.file file _ f).length
    by_cases hf : f = file
    · subst hf
      rw [Function.update_self, length_overwrite]
      exact le_max_left _ _
    · rw [Function.update_of_ne hf]

theorem writeBackMmf_infos {fe : FrameEntry} {pt : PtSupplEntry} {info : PtSupplFileInfo}
    (h : writeBackMmf cur fe pt info s = .ok ((), s')) : s.KeepsInfos s' := by
  rcases writeBackMmf_ok h with ⟨-, rfl⟩ | ⟨-, hwrite⟩
  · exact .refl _
  · exact fileWriteAt_infos hwrite

theorem pagedirClearPage_infos {q upage : Nat} (h : pagedirClearPage q upage s = .ok ((), s')) :
    s.KeepsInfos s' := by
  obtain ⟨-, rfl⟩ := pagedirClearPage_ok h
  refine ⟨fun {p v e inf} he hinf => ⟨e, ?_, hinf, rfl⟩, fun _ => le_rfl⟩
  rw [← he, Vm.entry, Vm.entry]
  by_cases hp : p = q
  · subst hp
    simp
  · rw [Vm.setPagedir_process_ne _ hp]

theorem pageOutEvictedFrame_infos {fe : FrameEntry}
    (h : pageOutEvictedFrame cur fe s = .ok ((), s')) : s.KeepsInfos s' := by
  rw [pageOutEvictedFrame, Routine.get_bind_apply] at h
  cases hpt : (s.process fe.owner).ptSuppl.get fe.threadVaddr with
  | none =>
    rw [hpt] at h
    obtain ⟨slot, s1, hout, h⟩ := Routine.bind_ok.mp h
    cases slot with
    | none => cases h
    | some slot =>
      obtain ⟨⟨⟩, s2, hput, h⟩ := Routine.bind_ok.mp h
      cases hput
      obtain ⟨swapBm, swapDevice, rfl⟩ := swapOut_ok hout
      have hsets := Vm.setsEntry_put { s with swapBm, swapDevice } fe.owner
        ⟨fe.threadVaddr, .lazy, .swapped, slot, none⟩
      have hkeeps := Vm.KeepsInfos.sets hsets rfl fun e inf he hinf => by
        cases he
        cases hinf
      have hbegin : s.KeepsInfos { s with swapBm, swapDevice } :=
        ⟨fun he hinf => ⟨_, he, hinf, rfl⟩, fun _ => le_rfl⟩
      exact (hbegin.trans hkeeps).trans (pagedirClearPage_infos h)
  | some pt =>
    rw [hpt] at h
    have hvaddr := (s.process fe.owner).ptSuppl.vaddr_eq hpt
    dsimp only at h
    split at h
    · rename_i htype
      cases hinfo : pt.fileInfo with
      | none =>
        rw [hinfo] at h
        cases h
      | some info =>
        rw [hinfo] at h
        obtain ⟨u, s1, hwrite, h⟩ := Routine.bind_ok.mp h
        obtain ⟨⟨⟩, s2, hput, h⟩ := Routine.bind_ok.mp h
        cases hput
        have hsets := Vm.setsEntry_put s1 fe.owner
          { pt with type := .mmf, presence := .unloaded, fileInfo := some info }
        have hkeeps := Vm.KeepsInfos.sets hsets rfl fun e inf he hinf => by
          cases he
          cases hinf
          refine ⟨pt, ?_, hinfo, htype⟩
          rw [(writeBackMmf_same hwrite).entry]
          show s.entry fe.owner pt.vaddr = some pt
          rw [hvaddr]
          exact hpt
        exact ((writeBackMmf_infos hwrite).trans hkeeps).trans (pagedirClearPage_infos h)
    · cases h

theorem selectFrameToEvict_infos {fe : FrameEntry} (h : selectFrameToEvict s = .ok (fe, s')) :
    s.KeepsInfos s' := by
  have hview := selectFrameToEvict_same h
  obtain ⟨process, rfl⟩ := selectFrameToEvict_process h
  exact .of_view hview fun _ => le_rfl

variable {order : List FrameEntry → List FrameEntry}

theorem vmFrameAlloc_infos {palZero : Bool} {vaddr frm : Nat}
    (h : vmFrameAlloc order cur palZero vaddr s = .ok (frm, s')) : s.KeepsInfos s' := by
  rw [vmFrameAlloc, Routine.get_bind_apply] at h
  rcases hscan : s.userPool.scanAndFlip 0 1 false with _ | ⟨page, pool⟩
  · rw [hscan] at h
    dsimp only at h
    rw [evictAndGetFrame] at h
    obtain ⟨vict, s1, hselect, h⟩ := Routine.bind_ok.mp h
    obtain ⟨u, s2, hout, h⟩ := Routine.bind_ok.mp h
    cases h
    have hend : s2.KeepsInfos { s2 with frameHash := s2.frameHash.map fun fe =>
        if fe.page = vict.page then { fe with owner := cur, threadVaddr := vaddr } else fe } :=
      ⟨fun he hinf => ⟨_, he, hinf, rfl⟩, fun _ => le_rfl⟩
    exact ((selectFrameToEvict_infos hselect).trans (pageOutEvictedFrame_infos hout)).trans hend
  · rw [hscan] at h
    cases h
    exact ⟨fun he hinf => ⟨_, he, hinf, rfl⟩, fun _ => le_rfl⟩

theorem pagedirSetPage_infos {upage kpage : Nat} {writable b : Bool}
    (h : pagedirSetPage cur upage kpage writable s = .ok (b, s')) : s.KeepsInfos s' := by
  have hentries := (pagedirSetPage_changes h).2.1
  have hfile : s'.file = s.file := by
    rcases pagedirSetPage_ok h with ⟨-, rfl⟩ | ⟨-, kernelPages, pd, -, rfl⟩ <;> rfl
  refine ⟨fun {p v e inf} he hinf => ⟨e, ?_, hinf, rfl⟩, fun f => by rw [hfile]⟩
  rw [← he, hentries]

theorem vmFrameFree_infos {page : Nat} (h : vmFrameFree page s = .ok ((), s')) :
    s.KeepsInfos s' := by
  have hview := vmFrameFree_same h
  cases h
  exact .of_view hview fun _ => le_rfl

theorem ptSupplLoaded_infos {e : PtSupplEntry} (he : s.entry cur e.vaddr = some e)
    (h : ptSupplLoaded cur e s = .ok ((), s')) : s.KeepsInfos s' := by
  cases h
  refine .sets (setsEntry_loaded s cur e) rfl fun e' inf he' hinf => ⟨e, he, ?_⟩
  rw [Vm.loadedEntry] at he'
  split at he'
  · cases he'
  · cases he'
    exact ⟨hinf, rfl⟩

theorem ptSupplFinish_infos {frm : Nat} {e : PtSupplEntry} {pgdir b : Bool}
    (he : s.entry cur e.vaddr = some e) (h : ptSupplFinish cur frm e pgdir s = .ok (b, s')) :
    s.KeepsInfos s' := by
  rcases ptSupplFinish_ok h with ⟨-, -, hloaded⟩ | ⟨-, -, hfree⟩
  · exact ptSupplLoaded_infos he hloaded
  · exact vmFrameFree_infos hfree

theorem ptSupplReadIn_infos {e : PtSupplEntry} {inf : PtSupplFileInfo} {frm : Nat} {b : Bool}
    (he : s.entry cur e.vaddr = some e) (h : ptSupplReadIn cur frm e inf s = .ok (b, s')) :
    s.KeepsInfos s' := by
  rw [ptSupplReadIn] at h
  obtain ⟨read, s1, hread, h⟩ := Routine.bind_ok.mp h
  cases hread
  obtain ⟨pgdir, s2, hset, hfinish⟩ := Routine.bind_ok.mp h
  have hbegin : s.KeepsInfos (s.setMemory frm (s.readPage inf (s.memory frm))) :=
    ⟨fun he hinf => ⟨_, he, hinf, rfl⟩, fun _ => le_rfl⟩
  refine hbegin.trans ?_
  split at hset
  · refine (pagedirSetPage_infos hset).trans (ptSupplFinish_infos ?_ hfinish)
    rw [(pagedirSetPage_changes hset).2.1]
    exact he
  · cases hset
    exact ptSupplFinish_infos he hfinish

theorem ptSupplSwapIn_infos {e : PtSupplEntry} {frm : Nat} {b : Bool}
    (he : s.entry cur e.vaddr = some e) (h : ptSupplSwapIn cur frm e s = .ok (b, s')) :
    s.KeepsInfos s' := by
  rw [ptSupplSwapIn] at h
  obtain ⟨pgdir, s1, hset, hrest⟩ := Routine.bind_ok.mp h
  refine (pagedirSetPage_infos hset).trans ?_
  replace he : s1.entry cur e.vaddr = some e := by rw [(pagedirSetPage_changes hset).2.1, he]
  cases pgdir with
  | true =>
    obtain ⟨u, s2, hin, hfinish⟩ := Routine.bind_ok.mp hrest
    rw [swapIn] at hin
    obtain ⟨u', s3, hloop, hflip⟩ := Routine.bind_ok.mp hin
    cases hflip
    have hview := swapInLoop_same hloop
    obtain ⟨page, hpage⟩ : ∃ page, (s1.process cur).pagedir.getPage e.vaddr = some page := by
      rcases pagedirSetPage_maps hset with ⟨hfalse, -⟩ | ⟨-, halign, hmaps⟩
      · cases hfalse
      · refine ⟨frm, ?_⟩
        show s1.mapped cur e.vaddr = some frm
        rw [hmaps.mapped, if_pos ⟨rfl, pgRoundDown_of_aligned halign⟩]
    have hfile := (swapInLoop_contents hpage hloop).2.2.2.1
    have hkeeps : s1.KeepsInfos { s3 with swapBm := s3.swapBm.flip e.swapSlot } := by
      refine ⟨fun {p v e' inf} he' hinf => ⟨e', ?_, hinf, rfl⟩, fun f => ?_⟩
      · rw [← he', ← hview.entry]
        rfl
      · rw [← hfile]
    refine hkeeps.trans (ptSupplFinish_infos ?_ hfinish)
    rw [← he, ← hview.entry]
    rfl
  | false =>
    replace hrest : ptSupplFinish cur frm e false s1 = .ok (b, s') := hrest
    exact ptSupplFinish_infos he hrest

theorem ptSupplPageIn_infos {v : Nat} {b : Bool} (h : ptSupplPageIn order cur v s = .ok (b, s')) :
    s.KeepsInfos s' := by
  obtain ⟨frm, s1, e, halloc, hentry, hbranch⟩ := ptSupplPageIn_found h
  have hv : e.vaddr = v := (s1.process cur).ptSuppl.vaddr_eq hentry
  rw [← hv] at hentry
  refine (vmFrameAlloc_infos halloc).trans ?_
  rcases hbranch with ⟨-, hin⟩ | ⟨inf, -, -, hin⟩
  · exact ptSupplSwapIn_infos hentry hin
  · exact ptSupplReadIn_infos hentry hin

theorem ptSupplGrowStack_infos {front : Nat}
    (h : ptSupplGrowStack order cur front s = .ok ((), s')) : s.KeepsInfos s' := by
  rw [ptSupplGrowStack] at h
  obtain ⟨frm, s1, halloc, h⟩ := Routine.bind_ok.mp h
  obtain ⟨mapped, s2, hset, h⟩ := Routine.bind_ok.mp h
  refine ((vmFrameAlloc_infos halloc).trans (pagedirSetPage_infos hset)).trans ?_
  cases mapped with
  | true =>
    cases h
    exact .refl _
  | false => exact vmFrameFree_infos h

theorem setupStackPage_infos {b : Bool} (h : setupStackPage order cur s = .ok (b, s')) :
    s.KeepsInfos s' := by
  rw [setupStackPage] at h
  obtain ⟨frm, s1, halloc, h⟩ := Routine.bind_ok.mp h
  obtain ⟨result, s2, hinstall, h⟩ := Routine.bind_ok.mp h
  have hmap : s1.KeepsInfos s2 := by
    rw [installPage, Routine.get_bind_apply] at hinstall
    split at hinstall
    · exact pagedirSetPage_infos hinstall
    · cases hinstall
      exact .refl _
  refine ((vmFrameAlloc_infos halloc).trans hmap).trans ?_
  cases result with
  | true =>
    cases h
    exact .refl _
  | false =>
    obtain ⟨u, s3, hfree, h⟩ := Routine.bind_ok.mp h
    cases h
    exact vmFrameFree_infos hfree

theorem pageFault_infos {faultAddr esp : Nat} {b : Bool}
    (h : pageFault order cur faultAddr esp s = .ok (b, s')) : s.KeepsInfos s' := by
  rcases pageFault_found h with
    ⟨-, rfl, -⟩ | ⟨-, -, -, -, ⟨e, -, handled, hin, -⟩ | ⟨-, handled, hgrow⟩⟩
  · exact .refl _
  · exact ptSupplPageIn_infos hin
  · rcases ptSupplCheckAndGrowStack_found hgrow with ⟨-, rfl⟩ | ⟨-, hgrow⟩
    · exact .refl _
    · exact ptSupplGrowStack_infos hgrow

theorem access_infos {vaddr : Nat} {write : Option UInt8} {b : Bool}
    (h : access cur vaddr write s = .ok (b, s')) : s.KeepsInfos s' := by
  refine .of_view (access_same h) fun f => ?_
  rw [access, Routine.get_bind_apply] at h
  cases hpage : (s.process cur).pagedir.getPage vaddr with
  | none =>
    rw [hpage] at h
    cases h
    exact le_rfl
  | some page =>
    rw [hpage] at h
    cases write with
    | none =>
      cases h
      exact le_rfl
    | some value =>
      cases h
      exact le_rfl

/-- A new entry with a file part that fills its page, of a mapped page within its file. -/
theorem ptSupplAdd_infosInv {e : PtSupplEntry} {b : Bool} (hinv : s.InfosInv)
    (he : ∀ inf, e.fileInfo = some inf → inf.readBytes + inf.zeroBytes = pgSize ∧
      (e.type = .mmf → inf.offset + inf.readBytes ≤ (s.file inf.file).length))
    (h : ptSupplAdd cur e s = .ok (b, s')) : s'.InfosInv ∧ s'.file = s.file := by
  rw [ptSupplAdd, Routine.get_bind_apply] at h
  split at h
  · cases h
    have hsets := Vm.setsEntry_put s cur e
    refine ⟨⟨fun {p v e' inf} he' hinf => ?_, fun {p v e' inf} he' hinf htype => ?_⟩, rfl⟩
    · rw [hsets p v] at he'
      split at he'
      · cases he'
        exact (he inf hinf).1
      · exact hinv.fills he' hinf
    · rw [hsets p v] at he'
      split at he'
      · cases he'
        exact (he inf hinf).2 htype
      · exact hinv.within he' hinf htype
  · cases h
    exact ⟨hinv, rfl⟩

theorem mmapLoop_infosInv {fe len pageAddress : Nat} {ofss : List Nat} {b : Bool}
    (hofss : ∀ ofs ∈ ofss, ofs < len) (hinv : s.InfosInv) (hlen : len = (s.file fe).length)
    (h : mmapLoop cur fe len ofss pageAddress s = .ok (b, s')) : s'.InfosInv := by
  induction ofss generalizing s pageAddress with
  | nil =>
    cases h
    exact hinv
  | cons ofs ofss ih =>
    rw [mmapLoop, Routine.get_bind_apply] at h
    split at h
    · cases h
      exact hinv
    · by_cases huser : physBase ≤ (pageAddress + ofs) % 2 ^ 32
      · rw [if_pos huser] at h
        cases h
      · rw [if_neg huser] at h
        beta_reduce at h
        split at h
        · cases h
          exact hinv
        · obtain ⟨added, s1, hadd, h⟩ := Routine.bind_ok.mp h
          rw [ptSupplAddMmf, Routine.get_bind_apply] at hadd
          have hofs := hofss ofs List.mem_cons_self
          obtain ⟨hinv1, hfile⟩ := ptSupplAdd_infosInv hinv (fun inf hinf => by
            cases hinf
            refine ⟨?_, fun _ => ?_⟩
            · exact Nat.add_sub_of_le (min_le_right _ _)
            · show ofs + min (len - ofs) pgSize ≤ (s.file fe).length
              rw [← hlen]
              omega) hadd
          refine ih (fun o ho => hofss o (List.mem_cons_of_mem _ ho)) hinv1 ?_ h
          rw [hfile, hlen]

theorem ptSupplHandleMmap_infosInv {fe startPg : Nat} {r : Int} (hinv : s.InfosInv)
    (h : ptSupplHandleMmap cur fe startPg s = .ok (r, s')) : s'.InfosInv := by
  rw [ptSupplHandleMmap, Routine.get_bind_apply] at h
  split at h
  · cases h
    exact hinv
  · obtain ⟨⟨⟩, s2, hcount, h⟩ := Routine.bind_ok.mp h
    cases hcount
    obtain ⟨b, s3, hloop, h⟩ := Routine.bind_ok.mp h
    obtain rfl : s3 = s' := by
      split at h <;> cases h <;> rfl
    have hcounted : Vm.InfosInv { s with lastMap := s.lastMap + 1 } := ⟨hinv.fills, hinv.within⟩
    refine mmapLoop_infosInv (fun ofs hofs => ?_) hcounted rfl hloop
    obtain ⟨i, hi, rfl⟩ := List.mem_map.mp hofs
    rw [List.mem_range, pageCount] at hi
    show i * pgSize < (s.file fe).length
    unfold pgSize at *
    omega

theorem ptSupplFlushMmf_infos {e : PtSupplEntry} (h : ptSupplFlushMmf cur e s = .ok ((), s')) :
    s.KeepsInfos s' := by
  rw [ptSupplFlushMmf] at h
  split at h
  · cases hinfo : e.fileInfo with
    | none =>
      rw [hinfo] at h
      cases h
    | some info =>
      rw [hinfo] at h
      exact fileWriteAt_infos h
  · cases h
    exact .refl _

theorem unmapLoop_infos {bucket : PtSuppl → List Nat} {mapId fuel : Nat}
    (h : unmapLoop bucket cur mapId fuel s = .ok ((), s')) : s.KeepsInfos s' := by
  refine unmapLoop_rel (R := Vm.KeepsInfos) .refl (fun {s t e} _ _ hrest => ?_)
    (fun hflush hrest => (ptSupplFlushMmf_infos hflush).trans hrest) h
  exact (Vm.KeepsInfos.sets (Vm.setsEntry_delete s cur e.vaddr) rfl nofun).trans hrest

theorem processExit_infos (h : processExit cur s = .ok ((), s')) : s.KeepsInfos s' := by
  obtain ⟨s1, hrun, hprocess, -, hfile⟩ := processExit_ends cur s
  cases h.symm.trans hrun
  refine ⟨fun {p v e inf} he hinf => ?_, fun f => by rw [hfile]⟩
  rw [Vm.entry, hprocess] at he
  by_cases hp : p = cur
  · subst hp
    rw [Function.update_self] at he
    cases he
  · rw [Function.update_of_ne hp] at he
    exact ⟨e, he, hinf, rfl⟩

/-! ### The frame table -/

/-- Nothing is held: the frame table, the user pool and the page directories agree. -/
abbrev Vm.FramesAgree (s : Vm) : Prop := s.FrameInv fun _ => False

theorem vmFrameAlloc_frameInv {palZero : Bool} {v frm : Nat}
    (horder : ∀ fes, (order fes).Perm fes) (halign : v % pgSize = 0) (hinv : s.FramesAgree)
    (h : vmFrameAlloc order cur palZero v s = .ok (frm, s')) :
    (s'.FrameInv fun q => q = frm) ∧ ⟨frm, cur, v⟩ ∈ s'.frameHash := by
  rw [vmFrameAlloc, Routine.get_bind_apply] at h
  rcases hscan : s.userPool.scanAndFlip 0 1 false with _ | ⟨page, pool⟩
  · rw [hscan] at h
    dsimp only at h
    rw [evictAndGetFrame] at h
    obtain ⟨vict, s1, hselect, h⟩ := Routine.bind_ok.mp h
    obtain ⟨u, s2, hout, h⟩ := Routine.bind_ok.mp h
    obtain ⟨rfl, rfl⟩ := Prod.mk.inj (Except.ok.inj h)
    have hmem : vict ∈ s1.frameHash := by
      obtain ⟨hmem, hframes, -⟩ := selectFrameToEvict_ok (p := cur) halign hselect
      rw [hframes]
      exact hmem
    have hunmaps := (pageOutEvictedFrame_unmaps hout).2
    have hevict := ((selectFrameToEvict_frames hselect).keeps hinv).evict hmem id hunmaps.frames
      hunmaps.pool hunmaps.mapped
    have hheld : False ∨ vict.page = vict.page := .inr rfl
    have hrename : Vm.FrameInv (fun q => False ∨ q = vict.page) { s2 with
        frameHash := s2.frameHash.map fun fe =>
          if fe.page = vict.page then { fe with owner := cur, threadVaddr := v } else fe } :=
      hevict.rename hheld (g := fun fe => { fe with owner := cur, threadVaddr := v })
        (fun _ => rfl) rfl rfl fun _ _ => rfl
    refine ⟨hrename.of_iff fun q => by simp, List.mem_map.mpr ⟨vict, ?_, if_pos rfl⟩⟩
    rw [hunmaps.frames]
    exact hmem
  · rw [hscan] at h
    obtain ⟨rfl, rfl⟩ := Prod.mk.inj (Except.ok.inj h)
    rw [pgRoundDown_of_aligned halign]
    let fe : FrameEntry := ⟨page, cur, v⟩
    obtain ⟨-, hnotIn, htake⟩ : _ ∧ _ ∧ Vm.FrameInv _ { s with userPool := pool } :=
      hinv.take hscan rfl rfl fun _ _ => rfl
    have hheld : False ∨ fe.page = page := .inr rfl
    have hperm := horder (fe :: s.frameHash)
    have hinsert : Vm.FrameInv _ { s with
        userPool := pool
        memory := if palZero then Function.update s.memory page PageData.zeros else s.memory
        frameHash := order (fe :: s.frameHash) } :=
      htake.insert hheld hnotIn hperm rfl fun _ _ => rfl
    exact ⟨hinsert.of_iff fun q => by simp, hperm.mem_iff.mpr List.mem_cons_self⟩

theorem vmFrameFree_frameInv {held : Nat → Prop} {page : Nat} (hinv : s.FrameInv held)
    (hheld : held page) (h : vmFrameFree page s = .ok ((), s')) :
    s'.FrameInv fun q => held q ∧ q ≠ page := by
  cases h
  obtain ⟨hremove, hnotIn⟩ : Vm.FrameInv _
      { s with frameHash := s.frameHash.filter fun fe => fe.page ≠ page } ∧ _ :=
    hinv.remove hheld (.refl _) rfl fun _ _ => rfl
  exact hremove.giveBack hnotIn rfl rfl fun _ _ => rfl

/-- The frame that is held is mapped where its entry says, or given back. -/
theorem Vm.FrameInv.settle {frm v : Nat} {s1 : Vm} {b : Bool} (halign : v % pgSize = 0)
    (hinv : s.FrameInv fun q => q = frm) (hin : ⟨frm, cur, v⟩ ∈ s.frameHash)
    (hset : (b = false ∧ s.SameFrames s1) ∨ b = true ∧ s.Maps cur v frm s1)
    (hend : if b then s1.SameFrames s' else vmFrameFree frm s1 = .ok ((), s')) :
    s'.FramesAgree := by
  rcases hset with ⟨rfl, hsame⟩ | ⟨rfl, hmaps⟩
  · have hfree := vmFrameFree_frameInv (hsame.keeps hinv) rfl hend
    exact hfree.of_iff fun q => by simp
  · have hmap := hinv.map hin rfl halign hmaps.user hmaps.none hmaps.frames hmaps.pool hmaps.mapped
    have hsame : s1.SameFrames s' := hend
    exact hsame.keeps (hmap.of_iff fun q => by simp)

theorem ptSupplFinish_settles {frm : Nat} {e : PtSupplEntry} {pgdir b : Bool}
    (h : ptSupplFinish cur frm e pgdir s = .ok (b, s')) :
    if pgdir then s.SameFrames s' else vmFrameFree frm s = .ok ((), s') := by
  rcases ptSupplFinish_ok h with ⟨rfl, -, hloaded⟩ | ⟨rfl, -, hfree⟩
  · exact ptSupplLoaded_frames hloaded
  · exact hfree

theorem pagedirSetPage_settles {v frm : Nat} {writable b : Bool}
    (h : pagedirSetPage cur v frm writable s = .ok (b, s')) :
    (b = false ∧ s.SameFrames s') ∨ b = true ∧ s.Maps cur v frm s' := by
  rcases pagedirSetPage_maps h with ⟨rfl, rfl⟩ | ⟨rfl, -, hmaps⟩
  · exact .inl ⟨rfl, .refl _⟩
  · exact .inr ⟨rfl, hmaps⟩

theorem ptSupplPageIn_framesAgree {v : Nat} {b : Bool} (horder : ∀ fes, (order fes).Perm fes)
    (halign : v % pgSize = 0) (hinv : s.FramesAgree)
    (h : ptSupplPageIn order cur v s = .ok (b, s')) : s'.FramesAgree := by
  obtain ⟨frm, s1, e, halloc, hentry, hbranch⟩ := ptSupplPageIn_found h
  obtain rfl : e.vaddr = v := (s1.process cur).ptSuppl.vaddr_eq hentry
  obtain ⟨hinv1, hin⟩ := vmFrameAlloc_frameInv horder halign hinv halloc
  rcases hbranch with ⟨-, hswap⟩ | ⟨inf, -, -, hread⟩
  · rw [ptSupplSwapIn] at hswap
    obtain ⟨pgdir, s2, hset, hrest⟩ := Routine.bind_ok.mp hswap
    refine hinv1.settle halign hin (pagedirSetPage_settles hset) ?_
    cases pgdir with
    | true =>
      obtain ⟨u, s3, hslot, hfinish⟩ := Routine.bind_ok.mp hrest
      exact (swapIn_frames hslot).trans (ptSupplFinish_settles hfinish)
    | false =>
      replace hrest : ptSupplFinish cur frm e false s2 = .ok (b, s') := hrest
      exact ptSupplFinish_settles hrest
  · rw [ptSupplReadIn] at hread
    obtain ⟨read, s2, hbytes, hread⟩ := Routine.bind_ok.mp hread
    obtain ⟨pgdir, s3, hset, hfinish⟩ := Routine.bind_ok.mp hread
    have hsame := ptSupplRead_frames hbytes
    have hin2 : ⟨frm, cur, e.vaddr⟩ ∈ s2.frameHash := by
      rw [hsame.frames]
      exact hin
    refine (hsame.keeps hinv1).settle halign hin2 ?_ (ptSupplFinish_settles hfinish)
    split at hset
    · exact pagedirSetPage_settles hset
    · cases hset
      exact .inl ⟨rfl, .refl _⟩

theorem ptSupplGrowStack_framesAgree {front : Nat} (horder : ∀ fes, (order fes).Perm fes)
    (hinv : s.FramesAgree) (h : ptSupplGrowStack order cur front s = .ok ((), s')) :
    s'.FramesAgree := by
  rw [ptSupplGrowStack] at h
  obtain ⟨frm, s1, halloc, h⟩ := Routine.bind_ok.mp h
  obtain ⟨mapped, s2, hset, h⟩ := Routine.bind_ok.mp h
  have halign := pgRoundDown_aligned front
  obtain ⟨hinv1, hin⟩ := vmFrameAlloc_frameInv horder halign hinv halloc
  refine hinv1.settle halign hin (pagedirSetPage_settles hset) ?_
  cases mapped with
  | true =>
    cases h
    exact .refl _
  | false => exact h

theorem setupStackPage_framesAgree {b : Bool} (horder : ∀ fes, (order fes).Perm fes)
    (hinv : s.FramesAgree) (h : setupStackPage order cur s = .ok (b, s')) : s'.FramesAgree := by
  rw [setupStackPage] at h
  obtain ⟨frm, s1, halloc, h⟩ := Routine.bind_ok.mp h
  obtain ⟨result, s2, hinstall, h⟩ := Routine.bind_ok.mp h
  have halign : (physBase - pgSize) % pgSize = 0 := rfl
  obtain ⟨hinv1, hin⟩ := vmFrameAlloc_frameInv horder halign hinv halloc
  have hset : (result = false ∧ s1.SameFrames s2) ∨
      result = true ∧ s1.Maps cur (physBase - pgSize) frm s2 := by
    rw [installPage, Routine.get_bind_apply] at hinstall
    split at hinstall
    · exact pagedirSetPage_settles hinstall
    · cases hinstall
      exact .inl ⟨rfl, .refl _⟩
  refine hinv1.settle halign hin hset ?_
  cases result with
  | true =>
    cases h
    exact .refl _
  | false =>
    obtain ⟨u, s3, hfree, h⟩ := Routine.bind_ok.mp h
    cases h
    exact hfree

theorem pageFault_framesAgree {faultAddr esp : Nat} {b : Bool}
    (horder : ∀ fes, (order fes).Perm fes) (hinv : s.FramesAgree)
    (h : pageFault order cur faultAddr esp s = .ok (b, s')) : s'.FramesAgree := by
  rcases pageFault_found h with
    ⟨-, rfl, -⟩ | ⟨-, -, -, -, ⟨e, -, handled, hin, -⟩ | ⟨-, handled, hgrow⟩⟩
  · exact hinv
  · exact ptSupplPageIn_framesAgree horder (pgRoundDown_aligned faultAddr) hinv hin
  · rcases ptSupplCheckAndGrowStack_found hgrow with ⟨-, rfl⟩ | ⟨-, hgrow⟩
    · exact hinv
    · exact ptSupplGrowStack_framesAgree horder hinv hgrow

/-! ### The end of a process -/

/-- The frame of a present page. -/
def Pte.frame (pte : Pte) : Option Nat := if pte.present then some pte.page else none

/-- The inner loop of `pagedir_destroy` gives back the frames of the present pages of a table. -/
theorem pagedirDestroy_table {f : Nat → Pte} {is rest : List Nat}
    (hinv : s.FrameInv fun q => q ∈ is.filterMap (fun i => (f i).frame) ++ rest)
    (hnodup : (is.filterMap (fun i => (f i).frame) ++ rest).Nodup)
    (h : (is.forM fun i => if (f i).present then vmFrameFree (f i).page else pure ()) s =
      .ok ((), s')) : s'.FrameInv fun q => q ∈ rest := by
  induction is generalizing s with
  | nil =>
    cases h
    exact hinv
  | cons i is ih =>
    rw [List.forM_eq_forM, List.forM_cons] at h
    obtain ⟨u, s1, h1, h⟩ := Routine.bind_ok.mp h
    cases hpresent : (f i).present with
    | true =>
      have hframe : (f i).frame = some (f i).page := by rw [Pte.frame, hpresent, if_pos rfl]
      rw [hpresent, if_pos rfl] at h1
      rw [List.filterMap_cons_some (f := fun i => (f i).frame) hframe, List.cons_append] at hinv hnodup
      obtain ⟨hnew, hnodup⟩ := List.nodup_cons.mp hnodup
      refine ih ((vmFrameFree_frameInv hinv List.mem_cons_self h1).of_iff fun q => ?_) hnodup h
      rw [List.mem_cons]
      constructor
      · intro hq
        refine ⟨.inr hq, ?_⟩
        rintro rfl
        exact hnew hq
      · rintro ⟨rfl | hq, hne⟩
        · exact absurd rfl hne
        · exact hq
    | false =>
      have hframe : (f i).frame = none := by rw [Pte.frame, hpresent, if_neg nofun]
      rw [hpresent] at h1
      cases h1
      rw [List.filterMap_cons_none (f := fun i => (f i).frame) hframe] at hinv hnodup
      exact ih hinv hnodup h

/-- The frames of the present pages in the regions `pdes`. -/
def Pagedir.regionPages (pd : Pagedir) (pdes : List Nat) : List Nat :=
  pdes.flatMap fun pde =>
    if pd.pde pde then
      (List.range 1024).filterMap fun pte => (pd.pte (pde * 2 ^ 22 + pte * pgSize)).frame
    else []

theorem Pagedir.presentPages_regions (pd : Pagedir) :
    pd.presentPages = pd.regionPages (List.range (pdNo physBase)) := by
  rw [presentPages, regionPages]
  generalize List.range (pdNo physBase) = pdes
  rfl

theorem pagedirDestroy_regions {pd : Pagedir} {pdes : List Nat}
    (hinv : s.FrameInv fun q => q ∈ pd.regionPages pdes) (hnodup : (pd.regionPages pdes).Nodup)
    (h : (pdes.forM fun pde => do
      if pd.pde pde then
        (List.range 1024).forM fun pte => do
          let pte := pd.pte (pde * 2 ^ 22 + pte * pgSize)
          if pte.present then vmFrameFree pte.page
        modify fun s : Vm => { s with kernelPages := s.kernelPages + 1 }) s = .ok ((), s')) :
    s'.FramesAgree := by
  induction pdes generalizing s with
  | nil =>
    cases h
    exact hinv.of_iff fun q => by simp [Pagedir.regionPages]
  | cons pde pdes ih =>
    rw [List.forM_eq_forM, List.forM_cons] at h
    obtain ⟨u, s1, h1, h⟩ := Routine.bind_ok.mp h
    rw [Pagedir.regionPages, List.flatMap_cons] at hinv hnodup
    cases hpde : pd.pde pde with
    | true =>
      rw [hpde, if_pos rfl] at hinv hnodup h1
      obtain ⟨u, s2, htable, hcount⟩ := Routine.bind_ok.mp h1
      cases hcount
      have hrest := pagedirDestroy_table hinv hnodup htable
      have hcounted : Vm.FrameInv _ { s2 with kernelPages := s2.kernelPages + 1 } :=
        hrest.congr rfl rfl fun _ _ => rfl
      exact ih hcounted (List.Nodup.of_append_right hnodup) h
    | false =>
      rw [hpde, if_neg nofun] at hinv hnodup
      rw [hpde] at h1
      cases h1
      exact ih hinv hnodup h

theorem processExit_framesAgree (hinv : s.FramesAgree)
    (h : processExit cur s = .ok ((), s')) : s'.FramesAgree := by
  rw [processExit, Routine.get_bind_apply, Routine.modify_bind_apply] at h
  obtain ⟨u, s1, hdestroy, hfree⟩ := Routine.bind_ok.mp h
  cases hfree
  rw [pagedirDestroy] at hdestroy
  obtain ⟨u', s2, hregions, hcount⟩ := Routine.bind_ok.mp hdestroy
  cases hcount
  have hmapped : ∀ p v, (s.setPagedir cur Pagedir.empty).mapped p v =
      if p = cur then none else s.mapped p v := by
    intro p v
    rw [Vm.mapped_setPagedir]
    rfl
  have hdetach : (s.setPagedir cur Pagedir.empty).FrameInv _ := hinv.detach cur rfl rfl hmapped
  have hlisted : ∀ v i, s.mapped cur v = some i → ⟨i, cur, pgRoundDown v⟩ ∈ s.frameHash :=
    fun v i hv => (hinv.listed cur v i hv).2
  have hagree := pagedirDestroy_regions (hdetach.of_iff fun i => ?_) ?_ hregions
  · refine hagree.congr rfl rfl fun p v => ?_
    rw [Vm.mapped_setPtSuppl]
    rfl
  · rw [← Pagedir.presentPages_regions, Pagedir.mem_presentPages, false_or]
    constructor
    · rintro ⟨v, -, -, hv⟩
      exact ⟨v, hv⟩
    · rintro ⟨v, hv⟩
      refine ⟨pgRoundDown v, pgRoundDown_aligned v, ?_, ?_⟩
      · exact lt_of_le_of_lt (Nat.div_mul_le_self _ _) (hinv.user cur v i hv)
      · rw [← hv]
        exact Pagedir.getPage_round _ v
  · rw [← Pagedir.presentPages_regions]
    refine Pagedir.presentPages_nodup fun v u i hv hu hvi hui => ?_
    have hsame := hinv.unique (hlisted v i hvi) (hlisted u i hui) rfl
    have haddr := congrArg FrameEntry.threadVaddr hsame
    rwa [pgRoundDown_of_aligned hv, pgRoundDown_of_aligned hu] at haddr

/-! ### Every operation -/

/-- What holds from boot on. -/
structure Vm.Sound (s : Vm) : Prop where
  frames : s.FramesAgree
  slots : s.SlotsHeld
  infos : s.InfosInv

/-- The machine before any process has been loaded. -/
structure Vm.Unused (s : Vm) : Prop where
  booted : s.Booted
  frameHash : s.frameHash = []
  mapped : ∀ p v, s.mapped p v = none

/-- The operations as they are called: `load_segment` adds entries that fill their pages, and
`pt_suppl_add_mmf` is called by `mmap` only. -/
def PagingOp.Proper : PagingOp → Prop
  | page (.addLazy _ _ _ _ readBytes zeroBytes _) => readBytes + zeroBytes = pgSize
  | page (.addMmf _ _ _ _ _) => False
  | _ => True

theorem Vm.Unused.sound (h : s.Unused) : s.Sound where
  frames :=
    { nodup := by
        rw [h.frameHash]
        exact List.nodup_nil
      used := by
        rw [h.frameHash]
        nofun
      heldUsed := nofun
      backed := by
        rw [h.frameHash]
        nofun
      listed := fun p v page hpage => by
        rw [h.mapped] at hpage
        cases hpage
      user := fun p v page hpage => by
        rw [h.mapped] at hpage
        cases hpage }
  slots := h.booted.slotsHeld
  infos :=
    { fills := fun {p v e inf} he => by
        rw [h.booted.entry] at he
        cases he
      within := fun {p v e inf} he => by
        rw [h.booted.entry] at he
        cases he }

/-- The step lemma. -/
theorem PagingOp.exec_sound {bucket : PtSuppl → List Nat} {op : PagingOp}
    (horder : ∀ fes, (order fes).Perm fes) (hproper : op.Proper) (hinv : s.Sound)
    (h : op.exec order bucket s = .ok ((), s')) : s'.Sound := by
  have hslots : (∀ cur, op ≠ .exit cur) → s'.SlotsHeld := fun hop =>
    (PagingOp.exec_changes hop h).slotsHeld hinv.slots
  cases op with
  | page op =>
    replace hslots := hslots (by simp)
    obtain ⟨b, s1, h, hend⟩ := Routine.bind_ok.mp h
    cases hend
    cases op with
    | addLazy cur file offset pageAddr readBytes zeroBytes writable =>
      rw [VmOp.exec, ptSupplAddLazy, Routine.get_bind_apply] at h
      refine ⟨(ptSupplAdd_frames h).keeps hinv.frames, hslots,
        (ptSupplAdd_infosInv hinv.infos (fun inf hinf => ?_) h).1⟩
      cases hinf
      exact ⟨hproper, (by rintro ⟨⟩)⟩
    | addMmf cur file offset pageAddr readBytes => exact absurd hproper id
    | setupStack cur =>
      exact ⟨setupStackPage_framesAgree horder hinv.frames h, hslots,
        (setupStackPage_infos h).keeps hinv.infos⟩
    | pageFault cur faultAddr esp =>
      exact ⟨pageFault_framesAgree horder hinv.frames h, hslots,
        (pageFault_infos h).keeps hinv.infos⟩
    | access cur vaddr write =>
      exact ⟨(access_frames h).keeps hinv.frames, hslots, (access_infos h).keeps hinv.infos⟩
  | mmap cur fe startPg =>
    replace hslots := hslots (by simp)
    obtain ⟨r, s1, h, hend⟩ := Routine.bind_ok.mp h
    cases hend
    exact ⟨(ptSupplHandleMmap_frames h).keeps hinv.frames, hslots,
      ptSupplHandleMmap_infosInv hinv.infos h⟩
  | munmap cur mapId =>
    replace hslots := hslots (by simp)
    rw [PagingOp.exec, memoryUnmapFile, ptSupplHandleUnmap, Routine.get_bind_apply] at h
    exact ⟨(unmapLoop_frames h).keeps hinv.frames, hslots, (unmapLoop_infos h).keeps hinv.infos⟩
  | exit cur =>
    exact ⟨processExit_framesAgree hinv.frames h, hinv.slots.exit h,
      (processExit_infos h).keeps hinv.infos⟩

/-- The run lemma. -/
theorem sound_of_run {bucket : PtSuppl → List Nat} {ops : List PagingOp} {s0 : Vm}
    (horder : ∀ fes, (order fes).Perm fes) (hproper : ∀ op ∈ ops, op.Proper) (hboot : s0.Unused)
    (h : Routine.Visits (PagingOp.exec order bucket) ops s0 s) : s.Sound := by
  have hstep : ∀ t op u t', Vm.Sound t → PagingOp.Proper op →
      op.exec order bucket t = .ok (u, t') → Vm.Sound t' :=
    fun t op u t' ht hop hrun => op.exec_sound horder hop ht hrun
  refine h.invariant hstep ?_ hboot.sound
  intro op t htakes
  obtain ⟨before, after, as, rfl, -⟩ := htakes
  exact hproper op (List.mem_append_right _ List.mem_cons_self)

end Pintos
