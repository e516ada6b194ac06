import Pintos.Vm.Effects
import Pintos.Vm.FrameTable

/-! What the routines of virtual memory do to the frame table, the user pool and the mapped pages.
Most of them leave all three alone; an eviction unmaps one page, and `pagedir_set_page` maps one. -/

namespace Pintos

namespace Vm

/-- The frame table, the user pool and the mapped pages stay the same. -/
structure SameFrames (s s' : Vm) : Prop where
  frames : s'.frameHash = s.frameHash
  pool : s'.userPool = s.userPool
  mapped : ∀ p v, s'.mapped p v = s.mapped p v

variable {held : Nat → Prop} {s s' s1 : Vm} {cur : Nat}

theorem SameFrames.refl (s : Vm) : s.SameFrames s := ⟨rfl, rfl, fun _ _ => rfl⟩

theorem SameFrames.trans (h1 : s.SameFrames s1) (h2 : s1.SameFrames s') : s.SameFrames s' where
  frames := h2.frames.trans h1.frames
  pool := h2.pool.trans h1.pool
  mapped p v := (h2.mapped p v).trans (h1.mapped p v)

theorem SameFrames.keeps (h : s.SameFrames s') (hinv : s.FrameInv held) : s'.FrameInv held :=
  hinv.congr h.frames h.pool h.mapped

theorem mapped_setPagedir (s : Vm) (cur : Nat) (pd : Pagedir) (p v : Nat) :
    (s.setPagedir cur pd).mapped p v = if p = cur then pd.getPage v else s.mapped p v := by
  rw [mapped, mapped]
  by_cases hp : p = cur
  · subst hp
    simp
  · rw [setPagedir_process_ne s hp, if_neg hp]

theorem mapped_setPtSuppl (s : Vm) (cur : Nat) (table : PtSuppl) (p v : Nat) :
    (s.setPtSuppl cur table).mapped p v = s.mapped p v := by
  rw [mapped, mapped]
  by_cases hp : p = cur
  · subst hp
    simp
  · rw [setPtSuppl_process_ne s hp]

theorem SameFrames.setPtSuppl (s : Vm) (cur : Nat) (table : PtSuppl) :
    s.SameFrames (s.setPtSuppl cur table) := ⟨rfl, rfl, mapped_setPtSuppl s cur table⟩

theorem SameFrames.setPagedir {pd : Pagedir}
    (h : ∀ v, pd.getPage v = (s.process cur).pagedir.getPage v) :
    s.SameFrames (s.setPagedir cur pd) := by
  refine ⟨rfl, rfl, fun p v => ?_⟩
  rw [mapped_setPagedir]
  split
  · rename_i hp
    rw [h, hp]
    rfl
  · rfl

theorem SameFrames.touch (s : Vm) (cur v : Nat) (write : Bool) :
    s.SameFrames (s.setPagedir cur ((s.process cur).pagedir.touch v write)) :=
  .setPagedir fun u => Pagedir.touch_getPage _ v u write

theorem SameFrames.setAccessed (s : Vm) (cur v : Nat) (accessed : Bool) :
    s.SameFrames (s.setPagedir cur ((s.process cur).pagedir.setAccessed v accessed)) :=
  .setPagedir fun u => Pagedir.setAccessed_getPage _ v u accessed

/-- Page `v` of process `o` is unmapped; the frame table and the user pool stay the same. -/
structure Unmaps (s : Vm) (o v : Nat) (s' : Vm) : Prop where
  frames : s'.frameHash = s.frameHash
  pool : s'.userPool = s.userPool
  mapped : ∀ p u, s'.mapped p u =
    if p = o ∧ pgRoundDown u = v then none else s.mapped p u

/-- Page `v` of process `o`, which was not mapped, is mapped to a frame. -/
structure Maps (s : Vm) (o v page : Nat) (s' : Vm) : Prop where
  frames : s'.frameHash = s.frameHash
  pool : s'.userPool = s.userPool
  user : v < physBase
  none : s.mapped o v = none
  mapped : ∀ p u, s'.mapped p u =
    if p = o ∧ pgRoundDown u = v then some page else s.mapped p u

end Vm

variable {s s' : Vm} {cur : Nat}

/-! ### Eviction -/

theorem swapOutLoop_ok {slot : Nat} {data : PageData} {iters : List Nat}
    (h : swapOutLoop slot data iters s = .ok ((), s')) :
    ∃ swapDevice, s' = { s with swapDevice } := by
  induction iters generalizing s with
  | nil =>
    cases h
    exact ⟨_, rfl⟩
  | cons iter iters ih =>
    rw [swapOutLoop, List.forM_eq_forM, List.forM_cons] at h
    obtain ⟨u, s1, h1, h⟩ := Routine.bind_ok.mp h
    rw [Routine.get_bind_apply] at h1
    obtain ⟨dev, s2, h2, h1⟩ := Routine.bind_ok.mp h1
    obtain rfl := Routine.lift_state h2
    cases h1
    obtain ⟨swapDevice, rfl⟩ := ih h
    exact ⟨swapDevice, rfl⟩

theorem swapOut_ok {data : PageData} {slot : Option Nat} (h : swapOut data s = .ok (slot, s')) :
    ∃ swapBm swapDevice, s' = { s with swapBm, swapDevice } := by
  rw [swapOut, Routine.get_bind_apply] at h
  rcases hscan : s.swapBm.scanAndFlip 0 1 true with _ | ⟨i, bm⟩
  · rw [hscan] at h
    cases h
    exact ⟨_, _, rfl⟩
  · rw [hscan] at h
    obtain ⟨⟨⟩, s0, hset, h⟩ := Routine.bind_ok.mp h
    cases hset
    obtain ⟨u, s1, h1, h⟩ := Routine.bind_ok.mp h
    cases h
    obtain ⟨swapDevice, rfl⟩ := swapOutLoop_ok h1
    exact ⟨bm, swapDevice, rfl⟩

/-- The search for a victim changes the accessed bits only. -/
theorem selectSweep_process (fes : List FrameEntry) (s : Vm) :
    ∃ process, (selectSweep fes s).1 = { s with process } := by
  induction fes generalizing s with
  | nil => exact ⟨_, rfl⟩
  | cons fe fes ih =>
    rw [selectSweep]
    split
    · obtain ⟨process, hrest⟩ := ih (s.setPagedir fe.owner
        ((s.process fe.owner).pagedir.setAccessed fe.threadVaddr false))
      rw [hrest]
      exact ⟨process, rfl⟩
    · exact ⟨_, rfl⟩

theorem selectFrameToEvict_process {fe : FrameEntry} (h : selectFrameToEvict s = .ok (fe, s')) :
    ∃ process, s' = { s with process } := by
  rw [selectFrameToEvict, Routine.get_bind_apply] at h
  obtain ⟨process1, h1⟩ := selectSweep_process s.frameHash s
  rcases hsweep : selectSweep s.frameHash s with ⟨s1, _ | fe1⟩
  · rw [hsweep] at h h1
    dsimp only at h h1
    obtain ⟨process2, h2⟩ := selectSweep_process s1.frameHash s1
    rcases hsweep2 : selectSweep s1.frameHash s1 with ⟨s2, _ | fe2⟩
    · rw [hsweep2] at h
      cases h
    · rw [hsweep2] at h h2
      cases h
      dsimp only at h2
      rw [h2, h1]
      exact ⟨process2, rfl⟩
  · rw [hsweep] at h h1
    cases h
    exact ⟨process1, h1⟩

theorem selectSweep_frames (fes : List FrameEntry) (s : Vm) :
    s.SameFrames (selectSweep fes s).1 := by
  induction fes generalizing s with
  | nil => exact .refl s
  | cons fe fes ih =>
    rw [selectSweep]
    split
    · exact (Vm.SameFrames.setAccessed s fe.owner fe.threadVaddr false).trans (ih _)
    · exact .refl s

theorem selectFrameToEvict_frames {fe : FrameEntry} (h : selectFrameToEvict s = .ok (fe, s')) :
    s.SameFrames s' := by
  rw [selectFrameToEvict, Routine.get_bind_apply] at h
  have h1 := selectSweep_frames s.frameHash s
  rcases hsweep : selectSweep s.frameHash s with ⟨s1, _ | fe1⟩
  · rw [hsweep] at h h1
    dsimp only at h
    have h2 := selectSweep_frames s1.frameHash s1
    rcases hsweep2 : selectSweep s1.frameHash s1 with ⟨s2, _ | fe2⟩
    · rw [hsweep2] at h
      cases h
    · rw [hsweep2] at h h2
      cases h
      exact h1.trans h2
  · rw [hsweep] at h h1
    cases h
    exact h1

theorem fileWriteAt_frames {file vaddr size offset : Nat}
    (h : fileWriteAt cur file vaddr size offset s = .ok ((), s')) : s.SameFrames s' := by
  rcases fileWriteAt_ok h with ⟨-, rfl⟩ | ⟨-, page, -, rfl⟩
  · exact .refl _
  · exact (Vm.SameFrames.touch s cur vaddr false).trans ⟨rfl, rfl, fun _ _ => rfl⟩

theorem writeBackMmf_frames {fe : FrameEntry} {pt : PtSupplEntry} {info : PtSupplFileInfo}
    (h : writeBackMmf cur fe pt info s = .ok ((), s')) : s.SameFrames s' := by
  rcases writeBackMmf_ok h with ⟨-, rfl⟩ | ⟨-, hwrite⟩
  · exact .refl _
  · exact fileWriteAt_frames hwrite

theorem pagedirClearPage_unmaps {q v : Nat} (h : pagedirClearPage q v s = .ok ((), s')) :
    v % pgSize = 0 ∧ s.Unmaps q v s' := by
  obtain ⟨halign, rfl⟩ := pagedirClearPage_ok h
  refine ⟨halign, rfl, rfl, fun p u => ?_⟩
  rw [Vm.mapped_setPagedir]
  by_cases hp : p = q
  · subst hp
    rw [if_pos rfl, Pagedir.clearPage_getPage _ halign]
    simp [Vm.mapped]
  · rw [if_neg hp, if_neg fun h => hp h.1]

theorem Vm.SameFrames.unmaps {s1 : Vm} {o v : Nat} (h1 : s.SameFrames s1) (h : s1.Unmaps o v s') :
    s.Unmaps o v s' where
  frames := h.frames.trans h1.frames
  pool := h.pool.trans h1.pool
  mapped p u := by rw [h.mapped p u, h1.mapped p u]

/-- A page-out unmaps the page that the entry of the frame names. -/
theorem pageOutEvictedFrame_unmaps {fe : FrameEntry}
    (h : pageOutEvictedFrame cur fe s = .ok ((), s')) :
    fe.threadVaddr % pgSize = 0 ∧ s.Unmaps fe.owner fe.threadVaddr s' := by
  rw [pageOutEvictedFrame, Routine.get_bind_apply] at h
  cases hpt : (s.process fe.owner).ptSuppl.get fe.threadVaddr with
  | none =>
    rw [hpt] at h
    obtain ⟨slot, s1, hout, h⟩ := Routine.bind_ok.mp h
    cases slot with
    | none => cases h
    | some slot =>
      obtain ⟨swapBm, swapDevice, rfl⟩ := swapOut_ok hout
      obtain ⟨⟨⟩, s2, hput, h⟩ := Routine.bind_ok.mp h
      cases hput
      obtain ⟨halign, hclear⟩ := pagedirClearPage_unmaps h
      have hsame : s.SameFrames { s with swapBm, swapDevice } := ⟨rfl, rfl, fun _ _ => rfl⟩
      exact ⟨halign, (hsame.trans (.setPtSuppl _ _ _)).unmaps hclear⟩
  | some pt =>
    rw [hpt] at h
    have hvaddr := (s.process fe.owner).ptSuppl.vaddr_eq hpt
    dsimp only at h
    split at h
    · cases hinfo : pt.fileInfo with
      | none =>
        rw [hinfo] at h
        cases h
      | some info =>
        rw [hinfo] at h
        obtain ⟨u, s1, hwrite, h⟩ := Routine.bind_ok.mp h
        obtain ⟨⟨⟩, s2, hput, h⟩ := Routine.bind_ok.mp h
        cases hput
        obtain ⟨halign, hclear⟩ := pagedirClearPage_unmaps h
        rw [hvaddr] at halign hclear
        exact ⟨halign, ((writeBackMmf_frames hwrite).trans (.setPtSuppl _ _ _)).unmaps hclear⟩
    · cases h

/-! ### Page-in -/

theorem ptSupplRead_frames {frm : Nat} {inf : PtSupplFileInfo} {read : Bool}
    (h : ptSupplRead frm inf s = .ok (read, s')) : s.SameFrames s' := by
  cases h
  exact ⟨rfl, rfl, fun _ _ => rfl⟩

theorem pagedirSetPage_maps {upage kpage : Nat} {writable b : Bool}
    (h : pagedirSetPage cur upage kpage writable s = .ok (b, s')) :
    (b = false ∧ s' = s) ∨ b = true ∧ upage % pgSize = 0 ∧ s.Maps cur upage kpage s' := by
  rcases pagedirSetPage_ok h with hfalse | ⟨hb, kernelPages, pd, hpd, rfl⟩
  · exact .inl hfalse
  · obtain ⟨halign, huser, hnone, hpages⟩ := Pagedir.setPage_maps hpd
    refine .inr ⟨hb, halign, rfl, rfl, huser, hnone, fun p u => ?_⟩
    rw [Vm.mapped_setPagedir]
    by_cases hp : p = cur
    · subst hp
      rw [if_pos rfl, hpages]
      simp [Vm.mapped]
    · rw [if_neg hp, if_neg fun h => hp h.1]
      rfl

theorem swapInLoop_frames {slot vaddr : Nat} {iters : List Nat}
    (h : swapInLoop cur slot vaddr iters s = .ok ((), s')) : s.SameFrames s' := by
  induction iters generalizing s with
  | nil =>
    cases h
    exact .refl _
  | cons iter iters ih =>
    rw [swapInLoop, List.forM_eq_forM, List.forM_cons] at h
    obtain ⟨u, s1, h1, h⟩ := Routine.bind_ok.mp h
    rw [Routine.get_bind_apply] at h1
    obtain ⟨data, s2, h2, h1⟩ := Routine.bind_ok.mp h1
    obtain rfl := Routine.lift_state h2
    cases hpage : (s2.process cur).pagedir.getPage vaddr with
    | none =>
      rw [hpage] at h1
      cases h1
    | some page =>
      rw [hpage] at h1
      cases h1
      refine (Vm.SameFrames.touch s2 cur vaddr true).trans (Vm.SameFrames.trans ?_ (ih h))
      exact ⟨rfl, rfl, fun _ _ => rfl⟩

theorem swapIn_frames {slot vaddr : Nat} (h : swapIn cur slot vaddr s = .ok ((), s')) :
    s.SameFrames s' := by
  rw [swapIn] at h
  obtain ⟨u, s1, hloop, h⟩ := Routine.bind_ok.mp h
  cases h
  exact (swapInLoop_frames hloop).trans ⟨rfl, rfl, fun _ _ => rfl⟩

theorem ptSupplLoaded_frames {e : PtSupplEntry} (h : ptSupplLoaded cur e s = .ok ((), s')) :
    s.SameFrames s' := by
  cases h
  exact .setPtSuppl _ _ _

theorem access_frames {vaddr : Nat} {write : Option UInt8} {b : Bool}
    (h : access cur vaddr write s = .ok (b, s')) : s.SameFrames s' := by
  rw [access, Routine.get_bind_apply] at h
  cases hpage : (s.process cur).pagedir.getPage vaddr with
  | none =>
    rw [hpage] at h
    cases h
    exact .refl _
  | some page =>
    rw [hpage] at h
    have htouch := Vm.SameFrames.touch s cur vaddr write.isSome
    cases write with
    | none =>
      cases h
      exact htouch
    | some value =>
      cases h
      exact htouch.trans ⟨rfl, rfl, fun _ _ => rfl⟩

/-! ### Mappings -/

theorem ptSupplAdd_frames {e : PtSupplEntry} {b : Bool} (h : ptSupplAdd cur e s = .ok (b, s')) :
    s.SameFrames s' := by
  rw [ptSupplAdd, Routine.get_bind_apply] at h
  split at h
  · cases h
    exact .setPtSuppl _ _ _
  · cases h
    exact .refl _

theorem mmapLoop_frames {fe len pageAddress : Nat} {ofss : List Nat} {b : Bool}
    (h : mmapLoop cur fe len ofss pageAddress s = .ok (b, s')) : s.SameFrames s' := by
  induction ofss generalizing s pageAddress with
  | nil =>
    cases h
    exact .refl _
  | cons ofs ofss ih =>
    rw [mmapLoop, Routine.get_bind_apply] at h
    split at h
    · cases h
      exact .refl _
    · by_cases huser : physBase ≤ (pageAddress + ofs) % 2 ^ 32
      · rw [if_pos huser] at h
        cases h
      · rw [if_neg huser] at h
        beta_reduce at h
        split at h
        · cases h
          exact .refl _
        · obtain ⟨added, s1, hadd, h⟩ := Routine.bind_ok.mp h
          rw [ptSupplAddMmf, Routine.get_bind_apply] at hadd
          exact (ptSupplAdd_frames hadd).trans (ih h)

theorem ptSupplHandleMmap_frames {fe startPg : Nat} {r : Int}
    (h : ptSupplHandleMmap cur fe startPg s = .ok (r, s')) : s.SameFrames s' := by
  rw [ptSupplHandleMmap, Routine.get_bind_apply] at h
  split at h
  · cases h
    exact .refl _
  · obtain ⟨⟨⟩, s2, hcount, h⟩ := Routine.bind_ok.mp h
    cases hcount
    obtain ⟨b, s3, hloop, h⟩ := Routine.bind_ok.mp h
    have hlast : s' = s3 := by
      split at h <;> cases h <;> rfl
    subst hlast
    refine Vm.SameFrames.trans ?_ (mmapLoop_frames hloop)
    exact ⟨rfl, rfl, fun _ _ => rfl⟩

theorem ptSupplFlushMmf_frames {e : PtSupplEntry} (h : ptSupplFlushMmf cur e s = .ok ((), s')) :
    s.SameFrames s' := by
  rw [ptSupplFlushMmf] at h
  split at h
  · cases hinfo : e.fileInfo with
    | none =>
      rw [hinfo] at h
      cases h
    | some info =>
      rw [hinfo] at h
      exact fileWriteAt_frames h
  · cases h
    exact .refl _

variable {bucket : PtSuppl → List Nat}

theorem unmapLoop_frames {mapId fuel : Nat}
    (h : unmapLoop bucket cur mapId fuel s = .ok ((), s')) : s.SameFrames s' := by
  refine unmapLoop_rel (R := Vm.SameFrames) .refl (fun {s t e} _ _ hrest => ?_)
    (fun hflush hrest => (ptSupplFlushMmf_frames hflush).trans hrest) h
  exact (Vm.SameFrames.setPtSuppl s cur _).trans hrest

end Pintos
