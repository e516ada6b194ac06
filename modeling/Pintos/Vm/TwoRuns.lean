import Pintos.Library.Coupling
import Pintos.Vm.EvictionRace

/-! Virtual memory in two runs whose states differ only in the bytes of some frames: what the routines
decide and return does not depend on these bytes, so where the first run goes on the second does.
After an eviction the swap devices may differ too. -/

namespace Pintos

open Routine (Coupled)

/-- The states agree but for the bytes of the hidden frames and those of the swap device. -/
def Vm.Twin (hidden : Nat → Prop) (s t : Vm) : Prop :=
  ∃ memory swapDevice, t = { s with memory, swapDevice } ∧
    (∀ page, ¬ hidden page → memory page = s.memory page) ∧ swapDevice.size = s.swapDevice.size

variable {hidden : Nat → Prop} {s t : Vm} {cur : Nat}

theorem Vm.Twin.weaken {hidden' : Nat → Prop} (h : s.Twin hidden t)
    (hsub : ∀ page, hidden page → hidden' page) : s.Twin hidden' t := by
  obtain ⟨memory, swapDevice, ht, hmemory, hsize⟩ := h
  exact ⟨memory, swapDevice, ht, fun page hpage => hmemory page fun hh => hpage (hsub page hh), hsize⟩

/-- The same change of anything but the bytes. -/
theorem Vm.Twin.congr {s' t' : Vm} (h : s.Twin hidden t) (hs : s'.memory = s.memory)
    (hsd : s'.swapDevice = s.swapDevice)
    (ht : t' = { s' with memory := t.memory, swapDevice := t.swapDevice }) : s'.Twin hidden t' := by
  obtain ⟨memory, swapDevice, rfl, hmemory, hsize⟩ := h
  refine ⟨memory, swapDevice, ht, fun page hpage => ?_, ?_⟩
  · rw [hs, hmemory page hpage]
  · rw [hsd, hsize]

/-! ### Eviction -/

theorem swapOutLoop_coupled {slot : Nat} {data data' : PageData} {iters : List Nat}
    (h : s.Twin hidden t) : Coupled (Vm.Twin hidden) (swapOutLoop slot data iters s)
      (swapOutLoop slot data' iters t) := by
  rw [swapOutLoop, swapOutLoop]
  refine .forM (fun iter _ s t h => ?_) h
  obtain ⟨memory, swapDevice, rfl, hmemory, hsize⟩ := h
  simp only [Routine.get_bind_apply]
  refine .bind_lift (fun dev hdev => ?_) fun dev dev' hdev hdev' => ?_
  · by_cases hlt : slot * sectorsPerPage + iter < s.swapDevice.size
    · rw [← hsize] at hlt
      exact ⟨_, Block.blockWrite_of_lt hlt _⟩
    · rw [Block.blockWrite_of_le (not_lt.mp hlt)] at hdev
      cases hdev
  · refine .of_ok ⟨memory, dev', rfl, hmemory, ?_⟩
    by_cases hlt : slot * sectorsPerPage + iter < s.swapDevice.size
    · rw [Block.blockWrite_of_lt hlt] at hdev
      rw [← hsize] at hlt
      rw [Block.blockWrite_of_lt hlt] at hdev'
      cases hdev
      cases hdev'
      exact hsize
    · rw [Block.blockWrite_of_le (not_lt.mp hlt)] at hdev
      cases hdev

theorem swapOut_coupled {data data' : PageData} (h : s.Twin hidden t) :
    Coupled (Vm.Twin hidden) (swapOut data s) (swapOut data' t) := by
  have hbm : t.swapBm = s.swapBm := by
    obtain ⟨memory, swapDevice, rfl, -⟩ := h
    rfl
  rw [swapOut, swapOut, Routine.get_bind_apply, Routine.get_bind_apply, hbm]
  cases hscan : s.swapBm.scanAndFlip 0 1 true with
  | none => exact .of_ok h
  | some r =>
    have hset : Vm.Twin hidden { s with swapBm := r.2 } { t with swapBm := r.2 } := by
      refine h.congr rfl rfl ?_
      obtain ⟨memory, swapDevice, rfl, -⟩ := h
      rfl
    refine (swapOutLoop_coupled hset).bind fun u s1 t1 _ h1 => .of_ok h1

theorem selectSweep_twin (fes : List FrameEntry) (h : s.Twin hidden t) :
    (selectSweep fes s).1.Twin hidden (selectSweep fes t).1 ∧
      (selectSweep fes t).2 = (selectSweep fes s).2 := by
  induction fes generalizing s t with
  | nil => exact ⟨h, rfl⟩
  | cons fe fes ih =>
    have hprocess : t.process = s.process := by
      obtain ⟨memory, swapDevice, rfl, -⟩ := h
      rfl
    rw [selectSweep, selectSweep, hprocess]
    split
    · refine ih (h.congr rfl rfl ?_)
      obtain ⟨memory, swapDevice, rfl, -⟩ := h
      rfl
    · exact ⟨h, rfl⟩

theorem selectFrameToEvict_coupled (h : s.Twin hidden t) :
    Coupled (Vm.Twin hidden) (selectFrameToEvict s) (selectFrameToEvict t) := by
  have hframes : ∀ {s t : Vm}, s.Twin hidden t → t.frameHash = s.frameHash := by
    rintro s t ⟨memory, swapDevice, rfl, -⟩
    rfl
  rw [selectFrameToEvict, Routine.get_bind_apply, Routine.get_bind_apply, hframes h]
  obtain ⟨h1, hvict1⟩ := selectSweep_twin s.frameHash h
  rcases hs : selectSweep s.frameHash s with ⟨s1, _ | fe⟩
  · rcases ht : selectSweep s.frameHash t with ⟨t1, r⟩
    rw [hs, ht] at h1 hvict1
    dsimp only at h1 hvict1
    subst hvict1
    dsimp only
    rw [hframes h1]
    obtain ⟨h2, hvict2⟩ := selectSweep_twin s1.frameHash h1
    rcases hs2 : selectSweep s1.frameHash s1 with ⟨s2, _ | fe⟩
    · exact .of_error
    · rcases ht2 : selectSweep s1.frameHash t1 with ⟨t2, r⟩
      rw [hs2, ht2] at h2 hvict2
      dsimp only at h2 hvict2
      subst hvict2
      exact .of_ok h2
  · rcases ht : selectSweep s.frameHash t with ⟨t1, r⟩
    rw [hs, ht] at h1 hvict1
    dsimp only at h1 hvict1
    subst hvict1
    exact .of_ok h1

/-- The process does not see the hidden frames. -/
def Vm.Unseen (s : Vm) (cur : Nat) (hidden : Nat → Prop) : Prop :=
  ∀ v page, s.mapped cur v = some page → ¬ hidden page

theorem userBytes_coupled {vaddr size : Nat} (hunseen : s.Unseen cur hidden)
    (h : s.Twin hidden t) :
    Coupled (Vm.Twin hidden) (userBytes cur vaddr size s) (userBytes cur vaddr size t) := by
  obtain ⟨memory, swapDevice, rfl, hmemory, hsize⟩ := h
  rw [userBytes, Routine.get_bind_apply, Routine.get_bind_apply]
  dsimp only
  cases hpage : (s.process cur).pagedir.getPage vaddr with
  | some page =>
    dsimp only
    rw [hmemory page (hunseen vaddr page hpage)]
    exact .of_ok ⟨memory, swapDevice, rfl, hmemory, hsize⟩
  | none =>
    dsimp only
    split <;> exact .of_error

theorem fileWriteAt_coupled {file vaddr size offset : Nat} (hunseen : s.Unseen cur hidden)
    (h : s.Twin hidden t) : Coupled (Vm.Twin hidden) (fileWriteAt cur file vaddr size offset s)
      (fileWriteAt cur file vaddr size offset t) := by
  have hdeny : t.denyWrite = s.denyWrite := by
    obtain ⟨memory, swapDevice, rfl, -⟩ := h
    rfl
  rw [fileWriteAt, Routine.get_bind_apply, Routine.get_bind_apply, hdeny]
  split
  · exact .of_ok h
  · refine (userBytes_coupled hunseen h).bind fun buffer s1 t1 _ h1 => ?_
    refine .of_ok (h1.congr rfl rfl ?_)
    obtain ⟨memory, swapDevice, rfl, -⟩ := h1
    rfl

theorem writeBackMmf_coupled {fe : FrameEntry} {pt : PtSupplEntry} {info : PtSupplFileInfo}
    (hunseen : s.Unseen cur hidden) (h : s.Twin hidden t) :
    Coupled (Vm.Twin hidden) (writeBackMmf cur fe pt info s) (writeBackMmf cur fe pt info t) := by
  have hprocess : t.process = s.process := by
    obtain ⟨memory, swapDevice, rfl, -⟩ := h
    rfl
  rw [writeBackMmf, Routine.get_bind_apply, Routine.get_bind_apply, hprocess]
  split
  · exact fileWriteAt_coupled hunseen h
  · exact .of_ok h

theorem pagedirClearPage_coupled {p upage : Nat} (h : s.Twin hidden t) :
    Coupled (Vm.Twin hidden) (pagedirClearPage p upage s) (pagedirClearPage p upage t) := by
  rw [pagedirClearPage]
  split
  · exact .of_error
  · beta_reduce
    split
    · exact .of_error
    · refine .of_ok (h.congr rfl rfl ?_)
      obtain ⟨memory, swapDevice, rfl, -⟩ := h
      rfl

theorem pageOutEvictedFrame_coupled {fe : FrameEntry} (hunseen : s.Unseen cur hidden)
    (h : s.Twin hidden t) :
    Coupled (Vm.Twin hidden) (pageOutEvictedFrame cur fe s) (pageOutEvictedFrame cur fe t) := by
  have hprocess : t.process = s.process := by
    obtain ⟨memory, swapDevice, rfl, -⟩ := h
    rfl
  have hput : ∀ {s t : Vm} (e : PtSupplEntry), s.Twin hidden t →
      (s.setPtSuppl fe.owner ((s.process fe.owner).ptSuppl.put e)).Twin hidden
        (t.setPtSuppl fe.owner ((t.process fe.owner).ptSuppl.put e)) := by
    intro s t e h
    refine h.congr rfl rfl ?_
    obtain ⟨memory, swapDevice, rfl, -⟩ := h
    rfl
  rw [pageOutEvictedFrame, Routine.get_bind_apply, Routine.get_bind_apply, hprocess]
  cases hpt : (s.process fe.owner).ptSuppl.get fe.threadVaddr with
  | none =>
    dsimp only
    refine (swapOut_coupled h).bind fun slot s1 t1 _ h1 => ?_
    cases slot with
    | none => exact .of_error
    | some slot => exact pagedirClearPage_coupled (hput _ h1)
  | some pt =>
    dsimp only
    split
    · cases hinfo : pt.fileInfo with
      | none => exact .of_error
      | some info =>
        refine (writeBackMmf_coupled hunseen h).bind fun u s1 t1 _ h1 => ?_
        exact pagedirClearPage_coupled (hput _ h1)
    · exact .of_error

variable {order : List FrameEntry → List FrameEntry}

/-- Both runs get the same frame; what it holds is hidden where the frame is. -/
theorem vmFrameAlloc_coupled {palZero : Bool} {vaddr : Nat} (hunseen : s.Unseen cur hidden)
    (h : s.Twin hidden t) : Coupled (Vm.Twin hidden) (vmFrameAlloc order cur palZero vaddr s)
      (vmFrameAlloc order cur palZero vaddr t) := by
  have hpool : t.userPool = s.userPool := by
    obtain ⟨memory, swapDevice, rfl, -⟩ := h
    rfl
  rw [vmFrameAlloc, Routine.get_bind_apply, Routine.get_bind_apply, hpool]
  cases hscan : s.userPool.scanAndFlip 0 1 false with
  | some r =>
    obtain ⟨memory, swapDevice, rfl, hmemory, hsize⟩ := h
    refine .of_ok ⟨_, swapDevice, rfl, fun page hpage => ?_, hsize⟩
    cases palZero with
    | false => exact hmemory page hpage
    | true =>
      simp only [if_true, Function.update_apply]
      split
      · rfl
      · exact hmemory page hpage
  | none =>
    dsimp only
    rw [evictAndGetFrame]
    refine (selectFrameToEvict_coupled h).bind fun vict s1 t1 hselect h1 => ?_
    have hunseen1 : s1.Unseen cur hidden := by
      intro v page hpage
      rw [(selectFrameToEvict_frames hselect).mapped] at hpage
      exact hunseen v page hpage
    refine (pageOutEvictedFrame_coupled hunseen1 h1).bind fun u s2 t2 _ h2 => ?_
    refine .of_ok (h2.congr rfl rfl ?_)
    obtain ⟨memory, swapDevice, rfl, -⟩ := h2
    rfl

/-! ### Page-in -/

theorem pagedirSetPage_coupled {upage kpage : Nat} {writable : Bool} (h : s.Twin hidden t) :
    Coupled (Vm.Twin hidden) (pagedirSetPage cur upage kpage writable s)
      (pagedirSetPage cur upage kpage writable t) := by
  obtain ⟨memory, swapDevice, rfl, hmemory, hsize⟩ := h
  rw [pagedirSetPage, Routine.get_bind_apply, Routine.get_bind_apply]
  refine .bind_lift (fun r hr => ⟨r, hr⟩) fun r r' hr hr' => ?_
  dsimp only at hr'
  rw [hr] at hr'
  cases hr'
  cases r with
  | none => exact .of_ok ⟨memory, swapDevice, rfl, hmemory, hsize⟩
  | some r => exact .of_ok ⟨memory, swapDevice, rfl, hmemory, hsize⟩

/-- The sectors of the slots may hold other bytes, so the page that they are read to is hidden from
then on. -/
theorem swapIn_coupled {slot vaddr : Nat} (hhidden : ∀ page, hidden page) (h : s.Twin hidden t) :
    Coupled (Vm.Twin hidden) (swapIn cur slot vaddr s) (swapIn cur slot vaddr t) := by
  rw [swapIn]
  have hloop : Coupled (Vm.Twin hidden) (swapInLoop cur slot vaddr (List.range sectorsPerPage) s)
      (swapInLoop cur slot vaddr (List.range sectorsPerPage) t) := by
    rw [swapInLoop]
    refine .forM (fun iter _ s t h => ?_) h
    obtain ⟨memory, swapDevice, rfl, hmemory, hsize⟩ := h
    simp only [Routine.get_bind_apply]
    refine .bind_lift (fun data hdata => ?_) fun data data' _ _ => ?_
    · by_cases hlt : slot * sectorsPerPage + iter < s.swapDevice.size
      · rw [← hsize] at hlt
        exact ⟨_, Block.blockRead_of_lt hlt⟩
      · simp [Block.blockRead, Block.checkSector, Nat.le_of_not_lt hlt, bind, Except.bind, throw,
          throwThe, MonadExceptOf.throw] at hdata
    · cases hpage : (s.process cur).pagedir.getPage vaddr with
      | none => exact .of_error
      | some page =>
        exact .of_ok ⟨_, swapDevice, rfl, fun page hpage => absurd (hhidden page) hpage, hsize⟩
  refine hloop.bind fun u s1 t1 _ h1 => .of_ok (h1.congr rfl rfl ?_)
  obtain ⟨memory, swapDevice, rfl, -⟩ := h1
  rfl

theorem vmFrameFree_coupled {page : Nat} (h : s.Twin hidden t) :
    Coupled (Vm.Twin hidden) (vmFrameFree page s) (vmFrameFree page t) := by
  obtain ⟨memory, swapDevice, rfl, hmemory, hsize⟩ := h
  refine .of_ok ⟨_, swapDevice, rfl, fun q hq => ?_, hsize⟩
  simp only [Function.update_apply]
  split
  · rfl
  · exact hmemory q hq

theorem ptSupplFinish_coupled {frm : Nat} {e : PtSupplEntry} {pgdir : Bool}
    (h : s.Twin hidden t) :
    Coupled (Vm.Twin hidden) (ptSupplFinish cur frm e pgdir s) (ptSupplFinish cur frm e pgdir t) := by
  rw [ptSupplFinish]
  cases pgdir with
  | false => exact (vmFrameFree_coupled h).bind fun u s1 t1 _ h1 => .of_ok h1
  | true =>
    refine .of_ok (h.congr rfl rfl ?_)
    obtain ⟨memory, swapDevice, rfl, -⟩ := h
    rfl

theorem ptSupplSwapIn_coupled {frm : Nat} {e : PtSupplEntry} (hhidden : ∀ page, hidden page)
    (h : s.Twin hidden t) :
    Coupled (Vm.Twin hidden) (ptSupplSwapIn cur frm e s) (ptSupplSwapIn cur frm e t) := by
  rw [ptSupplSwapIn]
  refine (pagedirSetPage_coupled h).bind fun pgdir s1 t1 _ h1 => ?_
  have hend : Coupled (Vm.Twin hidden) (ptSupplFinish cur frm e false s1)
      (ptSupplFinish cur frm e false t1) := ptSupplFinish_coupled h1
  cases pgdir with
  | false => exact hend
  | true => exact (swapIn_coupled hhidden h1).bind fun u s2 t2 _ h2 => ptSupplFinish_coupled h2

theorem ptSupplReadIn_coupled {frm : Nat} {e : PtSupplEntry} {inf : PtSupplFileInfo}
    (hhidden : ∀ page, hidden page) (h : s.Twin hidden t) :
    Coupled (Vm.Twin hidden) (ptSupplReadIn cur frm e inf s) (ptSupplReadIn cur frm e inf t) := by
  rw [ptSupplReadIn]
  have hread : Coupled (Vm.Twin hidden) (ptSupplRead frm inf s) (ptSupplRead frm inf t) := by
    obtain ⟨memory, swapDevice, rfl, hmemory, hsize⟩ := h
    exact .of_ok ⟨_, swapDevice, rfl, fun page hpage => absurd (hhidden page) hpage, hsize⟩
  refine hread.bind fun read s1 t1 _ h1 => ?_
  refine Coupled.bind ?_ fun pgdir s2 t2 _ h2 => ptSupplFinish_coupled h2
  cases read with
  | true => exact pagedirSetPage_coupled h1
  | false => exact .of_ok h1

/-- What the frames hold does not decide whether a page comes in. -/
theorem ptSupplPageIn_coupled {v : Nat} (hunseen : s.Unseen cur hidden) (h : s.Twin hidden t) :
    Coupled (Vm.Twin fun _ => True) (ptSupplPageIn order cur v s)
      (ptSupplPageIn order cur v t) := by
  rw [ptSupplPageIn]
  refine (vmFrameAlloc_coupled hunseen h).bind fun frm s1 t1 _ h1 => ?_
  have hprocess : t1.process = s1.process := by
    obtain ⟨memory, swapDevice, rfl, -⟩ := h1
    rfl
  replace h1 := h1.weaken fun _ _ => trivial
  rw [Routine.get_bind_apply, Routine.get_bind_apply, hprocess]
  cases hentry : (s1.process cur).ptSuppl.get v with
  | none => exact .of_error
  | some e =>
    dsimp only
    cases hpresence : e.presence with
    | present => exact .of_error
    | swapped => exact ptSupplSwapIn_coupled (fun _ => trivial) h1
    | unloaded =>
      cases hinfo : e.fileInfo with
      | none => exact .of_error
      | some inf => exact ptSupplReadIn_coupled (fun _ => trivial) h1

theorem ptSupplGrowStack_coupled {front : Nat} (hunseen : s.Unseen cur hidden)
    (h : s.Twin hidden t) : Coupled (Vm.Twin fun _ => True) (ptSupplGrowStack order cur front s)
      (ptSupplGrowStack order cur front t) := by
  rw [ptSupplGrowStack]
  refine (vmFrameAlloc_coupled hunseen h).bind fun frm s1 t1 _ h1 => ?_
  replace h1 := h1.weaken fun _ _ => trivial
  refine (pagedirSetPage_coupled h1).bind fun mapped s2 t2 _ h2 => ?_
  cases mapped with
  | true => exact .of_ok h2
  | false => exact vmFrameFree_coupled h2

theorem installPage_coupled {upage kpage : Nat} {writable : Bool} (h : s.Twin hidden t) :
    Coupled (Vm.Twin hidden) (installPage cur upage kpage writable s)
      (installPage cur upage kpage writable t) := by
  have hprocess : t.process = s.process := by
    obtain ⟨memory, swapDevice, rfl, -⟩ := h
    rfl
  rw [installPage, Routine.get_bind_apply, Routine.get_bind_apply, hprocess]
  split
  · exact pagedirSetPage_coupled h
  · exact .of_ok h

theorem setupStackPage_coupled (hunseen : s.Unseen cur hidden) (h : s.Twin hidden t) :
    Coupled (Vm.Twin fun _ => True) (setupStackPage order cur s) (setupStackPage order cur t) := by
  rw [setupStackPage]
  refine (vmFrameAlloc_coupled hunseen h).bind fun frm s1 t1 _ h1 => ?_
  replace h1 := h1.weaken fun _ _ => trivial
  refine (installPage_coupled h1).bind fun result s2 t2 _ h2 => ?_
  cases result with
  | true => exact .of_ok h2
  | false => exact (vmFrameFree_coupled h2).bind fun u s3 t3 _ h3 => .of_ok h3

theorem ptSupplHandlePageFault_coupled {vaddress esp : Nat} (hunseen : s.Unseen cur hidden)
    (h : s.Twin hidden t) :
    Coupled (Vm.Twin fun _ => True) (ptSupplHandlePageFault order cur vaddress esp s)
      (ptSupplHandlePageFault order cur vaddress esp t) := by
  have hprocess : t.process = s.process := by
    obtain ⟨memory, swapDevice, rfl, -⟩ := h
    rfl
  rw [ptSupplHandlePageFault]
  split
  · exact .of_error
  · beta_reduce
    rw [Routine.get_bind_apply, Routine.get_bind_apply, hprocess]
    cases hentry : (s.process cur).ptSuppl.get (pgRoundDown vaddress) with
    | some e => exact ptSupplPageIn_coupled hunseen h
    | none =>
      dsimp only
      rw [ptSupplCheckAndGrowStack]
      split
      · exact (ptSupplGrowStack_coupled hunseen h).bind fun u s1 t1 _ h1 => .of_ok h1
      · exact .of_ok (h.weaken fun _ _ => trivial)

theorem pageFault_coupled {faultAddr esp : Nat} (hunseen : s.Unseen cur hidden)
    (h : s.Twin hidden t) :
    Coupled (Vm.Twin fun _ => True) (pageFault order cur faultAddr esp s)
      (pageFault order cur faultAddr esp t) := by
  have hprocess : t.process = s.process := by
    obtain ⟨memory, swapDevice, rfl, -⟩ := h
    rfl
  rw [pageFault, Routine.get_bind_apply, Routine.get_bind_apply, hprocess]
  split
  · refine (ptSupplHandlePageFault_coupled hunseen h).bind fun handled s1 t1 _ h1 => ?_
    have hprocess1 : t1.process = s1.process := by
      obtain ⟨memory, swapDevice, rfl, -⟩ := h1
      rfl
    rw [Routine.get_bind_apply, Routine.get_bind_apply, hprocess1]
    exact .of_ok h1
  · exact .of_ok (h.weaken fun _ _ => trivial)

end Pintos
