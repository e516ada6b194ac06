import Pintos.Vm.FrameOps
import Pintos.Vm.SwapSlots

/-! The eviction of a page while its owner writes to it.  `page_out_evicted_frame` copies the page to
swap sector by sector and unmaps it last, so the owner can write to it until then; a write to a sector
that has been copied is lost, unless it leaves the bytes as they were copied. -/

namespace Pintos

/-- Where `page_out_evicted_frame` is in its branch for a page without a supplemental entry. -/
inductive PageOutPc where
  | takeSlot
  | copy (slot iter : Nat)
  | insert (slot : Nat)
  | clear (slot : Nat)
  | done (slot : Nat)
  deriving DecidableEq

structure PageOutState where
  vm : Vm
  pc : PageOutPc

/-- The next step of the eviction of `fe`. -/
def pageOutStep (fe : FrameEntry) : Routine Fault PageOutState Unit := do
  let s ← get
  match s.pc with
  | .takeSlot =>
    match s.vm.swapBm.scanAndFlip 0 1 true with
    | none => throw (.panic "Cannot swap")
    | some (slot, swapBm) => set (PageOutState.mk { s.vm with swapBm } (.copy slot 0))
  | .copy slot iter =>
    let swapDevice ← s.vm.swapDevice.blockWrite (slot * sectorsPerPage + iter)
      ((s.vm.memory fe.page).sector iter)
    set (PageOutState.mk { s.vm with swapDevice }
      (if iter + 1 = sectorsPerPage then .insert slot else .copy slot (iter + 1)))
  | .insert slot =>
    set (PageOutState.mk
      (s.vm.setPtSuppl fe.owner ((s.vm.process fe.owner).ptSuppl.put
        { vaddr := fe.threadVaddr, type := .lazy, presence := .swapped, swapSlot := slot,
          fileInfo := none }))
      (.clear slot))
  | .clear slot =>
    match pagedirClearPage fe.owner fe.threadVaddr s.vm with
    | .ok ((), vm) => set (PageOutState.mk vm (.done slot))
    | .error fault => throw fault
  | .done _ => throw (.undefined "page_out_evicted_frame has returned")

/-- What happens next: a step of the eviction, or a write of the owner. -/
inductive RaceEvent where
  | evict
  | write (offset : Fin 4096) (value : UInt8)

namespace RaceEvent

/-- Executes an event.  A write to a page that is not present faults and stores nothing. -/
def exec (fe : FrameEntry) : RaceEvent → Routine Fault PageOutState Unit
  | evict => pageOutStep fe
  | write offset value => do
    let s ← get
    match access fe.owner (fe.threadVaddr + offset.val) (some value) s.vm with
    | .ok (_, vm) => set (PageOutState.mk vm s.pc)
    | .error fault => throw fault

/-- The page after the writes among the events. -/
def written (data : PageData) : List RaceEvent → PageData
  | [] => data
  | evict :: es => written data es
  | write offset value :: es => written (Function.update data offset value) es

/-- The events before the `n + 1`-th step of the eviction. -/
def beforeStep : (n : Nat) → List RaceEvent → List RaceEvent
  | _, [] => []
  | 0, evict :: _ => []
  | n + 1, evict :: es => evict :: beforeStep n es
  | n, write offset value :: es => write offset value :: beforeStep n es

end RaceEvent

/-- The page that process `p` sees at `v`. -/
def Vm.pageContents (s : Vm) (p v : Nat) : Option PageData := (s.mapped p v).map s.memory

/-- The page of the entry is resident, with the given contents. -/
structure FrameEntry.Holds (fe : FrameEntry) (s : Vm) (data : PageData) : Prop where
  aligned : fe.threadVaddr % pgSize = 0
  mapped : s.mapped fe.owner fe.threadVaddr = some fe.page
  memory : s.memory fe.page = data

/-- What is known of the swap slot and of the supplemental entry at each point of the eviction. -/
def PageOutPc.Inv (fe : FrameEntry) (s : Vm) : PageOutPc → Prop
  | takeSlot | done _ => True
  | copy slot iter => s.swapBm.Used slot ∧ iter < sectorsPerPage
  | insert slot => s.swapBm.Used slot
  | clear slot => s.swapBm.Used slot ∧
      s.entry fe.owner fe.threadVaddr = some ⟨fe.threadVaddr, .lazy, .swapped, slot, none⟩

variable {fe : FrameEntry} {s s' m : Vm} {cur slot : Nat} {data : PageData} {pc : PageOutPc}
  {es : List RaceEvent}

/-! ### The events -/

/-- The owner's store reaches the frame as long as the page is present. -/
theorem exec_write (h : fe.Holds s data) (offset : Fin 4096) (value : UInt8) :
    ∃ s', (RaceEvent.write offset value).exec fe ⟨s, pc⟩ = .ok ((), ⟨s', pc⟩) ∧
      fe.Holds s' (Function.update data offset value) ∧ s'.swapDevice = s.swapDevice ∧
      s'.swapBm = s.swapBm ∧ ∀ p v, s'.entry p v = s.entry p v := by
  have hround : pgRoundDown (fe.threadVaddr + offset.val) = fe.threadVaddr := by
    have haligned := h.aligned
    have hlt := offset.isLt
    unfold pgRoundDown
    unfold pgSize at *
    omega
  have hpage : (s.process fe.owner).pagedir.getPage (fe.threadVaddr + offset.val) =
      some fe.page := by
    rw [← Pagedir.getPage_round, hround]
    exact h.mapped
  have hoffset : (fe.threadVaddr + offset.val) % pgSize = offset.val := by
    have haligned := h.aligned
    have hlt := offset.isLt
    unfold pgSize at *
    omega
  have htouch := Vm.SameFrames.touch s fe.owner (fe.threadVaddr + offset.val) true
  have hview := Vm.SameView.touch s fe.owner (fe.threadVaddr + offset.val) true
  rw [RaceEvent.exec, Routine.get_bind_apply]
  simp only [access, Routine.get_bind_apply, hpage, Routine.set_bind_apply,
    Routine.modify_bind_apply, Routine.pure_apply, Routine.set_apply]
  refine ⟨_, rfl, ⟨h.aligned, ?_, ?_⟩, rfl, rfl, fun p v => ?_⟩
  · exact (htouch.mapped _ _).trans h.mapped
  · funext i
    have hmemory := congrFun h.memory i
    by_cases hi : i = offset
    · subst hi
      simp [Vm.setMemory, hoffset]
    · have hne : i.val ≠ offset.val := fun hval => hi (Fin.ext hval)
      rw [Function.update_of_ne hi, ← hmemory]
      simp [Vm.setMemory, hoffset, hne]
      rfl
  · exact hview.entry p v

/-- The steps of the eviction that end without a fault. -/
inductive StepsTo (fe : FrameEntry) (s : Vm) : PageOutPc → Vm → PageOutPc → Prop where
  | takeSlot {slot : Nat} {swapBm : Bitmap}
      (hscan : s.swapBm.scanAndFlip 0 1 true = some (slot, swapBm)) :
      StepsTo fe s .takeSlot { s with swapBm } (.copy slot 0)
  | copy {slot iter : Nat} (hlt : slot * sectorsPerPage + iter < s.swapDevice.size) :
      StepsTo fe s (.copy slot iter)
        { s with
          swapDevice := s.swapDevice.store (slot * sectorsPerPage + iter)
            ((s.memory fe.page).sector iter) }
        (if iter + 1 = sectorsPerPage then .insert slot else .copy slot (iter + 1))
  | insert {slot : Nat} : StepsTo fe s (.insert slot)
      (s.setPtSuppl fe.owner ((s.process fe.owner).ptSuppl.put
        ⟨fe.threadVaddr, .lazy, .swapped, slot, none⟩)) (.clear slot)
  | clear {slot : Nat} {s' : Vm}
      (hclear : pagedirClearPage fe.owner fe.threadVaddr s = .ok ((), s')) :
      StepsTo fe s (.clear slot) s' (.done slot)

theorem pageOutStep_iff {pc' : PageOutPc} :
    pageOutStep fe ⟨s, pc⟩ = .ok ((), ⟨s', pc'⟩) ↔ StepsTo fe s pc s' pc' := by
  rw [pageOutStep, Routine.get_bind_apply]
  constructor
  · intro h
    cases pc with
    | takeSlot =>
      dsimp only at h
      cases hscan : s.swapBm.scanAndFlip 0 1 true with
      | none =>
        rw [hscan] at h
        cases h
      | some r =>
        rw [hscan] at h
        cases h
        exact .takeSlot hscan
    | copy slot iter =>
      obtain ⟨device, t1, hwrite, h⟩ := Routine.bind_ok.mp h
      have hdevice := Routine.lift_ok hwrite
      obtain rfl := Routine.lift_state hwrite
      by_cases hlt : slot * sectorsPerPage + iter < s.swapDevice.size
      · rw [Block.blockWrite_of_lt hlt] at hdevice
        cases hdevice
        cases h
        exact .copy hlt
      · rw [Block.blockWrite_of_le (not_lt.mp hlt)] at hdevice
        cases hdevice
    | insert slot =>
      cases h
      exact .insert
    | clear slot =>
      dsimp only at h
      cases hclear : pagedirClearPage fe.owner fe.threadVaddr s with
      | error fault =>
        rw [hclear] at h
        cases h
      | ok r =>
        rw [hclear] at h
        cases h
        exact .clear hclear
    | done slot => cases h
  · intro h
    cases h with
    | takeSlot hscan =>
      dsimp only
      rw [hscan]
      rfl
    | @copy slot iter hlt =>
      have hwrite := Block.blockWrite_of_lt hlt ((s.memory fe.page).sector iter)
      exact Routine.bind_ok.mpr ⟨_, _, Routine.lift_of_ok hwrite _, rfl⟩
    | insert => rfl
    | clear hclear =>
      dsimp only
      rw [hclear]
      rfl

theorem StepsTo.of_clear (h : StepsTo fe s pc s' (.clear slot)) : pc = .insert slot := by
  generalize hq : PageOutPc.clear slot = q at h
  cases h with
  | copy hlt => split at hq <;> cases hq
  | insert =>
    cases hq
    rfl
  | _ => cases hq

theorem StepsTo.of_done (h : StepsTo fe s pc s' (.done slot)) : pc = .clear slot := by
  generalize hq : PageOutPc.done slot = q at h
  cases h with
  | copy hlt => split at hq <;> cases hq
  | clear hclear =>
    cases hq
    rfl
  | _ => cases hq

/-- Nothing follows the end of the eviction but writes. -/
theorem done_of_run {as : List Unit} {t : PageOutState}
    (h : Routine.execAll (RaceEvent.exec fe) es ⟨s, .done slot⟩ = .ok (as, t)) :
    t.pc = .done slot := by
  induction es generalizing s as with
  | nil =>
    cases h
    rfl
  | cons e es ih =>
    obtain ⟨u, bs, t1, hfirst, hrest, -⟩ := Routine.execAll_cons_ok.mp h
    cases e with
    | evict => cases hfirst
    | write offset value =>
      rw [RaceEvent.exec, Routine.get_bind_apply] at hfirst
      cases haccess : access fe.owner (fe.threadVaddr + offset.val) (some value) s with
      | error fault =>
        rw [haccess] at hfirst
        cases hfirst
      | ok r =>
        rw [haccess] at hfirst
        cases hfirst
        exact ih hrest

theorem swapPage_store (device : Block) (slot iter : Nat) (page : PageData)
    (hiter : iter < sectorsPerPage) (i : Fin 4096) :
    swapPage (device.store (slot * sectorsPerPage + iter) (page.sector iter)) slot i =
      if i.val / 512 = iter then page i else swapPage device slot i := by
  by_cases hi : i.val / 512 = iter
  · subst hi
    have hbyte : i.val / 512 * 512 + i.val % 512 = i.val := Nat.div_add_mod' _ _
    simp [swapPage, PageData.sector, hbyte]
  · have hne : slot * sectorsPerPage + i.val / 512 ≠ slot * sectorsPerPage + iter := by omega
    rw [if_neg hi]
    simp [swapPage, Function.update_of_ne hne]

/-- The slot that has been taken. -/
def PageOutPc.taken : PageOutPc → Option Nat
  | takeSlot => none
  | copy slot _ | insert slot | clear slot | done slot => some slot

/-- A byte of the slot that the eviction uses, at its end: the byte as it was when its sector was
copied, if the copy is still to come. -/
def PageOutPc.copied (slot : Nat) (s : Vm) (data : PageData) (es : List RaceEvent) (i : Fin 4096) :
    PageOutPc → UInt8
  | takeSlot => RaceEvent.written data (RaceEvent.beforeStep (i.val / 512 + 1) es) i
  | copy _ iter =>
    if iter ≤ i.val / 512 then
      RaceEvent.written data (RaceEvent.beforeStep (i.val / 512 - iter) es) i
    else swapPage s.swapDevice slot i
  | insert _ | clear _ | done _ => swapPage s.swapDevice slot i

/-- A copied sector is the page's sector at that moment. -/
theorem copied_copy {iter : Nat} (hiter : iter < sectorsPerPage) (i : Fin 4096)
    (hmemory : s.memory fe.page = data) :
    (if iter + 1 = sectorsPerPage then PageOutPc.insert slot else .copy slot (iter + 1)).copied slot
        { s with
          swapDevice := s.swapDevice.store (slot * sectorsPerPage + iter)
            ((s.memory fe.page).sector iter) } data es i =
      (PageOutPc.copy slot iter).copied slot s data (.evict :: es) i := by
  have hstore := swapPage_store s.swapDevice slot iter (s.memory fe.page) hiter i
  rw [hmemory] at hstore ⊢
  have hbyte : i.val / 512 < sectorsPerPage := by
    have hlt := i.isLt
    unfold sectorsPerPage
    omega
  rw [PageOutPc.copied]
  by_cases hthis : i.val / 512 = iter
  · -- the sector of this byte: what follows in the run does not change the copy
    have hnot : ¬ iter + 1 ≤ i.val / 512 := by omega
    have hzero : i.val / 512 - iter = 0 := by omega
    rw [if_pos hthis] at hstore
    rw [if_pos (le_of_eq hthis.symm), hzero]
    split
    · exact hstore
    · rw [PageOutPc.copied, if_neg hnot]
      exact hstore
  · rw [if_neg hthis] at hstore
    by_cases hafter : iter ≤ i.val / 512
    · have hnext : iter + 1 ≤ i.val / 512 := by omega
      have hmore : ¬ iter + 1 = sectorsPerPage := by omega
      obtain ⟨n, hn⟩ : ∃ n, i.val / 512 - iter = n + 1 := ⟨i.val / 512 - iter - 1, by omega⟩
      have hn' : i.val / 512 - (iter + 1) = n := by omega
      rw [if_pos hafter, if_neg hmore, PageOutPc.copied, if_pos hnext, hn, hn']
      rfl
    · have hnext : ¬ iter + 1 ≤ i.val / 512 := by omega
      rw [if_neg hafter]
      split
      · exact hstore
      · rw [PageOutPc.copied, if_neg hnext]
        exact hstore

/-- Up to the last step of the eviction the page in memory has all writes, and the slot has those
that came before the copy of their sector. -/
theorem run_contents {as : List Unit} (hholds : fe.Holds s data) (hpc : pc.Inv fe s)
    (h : Routine.execAll (RaceEvent.exec fe) es ⟨s, pc⟩ = .ok (as, ⟨m, .clear slot⟩)) :
    fe.Holds m (RaceEvent.written data es) ∧ (PageOutPc.clear slot).Inv fe m ∧
      (∀ k, pc.taken = some k → k = slot) ∧
      ∀ i, swapPage m.swapDevice slot i = pc.copied slot s data es i := by
  induction es generalizing s pc data as with
  | nil =>
    cases h
    exact ⟨hholds, hpc, fun k hk => (Option.some.inj hk).symm, fun i => rfl⟩
  | cons e es ih =>
    obtain ⟨u, bs, t1, hfirst, hrest, -⟩ := Routine.execAll_cons_ok.mp h
    cases e with
    | write offset value =>
      obtain ⟨s1, hwrite, hholds1, hdevice, hbm, hentry⟩ := exec_write hholds offset value
      cases hwrite.symm.trans hfirst
      have hpc1 : pc.Inv fe s1 := by
        cases pc with
        | takeSlot | done _ => trivial
        | copy _ _ | insert _ => rwa [PageOutPc.Inv, hbm]
        | clear _ => rwa [PageOutPc.Inv, hbm, hentry]
      obtain ⟨hm, hinv, hk, hslot⟩ := ih hholds1 hpc1 hrest
      refine ⟨hm, hinv, hk, fun i => ?_⟩
      rw [hslot i]
      cases pc with
      | takeSlot => rfl
      | copy k iter =>
        unfold PageOutPc.copied
        rw [hdevice]
        cases hn : i.val / 512 - iter <;> rfl
      | insert _ | clear _ | done _ => rw [PageOutPc.copied, PageOutPc.copied, hdevice]
    | evict =>
      obtain ⟨s1, pc1⟩ := t1
      have hstep : StepsTo fe s pc s1 pc1 := pageOutStep_iff.mp hfirst
      cases hstep with
      | @takeSlot k swapBm hscan =>
        have hused := ((Bitmap.used_scanAndFlip hscan).2 k).mpr (.inl rfl)
        have hpc1 : (PageOutPc.copy k 0).Inv fe { s with swapBm } := ⟨hused, by decide⟩
        have hholds1 : fe.Holds { s with swapBm } data :=
          ⟨hholds.aligned, hholds.mapped, hholds.memory⟩
        obtain ⟨hm, hinv, -, hslot⟩ := ih hholds1 hpc1 hrest
        exact ⟨hm, hinv, nofun, hslot⟩
      | @copy k iter hlt =>
        obtain ⟨hused, hiter⟩ := hpc
        have hholds1 : fe.Holds { s with
            swapDevice := s.swapDevice.store (k * sectorsPerPage + iter)
              ((s.memory fe.page).sector iter) } data :=
          ⟨hholds.aligned, hholds.mapped, hholds.memory⟩
        have hpc1 : (if iter + 1 = sectorsPerPage then PageOutPc.insert k
            else .copy k (iter + 1)).Inv fe { s with
              swapDevice := s.swapDevice.store (k * sectorsPerPage + iter)
                ((s.memory fe.page).sector iter) } := by
          split
          · exact hused
          · exact ⟨hused, by omega⟩
        obtain ⟨hm, hinv, hk, hslot⟩ := ih hholds1 hpc1 hrest
        obtain rfl : k = slot := by
          apply hk
          split <;> rfl
        refine ⟨hm, hinv, fun _ hk => (Option.some.inj hk).symm, fun i => ?_⟩
        rw [hslot i, copied_copy hiter i hholds.memory]
      | @insert k =>
        let table := (s.process fe.owner).ptSuppl.put
          ⟨fe.threadVaddr, .lazy, .swapped, k, none⟩
        have hholds1 : fe.Holds (s.setPtSuppl fe.owner table) data := by
          refine ⟨hholds.aligned, ?_, hholds.memory⟩
          rw [Vm.mapped_setPtSuppl]
          exact hholds.mapped
        have hpc1 : (PageOutPc.clear k).Inv fe (s.setPtSuppl fe.owner table) := by
          refine ⟨hpc, ?_⟩
          rw [Vm.setsEntry_put, if_pos ⟨rfl, rfl⟩]
        obtain ⟨hm, hinv, hk, hslot⟩ := ih hholds1 hpc1 hrest
        exact ⟨hm, hinv, hk, hslot⟩
      | clear hclear => cases done_of_run hrest

/-! ### Without writes -/

/-- The steps that copy sectors are the loop of `swap_out`. -/
theorem copySteps_iff {n iter : Nat} {pc' : PageOutPc} (hn : iter + n = sectorsPerPage) :
    (∃ as, Routine.execAll (RaceEvent.exec fe) (List.replicate n .evict)
        ⟨s, if iter = sectorsPerPage then .insert slot else .copy slot iter⟩ =
          .ok (as, ⟨s', pc'⟩)) ↔
      pc' = .insert slot ∧
        swapOutLoop slot (s.memory fe.page) (List.range' iter n) s = .ok ((), s') := by
  induction n generalizing s iter with
  | zero =>
    rw [if_pos (by omega)]
    constructor
    · rintro ⟨as, h⟩
      cases h
      exact ⟨rfl, rfl⟩
    · rintro ⟨rfl, h⟩
      cases h
      exact ⟨[], rfl⟩
  | succ n ih =>
    have hnext : iter + 1 + n = sectorsPerPage := by omega
    rw [if_neg (by omega), List.range'_succ, swapOutLoop, List.forM_eq_forM, List.forM_cons]
    constructor
    · rintro ⟨as, h⟩
      obtain ⟨u, bs, ⟨s1, pc1⟩, hfirst, hrest, -⟩ := Routine.execAll_cons_ok.mp h
      cases pageOutStep_iff.mp hfirst with
      | copy hlt =>
        obtain ⟨hpc, hloop⟩ := (ih hnext).mp ⟨bs, hrest⟩
        refine ⟨hpc, Routine.bind_ok.mpr ⟨(), _, Routine.bind_ok.mpr ⟨s, s, rfl, ?_⟩, hloop⟩⟩
        have hwrite := Block.blockWrite_of_lt hlt ((s.memory fe.page).sector iter)
        exact Routine.bind_ok.mpr ⟨_, _, Routine.lift_of_ok hwrite _, rfl⟩
    · rintro ⟨hpc, h⟩
      obtain ⟨u, s1, h1, hloop⟩ := Routine.bind_ok.mp h
      rw [Routine.get_bind_apply] at h1
      obtain ⟨device, s2, hwrite, h1⟩ := Routine.bind_ok.mp h1
      have hdevice := Routine.lift_ok hwrite
      obtain rfl := Routine.lift_state hwrite
      by_cases hlt : slot * sectorsPerPage + iter < s2.swapDevice.size
      · rw [Block.blockWrite_of_lt hlt] at hdevice
        cases hdevice
        cases h1
        let s3 : Vm := { s2 with
          swapDevice := s2.swapDevice.store (slot * sectorsPerPage + iter)
            ((s2.memory fe.page).sector iter) }
        replace hloop : swapOutLoop slot (s3.memory fe.page) (List.range' (iter + 1) n) s3 =
          .ok ((), s') := hloop
        obtain ⟨as, hrest⟩ := (ih hnext).mpr ⟨hpc, hloop⟩
        exact ⟨() :: as, Routine.execAll_cons_of_ok (pageOutStep_iff.mpr (.copy hlt)) hrest⟩
      · rw [Block.blockWrite_of_le (not_lt.mp hlt)] at hdevice
        cases hdevice

theorem copyAll_iff {pc' : PageOutPc} :
    (∃ as, Routine.execAll (RaceEvent.exec fe) (List.replicate sectorsPerPage .evict)
        ⟨s, .copy slot 0⟩ = .ok (as, ⟨s', pc'⟩)) ↔
      pc' = .insert slot ∧
        swapOutLoop slot (s.memory fe.page) (List.range sectorsPerPage) s = .ok ((), s') := by
  rw [List.range_eq_range']
  exact copySteps_iff (Nat.zero_add _)

/-- Without writes in between, the steps are `page_out_evicted_frame`. -/
theorem pageOutSteps_iff (cur : Nat) (hnone : s.entry fe.owner fe.threadVaddr = none) :
    (∃ as slot, Routine.execAll (RaceEvent.exec fe)
        (.evict :: (List.replicate sectorsPerPage .evict ++ [.evict, .evict])) ⟨s, .takeSlot⟩ =
          .ok (as, ⟨s', .done slot⟩)) ↔
      pageOutEvictedFrame cur fe s = .ok ((), s') := by
  rw [pageOutEvictedFrame, Routine.get_bind_apply]
  rw [Vm.entry] at hnone
  rw [hnone]
  constructor
  · rintro ⟨as, slot, h⟩
    obtain ⟨u, bs, ⟨s1, pc1⟩, hfirst, hrest, -⟩ := Routine.execAll_cons_ok.mp h
    obtain ⟨cs, ds, ⟨s2, pc2⟩, hcopies, hlast, -⟩ := Routine.execAll_append_ok.mp hrest
    obtain ⟨u3, es, ⟨s3, pc3⟩, hthird, hlast, -⟩ := Routine.execAll_cons_ok.mp hlast
    obtain ⟨u4, fs, t4, hfourth, hend, -⟩ := Routine.execAll_cons_ok.mp hlast
    cases hend
    have hdone := pageOutStep_iff.mp hfourth
    obtain rfl := hdone.of_done
    have hput := pageOutStep_iff.mp hthird
    obtain rfl := hput.of_clear
    cases pageOutStep_iff.mp hfirst with
    | @takeSlot k swapBm hscan =>
      obtain ⟨hpc, hloop⟩ := copyAll_iff.mp ⟨cs, hcopies⟩
      cases hpc
      cases hput
      cases hdone with
      | clear hclear =>
        have hout : swapOut (s.memory fe.page) s = .ok (some slot, s2) := by
          rw [swapOut, Routine.get_bind_apply, hscan]
          exact Routine.bind_ok.mpr ⟨_, _, rfl, Routine.bind_ok.mpr ⟨(), s2, hloop, rfl⟩⟩
        exact Routine.bind_ok.mpr ⟨some slot, s2, hout, hclear⟩
  · intro h
    obtain ⟨slot, s2, hout, hrest⟩ := Routine.bind_ok.mp h
    cases slot with
    | none => cases hrest
    | some slot =>
      obtain ⟨⟨⟩, s3, hput, hclear⟩ := Routine.bind_ok.mp hrest
      cases hput
      rw [swapOut, Routine.get_bind_apply] at hout
      cases hscan : s.swapBm.scanAndFlip 0 1 true with
      | none =>
        rw [hscan] at hout
        cases hout
      | some r =>
        rw [hscan] at hout
        obtain ⟨⟨⟩, s0, hset, hout⟩ := Routine.bind_ok.mp hout
        cases hset
        obtain ⟨u, s1, hloop, hout⟩ := Routine.bind_ok.mp hout
        cases hout
        have hcopies : ∃ as, Routine.execAll (RaceEvent.exec fe)
            (List.replicate sectorsPerPage .evict) ⟨{ s with swapBm := r.2 }, .copy r.1 0⟩ =
              .ok (as, ⟨s2, .insert r.1⟩) := copyAll_iff.mpr ⟨rfl, hloop⟩
        obtain ⟨as, hcopies⟩ := hcopies
        have hlast : Routine.execAll (RaceEvent.exec fe) [.evict, .evict] ⟨s2, .insert r.1⟩ =
            .ok ([(), ()], ⟨s', .done r.1⟩) :=
          Routine.execAll_cons_of_ok (pageOutStep_iff.mpr .insert)
            (Routine.execAll_cons_of_ok (pageOutStep_iff.mpr (.clear hclear)) rfl)
        exact ⟨_, r.1, Routine.execAll_cons_of_ok (pageOutStep_iff.mpr (.takeSlot hscan))
          (Routine.execAll_append_ok.mpr ⟨as, _, _, hcopies, hlast, rfl⟩)⟩

/-! ### The next page-in -/

/-- The loop of `swap_out` writes to its own slot only. -/
theorem swapOutLoop_swapPage {k : Nat} {iters : List Nat} (hne : slot ≠ k)
    (hiters : ∀ iter ∈ iters, iter < sectorsPerPage)
    (h : swapOutLoop k data iters s = .ok ((), s')) :
    swapPage s'.swapDevice slot = swapPage s.swapDevice slot := by
  induction iters generalizing s with
  | nil =>
    cases h
    rfl
  | cons iter iters ih =>
    rw [swapOutLoop, List.forM_eq_forM, List.forM_cons] at h
    obtain ⟨u, s1, h1, h⟩ := Routine.bind_ok.mp h
    rw [Routine.get_bind_apply] at h1
    obtain ⟨device, s2, hwrite, h1⟩ := Routine.bind_ok.mp h1
    have hdevice := Routine.lift_ok hwrite
    obtain rfl := Routine.lift_state hwrite
    cases h1
    rw [ih (fun i hi => hiters i (List.mem_cons_of_mem _ hi)) h]
    by_cases hlt : k * sectorsPerPage + iter < s2.swapDevice.size
    · rw [Block.blockWrite_of_lt hlt] at hdevice
      cases hdevice
      have hiter := hiters iter List.mem_cons_self
      funext i
      have hi := i.isLt
      have hother : slot * sectorsPerPage + i.val / 512 ≠ k * sectorsPerPage + iter := by
        unfold sectorsPerPage at *
        omega
      simp [swapPage, Function.update_of_ne hother]
    · rw [Block.blockWrite_of_le (not_lt.mp hlt)] at hdevice
      cases hdevice

theorem swapOut_swapPage {r : Option Nat} (hused : s.swapBm.Used slot)
    (h : swapOut data s = .ok (r, s')) :
    swapPage s'.swapDevice slot = swapPage s.swapDevice slot := by
  rw [swapOut, Routine.get_bind_apply] at h
  rcases hscan : s.swapBm.scanAndFlip 0 1 true with _ | ⟨k, bm⟩
  · rw [hscan] at h
    cases h
    rfl
  · rw [hscan] at h
    obtain ⟨⟨⟩, s0, hset, h⟩ := Routine.bind_ok.mp h
    cases hset
    obtain ⟨u, s1, hloop, h⟩ := Routine.bind_ok.mp h
    cases h
    have hne : slot ≠ k := by
      rintro rfl
      exact (Bitmap.used_scanAndFlip hscan).1 hused
    have hkept := swapOutLoop_swapPage hne (fun iter hiter => List.mem_range.mp hiter) hloop
    exact hkept

theorem writeBackMmf_swapDevice {pt : PtSupplEntry} {info : PtSupplFileInfo}
    (h : writeBackMmf cur fe pt info s = .ok ((), s')) : s'.swapDevice = s.swapDevice := by
  rcases writeBackMmf_ok h with ⟨-, rfl⟩ | ⟨-, hwrite⟩
  · rfl
  · rcases fileWriteAt_ok hwrite with ⟨-, rfl⟩ | ⟨-, page, -, rfl⟩ <;> rfl

theorem pageOutEvictedFrame_swapPage (hused : s.swapBm.Used slot)
    (h : pageOutEvictedFrame cur fe s = .ok ((), s')) :
    swapPage s'.swapDevice slot = swapPage s.swapDevice slot := by
  rw [pageOutEvictedFrame, Routine.get_bind_apply] at h
  cases hpt : (s.process fe.owner).ptSuppl.get fe.threadVaddr with
  | none =>
    rw [hpt] at h
    obtain ⟨r, s1, hout, h⟩ := Routine.bind_ok.mp h
    cases r with
    | none => cases h
    | some k =>
      obtain ⟨⟨⟩, s2, hput, h⟩ := Routine.bind_ok.mp h
      cases hput
      obtain ⟨-, rfl⟩ := pagedirClearPage_ok h
      have hkept := swapOut_swapPage hused hout
      exact hkept
  | some pt =>
    rw [hpt] at h
    dsimp only at h
    split at h
    · cases hinfo : pt.fileInfo with
      | none =>
        rw [hinfo] at h
        cases h
      | some info =>
        rw [hinfo] at h
        obtain ⟨u, s1, hwrite, h⟩ := Routine.bind_ok.mp h
        obtain ⟨⟨⟩, s2, hput, h⟩ := Routine.bind_ok.mp h
        cases hput
        obtain ⟨-, rfl⟩ := pagedirClearPage_ok h
        have hkept := writeBackMmf_swapDevice hwrite
        exact congrArg (swapPage · slot) hkept
    · cases h

/-- An allocation may evict a page, but leaves the used slots alone. -/
theorem vmFrameAlloc_swapPage {order : List FrameEntry → List FrameEntry} {palZero : Bool}
    {v frm : Nat} (hused : s.swapBm.Used slot)
    (h : vmFrameAlloc order cur palZero v s = .ok (frm, s')) :
    swapPage s'.swapDevice slot = swapPage s.swapDevice slot := by
  rw [vmFrameAlloc, Routine.get_bind_apply] at h
  rcases hscan : s.userPool.scanAndFlip 0 1 false with _ | ⟨page, pool⟩
  · rw [hscan] at h
    dsimp only at h
    rw [evictAndGetFrame] at h
    obtain ⟨vict, s1, hselect, h⟩ := Routine.bind_ok.mp h
    obtain ⟨u, s2, hout, h⟩ := Routine.bind_ok.mp h
    cases h
    obtain ⟨process, rfl⟩ := selectFrameToEvict_process hselect
    have hkept := pageOutEvictedFrame_swapPage (s := { s with process }) hused hout
    exact hkept
  · rw [hscan] at h
    cases h
    rfl

/-- The page is in swap, in a slot with the given contents. -/
structure Vm.Parked (s : Vm) (p v slot : Nat) (data : PageData) : Prop where
  entry : s.entry p v = some ⟨v, .lazy, .swapped, slot, none⟩
  used : s.swapBm.Used slot
  contents : swapPage s.swapDevice slot = data

/-- A page that comes back from swap has the contents of its slot. -/
theorem Vm.Parked.pageIn {order : List FrameEntry → List FrameEntry} {p v : Nat}
    (h : s.Parked p v slot data) (halign : v % pgSize = 0)
    (hin : ptSupplPageIn order p v s = .ok (true, s')) : s'.pageContents p v = some data := by
  obtain ⟨frm, s1, e, halloc, hentry, hbranch⟩ := ptSupplPageIn_found hin
  have hkept : s1.entry p v = s.entry p v := by
    cases vmFrameAlloc_ok halign halloc with
    | keeps hkeeps => exact hkeeps.entry
    | anonymous slot hframe hnone =>
      rw [h.entry] at hnone
      cases hnone
    | mmf pt hframe hpt htype =>
      rw [h.entry] at hpt
      cases hpt
      cases htype
  rw [hkept, h.entry] at hentry
  cases hentry
  rcases hbranch with ⟨-, hswap⟩ | ⟨inf, hunloaded, -⟩
  · obtain ⟨hmapped, hmemory, -⟩ := ptSupplSwapIn_contents hswap
    rw [vmFrameAlloc_swapPage h.used halloc, h.contents] at hmemory
    rw [Vm.pageContents, Vm.mapped, hmapped, hmemory]
    simp
  · cases hunloaded

/-- The eviction of a resident page without a supplemental entry, with any writes of the owner
between its steps: the last step unmaps the page, and the page is in swap then. -/
theorem parked_of_run {as : List Unit} (hresident : s.mapped fe.owner fe.threadVaddr = some fe.page)
    (hrun : Routine.execAll (RaceEvent.exec fe) (es ++ [.evict]) ⟨s, .takeSlot⟩ =
      .ok (as, ⟨m, .done slot⟩)) :
    fe.threadVaddr % pgSize = 0 ∧ m.Parked fe.owner fe.threadVaddr slot fun i =>
      RaceEvent.written (s.memory fe.page) (RaceEvent.beforeStep (i.val / 512 + 1) es) i := by
  obtain ⟨bs, cs, ⟨s1, pc1⟩, hes, hlast, -⟩ := Routine.execAll_append_ok.mp hrun
  obtain ⟨u, ds, t2, hclear, hend, -⟩ := Routine.execAll_cons_ok.mp hlast
  cases hend
  have hstep := pageOutStep_iff.mp hclear
  obtain rfl := hstep.of_done
  cases hstep with
  | clear hclear =>
    obtain ⟨halign, rfl⟩ := pagedirClearPage_ok hclear
    have hstart : PageOutPc.takeSlot.Inv fe s := trivial
    obtain ⟨-, ⟨hused, hentry⟩, -, hslot⟩ := run_contents ⟨halign, hresident, rfl⟩ hstart hes
    refine ⟨halign, ?_, hused, funext hslot⟩
    rw [← hentry, Vm.entry, Vm.entry]
    simp

/-- A page is evicted while its owner writes to it, and is paged in again when nobody has touched
its slot or its entry.  The owner then reads its last writes if and only if no byte is left with
another value, by its writes after the copy of its sector, than the one that was copied. -/
theorem evicted_writes_kept_iff {as : List Unit} {later final : Vm}
    (order : List FrameEntry → List FrameEntry)
    (hresident : s.mapped fe.owner fe.threadVaddr = some fe.page)
    (hrun : Routine.execAll (RaceEvent.exec fe) (es ++ [.evict]) ⟨s, .takeSlot⟩ =
      .ok (as, ⟨m, .done slot⟩))
    (hlater : ∀ data, m.Parked fe.owner fe.threadVaddr slot data →
      later.Parked fe.owner fe.threadVaddr slot data)
    (hin : ptSupplPageIn order fe.owner fe.threadVaddr later = .ok (true, final)) :
    final.pageContents fe.owner fe.threadVaddr =
        some (RaceEvent.written (s.memory fe.page) es) ↔
      ∀ i : Fin 4096, RaceEvent.written (s.memory fe.page) es i =
        RaceEvent.written (s.memory fe.page) (RaceEvent.beforeStep (i.val / 512 + 1) es) i := by
  obtain ⟨halign, hparked⟩ := parked_of_run hresident hrun
  rw [(hlater _ hparked).pageIn halign hin, Option.some_inj, funext_iff]
  exact forall_congr' fun i => eq_comm

/-- Process 1 has a page of zeros at the top of its stack, in frame 0. -/
def stackPageVm : Vm :=
  { oneFrameVm with
    process := fun p =>
      if p = 1 then
        ⟨⟨fun no => no = 767, fun v =>
          if v = 0xbffff000 then ⟨0, true, true, false, false⟩ else Pagedir.zeroPte⟩, PtSuppl.empty⟩
      else ⟨Pagedir.empty, PtSuppl.empty⟩
    frameHash := [⟨0, 1, 0xbffff000⟩]
    userPool := (Bitmap.ofAll 2 false).setMultiple 0 1 true }

def stackFrame : FrameEntry := ⟨0, 1, 0xbffff000⟩

/-- Process 1 writes to the first sector when it has been copied. -/
def writeAfterCopy : List RaceEvent :=
  [.evict, .evict, .write 0 7] ++ List.replicate 8 .evict

/-- The eviction of the stack page with the given events before its last step, and the page-in. -/
def evictAndPageIn (es : List RaceEvent) : Except Fault (PageOutState × Bool × Vm) := do
  let (_, t) ← Routine.execAll (RaceEvent.exec stackFrame) (es ++ [.evict]) ⟨stackPageVm, .takeSlot⟩
  let (handled, final) ← ptSupplPageIn id 1 0xbffff000 t.vm
  pure (t, handled, final)

theorem evictAndPageIn_ok {es : List RaceEvent}
    (h : (evictAndPageIn es).map (fun r => (r.1.pc, r.2.1)) = .ok (.done 0, true)) :
    ∃ as m final, Routine.execAll (RaceEvent.exec stackFrame) (es ++ [.evict])
        ⟨stackPageVm, .takeSlot⟩ = .ok (as, ⟨m, .done 0⟩) ∧
      ptSupplPageIn id 1 0xbffff000 m = .ok (true, final) := by
  rw [evictAndPageIn] at h
  cases hrun : Routine.execAll (RaceEvent.exec stackFrame) (es ++ [.evict])
      ⟨stackPageVm, .takeSlot⟩ with
  | error fault =>
    rw [hrun] at h
    cases h
  | ok r =>
    obtain ⟨as, m, pc⟩ := r
    cases hin : ptSupplPageIn id 1 0xbffff000 m with
    | error fault =>
      simp only [hrun, hin, bind, Except.bind] at h
      cases h
    | ok q =>
      simp only [hrun, hin, bind, Except.bind] at h
      obtain ⟨rfl, hhandled⟩ := Prod.mk.inj (Except.ok.inj h)
      refine ⟨as, m, q.2, rfl, ?_⟩
      rw [hin, ← hhandled]

/-- `evicted_writes_kept_iff` for a write to the first sector before it is copied. -/
theorem evicted_writes_kept_iff_before : ∃ final : Vm,
    (final.pageContents stackFrame.owner stackFrame.threadVaddr =
        some (RaceEvent.written (stackPageVm.memory stackFrame.page)
          (.write 0 7 :: List.replicate 10 .evict)) ↔
      ∀ i : Fin 4096, RaceEvent.written (stackPageVm.memory stackFrame.page)
          (.write 0 7 :: List.replicate 10 .evict) i =
        RaceEvent.written (stackPageVm.memory stackFrame.page) (RaceEvent.beforeStep
          (i.val / 512 + 1) (.write 0 7 :: List.replicate 10 .evict)) i) := by
  have hends : (evictAndPageIn (.write 0 7 :: List.replicate 10 .evict)).map
      (fun r => (r.1.pc, r.2.1)) = .ok (.done 0, true) := by decide +kernel
  obtain ⟨as, m, final, hrun, hin⟩ := evictAndPageIn_ok hends
  exact ⟨final, evicted_writes_kept_iff id rfl hrun (fun _ h => h) hin⟩

/-- The byte that process 1 writes to the first sector of its page after the copy is not there when
the page comes back. -/
theorem eviction_loses_write :
    ∃ as m final, Routine.execAll (RaceEvent.exec stackFrame) (writeAfterCopy ++ [.evict])
        ⟨stackPageVm, .takeSlot⟩ = .ok (as, ⟨m, .done 0⟩) ∧
      ptSupplPageIn id 1 0xbffff000 m = .ok (true, final) ∧
      final.pageContents 1 0xbffff000 ≠
        some (RaceEvent.written (stackPageVm.memory 0) writeAfterCopy) := by
  have hends : (evictAndPageIn writeAfterCopy).map (fun r => (r.1.pc, r.2.1)) =
      .ok (.done 0, true) := by decide +kernel
  obtain ⟨as, m, final, hrun, hin⟩ := evictAndPageIn_ok hends
  obtain ⟨halign, hparked⟩ := parked_of_run rfl hrun
  refine ⟨as, m, final, hrun, hin, fun hread => ?_⟩
  have hslot := hparked.pageIn halign hin
  have hbyte := congrFun (Option.some.inj (hslot.symm.trans hread)) 0
  revert hbyte
  decide +kernel

end Pintos
