import Pintos.Vm.EvictionRace

/-! Sequences of `swap_out` and `swap_in` from `swap_init` on.  A slot is live from the `swap_out`
that returns it to the `swap_in` that reads it, and holds the page that was swapped out. -/

namespace Pintos

variable {s s' : Vm} {slot : Nat} {data : PageData}

/-! ### The loops -/

/-- The device once the loop of `swap_out` has written the sectors `iters` of a page. -/
def writeSectors (device : Block) (slot : Nat) (data : PageData) (iters : List Nat) : Block :=
  iters.foldl (fun device iter => device.store (slot * sectorsPerPage + iter) (data.sector iter))
    device

theorem writeSectors_size (device : Block) (slot : Nat) (data : PageData) (iters : List Nat) :
    (writeSectors device slot data iters).size = device.size := by
  induction iters generalizing device with
  | nil => rfl
  | cons iter iters ih =>
    rw [writeSectors, List.foldl_cons, ← writeSectors, ih, Block.store_size]

theorem writeSectors_swapPage (device : Block) {iters : List Nat}
    (hiters : ∀ iter ∈ iters, iter < sectorsPerPage) (i : Fin 4096) :
    swapPage (writeSectors device slot data iters) slot i =
      if i.val / 512 ∈ iters then data i else swapPage device slot i := by
  induction iters generalizing device with
  | nil => simp [writeSectors]
  | cons iter iters ih =>
    have hiter := hiters iter List.mem_cons_self
    rw [writeSectors, List.foldl_cons, ← writeSectors,
      ih _ (fun k hk => hiters k (List.mem_cons_of_mem _ hk)), swapPage_store _ _ _ _ hiter]
    by_cases hin : i.val / 512 ∈ iters
    · simp [hin]
    · simp [hin]

/-- The eight sectors that `swap_out` writes hold the page. -/
theorem writeSectors_all (device : Block) (slot : Nat) (data : PageData) :
    swapPage (writeSectors device slot data (List.range sectorsPerPage)) slot = data := by
  funext i
  rw [writeSectors_swapPage device (fun _ => List.mem_range.mp), if_pos]
  rw [List.mem_range, sectorsPerPage]
  omega

theorem swapOutLoop_runs (data : PageData) {iters : List Nat}
    (hiters : ∀ iter ∈ iters, slot * sectorsPerPage + iter < s.swapDevice.size) :
    swapOutLoop slot data iters s =
      .ok ((), { s with swapDevice := writeSectors s.swapDevice slot data iters }) := by
  induction iters generalizing s with
  | nil => rfl
  | cons iter iters ih =>
    have hfirst := hiters iter List.mem_cons_self
    have hrest := ih (s := { s with
        swapDevice := s.swapDevice.store (slot * sectorsPerPage + iter) (data.sector iter) })
      fun k hk => hiters k (List.mem_cons_of_mem _ hk)
    rw [swapOutLoop] at hrest ⊢
    rw [List.forM_eq_forM] at hrest ⊢
    rw [List.forM_cons, Routine.bind_of_ok (t := { s with
        swapDevice := s.swapDevice.store (slot * sectorsPerPage + iter) (data.sector iter) })
      (a := ()), hrest]
    · rfl
    · rw [Routine.get_bind_apply, Routine.bind_of_ok
        (Routine.lift_of_ok (Block.blockWrite_of_lt hfirst _) s)]
      rfl

theorem swapInLoop_runs {cur vaddr page : Nat} {iters : List Nat}
    (hpage : (s.process cur).pagedir.getPage vaddr = some page)
    (hiters : ∀ iter ∈ iters, slot * sectorsPerPage + iter < s.swapDevice.size) :
    ∃ s', swapInLoop cur slot vaddr iters s = .ok ((), s') := by
  induction iters generalizing s with
  | nil => exact ⟨s, rfl⟩
  | cons iter iters ih =>
    have hfirst := hiters iter List.mem_cons_self
    let s1 := (s.setPagedir cur ((s.process cur).pagedir.touch vaddr true)).setMemory page
      ((s.memory page).setSector iter (s.swapDevice.data (slot * sectorsPerPage + iter)))
    have hpage1 : (s1.process cur).pagedir.getPage vaddr = some page := by
      simpa [s1, Vm.setMemory, Pagedir.touch_getPage] using hpage
    obtain ⟨s', hrest⟩ := ih (s := s1) hpage1 fun k hk => hiters k (List.mem_cons_of_mem _ hk)
    refine ⟨s', ?_⟩
    rw [swapInLoop] at hrest ⊢
    rw [List.forM_eq_forM] at hrest ⊢
    rw [List.forM_cons, Routine.bind_of_ok (t := s1) (a := ()), hrest]
    rw [Routine.get_bind_apply, Routine.bind_of_ok
      (Routine.lift_of_ok (Block.blockRead_of_lt hfirst) s), hpage]
    rfl

/-! ### The live slots -/

/-- `swap_init`: every slot of the device is free. -/
def swapInit (s : Vm) : Vm :=
  { s with swapBm := Bitmap.ofAll (s.swapDevice.size / sectorsPerPage) true }

/-- The states that calls of `swap_out` and `swap_in` lead to from `swap_init`, each with the pages
in the live slots.  Between the calls anything but the swap device and its bitmap may change.
`swap_in` is called on live slots, with the page that is to be filled present. -/
inductive SwapRuns : Vm → (Nat → Option PageData) → Prop
  | init (s : Vm) : SwapRuns (swapInit s) fun _ => none
  | other {s s' : Vm} {live : Nat → Option PageData} (hrun : SwapRuns s live)
      (hbm : s'.swapBm = s.swapBm) (hdevice : s'.swapDevice = s.swapDevice) : SwapRuns s' live
  | error {s s' : Vm} {live : Nat → Option PageData} {data : PageData} (hrun : SwapRuns s live)
      (hout : swapOut data s = .ok (none, s')) : SwapRuns s' live
  | out {s s' : Vm} {live : Nat → Option PageData} {data : PageData} {slot : Nat}
      (hrun : SwapRuns s live) (hout : swapOut data s = .ok (some slot, s')) :
      SwapRuns s' (Function.update live slot (some data))
  | in {s s' : Vm} {live : Nat → Option PageData} {slot cur vaddr : Nat}
      (hrun : SwapRuns s live) (hlive : (live slot).isSome)
      (hpage : ((s.process cur).pagedir.getPage vaddr).isSome)
      (hin : swapIn cur slot vaddr s = .ok ((), s')) :
      SwapRuns s' (Function.update live slot none)

/-- The used slots are the live ones, and each holds its page. -/
structure SwapInv (s : Vm) (live : Nat → Option PageData) : Prop where
  bitCnt : s.swapBm.bitCnt = s.swapDevice.size / sectorsPerPage
  used : ∀ slot, s.swapBm.Used slot ↔ (live slot).isSome
  page : ∀ slot data, live slot = some data → swapPage s.swapDevice slot = data

variable {live : Nat → Option PageData}

/-- The sectors of a slot that is on the device. -/
theorem SwapInv.sectors (h : SwapInv s live) (hslot : slot < s.swapBm.bitCnt) :
    ∀ iter ∈ List.range sectorsPerPage, slot * sectorsPerPage + iter < s.swapDevice.size := by
  intro iter hiter
  rw [h.bitCnt] at hslot
  have hlt := List.mem_range.mp hiter
  simp only [sectorsPerPage] at *
  omega

theorem SwapInv.swapOut_full (h : SwapInv s live)
    (hscan : s.swapBm.scanAndFlip 0 1 true = none) (data : PageData) :
    swapOut data s = .ok (none, s) ∧ ∀ slot < s.swapDevice.size / sectorsPerPage,
      (live slot).isSome := by
  refine ⟨?_, fun slot hslot => ?_⟩
  · rw [swapOut, Routine.get_bind_apply, hscan]
    rfl
  · rw [← h.bitCnt] at hslot
    rw [← h.used]
    refine ⟨hslot, ?_⟩
    rw [Bitmap.scanAndFlip, Option.map_eq_none_iff] at hscan
    simpa using Bitmap.scan_one_none hscan hslot

/-- The state after a `swap_out` to `slot`. -/
def swappedOut (s : Vm) (bm : Bitmap) (slot : Nat) (data : PageData) : Vm :=
  { s with
    swapBm := bm
    swapDevice := writeSectors s.swapDevice slot data (List.range sectorsPerPage) }

theorem swappedOut_size (s : Vm) (bm : Bitmap) (slot : Nat) (data : PageData) :
    (swappedOut s bm slot data).swapDevice.size = s.swapDevice.size :=
  writeSectors_size ..

theorem SwapInv.swapOut_slot (h : SwapInv s live) {bm : Bitmap}
    (hscan : s.swapBm.scanAndFlip 0 1 true = some (slot, bm)) (data : PageData) :
    swapOut data s = .ok (some slot, swappedOut s bm slot data) ∧ slot < s.swapBm.bitCnt ∧
      live slot = none := by
  have hlt : slot < s.swapBm.bitCnt := by
    rw [Bitmap.scanAndFlip, Option.map_eq_some_iff] at hscan
    obtain ⟨j, hj, hpair⟩ := hscan
    cases hpair
    exact (Bitmap.scan_one hj).1
  refine ⟨?_, hlt, ?_⟩
  · rw [swapOut, Routine.get_bind_apply, hscan]
    show (do set { s with swapBm := bm }; swapOutLoop slot data _; pure (some slot)) s = _
    have hloop := swapOutLoop_runs (s := { s with swapBm := bm }) data (h.sectors hlt)
    rw [Routine.set_bind_apply, Routine.bind_of_ok hloop]
    rfl
  · have hfree := (Bitmap.used_scanAndFlip hscan).1
    rw [h.used] at hfree
    simpa using hfree

theorem SwapInv.init (s : Vm) : SwapInv (swapInit s) fun _ => none where
  bitCnt := rfl
  used slot := by simp [Bitmap.Used, swapInit, Bitmap.ofAll]
  page slot data h := by cases h

/-- A page is in the slot that `swap_out` takes, and the pages of the other slots stay. -/
theorem SwapInv.out (h : SwapInv s live) {bm : Bitmap}
    (hscan : s.swapBm.scanAndFlip 0 1 true = some (slot, bm)) (data : PageData) :
    SwapInv (swappedOut s bm slot data) (Function.update live slot (some data)) where
  bitCnt := by
    have hcnt : bm.bitCnt = s.swapBm.bitCnt := by
      rw [Bitmap.scanAndFlip, Option.map_eq_some_iff] at hscan
      obtain ⟨j, -, hpair⟩ := hscan
      cases hpair
      rfl
    rw [swappedOut, hcnt, h.bitCnt]
    dsimp only
    rw [writeSectors_size]
  used k := by
    rw [swappedOut, (Bitmap.used_scanAndFlip hscan).2, h.used]
    by_cases hk : k = slot
    · subst hk
      simp
    · rw [Function.update_of_ne hk]
      simp [hk]
  page k content hk := by
    by_cases hsame : k = slot
    · subst hsame
      rw [Function.update_self] at hk
      cases hk
      exact writeSectors_all s.swapDevice k data
    · rw [Function.update_of_ne hsame] at hk
      have hused : s.swapBm.Used k := (h.used k).mpr (by rw [hk]; rfl)
      rw [swapOut_swapPage hused (h.swapOut_slot hscan data).1]
      exact h.page k content hk

/-- `swap_in` delivers the page of a live slot. -/
theorem SwapInv.swapIn (h : SwapInv s live) {cur vaddr page : Nat} (hlive : live slot = some data)
    (hpage : (s.process cur).pagedir.getPage vaddr = some page) :
    ∃ s', Pintos.swapIn cur slot vaddr s = .ok ((), s') ∧
      s'.memory = Function.update s.memory page data := by
  have hused : s.swapBm.Used slot := (h.used slot).mpr (by rw [hlive]; rfl)
  obtain ⟨s1, hloop⟩ := swapInLoop_runs hpage (h.sectors hused.1)
  have hin : Pintos.swapIn cur slot vaddr s =
      .ok ((), { s1 with swapBm := s1.swapBm.flip slot }) := by
    rw [Pintos.swapIn, Routine.bind_of_ok hloop]
    rfl
  refine ⟨_, hin, ?_⟩
  rw [(swapIn_contents hpage hin).2.1, h.page slot data hlive]

/-- `swap_in` gives the slot back and leaves the device as it is. -/
theorem swapIn_slots {cur vaddr page : Nat} (hpage : (s.process cur).pagedir.getPage vaddr = some page)
    (hin : Pintos.swapIn cur slot vaddr s = .ok ((), s')) :
    s'.swapDevice = s.swapDevice ∧ s'.swapBm = s.swapBm.flip slot := by
  rw [Pintos.swapIn] at hin
  obtain ⟨u, s1, hloop, hin⟩ := Routine.bind_ok.mp hin
  cases hin
  obtain ⟨-, -, hdevice, -, hbm⟩ := swapInLoop_contents hpage hloop
  exact ⟨hdevice, congrArg (·.flip slot) hbm⟩

theorem SwapInv.in (h : SwapInv s live) {cur vaddr page : Nat} (hlive : (live slot).isSome)
    (hpage : (s.process cur).pagedir.getPage vaddr = some page)
    (hin : Pintos.swapIn cur slot vaddr s = .ok ((), s')) :
    SwapInv s' (Function.update live slot none) := by
  have hused : s.swapBm.Used slot := (h.used slot).mpr hlive
  obtain ⟨hdevice, hbm⟩ := swapIn_slots hpage hin
  refine ⟨?_, fun k => ?_, fun k page hk => ?_⟩
  · rw [hbm, hdevice]
    exact h.bitCnt
  · rw [hbm, Bitmap.used_flip hused, h.used]
    by_cases hk : k = slot
    · subst hk
      simp
    · rw [Function.update_of_ne hk]
      simp [hk]
  · rw [hdevice]
    by_cases hsame : k = slot
    · subst hsame
      rw [Function.update_self] at hk
      cases hk
    · rw [Function.update_of_ne hsame] at hk
      exact h.page k page hk

/-- The run lemma. -/
theorem SwapRuns.inv (h : SwapRuns s live) : SwapInv s live := by
  induction h with
  | init s => exact .init s
  | other hrun hbm hdevice ih =>
    refine ⟨?_, ?_, ?_⟩
    · rw [hbm, hdevice]
      exact ih.bitCnt
    · rw [hbm]
      exact ih.used
    · rw [hdevice]
      exact ih.page
  | @error s s' live data hrun hout ih =>
    rcases hscan : s.swapBm.scanAndFlip 0 1 true with _ | ⟨slot, bm⟩
    · cases hout.symm.trans (ih.swapOut_full hscan data).1
      exact ih
    · cases hout.symm.trans (ih.swapOut_slot hscan data).1
  | @out s s' live data slot hrun hout ih =>
    rcases hscan : s.swapBm.scanAndFlip 0 1 true with _ | ⟨k, bm⟩
    · cases hout.symm.trans (ih.swapOut_full hscan data).1
    · cases hout.symm.trans (ih.swapOut_slot hscan data).1
      exact ih.out hscan data
  | «in» hrun hlive hpage hin ih =>
    obtain ⟨page, hpage⟩ := Option.isSome_iff_exists.mp hpage
    exact ih.in hlive hpage hin

/-- Swapping out and in, after any calls.  `swap_out` fails exactly if every slot is live, and
otherwise returns a slot that is not; `swap_in` of a live slot fills the page with the bytes that
were swapped out to it.  Neither leaves the device, and no two live slots share a sector. -/
theorem swap_round_trip (h : SwapRuns s live) :
    (∀ data, ∃ r s', swapOut data s = .ok (r, s') ∧
      (r = none ↔ ∀ slot < s.swapDevice.size / sectorsPerPage, (live slot).isSome) ∧
      ∀ slot, r = some slot → slot < s.swapDevice.size / sectorsPerPage ∧ live slot = none) ∧
    (∀ cur slot vaddr page data, live slot = some data →
      (s.process cur).pagedir.getPage vaddr = some page →
      ∃ s', swapIn cur slot vaddr s = .ok ((), s') ∧
        s'.memory = Function.update s.memory page data) ∧
    (∀ slot, (live slot).isSome → ∀ iter < sectorsPerPage,
      slot * sectorsPerPage + iter < s.swapDevice.size) ∧
    ∀ slot slot' iter iter', iter < sectorsPerPage → iter' < sectorsPerPage →
      slot * sectorsPerPage + iter = slot' * sectorsPerPage + iter' → slot = slot' := by
  have hinv := h.inv
  refine ⟨fun data => ?_, fun cur slot vaddr page data => hinv.swapIn,
    fun slot hlive iter hiter => ?_, fun slot slot' iter iter' => ?_⟩
  · rcases hscan : s.swapBm.scanAndFlip 0 1 true with _ | ⟨slot, bm⟩
    · obtain ⟨hout, hfull⟩ := hinv.swapOut_full hscan data
      exact ⟨none, s, hout, ⟨fun _ => hfull, fun _ => rfl⟩, nofun⟩
    · obtain ⟨hout, hlt, hfree⟩ := hinv.swapOut_slot hscan data
      rw [hinv.bitCnt] at hlt
      refine ⟨some slot, _, hout, ⟨nofun, fun hfull => ?_⟩, fun k hk => ?_⟩
      · have hlive := hfull slot hlt
        rw [hfree] at hlive
        cases hlive
      · cases hk
        exact ⟨hlt, hfree⟩
  · exact hinv.sectors ((hinv.used slot).mpr hlive).1 iter (List.mem_range.mpr hiter)
  · simp only [sectorsPerPage]
    omega

theorem eight_lt : 8 < 2 ^ 32 := by decide

/-- A machine whose swap device has one slot.  Every page is in frame 0. -/
def oneSlotVm : Vm :=
  { oneFrameVm with
    swapDevice := ⟨8, eight_lt, fun _ => SectorData.zeros⟩
    process := fun _ => ⟨⟨fun _ => true, fun _ => ⟨0, true, true, false, false⟩⟩, PtSuppl.empty⟩ }

/-- The slot is used, read back and used again.  There is no other one, and it delivers the second
page. -/
theorem swap_round_trip_reused : ∃ s1 s2 s3 s4 : Vm,
    swapOut PageData.zeros (swapInit oneSlotVm) = .ok (some 0, s1) ∧
    swapIn 0 0 0x1000 s1 = .ok ((), s2) ∧ swapOut (fun _ => 0x90) s2 = .ok (some 0, s3) ∧
    (∃ s', swapOut PageData.zeros s3 = .ok (none, s')) ∧
    swapIn 0 0 0x1000 s3 = .ok ((), s4) ∧ s4.memory 0 = fun _ => 0x90 := by
  have hstart := SwapRuns.init oneSlotVm
  have hscan : (swapInit oneSlotVm).swapBm.scanAndFlip 0 1 true = some (0, _) := rfl
  obtain ⟨hout, -, -⟩ := hstart.inv.swapOut_slot hscan PageData.zeros
  have hfirst := hstart.out hout
  obtain ⟨s2, hin, -⟩ := (swap_round_trip hfirst).2.1 0 0 0x1000 0 PageData.zeros
    (Function.update_self ..) rfl
  have hread := hfirst.in rfl rfl hin
  obtain ⟨hpage, -, -⟩ := swapIn_contents rfl hin
  obtain ⟨hdevice, hbm⟩ := swapIn_slots rfl hin
  have hrescan : s2.swapBm.scanAndFlip 0 1 true = some (0, s2.swapBm.setMultiple 0 1 false) := by
    rw [hbm]
    rfl
  obtain ⟨hagain, -, -⟩ := hread.inv.swapOut_slot hrescan fun _ => 0x90
  obtain ⟨houts, hins, -, -⟩ := swap_round_trip (hread.out hagain)
  obtain ⟨r, s', hfull, hnone, -⟩ := houts PageData.zeros
  obtain ⟨s4, hback, hmemory⟩ :=
    hins 0 0 0x1000 0 (fun _ => 0x90) (Function.update_self ..) hpage
  refine ⟨_, s2, _, s4, hout, hin, hagain, ⟨s', ?_⟩, hback, ?_⟩
  · rw [hfull, hnone.mpr fun slot hslot => ?_]
    obtain rfl : slot = 0 := by
      rw [swappedOut_size, hdevice, swappedOut_size] at hslot
      exact Nat.lt_one_iff.mp hslot
    rw [Function.update_self]
    rfl
  · rw [hmemory, Function.update_self]

end Pintos
