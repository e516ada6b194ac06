import Pintos.Vm.Permission

/-! Where `pt_suppl_check_and_grow_stack` maps pages.  Its two comparisons are of 32-bit numbers: the
stack pointer less 32 wraps around below 0, and the distance of the page from `PHYS_BASE` is taken as
a signed number, so that it is negative for the lower part of the user addresses. -/

namespace Pintos

/-- The distance of a page from `PHYS_BASE` as a signed number. -/
theorem physBase_sub_bmod {pg : Nat} (h : pg < physBase) :
    ((physBase : Int) - pg).bmod (2 ^ 32) =
      if pg ≤ 0x40000000 then (physBase : Int) - pg - 2 ^ 32 else (physBase : Int) - pg := by
  rw [Int.bmod_def]
  unfold physBase at *
  split_ifs <;> omega

/-- The pages that pass the test: those of the stack region, and those of the lowest GiB and one
more. -/
theorem isStackGrowth_iff {vaddress esp : Nat} (h : vaddress < physBase) :
    isStackGrowth vaddress esp = true ↔ (esp + 2 ^ 32 - 32) % 2 ^ 32 ≤ vaddress ∧
      (physBase - maxStack ≤ pgRoundDown vaddress ∨ vaddress < 0x40001000) := by
  have hround : pgRoundDown vaddress ≤ 0x40000000 ↔ vaddress < 0x40001000 := by
    unfold pgRoundDown pgSize
    omega
  have hpage : pgRoundDown vaddress < physBase :=
    Nat.lt_of_le_of_lt (Nat.div_mul_le_self _ _) h
  rw [isStackGrowth, Bool.and_eq_true, decide_eq_true_iff, decide_eq_true_iff,
    physBase_sub_bmod hpage]
  refine and_congr_right fun _ => ?_
  rw [← hround]
  unfold maxStack physBase at *
  split_ifs <;> omega

/-- Whatever the state, the check maps a page only in the stack region, and only if the address is not
below `esp - 32`. -/
def GrowsStackOnly (vaddress esp : Nat) : Prop :=
  ∀ order cur s b s', ptSupplCheckAndGrowStack order cur vaddress esp s = .ok (b, s') →
    ∀ p pg, pg % pgSize = 0 → s.permission p pg = none → s'.permission p pg ≠ none →
      physBase - maxStack ≤ pg ∧ pg < physBase ∧ (esp : Int) - 32 ≤ vaddress

/-- The result of the check is that of its test. -/
theorem ptSupplCheckAndGrowStack_result {order : List FrameEntry → List FrameEntry}
    {cur vaddress esp : Nat} {s s' : Vm} {b : Bool}
    (h : ptSupplCheckAndGrowStack order cur vaddress esp s = .ok (b, s')) :
    isStackGrowth vaddress esp = b := by
  rw [ptSupplCheckAndGrowStack] at h
  cases hgrows : isStackGrowth vaddress esp with
  | true =>
    rw [hgrows, if_pos rfl] at h
    obtain ⟨u, s1, hgrow, h⟩ := Routine.bind_ok.mp h
    cases h
    rfl
  | false =>
    rw [hgrows, if_neg (by simp)] at h
    cases h
    rfl

/-- Only the page of the address becomes mapped. -/
theorem ptSupplCheckAndGrowStack_maps {order : List FrameEntry → List FrameEntry} {cur vaddress esp : Nat}
    {s s' : Vm} {b : Bool} (h : ptSupplCheckAndGrowStack order cur vaddress esp s = .ok (b, s'))
    {p pg : Nat} (hpg : pg % pgSize = 0) (hbefore : s.permission p pg = none)
    (hafter : s'.permission p pg ≠ none) :
    isStackGrowth vaddress esp = true ∧ pg = pgRoundDown vaddress := by
  have hresult := ptSupplCheckAndGrowStack_result h
  rcases ptSupplCheckAndGrowStack_found h with ⟨-, rfl⟩ | ⟨rfl, hgrow⟩
  · exact absurd hbefore hafter
  · refine ⟨hresult, ?_⟩
    by_contra hne
    have hother : ¬ (cur = p ∧ pgRoundDown vaddress = pg) := fun h => hne h.2.symm
    cases ptSupplGrowStack_other hpg hother hgrow with
    | keeps hkeeps => exact hafter (hkeeps.permission.trans hbefore)
    | anonymous slot _ _ _ hout => exact hafter hout
    | mmf pt _ _ _ _ hout => exact hafter hout

/-- In a fresh page directory any user page can be mapped. -/
theorem Pagedir.setPage_empty {freePages upage : Nat} (kpage : Nat) (writable : Bool)
    (hfree : freePages ≠ 0) (halign : upage % pgSize = 0) (hlt : upage < physBase) :
    ∃ pd, empty.setPage freePages upage kpage writable = .ok (some (freePages - 1, pd)) := by
  rw [setPage, if_neg (not_not.mpr halign), if_neg (Nat.not_le.mpr hlt), if_neg (by rintro ⟨⟩), if_neg hfree]
  exact ⟨_, rfl⟩

theorem pagedirSetPage_of_some {cur upage kpage kernelPages : Nat} {writable : Bool} {pd : Pagedir}
    {s : Vm} (h : (s.process cur).pagedir.setPage s.kernelPages upage kpage writable =
      .ok (some (kernelPages, pd))) :
    pagedirSetPage cur upage kpage writable s =
      .ok (true, Vm.setPagedir { s with kernelPages } cur pd) := by
  rw [pagedirSetPage, Routine.get_bind_apply, Routine.bind_of_ok (Routine.lift_of_ok h s)]
  rfl

/-- With a frame and a page table to spare the page is mapped. -/
theorem ptSupplCheckAndGrowStack_oneFrame {vaddress esp : Nat} (h : vaddress < physBase)
    (hgrows : isStackGrowth vaddress esp = true) :
    ∃ s', ptSupplCheckAndGrowStack id 0 vaddress esp oneFrameVm = .ok (true, s') ∧
      s'.permission 0 (pgRoundDown vaddress) = some true := by
  have halign := pgRoundDown_aligned vaddress
  have hlt : pgRoundDown vaddress < physBase := Nat.lt_of_le_of_lt (Nat.div_mul_le_self _ _) h
  obtain ⟨pd, hset⟩ := Pagedir.setPage_empty 0 true (show (4 : Nat) ≠ 0 by decide) halign hlt
  let s1 : Vm := { oneFrameVm with
    userPool := (Bitmap.ofAll 1 false).setMultiple 0 1 true
    memory := Function.update oneFrameVm.memory 0 PageData.zeros
    frameHash := [⟨0, 0, pgRoundDown (pgRoundDown vaddress)⟩] }
  have halloc : vmFrameAlloc id 0 true (pgRoundDown vaddress) oneFrameVm = .ok (0, s1) := rfl
  have hmap : pagedirSetPage 0 (pgRoundDown vaddress) 0 true s1 =
      .ok (true, Vm.setPagedir { s1 with kernelPages := 3 } 0 pd) := pagedirSetPage_of_some hset
  refine ⟨Vm.setPagedir { s1 with kernelPages := 3 } 0 pd, ?_, ?_⟩
  · have hgrow : ptSupplGrowStack id 0 vaddress oneFrameVm =
        .ok ((), Vm.setPagedir { s1 with kernelPages := 3 } 0 pd) := by
      rw [ptSupplGrowStack, Routine.bind_of_ok halloc, Routine.bind_of_ok hmap]
      rfl
    rw [ptSupplCheckAndGrowStack, hgrows, if_pos rfl, Routine.bind_of_ok hgrow]
    rfl
  · rw [Vm.permission, Vm.setPagedir_process_self]
    exact (Pagedir.setPage_some hset).2.1

/-- The check maps pages in the stack region only, exactly if the address is above the lowest GiB and
one page, or below `esp - 32` modulo 2^32. -/
theorem growsStackOnly_iff {vaddress esp : Nat} (hvaddress : vaddress < physBase) (hesp : esp < 2 ^ 32) :
    GrowsStackOnly vaddress esp ↔ 0x40001000 ≤ vaddress ∨ vaddress < (esp + 2 ^ 32 - 32) % 2 ^ 32 := by
  constructor
  · intro hall
    by_contra hnot
    rw [not_or, not_le, not_lt] at hnot
    have hgrows := (isStackGrowth_iff hvaddress).mpr ⟨hnot.2, .inr hnot.1⟩
    obtain ⟨s', hrun, hmapped⟩ := ptSupplCheckAndGrowStack_oneFrame hvaddress hgrows
    have hregion := (hall id 0 oneFrameVm true s' hrun 0 (pgRoundDown vaddress)
      (pgRoundDown_aligned vaddress) rfl (by rw [hmapped]; nofun)).1
    have hle : pgRoundDown vaddress ≤ vaddress := Nat.div_mul_le_self _ _
    unfold physBase maxStack at hregion
    omega
  · intro hcond order cur s b s' hrun p pg hpg hbefore hafter
    obtain ⟨hgrows, rfl⟩ := ptSupplCheckAndGrowStack_maps hrun hpg hbefore hafter
    obtain ⟨hesp', hregion⟩ := (isStackGrowth_iff hvaddress).mp hgrows
    have hle : pgRoundDown vaddress ≤ vaddress := Nat.div_mul_le_self _ _
    refine ⟨by omega, Nat.lt_of_le_of_lt hle hvaddress, ?_⟩
    omega

/-- The top of the stack of a process that has just started. -/
theorem growsStackOnly_top : GrowsStackOnly 0xbffffff0 0xbffffff0 :=
  (growsStackOnly_iff (by decide) (by decide)).mpr (.inl (by decide))

/-- A program that sets its stack pointer to 4096 gets a page there. -/
theorem growsStackOnly_low : ¬ GrowsStackOnly 0x1000 0x1000 := by
  intro hall
  have hgrows : isStackGrowth 0x1000 0x1000 = true := by decide
  obtain ⟨s', hrun, hmapped⟩ := ptSupplCheckAndGrowStack_oneFrame (by decide) hgrows
  have hregion := (hall id 0 oneFrameVm true s' hrun 0 0x1000 (by decide) rfl
    (by rw [show (0x1000 : Nat) = pgRoundDown 0x1000 from rfl, hmapped]; nofun)).1
  exact absurd hregion (by decide)

end Pintos
