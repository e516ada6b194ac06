import Pintos.Vm.PageSpec

/-! `pt_suppl_handle_mmap` (`vm/page.c`): its result and the entries it adds. -/

namespace Pintos

/-- The loop of `pt_suppl_handle_mmap` over the offsets, with `page_address` as it moves along;
whether it ran to its end. -/
def mmapLoop (cur fe len : Nat) : List Nat → (pageAddress : Nat) → VmRoutine Bool
  | [], _ => pure true
  | ofs :: rest, pageAddress => do
    let s ← get
    let page := (pageAddress + ofs) % 2 ^ 32
    if ((s.process cur).ptSuppl.get page).isSome then pure false
    else
      if physBase ≤ page then throw (.assertion "is_user_vaddr (uaddr)")
      if ((s.process cur).pagedir.getPage page).isSome then pure false
      else
        let _ ← ptSupplAddMmf cur fe ofs pageAddress (min (len - ofs) pgSize)
        mmapLoop cur fe len rest ((pageAddress + pgSize) % 2 ^ 32)

/-- The number of pages of a file. -/
def pageCount (len : Nat) : Nat := (len + pgSize - 1) / pgSize

/-- `pt_suppl_handle_mmap`. -/
def ptSupplHandleMmap (cur fe startPg : Nat) : VmRoutine Int := do
  let len := ((← get).file fe).length
  if len = 0 then pure (-1)
  else
    modify fun s => { s with lastMap := s.lastMap + 1 }
    if ← mmapLoop cur fe len ((List.range (pageCount len)).map (· * pgSize)) startPg then
      pure (← get).lastMap
    else pure (-1)

/-- Page `i` from `start` on. -/
def pageAt (start i : Nat) : Nat := start + i * pgSize

/-- `mmap` would meet something at the address. -/
def Vm.Taken (s : Vm) (cur page : Nat) : Prop :=
  (s.entry cur page).isSome ∨ page < physBase ∧ ((s.process cur).pagedir.getPage page).isSome

/-- The address is a free user page. -/
def Vm.Free (s : Vm) (cur page : Nat) : Prop := page < physBase ∧ ¬ s.Taken cur page

/-- The entry for page `i` of a mapping. -/
def mmapEntry (s : Vm) (cur fe start i : Nat) : PtSupplEntry :=
  let len := (s.file fe).length
  ptSupplSetupFileInfo cur (s.lastMap + 1) fe (i * pgSize) (pageAt start i)
    (min (len - i * pgSize) pgSize) (pgSize - min (len - i * pgSize) pgSize) true .mmf

/-- `pt_suppl_handle_mmap` from `s` fails exactly if a page of the range is not free, then adds
nothing, and else adds the entries of the range. -/
structure MmapExact (s : Vm) (cur fe start : Nat) (r : Int) (s' : Vm) : Prop where
  result : r = -1 ↔ ∃ i < pageCount (s.file fe).length, ¬ s.Free cur (pageAt start i)
  failed : r = -1 → ∀ page, s'.entry cur page = s.entry cur page
  added : r ≠ -1 → ∀ i < pageCount (s.file fe).length,
    s'.entry cur (pageAt start i) = some (mmapEntry s cur fe start i)
  others : r ≠ -1 → ∀ page, (∀ i < pageCount (s.file fe).length, page ≠ pageAt start i) →
    s'.entry cur page = s.entry cur page

theorem pageAt_inj {start i j : Nat} (h : pageAt start i = pageAt start j) : i = j := by
  unfold pageAt pgSize at h
  omega

/-- Below `PHYS_BASE` the next addresses do not wrap around. -/
theorem pageAt_next {start i : Nat} (h : pageAt start (2 * i) < physBase) :
    (pageAt start i + pgSize) % 2 ^ 32 = pageAt start (i + 1) ∧
      pageAt start (2 * (i + 1)) < 2 ^ 32 := by
  unfold pageAt pgSize physBase at *
  omega

section Loop

variable {s s1 : Vm} {cur fe start : Nat}

/-- The state when the loop comes to page `i`: the pages before it have entries. -/
structure MmapUpTo (s : Vm) (cur fe start i : Nat) (s1 : Vm) : Prop where
  pagedir : (s1.process cur).pagedir = (s.process cur).pagedir
  file : s1.file = s.file
  lastMap : s1.lastMap = s.lastMap + 1
  added : ∀ j < i, s.entry cur (pageAt start j) = none →
    s1.entry cur (pageAt start j) = some (mmapEntry s cur fe start j)
  others : ∀ page, (∀ j < i, page ≠ pageAt start j) → s1.entry cur page = s.entry cur page

theorem ptSupplAdd_ok (s : Vm) (cur : Nat) (e : PtSupplEntry) :
    ∃ s', ptSupplAdd cur e s = .ok (true, s') ∧ (s'.process cur).pagedir = (s.process cur).pagedir ∧
      s'.file = s.file ∧ s'.lastMap = s.lastMap ∧
      ∀ page, s'.entry cur page = if page = e.vaddr ∧ s.entry cur page = none then some e
        else s.entry cur page := by
  rw [ptSupplAdd, Routine.get_bind_apply]
  by_cases hnone : s.entry cur e.vaddr = none
  · have hget : ((s.process cur).ptSuppl.get e.vaddr).isNone = true := by
      rw [Vm.entry] at hnone
      rw [hnone]
      rfl
    rw [if_pos hget]
    refine ⟨_, rfl, by simp, rfl, rfl, fun page => ?_⟩
    rw [Vm.entry, Vm.setPtSuppl_process_self, PtSuppl.put_get]
    by_cases hpage : page = e.vaddr
    · rw [if_pos hpage, if_pos ⟨hpage, by rwa [hpage]⟩]
    · rw [if_neg hpage, if_neg fun h => hpage h.1]
      rfl
  · have hget : ¬ ((s.process cur).ptSuppl.get e.vaddr).isNone = true := by
      rwa [Option.isNone_iff_eq_none]
    rw [if_neg hget]
    refine ⟨s, rfl, rfl, rfl, rfl, fun page => ?_⟩
    rw [if_neg]
    rintro ⟨rfl, h⟩
    exact hnone h

/-- The entry that the loop adds for page `i`. -/
theorem MmapUpTo.step {i : Nat} (h : MmapUpTo s cur fe start i s1) :
    ∃ s2, ptSupplAddMmf cur fe (i * pgSize) (pageAt start i)
        (min ((s.file fe).length - i * pgSize) pgSize) s1 = .ok (true, s2) ∧
      MmapUpTo s cur fe start (i + 1) s2 := by
  obtain ⟨s2, hrun, hpagedir, hfile, hlast, hentry⟩ := ptSupplAdd_ok s1 cur
    (mmapEntry s cur fe start i)
  refine ⟨s2, ?_, hpagedir.trans h.pagedir, hfile.trans h.file, hlast.trans h.lastMap, ?_, ?_⟩
  · rw [ptSupplAddMmf, Routine.get_bind_apply, h.lastMap]
    exact hrun
  · intro j hj hnone
    rw [hentry]
    rcases Nat.lt_succ_iff_lt_or_eq.mp hj with hlt | rfl
    · rw [if_neg]
      · exact h.added j hlt hnone
      · rintro ⟨heq, -⟩
        have := pageAt_inj (show pageAt start j = pageAt start i from heq)
        omega
    · have hold : s1.entry cur (pageAt start j) = none := by
        rw [h.others _ fun k hk heq => by have := pageAt_inj heq; omega, hnone]
      rw [if_pos ⟨rfl, hold⟩]
  · intro page hpage
    rw [hentry, if_neg]
    · exact h.others page fun j hj => hpage j (by omega)
    · rintro ⟨heq, -⟩
      exact hpage i (by omega) heq

/-- How the loop ends when it starts at page `i` of `n`: it looks at every second page from the start
on, and stops at the first that is not free. -/
inductive MmapLoopEnds (s : Vm) (cur fe start i n : Nat) (x : Except Fault (Bool × Vm)) : Prop where
  | all (s2 : Vm) (hx : x = .ok (true, s2)) (hs : MmapUpTo s cur fe start n s2)
      (hfree : ∀ j, i ≤ j → j < n → s.Free cur (pageAt start (2 * j)))
  | taken (k : Nat) (s2 : Vm) (hk : i ≤ k ∧ k < n) (hx : x = .ok (false, s2))
      (hs : MmapUpTo s cur fe start k s2) (htaken : s.Taken cur (pageAt start (2 * k)))
      (hbefore : ∀ j, i ≤ j → j < k → s.Free cur (pageAt start (2 * j)))
  | fault (k : Nat) (e : Fault) (hk : i ≤ k ∧ k < n) (hx : x = .error e)
      (hbefore : ∀ j, i ≤ j → j < k → s.Free cur (pageAt start (2 * j)))
      (hnot : ¬ s.Free cur (pageAt start (2 * k))) (huser : ¬ s.Taken cur (pageAt start (2 * k)))

theorem mmapLoop_ends {i n : Nat} (hi : i ≤ n) (h : MmapUpTo s cur fe start i s1)
    (hbound : i < n → pageAt start (2 * i) < 2 ^ 32) :
    MmapLoopEnds s cur fe start i n
      (mmapLoop cur fe (s.file fe).length ((List.range' i (n - i)).map (· * pgSize))
        (pageAt start i) s1) := by
  induction hk : n - i generalizing i s1 with
  | zero =>
    have hin : i = n := by omega
    subst hin
    exact .all s1 rfl h fun j h1 h2 => by omega
  | succ k ih =>
    have hlt : i < n := by omega
    have hsum : (pageAt start i + i * pgSize) % 2 ^ 32 = pageAt start (2 * i) := by
      rw [show pageAt start i + i * pgSize = pageAt start (2 * i) by unfold pageAt pgSize; omega]
      exact Nat.mod_eq_of_lt (hbound hlt)
    have hentry : s1.entry cur (pageAt start (2 * i)) = s.entry cur (pageAt start (2 * i)) := by
      by_cases hzero : i = 0
      · exact h.others _ fun j hj => by omega
      · exact h.others _ fun j hj heq => by have := pageAt_inj heq; omega
    rw [List.range'_succ, List.map_cons, mmapLoop, Routine.get_bind_apply]
    rw [hsum, h.pagedir]
    rw [show ((s1.process cur).ptSuppl.get (pageAt start (2 * i))) =
      s.entry cur (pageAt start (2 * i)) from hentry]
    by_cases hsome : (s.entry cur (pageAt start (2 * i))).isSome = true
    · rw [if_pos hsome]
      exact .taken i s1 ⟨le_rfl, hlt⟩ rfl h (.inl hsome) fun j h1 h2 => by omega
    · rw [if_neg hsome]
      by_cases huser : physBase ≤ pageAt start (2 * i)
      · rw [if_pos huser]
        refine .fault i _ ⟨le_rfl, hlt⟩ rfl (fun j h1 h2 => by omega) (fun hfree => ?_) ?_
        · exact absurd hfree.1 (by omega)
        · rintro (htaken | ⟨hlow, -⟩)
          · exact hsome htaken
          · omega
      · rw [if_neg huser]
        have hlow : pageAt start (2 * i) < physBase := by omega
        dsimp only
        by_cases hpage : ((s.process cur).pagedir.getPage (pageAt start (2 * i))).isSome = true
        · rw [if_pos hpage]
          exact .taken i s1 ⟨le_rfl, hlt⟩ rfl h (.inr ⟨hlow, hpage⟩) fun j h1 h2 => by omega
        · rw [if_neg hpage]
          have hfree : s.Free cur (pageAt start (2 * i)) := by
            refine ⟨hlow, ?_⟩
            rintro (htaken | ⟨-, htaken⟩)
            · exact hsome htaken
            · exact hpage htaken
          obtain ⟨s2, hrun, hs2⟩ := h.step
          rw [Routine.bind_of_ok hrun]
          obtain ⟨hnext, hbound'⟩ := pageAt_next hlow
          rw [hnext]
          have hrest := ih (i := i + 1) (by omega) hs2 (fun _ => hbound') (by omega)
          have hcons : ∀ {m}, (∀ j, i + 1 ≤ j → j < m → s.Free cur (pageAt start (2 * j))) →
              ∀ j, i ≤ j → j < m → s.Free cur (pageAt start (2 * j)) := by
            intro m hfrees j h1 h2
            by_cases hji : j = i
            · rwa [hji]
            · exact hfrees j (by omega) h2
          cases hrest with
          | all s3 hx hs3 hfrees => exact .all s3 hx hs3 (hcons hfrees)
          | taken k s3 hk' hx hs3 htaken hbefore =>
            exact .taken k s3 ⟨by omega, hk'.2⟩ hx hs3 htaken (hcons hbefore)
          | fault k e hk' hx hbefore hnot huser' =>
            exact .fault k e ⟨by omega, hk'.2⟩ hx (hcons hbefore) hnot huser'

end Loop

/-- `pt_suppl_handle_mmap` is exact and all-or-nothing exactly if the first page of the range is
taken, or the pages of the range and every second page from its start on are free. -/
theorem mmap_exact_iff (s : Vm) (cur fe start : Nat) (hstart : start < 2 ^ 32)
    (hlen : 0 < (s.file fe).length) :
    (∃ r s', ptSupplHandleMmap cur fe start s = .ok (r, s') ∧ MmapExact s cur fe start r s') ↔
      s.Taken cur start ∨ ∀ i < pageCount (s.file fe).length,
        s.Free cur (pageAt start i) ∧ s.Free cur (pageAt start (2 * i)) := by
  have hzero : pageAt start 0 = start := by simp [pageAt]
  have hpages : 0 < pageCount (s.file fe).length := by
    unfold pageCount pgSize
    omega
  let s1 : Vm := { s with lastMap := s.lastMap + 1 }
  have hstart' : MmapUpTo s cur fe start 0 s1 := ⟨rfl, rfl, rfl, nofun, fun _ _ => rfl⟩
  have hends := mmapLoop_ends (Nat.zero_le (pageCount (s.file fe).length)) hstart'
    (fun _ => by rwa [Nat.mul_zero, hzero])
  rw [hzero, Nat.sub_zero, ← List.range_eq_range'] at hends
  have hrun : ptSupplHandleMmap cur fe start s =
      (do
        if ← mmapLoop cur fe (s.file fe).length
            ((List.range (pageCount (s.file fe).length)).map (· * pgSize)) start then
          pure ((← get).lastMap : Int)
        else pure (-1) : VmRoutine Int) s1 := by
    rw [ptSupplHandleMmap, Routine.get_bind_apply, if_neg (by omega)]
    rfl
  rw [hrun]
  cases hends with
  | all s2 hx hs hfree =>
    rw [Routine.bind_of_ok hx, if_pos rfl, Routine.get_bind_apply, hs.lastMap]
    have hne : ((s.lastMap + 1 : Nat) : Int) ≠ -1 := by omega
    have hfirst := hfree 0 le_rfl hpages
    rw [Nat.mul_zero, hzero] at hfirst
    rw [or_iff_right hfirst.2]
    constructor
    · rintro ⟨r, s', hok, hexact⟩ i hi
      cases hok
      have hall := not_iff_not.mpr hexact.result
      refine ⟨?_, hfree i (Nat.zero_le i) hi⟩
      by_contra hnot
      exact hall.mp hne ⟨i, hi, hnot⟩
    · intro hall
      have hnone : ∀ i < pageCount (s.file fe).length, s.entry cur (pageAt start i) = none := by
        intro i hi
        have hnot := (hall i hi).1.2
        by_contra hsome
        exact hnot (.inl (Option.isSome_iff_ne_none.mpr hsome))
      refine ⟨_, s2, rfl, ⟨iff_of_false hne ?_, fun h => absurd h hne, ?_, ?_⟩⟩
      · rintro ⟨i, hi, hnot⟩
        exact hnot (hall i hi).1
      · exact fun _ i hi => hs.added i hi (hnone i hi)
      · exact fun _ page hpage => hs.others page hpage
  | taken k s2 hk hx hs htaken hbefore =>
    rw [Routine.bind_of_ok hx, if_neg Bool.false_ne_true]
    by_cases hkzero : k = 0
    · subst hkzero
      rw [Nat.mul_zero, hzero] at htaken
      refine iff_of_true ⟨-1, s2, rfl, ?_⟩ (.inl htaken)
      refine ⟨iff_of_true rfl ⟨0, hpages, ?_⟩, ?_, nofun, nofun⟩
      · rw [hzero]
        exact fun hfree => hfree.2 htaken
      · exact fun _ page => hs.others page nofun
    · -- page 0 has got an entry
      have hfirst := hbefore 0 le_rfl (by omega)
      rw [Nat.mul_zero, hzero] at hfirst
      have hnone : s.entry cur start = none := by
        by_contra hsome
        exact hfirst.2 (.inl (Option.isSome_iff_ne_none.mpr hsome))
      refine iff_of_false ?_ ?_
      · rintro ⟨r, s', hok, hexact⟩
        cases hok
        have hadded := hs.added 0 (by omega) (by rwa [hzero])
        rw [hzero, hexact.failed rfl, hnone] at hadded
        nomatch hadded
      · rintro (hstart | hall)
        · exact hfirst.2 hstart
        · exact (hall k hk.2).2.2 htaken
  | fault k e hk hx hbefore hnot huser =>
    rw [Routine.bind_of_error hx]
    refine iff_of_false ?_ ?_
    · rintro ⟨r, s', hok, -⟩
      nomatch hok
    · rintro (hstart | hall)
      · by_cases hkzero : k = 0
        · subst hkzero
          rw [Nat.mul_zero, hzero] at huser
          exact huser hstart
        · have hfirst := hbefore 0 le_rfl (by omega)
          rw [Nat.mul_zero, hzero] at hfirst
          exact hfirst.2 hstart
      · exact hnot (hall k hk.2).2

/-- A process whose only entry is for the page at 0x10002000, and a file that takes two pages. -/
def thirdPageVm : Vm where
  process _ :=
    ⟨Pagedir.empty, PtSuppl.empty.put (ptSupplSetupFileInfo 0 0 1 0 0x10002000 1 4095 true .mmf)⟩
  frameHash := []
  userPool := Bitmap.ofAll 1 false
  kernelPages := 1
  memory _ := PageData.zeros
  swapBm := Bitmap.ofAll 1 true
  swapDevice := ⟨8, by decide, fun _ => SectorData.zeros⟩
  file _ := List.replicate 4097 0
  denyWrite _ := false
  lastMap := 0

theorem thirdPageVm_length : (thirdPageVm.file 0).length = 4097 := List.length_replicate

/-- A mapping of two pages at 0x10000000 fails because of the third page, and leaves an entry for the
first. -/
theorem mmap_fails_and_adds : ¬ ∃ r s',
    ptSupplHandleMmap 0 0 0x10000000 thirdPageVm = .ok (r, s') ∧
      MmapExact thirdPageVm 0 0 0x10000000 r s' := by
  rintro ⟨r, s', hrun, hexact⟩
  rw [ptSupplHandleMmap, Routine.get_bind_apply, thirdPageVm_length] at hrun
  cases hrun
  nomatch hexact.failed rfl 0x10000000

theorem mmap_exact_iff_thirdPage :
    (∃ r s', ptSupplHandleMmap 0 0 0x10000000 thirdPageVm = .ok (r, s') ∧
      MmapExact thirdPageVm 0 0 0x10000000 r s') ↔
      thirdPageVm.Taken 0 0x10000000 ∨ ∀ i < pageCount (thirdPageVm.file 0).length,
        thirdPageVm.Free 0 (pageAt 0x10000000 i) ∧
          thirdPageVm.Free 0 (pageAt 0x10000000 (2 * i)) :=
  mmap_exact_iff thirdPageVm 0 0 0x10000000 (by decide) (by rw [thirdPageVm_length]; decide)

end Pintos
