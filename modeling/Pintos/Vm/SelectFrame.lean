import Pintos.Lib.Hash
import Pintos.Vm.Isolation

/-! The loops of `select_frame_to_evict` over the frame table as a hash table: an inner loop goes
through the table with an iterator and clears accessed bits, and an outer loop starts it again until
a frame is found.  While the loops run no other thread sets a bit. -/

namespace Pintos

/-- A frame that was visited, with its accessed bit at that time. -/
abbrev FrameVisit := FrameEntry × Bool

section

variable (frameHash : HashTable FrameEntry)

/-- The inner loop of `select_frame_to_evict`; `visits` lists the frames visited so far, and the
second result is the frame at which the loop breaks. -/
def evictPass : (fuel : Nat) → HashIterator → List FrameVisit →
    VmRoutine (List FrameVisit × Option FrameEntry)
  | 0, _, _ => throw .spin
  | fuel + 1, itr, visits =>
    match frameHash.hashNext itr with
    | none => pure (visits, none)
    | some itr =>
      match frameHash.hashCur itr with
      | none => throw (.undefined "hash_cur")
      | some fe => do
        let s ← get
        let pagedir := (s.process fe.owner).pagedir
        if pagedir.isAccessed fe.threadVaddr then
          set (s.setPagedir fe.owner (pagedir.setAccessed fe.threadVaddr false))
          evictPass fuel itr (visits ++ [(fe, true)])
        else pure (visits ++ [(fe, false)], some fe)

/-- The outer loop, whose passes make at most `calls` calls of `hash_next` each. -/
def evictLoop (calls : Nat) : (fuel : Nat) → List FrameVisit →
    VmRoutine (List FrameVisit × FrameEntry)
  | 0, _ => throw .spin
  | fuel + 1, visits => do
    let (visits, fe) ← evictPass frameHash calls HashTable.hashFirst visits
    match fe with
    | some fe => pure (visits, fe)
    | none => evictLoop calls fuel visits

end

namespace Vm

/-- The state once the accessed bits of `fes` are cleared. -/
def clearAccessed (s : Vm) (fes : List FrameEntry) : Vm :=
  fes.foldl (fun s fe =>
    s.setPagedir fe.owner ((s.process fe.owner).pagedir.setAccessed fe.threadVaddr false)) s

end Vm

/-- The page that a frame entry names in its owner's page directory. -/
def FrameEntry.names (fe : FrameEntry) (p v : Nat) : Bool :=
  fe.owner = p ∧ pgRoundDown fe.threadVaddr = pgRoundDown v

theorem Pagedir.pdNo_of_pgRoundDown {u v : Nat} (h : pgRoundDown u = pgRoundDown v) :
    pdNo u = pdNo v := by
  simp only [pgRoundDown, pgSize, pdNo] at h ⊢
  omega

theorem Pagedir.setAccessed_isAccessed (pd : Pagedir) (v u : Nat) :
    (pd.setAccessed v false).isAccessed u =
      (pd.isAccessed u && !decide (pgRoundDown v = pgRoundDown u)) := by
  simp only [isAccessed_eq, setAccessed, modifyPte]
  by_cases hsame : pgRoundDown v = pgRoundDown u
  · rw [pdNo_of_pgRoundDown hsame, hsame]
    cases hpde : pd.pde (pdNo u) <;> simp [hpde]
  · have hne : pgRoundDown u ≠ pgRoundDown v := Ne.symm hsame
    cases hpde : pd.pde (pdNo v) <;> simp [hsame, hne]

namespace Vm

variable {s s' : Vm}

theorem clearAccessed_isAccessed (s : Vm) (fes : List FrameEntry) (p v : Nat) :
    ((s.clearAccessed fes).process p).pagedir.isAccessed v =
      ((s.process p).pagedir.isAccessed v && !fes.any (·.names p v)) := by
  induction fes generalizing s with
  | nil => simp [clearAccessed]
  | cons fe fes ih =>
    rw [clearAccessed, List.foldl_cons, ← clearAccessed, ih, List.any_cons]
    by_cases howner : p = fe.owner
    · subst howner
      rw [setPagedir_process_self]
      simp [Pagedir.setAccessed_isAccessed, FrameEntry.names, Bool.and_assoc]
    · rw [setPagedir_process_ne s howner]
      simp [FrameEntry.names, Ne.symm howner]

theorem clearAccessed_frames (s : Vm) (fes : List FrameEntry) :
    s.SameFrames (s.clearAccessed fes) := by
  induction fes generalizing s with
  | nil => exact .refl s
  | cons fe fes ih =>
    exact (Vm.SameFrames.setAccessed s fe.owner fe.threadVaddr false).trans (ih _)

end Vm

variable {frameHash : HashTable FrameEntry} {i : HashIterator} {visits : List FrameVisit} {s : Vm}

/-! ### One round of the inner loop -/

theorem evictPass_done (hi : frameHash.Inside i) (hdone : frameHash.remaining i = []) (fuel : Nat) :
    evictPass frameHash (fuel + 1) i visits s = .ok ((visits, none), s) := by
  have hnext := frameHash.hashNext_spec hi
  rw [evictPass]
  cases hitr : frameHash.hashNext i with
  | none => rfl
  | some j =>
    rw [hitr] at hnext
    obtain ⟨-, e, -, hcons⟩ := hnext
    rw [hdone] at hcons
    cases hcons

/-- The visit of the first of the remaining frames. -/
theorem evictPass_visit (visits : List FrameVisit) (s : Vm) (hi : frameHash.Inside i)
    {fe : FrameEntry} {rest : List FrameEntry} (hcons : frameHash.remaining i = fe :: rest) :
    ∃ j, frameHash.Inside j ∧ frameHash.remaining j = rest ∧ ∀ fuel,
      evictPass frameHash (fuel + 1) i visits s =
        if s.accessed fe then
          evictPass frameHash fuel j (visits ++ [(fe, true)]) (s.clearAccessed [fe])
        else .ok ((visits ++ [(fe, false)], some fe), s) := by
  have hnext := frameHash.hashNext_spec hi
  cases hitr : frameHash.hashNext i with
  | none =>
    rw [hitr] at hnext
    rw [hnext] at hcons
    cases hcons
  | some j =>
    rw [hitr] at hnext
    obtain ⟨hj, e, hcur, hrest⟩ := hnext
    obtain ⟨rfl, rfl⟩ := List.cons_eq_cons.mp (hcons.symm.trans hrest)
    refine ⟨j, hj, rfl, fun fuel => ?_⟩
    rw [evictPass, hitr]
    simp only [hcur, Routine.get_bind_apply]
    by_cases haccessed : s.accessed fe
    · rw [if_pos (by exact haccessed), if_pos haccessed]
      rfl
    · rw [if_neg (by exact haccessed), if_neg haccessed]
      rfl

/-! ### A pass -/

/-- How a pass over `fes` from state `s` ends: the visits, the frame found and the state. -/
inductive PassEnds (fes : List FrameEntry) (s : Vm) :
    List FrameVisit → Option FrameEntry → Vm → Prop where
  | found (before : List FrameEntry) (fe : FrameEntry) (after : List FrameEntry)
      (hsplit : fes = before ++ fe :: after)
      (hclear : (s.clearAccessed before).accessed fe = false) :
      PassEnds fes s (before.map (·, true) ++ [(fe, false)]) (some fe) (s.clearAccessed before)
  | swept : PassEnds fes s (fes.map (·, true)) none (s.clearAccessed fes)

/-- The inner loop goes through the remaining frames as `selectSweep` does. -/
theorem evictPass_ends {fes : List FrameEntry} (hi : frameHash.Inside i)
    (hrem : frameHash.remaining i = fes) (visits : List FrameVisit) (s : Vm) : ∃ vs found s',
      (∀ fuel, fes.length < fuel →
        evictPass frameHash fuel i visits s = .ok ((visits ++ vs, found), s')) ∧
      selectSweep fes s = (s', found) ∧ PassEnds fes s vs found s' := by
  induction fes generalizing i visits s with
  | nil =>
    refine ⟨[], none, s, fun fuel hfuel => ?_, rfl, .swept⟩
    cases fuel with
    | zero => exact absurd hfuel (Nat.not_lt_zero _)
    | succ fuel => rw [evictPass_done hi hrem, List.append_nil]
  | cons fe rest ih =>
    obtain ⟨j, hj, hrest, hvisit⟩ := evictPass_visit visits s hi hrem
    cases haccessed : s.accessed fe with
    | true =>
      obtain ⟨vs, found, s', hpass, hsweep, hends⟩ :=
        ih hj hrest (visits ++ [(fe, true)]) (s.clearAccessed [fe])
      refine ⟨(fe, true) :: vs, found, s', fun fuel hfuel => ?_, ?_, ?_⟩
      · cases fuel with
        | zero => exact absurd hfuel (Nat.not_lt_zero _)
        | succ fuel =>
          rw [hvisit, if_pos haccessed, hpass fuel (Nat.lt_of_succ_lt_succ hfuel),
            List.append_assoc, List.singleton_append]
      · rw [selectSweep, if_pos (by exact haccessed)]
        exact hsweep
      · cases hends with
        | found before fe' after hsplit hclear =>
          exact .found (fe :: before) fe' after (by rw [hsplit, List.cons_append]) hclear
        | swept => exact .swept
    | false =>
      refine ⟨[(fe, false)], some fe, s, fun fuel hfuel => ?_, ?_, .found [] fe rest rfl haccessed⟩
      · cases fuel with
        | zero => exact absurd hfuel (Nat.not_lt_zero _)
        | succ fuel => rw [hvisit, if_neg (by simp [haccessed])]
      · rw [selectSweep, if_neg (by rw [← Vm.accessed, haccessed]; simp)]

/-! ### The whole loop -/

theorem hashFirst_inside (h : frameHash.elems ≠ []) : frameHash.Inside HashTable.hashFirst where
  bucket := by
    refine List.length_pos_iff.mpr fun hnil => h ?_
    rw [HashTable.elems, hnil]
    rfl
  elem := Nat.zero_le _

/-- After a pass that finds nothing, the first frame is found. -/
theorem evictPass_after_sweep (h : frameHash.elems ≠ []) (visits : List FrameVisit) (s : Vm) :
    ∃ fe rest, frameHash.elems = fe :: rest ∧
      (s.clearAccessed frameHash.elems).accessed fe = false ∧ ∀ fuel,
      evictPass frameHash (fuel + 1) HashTable.hashFirst visits (s.clearAccessed frameHash.elems) =
        .ok ((visits ++ [(fe, false)], some fe), s.clearAccessed frameHash.elems) := by
  obtain ⟨fe, rest, hcons⟩ := List.exists_cons_of_ne_nil h
  have hclear : (s.clearAccessed frameHash.elems).accessed fe = false := by
    rw [Vm.accessed, Vm.clearAccessed_isAccessed, hcons]
    simp [FrameEntry.names]
  obtain ⟨j, -, -, hvisit⟩ := evictPass_visit visits (s.clearAccessed frameHash.elems)
    (hashFirst_inside h) (frameHash.remaining_hashFirst.trans hcons)
  exact ⟨fe, rest, hcons, hclear, fun fuel => by rw [hvisit, if_neg (by simp [hclear])]⟩

/-- What `select_frame_to_evict` does: it visits the frames of `before`, whose accessed bits are set
and which it clears, and then `fe`, whose bit is clear.  The visits go through the table from the
start, and then from the start again. -/
structure Selects (frameHash : HashTable FrameEntry) (s : Vm) (before : List FrameEntry)
    (fe : FrameEntry) (s' : Vm) : Prop where
  run : ∀ fuel, frameHash.elems.length < fuel →
    evictLoop frameHash fuel fuel [] s = .ok ((before.map (·, true) ++ [(fe, false)], fe), s')
  visits : before ++ [fe] <+: frameHash.elems ++ frameHash.elems
  clear : s'.accessed fe = false
  cleared : s' = s.clearAccessed before

/-- The loops end, and over the table that the paging system lists they select its frame. -/
theorem evictLoop_selects (h : frameHash.elems ≠ []) (s : Vm) :
    ∃ before fe s', Selects frameHash s before fe s' ∧
      (s.frameHash = frameHash.elems → selectFrameToEvict s = .ok (fe, s')) := by
  have hi := hashFirst_inside h
  obtain ⟨vs, found, s', hpass, hsweep, hends⟩ :=
    evictPass_ends hi frameHash.remaining_hashFirst [] s
  cases hends with
  | found before fe after hsplit hclear =>
    refine ⟨before, fe, _, ⟨fun fuel hfuel => ?_, ?_, hclear, rfl⟩, fun hframes => ?_⟩
    · cases fuel with
      | zero => exact absurd hfuel (Nat.not_lt_zero _)
      | succ fuel =>
        rw [evictLoop, Routine.bind_of_ok (hpass (fuel + 1) hfuel)]
        rfl
    · refine ⟨after ++ frameHash.elems, ?_⟩
      rw [hsplit]
      simp
    · rw [selectFrameToEvict, Routine.get_bind_apply, hframes, hsweep]
      rfl
  | swept =>
    obtain ⟨fe, rest, hcons, hclear, hsecond⟩ :=
      evictPass_after_sweep h (frameHash.elems.map (·, true)) s
    refine ⟨frameHash.elems, fe, _, ⟨fun fuel hfuel => ?_, ?_, hclear, rfl⟩, fun hframes => ?_⟩
    · have hpos : 0 < frameHash.elems.length := List.length_pos_iff.mpr h
      obtain ⟨fuel, rfl⟩ : ∃ n, fuel = n + 2 := ⟨fuel - 2, by omega⟩
      rw [evictLoop, Routine.bind_of_ok (hpass _ hfuel), List.nil_append]
      show evictLoop frameHash _ (fuel + 1) _ _ = _
      rw [evictLoop, Routine.bind_of_ok (hsecond _)]
      rfl
    · exact ⟨rest, by rw [List.append_assoc, List.singleton_append, ← hcons]⟩
    · have hframes' : (s.clearAccessed frameHash.elems).frameHash = fe :: rest := by
        rw [(Vm.clearAccessed_frames s _).frames, hframes, hcons]
      have hclear' : ¬ ((((s.clearAccessed frameHash.elems).process fe.owner).pagedir.isAccessed
          fe.threadVaddr) = true) := Bool.not_eq_true _ ▸ hclear
      rw [selectFrameToEvict, Routine.get_bind_apply, hframes, hsweep]
      simp only [hframes', selectSweep, if_neg hclear']
      rfl

/-- `select_frame_to_evict` ends over every table that is not empty.  It visits every frame at most
twice, returns one whose accessed bit is clear when it is visited, and clears the accessed bits of
the pages of the frames visited before it, and no others. -/
theorem select_frame_to_evict_ends (frameHash : HashTable FrameEntry) (s : Vm)
    (h : frameHash.elems ≠ []) : ∃ before fe s',
      Selects frameHash s before fe s' ∧ fe ∈ frameHash.elems ∧
      (∀ page, (before ++ [fe]).countP (·.page = page) ≤
        2 * frameHash.elems.countP (·.page = page)) ∧
      (∀ p v, (s'.process p).pagedir.isAccessed v =
        ((s.process p).pagedir.isAccessed v && !before.any (·.names p v))) ∧
      s.SameFrames s' := by
  obtain ⟨before, fe, s', hselects, -⟩ := evictLoop_selects h s
  refine ⟨before, fe, s', hselects, ?_, fun page => ?_, fun p v => ?_, ?_⟩
  · have hmem := hselects.visits.subset (List.mem_append_right before List.mem_cons_self)
    exact (List.mem_append.mp hmem).elim id id
  · calc (before ++ [fe]).countP (·.page = page)
        ≤ (frameHash.elems ++ frameHash.elems).countP (·.page = page) :=
          hselects.visits.sublist.countP_le
      _ = 2 * frameHash.elems.countP (·.page = page) := by rw [List.countP_append, Nat.two_mul]
  · rw [hselects.cleared, Vm.clearAccessed_isAccessed]
  · rw [hselects.cleared]
    exact Vm.clearAccessed_frames s before

/-- Three frames of two processes. -/
def threeFrames : HashTable FrameEntry :=
  ⟨[[⟨2, 1, 0x2000⟩], [⟨0, 1, 0x1000⟩, ⟨1, 2, 0x1000⟩], [], []], 3⟩

/-- A state in which every page has been accessed. -/
def accessedVm : Vm :=
  { oneFrameVm with
    frameHash := threeFrames.elems
    process := fun p =>
      ⟨⟨fun _ => true, fun v => ⟨if v = 0x2000 then 2 else p - 1, true, true, true, false⟩⟩,
        PtSuppl.empty⟩ }

/-- No two frames of the table are the same page of a process. -/
theorem threeFrames_names : ∀ fe ∈ threeFrames.elems, ∀ g ∈ threeFrames.elems,
    g.names fe.owner fe.threadVaddr → g = fe := by
  simp [threeFrames, HashTable.elems, FrameEntry.names, pgRoundDown, pgSize]

/-- All three frames have been accessed: the first pass clears their bits, and the frame that is
found on the second pass is one that has been visited before. -/
theorem select_frame_to_evict_ends_three : ∃ before fe s',
    Selects threeFrames accessedVm before fe s' ∧ fe ∈ before := by
  obtain ⟨before, fe, s', hselects, hmem, -, hbits, -⟩ :=
    select_frame_to_evict_ends threeFrames accessedVm (by decide)
  refine ⟨before, fe, s', hselects, ?_⟩
  have haccessed : (accessedVm.process fe.owner).pagedir.isAccessed fe.threadVaddr = true := rfl
  have hclear := hselects.clear
  rw [Vm.accessed, hbits, haccessed, Bool.true_and, Bool.not_eq_false', List.any_eq_true] at hclear
  obtain ⟨g, hg, hnames⟩ := hclear
  have hgmem := hselects.visits.subset (List.mem_append_left [fe] hg)
  rw [List.mem_append, or_self] at hgmem
  exact threeFrames_names fe hmem g hgmem hnames ▸ hg

end Pintos
