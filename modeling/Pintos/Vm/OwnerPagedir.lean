import Pintos.Vm.FrameThreads

/-! The frame table names only owners with a page directory, until a process exits: `process_exit`
sets `pagedir` to NULL before `pagedir_destroy` takes the frames of the process out of the table.
A scan for a victim in between fails the assertion of `lookup_page`. -/

namespace Pintos

open LockProgram (Step isChain_safe_iff follow isChain_of_follow isChain_step_of_follow)

/-- What a step does to the owners in the frame table and to `pagedir` of the processes. -/
structure OwnerStep (t : Nat) (s : VmShared) (p : FramePhase) (s' : VmShared) (q : FramePc) :
    Prop where
  current : q.current = t
  owners : ∀ fe ∈ s'.frameHash, (fe.owner = t ∧ p.noPagedir = false) ∨
    ∃ fe' ∈ s.frameHash, fe'.owner = fe.owner
  others : ∀ u, u ≠ t → s'.noPagedir u = s.noPagedir u
  own : s'.noPagedir t = q.phase.noPagedir
  alive : p.noPagedir = false → q.phase.noPagedir = true → p = .exit
  exit : p = .exit → s'.frameHash = s.frameHash ∧ q.phase.noPagedir = true
  noPd : q.phase = .noPd → ∃ fe ∈ s.frameHash, s.noPagedir fe.owner = true

variable {order : List FrameEntry → List FrameEntry} {bucket : PtSuppl → List Nat} {t : Nat}
  {s s' : VmShared} {p q : FramePhase} {r : VmShared × FramePc}

/-- A step after which the entries have owners they had before. -/
theorem OwnerStep.of_owners (hs : s.noPagedir t = p.noPagedir)
    (hnoPagedir : s'.noPagedir = s.noPagedir)
    (howners : ∀ fe ∈ s'.frameHash, (fe.owner = t ∧ p.noPagedir = false) ∨
      ∃ fe' ∈ s.frameHash, fe'.owner = fe.owner)
    (halive : q.noPagedir = p.noPagedir) (hexit : p ≠ .exit) (hnoPd : q ≠ .noPd) :
    OwnerStep t s p s' ⟨t, q⟩ where
  current := rfl
  owners := howners
  others u _ := by rw [hnoPagedir]
  own := by rw [hnoPagedir, hs, halive]
  alive hp hq := by
    rw [halive, hp] at hq
    cases hq
  exit h := absurd h hexit
  noPd h := absurd h hnoPd

/-- A step that leaves the frame table alone. -/
theorem OwnerStep.quiet (hs : s.noPagedir t = p.noPagedir)
    (hnoPagedir : s'.noPagedir = s.noPagedir) (hframes : s'.frameHash = s.frameHash)
    (halive : q.noPagedir = p.noPagedir) (hexit : p ≠ .exit) (hnoPd : q ≠ .noPd) :
    OwnerStep t s p s' ⟨t, q⟩ := by
  refine .of_owners hs hnoPagedir (fun fe hfe => ?_) halive hexit hnoPd
  rw [hframes] at hfe
  exact .inr ⟨fe, hfe, rfl⟩

/-- A routine that leaves the frame table alone. -/
theorem OwnerStep.attempt {α : Type} {routine : VmRoutine α} {next : α → FramePhase}
    (hr : r = FramePc.attempt ⟨t, p⟩ routine next s) (hs : s.noPagedir t = p.noPagedir)
    (hp : p.noPagedir = false) (hexit : p ≠ .exit)
    (hframes : ∀ {a vm}, routine s.toVm = .ok (a, vm) → vm.frameHash = s.frameHash)
    (hnext : ∀ a, (next a).noPagedir = false ∧ next a ≠ .noPd) : OwnerStep t s p r.1 r.2 := by
  subst hr
  rcases FramePc.attempt_cases ⟨t, p⟩ routine next s with ⟨a, vm, hrun, hr⟩ | ⟨fault, hr⟩
  · rw [hr]
    exact .quiet hs rfl (hframes hrun) ((hnext a).1.trans hp.symm) hexit (hnext a).2
  · rw [hr]
    exact .quiet hs rfl rfl rfl hexit nofun

theorem mem_of_find {s : Vm} {page : Nat} {fe : FrameEntry} (h : FramePc.find s page = some fe) :
    fe ∈ s.frameHash ∧ fe.page = page := by
  refine ⟨List.mem_of_find?_eq_some h, ?_⟩
  simpa using List.find?_some h

theorem OwnerStep.inspect {caller : FrameCaller} {page : Nat} {rest : List Nat}
    (hs : s.noPagedir t = false) :
    OwnerStep t s (.select caller (page :: rest)) (FramePc.inspect t caller page rest s).1
      (FramePc.inspect t caller page rest s).2 := by
  unfold FramePc.inspect
  split
  · exact .quiet hs rfl rfl rfl nofun nofun
  · rename_i fe hfind
    split
    · rename_i hnull
      refine ⟨rfl, fun fe hfe => .inr ⟨fe, hfe, rfl⟩, fun _ _ => rfl, hs, nofun, nofun, fun _ => ?_⟩
      exact ⟨fe, (mem_of_find hfind).1, hnull⟩
    · dsimp only
      split
      · exact .quiet hs rfl rfl rfl nofun nofun
      · exact .quiet hs rfl rfl rfl nofun nofun

theorem OwnerStep.pageOutVictim {caller : FrameCaller} {page : Nat} (hs : s.noPagedir t = false) :
    OwnerStep t s (.pageOut caller page) (FramePc.pageOutVictim t caller page s).1
      (FramePc.pageOutVictim t caller page s).2 := by
  unfold FramePc.pageOutVictim
  split
  · exact .quiet hs rfl rfl rfl nofun nofun
  · rename_i fe hfind
    split
    · exact .quiet hs rfl rfl rfl nofun nofun
    · rename_i vm hout
      split
      · rename_i hnull
        refine ⟨rfl, fun fe hfe => .inr ⟨fe, hfe, rfl⟩, fun _ _ => rfl, hs, nofun, nofun,
          fun _ => ?_⟩
        exact ⟨fe, (mem_of_find hfind).1, hnull⟩
      · exact .quiet hs rfl (pageOutEvictedFrame_unmaps hout).2.frames rfl nofun nofun

/-- What every instruction does to the owners. -/
theorem program_ownerStep (horder : ∀ fes, (order fes).Perm fes)
    (hs : s.noPagedir t = p.noPagedir)
    (hr : (FramePc.program order bucket ⟨t, p⟩).Leads s r) : OwnerStep t s p r.1 r.2 := by
  cases p with
  | unborn | idle | dead | panicked _ _ | noPd => exact hr.elim
  | load =>
    obtain rfl := hr
    dsimp only
    split
    · exact .quiet hs rfl rfl rfl nofun nofun
    · refine ⟨rfl, fun fe hfe => .inr ⟨fe, hfe, rfl⟩, fun u hu => ?_, ?_, nofun, nofun, nofun⟩
      · exact Function.update_of_ne hu _ _
      · exact Function.update_self _ _ _
  | call call =>
    exact .attempt hr hs rfl nofun (fun h => (ProcessCall.exec_frames h).frames)
      fun _ => ⟨rfl, nofun⟩
  | pageFault faultAddr esp =>
    obtain rfl := hr
    have hnext : (FramePc.handleFault t faultAddr esp s.toVm).noPagedir = false ∧
        FramePc.handleFault t faultAddr esp s.toVm ≠ .noPd := by
      unfold FramePc.handleFault
      split
      · exact ⟨rfl, nofun⟩
      · split
        · split
          · exact ⟨rfl, nofun⟩
          · split <;> exact ⟨rfl, nofun⟩
        · exact ⟨rfl, nofun⟩
    exact .quiet hs rfl rfl hnext.1 nofun hnext.2
  | palloc caller =>
    obtain rfl := hr
    unfold FramePc.getPage
    split
    · exact .quiet hs rfl rfl rfl nofun nofun
    · exact .quiet hs rfl rfl rfl nofun nofun
  | hashAdd caller page =>
    obtain rfl := hr
    exact .quiet hs rfl rfl rfl nofun nofun
  | hashInsert caller page =>
    obtain rfl := hr
    refine .of_owners hs rfl (fun fe hfe => ?_) rfl nofun nofun
    rcases List.mem_cons.mp ((horder _).mem_iff.mp hfe) with rfl | hfe
    · exact .inl ⟨rfl, rfl⟩
    · exact .inr ⟨fe, hfe, rfl⟩
  | evict caller =>
    obtain rfl := hr
    exact .quiet hs rfl rfl rfl nofun nofun
  | select caller rest =>
    cases rest with
    | nil =>
      obtain rfl := hr
      exact .quiet hs rfl rfl rfl nofun nofun
    | cons page rest =>
      obtain rfl := hr
      exact .inspect hs
  | pageOut caller page =>
    obtain rfl := hr
    exact .pageOutVictim hs
  | setOwner caller page =>
    obtain rfl := hr
    refine .of_owners hs rfl (fun fe hfe => ?_) rfl nofun nofun
    obtain ⟨fe', hfe', rfl⟩ := List.mem_map.mp hfe
    split
    · exact .inl ⟨rfl, rfl⟩
    · exact .inr ⟨fe', hfe', rfl⟩
  | setVaddr caller page =>
    obtain rfl := hr
    refine .of_owners hs rfl (fun fe hfe => ?_) rfl nofun nofun
    obtain ⟨fe', hfe', rfl⟩ := List.mem_map.mp hfe
    refine .inr ⟨fe', hfe', ?_⟩
    split <;> rfl
  | received caller page =>
    exact .attempt hr hs rfl nofun (fun h => (FrameCaller.fill_frames h).frames)
      fun read => by cases read <;> exact ⟨rfl, nofun⟩
  | setPage caller page =>
    refine .attempt hr hs rfl nofun (fun h => ?_)
      fun pgdir => by cases pgdir <;> exact ⟨rfl, nofun⟩
    rcases FrameCaller.install_maps h with ⟨-, rfl⟩ | ⟨-, hmaps⟩
    · rfl
    · exact hmaps.frames
  | mapped caller =>
    exact .attempt hr hs rfl nofun (fun h => (FrameCaller.finish_frames h).frames)
      fun _ => ⟨rfl, nofun⟩
  | frameFree exiting pages =>
    cases pages with
    | nil =>
      cases exiting with
      | none =>
        obtain rfl := hr
        exact .quiet hs rfl rfl rfl nofun nofun
      | some kernelPages =>
        obtain rfl := hr
        exact .quiet hs rfl rfl rfl nofun nofun
    | cons page rest =>
      cases exiting with
      | none =>
        obtain rfl := hr
        exact .quiet hs rfl rfl rfl nofun nofun
      | some kernelPages =>
        obtain rfl := hr
        exact .quiet hs rfl rfl rfl nofun nofun
  | hashDelete exiting page rest =>
    obtain rfl := hr
    refine .of_owners hs rfl (fun fe hfe => ?_) (by cases exiting <;> rfl) nofun nofun
    exact .inr ⟨fe, (List.mem_filter.mp ((horder _).mem_iff.mp hfe)).1, rfl⟩
  | pallocFree exiting page rest =>
    obtain rfl := hr
    refine .quiet hs rfl rfl ?_ nofun nofun
    cases exiting <;> rfl
  | exit =>
    obtain rfl := hr
    refine ⟨rfl, fun fe hfe => .inr ⟨fe, hfe, rfl⟩, fun u hu => ?_, ?_, fun _ _ => rfl,
      fun _ => ⟨rfl, rfl⟩, nofun⟩
    · exact Function.update_of_ne hu _ _
    · exact Function.update_self _ _ _

/-- `pagedir` is NULL where the program counters say so. -/
structure PagedirInv (c : FrameConfig) : Prop where
  current : ∀ t, (c.pc t).current = t
  noPagedir : ∀ t, c.shared.noPagedir t = (c.pc t).phase.noPagedir

/-- Whether a thread there has finished `pagedir_destroy`. -/
def FramePhase.destroyed : FramePhase → Bool
  | frameFree (some _) [] | dead => true
  | _ => false

/-- Every owner in the frame table has a page directory, no assertion of `lookup_page` has failed,
and the table names no process that has finished `pagedir_destroy`. -/
structure OwnersLoaded (c : FrameConfig) : Prop where
  owners : ∀ fe ∈ c.shared.frameHash, c.shared.noPagedir fe.owner = false
  lookup : ∀ t, (c.pc t).phase ≠ .noPd
  finished : ∀ t, (c.pc t).phase.destroyed = true → ∀ fe ∈ c.shared.frameHash, fe.owner ≠ t

/-- If thread `t` is about to set its `pagedir` to NULL, then the frame table does not name it. -/
def OwnsNothingAtExit (c : FrameConfig) (t : Nat) : Prop :=
  (c.pc t).phase = .exit → ∀ fe ∈ c.shared.frameHash, fe.owner ≠ t

theorem FramePhase.noPagedir_of_destroyed {p : FramePhase} (h : p.destroyed = true) :
    p.noPagedir = true := by
  cases p with
  | frameFree exiting pages =>
    cases exiting with
    | none => cases h
    | some kernelPages => rfl
  | dead => rfl
  | _ => cases h

variable {c c' : FrameConfig}

theorem FramePc.start_noPagedir {p q : FramePhase} (h : starts p q = true) :
    p.noPagedir = q.noPagedir ∧ p ≠ .exit ∧ q ≠ .noPd := by
  unfold starts at h
  split at h
  · exact ⟨rfl, nofun, nofun⟩
  · exact ⟨rfl, nofun, nofun⟩
  · exact ⟨rfl, nofun, nofun⟩
  · exact ⟨rfl, nofun, nofun⟩
  · exact ⟨rfl, nofun, nofun⟩
  · cases h

/-- What a step of a thread does to the owners. -/
theorem FrameStep.ownerStep (horder : ∀ fes, (order fes).Perm fes) (hinv : PagedirInv c)
    (h : Step (FramePc.program order bucket) FramePc.start c t c') :
    OwnerStep t c.shared (c.pc t).phase c'.shared (c'.pc t) := by
  cases h with
  | instr hexec =>
    have hpc : c.pc t = ⟨t, (c.pc t).phase⟩ := FramePc.ext (hinv.current t) rfl
    have hleads := hexec.leads
    rw [hpc] at hleads
    exact program_ownerStep horder (hinv.noPagedir t) hleads
  | start hstart =>
    obtain ⟨hcurrent, hstarts⟩ := hstart
    obtain ⟨halive, hexit, hnoPd⟩ := FramePc.start_noPagedir hstarts
    rename_i q
    obtain ⟨cur, q⟩ := q
    obtain rfl : cur = t := hcurrent.trans (hinv.current t)
    rw [LockProgram.Config.jump_pc]
    exact .quiet (hinv.noPagedir cur) rfl rfl halive.symm hexit hnoPd

theorem PagedirInv.step (horder : ∀ fes, (order fes).Perm fes) (hinv : PagedirInv c)
    (h : Step (FramePc.program order bucket) FramePc.start c t c') : PagedirInv c' := by
  have howner := FrameStep.ownerStep horder hinv h
  constructor
  · intro u
    by_cases hu : u = t
    · subst hu
      exact howner.current
    · rw [h.pc_ne hu]
      exact hinv.current u
  · intro u
    by_cases hu : u = t
    · subst hu
      exact howner.own
    · rw [h.pc_ne hu, howner.others u hu]
      exact hinv.noPagedir u

theorem OwnersLoaded.of_owners (hinv : PagedirInv c)
    (howners : ∀ fe ∈ c.shared.frameHash, c.shared.noPagedir fe.owner = false)
    (hlookup : ∀ t, (c.pc t).phase ≠ .noPd) : OwnersLoaded c where
  owners := howners
  lookup := hlookup
  finished t ht fe hfe howner := by
    have hnull := FramePhase.noPagedir_of_destroyed ht
    rw [← hinv.noPagedir t, ← howner, howners fe hfe] at hnull
    cases hnull

/-- A step keeps the owners loaded exactly if no process with frames in the table loses its page
directory in it. -/
theorem ownsNothingAtExit_iff (horder : ∀ fes, (order fes).Perm fes) (hinv : PagedirInv c)
    (h : Step (FramePc.program order bucket) FramePc.start c t c') (hloaded : OwnersLoaded c) :
    OwnsNothingAtExit c t ↔ OwnersLoaded c' := by
  have howner := FrameStep.ownerStep horder hinv h
  have hinv' := hinv.step horder h
  constructor
  · intro hsafe
    refine .of_owners hinv' (fun fe hfe => ?_) fun u hu => ?_
    · have hold : fe.owner = t → (c.pc t).phase.noPagedir = false := by
        intro howned
        rcases howner.owners fe hfe with ⟨-, halive⟩ | ⟨fe', hfe', hsame⟩
        · exact halive
        · rw [← hinv.noPagedir t, ← howned, ← hsame]
          exact hloaded.owners fe' hfe'
      by_cases howned : fe.owner = t
      · rw [howned, howner.own]
        cases hnull : (c'.pc t).phase.noPagedir with
        | false => rfl
        | true =>
          -- the only way to lose the page directory is `exit`, where the thread owns nothing
          have hexit := howner.alive (hold howned) hnull
          rw [(howner.exit hexit).1] at hfe
          exact absurd howned (hsafe hexit fe hfe)
      · rcases howner.owners fe hfe with ⟨howned', -⟩ | ⟨fe', hfe', hsame⟩
        · exact absurd howned' howned
        · rw [howner.others _ howned, ← hsame]
          exact hloaded.owners fe' hfe'
    · by_cases hut : u = t
      · subst hut
        obtain ⟨fe, hfe, hnull⟩ := howner.noPd hu
        rw [hloaded.owners fe hfe] at hnull
        cases hnull
      · rw [h.pc_ne hut] at hu
        exact hloaded.lookup u hu
  · intro hloaded' hexit fe hfe howned
    obtain ⟨hframes, hnull⟩ := howner.exit hexit
    rw [← hframes] at hfe
    have halive := hloaded'.owners fe hfe
    rw [howned, howner.own, hnull] at halive
    cases halive

/-- In a run of any number of threads from the start of the machine, the frame table and the page
directories agree in every state if and only if no process loses its page directory while the table
names it. -/
theorem owners_loaded_iff (bucket : PtSuppl → List Nat) (horder : ∀ fes, (order fes).Perm fes)
    (s : Vm) (cs : List FrameConfig)
    (hrun : (.initial s :: cs).IsChain (FrameStep order bucket)) :
    (∀ c ∈ .initial s :: cs, OwnersLoaded c) ↔
      (.initial s :: cs).IsChain fun c c' =>
        ∃ t, Step (FramePc.program order bucket) FramePc.start c t c' ∧ OwnsNothingAtExit c t := by
  have hinit : PagedirInv (.initial s) := ⟨fun _ => rfl, fun _ => rfl⟩
  have hsafe : (∀ c ∈ .initial s :: cs, ¬ ¬ OwnersLoaded c) ↔
      (.initial s :: cs).IsChain fun c c' => ∃ t,
        Step (FramePc.program order bucket) FramePc.start c t c' ∧ OwnsNothingAtExit c t := by
    refine isChain_safe_iff (I := PagedirInv) ?_ ?_ hrun hinit ?_
    · rintro a b hinv ⟨t, hstep⟩
      exact hinv.step horder hstep
    · rintro a b hinv ⟨t, hstep⟩ hloaded
      rw [not_not] at hloaded ⊢
      constructor
      · rintro ⟨u, hstep', howns⟩
        exact (ownsNothingAtExit_iff horder hinv hstep' hloaded).mp howns
      · intro hloaded'
        exact ⟨t, hstep, (ownsNothingAtExit_iff horder hinv hstep hloaded).mpr hloaded'⟩
    · rw [not_not]
      exact .of_owners hinit nofun nofun
  simpa only [not_not] using hsafe

/-- The one frame goes from process 0 to process 1, and then process 0 exits. -/
def frameTaken : List (Nat × Option FramePc) :=
  (0, some ⟨0, .load⟩) :: (0, none) :: (1, some ⟨1, .load⟩) :: (1, none) ::
    (0, some ⟨0, .palloc .setupStack⟩) :: List.replicate 6 (0, none) ++
    (1, some ⟨1, .palloc .setupStack⟩) :: List.replicate 10 (1, none) ++
    (0, some ⟨0, .exit⟩) :: List.replicate 2 (0, none)

/-- Moves in which no process loses its page directory while the table names it. -/
def cleanExits (c : FrameConfig) (t : Nat) : Option FramePc → Bool
  | none =>
    match (c.pc t).phase with
    | .exit => c.shared.frameHash.all fun fe => fe.owner ≠ t
    | _ => true
  | some p => FramePc.start (c.pc t) p

theorem ownsNothingAtExit_of_check {c : FrameConfig} {t : Nat} {task : Option FramePc}
    (h : cleanExits c t task = true) : OwnsNothingAtExit c t := by
  intro hexit fe hfe
  cases task with
  | none =>
    rw [cleanExits, hexit] at h
    have howner := List.all_eq_true.mp h fe hfe
    exact of_decide_eq_true howner
  | some p =>
    obtain ⟨-, hstarts⟩ := of_decide_eq_true h
    rw [hexit] at hstarts
    cases hstarts

/-- Process 0 maps the frame, then process 1 does, and in the end process 0 is gone. -/
theorem owners_loaded_iff_frameTaken : ∃ cs : List FrameConfig,
    (.initial oneFrameVm :: cs).IsChain (FrameStep id fun _ => []) ∧
    (∃ c ∈ cs, c.shared.mapped 0 (physBase - pgSize) = some 0) ∧
    (∃ c ∈ cs, c.shared.mapped 1 (physBase - pgSize) = some 0 ∧ (c.pc 0).phase.destroyed = true) ∧
    ∀ c ∈ .initial oneFrameVm :: cs, OwnersLoaded c := by
  have hfollow : ((follow (FramePc.program id fun _ => []) cleanExits frameTaken
      (FrameConfig.initial oneFrameVm)).any fun cs => decide
        ((∃ c ∈ cs, c.shared.mapped 0 (physBase - pgSize) = some 0) ∧
          ∃ c ∈ cs, c.shared.mapped 1 (physBase - pgSize) = some 0 ∧
            (c.pc 0).phase.destroyed = true)) = true := by
    decide +kernel
  obtain ⟨cs, hcs, hmaps⟩ := (Option.any_eq_true _ _).mp hfollow
  obtain ⟨hfirst, hsecond⟩ := of_decide_eq_true hmaps
  have hstart : ∀ (c : FrameConfig) t p, cleanExits c t (some p) = true → FramePc.start (c.pc t) p :=
    fun c t p h => of_decide_eq_true h
  have hchain := isChain_of_follow hstart hcs
  have hrun : (FrameConfig.initial oneFrameVm :: cs).IsChain (FrameStep id fun _ => []) :=
    isChain_step_of_follow hstart hcs
  refine ⟨cs, hrun, hfirst, hsecond, (owners_loaded_iff (fun _ => []) (fun _ => List.Perm.refl _)
    oneFrameVm cs hrun).mpr (hchain.imp fun c c' h => ?_)⟩
  obtain ⟨t, task, hstep, hclean, -⟩ := h
  exact ⟨t, hstep, ownsNothingAtExit_of_check hclean⟩

/-- Process 0 has a stack page and loses its page directory in `process_exit`; process 1 then looks
for a victim for its own stack page. -/
def scanDuringExit : List (Nat × FramePc × Nat) :=
  [(0, ⟨0, .load⟩, 1), (1, ⟨1, .load⟩, 1), (0, ⟨0, .palloc .setupStack⟩, 6), (0, ⟨0, .exit⟩, 1),
    (1, ⟨1, .palloc .setupStack⟩, 4)]

/-- The scan fails the assertion of `lookup_page`. -/
theorem scan_fails_during_exit : ∃ c, LockProgram.Reach (FramePc.program id fun _ => [])
    FramePc.start (FrameConfig.initial oneFrameVm) c ∧ ¬ OwnersLoaded c := by
  have hplay : ((LockProgram.play (FramePc.program id fun _ => []) FramePc.start scanDuringExit
      (FrameConfig.initial oneFrameVm)).any fun c =>
        match (c.pc 1).phase with
        | .noPd => true
        | _ => false) = true := by decide +kernel
  obtain ⟨c, hc, hphase⟩ := (Option.any_eq_true _ _).mp hplay
  refine ⟨c, LockProgram.reach_of_play hc, fun hloaded => hloaded.lookup 1 ?_⟩
  split at hphase
  · assumption
  · cases hphase

end Pintos
