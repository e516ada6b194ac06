import Pintos.Vm.OwnerPagedir

/-! A frame belongs to one caller of `vm_frame_alloc`, from the moment it is obtained until its page
is unmapped, as long as no frame is evicted while a thread has it in its hands.  The entry of a
frame can be selected from its insertion on, but its owner, its address and the page table of the
owner are set afterwards. -/

namespace Pintos

open LockProgram (Step follow isChain_of_follow isChain_step_of_follow)

namespace Pagedir

/-- The addresses that `pagedir_destroy` visits. -/
def visited : List Nat :=
  (List.range (pdNo physBase)).flatMap fun pde =>
    (List.range 1024).map fun pte => pde * 2 ^ 22 + pte * pgSize

theorem mem_visited {v : Nat} : v ∈ visited ↔ v % pgSize = 0 ∧ v < physBase := by
  simp only [visited, List.mem_flatMap, List.mem_map, List.mem_range]
  have hcount : pdNo physBase = 768 := rfl
  rw [hcount]
  unfold physBase pgSize
  constructor
  · rintro ⟨pde, hpde, pte, hpte, rfl⟩
    omega
  · rintro ⟨halign, huser⟩
    exact ⟨v / 2 ^ 22, by omega, v % 2 ^ 22 / 4096, by omega, by omega⟩

theorem visited_nodup : visited.Nodup := by
  refine List.nodup_flatMap.mpr ⟨fun pde _ => ?_, ?_⟩
  · refine List.nodup_range.map fun a b hab => ?_
    unfold pgSize at hab
    omega
  · refine List.nodup_range.imp fun {a b} hab => ?_
    intro v hv hv'
    obtain ⟨i, hi, rfl⟩ := List.mem_map.mp hv
    obtain ⟨j, hj, hsame⟩ := List.mem_map.mp hv'
    rw [List.mem_range] at hi hj
    unfold pgSize at hsame
    omega

/-- The frames that `pagedir_destroy` finds are those of the visited pages. -/
theorem presentPages_eq (pd : Pagedir) : pd.presentPages = visited.filterMap pd.getPage := by
  rw [presentPages, visited, List.filterMap_flatMap]
  refine List.flatMap_congr fun pde _ => ?_
  have hget : ∀ pte, pte < 1024 → pd.getPage (pde * 2 ^ 22 + pte * pgSize) =
      if pd.pde pde = true ∧ (pd.pte (pde * 2 ^ 22 + pte * pgSize)).present = true then
        some (pd.pte (pde * 2 ^ 22 + pte * pgSize)).page else none := by
    intro pte hpte
    have hround : pgRoundDown (pde * 2 ^ 22 + pte * pgSize) = pde * 2 ^ 22 + pte * pgSize := by
      unfold pgRoundDown pgSize
      omega
    have hpdNo : pdNo (pde * 2 ^ 22 + pte * pgSize) = pde := by
      unfold pdNo pgSize
      omega
    rw [getPage_eq, hround, hpdNo]
  rw [List.filterMap_map]
  cases hpde : pd.pde pde with
  | true =>
    rw [if_pos rfl]
    refine List.filterMap_congr fun pte hpte => ?_
    rw [Function.comp_apply, hget pte (List.mem_range.mp hpte)]
    simp [hpde]
  | false =>
    rw [if_neg nofun]
    refine (List.filterMap_eq_nil_iff.mpr fun pte hpte => ?_).symm
    rw [Function.comp_apply, hget pte (List.mem_range.mp hpte)]
    simp [hpde]

theorem mem_presentPages {pd : Pagedir} {page : Nat} : page ∈ pd.presentPages ↔
    ∃ v, v % pgSize = 0 ∧ v < physBase ∧ pd.getPage v = some page := by
  rw [presentPages_eq, List.mem_filterMap]
  constructor
  · rintro ⟨v, hv, hpage⟩
    exact ⟨v, (mem_visited.mp hv).1, (mem_visited.mp hv).2, hpage⟩
  · rintro ⟨v, halign, huser, hpage⟩
    exact ⟨v, mem_visited.mpr ⟨halign, huser⟩, hpage⟩

/-- A page directory that maps no frame twice gives back no frame twice. -/
theorem presentPages_nodup {pd : Pagedir} (h : ∀ v u page, v % pgSize = 0 → u % pgSize = 0 →
    pd.getPage v = some page → pd.getPage u = some page → v = u) : pd.presentPages.Nodup := by
  rw [presentPages_eq, List.Nodup, List.pairwise_filterMap]
  refine visited_nodup.imp_of_mem fun {v u} hv hu hne page hpage page' hpage' => ?_
  rintro rfl
  exact hne (h v u page (mem_visited.mp hv).1 (mem_visited.mp hu).1 hpage hpage')

end Pagedir

namespace FramePhase

/-- The frames that `vm_frame_alloc` has returned to the thread and that it has neither mapped nor
given back. -/
def returned : FramePhase → List Nat
  | received _ page | setPage _ page => [page]
  | frameFree _ pages => pages
  | hashDelete _ page rest | pallocFree _ page rest => page :: rest
  | panicked _ phase => phase.returned
  | _ => []

/-- The frames that the thread has in its hands: it has obtained them, and has neither mapped nor
given them back. -/
def hands : FramePhase → List Nat
  | hashAdd _ page | hashInsert _ page | setOwner _ page | setVaddr _ page => [page]
  | panicked _ phase => phase.hands
  | phase => phase.returned

/-- What the frame table says of the frames in the hands of thread `t`. -/
def EntryInv (t : Nat) (s : Vm) : FramePhase → Prop
  | hashAdd _ page | hashInsert _ page | pallocFree _ page _ => ¬ s.InTable page
  | setOwner _ page => s.InTable page
  | setVaddr _ page => ∃ v, ⟨page, t, v⟩ ∈ s.frameHash
  | received caller page | setPage caller page => ⟨page, t, caller.vaddr⟩ ∈ s.frameHash
  | _ => True

theorem returned_subset_hands (p : FramePhase) {page : Nat} (h : page ∈ p.returned) :
    page ∈ p.hands := by
  induction p with
  | panicked fault phase ih => exact ih h
  | hashAdd _ _ | hashInsert _ _ | setOwner _ _ | setVaddr _ _ => cases h
  | _ => exact h

/-- The facts about the frames of a thread depend on the entries of these frames only. -/
theorem EntryInv.congr {t : Nat} {s s' : Vm} {p : FramePhase} (h : p.EntryInv t s)
    (hentries : ∀ fe : FrameEntry, fe.page ∈ p.hands → (fe ∈ s'.frameHash ↔ fe ∈ s.frameHash)) :
    p.EntryInv t s' := by
  have hin : ∀ page, page ∈ p.hands → (s'.InTable page ↔ s.InTable page) := by
    intro page hpage
    refine exists_congr fun fe => and_congr_left fun hfe => hentries fe ?_
    rwa [hfe]
  cases p with
  | hashAdd caller page | hashInsert caller page => rwa [EntryInv, hin page List.mem_cons_self]
  | pallocFree exiting page rest => rwa [EntryInv, hin page List.mem_cons_self]
  | setOwner caller page => rwa [EntryInv, hin page List.mem_cons_self]
  | setVaddr caller page =>
    obtain ⟨v, hv⟩ := h
    exact ⟨v, (hentries _ List.mem_cons_self).mpr hv⟩
  | received caller page | setPage caller page =>
    exact (hentries ⟨page, t, caller.vaddr⟩ List.mem_cons_self).mpr h
  | _ => trivial

end FramePhase

/-- Thread `t` seen from the frame table: the frames in its hands, besides those in the hands of
the others, are the ones that the table, the user pool and the mappings do not agree about. -/
structure ThreadInv (t : Nat) (others : Nat → Prop) (s : Vm) (p : FramePhase) : Prop where
  table : s.FrameInv fun page => page ∈ p.hands ∨ others page
  fresh : ∀ page ∈ p.hands, ¬ others page
  nodup : p.hands.Nodup
  entry : p.EntryInv t s
  unmapped : p.noPagedir = true → ∀ v, s.mapped t v = none

/-- A step of thread `t` leaves the entries of the others' frames alone and maps nothing for
them. -/
structure OthersKept (t : Nat) (others : Nat → Prop) (s s' : Vm) : Prop where
  entries : ∀ fe : FrameEntry, others fe.page → (fe ∈ s'.frameHash ↔ fe ∈ s.frameHash)
  unmapped : ∀ u v, u ≠ t → s.mapped u v = none → s'.mapped u v = none

/-- What is to be kept by every step of a thread. -/
structure ThreadStep (t : Nat) (others : Nat → Prop) (s s' : Vm) (q : FramePhase) : Prop where
  inv : ThreadInv t others s' q
  kept : OthersKept t others s s'

variable {order : List FrameEntry → List FrameEntry} {bucket : PtSuppl → List Nat} {t : Nat}
  {others : Nat → Prop} {s s' : Vm} {p q : FramePhase} {page : Nat} {caller : FrameCaller}

theorem OthersKept.of_frames (hframes : s'.frameHash = s.frameHash)
    (hmapped : ∀ u v, u ≠ t → s.mapped u v = none → s'.mapped u v = none) :
    OthersKept t others s s' where
  entries fe _ := by rw [hframes]
  unmapped := hmapped

theorem OthersKept.of_entries
    (hentries : ∀ fe : FrameEntry, fe.page ≠ page → (fe ∈ s'.frameHash ↔ fe ∈ s.frameHash))
    (hfresh : ¬ others page) (hmapped : ∀ u v, s'.mapped u v = s.mapped u v) :
    OthersKept t others s s' where
  entries fe hfe := hentries fe fun hpage => hfresh (hpage ▸ hfe)
  unmapped u v _ h := by rw [hmapped, h]

/-- A step that changes nothing of the frame table, the user pool and the mapped pages. -/
theorem ThreadInv.quiet (h : ThreadInv t others s p) (hsame : s.SameFrames s')
    (hhands : q.hands = p.hands) (hentry : p.EntryInv t s → q.EntryInv t s)
    (hnull : q.noPagedir = true → p.noPagedir = true) : ThreadStep t others s s' q where
  inv := by
    constructor
    · rw [hhands]
      exact hsame.keeps h.table
    · rw [hhands]
      exact h.fresh
    · rw [hhands]
      exact h.nodup
    · refine (hentry h.entry).congr fun fe _ => ?_
      rw [hsame.frames]
    · intro hq v
      rw [hsame.mapped]
      exact h.unmapped (hnull hq) v
  kept := .of_frames hsame.frames fun u v _ hnone => by rw [hsame.mapped, hnone]

/-! ### `vm_frame_alloc` -/

theorem ThreadInv.take (h : ThreadInv t others s (.palloc caller)) {pool : Bitmap}
    (hscan : s.userPool.scanAndFlip 0 1 false = some (page, pool))
    (hframes : s'.frameHash = s.frameHash) (hpool : s'.userPool = pool)
    (hmapped : ∀ u v, s'.mapped u v = s.mapped u v) :
    ThreadStep t others s s' (.hashAdd caller page) := by
  obtain ⟨hnotHeld, hnotIn, htable⟩ := h.table.take hscan hframes hpool hmapped
  refine ⟨⟨htable.of_iff fun i => ?_, ?_, List.nodup_singleton _, ?_, nofun⟩,
    .of_frames hframes fun u v _ hnone => by rw [hmapped, hnone]⟩
  · simp [FramePhase.hands, FramePhase.returned, or_comm]
  · intro i hi
    rw [List.mem_singleton.mp hi]
    exact fun hothers => hnotHeld (.inr hothers)
  · show ¬ s'.InTable page
    unfold Vm.InTable
    rw [hframes]
    exact hnotIn

theorem ThreadInv.insert (h : ThreadInv t others s (.hashInsert caller page))
    (hframes : s'.frameHash.Perm (⟨page, t, caller.vaddr⟩ :: s.frameHash))
    (hpool : s'.userPool = s.userPool) (hmapped : ∀ u v, s'.mapped u v = s.mapped u v) :
    ThreadStep t others s s' (.received caller page) := by
  have hmem : ∀ fe : FrameEntry, fe.page ≠ page → (fe ∈ s'.frameHash ↔ fe ∈ s.frameHash) := by
    intro fe hne
    rw [hframes.mem_iff, List.mem_cons, or_iff_right]
    rintro rfl
    exact hne rfl
  let fe : FrameEntry := ⟨page, t, caller.vaddr⟩
  have hheld : fe.page ∈ (FramePhase.hashInsert caller page).hands ∨ others fe.page :=
    .inl List.mem_cons_self
  have htable := h.table.insert hheld h.entry hframes hpool hmapped
  exact ⟨⟨htable, h.fresh, h.nodup, hframes.mem_iff.mpr List.mem_cons_self, nofun⟩,
    .of_entries hmem (h.fresh page List.mem_cons_self) hmapped⟩

/-- The victim is a frame in nobody's hands. -/
theorem ThreadInv.evict (h : ThreadInv t others s (.pageOut caller page)) {fe : FrameEntry}
    (hfe : fe ∈ s.frameHash) (hpage : fe.page = page) (hothers : ¬ others page)
    (hunmaps : s.Unmaps fe.owner fe.threadVaddr s') :
    ThreadStep t others s s' (.setOwner caller page) := by
  subst hpage
  have hfree : ¬ (fe.page ∈ (FramePhase.pageOut caller fe.page).hands ∨ others fe.page) := by
    rintro (hin | hother)
    · cases hin
    · exact hothers hother
  have htable := h.table.evict hfe hfree hunmaps.frames hunmaps.pool hunmaps.mapped
  refine ⟨⟨htable.of_iff fun i => ?_, ?_, List.nodup_singleton _, ?_, nofun⟩,
    .of_frames hunmaps.frames fun u v _ hnone => ?_⟩
  · simp [FramePhase.hands, FramePhase.returned, or_comm]
  · intro i hi
    rw [List.mem_singleton.mp hi]
    exact hothers
  · refine ⟨fe, ?_, rfl⟩
    rw [hunmaps.frames]
    exact hfe
  · rw [hunmaps.mapped]
    split
    · rfl
    · exact hnone

/-- The owner or the address in the entry of a frame in hands is set. -/
theorem ThreadInv.rename (h : ThreadInv t others s p) (hp : p.hands = [page])
    (hq : q.hands = [page]) (hnull : q.noPagedir = false) {g : FrameEntry → FrameEntry}
    (hg : ∀ fe, (g fe).page = fe.page)
    (hframes : s'.frameHash = s.frameHash.map fun fe => if fe.page = page then g fe else fe)
    (hpool : s'.userPool = s.userPool) (hmapped : ∀ u v, s'.mapped u v = s.mapped u v)
    (hentry : q.EntryInv t s') : ThreadStep t others s s' q := by
  have hheld : page ∈ p.hands := by
    rw [hp]
    exact List.mem_cons_self
  have hmem : ∀ fe : FrameEntry, fe.page ≠ page → (fe ∈ s'.frameHash ↔ fe ∈ s.frameHash) := by
    intro fe hne
    rw [hframes, List.mem_map]
    constructor
    · rintro ⟨fe', hfe', rfl⟩
      split at hne
      · rename_i hpage
        exact absurd ((hg fe').trans hpage) hne
      · rename_i hpage
        rw [if_neg hpage]
        exact hfe'
    · intro hfe
      exact ⟨fe, hfe, if_neg hne⟩
  have htable := h.table.rename (.inl hheld) hg hframes hpool hmapped
  refine ⟨⟨?_, ?_, ?_, hentry, fun htrue => ?_⟩, .of_entries hmem (h.fresh page hheld) hmapped⟩
  · rw [hq, ← hp]
    exact htable
  · rw [hq, ← hp]
    exact h.fresh
  · rw [hq, ← hp]
    exact h.nodup
  · rw [hnull] at htrue
    cases htrue

/-! ### Mapping a frame and giving it back -/

theorem ThreadInv.map (h : ThreadInv t others s (.setPage caller page))
    (hmaps : s.Maps t caller.vaddr page s') : ThreadStep t others s s' (.mapped caller) := by
  have htable := h.table.map h.entry (.inl List.mem_cons_self) caller.vaddr_aligned hmaps.user
    hmaps.none hmaps.frames hmaps.pool hmaps.mapped
  refine ⟨⟨htable.of_iff fun i => ?_, nofun, List.nodup_nil, trivial, nofun⟩,
    .of_frames hmaps.frames fun u v hu hnone => ?_⟩
  · have hfresh := h.fresh page List.mem_cons_self
    show i ∈ [] ∨ others i ↔ (i ∈ [page] ∨ others i) ∧ i ≠ page
    rw [List.mem_singleton]
    constructor
    · rintro (hi | hi)
      · cases hi
      · refine ⟨.inr hi, ?_⟩
        rintro rfl
        exact hfresh hi
    · rintro ⟨rfl | hi, hne⟩
      · exact absurd rfl hne
      · exact .inr hi
  · rw [hmaps.mapped, if_neg fun h => hu h.1, hnone]

theorem ThreadInv.remove {exiting : Option Nat} {rest : List Nat}
    (h : ThreadInv t others s (.hashDelete exiting page rest))
    (hframes : s'.frameHash.Perm (s.frameHash.filter fun fe => fe.page ≠ page))
    (hpool : s'.userPool = s.userPool) (hmapped : ∀ u v, s'.mapped u v = s.mapped u v) :
    ThreadStep t others s s' (.pallocFree exiting page rest) := by
  obtain ⟨htable, hnotIn⟩ := h.table.remove (.inl List.mem_cons_self) hframes hpool hmapped
  have hmem : ∀ fe : FrameEntry, fe.page ≠ page → (fe ∈ s'.frameHash ↔ fe ∈ s.frameHash) := by
    intro fe hne
    rw [hframes.mem_iff, List.mem_filter]
    simp [hne]
  refine ⟨⟨htable, h.fresh, h.nodup, hnotIn, fun hnull v => ?_⟩,
    .of_entries hmem (h.fresh page List.mem_cons_self) hmapped⟩
  rw [hmapped]
  refine h.unmapped ?_ v
  cases exiting with
  | none => cases hnull
  | some kernelPages => rfl

theorem ThreadInv.giveBack {exiting : Option Nat} {rest : List Nat}
    (h : ThreadInv t others s (.pallocFree exiting page rest))
    (hframes : s'.frameHash = s.frameHash)
    (hpool : s'.userPool = s.userPool.setMultiple page 1 false)
    (hmapped : ∀ u v, s'.mapped u v = s.mapped u v) :
    ThreadStep t others s s' (.frameFree exiting rest) := by
  have htable := h.table.giveBack h.entry hframes hpool hmapped
  obtain ⟨hpage, hrest⟩ := List.nodup_cons.mp h.nodup
  have hfresh := h.fresh page List.mem_cons_self
  refine ⟨⟨htable.of_iff fun i => ?_, fun i hi => h.fresh i (List.mem_cons_of_mem _ hi), hrest,
    trivial, fun hnull v => ?_⟩, .of_frames hframes fun u v _ hnone => by rw [hmapped, hnone]⟩
  · show i ∈ rest ∨ others i ↔ (i ∈ page :: rest ∨ others i) ∧ i ≠ page
    rw [List.mem_cons]
    constructor
    · rintro (hi | hi)
      · refine ⟨.inl (.inr hi), ?_⟩
        rintro rfl
        exact hpage hi
      · refine ⟨.inr hi, ?_⟩
        rintro rfl
        exact hfresh hi
    · rintro ⟨(rfl | hi) | hi, hne⟩
      · exact absurd rfl hne
      · exact .inl hi
      · exact .inr hi
  · rw [hmapped]
    refine h.unmapped ?_ v
    cases exiting with
    | none => cases hnull
    | some kernelPages => rfl

/-- The frames of the present pages of a process are in its hands once it has no page directory. -/
theorem ThreadInv.detach (h : ThreadInv t others s .exit) (kernelPages : Nat) {pages : List Nat}
    (hpages : pages = (s.process t).pagedir.presentPages) :
    ThreadStep t others s (s.setPagedir t Pagedir.empty) (.frameFree (some kernelPages) pages) := by
  have hpresent : ∀ {i}, i ∈ pages ↔ ∃ v, v % pgSize = 0 ∧ v < physBase ∧ s.mapped t v = some i := by
    intro i
    rw [hpages]
    exact Pagedir.mem_presentPages
  have hmapped : ∀ u v, (s.setPagedir t Pagedir.empty).mapped u v =
      if u = t then none else s.mapped u v := by
    intro u v
    rw [Vm.mapped_setPagedir]
    rfl
  have htable : (s.setPagedir t Pagedir.empty).FrameInv _ := h.table.detach t rfl rfl hmapped
  have hlisted : ∀ v i, s.mapped t v = some i →
      ¬ others i ∧ ⟨i, t, pgRoundDown v⟩ ∈ s.frameHash := by
    intro v i hv
    obtain ⟨hfree, hin⟩ := h.table.listed t v i hv
    exact ⟨fun hothers => hfree (.inr hothers), hin⟩
  refine ⟨⟨htable.of_iff fun i => ?_, fun i hi => ?_, ?_, trivial, fun _ v => ?_⟩,
    .of_frames rfl fun u v hu hnone => ?_⟩
  · show i ∈ pages ∨ others i ↔ (i ∈ [] ∨ others i) ∨ ∃ v, s.mapped t v = some i
    rw [hpresent]
    constructor
    · rintro (⟨v, -, -, hv⟩ | hi)
      · exact .inr ⟨v, hv⟩
      · exact .inl (.inr hi)
    · rintro ((hi | hi) | ⟨v, hv⟩)
      · cases hi
      · exact .inr hi
      · refine .inl ⟨pgRoundDown v, pgRoundDown_aligned v, ?_, ?_⟩
        · have huser := h.table.user t v i hv
          exact lt_of_le_of_lt (Nat.div_mul_le_self _ _) huser
        · rw [← hv]
          exact Pagedir.getPage_round _ v
  · obtain ⟨v, -, -, hv⟩ := hpresent.mp hi
    exact (hlisted v i hv).1
  · show pages.Nodup
    rw [hpages]
    refine Pagedir.presentPages_nodup fun v u i hv hu hvi hui => ?_
    have hsame := h.table.unique (hlisted v i hvi).2 (hlisted u i hui).2 rfl
    have haddr := congrArg FrameEntry.threadVaddr hsame
    rwa [pgRoundDown_of_aligned hv, pgRoundDown_of_aligned hu] at haddr
  · rw [hmapped, if_pos rfl]
  · rw [hmapped, if_neg hu, hnone]

/-! ### Every instruction -/

/-- A routine that leaves the frame table alone. -/
theorem ThreadInv.attempt {α : Type} {s : VmShared} {routine : VmRoutine α}
    {next : α → FramePhase} {r : VmShared × FramePc} (h : ThreadInv t others s.toVm p)
    (hr : r = FramePc.attempt ⟨t, p⟩ routine next s)
    (hframes : ∀ {a vm}, routine s.toVm = .ok (a, vm) → s.toVm.SameFrames vm)
    (hnext : ∀ a, (next a).hands = p.hands ∧ (next a).noPagedir = false ∧
      (p.EntryInv t s.toVm → (next a).EntryInv t s.toVm)) :
    ThreadStep t others s.toVm r.1.toVm r.2.phase := by
  subst hr
  rcases FramePc.attempt_cases ⟨t, p⟩ routine next s with ⟨a, vm, hrun, hr⟩ | ⟨fault, hr⟩
  · rw [hr]
    obtain ⟨hhands, hnull, hentry⟩ := hnext a
    refine h.quiet (hframes hrun) hhands hentry fun htrue => ?_
    rw [hnull] at htrue
    cases htrue
  · rw [hr]
    exact h.quiet (.refl _) rfl (fun _ => trivial) id

theorem ThreadInv.pageOutVictim {s : VmShared} (h : ThreadInv t others s.toVm (.pageOut caller page))
    (hothers : (FramePc.pageOutVictim t caller page s).2.phase = .setOwner caller page →
      ¬ others page) :
    ThreadStep t others s.toVm (FramePc.pageOutVictim t caller page s).1.toVm
      (FramePc.pageOutVictim t caller page s).2.phase := by
  unfold FramePc.pageOutVictim at hothers ⊢
  cases hfind : FramePc.find s.toVm page with
  | none => exact h.quiet (.refl _) rfl (fun _ => trivial) id
  | some fe =>
    rw [hfind] at hothers
    dsimp only at hothers ⊢
    cases hout : pageOutEvictedFrame t fe s.toVm with
    | error fault => exact h.quiet (.refl _) rfl (fun _ => trivial) id
    | ok result =>
      rw [hout] at hothers
      dsimp only at hothers ⊢
      obtain ⟨hfe, hpage⟩ := mem_of_find hfind
      split
      · exact h.quiet (.refl _) rfl (fun _ => trivial) nofun
      · rename_i hpd
        rw [if_neg hpd] at hothers
        exact h.evict hfe hpage (hothers rfl) (pageOutEvictedFrame_unmaps hout).2

/-- A step keeps what is known of the thread and the others' frames, if the frame that it evicts is
in nobody's hands. -/
theorem ThreadInv.step (horder : ∀ fes, (order fes).Perm fes) {s : VmShared}
    {r : VmShared × FramePc} (h : ThreadInv t others s.toVm p)
    (hr : (FramePc.program order bucket ⟨t, p⟩).Leads s r)
    (hothers : ∀ caller page, p = .pageOut caller page → r.2.phase = .setOwner caller page →
      ¬ others page) : ThreadStep t others s.toVm r.1.toVm r.2.phase := by
  cases p with
  | unborn | idle | dead | panicked _ _ | noPd => exact hr.elim
  | load =>
    obtain rfl := hr
    dsimp only
    split
    · exact h.quiet (.refl _) rfl (fun _ => trivial) fun _ => rfl
    · refine h.quiet ⟨rfl, rfl, fun u v => ?_⟩ rfl (fun _ => trivial) nofun
      refine (Vm.mapped_setPagedir s.toVm t Pagedir.empty u v).trans ?_
      split
      · rename_i hu
        subst hu
        exact (h.unmapped rfl v).symm
      · rfl
  | call call =>
    exact h.attempt hr ProcessCall.exec_frames fun _ => ⟨rfl, rfl, fun _ => trivial⟩
  | pageFault faultAddr esp =>
    obtain rfl := hr
    have hnext : (FramePc.handleFault t faultAddr esp s.toVm).hands = [] ∧
        (FramePc.handleFault t faultAddr esp s.toVm).noPagedir = false ∧
        (FramePc.handleFault t faultAddr esp s.toVm).EntryInv t s.toVm := by
      unfold FramePc.handleFault
      split
      · exact ⟨rfl, rfl, trivial⟩
      · split
        · split
          · exact ⟨rfl, rfl, trivial⟩
          · split <;> exact ⟨rfl, rfl, trivial⟩
        · exact ⟨rfl, rfl, trivial⟩
    refine h.quiet (.refl _) hnext.1 (fun _ => hnext.2.2) fun htrue => ?_
    rw [hnext.2.1] at htrue
    cases htrue
  | palloc caller =>
    obtain rfl := hr
    unfold FramePc.getPage
    split
    · rename_i page pool hscan
      exact h.take hscan rfl rfl fun _ _ => rfl
    · exact h.quiet (.refl _) rfl (fun _ => trivial) nofun
  | hashAdd caller page =>
    obtain rfl := hr
    exact h.quiet (.refl _) rfl id nofun
  | hashInsert caller page =>
    obtain rfl := hr
    refine h.insert ?_ rfl fun _ _ => rfl
    rw [← pgRoundDown_of_aligned caller.vaddr_aligned]
    rw [pgRoundDown_of_aligned (pgRoundDown_aligned _)]
    exact horder _
  | evict caller =>
    obtain rfl := hr
    exact h.quiet (.refl _) rfl (fun _ => trivial) nofun
  | select caller rest =>
    cases rest with
    | nil =>
      obtain rfl := hr
      exact h.quiet (.refl _) rfl (fun _ => trivial) nofun
    | cons page rest =>
      obtain rfl := hr
      unfold FramePc.inspect
      split
      · exact h.quiet (.refl _) rfl (fun _ => trivial) nofun
      · split
        · exact h.quiet (.refl _) rfl (fun _ => trivial) nofun
        · dsimp only
          split
          · exact h.quiet (.setAccessed _ _ _ _) rfl (fun _ => trivial) nofun
          · exact h.quiet (.refl _) rfl (fun _ => trivial) nofun
  | pageOut caller page =>
    obtain rfl := hr
    exact h.pageOutVictim (hothers caller page rfl)
  | setOwner caller page =>
    obtain rfl := hr
    obtain ⟨fe, hfe, hpage⟩ := h.entry
    refine h.rename (g := fun fe => { fe with owner := t }) rfl rfl rfl (fun _ => rfl) rfl rfl
      (fun _ _ => rfl) ⟨fe.threadVaddr, List.mem_map.mpr ⟨fe, hfe, ?_⟩⟩
    rw [if_pos hpage, hpage]
  | setVaddr caller page =>
    obtain rfl := hr
    obtain ⟨v, hv⟩ := h.entry
    exact h.rename (g := fun fe => { fe with threadVaddr := caller.vaddr }) rfl rfl rfl
      (fun _ => rfl) rfl rfl (fun _ _ => rfl) (List.mem_map.mpr ⟨_, hv, if_pos rfl⟩)
  | received caller page =>
    refine h.attempt hr FrameCaller.fill_frames fun read => ?_
    cases read with
    | true => exact ⟨rfl, rfl, id⟩
    | false => exact ⟨rfl, rfl, fun _ => trivial⟩
  | setPage caller page =>
    obtain rfl := hr
    rcases FramePc.attempt_cases ⟨t, .setPage caller page⟩ (caller.install t page)
      (fun pgdir => if pgdir then FramePhase.mapped caller else .frameFree none [page]) s with
      ⟨pgdir, vm, hrun, hr⟩ | ⟨fault, hr⟩
    · rw [hr]
      rcases FrameCaller.install_maps hrun with ⟨rfl, rfl⟩ | ⟨rfl, hmaps⟩
      · exact h.quiet (.refl _) rfl (fun _ => trivial) nofun
      · exact h.map hmaps
    · rw [hr]
      exact h.quiet (.refl _) rfl (fun _ => trivial) id
  | mapped caller =>
    exact h.attempt hr FrameCaller.finish_frames fun _ => ⟨rfl, rfl, fun _ => trivial⟩
  | frameFree exiting pages =>
    cases pages with
    | nil =>
      cases exiting with
      | none =>
        obtain rfl := hr
        exact h.quiet (.refl _) rfl (fun _ => trivial) nofun
      | some kernelPages =>
        obtain rfl := hr
        exact h.quiet ((Vm.SameFrames.setPtSuppl s.toVm t PtSuppl.empty).trans
          ⟨rfl, rfl, fun _ _ => rfl⟩) rfl (fun _ => trivial) fun _ => rfl
    | cons page rest =>
      cases exiting with
      | none =>
        obtain rfl := hr
        exact h.quiet (.refl _) rfl (fun _ => trivial) nofun
      | some kernelPages =>
        obtain rfl := hr
        exact h.quiet (.refl _) rfl (fun _ => trivial) fun _ => rfl
  | hashDelete exiting page rest =>
    obtain rfl := hr
    exact h.remove (horder _) rfl fun _ _ => rfl
  | pallocFree exiting page rest =>
    obtain rfl := hr
    exact h.giveBack rfl rfl fun _ _ => rfl
  | exit =>
    obtain rfl := hr
    exact h.detach _ rfl

/-! ### Runs -/

/-- The frame is in the hands of a thread other than `t`. -/
def FrameConfig.InOtherHands (c : FrameConfig) (t page : Nat) : Prop :=
  ∃ u, u ≠ t ∧ page ∈ (c.pc u).phase.hands

/-- The frames of every thread, in every state. -/
structure FrameThreadsInv (c : FrameConfig) : Prop where
  pagedir : PagedirInv c
  thread : ∀ t, ThreadInv t (c.InOtherHands t) c.shared.toVm (c.pc t).phase

/-- If the step takes a frame out, then one that is in nobody's hands. -/
def EvictsUnheld (c c' : FrameConfig) : Prop :=
  ∀ t caller page, (c.pc t).phase = .pageOut caller page →
    (c'.pc t).phase = .setOwner caller page → ∀ u, page ∉ (c.pc u).phase.hands

/-- If the step takes a frame out, then one that its owner has mapped. -/
def EvictsMapped (c c' : FrameConfig) : Prop :=
  ∀ t caller page, (c.pc t).phase = .pageOut caller page →
    (c'.pc t).phase = .setOwner caller page → ∃ fe ∈ c.shared.frameHash, fe.page = page ∧
      c.shared.mapped fe.owner fe.threadVaddr = some page

/-- A call of `vm_frame_alloc` by thread `t` has returned the frame, which is not yet mapped, or is
mapped at page `v`. -/
def FrameConfig.Owns (c : FrameConfig) (t : Nat) (v : Option Nat) (page : Nat) : Prop :=
  match v with
  | none => page ∈ (c.pc t).phase.returned
  | some v => v % pgSize = 0 ∧ c.shared.mapped t v = some page

/-- No frame belongs to two calls of `vm_frame_alloc`. -/
def FrameConfig.Exclusive (c : FrameConfig) : Prop :=
  ∀ {t u v w page}, c.Owns t v page → c.Owns u w page → t = u ∧ v = w

variable {c c' : FrameConfig}

/-- What a step of a thread does to its frames. -/
theorem FrameThreadsInv.threadStep (horder : ∀ fes, (order fes).Perm fes) (h : FrameThreadsInv c)
    (hstep : Step (FramePc.program order bucket) FramePc.start c t c')
    (hunheld : EvictsUnheld c c') :
    ThreadStep t (c.InOtherHands t) c.shared.toVm c'.shared.toVm (c'.pc t).phase := by
  cases hstep with
  | instr hexec =>
    have hpc : c.pc t = ⟨t, (c.pc t).phase⟩ := FramePc.ext (h.pagedir.current t) rfl
    have hleads := hexec.leads
    rw [hpc] at hleads
    refine (h.thread t).step horder hleads fun caller page hp hq => ?_
    rintro ⟨u, -, hu⟩
    exact hunheld t caller page hp hq u hu
  | start hstart =>
    rename_i q
    obtain ⟨-, hstarts⟩ := hstart
    rw [LockProgram.Config.jump_pc]
    have hnext : q.phase.hands = (c.pc t).phase.hands ∧ q.phase.EntryInv t c.shared.toVm ∧
        (q.phase.noPagedir = true → (c.pc t).phase.noPagedir = true) := by
      unfold FramePc.starts at hstarts
      split at hstarts
      · rename_i hp hq
        rw [hp, hq]
        exact ⟨rfl, trivial, id⟩
      · rename_i hp hq
        rw [hp, hq]
        exact ⟨rfl, trivial, id⟩
      · rename_i hp hq
        rw [hp, hq]
        exact ⟨rfl, trivial, id⟩
      · rename_i hp hq
        rw [hp, hq]
        exact ⟨rfl, trivial, id⟩
      · rename_i hp hq
        rw [hp, hq]
        exact ⟨rfl, trivial, id⟩
      · cases hstarts
    exact (h.thread t).quiet (.refl _) hnext.1 (fun _ => hnext.2.1) hnext.2.2

theorem FrameThreadsInv.step (horder : ∀ fes, (order fes).Perm fes) (h : FrameThreadsInv c)
    (hstep : Step (FramePc.program order bucket) FramePc.start c t c')
    (hunheld : EvictsUnheld c c') : FrameThreadsInv c' := by
  obtain ⟨hinv, hkept⟩ := h.threadStep horder hstep hunheld
  have hother : ∀ page, c'.InOtherHands t page ↔ c.InOtherHands t page := by
    intro page
    refine exists_congr fun u => and_congr_right fun hu => ?_
    rw [hstep.pc_ne hu]
  refine ⟨h.pagedir.step horder hstep, fun u => ?_⟩
  by_cases hu : u = t
  · subst hu
    have hsame : c'.InOtherHands u = c.InOtherHands u :=
      funext fun page => propext (hother page)
    rw [hsame]
    exact hinv
  -- another thread: its frames stay in its hands, and `t` takes none of them
  rw [hstep.pc_ne hu]
  have hu' := h.thread u
  have hmine : ∀ page, page ∈ (c.pc u).phase.hands → c.InOtherHands t page :=
    fun page hpage => ⟨u, hu, hpage⟩
  constructor
  · refine hinv.table.of_iff fun page => ?_
    constructor
    · rintro (hpage | ⟨w, hw, hpage⟩)
      · exact .inr (hmine page hpage)
      · by_cases hwt : w = t
        · subst hwt
          exact .inl hpage
        · rw [hstep.pc_ne hwt] at hpage
          exact .inr ⟨w, hwt, hpage⟩
    · rintro (hpage | ⟨w, hw, hpage⟩)
      · exact .inr ⟨t, Ne.symm hu, hpage⟩
      · by_cases hwu : w = u
        · subst hwu
          exact .inl hpage
        · refine .inr ⟨w, hwu, ?_⟩
          rwa [hstep.pc_ne hw]
  · rintro page hpage ⟨w, hw, hpage'⟩
    by_cases hwt : w = t
    · subst hwt
      exact hinv.fresh page hpage' (hmine page hpage)
    · rw [hstep.pc_ne hwt] at hpage'
      exact hu'.fresh page hpage ⟨w, hw, hpage'⟩
  · exact hu'.nodup
  · exact hu'.entry.congr fun fe hfe => hkept.entries fe (hmine fe.page hfe)
  · intro hnull v
    exact hkept.unmapped u v hu (hu'.unmapped hnull v)

theorem FrameThreadsInv.initial (s : Vm) : FrameThreadsInv (.initial s) where
  pagedir := ⟨fun _ => rfl, fun _ => rfl⟩
  thread t := by
    refine ⟨⟨List.nodup_nil, nofun, ?_, nofun, nofun, nofun⟩, nofun, List.nodup_nil, trivial,
      fun _ _ => rfl⟩
    rintro page (hpage | ⟨u, -, hpage⟩) <;> cases hpage

/-- A mapped frame is in nobody's hands. -/
theorem FrameThreadsInv.not_in_hands (h : FrameThreadsInv c) {u v : Nat}
    (hmapped : c.shared.mapped u v = some page) (t : Nat) : page ∉ (c.pc t).phase.hands :=
  fun hpage => ((h.thread t).table.listed u v page hmapped).1 (.inl hpage)

theorem FrameThreadsInv.exclusive (h : FrameThreadsInv c) : c.Exclusive := by
  intro t u v w page hv hw
  cases v with
  | none =>
    have hpage := FramePhase.returned_subset_hands _ hv
    cases w with
    | none =>
      by_cases htu : t = u
      · exact ⟨htu, rfl⟩
      · have hpage' := FramePhase.returned_subset_hands _ hw
        exact absurd ⟨u, Ne.symm htu, hpage'⟩ ((h.thread t).fresh page hpage)
    | some w => exact absurd hpage (h.not_in_hands hw.2 t)
  | some v =>
    cases w with
    | none => exact absurd (FramePhase.returned_subset_hands _ hw) (h.not_in_hands hv.2 u)
    | some w =>
      obtain ⟨halign, hv⟩ := hv
      obtain ⟨halign', hw⟩ := hw
      have hsame := (h.thread t).table.unique ((h.thread t).table.listed t v page hv).2
        ((h.thread t).table.listed u w page hw).2 rfl
      have haddr := congrArg FrameEntry.threadVaddr hsame
      rw [pgRoundDown_of_aligned halign, pgRoundDown_of_aligned halign'] at haddr
      exact ⟨congrArg FrameEntry.owner hsame, congrArg some haddr⟩

/-- A thread takes out a frame that it finds in the table. -/
theorem Step.finds_victim (h : Step (FramePc.program order bucket) FramePc.start c t c')
    (hcurrent : (c.pc t).current = t) (hp : (c.pc t).phase = .pageOut caller page)
    (hq : (c'.pc t).phase = .setOwner caller page) :
    ∃ fe ∈ c.shared.frameHash, fe.page = page := by
  cases h with
  | instr hexec =>
    have hpc : c.pc t = ⟨t, .pageOut caller page⟩ := FramePc.ext hcurrent hp
    have hleads := hexec.leads
    rw [hpc] at hleads
    replace hleads : (c'.shared, c'.pc t) = FramePc.pageOutVictim t caller page c.shared := hleads
    unfold FramePc.pageOutVictim at hleads
    cases hfind : FramePc.find c.shared.toVm page with
    | none =>
      rw [hfind] at hleads
      obtain ⟨-, hphase⟩ := Prod.mk.inj hleads
      rw [hphase] at hq
      cases hq
    | some fe =>
      obtain ⟨hfe, hpage⟩ := mem_of_find hfind
      exact ⟨fe, hfe, hpage⟩
  | start hstart =>
    obtain ⟨-, hstarts⟩ := hstart
    rw [hp] at hstarts
    cases hstarts

/-- A step takes out a frame that its owner has mapped exactly if the frame is in nobody's hands. -/
theorem FrameThreadsInv.evictsUnheld_iff (h : FrameThreadsInv c)
    (hstep : FrameStep order bucket c c') : EvictsUnheld c c' ↔ EvictsMapped c c' := by
  constructor
  · intro hunheld t caller page hp hq
    obtain ⟨u, hstep⟩ := hstep
    obtain rfl : t = u := by
      by_contra htu
      rw [hstep.pc_ne htu, hp] at hq
      cases hq
    obtain ⟨fe, hfe, rfl⟩ := Step.finds_victim hstep (h.pagedir.current t) hp hq
    refine ⟨fe, hfe, rfl, ((h.thread t).table.backed fe hfe ?_).2⟩
    rintro (hpage | ⟨u, -, hpage⟩)
    · exact hunheld t caller fe.page hp hq t hpage
    · exact hunheld t caller fe.page hp hq u hpage
  · intro hmapped t caller page hp hq u
    obtain ⟨fe, hfe, rfl, hback⟩ := hmapped t caller page hp hq
    exact h.not_in_hands hback u

theorem FrameThreadsInv.exclusive_iff (horder : ∀ fes, (order fes).Perm fes)
    (h : FrameThreadsInv c) {cs : List FrameConfig}
    (hrun : (c :: cs).IsChain (FrameStep order bucket)) :
    ((∀ d ∈ c :: cs, d.Exclusive) ∧ (c :: cs).IsChain EvictsMapped) ↔
      (c :: cs).IsChain EvictsUnheld := by
  induction cs generalizing c with
  | nil =>
    refine iff_of_true ⟨fun d hd => ?_, List.isChain_singleton c⟩ (List.isChain_singleton c)
    rw [List.mem_singleton.mp hd]
    exact h.exclusive
  | cons b bs ih =>
    obtain ⟨hfirst, hrun⟩ := List.isChain_cons_cons.mp hrun
    have hnext : EvictsUnheld c b → FrameThreadsInv b := by
      obtain ⟨t, hstep⟩ := hfirst
      exact h.step horder hstep
    rw [List.isChain_cons_cons, List.isChain_cons_cons, ← h.evictsUnheld_iff hfirst]
    constructor
    · rintro ⟨hall, hunheld, hchain⟩
      refine ⟨hunheld, (ih (hnext hunheld) hrun).mp ⟨fun d hd => ?_, hchain⟩⟩
      exact hall d (List.mem_cons_of_mem _ hd)
    · rintro ⟨hunheld, hchain⟩
      obtain ⟨hall, hmapped⟩ := (ih (hnext hunheld) hrun).mpr hchain
      refine ⟨fun d hd => ?_, hunheld, hmapped⟩
      rcases List.mem_cons.mp hd with rfl | hd
      · exact h.exclusive
      · exact hall d hd

/-- In a run of any number of threads from the start of the machine, frames are handed out
exclusively and only mapped pages are taken out, if and only if no frame is taken out while a
thread has it in its hands. -/
theorem frames_exclusive_iff (bucket : PtSuppl → List Nat) (horder : ∀ fes, (order fes).Perm fes)
    (s : Vm) (cs : List FrameConfig)
    (hrun : (.initial s :: cs).IsChain (FrameStep order bucket)) :
    ((∀ c ∈ .initial s :: cs, FrameConfig.Exclusive c) ∧
        (.initial s :: cs).IsChain EvictsMapped) ↔
      (.initial s :: cs).IsChain EvictsUnheld :=
  (FrameThreadsInv.initial s).exclusive_iff horder hrun

/-- Moves that take out no frame that process 0 or 1 has in its hands. -/
def unheldVictims (c : FrameConfig) (t : Nat) : Option FramePc → Bool
  | none =>
    match (c.pc t).phase with
    | .pageOut _ page => [0, 1].all fun u => page ∉ (c.pc u).phase.hands
    | _ => true
  | some p => FramePc.start (c.pc t) p

theorem evictsUnheld_of_check {c c' : FrameConfig} {t : Nat} {task : Option FramePc}
    (hstep : Step (FramePc.program id fun _ => []) FramePc.start c t c')
    (h : unheldVictims c t task = true)
    (hothers : ∀ u, u ≠ 0 → u ≠ 1 → (c.pc u).phase.hands = []) : EvictsUnheld c c' := by
  intro t' caller page hout hset u hmem
  have hsame : t' = t := by
    by_contra hne
    rw [hstep.pc_ne hne, hout] at hset
    cases hset
  subst hsame
  cases task with
  | none =>
    rw [unheldVictims, hout] at h
    by_cases h0 : u = 0
    · have hnot := List.all_eq_true.mp h u (by simp [h0])
      exact of_decide_eq_true hnot hmem
    · by_cases h1 : u = 1
      · have hnot := List.all_eq_true.mp h u (by simp [h1])
        exact of_decide_eq_true hnot hmem
      · rw [hothers u h0 h1] at hmem
        exact absurd hmem List.not_mem_nil
  | some p =>
    obtain ⟨-, hstarts⟩ := of_decide_eq_true h
    rw [hout] at hstarts
    cases hstarts

/-- The frame is taken from process 0 once it has mapped it. -/
theorem frames_exclusive_iff_frameTaken : ∃ cs : List FrameConfig,
    (.initial oneFrameVm :: cs).IsChain (FrameStep id fun _ => []) ∧
    (∃ c ∈ cs, c.shared.mapped 0 (physBase - pgSize) = some 0) ∧
    (∃ c ∈ cs, c.shared.mapped 1 (physBase - pgSize) = some 0) ∧
    (∀ c ∈ .initial oneFrameVm :: cs, FrameConfig.Exclusive c) ∧
    (.initial oneFrameVm :: cs).IsChain EvictsMapped := by
  have hfollow : ((follow (FramePc.program id fun _ => []) unheldVictims frameTaken
      (FrameConfig.initial oneFrameVm)).any fun cs => decide
        ((∃ c ∈ cs, c.shared.mapped 0 (physBase - pgSize) = some 0) ∧
          ∃ c ∈ cs, c.shared.mapped 1 (physBase - pgSize) = some 0)) = true := by
    decide +kernel
  obtain ⟨cs, hcs, hmaps⟩ := (Option.any_eq_true _ _).mp hfollow
  obtain ⟨hfirst, hsecond⟩ := of_decide_eq_true hmaps
  have hstart : ∀ (c : FrameConfig) t p, unheldVictims c t (some p) = true → FramePc.start (c.pc t) p :=
    fun c t p h => of_decide_eq_true h
  have hchain := isChain_of_follow hstart hcs
  have hrun : (FrameConfig.initial oneFrameVm :: cs).IsChain (FrameStep id fun _ => []) :=
    isChain_step_of_follow hstart hcs
  have hunheld : (FrameConfig.initial oneFrameVm :: cs).IsChain EvictsUnheld := by
    refine hchain.imp fun c c' h => ?_
    obtain ⟨t, task, hstep, hallowed, hsame⟩ := h
    refine evictsUnheld_of_check hstep hallowed fun u h0 h1 => ?_
    rw [hsame u (by simp [frameTaken, Ne.symm h0, Ne.symm h1])]
    rfl
  exact ⟨cs, hrun, hfirst, hsecond, (frames_exclusive_iff (fun _ => [])
    (fun _ => List.Perm.refl _) oneFrameVm cs hrun).mpr hunheld⟩

/-- Process 0 has a frame for its stack page but has not mapped it when process 1 needs a frame. -/
def evictBeforeMapping : List (Nat × FramePc × Nat) :=
  [(0, ⟨0, .load⟩, 1), (1, ⟨1, .load⟩, 1), (0, ⟨0, .palloc .setupStack⟩, 3),
    (1, ⟨1, .palloc .setupStack⟩, 7)]

/-- Both processes get the one frame. -/
theorem frame_handed_out_twice : ∃ c, LockProgram.Reach (FramePc.program id fun _ => [])
    FramePc.start (FrameConfig.initial oneFrameVm) c ∧ ¬ FrameConfig.Exclusive c := by
  have hplay : ((LockProgram.play (FramePc.program id fun _ => []) FramePc.start evictBeforeMapping
      (FrameConfig.initial oneFrameVm)).any fun c =>
        (c.pc 0).phase.returned = [0] ∧ (c.pc 1).phase.returned = [0]) = true := by decide +kernel
  obtain ⟨c, hc, hboth⟩ := (Option.any_eq_true _ _).mp hplay
  obtain ⟨h0, h1⟩ := of_decide_eq_true hboth
  refine ⟨c, LockProgram.reach_of_play hc, fun hexclusive => ?_⟩
  have howns : FrameConfig.Owns c 0 none 0 ∧ FrameConfig.Owns c 1 none 0 := by
    unfold FrameConfig.Owns
    rw [h0, h1]
    exact ⟨List.mem_cons_self, List.mem_cons_self⟩
  exact Nat.zero_ne_one (hexclusive howns.1 howns.2).1

end Pintos
