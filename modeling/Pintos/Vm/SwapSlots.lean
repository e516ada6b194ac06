import Pintos.Vm.Effects

/-! The swap slots over runs of page-ins, evictions and exits.  An eviction takes a slot and a page-in
gives it back, so the used slots are those that entries name; a process that exits with a page in swap
leaves its slot used for good. -/

namespace Pintos

namespace Bitmap

/-- A slot of the swap bitmap is used; the bit of a free slot is set. -/
def Used (b : Bitmap) (slot : Nat) : Prop := slot < b.bitCnt ∧ b.bits slot = false

/-- A slot taken by `bitmap_scan_and_flip` was free, and no other slot changes. -/
theorem used_scanAndFlip {b b' : Bitmap} {i : Nat} (h : b.scanAndFlip 0 1 true = some (i, b')) :
    ¬ b.Used i ∧ ∀ slot, b'.Used slot ↔ slot = i ∨ b.Used slot := by
  rw [scanAndFlip, Option.map_eq_some_iff] at h
  obtain ⟨j, hscan, hflip⟩ := h
  obtain ⟨rfl, rfl⟩ := Prod.mk.inj hflip
  obtain ⟨hlt, hbit⟩ := scan_one hscan
  refine ⟨fun hused => ?_, fun slot => ?_⟩
  · rw [Used, hbit] at hused
    exact nomatch hused.2
  · by_cases hslot : slot = j
    · subst hslot
      simp [Used, setMultiple, hlt]
    · have hout : ¬ (j ≤ slot ∧ slot < j + 1) := by omega
      simp only [Used, setMultiple, if_neg hout, hslot, false_or]

theorem used_flip {b : Bitmap} {i : Nat} (h : b.Used i) (slot : Nat) :
    (b.flip i).Used slot ↔ b.Used slot ∧ slot ≠ i := by
  by_cases hslot : slot = i
  · subst hslot
    simp [Used, flip, h.2]
  · simp [Used, flip, hslot]

end Bitmap

namespace Vm

/-- The entry of page `pg` of process `p` says that the page is in slot `slot`. -/
def SwappedIn (s : Vm) (p pg slot : Nat) : Prop :=
  ∃ e, s.entry p pg = some e ∧ e.presence = .swapped ∧ e.swapSlot = slot

/-- The used slots are those that entries name, each named once. -/
structure SlotsAccounted (s : Vm) : Prop where
  used : ∀ slot, s.swapBm.Used slot ↔ ∃ p pg, s.SwappedIn p pg slot
  unique : ∀ {p pg q pg' slot}, s.SwappedIn p pg slot → s.SwappedIn q pg' slot → p = q ∧ pg = pg'

/-- The state after `swap_init`, before any page has been installed. -/
structure Booted (s : Vm) : Prop where
  entry : ∀ p pg, s.entry p pg = none
  swapBm : ∃ bitCnt, s.swapBm = Bitmap.ofAll bitCnt true

/-- The slots are accounted for, and no page of a mapped file is in swap. -/
structure SlotsInv (s : Vm) : Prop where
  accounted : s.SlotsAccounted
  mmf : ∀ {p pg e}, s.entry p pg = some e → e.type = .mmf → e.presence ≠ .swapped

/-- Every slot that an entry names is used and named once, and no page of a mapped file is in swap.
This half of the invariant survives the end of any process. -/
structure SlotsHeld (s : Vm) : Prop where
  used : ∀ {p pg slot}, s.SwappedIn p pg slot → s.swapBm.Used slot
  unique : ∀ {p pg q pg' slot}, s.SwappedIn p pg slot → s.SwappedIn q pg' slot → p = q ∧ pg = pg'
  mmf : ∀ {p pg e}, s.entry p pg = some e → e.type = .mmf → e.presence ≠ .swapped

/-- Every used slot is named by an entry. -/
def SlotsNamed (s : Vm) : Prop := ∀ slot, s.swapBm.Used slot → ∃ p pg, s.SwappedIn p pg slot

/-- What a change does to the pages in swap and to the slots. -/
inductive SlotChange (s s' : Vm) : Prop
  | same (hswapped : ∀ p pg slot, s'.SwappedIn p pg slot ↔ s.SwappedIn p pg slot)
      (hbm : s'.swapBm = s.swapBm)
  | take (o v slot : Nat) (hscan : s.swapBm.scanAndFlip 0 1 true = some (slot, s'.swapBm))
      (hswapped : ∀ p pg k, s'.SwappedIn p pg k ↔
        (p = o ∧ pg = v ∧ k = slot) ∨ s.SwappedIn p pg k)
  | release (o v slot : Nat) (hself : s.SwappedIn o v slot)
      (hswapped : ∀ p pg k, s'.SwappedIn p pg k ↔ s.SwappedIn p pg k ∧ ¬ (p = o ∧ pg = v))
      (hbm : s'.swapBm = s.swapBm.flip slot)

variable {s s' : Vm} {p pg o v slot : Nat} {x : Option PtSupplEntry}

theorem slotsInv_iff : s.SlotsInv ↔ s.SlotsHeld ∧ s.SlotsNamed := by
  constructor
  · intro h
    exact ⟨⟨fun hs => (h.accounted.used _).mpr ⟨_, _, hs⟩, h.accounted.unique, h.mmf⟩,
      fun slot => (h.accounted.used slot).mp⟩
  · rintro ⟨hheld, hnamed⟩
    exact ⟨⟨fun slot => ⟨hnamed slot, fun ⟨_, _, hs⟩ => hheld.used hs⟩, hheld.unique⟩, hheld.mmf⟩

theorem Booted.slotsHeld (h : s.Booted) : s.SlotsHeld where
  used {p pg _} hs := by
    obtain ⟨e, he, -⟩ := hs
    rw [h.entry] at he
    cases he
  unique {p pg _ _ _} hs _ := by
    obtain ⟨e, he, -⟩ := hs
    rw [h.entry] at he
    cases he
  mmf {p pg e} he := by
    rw [h.entry] at he
    cases he

theorem Booted.slotsNamed (h : s.Booted) : s.SlotsNamed := by
  intro slot hused
  obtain ⟨bitCnt, hbm⟩ := h.swapBm
  rw [hbm] at hused
  exact nomatch hused.2

/-! ### A change of one entry -/

/-- A page other than the changed one. -/
theorem SetsEntry.swappedIn_ne (h : s.SetsEntry o v x s') (hne : ¬ (p = o ∧ pg = v)) :
    s'.SwappedIn p pg slot ↔ s.SwappedIn p pg slot := by
  rw [SwappedIn, SwappedIn, h p pg, if_neg hne]

/-- An entry changes that names no slot before and after. -/
theorem SetsEntry.swappedIn (h : s.SetsEntry o v x s')
    (hbefore : ∀ e, s.entry o v = some e → e.presence ≠ .swapped)
    (hafter : ∀ e, x = some e → e.presence ≠ .swapped) (p pg slot : Nat) :
    s'.SwappedIn p pg slot ↔ s.SwappedIn p pg slot := by
  by_cases hsame : p = o ∧ pg = v
  · obtain ⟨rfl, rfl⟩ := hsame
    rw [SwappedIn, SwappedIn, h p pg, if_pos ⟨rfl, rfl⟩]
    constructor
    · rintro ⟨e, he, hpresence, -⟩
      exact absurd hpresence (hafter e he)
    · rintro ⟨e, he, hpresence, -⟩
      exact absurd hpresence (hbefore e he)
  · exact h.swappedIn_ne hsame

/-- An eviction to swap makes an entry that names the slot. -/
theorem SetsEntry.swappedIn_take (hnone : s.entry o v = none)
    (h : s.SetsEntry o v (some ⟨v, .lazy, .swapped, slot, none⟩) s') (p pg k : Nat) :
    s'.SwappedIn p pg k ↔ (p = o ∧ pg = v ∧ k = slot) ∨ s.SwappedIn p pg k := by
  by_cases hsame : p = o ∧ pg = v
  · obtain ⟨rfl, rfl⟩ := hsame
    have hnot : ¬ s.SwappedIn p pg k := by
      rintro ⟨e, he, -⟩
      rw [hnone] at he
      cases he
    rw [SwappedIn, h p pg, if_pos ⟨rfl, rfl⟩, or_iff_left hnot]
    constructor
    · rintro ⟨e, he, -, hk⟩
      cases he
      exact ⟨rfl, rfl, hk.symm⟩
    · rintro ⟨-, -, rfl⟩
      exact ⟨_, rfl, rfl, rfl⟩
  · rw [h.swappedIn_ne hsame]
    constructor
    · exact Or.inr
    · rintro (⟨rfl, rfl, -⟩ | hs)
      · exact absurd ⟨rfl, rfl⟩ hsame
      · exact hs

theorem loadedEntry_not_swapped {e e' : PtSupplEntry} (h : loadedEntry e = some e') :
    e'.presence ≠ .swapped := by
  rw [loadedEntry] at h
  split at h
  · cases h
  · cases h
    simp

/-- A page-in leaves no entry that names the slot. -/
theorem SetsEntry.swappedIn_release {e : PtSupplEntry}
    (h : s.SetsEntry o v (loadedEntry e) s') (p pg k : Nat) :
    s'.SwappedIn p pg k ↔ s.SwappedIn p pg k ∧ ¬ (p = o ∧ pg = v) := by
  by_cases hsame : p = o ∧ pg = v
  · have hnot : ¬ s'.SwappedIn p pg k := by
      rintro ⟨e', he', hp', -⟩
      rw [h p pg, if_pos hsame] at he'
      exact loadedEntry_not_swapped he' hp'
    exact iff_of_false hnot fun h => h.2 hsame
  · rw [h.swappedIn_ne hsame]
    simp [hsame]

/-! ### The kinds of changes -/

/-- No page of a mapped file gets to swap. -/
theorem Change.slotsMmf (hchange : s.Change s')
    (hmmf : ∀ {p pg e}, s.entry p pg = some e → e.type = .mmf → e.presence ≠ .swapped)
    {e : PtSupplEntry} (he : s'.entry p pg = some e) (htype : e.type = .mmf) :
    e.presence ≠ .swapped := by
  have hsets : ∀ {o v x}, s.SetsEntry o v x s' →
      (∀ e, x = some e → e.type = .mmf → e.presence ≠ .swapped) → e.presence ≠ .swapped := by
    intro o v x hsets hx
    rw [hsets p pg] at he
    split at he
    · exact hx e he htype
    · exact hmmf he htype
  have hptSuppl : (∀ p, (s'.process p).ptSuppl = (s.process p).ptSuppl) →
      e.presence ≠ .swapped := by
    intro hp
    rw [Vm.entry, hp] at he
    exact hmmf he htype
  cases hchange with
  | same hsame => exact hptSuppl hsame.ptSuppl
  | clear o v hout hp hperm hbm => exact hptSuppl hp
  | map o v w hp hperm hbm => exact hptSuppl hp
  | swapOut o v slot hscan hnone hentry hperm =>
    refine hsets hentry fun e' he' htype' => ?_
    cases he'
    cases htype'
  | writeOut o v pt hpt htype' hentry hperm hbm =>
    refine hsets hentry fun e' he' _ => ?_
    cases he'
    simp
  | readIn o e' he' hpresence halign hmapped hentry hperm hbm =>
    exact hsets hentry fun e' he' _ => loadedEntry_not_swapped he'
  | swapIn o e' he' hpresence halign hmapped hentry hperm hbm =>
    exact hsets hentry fun e' he' _ => loadedEntry_not_swapped he'
  | add o e' hnone hpresence hentry hperm hbm =>
    refine hsets hentry fun e' he' _ => ?_
    cases he'
    rw [hpresence]
    simp
  | delete o e' he' htype' hentry hperm hbm => exact hsets hentry (by simp)

theorem Change.slotChange (hchange : s.Change s')
    (hmmf : ∀ {p pg e}, s.entry p pg = some e → e.type = .mmf → e.presence ≠ .swapped) :
    s.SlotChange s' := by
  have hptSuppl : (∀ p, (s'.process p).ptSuppl = (s.process p).ptSuppl) →
      ∀ p pg slot, s'.SwappedIn p pg slot ↔ s.SwappedIn p pg slot := by
    intro hp p pg slot
    rw [SwappedIn, SwappedIn, Vm.entry, Vm.entry, hp]
  cases hchange with
  | same hsame => exact .same (hptSuppl hsame.ptSuppl) hsame.swapBm
  | clear o v hout hp hperm hbm => exact .same (hptSuppl hp) hbm
  | map o v w hp hperm hbm => exact .same (hptSuppl hp) hbm
  | swapOut o v slot hscan hnone hentry hperm =>
    exact .take o v slot hscan (hentry.swappedIn_take hnone)
  | writeOut o v pt hpt htype hentry hperm hbm =>
    refine .same (hentry.swappedIn (fun e he => ?_) fun e he => ?_) hbm
    · rw [hpt] at he
      cases he
      exact hmmf hpt htype
    · cases he
      simp
  | readIn o e he hpresence halign hmapped hentry hperm hbm =>
    refine .same (hentry.swappedIn (fun e' he' => ?_) fun e' he' => ?_) hbm
    · rw [he] at he'
      cases he'
      rw [hpresence]
      simp
    · exact loadedEntry_not_swapped he'
  | swapIn o e he hpresence halign hmapped hentry hperm hbm =>
    exact .release o e.vaddr e.swapSlot ⟨e, he, hpresence, rfl⟩ hentry.swappedIn_release hbm
  | add o e hnone hpresence hentry hperm hbm =>
    refine .same (hentry.swappedIn (fun e' he' => ?_) fun e' he' => ?_) hbm
    · rw [hnone] at he'
      cases he'
    · cases he'
      rw [hpresence]
      simp
  | delete o e he htype hentry hperm hbm =>
    refine .same (hentry.swappedIn (fun e' he' => ?_) (by simp)) hbm
    rw [he] at he'
    cases he'
    exact hmmf he htype

/-- The step lemma for the slots that entries name. -/
theorem Change.slotsHeld (hchange : s.Change s') (h : s.SlotsHeld) : s'.SlotsHeld := by
  have hmmf : ∀ {p pg e}, s'.entry p pg = some e → e.type = .mmf → e.presence ≠ .swapped :=
    fun he htype => hchange.slotsMmf h.mmf he htype
  cases hchange.slotChange h.mmf with
  | same hswapped hbm =>
    refine ⟨fun hs => ?_, fun h1 h2 => ?_, hmmf⟩
    · rw [hbm]
      exact h.used ((hswapped _ _ _).mp hs)
    · exact h.unique ((hswapped _ _ _).mp h1) ((hswapped _ _ _).mp h2)
  | take o v slot hscan hswapped =>
    obtain ⟨hfree, hused⟩ := Bitmap.used_scanAndFlip hscan
    have hother : ∀ {p pg}, ¬ s.SwappedIn p pg slot := fun hs => hfree (h.used hs)
    refine ⟨fun {p pg k} hs => ?_, fun {p pg q pg' k} h1 h2 => ?_, hmmf⟩
    · rw [hused]
      rcases (hswapped p pg k).mp hs with ⟨-, -, rfl⟩ | hs
      · exact .inl rfl
      · exact .inr (h.used hs)
    · rcases (hswapped p pg k).mp h1 with ⟨rfl, rfl, rfl⟩ | h1
      · rcases (hswapped q pg' k).mp h2 with ⟨rfl, rfl, -⟩ | h2
        · exact ⟨rfl, rfl⟩
        · exact absurd h2 hother
      · rcases (hswapped q pg' k).mp h2 with ⟨rfl, rfl, rfl⟩ | h2
        · exact absurd h1 hother
        · exact h.unique h1 h2
  | release o v slot hself hswapped hbm =>
    refine ⟨fun {p pg k} hs => ?_, fun h1 h2 => ?_, hmmf⟩
    · obtain ⟨hs, hne⟩ := (hswapped p pg k).mp hs
      rw [hbm, Bitmap.used_flip (h.used hself)]
      refine ⟨h.used hs, ?_⟩
      rintro rfl
      exact hne (h.unique hs hself)
    · exact h.unique ((hswapped _ _ _).mp h1).1 ((hswapped _ _ _).mp h2).1

/-- The step lemma for the used slots. -/
theorem Change.slotsNamed (hchange : s.Change s') (h : s.SlotsHeld) (hnamed : s.SlotsNamed) :
    s'.SlotsNamed := by
  intro k hk
  cases hchange.slotChange h.mmf with
  | same hswapped hbm =>
    rw [hbm] at hk
    obtain ⟨p, pg, hs⟩ := hnamed k hk
    exact ⟨p, pg, (hswapped p pg k).mpr hs⟩
  | take o v slot hscan hswapped =>
    rcases ((Bitmap.used_scanAndFlip hscan).2 k).mp hk with rfl | hk
    · exact ⟨o, v, (hswapped o v k).mpr (.inl ⟨rfl, rfl, rfl⟩)⟩
    · obtain ⟨p, pg, hs⟩ := hnamed k hk
      exact ⟨p, pg, (hswapped p pg k).mpr (.inr hs)⟩
  | release o v slot hself hswapped hbm =>
    rw [hbm, Bitmap.used_flip (h.used hself)] at hk
    obtain ⟨p, pg, hs⟩ := hnamed k hk.1
    refine ⟨p, pg, (hswapped p pg k).mpr ⟨hs, ?_⟩⟩
    rintro ⟨rfl, rfl⟩
    obtain ⟨e, he, -, rfl⟩ := hs
    obtain ⟨e', he', -, rfl⟩ := hself
    rw [he] at he'
    cases he'
    exact hk.2 rfl

theorem Changes.slotsHeld (h : s.Changes s') (hs : s.SlotsHeld) : s'.SlotsHeld := by
  induction h with
  | refl => exact hs
  | tail _ hlast ih => exact hlast.slotsHeld ih

theorem Changes.slotsInv (h : s.Changes s') (hs : s.SlotsInv) : s'.SlotsInv := by
  induction h with
  | refl => exact hs
  | tail _ hlast ih =>
    obtain ⟨hheld, hnamed⟩ := slotsInv_iff.mp ih
    exact slotsInv_iff.mpr ⟨hlast.slotsHeld hheld, hlast.slotsNamed hheld hnamed⟩

end Vm

/-! ### The end of a process -/

variable {s s' : Vm} {cur : Nat}

theorem processExit_swappedIn (h : processExit cur s = .ok ((), s')) {p pg slot : Nat} :
    s'.SwappedIn p pg slot ↔ s.SwappedIn p pg slot ∧ p ≠ cur := by
  obtain ⟨s1, hrun, hprocess, -⟩ := processExit_ends cur s
  cases h.symm.trans hrun
  by_cases hp : p = cur
  · subst hp
    have hnone : s'.entry p pg = none := by
      rw [Vm.entry, hprocess, Function.update_self]
      rfl
    simp [Vm.SwappedIn, hnone]
  · have hsame : s'.entry p pg = s.entry p pg := by
      rw [Vm.entry, hprocess, Function.update_of_ne hp]
      rfl
    simp [Vm.SwappedIn, hsame, hp]

/-- A process that exits leaves no entry behind, and the slots of the others as they are. -/
theorem Vm.SlotsHeld.exit (h : s.SlotsHeld) (hrun : processExit cur s = .ok ((), s')) :
    s'.SlotsHeld := by
  obtain ⟨s1, hends, hprocess, hbm, -⟩ := processExit_ends cur s
  cases hrun.symm.trans hends
  refine ⟨fun hs => ?_, fun h1 h2 => ?_, fun {p pg e} he htype => ?_⟩
  · rw [hbm]
    exact h.used ((processExit_swappedIn hrun).mp hs).1
  · exact h.unique ((processExit_swappedIn hrun).mp h1).1 ((processExit_swappedIn hrun).mp h2).1
  · by_cases hp : p = cur
    · subst hp
      rw [Vm.entry, hprocess, Function.update_self] at he
      cases he
    · rw [Vm.entry, hprocess, Function.update_of_ne hp] at he
      exact h.mmf he htype

/-- A process that exits without a page in swap leaves the slots accounted for. -/
theorem Vm.SlotsInv.exit (h : s.SlotsInv) (hno : ∀ pg slot, ¬ s.SwappedIn cur pg slot)
    (hrun : processExit cur s = .ok ((), s')) : s'.SlotsInv := by
  obtain ⟨hheld, hnamed⟩ := Vm.slotsInv_iff.mp h
  refine Vm.slotsInv_iff.mpr ⟨hheld.exit hrun, fun slot hused => ?_⟩
  obtain ⟨s1, hends, hprocess, hbm, -⟩ := processExit_ends cur s
  cases hrun.symm.trans hends
  rw [hbm] at hused
  obtain ⟨p, pg, hs⟩ := hnamed slot hused
  refine ⟨p, pg, (processExit_swappedIn hrun).mpr ⟨hs, ?_⟩⟩
  rintro rfl
  exact hno pg slot hs

/-- A process that exits with a page in swap leaves a used slot that no entry names. -/
theorem Vm.SlotsAccounted.not_after_exit (h : s.SlotsAccounted) {pg slot : Nat}
    (hswapped : s.SwappedIn cur pg slot) (hrun : processExit cur s = .ok ((), s')) :
    ¬ s'.SlotsAccounted := by
  intro h'
  obtain ⟨s1, hends, -, hbm, -⟩ := processExit_ends cur s
  cases hrun.symm.trans hends
  have hused : s'.swapBm.Used slot := by
    rw [hbm]
    exact (h.used slot).mpr ⟨cur, pg, hswapped⟩
  obtain ⟨q, pg', hq⟩ := (h'.used slot).mp hused
  obtain ⟨hq, hne⟩ := (processExit_swappedIn hrun).mp hq
  exact hne (h.unique hq hswapped).1

/-- From boot on, the used swap slots are those that entries name exactly as long as no process exits
with a page in swap. -/
theorem swap_slots_accounted_iff (order : List FrameEntry → List FrameEntry)
    (bucket : PtSuppl → List Nat) (ops : List PagingOp) (hboot : s.Booted) :
    (∀ m, Routine.Visits (PagingOp.exec order bucket) ops s m → m.SlotsAccounted) ↔
      ∀ cur m, Routine.Takes (PagingOp.exec order bucket) ops s (.exit cur) m →
        ∀ pg slot, ¬ m.SwappedIn cur pg slot := by
  constructor
  · intro hall cur m htakes pg slot hswapped
    obtain ⟨m', hrun, -, -⟩ := processExit_ends cur m
    have hafter := hall m' (htakes.visits hrun)
    exact (hall m htakes.visits_before).not_after_exit hswapped hrun hafter
  · intro hexits m hvisits
    have hmay : ∀ op t, Routine.Takes (PagingOp.exec order bucket) ops s op t →
        ∀ cur, op = .exit cur → ∀ pg slot, ¬ t.SwappedIn cur pg slot := by
      rintro op t htakes cur rfl
      exact hexits cur t htakes
    have hinv : m.SlotsInv := by
      refine hvisits.invariant (P := Vm.SlotsInv) ?_ hmay
        (Vm.slotsInv_iff.mpr ⟨hboot.slotsHeld, hboot.slotsNamed⟩)
      intro t op u t' ht hmay hrun
      by_cases hexit : ∃ cur, op = .exit cur
      · obtain ⟨cur, rfl⟩ := hexit
        exact ht.exit (hmay cur rfl) hrun
      · exact (PagingOp.exec_changes (fun cur hop => hexit ⟨cur, hop⟩) hrun).slotsInv ht
    exact hinv.accounted

theorem oneFrameVm_booted : oneFrameVm.Booted := ⟨fun _ _ => rfl, 2, rfl⟩

theorem swap_slots_accounted_iff_codeStackCode :
    (∀ m, Routine.Visits (PagingOp.exec id fun _ => []) (codeStackCode.map .page) oneFrameVm m →
      m.SlotsAccounted) ↔
      ∀ cur m, Routine.Takes (PagingOp.exec id fun _ => []) (codeStackCode.map .page) oneFrameVm
        (.exit cur) m → ∀ pg slot, ¬ m.SwappedIn cur pg slot :=
  swap_slots_accounted_iff id (fun _ => []) (codeStackCode.map .page) oneFrameVm_booted

/-- Two processes grow their stacks on a machine with one frame. -/
def twoStacks : List PagingOp :=
  [.page (.pageFault 0 0xbffffff0 0xbffffff0), .page (.pageFault 1 0xbffffff0 0xbffffff0)]

/-- The stack of process 0 is in slot 0 then. -/
theorem twoStacks_swapped : ∃ as m,
    Routine.execAll (PagingOp.exec id fun _ => []) twoStacks oneFrameVm = .ok (as, m) ∧
      m.SwappedIn 0 0xbffff000 0 := by
  have hentry : (Routine.execAll (PagingOp.exec id fun _ => []) twoStacks oneFrameVm).map
      (fun r => (r.2.entry 0 0xbffff000).map fun e => (e.presence, e.swapSlot)) =
        .ok (some (.swapped, 0)) := by decide +kernel
  cases hrun : Routine.execAll (PagingOp.exec id fun _ => []) twoStacks oneFrameVm with
  | error e =>
    rw [hrun] at hentry
    cases hentry
  | ok r =>
    rw [hrun] at hentry
    obtain ⟨e, he, hpair⟩ := Option.map_eq_some_iff.mp (Except.ok.inj hentry)
    obtain ⟨hpresence, hslot⟩ := Prod.mk.inj hpair
    exact ⟨r.1, r.2, rfl, e, he, hpresence, hslot⟩

/-- Process 0 exits with its stack in slot 0, and the slot stays used. -/
theorem exit_leaks_swap_slot : ¬ ∀ m, Routine.Visits (PagingOp.exec id fun _ => [])
    (twoStacks ++ [.exit 0]) oneFrameVm m → m.SlotsAccounted := by
  intro hall
  obtain ⟨as, m, hrun, hswapped⟩ := twoStacks_swapped
  have htakes : Routine.Takes (PagingOp.exec id fun _ => []) (twoStacks ++ [.exit 0]) oneFrameVm
      (.exit 0) m := ⟨twoStacks, [], as, rfl, hrun⟩
  obtain ⟨m', hexit, -, -⟩ := processExit_ends 0 m
  exact (hall m htakes.visits_before).not_after_exit hswapped hexit (hall m' (htakes.visits hexit))

end Pintos
