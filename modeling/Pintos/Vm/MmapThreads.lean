import Pintos.Library.Weakest
import Pintos.Vm.Munmap

/-! Calls of `pt_suppl_handle_mmap` by several processes, with a switch allowed between any two
statements.  `last_map` is shared and no lock protects it: a call counts it up once, and reads it again
for every entry and for its result. -/

namespace Pintos

/-- What each call is given. -/
structure MmapCalls where
  owner : Nat → Nat
  file : Nat → Nat
  start : Nat → Nat

/-- The next statement of a call: `offset` and `pageAddress` are those of its loop. -/
inductive MmapPc where
  | start
  | count (len : Nat)
  | getEntry (len offset pageAddress : Nat)
  | getPage (len offset pageAddress : Nat)
  | setUp (len offset pageAddress : Nat)
  | insert (len offset pageAddress : Nat) (entry : PtSupplEntry)
  | finish
  | returned (result : Int)

/-- For each call, `counted` is the value that it has counted `last_map` up to, `created` the entries
that it has made, and `mapped` the pages where one of them went into the table. -/
structure MmapWorld where
  vm : Vm
  pc : Nat → MmapPc
  counted : Nat → Option Nat
  created : Nat → List PtSupplEntry
  mapped : Nat → List Nat

abbrev MmapRoutine := Routine Fault MmapWorld

namespace MmapWorld

def setPc (w : MmapWorld) (c : Nat) (pc : MmapPc) : MmapWorld :=
  { w with pc := Function.update w.pc c pc }

/-- `last_map ++` in call `c`. -/
def count (w : MmapWorld) (c : Nat) : MmapWorld :=
  { w with
    vm := { w.vm with lastMap := w.vm.lastMap + 1 }
    counted := Function.update w.counted c (some (w.vm.lastMap + 1)) }

def create (w : MmapWorld) (c : Nat) (entry : PtSupplEntry) : MmapWorld :=
  { w with created := Function.update w.created c (entry :: w.created c) }

/-- `hash_insert` of an entry by call `c`, unless there is one for the page. -/
def insert (calls : MmapCalls) (w : MmapWorld) (c : Nat) (entry : PtSupplEntry) : MmapWorld :=
  let table := (w.vm.process (calls.owner c)).ptSuppl
  if (table.get entry.vaddr).isNone then
    { w with
      vm := w.vm.setPtSuppl (calls.owner c) (table.put entry)
      mapped := Function.update w.mapped c (entry.vaddr :: w.mapped c) }
  else w

/-- The next statement of call `c`. -/
def exec (calls : MmapCalls) (c : Nat) : MmapRoutine Unit := do
  let w ← get
  match w.pc c with
  | .start =>
    let len := (w.vm.file (calls.file c)).length
    set (w.setPc c (if len = 0 then .returned (-1) else .count len))
  | .count len =>
    if w.vm.lastMap + 1 < 2 ^ 31 then set ((w.count c).setPc c (.getEntry len 0 (calls.start c)))
    else throw (.undefined "last_map ++")
  | .getEntry len offset pageAddress =>
    if offset < len then
      if (w.vm.entry (calls.owner c) ((pageAddress + offset) % 2 ^ 32)).isSome then
        set (w.setPc c (.returned (-1)))
      else set (w.setPc c (.getPage len offset pageAddress))
    else set (w.setPc c .finish)
  | .getPage len offset pageAddress =>
    let page := (pageAddress + offset) % 2 ^ 32
    if physBase ≤ page then throw (.assertion "is_user_vaddr (uaddr)")
    else if ((w.vm.process (calls.owner c)).pagedir.getPage page).isSome then
      set (w.setPc c (.returned (-1)))
    else set (w.setPc c (.setUp len offset pageAddress))
  | .setUp len offset pageAddress =>
    let readBytes := min (len - offset) pgSize
    let entry := ptSupplSetupFileInfo (calls.owner c) w.vm.lastMap (calls.file c) offset pageAddress
      readBytes (pgSize - readBytes) true .mmf
    set ((w.create c entry).setPc c (.insert len offset pageAddress entry))
  | .insert len offset pageAddress entry =>
    set ((w.insert calls c entry).setPc c
      (.getEntry len (offset + pgSize) ((pageAddress + pgSize) % 2 ^ 32)))
  | .finish => set (w.setPc c (.returned w.vm.lastMap))
  | .returned _ => pure ()

/-- No call has started. -/
def init (vm : Vm) : MmapWorld := ⟨vm, fun _ => .start, fun _ => none, fun _ => [], fun _ => []⟩

end MmapWorld

/-- Whether a call is about to read `last_map`. -/
def MmapPc.reads : MmapPc → Bool
  | .setUp .. | .finish => true
  | _ => false

/-- A call that reads `last_map` finds the value that it has counted it up to: no other call has
counted since. -/
def CountedLast (c : Nat) (w : MmapWorld) : Prop :=
  (w.pc c).reads = true → w.counted c = some w.vm.lastMap

instance (c : Nat) (w : MmapWorld) : Decidable (CountedLast c w) :=
  inferInstanceAs (Decidable (_ → _))

/-- The ids in the tables have been handed out. -/
def Vm.IdsUpTo (s : Vm) (n : Nat) : Prop :=
  ∀ p v e info, s.entry p v = some e → e.fileInfo = some info → info.mapId ≤ n

/-- The entries of a call have the id that it returns, no two calls return the same, and `munmap` of
the id of a call deletes the entries of the pages that it mapped. -/
structure MmapWorld.IdsMatch (calls : MmapCalls) (w : MmapWorld) : Prop where
  created : ∀ c n, w.pc c = .returned n → n ≠ -1 →
    ∀ e ∈ w.created c, ∃ info, e.fileInfo = some info ∧ (info.mapId : Int) = n
  distinct : ∀ c d n, w.pc c = .returned n → w.pc d = .returned n → n ≠ -1 → c = d
  unmaps : ∀ c (n : Nat), w.pc c = .returned n → ∀ bucket : PtSuppl → List Nat,
    ListsEntries bucket (w.vm.process (calls.owner c)).ptSuppl →
    ∃ table, memoryUnmapFile bucket (calls.owner c) n w.vm =
        .ok ((), w.vm.setPtSuppl (calls.owner c) table) ∧
      ∀ v, table.get v = if v ∈ w.mapped c then none else w.vm.entry (calls.owner c) v

namespace MmapWorld

open Routine (wp)

variable {calls : MmapCalls} {base c : Nat} {w w' : MmapWorld} {pc : MmapPc} {entry : PtSupplEntry}

/-- An entry of a mapped file with id `n`, which is not loaded. -/
structure HasId (n : Nat) (e : PtSupplEntry) : Prop where
  type : e.type = .mmf
  presence : e.presence = .unloaded
  fileInfo : ∃ info, e.fileInfo = some info ∧ info.mapId = n

/-- What the position of call `c` says: before it counts it has no id, and what it returns is its id. -/
def Positioned (w : MmapWorld) (c : Nat) : MmapPc → Prop
  | .start | .count _ => w.counted c = none
  | .insert _ _ _ e => e ∈ w.created c
  | .returned r => r ≠ -1 → ∃ n, w.counted c = some n ∧ r = n
  | _ => True

theorem Positioned.mono (h : w.Positioned c pc) (hcounted : w'.counted c = w.counted c)
    (hcreated : ∀ e ∈ w.created c, e ∈ w'.created c) : w'.Positioned c pc := by
  cases pc with
  | start => exact hcounted.trans h
  | count len => exact hcounted.trans h
  | insert len offset addr e => exact hcreated e h
  | returned r => exact fun hr => by rw [hcounted]; exact h hr
  | _ => trivial

/-- The ids after `base` are those of the calls. -/
structure Kept (calls : MmapCalls) (base : Nat) (w : MmapWorld) : Prop where
  counted : ∀ c n, w.counted c = some n → base < n ∧ n ≤ w.vm.lastMap
  distinct : ∀ c d n, w.counted c = some n → w.counted d = some n → c = d
  positions : ∀ c, w.Positioned c (w.pc c)
  created : ∀ c, ∀ e ∈ w.created c, ∃ n, w.counted c = some n ∧ HasId n e
  entries : ∀ p v e, w.vm.entry p v = some e →
    (∀ info, e.fileInfo = some info → info.mapId ≤ base) ∨
      ∃ c, calls.owner c = p ∧ e ∈ w.created c ∧ v ∈ w.mapped c
  mapped : ∀ c, ∀ v ∈ w.mapped c, ∃ e ∈ w.created c, w.vm.entry (calls.owner c) v = some e
  base_le : base ≤ w.vm.lastMap

theorem Kept.setPc (h : Kept calls base w) (hpc : w.Positioned c pc) :
    Kept calls base (w.setPc c pc) := by
  refine ⟨h.counted, h.distinct, fun d => ?_, h.created, h.entries, h.mapped, h.base_le⟩
  show w.Positioned d (Function.update w.pc c pc d)
  rw [Function.update_apply]
  split_ifs with hd
  · rw [hd]
    exact hpc
  · exact h.positions d

/-- `last_map ++`, in a call that has not counted before. -/
theorem Kept.count (h : Kept calls base w) (hnone : w.counted c = none) {len offset addr : Nat} :
    Kept calls base ((w.count c).setPc c (.getEntry len offset addr)) := by
  have hself : (w.count c).counted c = some (w.vm.lastMap + 1) := Function.update_self ..
  have hother : ∀ d, d ≠ c → (w.count c).counted d = w.counted d := fun d hd =>
    Function.update_of_ne hd ..
  have hnot : ∀ d n, w.counted d = some n → d ≠ c := by
    rintro d n hd rfl
    rw [hnone] at hd
    nomatch hd
  have hle := h.base_le
  refine ⟨fun d n hd => ?_, fun d d' n hd hd' => ?_, fun d => ?_, fun d e he => ?_, h.entries,
    h.mapped, Nat.le_succ_of_le hle⟩
  · show base < n ∧ n ≤ w.vm.lastMap + 1
    by_cases hdc : d = c
    · rw [hdc] at hd
      obtain rfl := Option.some.inj (hself.symm.trans hd)
      omega
    · have := h.counted d n ((hother d hdc).symm.trans hd)
      omega
  · have hlt : ∀ d, d ≠ c → (w.count c).counted d = some n → n ≤ w.vm.lastMap := fun d hdc hd =>
      (h.counted d n ((hother d hdc).symm.trans hd)).2
    by_cases hdc : d = c
    · by_cases hdc' : d' = c
      · rw [hdc, hdc']
      · have := hlt d' hdc' hd'
        rw [hdc] at hd
        obtain rfl := Option.some.inj (hself.symm.trans hd)
        omega
    · have hn := hlt d hdc hd
      have hdc' : d' ≠ c := by
        rintro rfl
        obtain rfl := Option.some.inj (hself.symm.trans hd')
        omega
      exact h.distinct d d' n ((hother d hdc).symm.trans hd) ((hother d' hdc').symm.trans hd')
  · show Positioned _ d (Function.update w.pc c _ d)
    rw [Function.update_apply]
    split_ifs with hdc
    · trivial
    · exact (h.positions d).mono (hother d hdc) fun e he => he
  · obtain ⟨n, hn, hid⟩ := h.created d e he
    exact ⟨n, (hother d (hnot d n hn)).trans hn, hid⟩

/-- `pt_suppl_setup_file_info`, in a call that has its own id before it. -/
theorem Kept.create (h : Kept calls base w) {n : Nat} (hn : w.counted c = some n)
    (hid : HasId n entry) {len offset addr : Nat} :
    Kept calls base ((w.create c entry).setPc c (.insert len offset addr entry)) := by
  have hself : (w.create c entry).created c = entry :: w.created c := Function.update_self ..
  have hmono : ∀ d, ∀ e ∈ w.created d, e ∈ (w.create c entry).created d := by
    intro d e he
    by_cases hd : d = c
    · subst hd
      rw [hself]
      exact List.mem_cons_of_mem _ he
    · show e ∈ Function.update w.created c _ d
      rw [Function.update_of_ne hd]
      exact he
  refine ⟨h.counted, h.distinct, fun d => ?_, fun d e he => ?_, fun p v e he => ?_,
    fun d v hv => ?_, h.base_le⟩
  · show Positioned _ d (Function.update w.pc c _ d)
    rw [Function.update_apply]
    split_ifs with hd
    · rw [hd]
      show entry ∈ (w.create c entry).created c
      rw [hself]
      exact List.mem_cons_self
    · exact (h.positions d).mono rfl (hmono d)
  · replace he : e ∈ Function.update w.created c (entry :: w.created c) d := he
    rw [Function.update_apply] at he
    split_ifs at he with hd
    · rcases List.mem_cons.mp he with rfl | he
      · exact ⟨n, hd ▸ hn, hid⟩
      · exact h.created d e (hd ▸ he)
    · exact h.created d e he
  · rcases h.entries p v e he with hold | ⟨d, hd, hmem, hv⟩
    · exact .inl hold
    · exact .inr ⟨d, hd, hmono d e hmem, hv⟩
  · obtain ⟨e, he, hentry⟩ := h.mapped d v hv
    exact ⟨e, hmono d e he, hentry⟩

/-- `hash_insert` of an entry that the call has made. -/
theorem Kept.insert (h : Kept calls base w) (hmem : entry ∈ w.created c) :
    Kept calls base (w.insert calls c entry) := by
  rw [MmapWorld.insert]
  split_ifs with hnone
  · have hfree : w.vm.entry (calls.owner c) entry.vaddr = none := Option.isNone_iff_eq_none.mp hnone
    generalize hvm : w.vm.setPtSuppl (calls.owner c)
      ((w.vm.process (calls.owner c)).ptSuppl.put entry) = vm
    have hentry : ∀ p v, vm.entry p v =
        if p = calls.owner c ∧ v = entry.vaddr then some entry else w.vm.entry p v := by
      intro p v
      rw [← hvm]
      exact Vm.setsEntry_put w.vm (calls.owner c) entry p v
    have hself : ∀ d v, v ∈ Function.update w.mapped c (entry.vaddr :: w.mapped c) d ↔
        d = c ∧ v = entry.vaddr ∨ v ∈ w.mapped d := by
      intro d v
      by_cases hd : d = c
      · subst hd
        simp
      · simp [hd]
    refine ⟨fun d n hd => ?_, h.distinct, h.positions, h.created, fun p v e he => ?_,
      fun d v hv => ?_, ?_⟩
    · rw [← hvm]
      exact h.counted d n hd
    · replace he : vm.entry p v = some e := he
      rw [hentry] at he
      split_ifs at he with heq
      · obtain rfl := Option.some.inj he
        exact .inr ⟨c, heq.1.symm, hmem, (hself c v).mpr (.inl ⟨rfl, heq.2⟩)⟩
      · rcases h.entries p v e he with hold | ⟨d, hd, hmem, hv⟩
        · exact .inl hold
        · exact .inr ⟨d, hd, hmem, (hself d v).mpr (.inr hv)⟩
    · show ∃ e ∈ w.created d, vm.entry (calls.owner d) v = some e
      rw [hentry]
      rcases (hself d v).mp hv with ⟨rfl, rfl⟩ | hv
      · exact ⟨entry, hmem, if_pos ⟨rfl, rfl⟩⟩
      · obtain ⟨e, he, hold⟩ := h.mapped d v hv
        refine ⟨e, he, ?_⟩
        rw [if_neg]
        · exact hold
        · rintro ⟨howner, rfl⟩
          rw [howner, hfree] at hold
          cases hold
    · rw [← hvm]
      exact h.base_le
  · exact h

/-- A statement of a call that finds its own id where it reads `last_map`. -/
theorem wp_exec (h : Kept calls base w) (hlast : CountedLast c w) :
    wp (exec calls c) (fun _ w' => Kept calls base w') (fun _ => True) w := by
  rw [exec, Routine.wp_bind, Routine.wp_get]
  have hpos := h.positions c
  rw [CountedLast] at hlast
  cases hpc : w.pc c with
  | start =>
    rw [hpc] at hpos
    refine h.setPc ?_
    split_ifs
    · exact fun hne => absurd rfl hne
    · exact hpos
  | count len =>
    rw [hpc] at hpos
    dsimp only
    split_ifs
    · exact h.count hpos
    · trivial
  | getEntry len offset addr =>
    dsimp only
    split_ifs
    · exact h.setPc fun hne => absurd rfl hne
    · exact h.setPc trivial
    · exact h.setPc trivial
  | getPage len offset addr =>
    dsimp only
    split_ifs
    · trivial
    · exact h.setPc fun hne => absurd rfl hne
    · exact h.setPc trivial
  | setUp len offset addr =>
    rw [hpc] at hlast
    exact h.create (hlast rfl) ⟨rfl, rfl, _, rfl, rfl⟩
  | insert len offset addr e =>
    rw [hpc] at hpos
    exact (h.insert hpos).setPc trivial
  | finish =>
    rw [hpc] at hlast
    exact h.setPc fun _ => ⟨_, hlast rfl, rfl⟩
  | returned r => exact h

theorem kept_init {vm : Vm} (hids : vm.IdsUpTo vm.lastMap) :
    Kept calls vm.lastMap (init vm) where
  counted := nofun
  distinct := nofun
  positions _ := rfl
  created := nofun
  entries p v e he := .inl fun info hinfo => hids p v e info he hinfo
  mapped := nofun
  base_le := Nat.le_refl _

theorem Kept.returned (h : Kept calls base w) {r : Int} (hpc : w.pc c = .returned r)
    (hne : r ≠ -1) : ∃ n, w.counted c = some n ∧ r = n := by
  have hpos := h.positions c
  rw [hpc] at hpos
  exact hpos hne

/-- The pages with the id of a call are those that it mapped, and are not loaded. -/
theorem Kept.inMapping (h : Kept calls base w) {n : Nat} (hn : w.counted c = some n) {v : Nat}
    {e : PtSupplEntry} (he : w.vm.entry (calls.owner c) v = some e) :
    (e.inMapping n = true ↔ v ∈ w.mapped c) ∧ (e.inMapping n = true → e.presence = .unloaded) := by
  have hmade : ∀ d, e ∈ w.created d → e.inMapping n = true → d = c ∧ e.presence = .unloaded := by
    intro d hmem hin
    obtain ⟨k, hk, -, hpresence, info, hinfo, hid⟩ := h.created d e hmem
    rw [PtSupplEntry.inMapping, hinfo, Bool.and_eq_true] at hin
    have hkn : info.mapId = n := by simpa using hin.2
    rw [← hid, hkn] at hk
    exact ⟨h.distinct d c n hk hn, hpresence⟩
  have hcreated : e.inMapping n = true → v ∈ w.mapped c ∧ e.presence = .unloaded := by
    intro hin
    rcases h.entries _ v e he with hold | ⟨d, -, hmem, hv⟩
    · have hbase := (h.counted c n hn).1
      rw [PtSupplEntry.inMapping, Bool.and_eq_true] at hin
      cases hinfo : e.fileInfo with
      | none =>
        rw [hinfo] at hin
        cases hin.2
      | some info =>
        rw [hinfo] at hin
        have hle := hold info hinfo
        have hid : info.mapId = n := by simpa using hin.2
        omega
    · obtain ⟨rfl, hpresence⟩ := hmade d hmem hin
      exact ⟨hv, hpresence⟩
  refine ⟨⟨fun hin => (hcreated hin).1, fun hv => ?_⟩, fun hin => (hcreated hin).2⟩
  obtain ⟨e', he', hentry⟩ := h.mapped c v hv
  obtain rfl := Option.some.inj (he.symm.trans hentry)
  obtain ⟨k, hk, htype, -, info, hinfo, hid⟩ := h.created c e he'
  rw [hn] at hk
  rw [PtSupplEntry.inMapping, htype, hinfo, Option.some.inj hk]
  simp [hid]

theorem Kept.idsMatch (h : Kept calls base w) : w.IdsMatch calls := by
  refine ⟨fun c r hpc hne e he => ?_, fun c d r hc hd hne => ?_, fun c n hpc bucket hlists => ?_⟩
  · obtain ⟨n, hn, rfl⟩ := h.returned hpc hne
    obtain ⟨n', hn', -, -, info, hinfo, hid⟩ := h.created c e he
    rw [hn] at hn'
    exact ⟨info, hinfo, by rw [hid, Option.some.inj hn']⟩
  · obtain ⟨n, hn, rfl⟩ := h.returned hc hne
    obtain ⟨n', hn', heq⟩ := h.returned hd hne
    exact h.distinct c d n hn (by rw [hn', Int.ofNat_inj.mp heq])
  · obtain ⟨n', hn, heq⟩ := h.returned hpc (by omega)
    obtain rfl : n = n' := by omega
    have hcard := List.toFinset_card_le (bucket (w.vm.process (calls.owner c)).ptSuppl)
    obtain ⟨table, hrun, htable⟩ := unmapLoop_unloaded hlists (Nat.lt_succ_of_le hcard)
      fun v e he hin => (h.inMapping hn he).2 hin
    refine ⟨table, hrun, fun v => ?_⟩
    rw [htable]
    cases he : w.vm.entry (calls.owner c) v with
    | none =>
      split_ifs <;> rfl
    | some e =>
      rw [Option.filter_some, if_congr (h.inMapping hn he).1.symm rfl rfl]
      cases e.inMapping n <;> rfl

end MmapWorld

/-- Calls of `mmap` by several processes keep their ids apart in any order of their statements, as long
as a call reads `last_map` only while no other has counted it up since. -/
theorem mmap_ids_match (calls : MmapCalls) (vm : Vm) (hids : vm.IdsUpTo vm.lastMap)
    (schedule : List Nat)
    (hlast : ∀ c w, Routine.Takes (MmapWorld.exec calls) schedule (MmapWorld.init vm) c w →
      CountedLast c w)
    (w : MmapWorld) (hvisits : Routine.Visits (MmapWorld.exec calls) schedule (MmapWorld.init vm) w) :
    w.IdsMatch calls := by
  have hkept : MmapWorld.Kept calls vm.lastMap w :=
    Routine.Visits.invariant (fun _ _ _ _ h hlast hrun => (MmapWorld.wp_exec h hlast).of_ok hrun)
      hlast (MmapWorld.kept_init hids) hvisits
  exact hkept.idsMatch

/-- File 0 has two pages, the others have one. -/
def twoPageVm : Vm :=
  { oneFrameVm with file := fun f => List.replicate (if f = 0 then 4097 else 1) 0 }

theorem twoPageVm_ids (n : Nat) : twoPageVm.IdsUpTo n := by
  intro p v e info he
  have hnone : twoPageVm.entry p v = none := rfl
  rw [hnone] at he
  cases he

/-- Process `c` maps file `c`. -/
def mapOwnFile : MmapCalls := ⟨id, id, fun _ => 0x10000000⟩

/-- Two processes begin to map a file, and one goes on after the other. -/
theorem mmap_ids_match_twoPageVm : ∃ w, Routine.Visits (MmapWorld.exec mapOwnFile)
    ([0, 1] ++ List.replicate 11 0 ++ List.replicate 7 1) (MmapWorld.init twoPageVm) w ∧
      w.vm.lastMap = 2 ∧ w.IdsMatch mapOwnFile := by
  have hlast : (match Routine.execAll (MmapWorld.exec mapOwnFile)
      ([0, 1] ++ List.replicate 11 0 ++ List.replicate 7 1) (MmapWorld.init twoPageVm) with
    | .ok (_, w) => decide (w.vm.lastMap = 2)
    | .error _ => false) = true := by
    decide +kernel
  have hcheck : Routine.checkAll (MmapWorld.exec mapOwnFile) (fun c w => decide (CountedLast c w))
      ([0, 1] ++ List.replicate 11 0 ++ List.replicate 7 1) (MmapWorld.init twoPageVm) = true := by
    decide +kernel
  rcases hrun : Routine.execAll (MmapWorld.exec mapOwnFile)
      ([0, 1] ++ List.replicate 11 0 ++ List.replicate 7 1) (MmapWorld.init twoPageVm) with
    f | ⟨as, w⟩
  · rw [hrun] at hlast
    nomatch hlast
  · rw [hrun] at hlast
    have hvisits : Routine.Visits (MmapWorld.exec mapOwnFile)
        ([0, 1] ++ List.replicate 11 0 ++ List.replicate 7 1) (MmapWorld.init twoPageVm) w :=
      ⟨_, [], as, (List.append_nil _).symm, hrun⟩
    have hcounted : ∀ c w, Routine.Takes (MmapWorld.exec mapOwnFile)
        ([0, 1] ++ List.replicate 11 0 ++ List.replicate 7 1) (MmapWorld.init twoPageVm) c w →
          CountedLast c w := by
      intro c w htakes
      have hlast := Routine.of_checkAll hcheck htakes
      exact of_decide_eq_true hlast
    have hmatch := mmap_ids_match mapOwnFile twoPageVm (twoPageVm_ids _) _ hcounted w hvisits
    exact ⟨w, hvisits, of_decide_eq_true hlast, hmatch⟩

/-- Process 1 maps its file while process 0 has made one of its two entries: the second entry of
process 0 has the id of process 1, and both calls return it. -/
theorem mmap_ids_mixed : ¬ ∀ w, Routine.Visits (MmapWorld.exec mapOwnFile)
    (List.replicate 6 0 ++ List.replicate 8 1 ++ List.replicate 6 0) (MmapWorld.init twoPageVm) w →
      w.IdsMatch mapOwnFile := by
  intro hmatch
  have hids : (match Routine.execAll (MmapWorld.exec mapOwnFile)
      (List.replicate 6 0 ++ List.replicate 8 1 ++ List.replicate 6 0) (MmapWorld.init twoPageVm) with
    | .ok (_, w) =>
      (match w.pc 0 with | .returned r => decide (r = 2) | _ => false) &&
        (w.created 0).any fun e => e.fileInfo.any fun info => info.mapId = 1
    | .error _ => false) = true := by
    decide +kernel
  rcases hrun : Routine.execAll (MmapWorld.exec mapOwnFile)
      (List.replicate 6 0 ++ List.replicate 8 1 ++ List.replicate 6 0) (MmapWorld.init twoPageVm) with
    f | ⟨as, w⟩
  · rw [hrun] at hids
    nomatch hids
  · rw [hrun] at hids
    obtain ⟨hreturned, hcreated⟩ := Bool.and_eq_true_iff.mp hids
    obtain ⟨e, he, hid⟩ := List.any_eq_true.mp hcreated
    cases hpc : w.pc 0 with
    | returned r =>
      rw [hpc] at hreturned
      obtain ⟨info, hinfo, hr⟩ := (hmatch w ⟨_, [], as, (List.append_nil _).symm, hrun⟩).created 0 r
        hpc (by rw [of_decide_eq_true hreturned]; decide) e he
      rw [hinfo] at hid
      have hone : info.mapId = 1 := by simpa using hid
      rw [hone, of_decide_eq_true hreturned] at hr
      nomatch hr
    | _ =>
      rw [hpc] at hreturned
      nomatch hreturned

end Pintos
