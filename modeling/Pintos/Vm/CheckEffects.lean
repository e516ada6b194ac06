import Pintos.Vm.EvictedBytes
import Pintos.Vm.ValidAddress

/-! What `is_valid_address_of_thread` does to memory when it is given a stack pointer.  Its test for
stack growth compares addresses only, so the stack may grow over a page that is in swap or still in
its file; and the frame for the new page may be another page of the process. -/

namespace Pintos

/-- The operations of the paging system, and the checks of user addresses. -/
inductive MemoryOp where
  | paging (op : PagingOp)
  | check (table : SupplHash.Table) (unset : SupplHash.Elem) (cur pointerr : Nat) (wannawrite : Bool)
      (esp : Nat)

/-- Executes an operation. -/
def MemoryOp.exec (order : List FrameEntry → List FrameEntry) (bucket : PtSuppl → List Nat) :
    MemoryOp → VmRoutine Unit
  | paging op => op.exec order bucket
  | check table unset cur pointerr wannawrite esp => do
    let _ ← isValidAddressOfThread order table unset cur pointerr wannawrite esp

/-- The paging operations are called as they are in the source. -/
def MemoryOp.Proper : MemoryOp → Prop
  | paging op => op.Proper
  | check .. => True

namespace Vm

/-- The check of an address comes to `pt_suppl_grow_stack`. -/
def ChecksGrow (s : Vm) (cur a esp : Nat) : Prop :=
  (a ≠ 0 ∧ a < physBase) ∧ s.mapped cur a = none ∧ esp ≠ 0 ∧ isStackGrowth a esp = true

/-- A page table for the page exists or can be made. -/
def HasTable (s : Vm) (cur pg : Nat) : Prop :=
  (s.process cur).pagedir.pde (Pagedir.pdNo pg) = true ∨ s.kernelPages ≠ 0

/-- The eviction of a mapped page changes no byte for process `cur`: what it does not write is in the
file already, and what it writes is there too where other pages are to be read. -/
structure WriteBackKeeps (s : Vm) (cur : Nat) (fe : FrameEntry) (info : PtSupplFileInfo) :
    Prop where
  own : fe.owner = cur → ∀ i : Fin 4096, (s.writesBack fe info = true ∧ i.val < info.readBytes) ∨
    s.fileByte info i = some (s.memory fe.page i)
  others : ∀ v e inf (i : Fin 4096) b, v % pgSize = 0 → s.mapped cur v = none →
    s.entry cur v = some e → e.presence = .unloaded → e.fileInfo = some inf →
    i.val < inf.readBytes →
    s.storedByte cur fe info inf.file (inf.offset + i.val) = some b → s.fileByte inf i = some b

/-- The check does not grow the stack over a page that is not loaded, no page clashes beforehand but
for one that is evicted, and the eviction of a mapped page changes no byte for the process. -/
structure CheckSafe (s : Vm) (cur a esp : Nat) : Prop where
  entry : s.ChecksGrow cur a esp → s.HasTable cur (pgRoundDown a) →
    ∀ e, s.entry cur (pgRoundDown a) = some e → e.presence = .present
  eviction : s.ChecksGrow cur a esp → ¬ s.HasFreePage → ∀ fe pt info, s.victim = some fe →
    s.entry fe.owner fe.threadVaddr = some pt → pt.fileInfo = some info →
      s.WriteBackKeeps cur fe info
  clash : ∀ p v, v % pgSize = 0 → s.Clash p v → s.ChecksGrow cur a esp ∧ ¬ s.HasFreePage ∧
    ∃ fe, s.victim = some fe ∧ fe.owner = p ∧ fe.threadVaddr = v

/-- The process would read the same bytes in every page that was backed, and no page is both present
and recorded as not loaded. -/
structure Unharmed (s : Vm) (cur : Nat) (s' : Vm) : Prop where
  reads : ∀ v x, v % pgSize = 0 → s.wouldRead cur v = some x → s'.wouldRead cur v = some x
  agree : ∀ p v, v % pgSize = 0 → ¬ s'.Clash p v

end Vm

variable {order : List FrameEntry → List FrameEntry} {s s' s1 : Vm} {cur a esp frm pg : Nat}
  {table : SupplHash.Table} {unset : SupplHash.Elem}

/-! ### The growth of the stack -/

/-- From `s`, a frame is found in `s1`, and the page `pg` is mapped to it if there is a table. -/
structure StackGrown (s : Vm) (cur pg frm : Nat) (s1 s' : Vm) : Prop where
  found : FrameFound s cur frm s1
  unmapped : ∀ p v, s1.mapped p v ≠ some frm
  slots : ∀ slot, s.swapBm.Used slot → swapPage s1.swapDevice slot = swapPage s.swapDevice slot
  maps : s.HasTable cur pg → ∀ p v, s'.mapped p v =
    if p = cur ∧ pgRoundDown v = pg then some frm else s1.mapped p v
  fails : ¬ s.HasTable cur pg → ∀ p v, s'.mapped p v = s1.mapped p v
  entry : ∀ p v, s'.entry p v = s1.entry p v
  memory : ∀ page, page ≠ frm → s'.memory page = s1.memory page
  device : s'.swapDevice = s1.swapDevice
  file : s'.file = s1.file

theorem pagedirSetPage_table {upage kpage : Nat} {writable b : Bool}
    (h : pagedirSetPage cur upage kpage writable s = .ok (b, s')) :
    b = true ↔ s.HasTable cur upage := by
  rw [pagedirSetPage, Routine.get_bind_apply] at h
  obtain ⟨r, s1, hset, h⟩ := Routine.bind_ok.mp h
  have hset1 := Routine.lift_ok hset
  obtain rfl := Routine.lift_state hset
  have hb : b = r.isSome := by
    cases r with
    | none =>
      cases h
      rfl
    | some r =>
      cases h
      rfl
  rw [hb, Vm.HasTable]
  simp only [Pagedir.setPage] at hset1
  split at hset1
  · cases hset1
  split at hset1
  · cases hset1
  split at hset1
  · rename_i hpde
    split at hset1
    · cases hset1
    · cases hset1
      simp [hpde]
  · rename_i hpde
    split at hset1
    · rename_i hzero
      cases hset1
      simp [hpde, hzero]
    · rename_i hzero
      cases hset1
      simp [hzero]

theorem ptSupplGrowStack_grown (horder : ∀ fes, (order fes).Perm fes) (hinv : s.Sound)
    (h : ptSupplGrowStack order cur a s = .ok ((), s')) :
    ∃ frm s1, StackGrown s cur (pgRoundDown a) frm s1 s' := by
  rw [ptSupplGrowStack] at h
  obtain ⟨frm, s1, halloc, hrest⟩ := Routine.bind_ok.mp h
  obtain ⟨mapped, s2, hset, hend⟩ := Routine.bind_ok.mp hrest
  obtain ⟨hfound, htables⟩ := vmFrameAlloc_found hinv halloc
  have hheld := (vmFrameAlloc_frameInv horder (pgRoundDown_aligned a) hinv.frames halloc).1
  have hunmapped : ∀ p v, s1.mapped p v ≠ some frm := fun p v hv => (hheld.listed p v frm hv).1 rfl
  have hslots := fun slot (hused : s.swapBm.Used slot) => vmFrameAlloc_swapPage hused halloc
  have htable : mapped = true ↔ s.HasTable cur (pgRoundDown a) := by
    rw [pagedirSetPage_table hset, Vm.HasTable, Vm.HasTable, htables.pde, htables.kernelPages]
  refine ⟨frm, s1, ?_⟩
  cases mapped with
  | true =>
    cases hend
    have hmaps : s1.Maps cur (pgRoundDown a) frm s' := by
      rcases pagedirSetPage_maps hset with ⟨hfalse, -⟩ | ⟨-, -, hmaps⟩
      · cases hfalse
      · exact hmaps
    have hentries := (pagedirSetPage_changes hset).2.1
    rcases pagedirSetPage_ok hset with ⟨hfalse, -⟩ | ⟨-, kernelPages, pd, -, rfl⟩
    · cases hfalse
    · exact ⟨hfound, hunmapped, hslots, fun _ => hmaps.mapped, fun hno => absurd (htable.mp rfl) hno,
        hentries, fun _ _ => rfl, rfl, rfl⟩
  | false =>
    have hfree : vmFrameFree frm s2 = .ok ((), s') := hend
    rcases pagedirSetPage_ok hset with ⟨-, rfl⟩ | ⟨htrue, -⟩
    · clear hend hrest
      cases hfree
      exact ⟨hfound, hunmapped, hslots, fun hyes => absurd (htable.mpr hyes) (by simp), fun _ _ _ => rfl,
        fun _ _ => rfl, fun page hpage => Function.update_of_ne hpage _ _, rfl, rfl⟩
    · cases htrue

theorem Vm.Sound.victim_aligned {fe : FrameEntry} (hinv : s.Sound) (h : s.victim = some fe) :
    fe.threadVaddr % pgSize = 0 := by
  have hmem : fe ∈ s.frameHash := by
    rw [Vm.victim, Option.or_eq_some_iff] at h
    rcases h with hfind | ⟨-, hhead⟩
    · exact List.mem_of_find?_eq_some hfind
    · exact List.mem_of_head? hhead
  exact (hinv.frames.backed fe hmem id).1

/-! ### The bytes after an eviction -/

variable {fe : FrameEntry} {pt : PtSupplEntry} {info inf : PtSupplFileInfo}

/-- A byte that is not stored, or is stored as it was, is kept. -/
theorem fileByte_kept
    (hfile : ∀ f o, (s1.file f)[o]? = (s.storedByte cur fe info f o).or (s.file f)[o]?) {i : Fin 4096}
    (h : ∀ b, i.val < inf.readBytes → s.storedByte cur fe info inf.file (inf.offset + i.val) = some b →
      s.fileByte inf i = some b) : s1.fileByte inf i = s.fileByte inf i := by
  rw [Vm.fileByte, Vm.fileByte]
  split
  · rfl
  · rename_i hzero
    split
    · rename_i hlt
      rw [hfile]
      cases hstored : s.storedByte cur fe info inf.file (inf.offset + i.val) with
      | none => rfl
      | some b =>
        have hkept := h b hlt hstored
        rw [Vm.fileByte, if_neg hzero, if_pos hlt] at hkept
        rw [hkept]
        rfl
    · rfl

theorem fileByte_stored
    (hfile : ∀ f o, (s1.file f)[o]? = (s.storedByte cur fe info f o).or (s.file f)[o]?) {i : Fin 4096}
    {b : UInt8} (hlt : i.val < inf.readBytes)
    (h : s.storedByte cur fe info inf.file (inf.offset + i.val) = some b) :
    s1.fileByte inf i = some b := by
  rw [Vm.fileByte, if_neg (by omega), if_pos hlt, hfile, h]
  rfl

/-- The bytes of an evicted page of the process itself that are stored. -/
theorem storedByte_own (howner : fe.owner = cur)
    (hresident : s.mapped fe.owner fe.threadVaddr = some fe.page)
    (hwrites : s.writesBack fe info = true) {i : Fin 4096} (hlt : i.val < info.readBytes) :
    s.storedByte cur fe info info.file (info.offset + i.val) = some (s.memory fe.page i) := by
  rw [Vm.storedByte, if_pos ⟨hwrites, rfl, by omega, by omega⟩, Vm.pageContents, ← howner, hresident]
  simp

/-- The evicted page of the process reads the same exactly if what is not stored was in the file. -/
theorem fileByte_own_iff (hfile : ∀ f o,
      (s1.file f)[o]? = (s.storedByte cur fe info f o).or (s.file f)[o]?)
    (howner : fe.owner = cur) (hresident : s.mapped fe.owner fe.threadVaddr = some fe.page)
    (i : Fin 4096) : s1.fileByte info i = some (s.memory fe.page i) ↔
      (s.writesBack fe info = true ∧ i.val < info.readBytes) ∨
        s.fileByte info i = some (s.memory fe.page i) := by
  by_cases hstores : s.writesBack fe info = true ∧ i.val < info.readBytes
  · refine iff_of_true ?_ (.inl hstores)
    exact fileByte_stored hfile hstores.2 (storedByte_own howner hresident hstores.1 hstores.2)
  · rw [fileByte_kept hfile, or_iff_right hstores]
    intro b hlt hstored
    rw [Vm.storedByte, if_neg fun hall => hstores ⟨hall.1, hlt⟩] at hstored
    cases hstored

/-- What the process would read in a page once a frame has been found. -/
theorem FrameFound.reads (h : FrameFound s cur frm s1) (hinv : s.Sound)
    (hunmapped : ∀ p v, s1.mapped p v ≠ some frm)
    (hslots : ∀ slot, s.swapBm.Used slot → swapPage s1.swapDevice slot = swapPage s.swapDevice slot)
    (hkeeps : ¬ s.HasFreePage → ∀ fe pt info, s.victim = some fe →
      s.entry fe.owner fe.threadVaddr = some pt → pt.fileInfo = some info →
        s.WriteBackKeeps cur fe info)
    {v : Nat} {x : Fin 4096 → Option UInt8} (hv : v % pgSize = 0) (hx : s.wouldRead cur v = some x) :
    s1.wouldRead cur v = some x := by
  have hround := pgRoundDown_of_aligned hv
  have hused : ∀ e, s.entry cur v = some e → e.presence = .swapped → s.swapBm.Used e.swapSlot :=
    fun e he hpresence => hinv.slots.used ⟨e, he, hpresence, rfl⟩
  cases h with
  | free hfree hentry hmapped hmemory hdevice hfile =>
    cases hpage : s.mapped cur v with
    | some page =>
      have hpage1 := (hmapped cur v).trans hpage
      have hne : page ≠ frm := fun heq => hunmapped cur v (heq ▸ hpage1)
      rw [Vm.wouldRead_mapped hpage] at hx
      rw [Vm.wouldRead_mapped hpage1, hmemory page hne, hx]
    | none =>
      have hpage1 := (hmapped cur v).trans hpage
      obtain ⟨e, he, hback⟩ := Vm.wouldRead_entry hpage hx
      rw [← hentry] at he
      rcases hback with ⟨hpresence, rfl⟩ | ⟨inf, hpresence, hinf, rfl⟩
      · rw [Vm.wouldRead_swapped hpage1 he hpresence, hdevice]
      · rw [Vm.wouldRead_unloaded hpage1 he hpresence hinf, Option.some_inj]
        funext i
        rw [Vm.fileByte, Vm.fileByte, hfile]
  | evicted fe hfull hvictim hresident hpage hout hunmaps hmemory =>
    by_cases hvict : cur = fe.owner ∧ v = fe.threadVaddr
    · -- the page of the process that is evicted
      obtain ⟨rfl, rfl⟩ := hvict
      have hgone : s1.mapped fe.owner fe.threadVaddr = none := by
        rw [hunmaps, hround, if_pos ⟨rfl, rfl⟩]
      rw [Vm.wouldRead_mapped hresident, Option.some_inj] at hx
      cases hout with
      | swap slot hnone hentry hslot hfile =>
        have he := (hentry fe.owner fe.threadVaddr).trans (if_pos ⟨rfl, rfl⟩)
        rw [Vm.wouldRead_swapped hgone he rfl, ← hx, hslot]
      | file pt info hpt hinfo hentry hfile =>
        have he := (hentry fe.owner fe.threadVaddr).trans (if_pos ⟨rfl, rfl⟩)
        rw [Vm.wouldRead_unloaded hgone he rfl hinfo, ← hx, Option.some_inj]
        funext i
        rw [fileByte_own_iff hfile rfl hresident]
        exact (hkeeps hfull fe pt info hvictim hpt hinfo).own rfl i
    · have hsame : s1.mapped cur v = s.mapped cur v := by
        rw [hunmaps, hround, if_neg hvict]
      cases hv1 : s.mapped cur v with
      | some page =>
        rw [Vm.wouldRead_mapped hv1] at hx
        rw [Vm.wouldRead_mapped (hsame.trans hv1), hmemory, hx]
      | none =>
        obtain ⟨e, he, hback⟩ := Vm.wouldRead_entry hv1 hx
        cases hout with
        | swap slot hnone hentry hslot hfile =>
          have he1 := (hentry cur v).trans (if_neg hvict)
          rw [he] at he1
          rcases hback with ⟨hpresence, rfl⟩ | ⟨inf, hpresence, hinf, rfl⟩
          · rw [Vm.wouldRead_swapped (hsame.trans hv1) he1 hpresence, hslots _ (hused e he hpresence)]
          · rw [Vm.wouldRead_unloaded (hsame.trans hv1) he1 hpresence hinf, Option.some_inj]
            funext i
            rw [Vm.fileByte, Vm.fileByte, hfile]
        | file pt info hpt hinfo hentry hfile =>
          have he1 := (hentry cur v).trans (if_neg hvict)
          rw [he] at he1
          rcases hback with ⟨hpresence, rfl⟩ | ⟨inf, hpresence, hinf, rfl⟩
          · rw [Vm.wouldRead_swapped (hsame.trans hv1) he1 hpresence, hslots _ (hused e he hpresence)]
          · rw [Vm.wouldRead_unloaded (hsame.trans hv1) he1 hpresence hinf, Option.some_inj]
            funext i
            refine fileByte_kept hfile fun b hlt hstored => ?_
            exact (hkeeps hfull fe pt info hvictim hpt hinfo).others v e inf i b hv hv1 he hpresence
              hinf hlt hstored

namespace StackGrown

variable {p v : Nat} (h : StackGrown s cur pg frm s1 s')

include h

/-- A page that is mapped as in `s1` reads the same. -/
theorem wouldRead_eq (hmapped : s'.mapped p v = s1.mapped p v) :
    s'.wouldRead p v = s1.wouldRead p v := by
  cases hpage : s1.mapped p v with
  | some page =>
    have hne : page ≠ frm := fun heq => h.unmapped p v (heq ▸ hpage)
    rw [Vm.wouldRead_mapped hpage, Vm.wouldRead_mapped (hmapped.trans hpage), h.memory page hne]
  | none =>
    have hbyte : s'.fileByte = s1.fileByte := by
      funext inf i
      rw [Vm.fileByte, Vm.fileByte, h.file]
    rw [Vm.wouldRead, Vm.wouldRead, hmapped.trans hpage, hpage, h.entry, h.device, hbyte]

/-- Every other page is mapped as once the frame has been found. -/
theorem mapped_other (hother : ¬ (p = cur ∧ pgRoundDown v = pg)) :
    s'.mapped p v = s1.mapped p v := by
  by_cases htable : s.HasTable cur pg
  · rw [h.maps htable, if_neg hother]
  · exact h.fails htable p v

/-- A page that was not mapped is not evicted, and keeps its entry. -/
theorem entry_unmapped (hv : v % pgSize = 0) (hnone : s.mapped p v = none) :
    s1.mapped p v = none ∧ s'.entry p v = s.entry p v := by
  have hround := pgRoundDown_of_aligned hv
  rw [h.entry]
  cases h.found with
  | free hfree hentry hmapped => exact ⟨(hmapped p v).trans hnone, hentry p v⟩
  | evicted fe hfull hvictim hresident hpage hout hunmaps =>
    have hvict : ¬ (p = fe.owner ∧ v = fe.threadVaddr) := by
      rintro ⟨rfl, rfl⟩
      rw [hresident] at hnone
      cases hnone
    refine ⟨?_, ?_⟩
    · rw [hunmaps, hround, if_neg hvict, hnone]
    · cases hout with
      | swap slot _ hentry => rw [hentry, if_neg hvict]
      | file pt info _ _ hentry => rw [hentry, if_neg hvict]

/-- The clashes that there are afterwards: the page that has grown over its entry, and the clashes
from before but for the victim's. -/
theorem clash_iff (hv : v % pgSize = 0) (hnone : s.mapped cur pg = none) :
    s'.Clash p v ↔
      (p = cur ∧ v = pg ∧ s.HasTable cur pg ∧ ∃ e, s.entry cur pg = some e ∧ e.presence ≠ .present) ∨
        s.Clash p v ∧ (s.HasFreePage ∨ ∀ fe, s.victim = some fe →
          ¬ (fe.owner = p ∧ fe.threadVaddr = v)) := by
  have hround := pgRoundDown_of_aligned hv
  by_cases hpage : p = cur ∧ v = pg
  · obtain ⟨rfl, rfl⟩ := hpage
    obtain ⟨hgone, hentry⟩ := h.entry_unmapped hv hnone
    have hno : ¬ s.Clash p v := by
      rintro ⟨hmapped, -⟩
      rw [hnone] at hmapped
      cases hmapped
    rw [Vm.Clash, hentry]
    by_cases htable : s.HasTable p v
    · rw [h.maps htable, if_pos ⟨rfl, hround⟩]
      simp [htable, hno]
    · rw [h.fails htable, hgone]
      simp [htable, hno]
  · have hmapped := h.mapped_other (p := p) (v := v) (by rwa [hround])
    rw [Vm.Clash, hmapped, h.entry]
    cases h.found with
    | free hfree hentry hkept =>
      rw [hkept, hentry]
      constructor
      · exact fun hclash => .inr ⟨hclash, .inl hfree⟩
      · rintro (⟨hp, hpg, -⟩ | ⟨hclash, -⟩)
        · exact absurd ⟨hp, hpg⟩ hpage
        · exact hclash
    | evicted fe hfull hvictim hresident _ hout hunmaps =>
      rw [hunmaps, hround]
      by_cases hvict : p = fe.owner ∧ v = fe.threadVaddr
      · rw [if_pos hvict]
        refine iff_of_false (fun hclash => nomatch hclash.1) ?_
        rintro (⟨hp, hpg, -⟩ | ⟨-, hfree | hnot⟩)
        · exact hpage ⟨hp, hpg⟩
        · exact hfull hfree
        · exact hnot fe hvictim ⟨hvict.1.symm, hvict.2.symm⟩
      · have hentry : s1.entry p v = s.entry p v := by
          cases hout with
          | swap slot _ hentry => rw [hentry, if_neg hvict]
          | file pt info _ _ hentry => rw [hentry, if_neg hvict]
        rw [if_neg hvict, hentry]
        constructor
        · refine fun hclash => .inr ⟨hclash, .inr fun fe' hfe' hsame => hvict ?_⟩
          rw [hvictim] at hfe'
          cases hfe'
          exact ⟨hsame.1.symm, hsame.2.symm⟩
        · rintro (⟨hp, hpg, -⟩ | ⟨hclash, -⟩)
          · exact absurd ⟨hp, hpg⟩ hpage
          · exact hclash

end StackGrown

/-! ### The check -/

theorem isValidAddressOfThread_found {wannawrite b : Bool}
    (h : isValidAddressOfThread order table unset cur a wannawrite esp s = .ok (b, s')) :
    (¬ s.ChecksGrow cur a esp ∧ s' = s) ∨
      s.ChecksGrow cur a esp ∧ ptSupplGrowStack order cur a s = .ok ((), s') := by
  rw [isValidAddressOfThread] at h
  by_cases huser : a ≠ 0 ∧ a < physBase
  · rw [if_pos huser, Routine.get_bind_apply] at h
    cases hpage : (s.process cur).pagedir.getPage a with
    | some page =>
      rw [hpage, Option.isSome_some, if_pos rfl] at h
      refine .inl ⟨fun hgrow => ?_, ?_⟩
      · have hnone := hgrow.2.1
        rw [Vm.mapped, hpage] at hnone
        cases hnone
      · cases h
        rfl
    | none =>
      rw [hpage, Option.isSome_none, if_neg (by simp)] at h
      obtain ⟨entry, s1, hget, h⟩ := Routine.bind_ok.mp h
      cases ptSupplGetEntryByAddr_state hget
      -- where the stack does not grow the entry gives the answer
      obtain ⟨answer, h⟩ : ∃ answer : Bool, (if esp ≠ 0 then
          ptSupplCheckAndGrowStack order cur a esp >>= fun grown =>
            if grown then pure true else pure answer
        else pure false >>= fun grown => if grown then pure true else pure answer :
          VmRoutine Bool) s = .ok (b, s') := by
        rcases entry with _ | e
        · exact ⟨_, h⟩
        · dsimp only at h
          cases hinfo : e.fileInfo with
          | none =>
            rw [hinfo] at h
            exact ⟨_, h⟩
          | some info =>
            rw [hinfo] at h
            exact ⟨_, h⟩
      by_cases hesp : esp ≠ 0
      · rw [if_pos hesp] at h
        obtain ⟨grown, s1, hcheck, hend⟩ := Routine.bind_ok.mp h
        have hresult := ptSupplCheckAndGrowStack_result hcheck
        rcases ptSupplCheckAndGrowStack_found hcheck with ⟨rfl, rfl⟩ | ⟨rfl, hgrow⟩
        · refine .inl ⟨fun hgrow => ?_, ?_⟩
          · rw [hgrow.2.2.2] at hresult
            cases hresult
          · rw [if_neg Bool.false_ne_true] at hend
            cases hend
            rfl
        · cases hend
          exact .inr ⟨⟨huser, hpage, hesp, hresult⟩, hgrow⟩
      · rw [if_neg hesp] at h
        rw [pure_bind, if_neg Bool.false_ne_true] at h
        refine .inl ⟨fun hgrow => hesp hgrow.2.2.1, ?_⟩
        cases h
        rfl
  · rw [if_neg huser] at h
    cases h
    exact .inl ⟨fun hgrow => huser hgrow.1, rfl⟩

theorem Vm.unharmed_self : s.Unharmed cur s ↔ ∀ p v, v % pgSize = 0 → ¬ s.Clash p v :=
  ⟨fun h => h.agree, fun h => ⟨fun _ _ _ hx => hx, h⟩⟩

theorem StackGrown.unharmed_iff (h : StackGrown s cur (pgRoundDown a) frm s1 s') (hinv : s.Sound)
    (hgrow : s.ChecksGrow cur a esp) : s.Unharmed cur s' ↔ s.CheckSafe cur a esp := by
  have halign := pgRoundDown_aligned a
  have hnone : s.mapped cur (pgRoundDown a) = none := by
    rw [Vm.mapped, Pagedir.getPage_round]
    exact hgrow.2.1
  constructor
  · intro hun
    have hentry : s.HasTable cur (pgRoundDown a) → ∀ e, s.entry cur (pgRoundDown a) = some e →
        e.presence = .present := by
      intro htable e he
      by_contra hpresence
      exact hun.agree cur _ halign ((h.clash_iff halign hnone).mpr
        (.inl ⟨rfl, rfl, htable, e, he, hpresence⟩))
    refine ⟨fun _ => hentry, fun _ hfull fe pt info hvictim hpt hinfo => ?_, fun p v hv hclash => ?_⟩
    · cases h.found with
      | free hfree => exact absurd hfree hfull
      | evicted fe' _ hvictim' hresident hpage hout hunmaps =>
        obtain rfl : fe' = fe := Option.some.inj (hvictim'.symm.trans hvictim)
        cases hout with
        | swap slot hpt' =>
          rw [hpt] at hpt'
          cases hpt'
        | file pt' info' hpt' hinfo' hset hfile =>
          obtain rfl : pt' = pt := Option.some.inj (hpt'.symm.trans hpt)
          obtain rfl : info' = info := Option.some.inj (hinfo'.symm.trans hinfo)
          have hbyte : s'.fileByte = s1.fileByte := by
            funext inf i
            rw [Vm.fileByte, Vm.fileByte, h.file]
          refine ⟨fun howner i => ?_, fun v e inf i b hv hunmapped he hpresence hinf hlt hstored => ?_⟩
          · -- the process's own page is evicted, and is read from its file from then on
            have hmem := hinv.victim_aligned hvictim
            have hround := pgRoundDown_of_aligned hmem
            have hne : ¬ (fe'.owner = cur ∧ pgRoundDown fe'.threadVaddr = pgRoundDown a) := by
              rintro ⟨-, hsame⟩
              rw [hround] at hsame
              rw [hsame, howner, hnone] at hresident
              cases hresident
            have hgone : s'.mapped cur fe'.threadVaddr = none := by
              rw [← howner, h.mapped_other hne, hunmaps, if_pos ⟨rfl, hround⟩]
            have he := (h.entry cur fe'.threadVaddr).trans
              ((hset cur fe'.threadVaddr).trans (if_pos ⟨howner.symm, rfl⟩))
            have hread := hun.reads fe'.threadVaddr _ hmem
              (Vm.wouldRead_mapped (howner ▸ hresident))
            rw [Vm.wouldRead_unloaded hgone he rfl hinfo, Option.some_inj, hbyte] at hread
            exact (fileByte_own_iff hfile howner hresident i).mp (congrFun hread i)
          · have hround := pgRoundDown_of_aligned hv
            obtain ⟨hgone, hkept⟩ := h.entry_unmapped hv hunmapped
            rw [he] at hkept
            have hmapped' : s'.mapped cur v = none := by
              by_cases htable : s.HasTable cur (pgRoundDown a)
              · rw [h.maps htable, hround, if_neg, hgone]
                rintro ⟨-, rfl⟩
                rw [hentry htable e he] at hpresence
                cases hpresence
              · rw [h.fails htable, hgone]
            have hread := hun.reads v _ hv (Vm.wouldRead_unloaded hunmapped he hpresence hinf)
            rw [Vm.wouldRead_unloaded hmapped' hkept hpresence hinf, Option.some_inj, hbyte] at hread
            rw [← congrFun hread i]
            exact fileByte_stored hfile hlt hstored
    · by_contra hnot
      refine hun.agree p v hv ((h.clash_iff hv hnone).mpr (.inr ⟨hclash, ?_⟩))
      by_cases hfree : s.HasFreePage
      · exact .inl hfree
      · refine .inr fun fe hfe hsame => hnot ⟨hgrow, hfree, fe, hfe, hsame⟩
  · intro hsafe
    refine ⟨fun v x hv hx => ?_, fun p v hv hclash => ?_⟩
    · have hround := pgRoundDown_of_aligned hv
      have hx1 := h.found.reads hinv h.unmapped h.slots (hsafe.eviction hgrow) hv hx
      rw [h.wouldRead_eq, hx1]
      by_cases htable : s.HasTable cur (pgRoundDown a)
      · refine h.mapped_other ?_
        rintro ⟨-, hsame⟩
        -- a page that is backed and not mapped has an entry that is not loaded
        rw [hround] at hsame
        rw [hsame] at hx
        obtain ⟨e, he, hback⟩ := Vm.wouldRead_entry hnone hx
        have hpresent := hsafe.entry hgrow htable e he
        rcases hback with ⟨hpresence, -⟩ | ⟨inf, hpresence, -⟩
        · rw [hpresent] at hpresence
          cases hpresence
        · rw [hpresent] at hpresence
          cases hpresence
      · exact h.fails htable cur v
    · rcases (h.clash_iff hv hnone).mp hclash with
        ⟨-, -, htable, e, he, hpresence⟩ | ⟨hbefore, hkept⟩
      · exact hpresence (hsafe.entry hgrow htable e he)
      · obtain ⟨-, hfull, fe, hfe, hsame⟩ := hsafe.clash p v hv hbefore
        rcases hkept with hfree | hnot
        · exact hfull hfree
        · exact hnot fe hfe hsame

theorem check_found {wannawrite b : Bool} (horder : ∀ fes, (order fes).Perm fes) (hinv : s.Sound)
    (h : isValidAddressOfThread order table unset cur a wannawrite esp s = .ok (b, s')) :
    s.Unharmed cur s' ↔ s.CheckSafe cur a esp := by
  rcases isValidAddressOfThread_found h with ⟨hno, rfl⟩ | ⟨hgrow, hrun⟩
  · rw [Vm.unharmed_self]
    constructor
    · intro hagree
      exact ⟨fun hyes => absurd hyes hno, fun hyes => absurd hyes hno,
        fun p v hv hclash => absurd hclash (hagree p v hv)⟩
    · exact fun hsafe p v hv hclash => hno (hsafe.clash p v hv hclash).1
  · obtain ⟨frm, s1, hgrown⟩ := ptSupplGrowStack_grown horder hinv hrun
    exact hgrown.unharmed_iff hinv hgrow

/-! ### Runs -/

/-- The step lemma. -/
theorem MemoryOp.exec_sound {bucket : PtSuppl → List Nat} {op : MemoryOp}
    (horder : ∀ fes, (order fes).Perm fes) (hproper : op.Proper) (hinv : s.Sound)
    (h : op.exec order bucket s = .ok ((), s')) : s'.Sound := by
  cases op with
  | paging op => exact op.exec_sound horder hproper hinv h
  | check table unset cur a wannawrite esp =>
    obtain ⟨b, s1, hcheck, hend⟩ := Routine.bind_ok.mp h
    cases hend
    rcases isValidAddressOfThread_found hcheck with ⟨-, rfl⟩ | ⟨-, hgrow⟩
    · exact hinv
    · exact ⟨ptSupplGrowStack_framesAgree horder hinv.frames hgrow,
        (ptSupplGrowStack_changes hgrow).slotsHeld hinv.slots,
        (ptSupplGrowStack_infos hgrow).keeps hinv.infos⟩

/-- The run lemma. -/
theorem sound_of_memoryRun {bucket : PtSuppl → List Nat} {ops : List MemoryOp} {s0 : Vm}
    (horder : ∀ fes, (order fes).Perm fes) (hproper : ∀ op ∈ ops, op.Proper) (hboot : s0.Unused)
    (h : Routine.Visits (MemoryOp.exec order bucket) ops s0 s) : s.Sound := by
  have hstep : ∀ t op u t', Vm.Sound t → MemoryOp.Proper op →
      op.exec order bucket t = .ok (u, t') → Vm.Sound t' :=
    fun t op u t' ht hop hrun => op.exec_sound horder hop ht hrun
  refine h.invariant hstep ?_ hboot.sound
  intro op t htakes
  obtain ⟨before, after, as, rfl, -⟩ := htakes
  exact hproper op (List.mem_append_right _ List.mem_cons_self)

/-- In every state that a run reaches, the check of an address leaves the process's memory alone
exactly if the stack does not grow over a page that is not loaded, no page clashed before, and the
frame it takes, if one is evicted, changes no byte of the process. -/
theorem check_unharmed_iff {bucket : PtSuppl → List Nat} {ops : List MemoryOp} {s0 : Vm}
    {wannawrite b : Bool} (horder : ∀ fes, (order fes).Perm fes) (hproper : ∀ op ∈ ops, op.Proper)
    (hboot : s0.Unused) (hrun : Routine.Visits (MemoryOp.exec order bucket) ops s0 s)
    (hcheck : isValidAddressOfThread order table unset cur a wannawrite esp s = .ok (b, s')) :
    s.Unharmed cur s' ↔ s.CheckSafe cur a esp :=
  check_found horder (sound_of_memoryRun horder hproper hboot hrun) hcheck

/-- Process 0 writes 7 to the top of its stack, and process 1 writes 9 to its own, for which the
stack of process 0 is evicted. -/
def stackSwappedOut : List MemoryOp :=
  [.paging (.page (.pageFault 0 0xbffffff0 0xbffffff0)),
    .paging (.page (.access 0 0xbffffff0 (some 7))),
    .paging (.page (.pageFault 1 0xbffffff0 0xbffffff0)),
    .paging (.page (.access 1 0xbffffff0 (some 9)))]

/-- The entry of the stack page once it is in swap. -/
def swappedStack : SupplHash.Elem := { SupplHash.swappedPage with vaddr := 0xbffff000 }

/-- The check of an address of the stack of process 0, whose only entry is that page. -/
def stackCheck : VmRoutine Bool :=
  isValidAddressOfThread id (SupplHash.Table.empty.add true swappedStack (by decide) fun h =>
    absurd h (by decide)) swappedStack 0 0xbffffff0 true 0xbffffff0

/-- Process 0 then has its stack checked: it would have read 7 there and reads 9 from then on. -/
theorem stackSwappedOut_check : ∃ s b s', Routine.Visits (MemoryOp.exec id fun _ => [])
    stackSwappedOut oneFrameVm s ∧
    stackCheck s = .ok (b, s') ∧
    (s.wouldRead 0 0xbffff000).map (· 0xff0) = some (some 7) ∧
    (s'.wouldRead 0 0xbffff000).map (· 0xff0) = some (some 9) ∧ s'.Clash 0 0xbffff000 := by
  have hends : ((Routine.execAll (MemoryOp.exec id fun _ => []) stackSwappedOut oneFrameVm).bind
      fun r => (stackCheck r.2).map fun q =>
        ((r.2.wouldRead 0 0xbffff000).map (· 0xff0), (q.2.wouldRead 0 0xbffff000).map (· 0xff0),
          (q.2.mapped 0 0xbffff000).isSome, (q.2.entry 0 0xbffff000).map PtSupplEntry.presence)) =
      .ok (some (some 7), some (some 9), true, some .swapped) := by decide +kernel
  cases hrun : Routine.execAll (MemoryOp.exec id fun _ => []) stackSwappedOut oneFrameVm with
  | error fault =>
    rw [hrun] at hends
    cases hends
  | ok r =>
    rw [hrun] at hends
    cases hcheck : stackCheck r.2 with
    | error fault =>
      simp only [Except.bind, hcheck] at hends
      cases hends
    | ok q =>
      simp only [Except.bind, hcheck, Except.map, Except.ok.injEq, Prod.mk.injEq] at hends
      obtain ⟨hbefore, hafter, hmapped, hentry⟩ := hends
      obtain ⟨e, he, hpresence⟩ := Option.map_eq_some_iff.mp hentry
      refine ⟨r.2, q.1, q.2, ⟨stackSwappedOut, [], r.1, (List.append_nil _).symm, hrun⟩, hcheck,
        hbefore, hafter, hmapped, e, he, ?_⟩
      rw [hpresence]
      nofun

/-- `check_unharmed_iff` in this run. -/
theorem check_unharmed_iff_swappedOut : ∃ s b s', Routine.Visits (MemoryOp.exec id fun _ => [])
    stackSwappedOut oneFrameVm s ∧
    stackCheck s = .ok (b, s') ∧
    (s.Unharmed 0 s' ↔ s.CheckSafe 0 0xbffffff0 0xbffffff0) := by
  obtain ⟨s, b, s', hvisits, hcheck, -⟩ := stackSwappedOut_check
  have hproper : ∀ op ∈ stackSwappedOut, op.Proper := by
    simp [stackSwappedOut, MemoryOp.Proper, PagingOp.Proper]
  exact ⟨s, b, s', hvisits, hcheck,
    check_unharmed_iff (fun _ => .refl _) hproper oneFrameVm_unused hvisits hcheck⟩

/-- The check maps another page over the stack page that is in swap. -/
theorem check_destroys_page : ¬ ∀ s b s', Routine.Visits (MemoryOp.exec id fun _ => [])
    stackSwappedOut oneFrameVm s →
    stackCheck s = .ok (b, s') → s.Unharmed 0 s' := by
  intro hall
  obtain ⟨s, b, s', hvisits, hcheck, -, -, hclash⟩ := stackSwappedOut_check
  exact (hall s b s' hvisits hcheck).agree 0 0xbffff000 (by decide) hclash

end Pintos
