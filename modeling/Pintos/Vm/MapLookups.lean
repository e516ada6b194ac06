import Pintos.Vm.SupplHash

/-! Lookups by map id in the supplemental table: the key of `pt_suppl_handle_unmap`, and the key of
`unmap_all` with the owner.  They meet entries of every kind, in any table that insertions,
deletions and changes of entries in place have built. -/

namespace Pintos

namespace SupplHash

/-- `pt_suppl_setup_file_info`, where `calloc` returns an entry with its member `elem` at `elem`. -/
def ptSupplSetupFileInfo (lastMap current : Nat) (elem : {elem : Nat // elem ≠ 0})
    (file offset pageAddr readBytes zeroBytes : Nat) (writable : Bool) (status : Nat) : Elem where
  vaddr := pageAddr
  status := status
  swapSlot := 0
  fileInfo := .to
    { file, owner := current, mapId := lastMap, offset, readBytes, zeroBytes, writable }
  elem := elem
  elem_ne := elem.property

/-- What the program puts into a table: a memory mapped entry has a file, and its map id has been
counted by `last_map`. -/
structure Fits (e : Elem) : Prop where
  vaddr_ne : e.vaddr ≠ 0
  mapped : getType e.status = mmf → ∃ info, e.fileInfo = .to info ∧ 0 ≤ info.mapId

theorem fits_setupFileInfo {lastMap current file offset pageAddr readBytes zeroBytes : Nat}
    {elem : {elem : Nat // elem ≠ 0}} {writable : Bool} {status : Nat} (hpage : pageAddr ≠ 0) :
    Fits (ptSupplSetupFileInfo lastMap current elem file offset pageAddr readBytes zeroBytes
      writable status) :=
  ⟨hpage, fun _ => ⟨_, rfl, Int.natCast_nonneg lastMap⟩⟩

/-- What stays of an entry whose presence changes in place. -/
structure SameKey (e e' : Elem) : Prop where
  vaddr : e'.vaddr = e.vaddr
  type : getType e'.status = getType e.status
  fileInfo : e'.fileInfo = e.fileInfo

/-- The table with its entries changed in place. -/
def changeInPlace (f : Elem → Elem) (h : HashTable Elem) : HashTable Elem :=
  { h with buckets := h.buckets.map (·.map f) }

/-- The tables that insertions and deletions build, by any keys and with any outcomes of the
allocations in `rehash`. -/
inductive Built : HashTable Elem → Prop
  | init : Built .hashInit
  | insert {h h' : HashTable Elem} {malloc : Bool} {entry : Elem} {old : Option Elem}
      (hbuilt : Built h) (hentry : Fits entry)
      (hrun : h.hashInsert supplHash ptSupplLess malloc entry = .ok (old, h')) : Built h'
  | delete {h h' : HashTable Elem} {malloc : Bool} {key : Elem} {found : Option Elem}
      (hbuilt : Built h)
      (hrun : h.hashDelete supplHash ptSupplLess malloc key = .ok (found, h')) : Built h'
  | change {h : HashTable Elem} {f : Elem → Elem} (hbuilt : Built h)
      (hf : ∀ e ∈ h.elems, SameKey e (f e)) : Built (changeInPlace f h)

/-- The key of `unmap_all` for the process `current`. -/
def UnmapKey.ownerKey (unset : UnmapKey) (current : Nat) : Elem :=
  { unset.entry with
    vaddr := 0, fileInfo := .to { unset.mmfile with mapId := -1, owner := current }, status := mmf }

/-- The loop of `unmap_all`: what each call of `pt_suppl_handle_unmap` does, and the table at the
end.  `dirty`, `malloc` and `unset` are those of the single calls. -/
def unmapAllRounds (dirty malloc : Nat → Nat → Bool) (unset : Nat → UnmapKey) (key : Elem) :
    (fuel : Nat) → HashTable Elem → Except Fault (List Unmap × HashTable Elem)
  | 0, _ => .error .spin
  | fuel + 1, table => do
    match ← table.hashFind supplHash ptSupplLess key with
    | none => pure ([], table)
    | some delet => do
      if delet.fileInfo = .null then throw (.assertion "delet->file_info != NULL")
      let info ← delet.fileInfo.deref
      let unmap ← ptSupplHandleUnmap (dirty fuel) (malloc fuel) table info.mapId (unset fuel)
      let (unmaps, table) ← unmapAllRounds dirty malloc unset key fuel unmap.table
      pure (unmap :: unmaps, table)

/-- `unmap_all`: every round but the last takes an element out of the table. -/
def unmapAll (dirty malloc : Nat → Nat → Bool) (unset : Nat → UnmapKey) (own : UnmapKey)
    (current : Nat) (table : HashTable Elem) : Except Fault (List Unmap × HashTable Elem) :=
  unmapAllRounds dirty malloc unset (own.ownerKey current) (table.elems.length + 1) table

/-! ### The tables that are built -/

variable {h h' : HashTable Elem}

theorem elems_changeInPlace (f : Elem → Elem) (h : HashTable Elem) :
    (changeInPlace f h).elems = h.elems.map f :=
  List.map_flatten.symm

theorem IsSuppl.changeInPlace (hs : IsSuppl h) {f : Elem → Elem}
    (hf : ∀ e ∈ h.elems, SameKey e (f e)) : IsSuppl (changeInPlace f h) := by
  have hlength : (SupplHash.changeInPlace f h).buckets.length = h.buckets.length :=
    List.length_map ..
  refine ⟨⟨?_, fun i b hb e he => ?_, ?_⟩, fun e he => ?_, ?_, fun e he htype => ?_⟩
  · rw [← List.length_pos_iff, hlength]
    exact List.length_pos_iff.mpr hs.placed.bucket
  · obtain ⟨c, hc, rfl⟩ := List.getElem?_map ▸ hb |> Option.map_eq_some_iff.mp
    obtain ⟨e0, he0, rfl⟩ := List.mem_map.mp he
    rw [HashTable.bucketIdx, hlength, supplHash_eq, ← supplHash_eq e0]
    exact hs.placed.idx i c hc e0 he0
  · rw [elems_changeInPlace, List.length_map, ← hs.placed.count]
    rfl
  · rw [elems_changeInPlace] at he
    obtain ⟨e0, he0, rfl⟩ := List.mem_map.mp he
    rw [(hf e0 he0).vaddr]
    exact hs.vaddr_ne e0 he0
  · have hvaddrs : h.elems.map (Elem.vaddr ∘ f) = h.elems.map Elem.vaddr :=
      List.map_congr_left fun e he => (hf e he).vaddr
    rw [elems_changeInPlace, List.map_map, hvaddrs]
    exact hs.distinct
  · rw [elems_changeInPlace] at he
    obtain ⟨e0, he0, rfl⟩ := List.mem_map.mp he
    rw [(hf e0 he0).type] at htype
    rw [(hf e0 he0).fileInfo]
    exact hs.mapped e0 he0 htype

/-- What a deletion by any key leaves. -/
theorem hashDelete_cases (hs : IsSuppl h) {malloc : Bool} {key : Elem} {found : Option Elem}
    (hrun : h.hashDelete supplHash ptSupplLess malloc key = .ok (found, h')) :
    h' = h ∨ ∃ e ∈ h.elems, h' = delete h malloc e := by
  rw [HashTable.hashDelete] at hrun
  cases hfind : h.hashFind supplHash ptSupplLess key with
  | error fault =>
    rw [hfind] at hrun
    cases hrun
  | ok result =>
    rw [hfind] at hrun
    cases result with
    | none =>
      cases hrun
      exact .inl rfl
    | some e =>
      cases hrun
      rw [HashTable.hashFind, hs.findBucket] at hfind
      refine .inr ⟨e, HashTable.mem_of_findElem hfind, ?_⟩
      rw [delete, bucketIdx_eq h key e]

/-- Every table that is built is one of supplemental entries. -/
theorem Built.sound (hb : Built h) : IsSuppl h ∧ ∀ e ∈ h.elems, Fits e := by
  induction hb with
  | init => exact ⟨Table.empty.isSuppl, nofun⟩
  | @insert h h' malloc entry old _ hentry hrun ih =>
    obtain ⟨hs, hfits⟩ := ih
    have hmapped : getType entry.status = mmf → ∃ info, entry.fileInfo = .to info := fun htype =>
      (hentry.mapped htype).imp fun _ h => h.1
    rw [hashInsert_eq hs hentry.vaddr_ne] at hrun
    cases hfind : h.elems.find? fun e => e.vaddr = entry.vaddr with
    | none =>
      rw [hfind] at hrun
      cases hrun
      have hinsert := hs.insertElem hentry.vaddr_ne hmapped hfind
      refine ⟨hinsert.perm (hinsert.placed.rehash malloc) (HashTable.rehash_elems malloc _),
        fun e he => ?_⟩
      have hmem := (HashTable.rehash_elems malloc _).mem_iff.mp he
      rcases List.mem_cons.mp ((HashTable.insertElem_elems hs.placed entry).mem_iff.mp hmem) with
        rfl | hold
      · exact hentry
      · exact hfits e hold
    | some found =>
      rw [hfind] at hrun
      cases hrun
      exact ⟨hs.perm (hs.placed.rehash malloc) (HashTable.rehash_elems malloc _), fun e he =>
        hfits e ((HashTable.rehash_elems malloc _).mem_iff.mp he)⟩
  | delete _ hrun ih =>
    obtain ⟨hs, hfits⟩ := ih
    rcases hashDelete_cases hs hrun with rfl | ⟨e, he, rfl⟩
    · exact ⟨hs, hfits⟩
    · exact ⟨hs.delete he _, fun x hx =>
        hfits x ((delete_elems hs he _).mem_iff.mpr (List.mem_cons_of_mem _ hx))⟩
  | change _ hf ih =>
    obtain ⟨hs, hfits⟩ := ih
    refine ⟨hs.changeInPlace hf, fun e he => ?_⟩
    rw [elems_changeInPlace] at he
    obtain ⟨e0, he0, rfl⟩ := List.mem_map.mp he
    have hsame := hf e0 he0
    refine ⟨hsame.vaddr ▸ (hfits e0 he0).vaddr_ne, fun htype => ?_⟩
    rw [hsame.fileInfo]
    exact (hfits e0 he0).mapped (hsame.type ▸ htype)

/-! ### Lookups -/

/-- A memory mapped entry of the map id. -/
def MappedAs (mapId : Int) (e : Elem) : Prop :=
  getType e.status = mmf ∧ ∃ info, e.fileInfo = .to info ∧ info.mapId = mapId

/-- A memory mapped entry of the owner. -/
def MappedBy (owner : Nat) (e : Elem) : Prop :=
  getType e.status = mmf ∧ ∃ info, e.fileInfo = .to info ∧ info.owner = owner

/-- A lookup returned one of the elements it looks for, or null where there is none. -/
def Finds (p : Elem → Prop) (elems : List Elem) : Option Elem → Prop
  | some e => e ∈ elems ∧ p e
  | none => ∀ e ∈ elems, ¬ p e

theorem finds_find? {p : Elem → Bool} {P : Elem → Prop} {elems : List Elem}
    (hp : ∀ e ∈ elems, p e = true ↔ P e) : Finds P elems (elems.find? p) := by
  cases hfind : elems.find? p with
  | none => exact fun e he hP => List.find?_eq_none.mp hfind e he ((hp e he).mpr hP)
  | some e =>
    have he := List.mem_of_find?_eq_some hfind
    exact ⟨he, (hp e he).mp (List.find?_some hfind)⟩

/-- Among map ids that are not negative, the key's owner does not count. -/
theorem inMapping_iff_mappedAs {e : Elem} (he : Fits e) {mapId : Int} (hmap : 0 ≤ mapId)
    (owner : Nat) : inMapping mapId owner e = true ↔ MappedAs mapId e := by
  rw [inMapping, MappedAs, Bool.and_eq_true, decide_eq_true_eq]
  refine and_congr_right fun htype => ?_
  obtain ⟨info, hinfo, hid⟩ := he.mapped htype
  have hneg : ¬ (info.mapId < 0 ∨ mapId < 0) := by omega
  simp [hinfo, hneg]

theorem inMapping_iff_mappedBy (hs : IsSuppl h) {e : Elem} (he : e ∈ h.elems) (owner : Nat) :
    inMapping (-1) owner e = true ↔ MappedBy owner e := by
  rw [inMapping, MappedBy, Bool.and_eq_true, decide_eq_true_eq]
  refine and_congr_right fun htype => ?_
  obtain ⟨info, hinfo⟩ := hs.mapped e he htype
  simp [hinfo]

/-- What `unmap_all` finds. -/
theorem hashFind_ownerKey (hs : IsSuppl h) (unset : UnmapKey) (current : Nat) :
    h.hashFind supplHash ptSupplLess (unset.ownerKey current) =
      .ok (h.elems.find? (inMapping (-1) current)) := by
  rw [HashTable.hashFind, hs.findBucket]
  exact HashTable.findElem_of_decides
    (decides_key hs (-1) ⟨unset.entry, { unset.mmfile with owner := current }⟩)

/-- The loop of `pt_suppl_handle_unmap` leaves a table of supplemental entries. -/
theorem unmapRounds_isSuppl {dirty malloc : Nat → Bool} {mapId : Int} {unset : UnmapKey}
    {fuel : Nat} {u u' : Unmap} (hs : IsSuppl u.table)
    (hrun : unmapRounds dirty malloc (unset.key mapId) fuel u = .ok u') : IsSuppl u'.table := by
  induction fuel generalizing u with
  | zero => cases hrun
  | succ fuel ih =>
    rw [unmapRounds_succ hs (decides_key hs mapId unset)] at hrun
    cases hfind : u.table.elems.find? (inMapping mapId unset.mmfile.owner) with
    | none =>
      rw [hfind] at hrun
      cases hrun
      exact hs
    | some delet =>
      have hmem := List.mem_of_find?_eq_some hfind
      obtain ⟨info, hinfo⟩ := hs.mapped delet hmem (inMapping_mmf (List.find?_some hfind))
      obtain ⟨writes, hentry⟩ := unmapEntry_of_info dirty u hinfo
        (delete u.table (malloc fuel) delet)
      simp only [hfind, hentry] at hrun
      exact ih (u := ⟨delete u.table (malloc fuel) delet, writes, u.freed ++ [delet],
        some info.file⟩) (hs.delete hmem _) hrun

/-- `pt_suppl_handle_unmap` frees the entries of its map id, and ends. -/
theorem ptSupplHandleUnmap_frees (dirty malloc : Nat → Bool) (unset : UnmapKey) (hs : IsSuppl h)
    (hfits : ∀ e ∈ h.elems, Fits e) {mapId : Int} (hmap : 0 ≤ mapId) :
    ∃ u, ptSupplHandleUnmap dirty malloc h mapId unset = .ok u ∧ IsSuppl u.table ∧
      h.elems.Perm (u.freed ++ u.table.elems) ∧ (∀ e ∈ u.freed, MappedAs mapId e) ∧
      ∀ e ∈ u.table.elems, ¬ MappedAs mapId e := by
  obtain ⟨u, freed, hrun, hfreed, hperm, hall, hrest⟩ :=
    @unmapRounds_frees dirty malloc mapId unset ⟨h, [], [], none⟩ (h.elems.length + 1) hs
      (Nat.lt_succ_self _)
  rw [List.nil_append] at hfreed
  subst hfreed
  have hin : ∀ e ∈ h.elems, inMapping mapId unset.mmfile.owner e = true ↔ MappedAs mapId e :=
    fun e he => inMapping_iff_mappedAs (hfits e he) hmap unset.mmfile.owner
  refine ⟨u, hrun, unmapRounds_isSuppl (u := ⟨h, [], [], none⟩) hs hrun, hperm, fun e he => ?_,
    fun e he => ?_⟩
  · exact (hin e (hperm.mem_iff.mpr (List.mem_append_left _ he))).mp (hall e he)
  · intro hmapped
    exact hrest e he ((hin e (hperm.mem_iff.mpr (List.mem_append_right _ he))).mpr hmapped)

/-- One round of `unmap_all` that finds an entry. -/
theorem unmapAllRounds_found {dirty malloc : Nat → Nat → Bool} {unset : Nat → UnmapKey} {key : Elem}
    {fuel : Nat} {delet : Elem} {info : FileInfo} {u : Unmap}
    (hfind : h.hashFind supplHash ptSupplLess key = .ok (some delet))
    (hinfo : delet.fileInfo = .to info)
    (hrun : ptSupplHandleUnmap (dirty fuel) (malloc fuel) h info.mapId (unset fuel) = .ok u) :
    unmapAllRounds dirty malloc unset key (fuel + 1) h = (do
      let (unmaps, table) ← unmapAllRounds dirty malloc unset key fuel u.table
      pure (u :: unmaps, table)) := by
  have hnotNull : ¬ FileInfoPtr.to info = .null := nofun
  rw [unmapAllRounds, hfind]
  dsimp only [bind, Except.bind]
  rw [hinfo, if_neg hnotNull]
  dsimp only [FileInfoPtr.deref, pure, Except.pure]
  rw [hrun]

/-- The loop of `unmap_all` frees memory mapped entries until its owner has none, and ends. -/
theorem unmapAllRounds_frees (dirty malloc : Nat → Nat → Bool) (unset : Nat → UnmapKey)
    (own : UnmapKey) (current : Nat) {fuel : Nat} (hs : IsSuppl h)
    (hfits : ∀ e ∈ h.elems, Fits e) (hfuel : h.elems.length < fuel) :
    ∃ unmaps h', unmapAllRounds dirty malloc unset (own.ownerKey current) fuel h =
        .ok (unmaps, h') ∧
      h.elems.Perm (unmaps.flatMap Unmap.freed ++ h'.elems) ∧
      (∀ e ∈ unmaps.flatMap Unmap.freed, getType e.status = mmf) ∧
      ∀ e ∈ h'.elems, ¬ MappedBy current e := by
  induction fuel generalizing h with
  | zero => exact absurd hfuel (Nat.not_lt_zero _)
  | succ fuel ih =>
    have hfind := hashFind_ownerKey hs own current
    have hfinds : Finds (MappedBy current) h.elems (h.elems.find? (inMapping (-1) current)) :=
      finds_find? fun e he => inMapping_iff_mappedBy hs he current
    cases hfound : h.elems.find? (inMapping (-1) current) with
    | none =>
      rw [hfound] at hfind hfinds
      refine ⟨[], h, ?_, .refl _, nofun, hfinds⟩
      rw [unmapAllRounds, hfind]
      rfl
    | some delet =>
      rw [hfound] at hfinds
      obtain ⟨hmem, htype, -⟩ := hfinds
      obtain ⟨info, hinfo, hid⟩ := (hfits delet hmem).mapped htype
      obtain ⟨u, hrun, hs', hperm, hall, hrest⟩ :=
        ptSupplHandleUnmap_frees (dirty fuel) (malloc fuel) (unset fuel) hs hfits hid
      -- the entry found is one of those that the call frees
      have hfreed : delet ∈ u.freed := by
        rcases List.mem_append.mp (hperm.mem_iff.mp hmem) with hfreed | hleft
        · exact hfreed
        · exact absurd ⟨htype, info, hinfo, rfl⟩ (hrest delet hleft)
      have hless : u.table.elems.length < fuel := by
        have hlength := hperm.length_eq
        have hpos := List.length_pos_of_mem hfreed
        rw [List.length_append] at hlength
        omega
      obtain ⟨unmaps, h', hrounds, hperm', hall', hnone⟩ := ih hs'
        (fun e he => hfits e (hperm.mem_iff.mpr (List.mem_append_right _ he))) hless
      refine ⟨u :: unmaps, h', ?_, ?_, fun e he => ?_, hnone⟩
      · rw [unmapAllRounds_found (hfind.trans (congrArg Except.ok hfound)) hinfo hrun, hrounds]
        rfl
      · rw [List.flatMap_cons, List.append_assoc]
        exact hperm.trans (hperm'.append_left u.freed)
      · rcases List.mem_append.mp (List.flatMap_cons ▸ he) with hfirst | hlater
        · exact (hall e hfirst).1
        · exact hall' e hlater

/-- In every table that is built, `hash_delete` with a map id finds a memory mapped entry of that id
if there is one, and `hash_find` with an owner one of that owner; so `pt_suppl_handle_unmap` and
`unmap_all` end, without a fault, and leave no entry of the id or of the owner. -/
theorem lookups_by_map (hb : Built h) :
    (∀ mapId, 0 ≤ mapId → ∀ (unset : UnmapKey) (malloc : Bool), ∃ found h',
      h.hashDelete supplHash ptSupplLess malloc (unset.key mapId) = .ok (found, h') ∧
      Finds (MappedAs mapId) h.elems found ∧ h.elems.Perm (found.toList ++ h'.elems)) ∧
    (∀ current (unset : UnmapKey), ∃ found,
      h.hashFind supplHash ptSupplLess (unset.ownerKey current) = .ok found ∧
      Finds (MappedBy current) h.elems found) ∧
    (∀ mapId, 0 ≤ mapId → ∀ dirty malloc unset, ∃ u,
      ptSupplHandleUnmap dirty malloc h mapId unset = .ok u ∧
      h.elems.Perm (u.freed ++ u.table.elems) ∧ (∀ e ∈ u.freed, MappedAs mapId e) ∧
      ∀ e ∈ u.table.elems, ¬ MappedAs mapId e) ∧
    ∀ current dirty malloc unset own, ∃ unmaps h',
      unmapAll dirty malloc unset own current h = .ok (unmaps, h') ∧
      h.elems.Perm (unmaps.flatMap Unmap.freed ++ h'.elems) ∧
      (∀ e ∈ unmaps.flatMap Unmap.freed, getType e.status = mmf) ∧
      ∀ e ∈ h'.elems, ¬ MappedBy current e := by
  obtain ⟨hs, hfits⟩ := hb.sound
  refine ⟨fun mapId hmap unset malloc => ?_, fun current unset => ?_,
    fun mapId hmap dirty malloc unset => ?_, fun current dirty malloc unset own => ?_⟩
  · have hfinds : Finds (MappedAs mapId) h.elems
        (h.elems.find? (inMapping mapId unset.mmfile.owner)) :=
      finds_find? fun e he => inMapping_iff_mappedAs (hfits e he) hmap _
    rw [hashDelete_eq hs (decides_key hs mapId unset)]
    cases hfound : h.elems.find? (inMapping mapId unset.mmfile.owner) with
    | none =>
      rw [hfound] at hfinds
      exact ⟨none, h, rfl, hfinds, .refl _⟩
    | some e =>
      rw [hfound] at hfinds
      exact ⟨some e, delete h malloc e, rfl, hfinds, delete_elems hs hfinds.1 malloc⟩
  · exact ⟨_, hashFind_ownerKey hs unset current,
      finds_find? fun e he => inMapping_iff_mappedBy hs he current⟩
  · obtain ⟨u, hrun, -, hrest⟩ := ptSupplHandleUnmap_frees dirty malloc unset hs hfits hmap
    exact ⟨u, hrun, hrest⟩
  · exact unmapAllRounds_frees dirty malloc unset own current hs hfits (Nat.lt_succ_self _)

theorem Built.add {table : Table} (hb : Built table.hash) (malloc : Bool) {entry : Elem}
    (hentry : entry.vaddr ≠ 0)
    (hmapped : getType entry.status = mmf → ∃ info, entry.fileInfo = .to info)
    (hfits : Fits entry) : Built (table.add malloc entry hentry hmapped).hash := by
  cases hrun : table.hash.hashInsert supplHash ptSupplLess malloc entry with
  | error fault =>
    rw [hashInsert_eq table.isSuppl hentry] at hrun
    cases hrun
  | ok result =>
    have hhash : (table.add malloc entry hentry hmapped).hash = result.2 := by
      simp only [Table.add, hrun]
    rw [hhash]
    exact .insert hb hfits hrun

theorem lookups_by_map_sampleTable : ∃ unmaps h',
    unmapAll (fun _ _ => true) (fun _ _ => true) (fun _ => ⟨swappedPage, ⟨0, 0, 0, 0, 0, 0, false⟩⟩)
      ⟨mappedPage, ⟨0, 0, 0, 0, 0, 0, false⟩⟩ 0xc0200000 sampleTable.hash = .ok (unmaps, h') ∧
    ∀ e ∈ h'.elems, ¬ MappedBy 0xc0200000 e := by
  have hempty : Built Table.empty.hash := .init
  have hswapped : Fits swappedPage := ⟨by decide, fun h => absurd h (by decide)⟩
  have hmapped : Fits mappedPage := ⟨by decide, fun _ => ⟨_, rfl, by decide⟩⟩
  have hbuilt : Built sampleTable.hash := (hempty.add true _ _ hswapped).add true _ _ hmapped
  obtain ⟨unmaps, h', hrun, -, -, hrest⟩ := (lookups_by_map hbuilt).2.2.2 0xc0200000
    (fun _ _ => true) (fun _ _ => true) (fun _ => ⟨swappedPage, ⟨0, 0, 0, 0, 0, 0, false⟩⟩)
    ⟨mappedPage, ⟨0, 0, 0, 0, 0, 0, false⟩⟩
  exact ⟨unmaps, h', hrun, hrest⟩

end SupplHash

end Pintos
