import Mathlib.Data.List.Find
import Mathlib.Data.List.Nodup
import Pintos.Lib.Hash
import Pintos.Vm.Page

/-! The supplemental page table as the hash table that `vm/page.c` makes of it.  One comparison
serves lookups by address and lookups by map id: a null address selects the second kind.  The keys
are built on the stack, and the fields that a lookup does not set hold whatever was there. -/

namespace Pintos

namespace SupplHash

/-- `struct pt_suppl_file_info`, with `map_id` as the integer it is. -/
structure FileInfo where
  file : Nat
  owner : Nat
  mapId : Int
  offset : Nat
  readBytes : Nat
  zeroBytes : Nat
  writable : Bool
  deriving DecidableEq

/-- What a `file_info` pointer leads to.  One that was never set can be wild: nothing is known of
the memory there, and following it is undefined. -/
inductive FileInfoPtr where
  | null
  | wild
  | to (info : FileInfo)
  deriving DecidableEq

def FileInfoPtr.deref : FileInfoPtr → Except Fault FileInfo
  | .to info => .ok info
  | .null => .error (.undefined "file_info is null")
  | .wild => .error (.undefined "file_info was never set")

/-- `struct pt_suppl_entry` in memory: an entry of a table, or a key on the stack.  `elem` is the
address of its member `elem`. -/
structure Elem where
  vaddr : Nat
  status : Nat
  swapSlot : Nat
  fileInfo : FileInfoPtr
  elem : Nat
  elem_ne : elem ≠ 0
  deriving DecidableEq

/-- `MMF`. -/
def mmf : Nat := 0b0100

/-- `GET_TYPE`. -/
def getType (status : Nat) : Nat := status &&& 0b1100

/-- `PRESENCE_MASK`. -/
def getPresence (status : Nat) : Nat := status &&& 0b0011

/-- `hash_bytes`. -/
def hashBytes (buf : List UInt8) : Nat :=
  buf.foldl (fun hash byte => (hash * 16777619 % 2 ^ 32) ^^^ byte.toNat) 2166136261

/-- The bytes of a pointer in memory. -/
def ptrBytes (ptr : Nat) : List UInt8 := (List.range 4).map fun k => UInt8.ofNat (ptr / 256 ^ k)

def ptSupplHash (auxil : Nat) (helem : Elem) : Nat :=
  if auxil ≠ helem.elem then hashBytes (ptrBytes auxil) else hashBytes (ptrBytes helem.vaddr)

def ptSupplLess (e1 e2 : Elem) : Except Fault Bool := do
  if e1.vaddr = 0 ∨ e2.vaddr = 0 then
    if e1.fileInfo = .null ∧ e2.fileInfo = .null then
      throw (.assertion "e1->file_info != NULL || e2->file_info != NULL")
    if getType e1.status ≠ getType e2.status then pure true
    else
      let info1 ← e1.fileInfo.deref
      let info2 ← e2.fileInfo.deref
      if info1.mapId < 0 ∨ info2.mapId < 0 then pure (info1.owner < info2.owner)
      else pure (info1.mapId < info2.mapId)
  else pure (e1.vaddr < e2.vaddr)

/-- The table that `pt_suppl_init` makes has a null `aux`. -/
abbrev supplHash : Elem → Nat := ptSupplHash 0

/-- `pt_suppl_get`; `unset` is what the key on the stack holds before its address is set. -/
def ptSupplGet (table : HashTable Elem) (pg : Nat) (unset : Elem) :
    Except Fault (Option Elem) :=
  table.hashFind supplHash ptSupplLess { unset with vaddr := pg }

/-- The write to a mapped file that `pt_suppl_flush_mmf` makes. -/
structure MmfWrite where
  file : Nat
  vaddr : Nat
  readBytes : Nat
  offset : Nat

def ptSupplFlushMmf (entry : Elem) : Except Fault (List MmfWrite) :=
  if entry.status = mmf ||| 0b0001 ∨ entry.status = mmf ||| 0b0010 then
    match entry.fileInfo with
    | .null => .error (.assertion "mmfile != NULL")
    | ptr => do
      let mmfile ← ptr.deref
      pure [⟨mmfile.file, entry.vaddr, mmfile.readBytes, mmfile.offset⟩]
  else pure []

/-- What a run of `pt_suppl_handle_unmap` does: the table it leaves, the writes it makes, the
entries it frees and the file it closes. -/
structure Unmap where
  table : HashTable Elem
  writes : List MmfWrite
  freed : List Elem
  fileToClose : Option Nat

/-- The writes for `delet`, where `dirty` is `pagedir_is_dirty`. -/
def flushDirty (dirty : Nat → Bool) (delet : Elem) : Except Fault (List MmfWrite) :=
  if dirty delet.vaddr then ptSupplFlushMmf delet else .ok []

/-- What the loop of `pt_suppl_handle_unmap` does with the entry `delet` that `hash_delete` took out
of the table. -/
def unmapEntry (dirty : Nat → Bool) (u : Unmap) (delet : Elem) (table : HashTable Elem) :
    Except Fault Unmap := do
  let flushed ← flushDirty dirty delet
  let info ← delet.fileInfo.deref
  pure { table, writes := u.writes ++ flushed, freed := u.freed ++ [delet],
         fileToClose := some info.file }

/-- The loop of `pt_suppl_handle_unmap`; `malloc` tells for each round whether `rehash` gets its
buckets. -/
def unmapRounds (dirty malloc : Nat → Bool) (key : Elem) : (fuel : Nat) → Unmap → Except Fault Unmap
  | 0, _ => .error .spin
  | fuel + 1, u => do
    match ← u.table.hashDelete supplHash ptSupplLess (malloc fuel) key with
    | (none, _) => pure u
    | (some delet, table) => unmapEntry dirty u delet table >>= unmapRounds dirty malloc key fuel

/-- What the stack holds where `pt_suppl_handle_unmap` keeps its key `entry` and the key's
`mmfile`. -/
structure UnmapKey where
  entry : Elem
  mmfile : FileInfo

/-- The key with the fields that are set. -/
def UnmapKey.key (unset : UnmapKey) (mapId : Int) : Elem :=
  { unset.entry with vaddr := 0, fileInfo := .to { unset.mmfile with mapId }, status := mmf }

/-- `pt_suppl_handle_unmap`: every round but the last takes an element out of the table. -/
def ptSupplHandleUnmap (dirty malloc : Nat → Bool) (table : HashTable Elem) (mapId : Int)
    (unset : UnmapKey) : Except Fault Unmap :=
  unmapRounds dirty malloc (unset.key mapId) (table.elems.length + 1) ⟨table, [], [], none⟩

/-- The hash tables that hold supplemental entries: every entry is at an address of its own, and a
memory mapped one has the information that `pt_suppl_setup_file_info` allocates with it. -/
structure IsSuppl (h : HashTable Elem) : Prop where
  placed : h.Placed supplHash
  vaddr_ne : ∀ e ∈ h.elems, e.vaddr ≠ 0
  distinct : (h.elems.map Elem.vaddr).Nodup
  mapped : ∀ e ∈ h.elems, getType e.status = mmf → ∃ info, e.fileInfo = .to info

/-- A supplemental page table. -/
structure Table where
  hash : HashTable Elem
  isSuppl : IsSuppl hash

/-! ### The one chain -/

theorem supplHash_eq (e : Elem) : supplHash e = hashBytes (ptrBytes 0) := by
  rw [supplHash, ptSupplHash, if_pos e.elem_ne.symm]

variable {h : HashTable Elem}

/-- `pt_suppl_hash` hashes the null `aux`, so the whole table is in the bucket of any key. -/
theorem IsSuppl.findBucket (hs : IsSuppl h) (key : Elem) : h.findBucket supplHash key = h.elems :=
  hs.placed.findBucket_eq_elems fun e _ => by rw [supplHash_eq, supplHash_eq]

theorem bucketIdx_eq (h : HashTable Elem) (key key' : Elem) :
    h.bucketIdx supplHash key = h.bucketIdx supplHash key' := by
  rw [HashTable.bucketIdx, HashTable.bucketIdx, supplHash_eq, supplHash_eq]

/-- The table once `found` is deleted. -/
def delete (h : HashTable Elem) (malloc : Bool) (found : Elem) : HashTable Elem :=
  (h.removeElem (h.bucketIdx supplHash found) found).rehash supplHash malloc

theorem delete_elems (hs : IsSuppl h) {found : Elem} (hfound : found ∈ h.elems) (malloc : Bool) :
    h.elems.Perm (found :: (delete h malloc found).elems) := by
  have hmem : found ∈ h.findBucket supplHash found := by rwa [hs.findBucket]
  exact (HashTable.removeElem_elems hs.placed hmem).trans
    ((HashTable.rehash_elems malloc _).symm.cons found)

theorem IsSuppl.delete (hs : IsSuppl h) {found : Elem} (hfound : found ∈ h.elems) (malloc : Bool) :
    IsSuppl (delete h malloc found) := by
  have hmem : found ∈ h.findBucket supplHash found := by rwa [hs.findBucket]
  have hsub : ∀ e ∈ (SupplHash.delete h malloc found).elems, e ∈ h.elems := fun e he =>
    (delete_elems hs hfound malloc).mem_iff.mpr (List.mem_cons_of_mem _ he)
  have hdistinct := ((delete_elems hs hfound malloc).map Elem.vaddr).nodup_iff.mp hs.distinct
  exact ⟨(hs.placed.removeElem hmem).rehash malloc, fun e he => hs.vaddr_ne e (hsub e he),
    (List.nodup_cons.mp hdistinct).2, fun e he => hs.mapped e (hsub e he)⟩

/-- What `hash_delete` does under a comparison that decides `p`. -/
theorem hashDelete_eq (hs : IsSuppl h) {key : Elem} {p : Elem → Bool}
    (hd : HashTable.Decides ptSupplLess key p h.elems) (malloc : Bool) :
    h.hashDelete supplHash ptSupplLess malloc key = .ok (match h.elems.find? p with
      | none => (none, h)
      | some found => (some found, delete h malloc found)) := by
  rw [← hs.findBucket key] at hd ⊢
  rw [HashTable.hashDelete_of_decides hd]
  cases (h.findBucket supplHash key).find? p with
  | none => rfl
  | some found => simp only [delete, bucketIdx_eq h key found]

/-! ### Lookups by address -/

/-- Two elements with addresses are compared by them, and nothing else is read. -/
theorem ptSupplLess_vaddr {e1 e2 : Elem} (h1 : e1.vaddr ≠ 0) (h2 : e2.vaddr ≠ 0) :
    ptSupplLess e1 e2 = .ok (decide (e1.vaddr < e2.vaddr)) := by
  rw [ptSupplLess, if_neg (by simp [h1, h2])]
  rfl

theorem decides_vaddr {elems : List Elem} (helems : ∀ e ∈ elems, e.vaddr ≠ 0) {key : Elem}
    (hkey : key.vaddr ≠ 0) :
    HashTable.Decides ptSupplLess key (fun e => e.vaddr = key.vaddr) elems := by
  intro e he
  rw [ptSupplLess_vaddr (helems e he) hkey, ptSupplLess_vaddr hkey (helems e he)]
  by_cases hsame : e.vaddr = key.vaddr
  · simp [hsame]
  · rcases Nat.lt_or_gt_of_ne hsame with hlt | hgt
    · simp [hsame, hlt]
    · simp [hsame, hgt, Nat.le_of_lt hgt]

theorem ptSupplGet_eq (hs : IsSuppl h) {pg : Nat} (hpg : pg ≠ 0) (unset : Elem) :
    ptSupplGet h pg unset = .ok (h.elems.find? fun e => e.vaddr = pg) := by
  have hkey : ({ unset with vaddr := pg } : Elem).vaddr ≠ 0 := hpg
  rw [ptSupplGet, HashTable.hashFind, hs.findBucket,
    HashTable.findElem_of_decides (decides_vaddr hs.vaddr_ne hkey)]

/-- `hash_insert` puts an entry into the table unless there is one with its address. -/
theorem hashInsert_eq (hs : IsSuppl h) {entry : Elem} (hentry : entry.vaddr ≠ 0) (malloc : Bool) :
    h.hashInsert supplHash ptSupplLess malloc entry =
      .ok (match h.elems.find? fun e => e.vaddr = entry.vaddr with
        | none => (none, (h.insertElem supplHash entry).rehash supplHash malloc)
        | some old => (some old, h.rehash supplHash malloc)) := by
  rw [HashTable.hashInsert, HashTable.hashFind, hs.findBucket,
    HashTable.findElem_of_decides (decides_vaddr hs.vaddr_ne hentry)]
  cases h.elems.find? fun e => e.vaddr = entry.vaddr <;> rfl

theorem IsSuppl.perm {h' : HashTable Elem} (hs : IsSuppl h) (hplaced : h'.Placed supplHash)
    (hperm : h'.elems.Perm h.elems) : IsSuppl h' :=
  ⟨hplaced, fun e he => hs.vaddr_ne e (hperm.mem_iff.mp he),
    (hperm.map Elem.vaddr).nodup_iff.mpr hs.distinct,
    fun e he => hs.mapped e (hperm.mem_iff.mp he)⟩

theorem IsSuppl.insertElem (hs : IsSuppl h) {entry : Elem} (hentry : entry.vaddr ≠ 0)
    (hmapped : getType entry.status = mmf → ∃ info, entry.fileInfo = .to info)
    (hnew : h.elems.find? (fun e => e.vaddr = entry.vaddr) = none) :
    IsSuppl (h.insertElem supplHash entry) := by
  have hperm := HashTable.insertElem_elems hs.placed entry
  have hcases : ∀ e ∈ (h.insertElem supplHash entry).elems, e = entry ∨ e ∈ h.elems := fun e he =>
    List.mem_cons.mp (hperm.mem_iff.mp he)
  refine ⟨hs.placed.insertElem entry, fun e he => ?_, ?_, fun e he => ?_⟩
  · rcases hcases e he with rfl | he
    · exact hentry
    · exact hs.vaddr_ne e he
  · refine (hperm.map Elem.vaddr).nodup_iff.mpr (List.nodup_cons.mpr ⟨?_, hs.distinct⟩)
    intro hmem
    obtain ⟨e, he, hsame⟩ := List.mem_map.mp hmem
    exact List.find?_eq_none.mp hnew e he (by simpa using hsame)
  · rcases hcases e he with rfl | he
    · exact hmapped
    · exact hs.mapped e he

/-- In an empty table nothing is compared. -/
theorem ptSupplGet_nil (hs : IsSuppl h) (hnil : h.elems = []) (pg : Nat) (unset : Elem) :
    ptSupplGet h pg unset = .ok none := by
  rw [ptSupplGet, HashTable.hashFind, hs.findBucket, hnil]
  rfl

/-- At page 0 the comparison with the first entry reads the key's `file_info`. -/
theorem ptSupplGet_zero (hs : IsSuppl h) (hne : h.elems ≠ []) :
    ∃ unset text, ptSupplGet h 0 unset = .error (.undefined text) := by
  obtain ⟨e, rest, helems⟩ := List.exists_cons_of_ne_nil hne
  refine ⟨{ e with fileInfo := .wild }, ?_⟩
  rw [ptSupplGet, HashTable.hashFind, hs.findBucket, helems, HashTable.findElem, ptSupplLess,
    if_pos (.inr rfl), if_neg (by simp), if_neg (by simp)]
  cases e.fileInfo <;> exact ⟨_, rfl⟩

/-! ### Lookups by map id -/

/-- The entries that the key of `pt_suppl_handle_unmap` is equal to: where one of the two map ids is
negative, the comparison is of owners. -/
def inMapping (mapId : Int) (owner : Nat) (e : Elem) : Bool :=
  getType e.status = mmf && match e.fileInfo with
    | .to info =>
      if info.mapId < 0 ∨ mapId < 0 then info.owner = owner else info.mapId = mapId
    | _ => false

/-- The comparison by map id or owner that a null address selects. -/
theorem ptSupplLess_info {e1 e2 : Elem} {info1 info2 : FileInfo}
    (hnull : e1.vaddr = 0 ∨ e2.vaddr = 0) (htype : getType e1.status = getType e2.status) (h1 : e1.fileInfo = .to info1)
    (h2 : e2.fileInfo = .to info2) :
    ptSupplLess e1 e2 = .ok (if info1.mapId < 0 ∨ info2.mapId < 0
      then decide (info1.owner < info2.owner) else decide (info1.mapId < info2.mapId)) := by
  rw [ptSupplLess, if_pos hnull, if_neg (by simp [h1]), if_neg (not_not_intro htype), h1, h2]
  show (if _ then _ else _) = _
  split <;> rfl

theorem ptSupplLess_types {e1 e2 : Elem} (hnull : e1.vaddr = 0 ∨ e2.vaddr = 0)
    (hinfo : e2.fileInfo ≠ .null) (htype : getType e1.status ≠ getType e2.status) :
    ptSupplLess e1 e2 = .ok true := by
  rw [ptSupplLess, if_pos hnull, if_neg fun hboth => hinfo hboth.2, if_pos htype]
  rfl

theorem decides_key (hs : IsSuppl h) (mapId : Int) (unset : UnmapKey) :
    HashTable.Decides ptSupplLess (unset.key mapId) (inMapping mapId unset.mmfile.owner)
      h.elems := by
  have hkey : getType (unset.key mapId).status = mmf := show getType mmf = mmf by decide
  intro e he
  by_cases htype : getType e.status = mmf
  · obtain ⟨info, hinfo⟩ := hs.mapped e he htype
    rw [ptSupplLess_info (.inr rfl) (htype.trans hkey.symm) hinfo rfl,
      ptSupplLess_info (.inl rfl) (hkey.trans htype.symm) rfl hinfo]
    simp only [inMapping, htype, hinfo, or_comm (a := mapId < 0)]
    by_cases hneg : info.mapId < 0 ∨ mapId < 0
    · simp only [hneg, if_true]
      rcases Nat.lt_trichotomy info.owner unset.mmfile.owner with hlt | heq | hgt
      · simp [hlt, Nat.ne_of_lt hlt]
      · simp [heq]
      · simp [hgt, Nat.ne_of_gt hgt, Nat.le_of_lt hgt]
    · simp only [hneg, if_false]
      rcases Int.lt_trichotomy info.mapId mapId with hlt | heq | hgt
      · simp [hlt, Int.ne_of_lt hlt]
      · simp [heq]
      · simp [hgt, Int.ne_of_gt hgt, Int.le_of_lt hgt]
  · have hno : inMapping mapId unset.mmfile.owner e = false := by simp [inMapping, htype]
    rw [if_neg (by simp [hno])]
    exact .inl (ptSupplLess_types (.inr rfl) nofun fun h => htype (h.trans hkey))

theorem inMapping_mmf {mapId : Int} {owner : Nat} {e : Elem} (h : inMapping mapId owner e) :
    getType e.status = mmf := by
  simp only [inMapping, Bool.and_eq_true, decide_eq_true_eq] at h
  exact h.1

variable {dirty malloc : Nat → Bool} {u : Unmap}

theorem ptSupplFlushMmf_of_info {entry : Elem} {info : FileInfo}
    (hinfo : entry.fileInfo = .to info) : ∃ writes, ptSupplFlushMmf entry = .ok writes := by
  rw [ptSupplFlushMmf, hinfo]
  split <;> exact ⟨_, rfl⟩

/-- The body of the loop for a memory mapped entry. -/
theorem unmapEntry_of_info (dirty : Nat → Bool) (u : Unmap) {delet : Elem} {info : FileInfo}
    (hinfo : delet.fileInfo = .to info) (table : HashTable Elem) : ∃ writes, unmapEntry dirty u delet table =
      .ok { table, writes, freed := u.freed ++ [delet], fileToClose := some info.file } := by
  have hflush : ∃ flushed, flushDirty dirty delet = .ok flushed := by
    rw [flushDirty]
    split
    · exact ptSupplFlushMmf_of_info hinfo
    · exact ⟨[], rfl⟩
  obtain ⟨flushed, hflushed⟩ := hflush
  refine ⟨u.writes ++ flushed, ?_⟩
  rw [unmapEntry, hflushed, hinfo]
  rfl

theorem unmapEntry_table {u' : Unmap} {delet : Elem} {table : HashTable Elem}
    (h : unmapEntry dirty u delet table = .ok u') : u'.table = table := by
  rw [unmapEntry] at h
  cases hflush : flushDirty dirty delet with
  | error fault =>
    rw [hflush] at h
    cases h
  | ok flushed =>
    cases hinfo : delet.fileInfo.deref with
    | error fault =>
      rw [hflush, hinfo] at h
      cases h
    | ok info =>
      rw [hflush, hinfo] at h
      cases h
      rfl

/-- One round with a key that decides `p`. -/
theorem unmapRounds_succ (hs : IsSuppl u.table) {key : Elem} {p : Elem → Bool}
    (hd : HashTable.Decides ptSupplLess key p u.table.elems) (fuel : Nat) :
    unmapRounds dirty malloc key (fuel + 1) u = match u.table.elems.find? p with
      | none => .ok u
      | some delet => unmapEntry dirty u delet (delete u.table (malloc fuel) delet) >>=
          unmapRounds dirty malloc key fuel := by
  rw [unmapRounds, hashDelete_eq hs hd]
  cases u.table.elems.find? p <;> rfl

/-- The loop frees the entries that its key is equal to, and no others, and ends. -/
theorem unmapRounds_frees (dirty malloc : Nat → Bool) (mapId : Int) (unset : UnmapKey) {u : Unmap}
    {fuel : Nat} (hs : IsSuppl u.table) (hfuel : u.table.elems.length < fuel) : ∃ u' freed,
      unmapRounds dirty malloc (unset.key mapId) fuel u = .ok u' ∧ u'.freed = u.freed ++ freed ∧
      u.table.elems.Perm (freed ++ u'.table.elems) ∧
      (∀ e ∈ freed, inMapping mapId unset.mmfile.owner e) ∧
      ∀ e ∈ u'.table.elems, ¬ inMapping mapId unset.mmfile.owner e := by
  induction fuel generalizing u with
  | zero => exact absurd hfuel (Nat.not_lt_zero _)
  | succ fuel ih =>
    rw [unmapRounds_succ hs (decides_key hs mapId unset)]
    cases hfind : u.table.elems.find? (inMapping mapId unset.mmfile.owner) with
    | none =>
      refine ⟨u, [], rfl, by simp, .refl _, by simp, fun e he => ?_⟩
      exact List.find?_eq_none.mp hfind e he
    | some delet =>
      have hmem : delet ∈ u.table.elems := List.mem_of_find?_eq_some hfind
      have hin : inMapping mapId unset.mmfile.owner delet := List.find?_some hfind
      obtain ⟨info, hinfo⟩ := hs.mapped delet hmem (inMapping_mmf hin)
      obtain ⟨writes, hentry⟩ := unmapEntry_of_info dirty u hinfo
        (delete u.table (malloc fuel) delet)
      have hperm := delete_elems hs hmem (malloc fuel)
      have hlt : (delete u.table (malloc fuel) delet).elems.length < fuel := by
        have hlength := hperm.length_eq
        rw [List.length_cons] at hlength
        omega
      simp only [hentry]
      obtain ⟨u', freed, hrun, hfreed, hsplit, hall, hrest⟩ := ih
        (u := { table := delete u.table (malloc fuel) delet, writes,
                freed := u.freed ++ [delet], fileToClose := some info.file })
        (hs.delete hmem _) hlt
      refine ⟨u', delet :: freed, hrun, ?_, ?_, ?_, hrest⟩
      · rw [hfreed, List.append_assoc, List.singleton_append]
      · exact hperm.trans (hsplit.cons delet)
      · intro e he
        rcases List.mem_cons.mp he with rfl | he
        · exact hin
        · exact hall e he

theorem bind_congr_of_ok {ε α β : Type} {x : Except ε α} {f g : α → Except ε β}
    (h : ∀ a, x = .ok a → f a = g a) : x >>= f = x >>= g := by
  cases x with
  | error e => rfl
  | ok a => exact h a rfl

/-- Two keys that are equal to the same entries are alike to the loop. -/
theorem unmapRounds_congr {key key' : Elem} {p p' : Elem → Bool} {fuel : Nat} (hs : IsSuppl u.table)
    (hd : HashTable.Decides ptSupplLess key p u.table.elems)
    (hd' : HashTable.Decides ptSupplLess key' p' u.table.elems)
    (hsame : ∀ e ∈ u.table.elems, p e = p' e) :
    unmapRounds dirty malloc key fuel u = unmapRounds dirty malloc key' fuel u := by
  induction fuel generalizing u with
  | zero => rfl
  | succ fuel ih =>
    rw [unmapRounds_succ hs hd, unmapRounds_succ hs hd', List.find?_congr hsame]
    cases hfind : u.table.elems.find? p' with
    | none => rfl
    | some delet =>
      have hmem : delet ∈ u.table.elems := List.mem_of_find?_eq_some hfind
      have hsub : ∀ e ∈ (delete u.table (malloc fuel) delet).elems, e ∈ u.table.elems := fun e he =>
        (delete_elems hs hmem (malloc fuel)).mem_iff.mpr (List.mem_cons_of_mem _ he)
      refine bind_congr_of_ok fun u' hentry => ?_
      have htable := unmapEntry_table hentry
      have hs' : IsSuppl u'.table := htable ▸ hs.delete hmem (malloc fuel)
      rw [← htable] at hsub
      exact ih hs' (fun e he => hd e (hsub e he)) (fun e he => hd' e (hsub e he))
        fun e he => hsame e (hsub e he)

/-! ### The table as a map from addresses -/

namespace Table

/-- `pt_suppl_init`. -/
def empty : Table := ⟨.hashInit, HashTable.hashInit_placed, nofun, .nil, nofun⟩

/-- `pt_suppl_add`. -/
def add (table : Table) (malloc : Bool) (entry : Elem) (hentry : entry.vaddr ≠ 0)
    (hmapped : getType entry.status = mmf → ∃ info, entry.fileInfo = .to info) : Table where
  hash := match table.hash.hashInsert supplHash ptSupplLess malloc entry with
    | .ok (_, hash) => hash
    | .error _ => table.hash
  isSuppl := by
    rw [hashInsert_eq table.isSuppl hentry]
    cases hfind : table.hash.elems.find? fun e => e.vaddr = entry.vaddr with
    | none =>
      have hs := table.isSuppl.insertElem hentry hmapped hfind
      exact hs.perm (hs.placed.rehash malloc) (HashTable.rehash_elems malloc _)
    | some old =>
      exact table.isSuppl.perm (table.isSuppl.placed.rehash malloc)
        (HashTable.rehash_elems malloc _)

end Table

/-- The entry as the paging system sees it. -/
def Elem.toEntry (e : Elem) : PtSupplEntry where
  vaddr := e.vaddr
  type := if getType e.status = mmf then .mmf else .lazy
  presence := match getPresence e.status with
    | 0 => .unloaded
    | 1 => .present
    | _ => .swapped
  swapSlot := e.swapSlot
  fileInfo := match e.fileInfo with
    | .to info => some
      { file := info.file, owner := info.owner, mapId := info.mapId.toNat, offset := info.offset,
        readBytes := info.readBytes, zeroBytes := info.zeroBytes, writable := info.writable }
    | _ => none

/-- The table as the map from addresses that the paging system uses. -/
def Table.toPtSuppl (table : Table) : PtSuppl where
  get vaddr := (table.hash.elems.find? fun e => e.vaddr = vaddr).map Elem.toEntry
  vaddr_eq {vaddr entry} hget := by
    obtain ⟨e, hfind, rfl⟩ := Option.map_eq_some_iff.mp hget
    have hv : e.vaddr = vaddr := by simpa using List.find?_some hfind
    exact hv

theorem find?_vaddr_eq_some {elems : List Elem} (hd : (elems.map Elem.vaddr).Nodup) {v : Nat}
    {e : Elem} : elems.find? (fun e => e.vaddr = v) = some e ↔ e ∈ elems ∧ e.vaddr = v := by
  constructor
  · intro hfind
    exact ⟨List.mem_of_find?_eq_some hfind, by simpa using List.find?_some hfind⟩
  · rintro ⟨hmem, rfl⟩
    cases hfind : elems.find? (fun x => x.vaddr = e.vaddr) with
    | none => exact absurd (decide_eq_true rfl) (List.find?_eq_none.mp hfind e hmem)
    | some x =>
      have hx : x.vaddr = e.vaddr := by simpa using List.find?_some hfind
      rw [List.inj_on_of_nodup_map hd (List.mem_of_find?_eq_some hfind) hmem hx]

theorem find?_vaddr_perm {elems elems' : List Elem} (hd : (elems.map Elem.vaddr).Nodup)
    (hperm : elems.Perm elems') (v : Nat) :
    elems.find? (fun e => e.vaddr = v) = elems'.find? fun e => e.vaddr = v := by
  have hd' := (hperm.map Elem.vaddr).nodup_iff.mp hd
  refine Option.ext fun e => ?_
  rw [find?_vaddr_eq_some hd, find?_vaddr_eq_some hd', hperm.mem_iff]

theorem Table.ptSupplGet_eq (table : Table) {pg : Nat} (h : pg ≠ 0 ∨ table.hash.elems = [])
    (unset : Elem) :
    ptSupplGet table.hash pg unset = .ok (table.hash.elems.find? fun e => e.vaddr = pg) := by
  rcases h with hpg | hnil
  · exact SupplHash.ptSupplGet_eq table.isSuppl hpg unset
  · rw [ptSupplGet_nil table.isSuppl hnil, hnil]
    rfl

/-- `pt_suppl_get` reads the map. -/
theorem ptSupplGet_refines (table : Table) {pg : Nat} (h : pg ≠ 0 ∨ table.hash.elems = [])
    (unset : Elem) : ∃ result, ptSupplGet table.hash pg unset = .ok result ∧
      result.map Elem.toEntry = table.toPtSuppl.get pg :=
  ⟨_, table.ptSupplGet_eq h unset, rfl⟩

/-- `pt_suppl_add` puts the entry into the map where its address has none. -/
theorem add_refines (table : Table) (malloc : Bool) {entry : Elem} (hentry : entry.vaddr ≠ 0)
    (hmapped : getType entry.status = mmf → ∃ info, entry.fileInfo = .to info) (v : Nat) :
    (table.add malloc entry hentry hmapped).toPtSuppl.get v =
      if (table.toPtSuppl.get entry.vaddr).isNone
        then (table.toPtSuppl.put entry.toEntry).get v else table.toPtSuppl.get v := by
  have hd := (table.add malloc entry hentry hmapped).isSuppl.distinct
  simp only [Table.toPtSuppl, PtSuppl.put_get, Option.isNone_map, Table.add] at hd ⊢
  rw [hashInsert_eq table.isSuppl hentry] at hd ⊢
  cases hfind : table.hash.elems.find? fun e => e.vaddr = entry.vaddr with
  | none =>
    simp only [hfind] at hd ⊢
    rw [find?_vaddr_perm hd ((HashTable.rehash_elems malloc _).trans
      (HashTable.insertElem_elems table.isSuppl.placed entry))]
    by_cases hv : entry.vaddr = v
    · simp [hv, Elem.toEntry]
    · simp [hv, Ne.symm hv, Elem.toEntry]
  | some old =>
    simp only [hfind] at hd ⊢
    rw [find?_vaddr_perm hd (HashTable.rehash_elems malloc _)]
    simp

/-! ### What the unset fields decide -/

/-- `pt_suppl_get` returns the entry of `pg`, or none where there is none, whatever the other fields
of its key hold. -/
def GetIgnoresKey (table : Table) (pg : Nat) : Prop :=
  ∃ result, (∀ unset, ptSupplGet table.hash pg unset = .ok result) ∧ match result with
    | some e => e ∈ table.hash.elems ∧ e.vaddr = pg
    | none => ∀ e ∈ table.hash.elems, e.vaddr ≠ pg

/-- `pt_suppl_handle_unmap` does the same whatever the fields that it leaves unset hold. -/
def UnmapIgnoresKey (table : Table) (mapId : Int) : Prop :=
  ∀ dirty malloc unset unset', ptSupplHandleUnmap dirty malloc table.hash mapId unset =
    ptSupplHandleUnmap dirty malloc table.hash mapId unset'

/-- The map id and those of the memory mapped entries are not negative, if there are any such
entries. -/
def ComparesMapIds (table : Table) (mapId : Int) : Prop :=
  ∀ e ∈ table.hash.elems, ∀ info, getType e.status = mmf → e.fileInfo = .to info →
    0 ≤ info.mapId ∧ 0 ≤ mapId

theorem getIgnoresKey_iff (table : Table) (pg : Nat) :
    GetIgnoresKey table pg ↔ pg ≠ 0 ∨ table.hash.elems = [] := by
  constructor
  · rintro ⟨result, hall, -⟩
    by_contra hboth
    obtain ⟨hpg, hne⟩ := not_or.mp hboth
    obtain rfl : pg = 0 := not_not.mp hpg
    obtain ⟨unset, text, hfault⟩ := ptSupplGet_zero table.isSuppl hne
    cases (hall _).symm.trans hfault
  · intro hor
    refine ⟨_, table.ptSupplGet_eq hor, ?_⟩
    split
    · next e hfind => exact ⟨List.mem_of_find?_eq_some hfind, by simpa using List.find?_some hfind⟩
    · next hfind => simpa using hfind

/-- Two owners tell apart an entry that is compared by owner. -/
theorem unmapIgnoresKey_iff (table : Table) (mapId : Int) :
    UnmapIgnoresKey table mapId ↔ ComparesMapIds table mapId := by
  have hfuel := Nat.lt_succ_self table.hash.elems.length
  constructor
  · intro hsame e he info htype hinfo
    by_contra hneg
    have howner : info.mapId < 0 ∨ mapId < 0 := by omega
    have hin : ∀ owner, inMapping mapId owner e = decide (info.owner = owner) := fun owner => by
      simp [inMapping, htype, hinfo, howner]
    -- the owner of the entry, and another
    obtain ⟨u, freed, hrun, hfreed, hperm, -, hrest⟩ :=
      unmapRounds_frees (fun _ => false) (fun _ => true) mapId ⟨e, info⟩
        (u := ⟨table.hash, [], [], none⟩) table.isSuppl hfuel
    obtain ⟨u', freed', hrun', hfreed', -, hall', -⟩ :=
      unmapRounds_frees (fun _ => false) (fun _ => true) mapId
        ⟨e, { info with owner := info.owner + 1 }⟩ (u := ⟨table.hash, [], [], none⟩)
        table.isSuppl hfuel
    have hu : u = u' :=
      Except.ok.inj (hrun.symm.trans ((hsame (fun _ => false) (fun _ => true) _ _).trans hrun'))
    have hmem : e ∈ freed := by
      rcases List.mem_append.mp (hperm.mem_iff.mp he) with hmem | hmem
      · exact hmem
      · exact absurd (by simp [hin]) (hrest e hmem)
    have hmem' : e ∈ freed' := by
      rw [← hu, hfreed] at hfreed'
      simp only [List.nil_append] at hfreed'
      exact hfreed' ▸ hmem
    have hno := hall' e hmem'
    simp [hin] at hno
  · intro hids dirty malloc unset unset'
    refine unmapRounds_congr table.isSuppl (decides_key table.isSuppl mapId unset)
      (decides_key table.isSuppl mapId unset') fun e he => ?_
    by_cases htype : getType e.status = mmf
    · obtain ⟨info, hinfo⟩ := table.isSuppl.mapped e he htype
      obtain ⟨h1, h2⟩ := hids e he info htype hinfo
      have hneg : ¬ (info.mapId < 0 ∨ mapId < 0) := by omega
      simp [inMapping, hinfo, hneg]
    · simp [inMapping, htype]

/-- The keys' unset fields are ignored exactly away from page 0, and among map ids that are not
negative. -/
theorem lookups_ignore_key_iff (table : Table) (pg : Nat) (mapId : Int) :
    (GetIgnoresKey table pg ↔ pg ≠ 0 ∨ table.hash.elems = []) ∧
      (UnmapIgnoresKey table mapId ↔ ComparesMapIds table mapId) :=
  ⟨getIgnoresKey_iff table pg, unmapIgnoresKey_iff table mapId⟩

/-- A stack page that was swapped out. -/
def swappedPage : Elem := ⟨0xbfffe000, 0b1010, 0, .null, 0xc0104010, by decide⟩

/-- A page of the file mapped as 1 by the process at 0xc0200000. -/
def mappedPage : Elem :=
  ⟨0x10000000, 0b0100, 0, .to ⟨1, 0xc0200000, 1, 0, 4096, 0, true⟩, 0xc0104030, by decide⟩

def sampleTable : Table :=
  (Table.empty.add true swappedPage (by decide) fun h => absurd h (by decide)).add true mappedPage
    (by decide) fun _ => ⟨_, rfl⟩

/-- At page 0, a key that finds a null word where its `file_info` is fails the `ASSERT` of
`pt_suppl_less`; and `munmap (-1)` unmaps the file or not, by the owner that the stack holds. -/
theorem lookups_read_key : ¬ GetIgnoresKey sampleTable 0 ∧ ¬ UnmapIgnoresKey sampleTable (-1) := by
  constructor
  · rintro ⟨result, hresult, -⟩
    have hassert : (ptSupplGet sampleTable.hash 0 swappedPage).isOk = false := by decide +kernel
    rw [hresult] at hassert
    cases hassert
  · intro hsame
    have hrun := hsame (fun _ => false) (fun _ => true)
      ⟨swappedPage, ⟨0, 0xc0200000, 0, 0, 0, 0, false⟩⟩ ⟨swappedPage, ⟨0, 0, 0, 0, 0, 0, false⟩⟩
    have hfreed := congrArg (Except.map fun u => u.freed.length) hrun
    revert hfreed
    decide +kernel

end SupplHash

end Pintos
