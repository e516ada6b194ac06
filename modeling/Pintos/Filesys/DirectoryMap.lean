import Pintos.Filesys.Directory

/-! A directory is a finite map from names to sectors and kinds: the slots of its file are a table
that represents the map, and every call does to the slots what it does to the map. -/

namespace Pintos

/-- The map that a directory stands for. -/
abbrev DirMap := List UInt8 → Option (Nat × Bool)

/-- A call on a directory; `e` is what the local entry of the call holds at first. -/
inductive DirOp where
  | add (name : DirName) (inodeSector : UInt32) (isDir : Bool) (e : DirEntry)
  | remove (name : DirName) (isEmpty : Bool) (e : DirEntry)
  | lookup (name : DirName) (isDir : Bool) (e : DirEntry)
  | readdir (e : DirEntry)

inductive DirResult where
  | done (success : Bool)
  | found (sector : Option Nat)
  | read (name : Option (List UInt8))

def Directory.exec : DirOp → DirRoutine DirResult
  | .add name inodeSector isDir e =>
    .done <$> Directory.dirAdd name.bytes inodeSector.toNat isDir e
  | .remove name isEmpty e => .done <$> Directory.dirRemove name.bytes isEmpty e
  | .lookup name isDir e => .found <$> Directory.dirLookupEntry name.bytes isDir e
  | .readdir e => .read <$> Directory.dirReaddir e

/-- The directory that `dir_create` makes: zeros. -/
def Directory.created (length : Nat) : Directory := ⟨length, fun _ => 0, 0⟩

namespace DirMap

/-- What a call does to the map. -/
def step (m : DirMap) : DirOp → DirMap
  | .add name inodeSector isDir _ =>
    if m name.bytes = none then Function.update m name.bytes (some (inodeSector.toNat, isDir))
    else m
  | .remove name isEmpty _ =>
    match m name.bytes with
    | some (_, isDir) => if isDir && !isEmpty then m else Function.update m name.bytes none
    | none => m
  | .lookup _ _ _ | .readdir _ => m

/-- What a call may return. -/
def Answers (m : DirMap) : DirOp → DirResult → Prop
  | .add name _ _ _, r => r = .done (m name.bytes).isNone
  | .remove name isEmpty _, r =>
    r = .done (match m name.bytes with
      | some (_, isDir) => !(isDir && !isEmpty)
      | none => false)
  | .lookup name isDir _, r =>
    r = .found ((m name.bytes).bind fun v => if isDir && !v.2 then none else some v.1)
  | .readdir _, r =>
    ∃ name, r = .read name ∧ ∀ n, name = some n → m n ≠ none

/-- The calls `ops` may return `rs` one after another. -/
def AnswersAll : DirMap → List DirOp → List DirResult → Prop
  | _, [], [] => True
  | m, op :: ops, r :: rs => m.Answers op r ∧ (m.step op).AnswersAll ops rs
  | _, _, _ => False

end DirMap

/-! ### Entries -/

namespace DirEntry

variable {e e' : DirEntry} {name : List UInt8}

/-- What an entry says, with `none` for a free one. -/
def slot (e : DirEntry) : Option (List UInt8 × (Nat × Bool)) :=
  if e.inUse then some (e.name, e.inodeSector, e.isDir) else none

/-- The bytes of an entry alone matter. -/
theorem slot_congr (h : ∀ i < dirEntrySize, e i = e' i) : e.slot = e'.slot := by
  have hname : e.name = e'.name := by
    unfold DirEntry.name
    congr 1
    refine List.map_congr_left fun i hi => h (4 + i) ?_
    have := List.mem_range.mp hi
    unfold nameMax dirEntrySize at *
    omega
  have hsector : e.inodeSector = e'.inodeSector :=
    Memory.word_congr fun i hi => h (0 + i) (by unfold dirEntrySize; omega)
  rw [slot, slot, inUse, inUse, isDir, isDir, hname, hsector, h 68 (by decide), h 69 (by decide)]

theorem strcmpEq_iff (name : List UInt8) (m : Memory) (a : Nat) :
    strcmpEq name m a = true ↔ m.Holds a (name ++ [0]) := by
  induction name generalizing a with
  | nil => rw [strcmpEq, beq_iff_eq, List.nil_append, Memory.holds_singleton]
  | cons c name ih =>
    have hsplit : m.Holds a ([c] ++ (name ++ [0])) ↔
        m.Holds a [c] ∧ m.Holds (a + 1) (name ++ [0]) := Memory.holds_append
    rw [strcmpEq, Bool.and_eq_true, beq_iff_eq, ih]
    show _ ↔ m.Holds a ([c] ++ (name ++ [0]))
    rw [hsplit, Memory.holds_singleton]

/-- The bytes of `name`. -/
theorem nameBytes (e : DirEntry) : ∃ field : List UInt8, field.length = nameMax + 1 ∧
    e.name = field.takeWhile (· ≠ 0) ∧ e.Holds 4 field :=
  ⟨_, by simp, rfl, fun i hi => by simp⟩

theorem name_of_holds (hnull : 0 ∉ name) (hle : name.length ≤ nameMax)
    (h : e.Holds 4 (name ++ [0])) : e.name = name := by
  obtain ⟨field, hlength, hname, hfield⟩ := e.nameBytes
  have hpre : name ++ [0] <+: field := by
    refine List.prefix_iff_getElem.mpr ⟨by simp; omega, fun i hi => ?_⟩
    rw [← h i hi, ← hfield i]
  obtain ⟨rest, rfl⟩ := hpre
  rw [hname, List.append_assoc, List.takeWhile_append_of_pos]
  · simp
  · intro c hc
    have hne : c ≠ 0 := by
      rintro rfl
      exact hnull hc
    simpa using hne

theorem holds_of_name (hle : e.name.length ≤ nameMax) : e.Holds 4 (e.name ++ [0]) := by
  obtain ⟨field, hlength, hname, hfield⟩ := e.nameBytes
  rw [hname] at hle ⊢
  have hsplit := List.takeWhile_append_dropWhile (p := (· ≠ 0)) (l := field)
  cases hrest : field.dropWhile (· ≠ 0) with
  | nil =>
    rw [hrest, List.append_nil] at hsplit
    rw [hsplit] at hle
    omega
  | cons c rest =>
    have hc := List.head_dropWhile_not (p := (· ≠ 0)) (l := field) (by rw [hrest]; nofun)
    simp only [hrest, List.head_cons, decide_eq_false_iff_not, not_not] at hc
    rw [hrest, hc, ← List.singleton_append, ← List.append_assoc] at hsplit
    rw [← hsplit] at hfield
    exact (Memory.holds_append.mp hfield).1

/-- The comparison of `lookup`. -/
theorem matches_iff (hnull : 0 ∉ name) (hle : name.length ≤ nameMax)
    (hnamed : e.inUse = true → e.name.length ≤ nameMax) :
    (e.inUse && strcmpEq name e 4) = true ↔ ∃ v, e.slot = some (name, v) := by
  rw [Bool.and_eq_true, strcmpEq_iff, slot]
  constructor
  · rintro ⟨huse, hholds⟩
    rw [if_pos huse, name_of_holds hnull hle hholds]
    exact ⟨_, rfl⟩
  · rintro ⟨v, hslot⟩
    split at hslot
    · rename_i huse
      obtain rfl : e.name = name := congrArg Prod.fst (Option.some.inj hslot)
      exact ⟨huse, holds_of_name (hnamed huse)⟩
    · nomatch hslot

end DirEntry

/-! ### Slots -/

namespace Directory

variable {d : Directory} {e e' : DirEntry} {k n : Nat} {name : List UInt8}

/-- The bytes of slot `k`. -/
def entryAt (d : Directory) (k : Nat) : DirEntry := fun i => d.data (dirEntrySize * k + i)

/-- The whole slots of a directory. -/
def size (d : Directory) : Nat := d.length / dirEntrySize

/-- What the slots say. -/
def slots (d : Directory) : SlotTable (List UInt8) (Nat × Bool) := fun k =>
  if k < d.size then (d.entryAt k).slot else none

/-- The name of every entry in use ends within its field. -/
def Named (d : Directory) : Prop :=
  ∀ k name v, d.slots k = some (name, v) → name.length ≤ nameMax

/-- An entry that was read from slot `k`. -/
def ReadFrom (d : Directory) (k : Nat) (e : DirEntry) : Prop :=
  ∀ i < dirEntrySize, e i = d.entryAt k i

theorem lt_size_iff : k < d.size ↔ dirEntrySize * k + dirEntrySize ≤ d.length := by
  unfold size dirEntrySize
  omega

theorem inodeReadAt_fst : (d.inodeReadAt e (dirEntrySize * k)).1 = dirEntrySize ↔ k < d.size := by
  rw [lt_size_iff]
  unfold inodeReadAt dirEntrySize
  dsimp only
  omega

theorem readFrom_inodeReadAt (h : k < d.size) :
    d.ReadFrom k (d.inodeReadAt e (dirEntrySize * k)).2 := by
  have hfull := inodeReadAt_fst (e := e).mpr h
  intro i hi
  show (if i < (d.inodeReadAt e (dirEntrySize * k)).1 then _ else _) = _
  rw [hfull, if_pos hi]
  rfl

theorem ReadFrom.slot (h : d.ReadFrom k e) (hk : k < d.size) : e.slot = d.slots k := by
  rw [DirEntry.slot_congr h, slots, if_pos hk]

theorem ReadFrom.named (hnamed : d.Named) (h : d.ReadFrom k e) (hk : k < d.size)
    (huse : e.inUse = true) : e.name.length ≤ nameMax := by
  refine hnamed k e.name (e.inodeSector, e.isDir) ?_
  rw [← h.slot hk, DirEntry.slot, if_pos huse]

theorem slots_of_le (h : d.size ≤ k) : d.slots k = none := if_neg (Nat.not_lt.mpr h)

/-- What `lookup` returns from slot `k` on. -/
def Looks (d : Directory) (name : List UInt8) (k : Nat) : Option (DirEntry × Nat) → Prop
  | none => ∀ j v, k ≤ j → d.slots j ≠ some (name, v)
  | some (e, ofs) => ∃ j v, ofs = dirEntrySize * j ∧ d.slots j = some (name, v) ∧ d.ReadFrom j e

theorem lookupFrom_spec (hnamed : d.Named) (hnull : 0 ∉ name) (hle : name.length ≤ nameMax)
    {fuel : Nat} (hfuel : d.size - k < fuel) (e : DirEntry) :
    ∃ r, d.lookupFrom name fuel e (dirEntrySize * k) = .ok r ∧ d.Looks name k r := by
  induction fuel generalizing k e with
  | zero => omega
  | succ fuel ih =>
    rw [lookupFrom]
    dsimp only
    by_cases hk : k < d.size
    · have hread := readFrom_inodeReadAt (e := e) hk
      have hmatch := DirEntry.matches_iff hnull hle (hread.named hnamed hk)
      rw [if_pos (inodeReadAt_fst.mpr hk)]
      generalize (d.inodeReadAt e (dirEntrySize * k)).2 = e' at hread hmatch ⊢
      rw [hread.slot hk] at hmatch
      by_cases hfound : (e'.inUse && strcmpEq name e' 4) = true
      · rw [if_pos hfound]
        obtain ⟨v, hslot⟩ := hmatch.mp hfound
        exact ⟨_, rfl, k, v, rfl, hslot, hread⟩
      · rw [if_neg hfound]
        obtain ⟨r, hrun, hlooks⟩ := ih (k := k + 1) (by omega) e'
        refine ⟨r, hrun, ?_⟩
        cases r with
        | none =>
          intro j v hj hslot
          by_cases hjk : j = k
          · exact hfound (hmatch.mpr ⟨v, hjk ▸ hslot⟩)
          · exact hlooks j v (by omega) hslot
        | some found => exact hlooks
    · rw [if_neg fun hfull => hk (inodeReadAt_fst.mp hfull)]
      refine ⟨none, rfl, fun j v hj hslot => ?_⟩
      rw [slots_of_le (by omega)] at hslot
      nomatch hslot

theorem freeSlotFrom_spec {fuel : Nat} (hk : k ≤ d.size) (hfuel : d.size - k < fuel)
    (e : DirEntry) : ∃ e' j, d.freeSlotFrom fuel e (dirEntrySize * k) = .ok (e', dirEntrySize * j) ∧
      j ≤ d.size ∧ d.slots j = none := by
  induction fuel generalizing k e with
  | zero => omega
  | succ fuel ih =>
    rw [freeSlotFrom]
    dsimp only
    by_cases hlt : k < d.size
    · have hread := readFrom_inodeReadAt (e := e) hlt
      rw [inodeReadAt_fst.mpr hlt]
      generalize (d.inodeReadAt e (dirEntrySize * k)).2 = e' at hread ⊢
      by_cases huse : e'.inUse = true
      · rw [if_pos ⟨rfl, huse⟩]
        exact ih (k := k + 1) hlt (by omega) e'
      · rw [if_neg fun h => huse h.2]
        refine ⟨e', k, rfl, hk, ?_⟩
        rw [← hread.slot hlt, DirEntry.slot, if_neg huse]
    · rw [if_neg fun h => hlt (inodeReadAt_fst.mp h.1)]
      exact ⟨_, k, rfl, hk, slots_of_le (by omega)⟩

/-- A write changes one slot. -/
theorem slots_inodeWriteAt (hk : k ≤ d.size) (e : DirEntry) :
    (d.inodeWriteAt e (dirEntrySize * k)).slots = Function.update d.slots k e.slot := by
  have hsize : ∀ j, j < (d.inodeWriteAt e (dirEntrySize * k)).size ↔ j < d.size ∨ j = k := by
    intro j
    show j < max d.length (dirEntrySize * k + dirEntrySize) / dirEntrySize ↔ _
    unfold size dirEntrySize at *
    omega
  funext j
  by_cases hj : j = k
  · subst hj
    rw [Function.update_self, slots, if_pos ((hsize j).mpr (.inr rfl))]
    refine DirEntry.slot_congr fun i hi => ?_
    show (if _ then e (dirEntrySize * j + i - dirEntrySize * j) else _) = e i
    rw [if_pos (by omega), Nat.add_sub_cancel_left]
  · rw [Function.update_of_ne hj, slots, slots]
    simp only [hsize, hj, or_false]
    split
    · rename_i hlt
      refine DirEntry.slot_congr fun i hi => ?_
      have hbytes := lt_size_iff.mp hlt
      have hk' : dirEntrySize * k ≤ d.length := by
        unfold size dirEntrySize at *
        omega
      show (if _ then _ else if _ then 0 else d.data (dirEntrySize * j + i)) = _
      rw [if_neg (by unfold dirEntrySize at *; omega), if_neg (by omega)]
      rfl
    · rfl

theorem size_le_inodeWriteAt (d : Directory) (e : DirEntry) (ofs : Nat) :
    d.size ≤ (d.inodeWriteAt e ofs).size := Nat.div_le_div_right (Nat.le_max_left _ _)

/-- A write keeps the names within their fields. -/
theorem Named.write (h : d.Named) (hk : k ≤ d.size)
    (hname : ∀ name v, e.slot = some (name, v) → name.length ≤ nameMax) :
    (d.inodeWriteAt e (dirEntrySize * k)).Named := by
  intro j name v hslot
  rw [slots_inodeWriteAt hk] at hslot
  by_cases hjk : j = k
  · rw [hjk, Function.update_self] at hslot
    exact hname name v hslot
  · rw [Function.update_of_ne hjk] at hslot
    exact h j name v hslot

/-- The entry that `dir_add` fills in. -/
theorem slot_filled (e : DirEntry) (name : DirName) {inodeSector : Nat}
    (hsector : inodeSector < 2 ^ 32) (isDir : Bool) :
    (filled e name.bytes inodeSector isDir).slot = some (name.bytes, inodeSector, isDir) := by
  have htake : name.bytes.take nameMax = name.bytes := List.take_of_length_le name.le
  have hlength : (name.bytes ++ [0]).length ≤ nameMax + 1 := by
    have := name.le
    simp
    omega
  have hname : (filled e name.bytes inodeSector isDir).Holds 4 (name.bytes ++ [0]) := by
    unfold filled
    rw [htake]
    unfold nameMax at hlength
    exact (((Memory.holds_store _ _ _).store (.inr (by simp))).store (.inl (by omega))).store
      (.inl (by omega))
  have hword : (filled e name.bytes inodeSector isDir).Holds 0 (Memory.wordBytes inodeSector) :=
    ((Memory.holds_store _ _ _).store (.inl (by simp))).store (.inl (by simp))
  have huse : (filled e name.bytes inodeSector isDir).inUse = true := by
    have hbyte : (filled e name.bytes inodeSector isDir).Holds 68 [1] :=
      (Memory.holds_store _ 68 [1]).store (.inl (Nat.le_refl 69))
    rw [DirEntry.inUse, Memory.holds_singleton.mp hbyte]
    rfl
  have hdir : (filled e name.bytes inodeSector isDir).isDir = isDir := by
    have hbyte : filled e name.bytes inodeSector isDir 69 = if isDir then 1 else 0 :=
      Memory.holds_singleton.mp (Memory.holds_store _ 69 _)
    rw [DirEntry.isDir, hbyte]
    cases isDir <;> rfl
  rw [DirEntry.slot, if_pos huse, hdir, DirEntry.inodeSector, Memory.word_of_holds hword hsector,
    DirEntry.name_of_holds name.noNull name.le hname]

/-- The entry that `dir_remove` writes back. -/
theorem slot_erased (e : DirEntry) : DirEntry.slot (e.store 68 [0]) = none := by
  have hbyte : e.store 68 [0] 68 = 0 := Memory.holds_singleton.mp (Memory.holds_store e 68 [0])
  rw [DirEntry.slot, DirEntry.inUse, hbyte]
  rfl

/-- `dir_readdir` from slot `k` on finds the first name. -/
theorem readdirFrom_spec (hnamed : d.Named) {fuel : Nat} (hk : k ≤ d.size)
    (hfuel : d.size - k < fuel) (e : DirEntry) :
    ∃ j, readdirFrom fuel e { d with pos := dirEntrySize * k } =
        .ok ((d.slots.keysFrom k d.size).head?, { d with pos := dirEntrySize * j }) ∧
      j ≤ d.size ∧ d.slots.keysFrom j d.size = (d.slots.keysFrom k d.size).tail := by
  induction fuel generalizing k e with
  | zero => omega
  | succ fuel ih =>
    rw [readdirFrom, Routine.get_bind_apply]
    dsimp only
    by_cases hlt : k < d.size
    · have hread := readFrom_inodeReadAt (e := e) hlt
      change d.ReadFrom k (({ d with pos := dirEntrySize * k } : Directory).inodeReadAt e
        (dirEntrySize * k)).2 at hread
      rw [if_pos (show (({ d with pos := dirEntrySize * k } : Directory).inodeReadAt e
        (dirEntrySize * k)).1 = dirEntrySize from inodeReadAt_fst.mpr hlt), Routine.set_bind_apply]
      generalize (({ d with pos := dirEntrySize * k } : Directory).inodeReadAt e
        (dirEntrySize * k)).2 = e' at hread ⊢
      have hslot := hread.slot hlt
      rw [SlotTable.keysFrom_succ _ hlt, ← hslot, DirEntry.slot]
      by_cases huse : e'.inUse = true
      · rw [if_pos huse, if_pos huse]
        have htake := List.take_of_length_le (hread.named hnamed hlt huse)
        exact ⟨k + 1, by rw [htake]; rfl, hlt, rfl⟩
      · rw [if_neg huse, if_neg huse]
        exact ih hlt (by omega) e'
    · rw [if_neg (show ¬ (({ d with pos := dirEntrySize * k } : Directory).inodeReadAt e
        (dirEntrySize * k)).1 = dirEntrySize from fun h => hlt (inodeReadAt_fst.mp h)),
        SlotTable.keysFrom_end _ (by omega)]
      exact ⟨k, rfl, hk, SlotTable.keysFrom_end _ (by omega)⟩

/-- The directory stands for the map `m`. -/
structure Stands (d : Directory) (m : DirMap) : Prop where
  represents : d.slots.Represents m
  named : d.Named
  pos : ∃ k ≤ d.size, d.pos = dirEntrySize * k

variable {m : DirMap}

/-- A write to slot `k` keeps the names within their fields and the position. -/
theorem Stands.write (h : d.Stands m) (hk : k ≤ d.size) {m' : DirMap}
    (hrepresents : SlotTable.Represents (Function.update d.slots k e.slot) m')
    (hname : ∀ name v, e.slot = some (name, v) → name.length ≤ nameMax) :
    (d.inodeWriteAt e (dirEntrySize * k)).Stands m' := by
  obtain ⟨j, hj, hpos⟩ := h.pos
  exact ⟨slots_inodeWriteAt hk e ▸ hrepresents, h.named.write hk hname, j,
    Nat.le_trans hj (d.size_le_inodeWriteAt e _), hpos⟩

/-- `lookup` finds what the map has. -/
theorem Stands.lookup (h : d.Stands m) (name : DirName) (e : DirEntry) :
    d.lookup name.bytes e = .ok none ∧ m name.bytes = none ∨
      ∃ e' k v, d.lookup name.bytes e = .ok (some (e', dirEntrySize * k)) ∧ k < d.size ∧
        d.ReadFrom k e' ∧ d.slots k = some (name.bytes, v) ∧ m name.bytes = some v ∧
          e'.inodeSector = v.1 ∧ e'.isDir = v.2 := by
  have hfuel : d.size - 0 < d.length + 1 := by
    unfold size dirEntrySize
    omega
  obtain ⟨r, hrun, hlooks⟩ := lookupFrom_spec h.named name.noNull name.le hfuel e
  cases r with
  | none =>
    exact .inl ⟨hrun, h.represents.none_iff.mpr fun j v => hlooks j v (Nat.zero_le j)⟩
  | some found =>
    obtain ⟨e', ofs⟩ := found
    obtain ⟨k, v, rfl, hslot, hread⟩ := hlooks
    have hk : k < d.size := by
      by_contra hle
      rw [slots_of_le (by omega)] at hslot
      nomatch hslot
    have hentry := hread.slot hk
    rw [hslot, DirEntry.slot] at hentry
    split at hentry
    · have hv : (e'.inodeSector, e'.isDir) = v := congrArg Prod.snd (Option.some.inj hentry)
      exact .inr ⟨e', k, v, hrun, hk, hread, hslot, (h.represents.finds _ _).mpr ⟨k, hslot⟩,
        congrArg Prod.fst hv, congrArg Prod.snd hv⟩
    · nomatch hentry

theorem Stands.dirAdd (h : d.Stands m) (name : DirName) (inodeSector : UInt32) (isDir : Bool)
    (e : DirEntry) : ∃ d', Directory.dirAdd name.bytes inodeSector.toNat isDir e d =
        .ok ((m name.bytes).isNone, d') ∧ d'.Stands (m.step (.add name inodeSector isDir e)) := by
  have hvalid : ¬ (name.bytes = [] ∨ nameMax < name.bytes.length) := by
    have hpos := name.pos
    have hle := name.le
    rintro (hnil | hlong)
    · rw [hnil] at hpos
      nomatch hpos
    · omega
  have hfuel : d.size - 0 < d.length + 1 := by
    unfold size dirEntrySize
    omega
  obtain ⟨e', k, hfree, hk, hslot⟩ := freeSlotFrom_spec (Nat.zero_le d.size) hfuel e
  rw [Nat.mul_zero] at hfree
  rw [Directory.dirAdd, Routine.get_bind_apply]
  dsimp only
  rw [if_neg hvalid]
  rcases h.lookup name e with ⟨hlookup, hnone⟩ | ⟨_, _, v, hlookup, -, -, -, hsome, -⟩
  · rw [Routine.bind_of_ok (Routine.lift_of_ok hlookup d)]
    dsimp only
    rw [Routine.bind_of_ok (Routine.lift_of_ok hfree d), hnone, DirMap.step, if_pos hnone]
    have hfilled := slot_filled e' name inodeSector.toNat_lt isDir
    refine ⟨_, rfl, h.write hk ?_ fun n v' hn => ?_⟩
    · rw [hfilled]
      exact h.represents.insert hslot hnone _
    · rw [hfilled] at hn
      cases hn
      exact name.le
  · rw [Routine.bind_of_ok (Routine.lift_of_ok hlookup d), hsome, DirMap.step,
      if_neg (by rw [hsome]; nofun)]
    exact ⟨d, rfl, h⟩

theorem Stands.dirRemove (h : d.Stands m) (name : DirName) (isEmpty : Bool) (e : DirEntry) :
    ∃ r d', Directory.dirRemove name.bytes isEmpty e d = .ok (r, d') ∧
      m.Answers (.remove name isEmpty e) (.done r) ∧
        d'.Stands (m.step (.remove name isEmpty e)) := by
  rw [Directory.dirRemove, Routine.get_bind_apply]
  rcases h.lookup name e with
    ⟨hlookup, hnone⟩ | ⟨e', k, ⟨sector, isDir⟩, hlookup, hk, -, hslot, hsome, -, hdir⟩
  · rw [Routine.bind_of_ok (Routine.lift_of_ok hlookup d)]
    refine ⟨false, d, rfl, ?_, ?_⟩
    · rw [DirMap.Answers, hnone]
    · rwa [DirMap.step, hnone]
  · rw [Routine.bind_of_ok (Routine.lift_of_ok hlookup d)]
    dsimp only
    simp only [show e'.isDir = isDir from hdir, DirMap.Answers, DirMap.step, hsome]
    by_cases hkeep : (isDir && !isEmpty) = true
    · rw [if_pos hkeep, if_pos hkeep]
      exact ⟨false, d, rfl, by rw [hkeep]; rfl, h⟩
    · rw [if_neg hkeep, if_neg hkeep]
      refine ⟨true, _, rfl, by rw [Bool.eq_false_iff.mpr hkeep]; rfl,
        h.write (Nat.le_of_lt hk) ?_ fun n v hn => ?_⟩
      · rw [slot_erased]
        exact h.represents.erase hslot
      · rw [slot_erased] at hn
        nomatch hn

theorem Stands.dirLookupEntry (h : d.Stands m) (name : DirName) (isDir : Bool) (e : DirEntry) :
    Directory.dirLookupEntry name.bytes isDir e d =
      .ok ((m name.bytes).bind fun v => if isDir && !v.2 then none else some v.1, d) := by
  rw [Directory.dirLookupEntry, Routine.get_bind_apply]
  rcases h.lookup name e with ⟨hlookup, hnone⟩ | ⟨e', k, v, hlookup, -, -, -, hsome, hsector, hdir⟩
  · rw [Routine.bind_of_ok (Routine.lift_of_ok hlookup d), hnone]
    rfl
  · rw [Routine.bind_of_ok (Routine.lift_of_ok hlookup d), hsome]
    dsimp only
    rw [hsector, hdir, Option.bind_some]
    split <;> rfl

/-- `dir_readdir` from a slot on. -/
theorem dirReaddir_spec (hnamed : d.Named) {k : Nat} (hk : k ≤ d.size) (e : DirEntry) :
    ∃ j, dirReaddir e { d with pos := dirEntrySize * k } =
        .ok ((d.slots.keysFrom k d.size).head?, { d with pos := dirEntrySize * j }) ∧
      j ≤ d.size ∧ d.slots.keysFrom j d.size = (d.slots.keysFrom k d.size).tail := by
  rw [dirReaddir, Routine.get_bind_apply]
  refine readdirFrom_spec hnamed hk ?_ e
  show d.size - k < d.length + 1
  unfold size dirEntrySize
  omega

theorem Stands.dirReaddir (h : d.Stands m) (e : DirEntry) :
    ∃ name d', Directory.dirReaddir e d = .ok (name, d') ∧
      m.Answers (.readdir e) (.read name) ∧ d'.Stands m := by
  obtain ⟨k, hk, hpos⟩ := h.pos
  obtain ⟨j, hrun, hj, -⟩ := dirReaddir_spec h.named hk e
  rw [← hpos] at hrun
  refine ⟨_, _, hrun, ⟨_, rfl, fun n hn hnone => ?_⟩, h.represents, h.named, j, hj, rfl⟩
  obtain ⟨i, v, -, -, hslot⟩ := SlotTable.mem_keysFrom.mp (List.mem_of_mem_head? hn)
  exact h.represents.none_iff.mp hnone i v hslot

/-- Every call does to the directory what it does to the map. -/
theorem Stands.exec (h : d.Stands m) (op : DirOp) :
    ∃ r d', Directory.exec op d = .ok (r, d') ∧ m.Answers op r ∧ d'.Stands (m.step op) := by
  cases op with
  | add name inodeSector isDir e =>
    obtain ⟨d', hrun, hstands⟩ := h.dirAdd name inodeSector isDir e
    exact ⟨_, d', by rw [Directory.exec, Routine.map_apply, hrun], rfl, hstands⟩
  | remove name isEmpty e =>
    obtain ⟨r, d', hrun, hanswers, hstands⟩ := h.dirRemove name isEmpty e
    exact ⟨_, d', by rw [Directory.exec, Routine.map_apply, hrun], hanswers, hstands⟩
  | lookup name isDir e =>
    have hrun := h.dirLookupEntry name isDir e
    exact ⟨_, d, by rw [Directory.exec, Routine.map_apply, hrun], rfl, h⟩
  | readdir e =>
    obtain ⟨name, d', hrun, hanswers, hstands⟩ := h.dirReaddir e
    exact ⟨_, d', by rw [Directory.exec, Routine.map_apply, hrun], hanswers, hstands⟩

theorem Stands.execAll (h : d.Stands m) (ops : List DirOp) :
    ∃ rs d', Routine.execAll Directory.exec ops d = .ok (rs, d') ∧ m.AnswersAll ops rs ∧
      d'.Stands (ops.foldl DirMap.step m) := by
  induction ops generalizing d m with
  | nil => exact ⟨[], d, rfl, trivial, h⟩
  | cons op ops ih =>
    obtain ⟨r, d1, hrun, hanswers, hstands⟩ := h.exec op
    obtain ⟨rs, d', hrest, hall, hstands'⟩ := ih hstands
    exact ⟨r :: rs, d', Routine.execAll_cons_of_ok hrun hrest, ⟨hanswers, hall⟩, hstands'⟩

/-! ### A pass of `dir_readdir` -/

end Directory

end Pintos
