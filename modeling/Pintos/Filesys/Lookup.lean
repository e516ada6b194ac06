import Pintos.Filesys.Growth

/-! What `inode_pos_to_real_sector` returns and leaves in the two ranges that it can reach: the
sector in the slot, after it has filled the empty slots on the way to it where it may. -/

namespace Pintos

open Routine (Runs)
open InodeDisk (entry)

variable {calls : FreeMapCalls} {live : Set Nat} {allowed : FlatFs → Option Nat → Prop}
  {d d' d'' : FlatFs} {t o i x : Nat} {a : Slot} {W : Finset Slot}

/-- The state `d'` is reached from `d` by allocations of slots `W` of inode `t`.  If these were all
that were wanted, `SECTOR_ERROR` was not handed out; if not, `free_map_allocate` failed or handed it
out while a slot was empty. -/
structure Advances (calls : FreeMapCalls) (live : Set Nat) (allowed : FlatFs → Option Nat → Prop)
    (t : Nat) (W : Finset Slot) (d d' : FlatFs) (ok : Prop) : Prop where
  good : d'.Good live
  grows : Grows live t W d d'
  same : ok → d'.freeMap.bits sectorError = d.freeMap.bits sectorError
  stuck : ¬ ok → ∃ d1 r, Grows live t W d d1 ∧ 0 < d1.missing t W ∧ allowed d1 r ∧
    (r = none ∨ r = some sectorError ∧ d1.freeMap.bits sectorError = false ∧
      d'.freeMap.bits sectorError = true)

namespace Advances

variable {ok ok' : Prop}

theorem refl (hd : d.Good live) (hok : ok) : Advances calls live allowed t W d d ok :=
  ⟨hd, Grows.refl, fun _ => rfl, fun hnot => absurd hok hnot⟩

/-- Steps after work that got all it wanted. -/
theorem trans (ht : t ∈ live) (h : Advances calls live allowed t W d d' ok) (hok : ok)
    (h' : Advances calls live allowed t W d' d'' ok') :
    Advances calls live allowed t W d d'' ok' where
  good := h'.good
  grows := h.grows.trans ht h'.grows
  same hok' := (h'.same hok').trans (h.same hok)
  stuck hnot := by
    obtain ⟨d1, r, hgrows, hrest⟩ := h'.stuck hnot
    exact ⟨d1, r, h.grows.trans ht hgrows, hrest⟩

theorem congr (h : Advances calls live allowed t W d d' ok) (hiff : ok ↔ ok') :
    Advances calls live allowed t W d d' ok' := by
  rwa [← propext hiff]

end Advances

/-! ### Changes of a `struct inode` -/

@[simp] theorem FlatFs.setInode_setInode (d : FlatFs) (x : Nat) (inode inode' : Inode) :
    (d.setInode x inode).setInode x inode' = d.setInode x inode' := by
  simp [setInode]

theorem FlatFs.setInode_loaded {inode : Inode} (h : inode.accessCount ≠ 0) :
    (d.setInode x inode).Loaded x :=
  ⟨inode, by simp, h⟩

theorem FlatFs.setInode_loaded_ne {inode : Inode} (hne : t ≠ x) :
    (d.setInode x inode).Loaded t ↔ d.Loaded t := by
  rw [Loaded, Loaded, setInode_inodes, Function.update_of_ne hne]

/-- Any `struct inode` of an index block will do. -/
theorem FlatFs.Good.setInode_index (hd : d.Good live) (ht : t ∈ live) {k : Nat}
    (hk : (Slot.index k).Valid) (hne : slotOf d.cur t (.index k) ≠ sectorError) (inode : Inode) :
    (d.setInode (slotOf d.cur t (.index k)) inode).Good live where
  layout := hd.layout
  bitCnt := hd.bitCnt
  range := hd.range
  small := hd.small
  openUsed x hx := by
    by_cases hxt : x = slotOf d.cur t (.index k)
    · rw [hxt]
      exact hd.layout.slot t ht _ hk hne
    · rw [setInode_inodes, Function.update_of_ne hxt] at hx
      exact hd.openUsed x hx
  closed u hu j hj hdata := by
    have hnot : slotOf d.cur u (.data j) ≠ slotOf d.cur t (.index k) := fun heq => by
      nomatch (hd.layout.inj u hu t ht (.data j) (.index k) hj hk heq hdata).2
    rw [setInode_cur, setInode_inodes, Function.update_of_ne hnot]
    exact hd.closed u hu j hj hdata
  filled := hd.filled
  first := hd.first
  file f hf := by
    obtain ⟨hlive, hsize, inode', hopen, hdeny⟩ := hd.file f hf
    refine ⟨hlive, hsize, inode', ?_, hdeny⟩
    rw [setInode_inodes, Function.update_of_ne]
    · exact hopen
    · exact (hd.layout.apart f hlive t ht _ hk hne).symm

theorem Grows.setInode_index (hd : d.Good live) (ht : t ∈ live) {k : Nat}
    (hk : (Slot.index k).Valid) (hne : slotOf d.cur t (.index k) ≠ sectorError) (inode : Inode) :
    Grows live t W d (d.setInode (slotOf d.cur t (.index k)) inode) := by
  have hnot : ∀ u ∈ live, u ≠ slotOf d.cur t (.index k) := fun u hu =>
    (hd.layout.apart u hu t ht _ hk hne).symm
  refine { Grows.refl (d := d) with handles := fun u hu _ => ?_, loaded := fun u hu hu' => ?_ }
  · rw [FlatFs.setInode_inodes, Function.update_of_ne (hnot u hu)]
  · exact (FlatFs.setInode_loaded_ne (hnot u hu)).mpr hu'

theorem Advances.setInode_index (hd : d.Good live) (ht : t ∈ live) {k : Nat}
    (hk : (Slot.index k).Valid) (hne : slotOf d.cur t (.index k) ≠ sectorError) (inode : Inode)
    {ok : Prop} (hok : ok) :
    Advances calls live allowed t W d (d.setInode (slotOf d.cur t (.index k)) inode) ok :=
  ⟨hd.setInode_index ht hk hne inode, Grows.setInode_index hd ht hk hne inode, fun _ => rfl,
    fun hnot => absurd hok hnot⟩

/-- Work that only opened, loaded and released index blocks of inode `t`. -/
structure Quiet (t : Nat) (d d' : FlatFs) : Prop where
  size : d'.size = d.size
  cur : d'.cur = d.cur
  freeMap : d'.freeMap = d.freeMap
  file : d'.freeMapFile = d.freeMapFile
  inodes : ∀ x, ¬ d.IsIndexOf t x → d'.inodes x = d.inodes x
  loaded : ∀ x, d.Loaded x → d'.Loaded x

theorem Quiet.refl : Quiet t d d := ⟨rfl, rfl, rfl, rfl, fun _ _ => rfl, fun _ h => h⟩

theorem Quiet.setInode_index (hx : d.IsIndexOf t x) {inode : Inode}
    (hloaded : d.Loaded x → inode.accessCount ≠ 0) : Quiet t d (d.setInode x inode) := by
  refine { Quiet.refl (t := t) (d := d) with inodes := fun y hy => ?_, loaded := fun y hy => ?_ }
  · rw [FlatFs.setInode_inodes, Function.update_of_ne]
    rintro rfl
    exact hy hx
  · by_cases hyx : y = x
    · rw [hyx] at hy ⊢
      exact FlatFs.setInode_loaded (hloaded hy)
    · exact (FlatFs.setInode_loaded_ne hyx).mpr hy

/-! ### Tables -/

theorem FlatFs.accessCountOf_setInode (d : FlatFs) (x y : Nat) (inode : Inode) :
    (d.setInode x inode).accessCountOf y =
      if y = x then inode.accessCount else d.accessCountOf y := by
  rw [accessCountOf, setInode_inodes]
  by_cases hy : y = x
  · rw [hy, Function.update_self, if_pos rfl]
    rfl
  · rw [Function.update_of_ne hy, if_neg hy]
    rfl

/-- The index block is opened and loaded, once more than before. -/
theorem runs_openIndexBlock (hx : x < d.size) (hflag : InodeDisk.isIndexBlock (d.cur x) ≠ 0) :
    ∃ inode, inode.accessCount = d.accessCountOf x + 1 ∧
      Runs Shows (openIndexBlock x) d () (d.setInode x inode) := by
  have hload := runs_inodeLoadDisk (d := d.setInode x (Inode.opened (d.inodes x))) (t := x)
    (Function.update_self ..) hx
  rw [FlatFs.setInode_setInode] at hload
  have haccess : ((Inode.opened (d.inodes x)).load (d.cur x)).accessCount ≠ 0 :=
    Nat.succ_ne_zero _
  refine ⟨(Inode.opened (d.inodes x)).load (d.cur x), ?_,
    (runs_inodeOpen d x).bind (hload.bind ?_)⟩
  · rw [FlatFs.accessCountOf]
    cases d.inodes x <;> rfl
  refine (runs_getData (d := d.setInode x _) (Function.update_self ..) haccess hx).bind ?_
  rw [FlatFs.setInode_cur, if_neg hflag]
  exact Runs.pure

theorem runs_storeEntry (hloaded : d.Loaded o) (ho : o < d.size) (b : Nat) :
    Runs Shows (storeEntry o i b) d () (d.setCur o (InodeDisk.setEntry (d.cur o) i b)) := by
  obtain ⟨inode, hi, haccess⟩ := hloaded
  exact (runs_getData hi haccess ho).bind (runs_setData hi haccess)

/-- The index block that `inode_create` writes. -/
def indexBlock : InodeDisk :=
  SectorData.setWord (SectorData.setWord
    (InodeDisk.clearEntries SectorData.zeros (List.range indexBlockEntries)) 82 1) 83 inodeMagic

theorem entry_indexBlock {l : Nat} (hl : l < 64) : entry indexBlock l = sectorError := by
  rw [indexBlock, entry, SectorData.word_setWord_ne _ _ (by omega),
    SectorData.word_setWord_ne _ _ (by omega)]
  have hclear := InodeDisk.entry_clearEntries SectorData.zeros (List.range indexBlockEntries)
    (fun k hk => by
      rw [List.mem_range, indexBlockEntries] at hk
      omega) l
  rwa [if_pos (by rw [List.mem_range, indexBlockEntries]; omega)] at hclear

theorem isIndexBlock_indexBlock : InodeDisk.isIndexBlock indexBlock ≠ 0 := by
  rw [indexBlock, InodeDisk.isIndexBlock, SectorData.word_setWord_ne _ _ (by omega),
    SectorData.word_setWord_self _ (by omega) (by omega)]
  omega

/-- The sector of a slot that is not empty. -/
def found (sector : Nat) : Option Nat := if sector = sectorError then none else some sector

/-- The slot is for an index block. -/
def Slot.isIndex : Slot → Bool
  | data _ => false
  | index _ => true

/-- The contents of a sector that was allocated for the slot. -/
def Slot.contents : Slot → SectorData
  | data _ => SectorData.zeros
  | index _ => indexBlock

/-- `allocate_new_block` or `allocate_new_index_inode`. -/
theorem allocateNew_eq (calls : FreeMapCalls) (a : Slot) (store : Nat → FsRoutine Unit) :
    (if a.isIndex then allocateNewIndexInode calls store else allocateNewBlock calls store) = (do
      match ← calls.allocate with
      | none => pure sectorError
      | some b =>
        onCache (bcBlockWrite b (a.contents.copyOut 0 blockSectorSize) 0 false)
        store b
        pure b) := by
  cases a <;> rfl

theorem Allocated.not_isMapMeta {b : Nat} (hd : d.Good live) (h : Allocated live d d' b) :
    ¬ d.IsMapMeta b := by
  have hused : ∀ x, d.freeMap.bits x = true → x ≠ b := by
    rintro x hx rfl
    rw [h.unused] at hx
    nomatch hx
  rintro ⟨f, hf, rfl | ⟨k, hk, rfl, hne⟩⟩
  · exact hused b (hd.layout.inode b (hd.file b hf).1) rfl
  · exact hused _ (hd.layout.slot f (hd.file f hf).1 _ hk hne) rfl

/-- A sector that was just allocated is not open. -/
theorem Allocated.closed {b : Nat} (hd : d.Good live) (h : Allocated live d d' b) :
    d'.inodes b = none := by
  rw [h.inodes b (h.not_isMapMeta hd)]
  by_contra hopen
  have hused := hd.openUsed b hopen
  rw [h.unused] at hused
  nomatch hused

/-- The table that a slot is kept in is on the device. -/
theorem FlatFs.Good.place_lt_size (hd : d.Good live) (ht : t ∈ live) (ha : a.Valid)
    (hplace : place d.cur t a = some (o, i)) : o < d.size :=
  hd.range o (hd.layout.place_used ht ha hplace)

/-- The slot holds what `free_map_allocate` returned. -/
structure Stores (allowed : FlatFs → Option Nat → Prop) (t : Nat) (a : Slot) (d d' : FlatFs) :
    Prop where
  counts : ∀ x, d'.accessCountOf x = d.accessCountOf x
  bitCnt : d'.freeMap.bitCnt = d.freeMap.bitCnt
  others : ∀ c : Slot, c.Valid → c ≠ a → slotOf d'.cur t c = slotOf d.cur t c
  took : ∃ r, allowed d r ∧ slotOf d'.cur t a = r.getD sectorError ∧
    ∀ x, d'.freeMap.bits x = true ↔ d.freeMap.bits x = true ∨ r = some x

/-- `CHECK_ALLOCATE_AND_GET_SECTOR` fills the slot where it may and has to. -/
def Checked (allowed : FlatFs → Option Nat → Prop) (allocateNew : Bool) (t : Nat) (a : Slot)
    (d d' : FlatFs) : Prop :=
  if allocateNew = true ∧ slotOf d.cur t a = sectorError then Stores allowed t a d d' else d' = d

/-- The `struct inode` of one sector was opened or released, and its access count is `n` instead
of `m`. -/
structure Recounts (x m n : Nat) (d d' : FlatFs) : Prop where
  cur : d'.cur = d.cur
  freeMap : d'.freeMap = d.freeMap
  counts : ∀ y, y ≠ x → d'.accessCountOf y = d.accessCountOf y
  before : d.accessCountOf x = m
  after : d'.accessCountOf x = n

theorem Recounts.setInode {m : Nat} (h : d.accessCountOf x = m) (inode : Inode) :
    Recounts x m inode.accessCount d (d.setInode x inode) where
  cur := rfl
  freeMap := rfl
  counts y hy := by rw [FlatFs.accessCountOf_setInode, if_neg hy]
  before := h
  after := by rw [FlatFs.accessCountOf_setInode, if_pos rfl]

/-- The ways through `inode_pos_to_real_sector` for sector `j`. -/
inductive Walk (allowed : FlatFs → Option Nat → Prop) (allocateNew : Bool) (t j : Nat)
    (d : FlatFs) : FlatFs → Prop where
  | direct {d' : FlatFs} (hj : j ≤ 10) (h : Checked allowed allocateNew t (.data j) d d') :
    Walk allowed allocateNew t j d d'
  | noIndex {d' : FlatFs} (hj : 10 < j)
    (h : Checked allowed allocateNew t (.index (mainIdx j)) d d')
    (hnone : slotOf d'.cur t (.index (mainIdx j)) = sectorError) : Walk allowed allocateNew t j d d'
  | stops {d1 d2 d' : FlatFs} {n : Nat} (hj : 10 < j)
    (h : Checked allowed allocateNew t (.index (mainIdx j)) d d1)
    (hsome : slotOf d1.cur t (.index (mainIdx j)) ≠ sectorError)
    (hopen : Recounts (slotOf d1.cur t (.index (mainIdx j))) n (n + 1) d1 d2)
    (h' : Checked allowed allocateNew t (.data j) d2 d')
    (hkept : slotOf d'.cur t (.index (mainIdx j)) = slotOf d1.cur t (.index (mainIdx j)))
    (hnone : slotOf d'.cur t (.data j) = sectorError) : Walk allowed allocateNew t j d d'
  | releases {d1 d2 d3 d' : FlatFs} {n : Nat} (hj : 10 < j)
    (h : Checked allowed allocateNew t (.index (mainIdx j)) d d1)
    (hsome : slotOf d1.cur t (.index (mainIdx j)) ≠ sectorError)
    (hopen : Recounts (slotOf d1.cur t (.index (mainIdx j))) n (n + 1) d1 d2)
    (h' : Checked allowed allocateNew t (.data j) d2 d3)
    (hfound : slotOf d3.cur t (.data j) ≠ sectorError)
    (hclose : Recounts (slotOf d1.cur t (.index (mainIdx j))) (n + 1) n d3 d') :
    Walk allowed allocateNew t j d d'

/-- An empty slot is filled. -/
theorem runs_allocateNew (hcalls : calls.Allocates live allowed) (hd : d.Good live)
    (ht : t ∈ live) (ha : a.Valid) (hplace : place d.cur t a = some (o, i))
    (hempty : slotOf d.cur t a = sectorError) (hloaded : d.Loaded o) (haW : a ∈ W)
    (hW : ∀ c ∈ W, c.Valid) :
    ∃ d', Runs Shows (if a.isIndex then allocateNewIndexInode calls (storeEntry o i)
        else allocateNewBlock calls (storeEntry o i)) d (slotOf d'.cur t a) d' ∧
      Advances calls live allowed t W d d' (slotOf d'.cur t a ≠ sectorError) ∧ d'.Loaded o ∧
      entry (d'.cur o) i = slotOf d'.cur t a ∧ Stores allowed t a d d' := by
  rw [allocateNew_eq]
  obtain ⟨r, d1, hrun, halloc, hallowed⟩ := hcalls d hd
  have hmissing : 0 < d.missing t W :=
    Finset.card_pos.mpr ⟨a, Finset.mem_filter.mpr ⟨haW, hempty⟩⟩
  cases halloc with
  | none =>
    refine ⟨d, ?_, ⟨hd, Grows.refl, fun _ => rfl, fun _ => ?_⟩, hloaded,
      (slotOf_of_place hplace).symm, fun _ => rfl, rfl, fun _ _ _ => rfl, none, hallowed, hempty,
      fun x => ?_⟩
    · rw [hempty]
      exact hrun.bind Runs.pure
    · exact ⟨d, none, Grows.refl, hmissing, hallowed, .inl rfl⟩
    · exact (or_iff_left nofun).symm
  | @some b _ halloc =>
    have hfills : Fills live d d1 t a o i b a.contents :=
      { good := hd
        isLive := ht
        valid := ha
        at_place := hplace
        empty := hempty
        allocated := halloc
        zeros := by rintro j rfl; rfl
        index := by
          rintro k rfl
          exact ⟨fun l hl => entry_indexBlock hl, isIndexBlock_indexBlock⟩ }
    have hslot : slotOf (d1.stored b o i a.contents).cur t a = b := by
      rw [hfills.slotOf_eq ht ha, if_pos ⟨rfl, rfl⟩]
    have hob : o ≠ b := hfills.ne_b hfills.used_o
    have ho : o < d1.size := by
      rw [halloc.size]
      exact hd.place_lt_size ht ha hplace
    have hwrite : Runs Shows
        (onCache (bcBlockWrite b (a.contents.copyOut 0 blockSectorSize) 0 false)) d1 ()
        (d1.setCur b a.contents) := by
      refine runs_write_sector (by rw [halloc.size]; exact halloc.lt) fun inode hi => ?_
      rw [halloc.closed hd] at hi
      nomatch hi
    have hstore : Runs Shows (storeEntry o i b) (d1.setCur b a.contents) ()
        (d1.stored b o i a.contents) := by
      have hentry := runs_storeEntry (d := d1.setCur b a.contents) (i := i)
        (halloc.loaded o hloaded) ho b
      rwa [FlatFs.setCur_cur, Function.update_of_ne hob] at hentry
    refine ⟨d1.stored b o i a.contents, ?_, ⟨hfills.good', hfills.grows haW hW, ?_, ?_⟩, ?_, ?_,
      halloc.counts, ?_, fun c hc hca => ?_, some b, hallowed, hslot, fun x => ?_⟩
    · rw [hslot]
      exact hrun.bind (hwrite.bind (hstore.bind Runs.pure))
    · rw [hslot]
      intro hne
      have hbits := halloc.bits sectorError
      rw [or_iff_left (Ne.symm hne)] at hbits
      exact Bool.eq_iff_iff.mpr hbits
    · rw [hslot]
      intro heq
      obtain rfl := not_ne_iff.mp heq
      exact ⟨d, _, Grows.refl, hmissing, hallowed, .inr ⟨rfl, halloc.unused,
        (halloc.bits _).mpr (.inr rfl)⟩⟩
    · exact halloc.loaded o hloaded
    · rw [hslot, FlatFs.stored_cur_self,
        InodeDisk.entry_setEntry_self _ (place_lt ha hplace) hfills.b_lt]
    · exact halloc.good.bitCnt.trans (halloc.size.trans hd.bitCnt.symm)
    · rw [hfills.slotOf_eq ht hc, if_neg fun h => hca h.2]
    · rw [Option.some_inj, eq_comm (a := b)]
      exact halloc.bits x

/-- `CHECK_ALLOCATE_AND_GET_SECTOR` at the place of a slot. -/
theorem runs_check (hcalls : calls.Allocates live allowed) (hd : d.Good live) (ht : t ∈ live)
    (ha : a.Valid) (hplace : place d.cur t a = some (o, i)) {entries : Nat} (hi : i < entries)
    (hloaded : d.Loaded o) {allocateNew : Bool} (haW : allocateNew = true → a ∈ W)
    (hW : ∀ c ∈ W, c.Valid) :
    ∃ d', Runs Shows (checkAllocateAndGetSector calls o entries i a.isIndex allocateNew) d
        (found (slotOf d'.cur t a)) d' ∧
      Advances calls live allowed t W d d' (allocateNew = true → slotOf d'.cur t a ≠ sectorError) ∧
      d'.Loaded o ∧ Checked allowed allocateNew t a d d' := by
  have hentry := slotOf_of_place hplace
  have hget := fun {d : FlatFs} (hloaded : d.Loaded o) (ho : o < d.size) =>
    let ⟨_, hi, haccess⟩ := hloaded
    runs_getData hi haccess ho
  have ho := hd.place_lt_size ht ha hplace
  rw [checkAllocateAndGetSector, if_neg (by omega)]
  by_cases hnew : allocateNew = true ∧ slotOf d.cur t a = sectorError
  · obtain ⟨d', hrun, hadv, hloaded', hentry', hstores⟩ :=
      runs_allocateNew hcalls hd ht ha hplace hnew.2 hloaded (haW hnew.1) hW
    refine ⟨d', ?_, hadv.congr ?_, hloaded', ?_⟩
    · refine (hget hloaded ho).bind ?_
      rw [← hentry, if_pos hnew]
      refine hrun.ite_bind ?_
      beta_reduce
      rw [found]
      by_cases herr : slotOf d'.cur t a = sectorError
      · rw [if_pos herr, if_pos herr]
        exact Runs.pure
      · rw [if_neg herr, if_neg herr]
        refine (hget hloaded' (by rwa [hadv.grows.size])).bind ?_
        rw [hentry']
        exact Runs.pure
    · rw [hnew.1]
      exact ⟨fun h _ => h, fun h => h rfl⟩
    · rwa [Checked, if_pos hnew]
  · refine ⟨d, ?_, Advances.refl hd fun h1 h2 => hnew ⟨h1, h2⟩, hloaded, ?_⟩
    rotate_right
    · rw [Checked, if_neg hnew]
    refine (hget hloaded ho).bind ?_
    rw [← hentry, if_neg hnew, found]
    split <;> exact Runs.pure

theorem Checked.counts {allocateNew : Bool} (h : Checked allowed allocateNew t a d d') (x : Nat) :
    d'.accessCountOf x = d.accessCountOf x := by
  rw [Checked] at h
  split_ifs at h
  · exact h.counts x
  · rw [h]

/-- The index block of sector `j` is there, but not the sector. -/
def FlatFs.Stranded (d : FlatFs) (t j : Nat) : Prop :=
  10 < j ∧ slotOf d.cur t (.index (mainIdx j)) ≠ sectorError ∧ slotOf d.cur t (.data j) = sectorError

/-- The access counts after a lookup: the index block is not released where the sector is not found. -/
theorem Walk.counts {j : Nat} {allocateNew : Bool} (h : Walk allowed allocateNew t j d d') (y : Nat) :
    (¬ d'.Stranded t j → d'.accessCountOf y = d.accessCountOf y) ∧
    (d'.Stranded t j → d'.accessCountOf (slotOf d'.cur t (.index (mainIdx j))) =
      d.accessCountOf (slotOf d'.cur t (.index (mainIdx j))) + 1) := by
  cases h with
  | direct hj h => exact ⟨fun _ => h.counts y, fun hleft => absurd hleft.1 (by omega)⟩
  | noIndex hj h hnone => exact ⟨fun _ => h.counts y, fun hleft => absurd hnone hleft.2.1⟩
  | stops hj h hsome hopen h' hkept hnone =>
    refine ⟨fun hnot => absurd ⟨hj, by rwa [hkept], hnone⟩ hnot, fun _ => ?_⟩
    rw [hkept, h'.counts, hopen.after, ← h.counts, hopen.before]
  | @releases d1 d2 d3 d' n hj h hsome hopen h' hfound hclose =>
    refine ⟨fun _ => ?_, fun hleft => ?_⟩
    · by_cases hy : y = slotOf d1.cur t (.index (mainIdx j))
      · rw [hy, hclose.after, ← hopen.before, h.counts]
      · rw [hclose.counts y hy, h'.counts, hopen.counts y hy, h.counts]
    · have hnone := hleft.2.2
      rw [hclose.cur] at hnone
      exact absurd hnone hfound

theorem Checked.of_false (h : Checked allowed false t a d d') : d' = d := by
  rwa [Checked, if_neg (fun hnew => nomatch hnew.1)] at h

/-- `inode_pos_to_real_sector` in the first two ranges. -/
theorem runs_inodePosToRealSector (hcalls : calls.Allocates live allowed) (hd : d.Good live)
    (ht : t ∈ live) (hloaded : d.Loaded t) {pos : Int} (hpos : 0 ≤ pos) {j : Nat}
    (hj : (pos / 512).toNat = j) (hj' : j ≤ 4170) {allocateNew : Bool}
    (hjW : allocateNew = true → .data j ∈ W ∧ (10 < j → .index (mainIdx j) ∈ W))
    (hW : ∀ c ∈ W, c.Valid) :
    ∃ d', Runs Shows (inodePosToRealSector calls t pos allocateNew) d (slotOf d'.cur t (.data j))
        d' ∧
      Advances calls live allowed t W d d'
        (allocateNew = true → slotOf d'.cur t (.data j) ≠ sectorError) ∧
      (allocateNew = false → Quiet t d d') ∧ Walk allowed allocateNew t j d d' := by
  rw [inodePosToRealSector, if_neg (not_not.mpr hpos)]
  have hfound : ∀ {x : Nat} {d' : FlatFs}, Runs Shows (match found x with
      | none => pure sectorError
      | some sector => pure sector : FsRoutine Nat) d' x d' := by
    intro x d'
    by_cases hx : x = sectorError
    · rw [found, if_pos hx, hx]
      exact Runs.pure
    · rw [found, if_neg hx]
      exact Runs.pure
  have hrel : (pos / (blockSectorSize : Int)).toNat = j := hj
  rw [hrel]
  by_cases hdirect : j ≤ 10
  · obtain ⟨d', hrun, hadv, -, hchecked⟩ := runs_check (a := .data j) (i := j)
      hcalls hd ht hj' (by rw [place, if_pos hdirect])
      (show j < indexMainEntries from show j < 79 by omega) hloaded (fun hnew => (hjW hnew).1) hW
    refine ⟨d', ?_, hadv, ?_, .direct hdirect hchecked⟩
    rotate_left
    · rintro rfl
      rw [hchecked.of_false]
      exact Quiet.refl
    rw [if_pos (show j ≤ inodeAccessDirect from hdirect)]
    exact hrun.bind hfound
  · have hlt : 10 < j := by omega
    have hk := index_valid hlt hj'
    obtain ⟨-, hmain, hinner, hsplit⟩ := mainIdx_innerIdx hlt hj'
    rw [if_neg (show ¬ j ≤ inodeAccessDirect from hdirect),
      if_pos (show j ≤ inodeAccessIndirect from hj')]
    obtain ⟨d1, hrun1, hadv1, -, hchecked1⟩ := runs_check (a := .index (mainIdx j)) (i := mainIdx j)
      hcalls hd ht hk rfl (show mainIdx j < indexMainEntries from show mainIdx j < 79 by omega) hloaded
      (fun hnew => (hjW hnew).2 hlt) hW
    by_cases hnone : slotOf d1.cur t (.index (mainIdx j)) = sectorError
    · -- there is no index block, and none could be had
      have hdata := slotOf_no_index hlt hnone
      refine ⟨d1, ?_, ?_, ?_, .noIndex hlt hchecked1 hnone⟩
      rotate_right
      · rintro rfl
        rw [hchecked1.of_false]
        exact Quiet.refl
      · rw [hdata]
        rw [found, if_pos hnone] at hrun1
        exact hrun1.bind Runs.pure
      · refine hadv1.congr ?_
        rw [hdata, hnone]
    · rw [found, if_neg hnone] at hrun1
      obtain ⟨inode, hcount, hopen⟩ := runs_openIndexBlock
        (hadv1.good.range _ (hadv1.good.layout.slot t ht _ hk hnone))
        (hadv1.good.layout.flag t ht _ hk hnone)
      have haccess : inode.accessCount ≠ 0 := by
        rw [hcount]
        exact Nat.succ_ne_zero _
      have hopened := Recounts.setInode
        (rfl : d1.accessCountOf (slotOf d1.cur t (.index (mainIdx j))) = _) inode
      rw [hcount] at hopened
      have hstep2 : Advances calls live allowed t W d1 _ (allocateNew = true → _) :=
        .setInode_index hadv1.good ht hk hnone inode fun _ => hnone
      have hadv2 := hadv1.trans ht (fun _ => hnone) hstep2
      obtain ⟨d3, hrun3, hstep3, ⟨inode3, hopen3, haccess3⟩, hchecked3⟩ := runs_check (a := .data j)
        (i := innerIdx j) hcalls hadv2.good ht hj'
        (place_indirect hlt hnone) (show innerIdx j < indexBlockEntries from hinner) (FlatFs.setInode_loaded haccess)
        (fun hnew => (hjW hnew).1) hW
      have hadv3 := hadv2.trans ht (fun _ => hnone) hstep3
      have hinnerIdx : toWord ((j : Int) - ((directBlocks + indexBlockEntries *
          (divRoundUp (j - inodeAccessDirect) indexBlockEntries + inodeAccessDirect -
            directBlocks) : Nat) : Int)) = innerIdx j := by
        have hle : directBlocks + indexBlockEntries * (mainIdx j - directBlocks) ≤ j := by
          unfold directBlocks indexBlockEntries
          omega
        rw [← mainIdx, ← Int.ofNat_sub hle]
        exact toWord_of_lt (by omega)
      have hindexOf : d1.IsIndexOf t (slotOf d1.cur t (.index (mainIdx j))) :=
        ⟨_, hk, rfl, hnone⟩
      have hindex : slotOf d3.cur t (.index (mainIdx j)) = slotOf d1.cur t (.index (mainIdx j)) :=
        hstep3.grows.kept t ht _ hk hnone
      by_cases hnone3 : slotOf d3.cur t (.data j) = sectorError
      · -- the index block stays open
        refine ⟨d3, ?_, hadv3, ?_, .stops hlt hchecked1 hnone hopened hchecked3 hindex hnone3⟩
        rotate_left
        · rintro rfl
          rw [hchecked3.of_false]
          obtain rfl := hchecked1.of_false
          exact Quiet.setInode_index hindexOf fun _ => haccess
        rw [found, if_pos hnone3] at hrun3
        rw [hnone3]
        refine hrun1.bind (hopen.bind ?_)
        dsimp only
        rw [hinnerIdx]
        exact hrun3.bind Runs.pure
      · rw [FlatFs.setInode_cur, ← hindex] at hopen3
        have hrelease := runs_inodeReleaseDisk hopen3 haccess3
          (hadv3.good.range _ (hadv3.good.layout.slot t ht _ hk (by rwa [hindex])))
        have hstep4 : Advances calls live allowed t W d3 _ (allocateNew = true → _) :=
          .setInode_index hadv3.good ht hk (by rwa [hindex])
            { inode3 with accessCount := inode3.accessCount - 1 } fun _ => hnone3
        have hcount3 := (hchecked3.counts (slotOf d1.cur t (.index (mainIdx j)))).trans hopened.after
        have haccess3' : inode3.accessCount = d1.accessCountOf (slotOf d1.cur t (.index (mainIdx j))) + 1 := by
          rw [← hcount3, ← hindex, FlatFs.accessCountOf, hopen3]
          rfl
        have hclosed := Recounts.setInode hcount3
          { inode3 with accessCount := inode3.accessCount - 1 }
        have hback : inode3.accessCount - 1 =
            d1.accessCountOf (slotOf d1.cur t (.index (mainIdx j))) := by
          rw [haccess3', Nat.add_sub_cancel]
        refine ⟨_, ?_, hadv3.trans ht (fun _ => hnone3) hstep4, ?_,
          .releases hlt hchecked1 hnone hopened hchecked3 hnone3 ?_⟩
        rotate_right
        · rw [hindex]
          exact { hclosed with after := hclosed.after.trans hback }
        rotate_left
        · rintro rfl
          obtain rfl := hchecked3.of_false
          obtain rfl := hchecked1.of_false
          rw [hindex, FlatFs.setInode_setInode]
          refine Quiet.setInode_index hindexOf ?_
          rintro ⟨inode, hi, hloaded'⟩
          dsimp only
          rw [haccess3', Nat.add_sub_cancel, FlatFs.accessCountOf, hi]
          exact hloaded'
        rw [found, if_neg hnone3] at hrun3
        refine hrun1.bind (hopen.bind ?_)
        dsimp only
        rw [hinnerIdx]
        refine hrun3.bind ?_
        rw [hindex] at hrelease ⊢
        exact hrelease.bind Runs.pure

end Pintos
