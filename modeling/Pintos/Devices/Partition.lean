import Pintos.Devices.Block
import Pintos.Library.Memory
import Pintos.Library.Weakest

/-! Scanning a device for partitions (`devices/partition.c`).  Every table is read from sector 0,
whatever sector an extended partition designates: a scan ends only if one look at sector 0 for each
extended partition is all it takes. -/

namespace Pintos

namespace Partition

/-- `enum block_type`, as far as partitions have one. -/
inductive BlockType where
  | kernel
  | filesys
  | scratch
  | swap
  | foreign
  deriving DecidableEq

/-- `struct partition_table_entry`, without the geometry. -/
structure TableEntry where
  type : Nat
  offset : Nat
  size : Nat
  deriving DecidableEq

/-- `struct partition_table`. -/
structure PartitionTable where
  partitions : List TableEntry
  signature : Nat

/-- The table in the bytes of a sector. -/
def tableOf (data : SectorData) : PartitionTable where
  partitions := (List.range 4).map fun i => {
    type := (data.byte (446 + 16 * i + 4)).toNat
    offset := Memory.word data.byte (446 + 16 * i + 8)
    size := Memory.word data.byte (446 + 16 * i + 12) }
  signature := (data.byte 510).toNat + 2 ^ 8 * (data.byte 511).toNat

/-- A partition that `block_register` has added to the block devices. -/
structure Registered where
  partNr : Nat
  type : BlockType
  partType : Nat
  start : Nat
  size : Nat
  deriving DecidableEq

/-- `*part_nr` and the partitions registered so far. -/
structure Scan where
  partNr : Nat
  registered : List Registered

abbrev ScanRoutine := Routine Fault Scan

/-- A `block_sector_t`. -/
def sectorT (n : Nat) : Nat := n % 2 ^ 32

/-- The type of the block device for a partition type. -/
def blockType (partType : Nat) : BlockType :=
  if partType = 0x20 then .kernel
  else if partType = 0x21 then .filesys
  else if partType = 0x22 then .scratch
  else if partType = 0x23 then .swap
  else .foreign

/-- `found_partition`. -/
def foundPartition (block : Block) (partType start size partNr : Nat) : ScanRoutine Unit :=
  if block.size ≤ start then pure ()
  else if sectorT (start + size) < start ∨ block.size < sectorT (start + size) then pure ()
  else modify fun s => { s with
    registered := s.registered ++ [⟨partNr, blockType partType, partType, start, size⟩] }

def TableEntry.isEmpty (e : TableEntry) : Bool := e.size = 0 || e.type = 0

def TableEntry.isExtended (e : TableEntry) : Bool :=
  e.type = 0x05 || e.type = 0x0f || e.type = 0x85 || e.type = 0xc5

/-- One round of the loop of `read_partition_table`, which calls itself as `readTable`. -/
def parsePartition (block : Block) (readTable : Nat → Nat → ScanRoutine Unit)
    (sector primaryExtendedSector : Nat) (e : TableEntry) : ScanRoutine Unit :=
  if e.isEmpty then pure ()
  else if e.isExtended then
    if sector = 0 then readTable e.offset e.offset
    else readTable (sectorT (e.offset + primaryExtendedSector)) primaryExtendedSector
  else do
    modify fun s => { s with partNr := s.partNr + 1 }
    let s ← get
    foundPartition block e.type (sectorT (e.offset + sector)) e.size s.partNr

/-- `read_partition_table`, at most `depth` calls deep. -/
def readPartitionTable (block : Block) : (depth sector primaryExtendedSector : Nat) →
    ScanRoutine Unit
  | 0, _, _ => throw .spin
  | depth + 1, sector, primaryExtendedSector =>
    if block.size ≤ sector then pure ()
    else do
      let data ← block.blockRead 0
      let pt := tableOf data
      if pt.signature ≠ 0xaa55 then pure ()
      else pt.partitions.forM fun e =>
        parsePartition block (readPartitionTable block depth) sector primaryExtendedSector e

/-- `partition_scan`. -/
def partitionScan (block : Block) (depth : Nat) : ScanRoutine Unit :=
  readPartitionTable block depth 0 0

/-! ### Chains of tables -/

/-- The entries of the table in a sector, if there is one. -/
def entriesOf (data : SectorData) : List TableEntry :=
  if (tableOf data).signature ≠ 0xaa55 then [] else (tableOf data).partitions

/-- A partition that an entry designates. -/
structure Designated where
  type : Nat
  start : Nat
  size : Nat
  deriving DecidableEq

/-- What one entry designates: for an extended partition, what `next` says about the table that it
leads to. -/
def designatedBy (plus : Nat → Nat → Nat) (next : Nat → Nat → Option (List Designated))
    (sector primary : Nat) (e : TableEntry) : Option (List Designated) :=
  if e.isEmpty then some []
  else if e.isExtended then
    if sector = 0 then next e.offset e.offset else next (plus e.offset primary) primary
  else some [⟨e.type, plus e.offset sector, e.size⟩]

/-- What the tables designate, from the one in `sector` on, if they are at most `depth` deep. -/
def chain (tables : Nat → List TableEntry) (plus : Nat → Nat → Nat) :
    (depth sector primary : Nat) → Option (List Designated)
  | 0, _, _ => none
  | depth + 1, sector, primary =>
    List.flatten <$> (tables sector).mapM
      (designatedBy plus (chain tables plus depth) sector primary)

/-- The tables of a device, each in its own sector. -/
def tablesOf (block : Block) (sector : Nat) : List TableEntry :=
  if block.size ≤ sector then [] else entriesOf (block.data sector)

/-- The tables as the scan reads them. -/
def tablesRead (block : Block) (sector : Nat) : List TableEntry :=
  if block.size ≤ sector then [] else entriesOf (block.data 0)

/-- The partition lies wholly inside the device. -/
def Designated.inside (block : Block) (d : Designated) : Bool := d.start + d.size ≤ block.size

/-- What is registered for partitions in this order, numbered from `nr` on. -/
def registrations (block : Block) (nr : Nat) (ds : List Designated) : List Registered :=
  (ds.zipIdx nr).filterMap fun (d, nr) =>
    if d.inside block then some ⟨nr, blockType d.type, d.type, d.start, d.size⟩ else none

/-- What the scan does for one partition. -/
def Scan.found (block : Block) (s : Scan) (d : Designated) : Scan where
  partNr := s.partNr + 1
  registered := s.registered ++ if d.inside block then
    [⟨s.partNr + 1, blockType d.type, d.type, d.start, d.size⟩] else []

variable {block : Block} {s : Scan} {d : Designated} {e e' : TableEntry} {ds : List Designated}
  {depth sector primary : Nat}

theorem registered_foldl (ds : List Designated) (s : Scan) :
    (ds.foldl (Scan.found block) s).registered =
      s.registered ++ registrations block (s.partNr + 1) ds := by
  induction ds generalizing s with
  | nil => exact (List.append_nil _).symm
  | cons d ds ih =>
    rw [List.foldl_cons, ih, Scan.found, registrations, registrations, List.zipIdx_cons,
      List.filterMap_cons, List.append_assoc]
    by_cases hinside : d.inside block
    · simp [hinside]
    · simp [hinside]

/-- The check with wrap-around is the one without. -/
theorem foundPartition_ok {partType start size : Nat} (hstart : start < 2 ^ 32)
    (hsize : size < 2 ^ 32) (hpos : 0 < size) :
    foundPartition block partType start size (s.partNr + 1) { s with partNr := s.partNr + 1 } =
      .ok ((), s.found block ⟨partType, start, size⟩) := by
  have hlt := block.size_lt
  have hwrap : start + size < 2 ^ 32 ∧ sectorT (start + size) = start + size ∨
      2 ^ 32 ≤ start + size ∧ sectorT (start + size) < start := by
    simp only [sectorT]
    omega
  rw [foundPartition, Scan.found]
  simp only [Designated.inside, decide_eq_true_eq]
  split_ifs with hpast hend hinside hinside
  · omega
  · simp only [List.append_nil]
    rfl
  · omega
  · simp only [List.append_nil]
    rfl
  · rfl
  · omega

theorem mem_entriesOf {data : SectorData} (he : e ∈ entriesOf data) :
    e.offset < 2 ^ 32 ∧ e.size < 2 ^ 32 := by
  rw [entriesOf] at he
  split_ifs at he with hsignature
  · nomatch he
  · obtain ⟨i, -, rfl⟩ := List.mem_map.mp he
    exact ⟨Memory.word_lt _ _, Memory.word_lt _ _⟩

/-- Rounds of the loop, where the recursive calls do what `next` says. -/
theorem parsePartitions_ok {readTable : Nat → Nat → ScanRoutine Unit}
    {next : Nat → Nat → Option (List Designated)}
    (hnext : ∀ sector primary s, readTable sector primary s =
      match next sector primary with
      | some ds => .ok ((), ds.foldl (Scan.found block) s)
      | none => .error .spin)
    (es : List TableEntry) (hes : ∀ e ∈ es, e.offset < 2 ^ 32 ∧ e.size < 2 ^ 32) (s : Scan) :
    es.forM (parsePartition block readTable sector primary) s =
      match es.mapM (designatedBy (fun a b => sectorT (a + b)) next sector primary) with
      | some dss => .ok ((), dss.flatten.foldl (Scan.found block) s)
      | none => .error .spin := by
  induction es generalizing s with
  | nil => rfl
  | cons e es ih =>
    obtain ⟨he, hes⟩ := List.forall_mem_cons.mp hes
    have hstep : parsePartition block readTable sector primary e s =
        match designatedBy (fun a b => sectorT (a + b)) next sector primary e with
        | some ds => .ok ((), ds.foldl (Scan.found block) s)
        | none => .error .spin := by
      rw [parsePartition, designatedBy]
      split_ifs with hempty hextended hzero
      · rfl
      · exact hnext ..
      · exact hnext ..
      · rw [Routine.modify_bind_apply, Routine.get_bind_apply]
        refine foundPartition_ok (Nat.mod_lt _ (by decide)) he.2 ?_
        simp only [TableEntry.isEmpty, Bool.or_eq_true, decide_eq_true_eq] at hempty
        omega
    rw [List.forM_eq_forM, List.forM_cons, List.mapM_cons]
    cases hd : designatedBy (fun a b => sectorT (a + b)) next sector primary e with
    | none =>
      rw [hd] at hstep
      rw [Routine.bind_of_error hstep]
      rfl
    | some ds =>
      rw [hd] at hstep
      rw [Routine.bind_of_ok hstep]
      have hrest := ih hes (ds.foldl (Scan.found block) s)
      rw [List.forM_eq_forM] at hrest
      rw [hrest]
      cases es.mapM (designatedBy (fun a b => sectorT (a + b)) next sector primary) with
      | none => rfl
      | some dss =>
        simp only [Option.bind_eq_bind, Option.bind_some, Option.pure_def, List.flatten_cons,
          List.foldl_append]

/-- The scan follows the tables that it reads. -/
theorem readPartitionTable_eq (block : Block) (depth sector primary : Nat) (s : Scan) :
    readPartitionTable block depth sector primary s =
      match chain (tablesRead block) (fun a b => sectorT (a + b)) depth sector primary with
      | some ds => .ok ((), ds.foldl (Scan.found block) s)
      | none => .error .spin := by
  induction depth generalizing sector primary s with
  | zero => rfl
  | succ depth ih =>
    rw [readPartitionTable, chain, tablesRead]
    by_cases hsector : block.size ≤ sector
    · rw [if_pos hsector, if_pos hsector]
      rfl
    · have hread : (liftM (block.blockRead 0) : ScanRoutine SectorData) s =
          .ok (block.data 0, s) := by
        rw [Block.blockRead_of_lt (by omega)]
        rfl
      rw [if_neg hsector, if_neg hsector]
      have hrounds := @parsePartitions_ok block sector primary _ _ ih
        (entriesOf (block.data 0)) (fun e he => mem_entriesOf he) s
      have hbody : (if (tableOf (block.data 0)).signature ≠ 0xaa55 then pure ()
          else (tableOf (block.data 0)).partitions.forM fun e =>
            parsePartition block (readPartitionTable block depth) sector primary e) s =
          (entriesOf (block.data 0)).forM
            (parsePartition block (readPartitionTable block depth) sector primary) s := by
        rw [entriesOf]
        split_ifs <;> rfl
      refine (Routine.bind_of_ok hread _).trans (hbody.trans (hrounds.trans ?_))
      cases (entriesOf (block.data 0)).mapM (designatedBy (fun a b => sectorT (a + b))
        (chain (tablesRead block) (fun a b => sectorT (a + b)) depth) sector primary) <;> rfl

/-! ### What sector 0 designates -/

/-- The extended partitions in sector 0. -/
def extendedIn (block : Block) : List TableEntry :=
  (tablesOf block 0).filter fun e => !e.isEmpty && e.isExtended

/-- The scan comes to an end: seen from an extended partition inside the device, all extended
partitions of sector 0 are outside. -/
def Ends (block : Block) : Prop :=
  ∀ e ∈ extendedIn block, e.offset < block.size →
    ∀ e' ∈ extendedIn block, block.size ≤ sectorT (e'.offset + e.offset)

/-- The partitions that the entries of sector 0 designate from `sector`. -/
def partitionsFrom (block : Block) (sector : Nat) : List Designated :=
  ((tablesOf block 0).filter fun e => !e.isEmpty && !e.isExtended).map fun e =>
    ⟨e.type, sectorT (e.offset + sector), e.size⟩

/-- The partitions that the entries of sector 0 designate, once from sector 0 and once more from
each extended partition inside the device. -/
def ownEntries (block : Block) : List Designated :=
  (tablesOf block 0).flatMap fun e =>
    if e.isEmpty then []
    else if e.isExtended then
      if e.offset < block.size then partitionsFrom block e.offset else []
    else [⟨e.type, e.offset, e.size⟩]

theorem mapM_none {f : TableEntry → Option (List Designated)} {es : List TableEntry} (he : e ∈ es)
    (hf : f e = none) : es.mapM f = none := by
  induction es with
  | nil => nomatch he
  | cons e' es ih =>
    rw [List.mapM_cons]
    rcases List.mem_cons.mp he with rfl | he
    · rw [hf]
      rfl
    · rw [ih he]
      cases f e' <;> rfl

theorem mapM_some {f : TableEntry → Option (List Designated)} {g : TableEntry → List Designated}
    {es : List TableEntry} (h : ∀ e ∈ es, f e = some (g e)) : es.mapM f = some (es.map g) := by
  induction es with
  | nil => rfl
  | cons e es ih =>
    obtain ⟨he, hes⟩ := List.forall_mem_cons.mp h
    rw [List.mapM_cons, he, ih hes]
    rfl

theorem mapM_mono {f g : TableEntry → Option (List Designated)}
    (hfg : ∀ e ds, f e = some ds → g e = some ds) {es : List TableEntry}
    {dss : List (List Designated)} (h : es.mapM f = some dss) : es.mapM g = some dss := by
  induction es generalizing dss with
  | nil => exact h
  | cons e es ih =>
    rw [List.mapM_cons] at h ⊢
    obtain ⟨ds, hds, h⟩ := Option.bind_eq_some_iff.mp h
    obtain ⟨dss', hdss, h⟩ := Option.bind_eq_some_iff.mp h
    rw [hfg e ds hds, ih hdss]
    exact h

/-- A chain that is not too deep is the same when more depth is allowed. -/
theorem chain_mono {tables : Nat → List TableEntry} {plus : Nat → Nat → Nat}
    (h : chain tables plus depth sector primary = some ds) (n : Nat) :
    chain tables plus (depth + n) sector primary = some ds := by
  induction depth generalizing sector primary ds with
  | zero => nomatch h
  | succ depth ih =>
    rw [Nat.add_right_comm]
    rw [chain, Option.map_eq_map, Option.map_eq_some_iff] at h ⊢
    obtain ⟨dss, hdss, hflat⟩ := h
    refine ⟨dss, mapM_mono (fun e ds hds => ?_) hdss, hflat⟩
    rw [designatedBy] at hds ⊢
    split_ifs at hds ⊢ with hempty hextended hzero
    · exact hds
    · exact ih hds
    · exact ih hds
    · exact hds

theorem flatten_map_ite (es : List TableEntry) (p : TableEntry → Bool)
    (g : TableEntry → Designated) :
    (es.map fun e => if p e then [g e] else []).flatten = (es.filter p).map g := by
  induction es with
  | nil => rfl
  | cons e es ih =>
    rw [List.map_cons, List.flatten_cons, ih]
    by_cases hp : p e <;> simp [hp]

theorem mem_extendedIn : e ∈ extendedIn block ↔
    e ∈ tablesOf block 0 ∧ e.isEmpty = false ∧ e.isExtended = true := by
  simp [extendedIn]

theorem tablesRead_of_lt (h : sector < block.size) :
    tablesRead block sector = tablesOf block 0 := by
  rw [tablesRead, tablesOf, if_neg (by omega), if_neg (by omega)]

theorem tablesRead_of_le (h : block.size ≤ sector) : tablesRead block sector = [] := if_pos h

/-- The scan is as deep as it is from an extended partition, and one table more. -/
theorem chain_none (he : e ∈ extendedIn block) (hsector : sector < block.size)
    (h : chain (tablesRead block) (fun a b => sectorT (a + b)) depth
      (if sector = 0 then e.offset else sectorT (e.offset + primary))
      (if sector = 0 then e.offset else primary) = none) :
    chain (tablesRead block) (fun a b => sectorT (a + b)) (depth + 1) sector primary = none := by
  obtain ⟨hmem, hempty, hextended⟩ := mem_extendedIn.mp he
  have hdesignated : designatedBy (fun a b => sectorT (a + b))
      (chain (tablesRead block) (fun a b => sectorT (a + b)) depth) sector primary e = none := by
    rw [designatedBy, if_neg (by simp [hempty]), if_pos hextended]
    split_ifs at h ⊢ <;> exact h
  rw [chain, tablesRead_of_lt hsector, mapM_none hmem hdesignated]
  rfl

/-- Without `Ends`, sector 0 leads from one table to another and from there to itself. -/
theorem chain_endless (h : ¬ Ends block) (depth : Nat) :
    chain (tablesRead block) (fun a b => sectorT (a + b)) depth 0 0 = none := by
  simp only [Ends, not_forall, Nat.not_le] at h
  obtain ⟨e, he, hoffset, e', he', hnext⟩ := h
  have hendless : ∀ depth,
      (∀ primary, chain (tablesRead block) (fun a b => sectorT (a + b)) depth 0 primary = none) ∧
      chain (tablesRead block) (fun a b => sectorT (a + b)) depth e.offset e.offset = none ∧
      chain (tablesRead block) (fun a b => sectorT (a + b)) depth (sectorT (e'.offset + e.offset))
        e.offset = none := by
    intro depth
    induction depth with
    | zero => exact ⟨fun _ => rfl, rfl, rfl⟩
    | succ depth ih =>
      obtain ⟨hzero, hfirst, hsecond⟩ := ih
      have hzero' : ∀ primary, chain (tablesRead block) (fun a b => sectorT (a + b)) (depth + 1) 0
          primary = none := fun primary => chain_none he (by omega) hfirst
      refine ⟨hzero', ?_, ?_⟩
      · by_cases hz : e.offset = 0
        · rw [hz]
          exact hzero' 0
        · refine chain_none he' hoffset ?_
          rw [if_neg hz, if_neg hz]
          exact hsecond
      · by_cases hz : sectorT (e'.offset + e.offset) = 0
        · rw [hz]
          exact hzero' _
        · refine chain_none he' hnext ?_
          rw [if_neg hz, if_neg hz]
          exact hsecond
  exact (hendless depth).1 0

/-- With `Ends`, the scan looks at sector 0 once more for each extended partition. -/
theorem chain_ends (h : Ends block) (depth : Nat) :
    chain (tablesRead block) (fun a b => sectorT (a + b)) (depth + 3) 0 0 =
      some (ownEntries block) := by
  have hpast : ∀ depth sector primary, block.size ≤ sector →
      chain (tablesRead block) (fun a b => sectorT (a + b)) (depth + 1) sector primary =
        some [] := by
    intro depth sector primary hsector
    rw [chain, tablesRead_of_le hsector]
    rfl
  have hbelow : ∀ e ∈ extendedIn block, e.offset < block.size →
      chain (tablesRead block) (fun a b => sectorT (a + b)) (depth + 2) e.offset e.offset =
        some (partitionsFrom block e.offset) := by
    intro e he hoffset
    have hne : e.offset ≠ 0 := by
      intro hzero
      have hself := h e he hoffset e he
      rw [hzero] at hself hoffset
      simp only [sectorT] at hself
      omega
    have hdesignated : ∀ e' ∈ tablesOf block 0, designatedBy (fun a b => sectorT (a + b))
        (chain (tablesRead block) (fun a b => sectorT (a + b)) (depth + 1)) e.offset e.offset e' =
          some (if !e'.isEmpty && !e'.isExtended then
            [⟨e'.type, sectorT (e'.offset + e.offset), e'.size⟩] else []) := by
      intro e' hmem
      rw [designatedBy, if_neg hne]
      cases hempty : e'.isEmpty with
      | true => rfl
      | false =>
        cases hextended : e'.isExtended with
        | true =>
          exact hpast _ _ _ (h e he hoffset e' (mem_extendedIn.mpr ⟨hmem, hempty, hextended⟩))
        | false => rfl
    rw [chain, tablesRead_of_lt hoffset, mapM_some hdesignated, Option.map_eq_map, Option.map_some,
      partitionsFrom, flatten_map_ite]
  have hdesignated : ∀ e ∈ tablesRead block 0, designatedBy (fun a b => sectorT (a + b))
      (chain (tablesRead block) (fun a b => sectorT (a + b)) (depth + 2)) 0 0 e =
        some (if e.isEmpty then []
          else if e.isExtended then
            if e.offset < block.size then partitionsFrom block e.offset else []
          else [⟨e.type, e.offset, e.size⟩]) := by
    intro e hmem
    rw [designatedBy, if_pos (rfl : (0 : Nat) = 0)]
    split_ifs with hempty hextended hoffset
    · rfl
    · refine hbelow e (mem_extendedIn.mpr ⟨?_, by simpa using hempty, hextended⟩) hoffset
      rwa [tablesRead_of_lt (by omega)] at hmem
    · exact hpast _ _ _ (by omega)
    · have hlt : e.offset < 2 ^ 32 := by
        rw [tablesRead] at hmem
        split_ifs at hmem
        · nomatch hmem
        · exact (mem_entriesOf hmem).1
      rw [Nat.add_zero, sectorT, Nat.mod_eq_of_lt hlt]
  rw [chain, mapM_some hdesignated, ownEntries, List.flatMap_def]
  rfl

/-! ### Following the tables -/

/-- The chain of tables on the device comes to an end, and designates these partitions. -/
def Chain (block : Block) (designated : List Designated) : Prop :=
  ∃ depth, chain (tablesOf block) (· + ·) depth 0 0 = some designated

theorem Chain.unique {designated : List Designated} (h : Chain block ds)
    (h' : Chain block designated) : ds = designated := by
  obtain ⟨depth, h⟩ := h
  obtain ⟨depth', h'⟩ := h'
  have hsum := chain_mono h depth'
  rw [Nat.add_comm, chain_mono h' depth] at hsum
  exact (Option.some.inj hsum).symm

/-- The scan ends, and has registered what the tables designate inside the device, in this order. -/
def FollowsTables (block : Block) : Prop :=
  ∀ designated, Chain block designated → ∃ depth s,
    partitionScan block depth ⟨0, []⟩ = .ok ((), s) ∧
      s.registered = registrations block 1 designated

theorem partitionScan_of_not_ends (h : ¬ Ends block) (depth : Nat) (s : Scan) :
    partitionScan block depth s = .error .spin := by
  rw [partitionScan, readPartitionTable_eq, chain_endless h]

theorem partitionScan_of_ends (h : Ends block) (depth : Nat) (s : Scan) :
    partitionScan block (depth + 3) s =
      .ok ((), (ownEntries block).foldl (Scan.found block) s) := by
  rw [partitionScan, readPartitionTable_eq, chain_ends h]

/-- A scan that returns has registered what the entries of sector 0 designate. -/
theorem registered_of_ok (hends : Ends block)
    (h : partitionScan block depth ⟨0, []⟩ = .ok ((), s)) :
    s.registered = registrations block 1 (ownEntries block) := by
  rw [partitionScan, readPartitionTable_eq] at h
  cases hds : chain (tablesRead block) (fun a b => sectorT (a + b)) depth 0 0 with
  | none =>
    rw [hds] at h
    nomatch h
  | some ds =>
    rw [hds] at h
    have hsame := (chain_mono hds 3).symm.trans (chain_ends hends depth)
    obtain rfl := Option.some.inj hsame
    obtain rfl := (Prod.ext_iff.mp (Except.ok.inj h)).2
    rw [registered_foldl]
    rfl

end Partition

open Pintos.Partition in
/-- The scan follows the tables if and only if it ends and the entries of sector 0 alone designate
the same partitions inside the device. -/
theorem partition_scan_follows_iff {block : Block} {designated : List Designated}
    (h : Chain block designated) :
    FollowsTables block ↔
      Ends block ∧ registrations block 1 (ownEntries block) = registrations block 1 designated := by
  constructor
  · intro hfollows
    obtain ⟨depth, s, hscan, hregistered⟩ := hfollows designated h
    by_cases hends : Ends block
    · exact ⟨hends, (registered_of_ok hends hscan).symm.trans hregistered⟩
    · rw [partitionScan_of_not_ends hends] at hscan
      nomatch hscan
  · rintro ⟨hends, hsame⟩ designated' h'
    refine ⟨3, _, partitionScan_of_ends hends 0 _, ?_⟩
    rw [registered_foldl, h'.unique h, ← hsame]
    rfl

namespace Partition

/-- A sector whose table has one entry. -/
def tableSector (type offset size : UInt8) : SectorData := fun i =>
  if i.val = 450 then type
  else if i.val = 454 then offset
  else if i.val = 458 then size
  else if i.val = 510 then 0x55
  else if i.val = 511 then 0xaa
  else 0

/-- 240 sectors with an extended partition from sector 100 on, in which a partition starts one
sector behind the table. -/
def oneLogical : Block where
  size := 240
  size_lt := by decide
  data
    | 0 => tableSector 0x05 100 140
    | 100 => tableSector 0x21 1 50
    | _ => SectorData.zeros

/-- A sector whose table has a second entry. -/
def twoEntrySector (type offset size type' offset' size' : UInt8) : SectorData := fun i =>
  if i.val = 466 then type'
  else if i.val = 470 then offset'
  else if i.val = 474 then size'
  else tableSector type offset size i

/-- 240 sectors with a partition, and with an extended partition from sector 200 on whose table
repeats the entry of the partition. -/
def entryRepeated : Block where
  size := 240
  size_lt := by decide
  data
    | 0 => twoEntrySector 0x21 1 30 0x05 200 40
    | 200 => tableSector 0x21 1 30
    | _ => SectorData.zeros

theorem chain_oneLogical : Chain oneLogical [⟨0x21, 101, 50⟩] := ⟨3, by decide +kernel⟩

end Partition

open Pintos.Partition in
/-- The scan reads sector 0 again for the table of sector 200, and there is the same entry. -/
theorem partition_scan_follows_entryRepeated :
    Chain entryRepeated [⟨0x21, 1, 30⟩, ⟨0x21, 201, 30⟩] ∧ FollowsTables entryRepeated := by
  have hchain : Chain entryRepeated [⟨0x21, 1, 30⟩, ⟨0x21, 201, 30⟩] := ⟨3, by decide +kernel⟩
  refine ⟨hchain, (partition_scan_follows_iff hchain).mpr ⟨?_, by decide +kernel⟩⟩
  have hpast : ∀ e ∈ extendedIn entryRepeated, ∀ e' ∈ extendedIn entryRepeated,
      entryRepeated.size ≤ sectorT (e'.offset + e.offset) := by
    decide +kernel
  exact fun e he _ => hpast e he

open Pintos.Partition in
/-- The scan of `oneLogical` never ends. -/
theorem logical_partition_missed :
    Chain oneLogical [⟨0x21, 101, 50⟩] ∧ ¬ FollowsTables oneLogical ∧
      ∀ depth s, partitionScan oneLogical depth s = .error .spin := by
  have hends : ¬ Ends oneLogical := by
    intro h
    have hmem : (⟨0x05, 100, 140⟩ : TableEntry) ∈ extendedIn oneLogical := by decide +kernel
    have hpast := h _ hmem (by decide) _ hmem
    revert hpast
    decide
  refine ⟨chain_oneLogical, fun hfollows => ?_, partitionScan_of_not_ends hends⟩
  obtain ⟨depth, s, hscan, -⟩ := hfollows _ chain_oneLogical
  rw [partitionScan_of_not_ends hends] at hscan
  nomatch hscan

end Pintos
