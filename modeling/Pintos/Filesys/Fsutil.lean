import Pintos.Devices.Block
import Pintos.Lib.Ustar

/-! Archives on the scratch device (`filesys/fsutil.c`).  `fsutil_append` writes a header, the
sectors of a file and then one marker sector, twice: the second time from one byte further on in its
buffer, and to the same sector.  So the archive reads back exactly if the byte behind the buffer is
zero and the device already had zeros in the sector after. -/

namespace Pintos

/-- The sector that a device gets from a buffer in memory. -/
def sectorFrom (m : Memory) (start : Nat) : SectorData := fun i => m (start + i.val)

/-- A buffer filled from a sector. -/
def bufferOf (data : SectorData) : Memory := data.byte

/-- The static variable of `fsutil_append`, and the scratch device. -/
structure Scratch where
  device : Block
  sector : Nat

/-- A call of `fsutil_append`: the name and bytes of the file, and the memory around the buffer that
it allocates. -/
structure Append where
  fileName : CString
  contents : List UInt8
  buffer : Memory

/-! ### Appending -/

/-- The loop of `fsutil_append` over what is left of the file; every round writes a sector. -/
def copyLoop : (fuel : Nat) → Block → (sector : Nat) → (buffer : Memory) → (rest : List UInt8) →
    Except Fault (Block × Nat × Memory)
  | 0, _, _, _, _ => throw .spin
  | fuel + 1, dst, sector, buffer, rest =>
    if rest = [] then pure (dst, sector, buffer)
    else do
      let chunkSize := min rest.length blockSectorSize
      if dst.size ≤ sector then throw (.panic "out of space on scratch device")
      let buffer := buffer.store 0 (rest.take chunkSize)
      let buffer := buffer.store chunkSize (List.replicate (blockSectorSize - chunkSize) 0)
      let dst ← dst.blockWrite sector (sectorFrom buffer 0)
      copyLoop fuel dst (sector + 1) buffer (rest.drop chunkSize)

/-- `fsutil_append` of a file that is there and reads back as it was written. -/
def fsutilAppend (s : Scratch) (call : Append) : Except Fault Scratch :=
  match ustarMakeHeader call.fileName.bytes .regular call.contents.length call.buffer with
  | none => throw (.assertion "type == USTAR_REGULAR || type == USTAR_DIRECTORY")
  | some (false, _) => throw (.panic "name too long for ustar format")
  | some (true, header) => do
    let dst ← s.device.blockWrite s.sector (sectorFrom header 0)
    let (dst, sector, buffer) ← copyLoop (call.contents.length + 1) dst (s.sector + 1) header
      call.contents
    let buffer := buffer.store 0 (List.replicate blockSectorSize 0)
    let dst ← dst.blockWrite sector (sectorFrom buffer 0)
    let dst ← dst.blockWrite sector (sectorFrom buffer 1)
    return ⟨dst, sector⟩

def appendAll (s : Scratch) : List Append → Except Fault Scratch
  | [] => pure s
  | call :: rest => do appendAll (← fsutilAppend s call) rest

/-! ### Extracting -/

/-- The loop of `fsutil_extract` that copies a file of `size` bytes: its bytes and the sector after
it. -/
def readLoop : (fuel : Nat) → Block → (sector : Nat) → (size : Nat) →
    Except Fault (List UInt8 × Nat)
  | 0, _, _, _ => throw .spin
  | fuel + 1, src, sector, size =>
    if size = 0 then pure ([], sector)
    else do
      let chunkSize := min size blockSectorSize
      let data ← src.blockRead sector
      let (bytes, sector) ← readLoop fuel src (sector + 1) (size - chunkSize)
      return (data.copyOut 0 chunkSize ++ bytes, sector)

/-- A round of the loop of `fsutil_extract` with the parsed header of a sector, where `next` is the
loop from a later sector on: the files that they put into the file system. -/
def extractRound (src : Block) (sector : Nat)
    (parsed : Option (Except String (Option (List UInt8) × UstarType × Int)))
    (next : Nat → Except Fault (List (List UInt8 × List UInt8))) :
    Except Fault (List (List UInt8 × List UInt8)) :=
  match parsed with
  | none => throw .spin
  | some (.error error) => throw (.panic error)
  | some (.ok (some fileName, .regular, size)) => do
    let (bytes, sector) ← readLoop (size.toNat + 1) src (sector + 1) size.toNat
    return (fileName, bytes) :: (← next sector)
  | some (.ok (_, .directory, _)) => next (sector + 1)
  | some (.ok _) => pure []

/-- The loop of `fsutil_extract`, until the end of the archive. -/
def extractLoop : (fuel : Nat) → Block → (sector : Nat) →
    Except Fault (List (List UInt8 × List UInt8))
  | 0, _, _ => throw .spin
  | fuel + 1, src, sector => do
    let data ← src.blockRead sector
    extractRound src sector (ustarParseHeader (bufferOf data)) (extractLoop fuel src)

/-- `fsutil_extract`: the files, and the device with its first two sectors erased. -/
def fsutilExtract (src : Block) : Except Fault (List (List UInt8 × List UInt8) × Block) := do
  let files ← extractLoop (src.size + 1) src 0
  let src ← src.blockWrite 0 SectorData.zeros
  let src ← src.blockWrite 1 SectorData.zeros
  return (files, src)

/-! ### What an archive holds -/

/-- The sectors of `n` bytes. -/
def sectorsOf (n : Nat) : Nat := (n + 511) / 512

/-- The sectors of a file and its header. -/
def Append.sectors (call : Append) : Nat := 1 + sectorsOf call.contents.length

/-- The sectors of the archive before its marker. -/
def archiveSectors (calls : List Append) : Nat := (calls.map Append.sectors).sum

/-- The bytes lie in the sectors from `k` on. -/
def BytesAt (device : Block) (k : Nat) (bytes : List UInt8) : Prop :=
  ∀ i, ∀ h : i < bytes.length, (device.data (k + i / 512)).byte (i % 512) = bytes[i]

/-- The name under which a file is archived. -/
def Append.archivedName (call : Append) : List UInt8 :=
  (stripAntisocialPrefixes call.fileName.bytes).getD []

/-- A header and the bytes of its file lie in the sectors from `k` on. -/
structure FileAt (device : Block) (k : Nat) (call : Append) : Prop where
  header : ustarParseHeader (bufferOf (device.data k)) =
    some (.ok (some call.archivedName, .regular, call.contents.length))
  contents : BytesAt device (k + 1) call.contents

/-- The files lie one after another from sector `k` on. -/
def FilesAt (device : Block) : (k : Nat) → List Append → Prop
  | _, [] => True
  | k, call :: rest => FileAt device k call ∧ FilesAt device (k + call.sectors) rest

/-- The devices have the same sectors where `p` holds. -/
def SameSectors (p : Nat → Prop) (device device' : Block) : Prop :=
  device'.size = device.size ∧ ∀ j, p j → device'.data j = device.data j

variable {device device' : Block} {k : Nat} {bytes : List UInt8} {call : Append}

theorem BytesAt.congr (h : BytesAt device k bytes)
    (hsame : ∀ j, k ≤ j → j < k + sectorsOf bytes.length → device'.data j = device.data j) :
    BytesAt device' k bytes := by
  intro i hi
  rw [hsame _ (by omega) (by rw [sectorsOf]; omega)]
  exact h i hi

theorem FileAt.congr (h : FileAt device k call)
    (hsame : ∀ j, k ≤ j → j < k + call.sectors → device'.data j = device.data j) :
    FileAt device' k call := by
  refine ⟨?_, h.contents.congr fun j hj hj' => hsame j (by omega) (by rw [Append.sectors]; omega)⟩
  rw [hsame k (le_refl k) (by rw [Append.sectors]; omega)]
  exact h.header

/-! ### The loops -/

theorem sectorsOf_chunk {n : Nat} (h : 0 < n) : sectorsOf n = 1 + sectorsOf (n - min n 512) := by
  simp only [sectorsOf]
  omega

/-- The first chunk in its sector and the other bytes in the sectors after it. -/
theorem BytesAt.chunk {rest : List UInt8}
    (hfirst : ∀ i, ∀ h : i < rest.length, i < 512 → (device.data k).byte i = rest[i])
    (hrest : BytesAt device (k + 1) (rest.drop (min rest.length 512))) :
    BytesAt device k rest := by
  intro i hi
  by_cases hchunk : i < 512
  · rw [Nat.div_eq_of_lt hchunk, Nat.mod_eq_of_lt hchunk]
    exact hfirst i hi hchunk
  · obtain ⟨j, rfl⟩ := Nat.exists_eq_add_of_le (Nat.not_lt.mp hchunk)
    have hmin : min rest.length 512 = 512 := by omega
    have hbyte := hrest j (by simp; omega)
    rw [List.getElem_drop] at hbyte
    simp only [hmin] at hbyte
    rw [← hbyte, Nat.add_div_left _ (by decide), Nat.add_mod_left]
    congr 2
    omega

/-- What a round of the loop has in the buffer. -/
theorem sectorFrom_chunk (buffer : Memory) (rest : List UInt8) {i : Nat} (hi : i < rest.length)
    (hchunk : i < 512) :
    (sectorFrom ((buffer.store 0 (rest.take (min rest.length 512))).store (min rest.length 512)
      (List.replicate (512 - min rest.length 512) 0)) 0).byte i = rest[i] := by
  rw [SectorData.byte_of_lt _ hchunk, sectorFrom, Nat.zero_add]
  show Memory.store _ _ _ i = _
  rw [Memory.store_apply, if_neg (by simp; omega), Memory.store_apply, if_pos (by simp; omega), Nat.sub_zero,
    List.getD_eq_getElem?_getD, List.getElem?_take_of_lt (by omega), List.getElem?_eq_getElem hi]
  rfl

theorem copyLoop_spec {fuel sector : Nat} {dst : Block} {rest : List UInt8} (buffer : Memory)
    (hfuel : rest.length < fuel) (hspace : sector + sectorsOf rest.length ≤ dst.size) :
    ∃ dst' buffer',
      copyLoop fuel dst sector buffer rest
        = .ok (dst', sector + sectorsOf rest.length, buffer') ∧
      BytesAt dst' sector rest ∧
      SameSectors (fun j => j < sector ∨ sector + sectorsOf rest.length ≤ j) dst dst' ∧
      ∀ i, 512 ≤ i → buffer' i = buffer i := by
  induction fuel generalizing dst sector buffer rest with
  | zero => omega
  | succ fuel ih =>
    rw [copyLoop]
    by_cases hempty : rest = []
    · subst hempty
      exact ⟨dst, buffer, rfl, fun i hi => absurd hi (by simp), ⟨rfl, fun _ _ => rfl⟩,
        fun _ _ => rfl⟩
    · have hpos : 0 < rest.length := List.length_pos_iff.mpr hempty
      have hsectors := sectorsOf_chunk hpos
      have hdrop : (rest.drop (min rest.length 512)).length = rest.length - min rest.length 512 :=
        List.length_drop
      have hnext : ¬ dst.size ≤ sector := by omega
      -- the buffer and the device after one round
      generalize hfirst : (buffer.store 0 (rest.take (min rest.length 512))).store
        (min rest.length 512) (List.replicate (512 - min rest.length 512) 0) = buffer1
      have hless : (rest.drop (min rest.length 512)).length < fuel := by omega
      have hspace1 : sector + 1 + sectorsOf (rest.drop (min rest.length 512)).length
          ≤ (dst.store sector (sectorFrom buffer1 0)).size := by
        rw [hdrop, Block.store_size]
        omega
      obtain ⟨dst', buffer', hloop, hbytes, ⟨hsize, hsame⟩, hbuffer⟩ := ih buffer1 hless hspace1
      rw [hdrop] at hsame
      refine ⟨dst', buffer', ?_, ?_, ⟨hsize, fun j hj => ?_⟩, fun i hi => ?_⟩
      · have hwrite := Block.blockWrite_of_lt (Nat.not_le.mp hnext) (sectorFrom buffer1 0)
        simp only [if_neg hempty, blockSectorSize, if_neg hnext, hfirst, hwrite, bind, Except.bind,
          pure, Except.pure]
        rw [hloop, hdrop, hsectors, Nat.add_assoc]
      · refine BytesAt.chunk (fun i hi hchunk => ?_) hbytes
        rw [hsame sector (.inl (Nat.lt_succ_self sector)), Block.store_data, Function.update_self,
          ← hfirst]
        exact sectorFrom_chunk buffer rest hi hchunk
      · have hne : j ≠ sector := by omega
        rw [hsame j (by omega), Block.store_data, Function.update_of_ne hne]
      · rw [hbuffer i hi, ← hfirst, Memory.store_apply, if_neg (by simp; omega),
          Memory.store_apply, if_neg (by simp; omega)]

/-- The loop of `fsutil_extract` reads back what lies in the sectors. -/
theorem readLoop_spec {fuel sector : Nat} {src : Block} {bytes : List UInt8}
    (hfuel : bytes.length < fuel) (hspace : sector + sectorsOf bytes.length ≤ src.size)
    (hbytes : BytesAt src sector bytes) :
    readLoop fuel src sector bytes.length
      = .ok (bytes, sector + sectorsOf bytes.length) := by
  induction fuel generalizing sector bytes with
  | zero => omega
  | succ fuel ih =>
    rw [readLoop]
    by_cases hempty : bytes = []
    · subst hempty
      rfl
    · have hpos : 0 < bytes.length := List.length_pos_iff.mpr hempty
      have hsectors := sectorsOf_chunk hpos
      have hdrop : (bytes.drop (min bytes.length 512)).length
          = bytes.length - min bytes.length 512 := List.length_drop
      have hread := Block.blockRead_of_lt (by omega : sector < src.size)
      have hchunk : (src.data sector).copyOut 0 (min bytes.length 512)
          = bytes.take (min bytes.length 512) := by
        apply List.ext_getElem
        · simp
        · intro i hi hi'
          have hi512 : i < 512 := by
            rw [SectorData.length_copyOut] at hi
            omega
          have hbyte := hbytes i (by simp at hi; omega)
          rw [Nat.div_eq_of_lt hi512, Nat.mod_eq_of_lt hi512] at hbyte
          rw [SectorData.getElem_copyOut, Nat.zero_add, List.getElem_take]
          exact hbyte
      have hrest : BytesAt src (sector + 1) (bytes.drop (min bytes.length 512)) := by
        intro i hi
        have hmin : min bytes.length 512 = 512 := by
          rw [hdrop] at hi
          omega
        have hbyte := hbytes (512 + i) (by rw [hdrop] at hi; omega)
        rw [Nat.add_div_left _ (by decide), Nat.add_mod_left] at hbyte
        rw [List.getElem_drop]
        simp only [hmin]
        rw [← hbyte, Nat.add_assoc, Nat.add_comm 1]
      have hloop := ih (by omega) (by rw [hdrop]; omega) hrest
      rw [hdrop] at hloop
      simp only [if_neg (Nat.ne_of_gt hpos), blockSectorSize, hread, hloop, bind, Except.bind,
        pure, Except.pure]
      rw [hchunk, List.take_append_drop, hsectors, Nat.add_assoc]

theorem parse_zeros :
    ustarParseHeader (bufferOf SectorData.zeros) = some (.ok (none, .eof, 0)) := by
  have hzeros : isAllZeros (bufferOf SectorData.zeros) ustarHeaderSize = true := by
    rw [isAllZeros, List.all_eq_true]
    intro i _
    rw [bufferOf, SectorData.byte_zeros]
    rfl
  rw [ustarParseHeader, if_pos hzeros]

theorem extractLoop_of_read {fuel : Nat} {src : Block} {data : SectorData}
    (hread : src.blockRead k = .ok data) :
    extractLoop (fuel + 1) src k =
      extractRound src k (ustarParseHeader (bufferOf data)) (extractLoop fuel src) := by
  have hbind : ∀ f : SectorData → Except Fault (List (List UInt8 × List UInt8)),
      (Except.ok data >>= f) = f data := fun _ => rfl
  rw [extractLoop, hread, hbind]

/-- `fsutil_extract` reads the files up to a sector of zeros. -/
theorem extractLoop_spec {fuel : Nat} {src : Block} {calls : List Append}
    (hfuel : calls.length < fuel) (hspace : k + archiveSectors calls < src.size)
    (hfiles : FilesAt src k calls)
    (hend : src.data (k + archiveSectors calls) = SectorData.zeros) :
    extractLoop fuel src k
      = .ok (calls.map fun call => (call.archivedName, call.contents)) := by
  induction calls generalizing fuel k with
  | nil =>
    obtain ⟨fuel, rfl⟩ : ∃ n, fuel = n + 1 := ⟨fuel - 1, by simp at hfuel; omega⟩
    have hread : src.blockRead k = .ok SectorData.zeros :=
      (Block.blockRead_of_lt hspace).trans (congrArg _ hend)
    rw [extractLoop_of_read hread, parse_zeros]
    rfl
  | cons call rest ih =>
    obtain ⟨fuel, rfl⟩ : ∃ n, fuel = n + 1 := ⟨fuel - 1, by simp at hfuel; omega⟩
    obtain ⟨⟨hheader, hcontents⟩, hrest⟩ := hfiles
    have hsum : archiveSectors (call :: rest) = 1 + sectorsOf call.contents.length
        + archiveSectors rest := rfl
    have hsectors : call.sectors = 1 + sectorsOf call.contents.length := rfl
    have hread := Block.blockRead_of_lt (by omega : k < src.size)
    have hloop := readLoop_spec (Nat.lt_succ_self call.contents.length) (by omega) hcontents
    have hend' : src.data (k + call.sectors + archiveSectors rest) = SectorData.zeros := by
      rw [← hend, hsum, hsectors]
      exact congrArg src.data (by omega)
    have htail := ih (by simpa using hfuel) (by omega) hrest hend'
    rw [hsectors, ← Nat.add_assoc] at htail
    rw [extractLoop_of_read hread, hheader]
    show (do
      let (bytes, sector) ← readLoop (call.contents.length + 1) src (k + 1) call.contents.length
      return (call.archivedName, bytes) :: (← extractLoop fuel src sector)) = _
    rw [hloop]
    show (do return (call.archivedName, call.contents) ::
      (← extractLoop fuel src (k + 1 + sectorsOf call.contents.length))) = _
    rw [htail]
    rfl

/-! ### A call of `fsutil_append` -/

/-- What the second write of the marker leaves: zeros, and the byte behind the buffer. -/
def marker (behind : UInt8) : SectorData := fun i => if i.val = 511 then behind else 0

theorem marker_eq_zeros {behind : UInt8} : marker behind = SectorData.zeros ↔ behind = 0 := by
  constructor
  · intro h
    exact congrFun h ⟨511, by decide⟩
  · rintro rfl
    funext i
    simp [marker, SectorData.zeros]

/-- The buffer one byte further on. -/
theorem sectorFrom_cleared (buffer : Memory) :
    sectorFrom (buffer.store 0 (List.replicate blockSectorSize 0)) 1 = marker (buffer 512) := by
  funext i
  have hi := i.isLt
  simp only [sectorFrom, marker, Memory.store_apply, List.length_replicate, blockSectorSize]
  by_cases hlast : i.val = 511
  · rw [if_neg (by omega), if_pos hlast, hlast]
  · rw [if_pos (by omega), if_neg hlast, List.getD_eq_getElem?_getD,
      List.getElem?_replicate_of_lt (by omega)]
    rfl

theorem parse_sectorFrom (m : Memory) :
    ustarParseHeader (bufferOf (sectorFrom m 0)) = ustarParseHeader m := by
  refine ustarParseHeader_congr fun i hi => ?_
  rw [bufferOf, SectorData.byte_of_lt _ hi, sectorFrom, Nat.zero_add]

theorem Append.archivedName_spec (call : Append) :
    stripAntisocialPrefixes call.fileName.bytes = some call.archivedName ∧
      Stripped call.archivedName ∧ 0 ∉ call.archivedName := by
  obtain ⟨r, hr, hstripped, hnull⟩ := strip_spec call.fileName.bytes
  rw [Append.archivedName, hr]
  exact ⟨rfl, hstripped, hnull call.fileName.noNull⟩

/-- A file goes behind what is in the archive, and one marker sector behind the file. -/
theorem fsutilAppend_spec {s : Scratch} (hname : call.archivedName.length ≤ 99)
    (hsize : call.contents.length < 2 ^ 31) (hspace : s.sector + call.sectors < s.device.size) :
    ∃ device, fsutilAppend s call = .ok ⟨device, s.sector + call.sectors⟩ ∧
      FileAt device s.sector call ∧
      SameSectors (fun j => j < s.sector ∨ s.sector + call.sectors < j) s.device device ∧
      device.data (s.sector + call.sectors) = marker (call.buffer 512) := by
  obtain ⟨hstrip, hstripped, hnull⟩ := call.archivedName_spec
  have hregular : UstarType.regular ≠ .eof := by decide
  obtain ⟨header, hmake, hd, hsum, hbehind⟩ :=
    make_describes call.buffer hregular hstrip hname hsize
  have hparse := parse_of_describes hd hsum (by decide) hstripped hnull hname hsize
  have hsectors : call.sectors = 1 + sectorsOf call.contents.length := rfl
  have hwrite := Block.blockWrite_of_lt (by omega : s.sector < s.device.size) (sectorFrom header 0)
  have hroom : s.sector + 1 + sectorsOf call.contents.length
      ≤ (s.device.store s.sector (sectorFrom header 0)).size := by
    rw [Block.store_size]
    omega
  obtain ⟨dst, buffer, hloop, hbytes, ⟨hdst, hsame⟩, hbuffer⟩ :=
    copyLoop_spec header (Nat.lt_succ_self call.contents.length) hroom
  have hend : s.sector + 1 + sectorsOf call.contents.length = s.sector + call.sectors := by omega
  rw [hend] at hloop hsame
  rw [Block.store_size] at hdst
  have hmarker : sectorFrom (buffer.store 0 (List.replicate blockSectorSize 0)) 1
      = marker (call.buffer 512) := by
    rw [sectorFrom_cleared, hbuffer 512 (le_refl _), hbehind 512 (le_refl _)]
  have hfirst := Block.blockWrite_of_lt (by omega : s.sector + call.sectors < dst.size)
    (sectorFrom (buffer.store 0 (List.replicate blockSectorSize 0)) 0)
  generalize hcleared : sectorFrom (buffer.store 0 (List.replicate blockSectorSize 0)) 0 = cleared
    at hfirst
  have hsecond := Block.blockWrite_of_lt
    (by rw [Block.store_size]; omega :
      s.sector + call.sectors < (dst.store (s.sector + call.sectors) cleared).size)
    (marker (call.buffer 512))
  refine ⟨(dst.store (s.sector + call.sectors) cleared).store (s.sector + call.sectors)
    (marker (call.buffer 512)), ?_, ⟨?_, ?_⟩, ⟨hdst, fun j hj => ?_⟩, ?_⟩
  · rw [fsutilAppend, hmake]
    simp only [hwrite, hloop, hcleared, hfirst, hmarker, hsecond, bind, Except.bind, pure,
      Except.pure]
  · rw [Block.store_data, Function.update_of_ne (by omega), Block.store_data,
      Function.update_of_ne (by omega), hsame _ (.inl (by omega)), Block.store_data,
      Function.update_self, parse_sectorFrom, hparse]
    rfl
  · refine hbytes.congr fun j hj hj' => ?_
    rw [Block.store_data, Function.update_of_ne (by omega), Block.store_data,
      Function.update_of_ne (by omega)]
  · rw [Block.store_data, Function.update_of_ne (by omega), Block.store_data,
      Function.update_of_ne (by omega), hsame j (by omega), Block.store_data,
      Function.update_of_ne (by omega)]
  · rw [Block.store_data, Function.update_self]

/-- A file whose name is too long is not archived. -/
theorem fsutilAppend_long (s : Scratch) (hlong : 99 < call.archivedName.length) :
    fsutilAppend s call = .error (.panic "name too long for ustar format") := by
  obtain ⟨hstrip, -, -⟩ := call.archivedName_spec
  have hregular : UstarType.regular ≠ .eof := by decide
  have hmake : ustarMakeHeader call.fileName.bytes .regular call.contents.length call.buffer
      = some (false, call.buffer) := by
    simp only [ustarMakeHeader, if_neg hregular, hstrip, Option.bind_eq_bind, Option.bind_some,
      if_pos hlong, Option.pure_def]
  rw [fsutilAppend, hmake]
  rfl

/-! ### Sequences of calls -/

/-- The names of all files fit in a header. -/
def NamesFit (calls : List Append) : Prop := ∀ call ∈ calls, call.archivedName.length ≤ 99

/-- What a sequence of calls leaves on the device. -/
theorem appendAll_spec {calls : List Append} (hnames : NamesFit calls)
    (hsizes : ∀ call ∈ calls, call.contents.length < 2 ^ 31) {s : Scratch}
    (hspace : s.sector + archiveSectors calls < s.device.size) :
    ∃ device, appendAll s calls = .ok ⟨device, s.sector + archiveSectors calls⟩ ∧
      FilesAt device s.sector calls ∧
      SameSectors (fun j => j < s.sector ∨ s.sector + archiveSectors calls < j) s.device device ∧
      device.data (s.sector + archiveSectors calls) =
        match calls.getLast? with
        | none => s.device.data s.sector
        | some call => marker (call.buffer 512) := by
  induction calls generalizing s with
  | nil => exact ⟨s.device, rfl, trivial, ⟨rfl, fun _ _ => rfl⟩, rfl⟩
  | cons call rest ih =>
    have hsum : archiveSectors (call :: rest) = call.sectors + archiveSectors rest := rfl
    obtain ⟨device, happend, hfile, ⟨hsize, hsame⟩, hmarker⟩ :=
      fsutilAppend_spec (hnames call List.mem_cons_self) (hsizes call List.mem_cons_self)
        (by omega : s.sector + call.sectors < s.device.size)
    have hroom : s.sector + call.sectors + archiveSectors rest < device.size := by
      rw [hsize]
      omega
    obtain ⟨device', hrest, hfiles, ⟨hsize', hsame'⟩, hmarker'⟩ :=
      ih (fun c hc => hnames c (List.mem_cons_of_mem _ hc))
        (fun c hc => hsizes c (List.mem_cons_of_mem _ hc))
        (s := ⟨device, s.sector + call.sectors⟩) hroom
    refine ⟨device', ?_, ⟨?_, hfiles⟩, ⟨hsize'.trans hsize, fun j hj => ?_⟩, ?_⟩
    · rw [appendAll, happend, hsum, ← Nat.add_assoc]
      exact hrest
    · exact hfile.congr fun j hj hj' => hsame' j (.inl hj')
    · rw [hsum] at hj
      have hbehind : j < s.sector + call.sectors ∨
          s.sector + call.sectors + archiveSectors rest < j := by omega
      exact (hsame' j hbehind).trans (hsame j (by omega))
    · rw [hsum, ← Nat.add_assoc]
      refine hmarker'.trans ?_
      cases rest with
      | nil => exact hmarker
      | cons next rest =>
        obtain ⟨last, hlast⟩ : ∃ last, (next :: rest).getLast? = some last :=
          Option.isSome_iff_exists.mp (by simp)
        rw [List.getLast?_cons_cons, hlast]

/-- A sequence of calls that goes through has names that fit. -/
theorem namesFit_of_appendAll {calls : List Append} {s s' : Scratch}
    (h : appendAll s calls = .ok s') : NamesFit calls := by
  induction calls generalizing s with
  | nil => exact fun _ hcall => absurd hcall List.not_mem_nil
  | cons call rest ih =>
    have hname : call.archivedName.length ≤ 99 := by
      by_contra hlong
      rw [appendAll, fsutilAppend_long s (Nat.not_le.mp hlong)] at h
      cases h
    rw [appendAll] at h
    cases happend : fsutilAppend s call with
    | error fault =>
      rw [happend] at h
      cases h
    | ok s1 =>
      rw [happend] at h
      intro c hc
      rcases List.mem_cons.mp hc with rfl | hc
      · exact hname
      · exact ih h c hc

theorem length_le_archiveSectors (calls : List Append) : calls.length ≤ archiveSectors calls := by
  induction calls with
  | nil => exact Nat.zero_le _
  | cons call rest ih =>
    have hsum : archiveSectors (call :: rest) = 1 + sectorsOf call.contents.length
        + archiveSectors rest := rfl
    rw [List.length_cons]
    omega

/-- The calls of `fsutil_append` leave an archive that `fsutil_extract` reads back, with two sectors
of zeros behind the last file. -/
def RoundTrips (device : Block) (calls : List Append) : Prop :=
  ∃ s, appendAll ⟨device, 0⟩ calls = .ok s ∧
    (∃ erased, fsutilExtract s.device
      = .ok (calls.map fun call => (call.archivedName, call.contents), erased)) ∧
    s.device.data (archiveSectors calls) = SectorData.zeros ∧
    s.device.data (archiveSectors calls + 1) = SectorData.zeros

/-- The second sector of the marker is as it was before. -/
theorem second_sector_of_run {calls : List Append} {s : Scratch}
    (hsizes : ∀ call ∈ calls, call.contents.length < 2 ^ 31)
    (hspace : archiveSectors calls + 2 ≤ device.size)
    (hrun : appendAll ⟨device, 0⟩ calls = .ok s) :
    s.device.data (archiveSectors calls + 1) = device.data (archiveSectors calls + 1) := by
  have hroom : (Scratch.mk device 0).sector + archiveSectors calls < device.size := by
    show 0 + archiveSectors calls < device.size
    omega
  obtain ⟨device', happend, -, ⟨-, hsame⟩, -⟩ :=
    appendAll_spec (namesFit_of_appendAll hrun) hsizes hroom
  rw [hrun, Except.ok.injEq] at happend
  subst happend
  exact hsame _ (.inr (by rw [Nat.zero_add]; exact Nat.lt_succ_self _))

/-- The marker is there only by chance: the device has zeros in its second sector already, and the
byte behind the buffer of the last call is zero (or, with no call, the first sector is zero). -/
theorem archive_round_trip_iff (device : Block) (calls : List Append)
    (hsizes : ∀ call ∈ calls, call.contents.length < 2 ^ 31)
    (hspace : archiveSectors calls + 2 ≤ device.size) :
    RoundTrips device calls ↔
      NamesFit calls ∧ device.data (archiveSectors calls + 1) = SectorData.zeros ∧
        match calls.getLast? with
        | none => device.data 0 = SectorData.zeros
        | some call => call.buffer 512 = 0 := by
  have hroom : (Scratch.mk device 0).sector + archiveSectors calls < device.size := by
    show 0 + archiveSectors calls < device.size
    omega
  constructor
  · rintro ⟨s, hrun, -, hfirst, hsecond⟩
    have hnames := namesFit_of_appendAll hrun
    obtain ⟨device', happend, -, -, hmarker⟩ := appendAll_spec hnames hsizes hroom
    rw [hrun, Except.ok.injEq] at happend
    subst happend
    simp only [Nat.zero_add] at hmarker
    refine ⟨hnames, ?_, ?_⟩
    · rw [← second_sector_of_run hsizes hspace hrun]
      exact hsecond
    · rw [hfirst] at hmarker
      cases hlast : calls.getLast? with
      | none =>
        rw [hlast] at hmarker
        exact hmarker.symm
      | some call =>
        rw [hlast] at hmarker
        exact marker_eq_zeros.mp hmarker.symm
  · rintro ⟨hnames, hsecond, hlast⟩
    obtain ⟨device', happend, hfiles, ⟨hsize, hsame⟩, hmarker⟩ :=
      appendAll_spec hnames hsizes hroom
    simp only [Nat.zero_add] at happend hsame hmarker hsize hfiles
    have hfirst : device'.data (archiveSectors calls) = SectorData.zeros := by
      rw [hmarker]
      cases hcall : calls.getLast? with
      | none =>
        rw [hcall] at hlast
        exact hlast
      | some call =>
        rw [hcall] at hlast
        exact marker_eq_zeros.mpr hlast
    refine ⟨_, happend, ?_, hfirst, ?_⟩
    · have hcount := length_le_archiveSectors calls
      have hfuel : calls.length < device'.size + 1 := by omega
      have hinside : 0 + archiveSectors calls < device'.size := by omega
      have hextract := extractLoop_spec hfuel hinside hfiles ((Nat.zero_add _).symm ▸ hfirst)
      have herase0 := Block.blockWrite_of_lt (by omega : 0 < device'.size) SectorData.zeros
      have herase1 := Block.blockWrite_of_lt (by rw [Block.store_size]; omega :
        1 < (device'.store 0 SectorData.zeros).size) SectorData.zeros
      refine ⟨(device'.store 0 SectorData.zeros).store 1 SectorData.zeros, ?_⟩
      simp only [fsutilExtract, hextract, herase0, herase1, bind, Except.bind, pure, Except.pure]
    · rw [second_sector_of_run hsizes hspace happend]
      exact hsecond

/-- A device of ten sectors with the same byte everywhere. -/
def filledDevice (b : UInt8) : Block := ⟨10, by decide, fun _ _ => b⟩

/-- An empty file. -/
def emptyFile : Append := ⟨⟨[0x61], by decide⟩, [], fun _ => 0⟩

/-- A file of 600 bytes, an empty one and one of a single byte. -/
def threeFiles : List Append :=
  [⟨⟨[0x61], by decide⟩, List.replicate 600 0x90, fun _ => 0⟩, emptyFile,
    ⟨⟨[0x62], by decide⟩, [1], fun _ => 0⟩]

theorem archive_round_trip_iff_threeFiles : RoundTrips (filledDevice 0) threeFiles := by
  have hnames : NamesFit threeFiles := by
    intro call hcall
    simp only [threeFiles, List.mem_cons, List.not_mem_nil, or_false] at hcall
    obtain rfl | rfl | rfl := hcall <;> decide +kernel
  exact (archive_round_trip_iff (filledDevice 0) threeFiles (by decide +kernel)
    (by decide +kernel)).mpr ⟨hnames, rfl, rfl⟩

/-- On a device that was not blank the second sector of the marker keeps its old bytes. -/
theorem marker_keeps_old_sector :
    ¬ ∀ (device : Block) (calls : List Append),
      (∀ call ∈ calls, call.contents.length < 2 ^ 31) → NamesFit calls →
      archiveSectors calls + 2 ≤ device.size → RoundTrips device calls := by
  intro hall
  have hnames : NamesFit [emptyFile] := by
    intro call hcall
    rw [List.mem_singleton.mp hcall]
    decide +kernel
  obtain ⟨s, hrun, -, -, hsecond⟩ := hall (filledDevice 1) [emptyFile] (by decide) hnames (by decide)
  rw [second_sector_of_run (by decide) (by decide) hrun] at hsecond
  exact absurd (congrFun hsecond 0) (by decide)

end Pintos
