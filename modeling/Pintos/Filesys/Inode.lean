import Pintos.Filesys.Cache
import Pintos.Filesys.InodeDisk
import Pintos.Lib.Bitmap

/-! Inodes (`filesys/inode.c`) over the buffer cache.  Calls run one after another, so the locks are
left out, and the local `is_allowed` of `bc_block_write` starts false.  `free_map_allocate` and
`free_map_release`, which call back into this file, are a parameter that `Pintos.Filesys.FreeMap`
supplies. -/

namespace Pintos

/-- `struct inode`, without the fields of directories. -/
structure Inode where
  openCnt : Nat
  removed : Bool
  denyWriteCnt : Nat
  data : Option InodeDisk
  accessCount : Nat
  logicalLength : Int

/-- The memory of the file system.  `inodes` is the list `open_inodes`, which has at most one
`struct inode` for a sector; `freeMapFile` is the sector of the inode of `free_map_file`. -/
structure FileSys where
  cache : Cache
  freeMap : Bitmap
  freeMapFile : Option Nat
  inodes : Nat → Option Inode

abbrev FsRoutine := Routine Fault FileSys

/-- `free_map_allocate (1, ..)` and `free_map_release`. -/
structure FreeMapCalls where
  allocate : FsRoutine (Option Nat)
  release (sector cnt : Nat) : FsRoutine Unit

/-! ### Sizes -/

/-- `DIV_ROUND_UP`. -/
def divRoundUp (x step : Nat) : Nat := (x + step - 1) / step

/-- `sectors_to_bytes`. -/
def sectorsToBytes (size : Nat) : Int := toOff (size * blockSectorSize)

/-- `bytes_to_sectors`. -/
def bytesToSectors (size : Int) : Nat := toWord ((size + blockSectorSize - 1).tdiv blockSectorSize)

/-- `round_up_to_sector_boundary`. -/
def roundUpToSectorBoundary (bytes : Int) : Int := sectorsToBytes (bytesToSectors bytes)

/-- A routine of the buffer cache in the file system. -/
def onCache {α : Type} (m : CacheRoutine α) : FsRoutine α := fun s =>
  match m s.cache with
  | .ok (a, cache) => .ok (a, { s with cache })
  | .error e => .error e

/-! ### Open inodes -/

/-- `inode_load_disk` on a `struct inode` of `sector`. -/
def Inode.loadDisk (sector : Nat) (inode : Inode) : CacheRoutine Inode := do
  if ¬ (inode.accessCount ≠ 0 ∨ inode.data.isNone) then
    throw (.assertion "inode->access_count != 0 || inode->data == NULL")
  if inode.accessCount = 0 then
    let bytes ← bcBlockRead sector 0 blockSectorSize
    let data : InodeDisk := SectorData.zeros.copyIn 0 bytes
    pure { inode with
      data := some data
      accessCount := 1
      logicalLength := if inode.logicalLength = -1 then data.length else inode.logicalLength }
  else pure { inode with accessCount := inode.accessCount + 1 }

/-- `inode_release_disk` on a `struct inode` of `sector`. -/
def Inode.releaseDisk (sector : Nat) (inode : Inode) : CacheRoutine Inode := do
  if inode.accessCount = 0 then throw (.assertion "inode->access_count > 0")
  if inode.accessCount = 1 then
    match inode.data with
    | none => throw (.undefined "inode->data is null")
    | some data => bcBlockWrite sector (data.copyOut 0 blockSectorSize) 0 false
    pure { inode with data := none, accessCount := 0 }
  else pure { inode with accessCount := inode.accessCount - 1 }

/-- The `struct inode` of a sector. -/
def getInode (sector : Nat) : FsRoutine Inode := do
  match (← get).inodes sector with
  | some inode => pure inode
  | none => throw (.undefined "inode is not open")

def setInode (sector : Nat) (inode : Inode) : FsRoutine Unit :=
  modify fun s => { s with inodes := Function.update s.inodes sector (some inode) }

/-- `inode_open`. -/
def inodeOpen (sector : Nat) : FsRoutine Unit := do
  match (← get).inodes sector with
  | some inode => setInode sector { inode with openCnt := inode.openCnt + 1 }
  | none =>
    setInode sector
      { openCnt := 1, removed := false, denyWriteCnt := 0, data := none, accessCount := 0,
        logicalLength := -1 }

/-- `inode_load_disk`. -/
def inodeLoadDisk (inode : Nat) : FsRoutine Unit := do
  setInode inode (← onCache ((← getInode inode).loadDisk inode))

/-- `inode_release_disk`. -/
def inodeReleaseDisk (inode : Nat) : FsRoutine Unit := do
  setInode inode (← onCache ((← getInode inode).releaseDisk inode))

/-- `inode->data`, to be read. -/
def getData (inode : Nat) : FsRoutine InodeDisk := do
  match (← getInode inode).data with
  | some data => pure data
  | none => throw (.undefined "inode->data is null")

/-- `inode->data`, to be written. -/
def setData (inode : Nat) (data : InodeDisk) : FsRoutine Unit := do
  setInode inode { (← getInode inode) with data := some data }

/-- `inode_length`. -/
def inodeLength (inode : Nat) : FsRoutine Int := do
  inodeLoadDisk inode
  let r := (← getData inode).length
  inodeReleaseDisk inode
  pure r

/-- `inode_close`, up to the call of `free_map_release` for the data: the start and the length that
it passes, and the `struct inode`, which is no longer in the list. -/
def inodeCloseExtent (calls : FreeMapCalls) (sector : Nat) (inode : Inode) :
    FsRoutine (Nat × Int × Inode) := do
  calls.release sector 1
  let inode ← onCache (inode.loadDisk sector)
  match inode.data with
  | none => throw (.undefined "inode->data is null")
  | some data => pure (data.start, data.length, inode)

/-- `inode_close`. -/
def inodeClose (calls : FreeMapCalls) (sector : Nat) : FsRoutine Unit := do
  let inode ← getInode sector
  if inode.openCnt = 1 then
    let inode := { inode with openCnt := 0 }
    modify fun s => { s with inodes := Function.update s.inodes sector none }
    if inode.removed then
      let (start, length, inode) ← inodeCloseExtent calls sector inode
      calls.release start (bytesToSectors length)
      let _ ← onCache (inode.releaseDisk sector)
  else setInode sector { inode with openCnt := inode.openCnt - 1 }

/-! ### The index -/

/-- `table[idx] = sector` in the index of `inode`. -/
def storeEntry (inode idx sector : Nat) : FsRoutine Unit := do
  setData inode ((← getData inode).setEntry idx sector)

/-- `allocate_new_block`, where `store` stores the sector in the table. -/
def allocateNewBlock (calls : FreeMapCalls) (store : Nat → FsRoutine Unit) :
    FsRoutine Nat := do
  match ← calls.allocate with
  | none => pure sectorError
  | some allocatedSector =>
    onCache (bcBlockWrite allocatedSector (SectorData.zeros.copyOut 0 blockSectorSize) 0 false)
    store allocatedSector
    pure allocatedSector

/-- `inode_create` of an index block. -/
def inodeCreateIndexBlock (sector : Nat) : FsRoutine Unit :=
  let diskInode := InodeDisk.clearEntries SectorData.zeros (List.range indexBlockEntries)
  let diskInode := (diskInode.setWord 82 1).setWord 83 inodeMagic
  onCache (bcBlockWrite sector (diskInode.copyOut 0 blockSectorSize) 0 false)

/-- `allocate_new_index_inode`, where `store` stores the sector in the table. -/
def allocateNewIndexInode (calls : FreeMapCalls) (store : Nat → FsRoutine Unit) :
    FsRoutine Nat := do
  match ← calls.allocate with
  | none => pure sectorError
  | some allocatedSector =>
    inodeCreateIndexBlock allocatedSector
    store allocatedSector
    pure allocatedSector

/-- `CHECK_ALLOCATE_AND_GET_SECTOR` on the table of `inode`, which has `entries` entries.  The
result is `none` where the macro returns `SECTOR_ERROR` from the function that uses it. -/
def checkAllocateAndGetSector (calls : FreeMapCalls) (inode entries idx : Nat)
    (isIndexBlock allocateNew : Bool) : FsRoutine (Option Nat) := do
  if entries ≤ idx then throw (.undefined "subscript is not below the size of the table")
  let ret := (← getData inode).entry idx
  if allocateNew ∧ ret = sectorError then
    let allocatedSector ←
      if isIndexBlock then allocateNewIndexInode calls (storeEntry inode idx)
      else allocateNewBlock calls (storeEntry inode idx)
    if allocatedSector = sectorError then pure none
    else pure (some ((← getData inode).entry idx))
  else if ret = sectorError then pure none
  else pure (some ret)

/-- `inode_open` and `inode_load_disk` of an index block. -/
def openIndexBlock (sector : Nat) : FsRoutine Unit := do
  inodeOpen sector
  inodeLoadDisk sector
  if (← getData sector).isIndexBlock = 0 then
    throw (.assertion "index_inode->data->is_index_block")

/-- `inode_pos_to_real_sector`.  The subtractions are those of `block_sector_t`. -/
def inodePosToRealSector (calls : FreeMapCalls) (inode : Nat) (pos : Int) (allocateNew : Bool) :
    FsRoutine Nat := do
  if ¬ 0 ≤ pos then throw (.assertion "pos >= 0")
  let sectorInodeRelative := (pos / blockSectorSize).toNat
  if sectorInodeRelative ≤ inodeAccessDirect then
    match ← checkAllocateAndGetSector calls inode indexMainEntries sectorInodeRelative false
        allocateNew with
    | none => pure sectorError
    | some sector => pure sector
  else if sectorInodeRelative ≤ inodeAccessIndirect then
    let mainIdx := divRoundUp (sectorInodeRelative - inodeAccessDirect) indexBlockEntries +
      inodeAccessDirect
    match ← checkAllocateAndGetSector calls inode indexMainEntries mainIdx true allocateNew with
    | none => pure sectorError
    | some indexInode =>
      openIndexBlock indexInode
      let offsetMult64 := directBlocks + indexBlockEntries * (mainIdx - directBlocks)
      let innerIdx := toWord (sectorInodeRelative - offsetMult64)
      match ← checkAllocateAndGetSector calls indexInode indexBlockEntries innerIdx false
          allocateNew with
      | none => pure sectorError
      | some sector =>
        inodeReleaseDisk indexInode
        pure sector
  else if sectorInodeRelative ≤ inodeAccessMax then
    let mainIdx := divRoundUp (sectorInodeRelative - inodeAccessIndirect)
      (indexBlockEntries * indexBlockEntries) + inodeAccessIndirect
    match ← checkAllocateAndGetSector calls inode indexMainEntries mainIdx true allocateNew with
    | none => pure sectorError
    | some indexInode =>
      openIndexBlock indexInode
      let start := directBlocks + indirectBlocks * indexBlockEntries
      let offsetMult4096 := start + indexBlockEntries * indexBlockEntries * (mainIdx - start)
      let innerIdx := toWord (sectorInodeRelative - offsetMult4096)
      match ← checkAllocateAndGetSector calls indexInode indexBlockEntries innerIdx true
          allocateNew with
      | none => pure sectorError
      | some dIndexInode =>
        openIndexBlock dIndexInode
        let offsetMult64 := start + indexBlockEntries * (mainIdx - start)
        let dInnerIdx := toWord (sectorInodeRelative - offsetMult64)
        match ← checkAllocateAndGetSector calls dIndexInode indexBlockEntries dInnerIdx false
            allocateNew with
        | none => pure sectorError
        | some sector =>
          inodeReleaseDisk dIndexInode
          inodeReleaseDisk indexInode
          pure sector
  else
    throw (.panic
      "OUT OF MEMORY: Trying to write to disk a file or folder greater than 8MB!")

/-- `byte_to_sector`. -/
def byteToSector (calls : FreeMapCalls) (inode : Nat) (pos : Int) : FsRoutine Nat := do
  if pos < (← getData inode).length then inodePosToRealSector calls inode pos false
  else pure sectorError

/-! ### Reading, writing and growing -/

/-- The loop of `inode_grow`: whether a sector could be had at each of the given places. -/
def inodeGrowLoop (calls : FreeMapCalls) (inode : Nat) : List Nat → FsRoutine Bool
  | [] => pure true
  | sectorInodeRelative :: rest => do
    let sector ← inodePosToRealSector calls inode (sectorsToBytes sectorInodeRelative) true
    if sector = sectorError then pure false else inodeGrowLoop calls inode rest

/-- `inode_grow`.  The sum of two `off_t` may overflow, and so may the sum in `DIV_ROUND_UP`. -/
def inodeGrow (calls : FreeMapCalls) (inode : Nat) (size offset : Int) : FsRoutine Bool := do
  if ¬ 0 < size then throw (.assertion "size > 0")
  if 2 ^ 31 ≤ offset + size then throw (.undefined "offset + size overflows")
  let data ← getData inode
  if offset + size > roundUpToSectorBoundary data.length then
    let lastSector : Int :=
      if data.length ≤ blockSectorSize then data.start
      else toWord (data.start + bytesToSectors data.length - 1)
    let growLenBytes := offset + size - roundUpToSectorBoundary data.length
    if 2 ^ 31 ≤ growLenBytes + (blockSectorSize - 1) then
      throw (.undefined "grow_len_bytes + BLOCK_SECTOR_SIZE - 1 overflows")
    let growLen := bytesToSectors growLenBytes
    if growLen = 0 then throw (.assertion "grow_len > 0")
    let grown ← inodeGrowLoop calls inode
      ((List.range growLen).map fun i => toWord (lastSector + (i + 1) - data.start))
    if grown then
      let data ← getData inode
      setData inode (data.setLength (data.length + growLenBytes))
    pure grown
  else
    setData inode (data.setLength (offset + size))
    pure true

/-- The loop of `inode_read_at`: the bytes read, for at most `size` passes. -/
def inodeReadLoop (calls : FreeMapCalls) (inode : Nat) :
    (size : Nat) → (left offset : Int) → FsRoutine (List UInt8)
  | 0, _, _ => pure []
  | fuel + 1, left, offset => do
    if left ≤ 0 then pure []
    else
      let sectorIdx ← byteToSector calls inode offset
      if sectorIdx = sectorError then pure []
      else
        let sectorOfs := offset % blockSectorSize
        let inodeLeft := (← getInode inode).logicalLength - offset
        let chunkSize := min left (min inodeLeft (blockSectorSize - sectorOfs))
        if chunkSize ≤ 0 then pure []
        else
          let bytes ← onCache (bcBlockRead sectorIdx sectorOfs.toNat chunkSize.toNat)
          let rest ← inodeReadLoop calls inode fuel (left - chunkSize) (offset + chunkSize)
          pure (bytes ++ rest)

/-- `inode_read_at`: the bytes put into the buffer. -/
def inodeReadAt (calls : FreeMapCalls) (inode : Nat) (size offset : Int) :
    FsRoutine (List UInt8) := do
  if (← getInode inode).logicalLength = 0 then pure []
  else
    inodeLoadDisk inode
    let bytes ← inodeReadLoop calls inode size.toNat size offset
    inodeReleaseDisk inode
    pure bytes

/-- The sector that `inode_write_at` writes next, and whether it had to grow the inode; `none` if
that failed. -/
def inodeWriteSector (calls : FreeMapCalls) (inode : Nat) (size offset : Int) :
    FsRoutine (Option (Nat × Bool)) := do
  let sectorIdx ← byteToSector calls inode offset
  if sectorIdx = sectorError then
    if ← inodeGrow calls inode size offset then
      pure (some (← byteToSector calls inode offset, true))
    else pure none
  else pure (some (sectorIdx, false))

/-- The part of `buffer` that `inode_write_at` writes to `sectorIdx`: its size, which is 0 where the
loop ends. -/
def inodeWriteChunk (inode : Nat) (buffer : List UInt8) (offset : Int) (sectorIdx : Nat)
    (isGrowing : Bool) : FsRoutine Nat := do
  let length := (← getData inode).length
  let sectorOfs := offset % blockSectorSize
  let chunkSize : Int :=
    min buffer.length (min (length - offset) (blockSectorSize - sectorOfs))
  if chunkSize > 0 then
    onCache (bcBlockWrite sectorIdx (buffer.take chunkSize.toNat) sectorOfs.toNat false)
  if isGrowing then
    setInode inode { (← getInode inode) with logicalLength := length }
  pure chunkSize.toNat

/-- The loop of `inode_write_at`: the number of bytes written, for at most `size` passes. -/
def inodeWriteLoop (calls : FreeMapCalls) (inode : Nat) :
    (size : Nat) → (buffer : List UInt8) → (offset : Int) → FsRoutine Nat
  | 0, _, _ => pure 0
  | fuel + 1, buffer, offset => do
    if buffer.length > 0 ∧ (← getInode inode).denyWriteCnt = 0 then
      match ← inodeWriteSector calls inode buffer.length offset with
      | none => pure 0
      | some (sectorIdx, isGrowing) =>
        let chunkSize ← inodeWriteChunk inode buffer offset sectorIdx isGrowing
        if chunkSize = 0 then pure 0
        else
          let written ← inodeWriteLoop calls inode fuel (buffer.drop chunkSize)
            (offset + chunkSize)
          pure (chunkSize + written)
    else pure 0

/-- `inode_write_at` of the bytes of `buffer`: the number of bytes written. -/
def inodeWriteAt (calls : FreeMapCalls) (inode : Nat) (buffer : List UInt8) (offset : Int) :
    FsRoutine Nat := do
  inodeLoadDisk inode
  let written ← inodeWriteLoop calls inode buffer.length buffer offset
  inodeReleaseDisk inode
  pure written

/-- The disk inode that `inode_create` writes for a file or a directory. -/
def newDiskInode (startBlock : Nat) (length : Int) (parent : Nat) : InodeDisk :=
  let diskInode := InodeDisk.setEntry SectorData.zeros 0 startBlock
  let diskInode := SectorData.setWord diskInode 0 startBlock
  let diskInode := InodeDisk.clearEntries diskInode (List.range' 1 (indexMainEntries - 1))
  let diskInode := InodeDisk.setLength diskInode (min length blockSectorSize)
  ((SectorData.setWord diskInode 1 parent).setWord 82 0).setWord 83 inodeMagic

end Pintos
