import Pintos.Filesys.Inode

/-! The free map (`filesys/free-map.c`) and the start of the file system (`filesys/filesys.c`).
The free map is itself a file, so `free_map_allocate` writes to an inode, and a write to an inode may
call `free_map_allocate`: `freeMapCalls n` allows for `n` such calls within each other. -/

namespace Pintos

/-- `FREE_MAP_SECTOR`. -/
def freeMapSector : Nat := 0

/-- `ROOT_DIR_SECTOR`. -/
def rootDirSector : Nat := 1

namespace Bitmap

/-- `bitmap_file_size`: whole 32-bit elements. -/
def fileSize (b : Bitmap) : Nat := 4 * divRoundUp b.bitCnt 32

/-- Byte `i` of the elements. -/
def byteAt (b : Bitmap) (i : Nat) : UInt8 :=
  UInt8.ofNat (((List.range 8).map fun j => if b.bits (8 * i + j) then 2 ^ j else 0).sum)

/-- The elements as bytes. -/
def toBytes (b : Bitmap) : List UInt8 := (List.range b.fileSize).map b.byteAt

end Bitmap

/-- `bitmap_write` to the file with the given inode. -/
def bitmapWrite (calls : FreeMapCalls) (file : Nat) : FsRoutine Bool := do
  let bytes := (← get).freeMap.toBytes
  let written ← inodeWriteAt calls file bytes 0
  pure (written = bytes.length)

/-- `free_map_allocate (1, ..)`. -/
def freeMapAllocate (calls : FreeMapCalls) : FsRoutine (Option Nat) := do
  match (← get).freeMap.scanAndFlip 0 1 false with
  | none => pure none
  | some (sector, freeMap) =>
    modify fun s => { s with freeMap }
    match (← get).freeMapFile with
    | none => pure (some sector)
    | some file =>
      if ← bitmapWrite calls file then pure (some sector)
      else
        modify fun s => { s with freeMap := s.freeMap.setMultiple sector 1 false }
        pure none

/-- `free_map_release`. -/
def freeMapRelease (calls : FreeMapCalls) (sector cnt : Nat) : FsRoutine Unit := do
  let freeMap := (← get).freeMap
  if ¬ sector + cnt ≤ freeMap.bitCnt then throw (.assertion "start + cnt <= b->bit_cnt")
  if ¬ freeMap.all sector cnt then throw (.assertion "bitmap_all (free_map, sector, cnt)")
  modify fun s => { s with freeMap := freeMap.setMultiple sector cnt false }
  match (← get).freeMapFile with
  | none => throw (.undefined "free_map_file is null")
  | some file =>
    let _ ← bitmapWrite calls file
    (List.range cnt).forM fun i => onCache (bcRemove (sector + i))

/-- The functions of the free map, where up to `depth` calls of them are active at a time. -/
def freeMapCalls : (depth : Nat) → FreeMapCalls
  | 0 => { allocate := throw .spin, release := fun _ _ => throw .spin }
  | depth + 1 =>
    { allocate := freeMapAllocate (freeMapCalls depth)
      release := freeMapRelease (freeMapCalls depth) }

/-- The state after `bc_init`, `inode_init` and `free_map_init`. -/
def FileSys.init (memory : Fin 64 → SectorData) (fsDevice : Block) : FileSys where
  cache := bcInit memory fsDevice
  freeMap := ((Bitmap.ofAll fsDevice.size false).setMultiple freeMapSector 1 true).setMultiple
    rootDirSector 1 true
  freeMapFile := none
  inodes _ := none

end Pintos
