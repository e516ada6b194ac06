import Pintos.Filesys.Directory
import Pintos.Filesys.FreeMap
import Pintos.Filesys.Path
import Mathlib.Data.Finset.Card

/-! The objects through which threads hold files and directories: `struct inode`s in memory with
their counters, `struct dir`s, `struct file`s, descriptors and working directories, as
`filesys/inode.c`, `filesys/directory.c`, `filesys/filesys.c`, `filesys/fsaccess.c` and
`threads/thread.c` pass them around, with one call executed at a time.  Pointers are numbers that
are never handed out twice.  A directory on disk is the list of its entries.  What else the disk and
the stack decide is drawn from an environment.  The free map's own file lies within its direct
blocks. -/

namespace Pintos

/-- `DIR_PATH_MAX`. -/
def dirPathMax : Nat := 600

/-- `DIR_INITIAL_SIZE`. -/
def dirInitialSize : Nat := 10

namespace Handles

/-- `FREE_MAP_SECTOR` and `ROOT_DIR_SECTOR`. -/
def freeMapSector : Nat := 0

def rootDirSector : Nat := 1

/-- A `struct inode`, which is freed once nobody has it open. -/
structure Inode where
  sector : Nat
  openCnt : Nat
  openFdCnt : Int
  cwdCnt : Int
  removed : Bool
  openCnt_pos : 0 < openCnt

/-- A `struct inode` as `inode_open` initializes it. -/
def Inode.ofSector (sector : Nat) : Inode := ⟨sector, 1, 0, 0, false, Nat.one_pos⟩

/-- `inode->open_cnt++`. -/
def Inode.reopen (inode : Inode) : Inode :=
  { inode with openCnt := inode.openCnt + 1, openCnt_pos := Nat.succ_pos _ }

/-- `--inode->open_cnt`, with `none` for 0. -/
def Inode.dropOpenCnt (inode : Inode) : Option Inode :=
  if h : inode.openCnt - 1 = 0 then none
  else some { inode with openCnt := inode.openCnt - 1, openCnt_pos := Nat.pos_of_ne_zero h }

/-- A `struct dir`: its inode, and the thread that holds `dir_lock`. -/
structure Dir where
  inode : Nat
  dirLock : Option Nat

/-- An entry in use of a directory. -/
structure Entry where
  name : List UInt8
  inodeSector : Nat
  isDir : Bool

/-- What a descriptor refers to: `open_file`, or `open_dir` if `is_dir`. -/
inductive Opened where
  | openFile (file : Nat)
  | openDir (dir : Nat)
  deriving DecidableEq

/-- A `struct file_descriptor`. -/
structure FileDescriptor where
  fdNum : Nat
  opened : Opened
  owner : Nat
  deriving DecidableEq

/-- What the disk and the stack decide: the first contents of `dir_entry_name`, the index blocks
that an access past the direct blocks opens, the sector from `free_map_allocate`, whether there was a
sector for the first block and room to grow, and the free map and the disk inodes once sectors were
allocated. -/
structure Draw where
  dirEntryName : List UInt8
  indexBlocks : List Nat
  inodeSector : Option Nat
  startBlock : Bool
  grown : Bool
  freeMap : Bitmap
  extents : Nat → Nat × Int

/-- `extents` gives, for the inode of a sector, the `start` and the `length` that `inode_load_disk`
reads once `bc_remove` has dropped the sector from the cache. -/
structure State where
  inodes : Nat → Option Inode
  openInodes : List Nat
  dirs : Nat → Option Dir
  files : Nat → Option Nat
  nextPtr : Nat
  freeMapFile : Nat
  threads : Finset Nat
  nextTid : Nat
  currDir : Nat → Option Nat
  openFiles : List FileDescriptor
  fdCount : Nat
  entries : Nat → List (Option Entry)
  parent : Nat → Nat
  freeMap : Bitmap
  extents : Nat → Nat × Int
  clock : Nat

abbrev HandleRoutine := Routine Fault State

/-- A pointer to freed memory is followed. -/
def useAfterFree : Fault := .undefined "use after free"

def getInode (p : Nat) : HandleRoutine Inode := do
  let w ← get
  match w.inodes p with
  | some inode => pure inode
  | none => throw useAfterFree

def State.setInode (w : State) (p : Nat) (inode : Inode) : State :=
  { w with inodes := Function.update w.inodes p (some inode) }

def getDir (d : Nat) : HandleRoutine Dir := do
  let w ← get
  match w.dirs d with
  | some dir => pure dir
  | none => throw useAfterFree

def State.setDir (w : State) (d : Nat) (dir : Dir) : State :=
  { w with dirs := Function.update w.dirs d (some dir) }

/-! ### Inodes -/

/-- The open inode of a sector. -/
def State.findInode (w : State) (sector : Nat) : Option Nat :=
  w.openInodes.find? fun p => (w.inodes p).any fun inode => inode.sector == sector

/-- A new `struct inode`, opened once. -/
def State.newInode (w : State) (sector : Nat) : State :=
  { w.setInode w.nextPtr (.ofSector sector) with
    openInodes := w.nextPtr :: w.openInodes
    nextPtr := w.nextPtr + 1 }

/-- `inode_reopen`. -/
def inodeReopen (p : Nat) : HandleRoutine Unit := do
  let inode ← getInode p
  modify fun w => w.setInode p inode.reopen

/-- `inode_open`. -/
def inodeOpen (sector : Nat) : HandleRoutine Nat := do
  let w ← get
  match w.findInode sector with
  | some p =>
    inodeReopen p
    pure p
  | none =>
    set (w.newInode sector)
    pure w.nextPtr

/-- The `struct inode` is freed. -/
def State.freeInode (w : State) (p : Nat) : State :=
  { w with
    inodes := Function.update w.inodes p none
    openInodes := w.openInodes.filter (· ≠ p) }

/-- `free_map_release`. -/
def freeMapRelease (sector cnt : Nat) : HandleRoutine Unit := do
  let w ← get
  if ¬ sector + cnt ≤ w.freeMap.bitCnt then throw (.assertion "start + cnt <= b->bit_cnt")
  else if ¬ w.freeMap.all sector cnt then throw (.assertion "bitmap_all (free_map, sector, cnt)")
  else set { w with freeMap := w.freeMap.setMultiple sector cnt false }

/-- The blocks of a removed inode are deallocated: its own sector, and then the sectors that
`inode_load_disk` finds on the disk. -/
def releaseBlocks (sector : Nat) : HandleRoutine Unit := do
  freeMapRelease sector 1
  let w ← get
  let (start, length) := w.extents sector
  freeMapRelease start (bytesToSectors length)

/-- `inode_close`, with `none` for a null pointer. -/
def inodeClose : Option Nat → HandleRoutine Unit
  | none => pure ()
  | some p => do
    let inode ← getInode p
    match inode.dropOpenCnt with
    | none => do
      if inode.removed then releaseBlocks inode.sector
      modify fun w => w.freeInode p
    | some inode => modify fun w => w.setInode p inode

/-- `inode_remove`. -/
def inodeRemove (p : Nat) : HandleRoutine Unit := do
  let inode ← getInode p
  modify fun w => w.setInode p { inode with removed := true }

/-- `inode_get_parent`. -/
def inodeGetParent (p : Nat) : HandleRoutine Nat := do
  let inode ← getInode p
  let w ← get
  pure (w.parent inode.sector)

/-! ### Directories and files -/

/-- `dir_open` of an inode. -/
def dirOpenInode (p : Nat) : HandleRoutine Nat := do
  let w ← get
  set { w.setDir w.nextPtr ⟨p, none⟩ with nextPtr := w.nextPtr + 1 }
  pure w.nextPtr

/-- `dir_open`, with `none` for null pointers. -/
def dirOpen : Option Nat → HandleRoutine (Option Nat)
  | none => pure none
  | some p => some <$> dirOpenInode p

/-- `dir_open_root`. -/
def dirOpenRoot : HandleRoutine Nat := do
  let p ← inodeOpen rootDirSector
  dirOpenInode p

/-- `dir_close`. -/
def dirClose : Option Nat → HandleRoutine Unit
  | none => pure ()
  | some d => do
    let dir ← getDir d
    inodeClose (some dir.inode)
    modify fun w => { w with dirs := Function.update w.dirs d none }

/-- `file_open`. -/
def fileOpen : Option Nat → HandleRoutine (Option Nat)
  | none => pure none
  | some p => do
    let w ← get
    set { w with files := Function.update w.files w.nextPtr (some p), nextPtr := w.nextPtr + 1 }
    pure (some w.nextPtr)

/-- `file_close`. -/
def fileClose (f : Nat) : HandleRoutine Unit := do
  let w ← get
  match w.files f with
  | some p => do
    inodeClose (some p)
    modify fun w => { w with files := Function.update w.files f none }
  | none => throw useAfterFree

/-- `get_curr_working_dir`. -/
def getCurrWorkingDir (current : Nat) : HandleRoutine Nat := do
  let w ← get
  match w.currDir current with
  | none => dirOpenRoot
  | some d => pure d

section

variable (env : Nat → Draw) (fuel : Nat)

def draw : HandleRoutine Draw := do
  let w ← get
  set { w with clock := w.clock + 1 }
  pure (env w.clock)

/-- What the allocation of sectors leaves of the free map and of the disk. -/
def drawAllocation : HandleRoutine Draw := do
  let drawn ← draw env
  modify fun w => { w with freeMap := drawn.freeMap, extents := drawn.extents }
  pure drawn

/-- An access to an inode's bytes before `upTo`: no index block is closed that it opens. -/
def accessUpTo (upTo : Nat) : HandleRoutine Unit :=
  if upTo ≤ directBlocks * blockSectorSize then pure ()
  else do
    let drawn ← draw env
    drawn.indexBlocks.forM fun b => discard (inodeOpen b)

/-! ### Entries of a directory -/

/-- The entries of an open directory. -/
def dirEntries (d : Nat) : HandleRoutine (Nat × List (Option Entry)) := do
  let dir ← getDir d
  let inode ← getInode dir.inode
  let w ← get
  pure (inode.sector, w.entries inode.sector)

/-- The first entry in use with the name, and its slot. -/
def findEntry (name : List UInt8) : List (Option Entry) → Option (Nat × Entry)
  | [] => none
  | none :: rest => (findEntry name rest).map fun r => (r.1 + 1, r.2)
  | some e :: rest =>
    if e.name = name then some (0, e) else (findEntry name rest).map fun r => (r.1 + 1, r.2)

/-- `lookup`: the slot and the entry. -/
def lookup (d : Nat) (name : List UInt8) : HandleRoutine (Option (Nat × Entry)) := do
  let (_, entries) ← dirEntries d
  match findEntry name entries with
  | some (k, e) =>
    accessUpTo env (dirEntrySize * (k + 1))
    pure (some (k, e))
  | none =>
    accessUpTo env (dirEntrySize * entries.length)
    pure none

/-- `dir_lookup_entry`: the inode, if there is one. -/
def dirLookupEntry (dir : Option Nat) (name : List UInt8) (isDir : Bool) :
    HandleRoutine (Option Nat) :=
  match dir with
  | none => pure none
  | some d => do
    match ← lookup env d name with
    | some (_, e) => if isDir && !e.isDir then pure none else some <$> inodeOpen e.inodeSector
    | none => pure none

/-- `dir_is_empty`. -/
def dirIsEmpty : Option Nat → HandleRoutine Bool
  | none => throw (.assertion "dir != NULL")
  | some d => do
    let (_, entries) ← dirEntries d
    let k := entries.findIdx fun e => e.isSome
    accessUpTo env (dirEntrySize * min (k + 1) entries.length)
    pure (k = entries.length)

/-- `lock_acquire (&dir->dir_lock)`; a thread that waits for a lock that nobody will release does
not go on. -/
def lockAcquire (current d : Nat) : HandleRoutine Unit := do
  let dir ← getDir d
  match dir.dirLock with
  | none => modify fun w => w.setDir d { dir with dirLock := some current }
  | some holder =>
    if holder = current then throw (.assertion "!lock_held_by_current_thread (lock)")
    else throw .spin

/-- `lock_release (&dir->dir_lock)`. -/
def lockRelease (d : Nat) : HandleRoutine Unit := do
  let dir ← getDir d
  modify fun w => w.setDir d { dir with dirLock := none }

def State.setEntries (w : State) (sector : Nat) (entries : List (Option Entry)) : State :=
  { w with entries := Function.update w.entries sector entries }

/-- `dir_add`. -/
def dirAdd (current d : Nat) (name : List UInt8) (inodeSector : Nat) (isDir : Bool) :
    HandleRoutine Bool := do
  lockAcquire current d
  if name = [] ∨ nameMax < name.length then pure false
  else
    match ← lookup env d name with
    | some _ =>
      lockRelease d
      pure false
    | none => do
      let (sector, entries) ← dirEntries d
      let k := entries.findIdx fun e => e.isNone
      accessUpTo env (dirEntrySize * min (k + 1) entries.length)
      accessUpTo env (dirEntrySize * (k + 1))
      let drawn ← drawAllocation env
      let success := k < entries.length || drawn.grown
      if success then
        modify fun w => w.setEntries sector
          (entries.take k ++ some ⟨name, inodeSector, isDir⟩ :: entries.drop (k + 1))
      lockRelease d
      pure success

/-- `dir_remove`. -/
def dirRemove (current d : Nat) (name : List UInt8) : HandleRoutine Bool := do
  lockAcquire current d
  match ← lookup env d name with
  | none =>
    lockRelease d
    pure false
  | some (k, e) => do
    let p ← inodeOpen e.inodeSector
    let dirToRemove ← if e.isDir then dirOpen (some p) else pure none
    let success ← if e.isDir then dirIsEmpty env dirToRemove else pure true
    if success then
      let (sector, entries) ← dirEntries d
      accessUpTo env (dirEntrySize * (k + 1))
      modify fun w => w.setEntries sector (entries.set k none)
      inodeRemove p
    dirClose dirToRemove
    inodeClose (some p)
    lockRelease d
    pure success

/-! ### Paths -/

/-- The loop of `dir_path_lookup` from component `i` on; `last_entry_idx` is `cnt - 1`. -/
def pathLookupFrom (pathStr target : List UInt8) (cnt : Nat) :
    Nat → Nat → List UInt8 → Nat → Option Nat → Option Nat → HandleRoutine (Option Nat)
  | 0, _, _, _, _, _ => throw .spin
  | fuel + 1, i, dirEntryName, workingDir, prevWorkingDir, inode =>
    if dirEntryName ≠ target ∨ i < cnt then do
      let name := (getPathEntry pathStr i).getD dirEntryName
      if nameMax < name.length then throw (.undefined "dir_entry_name") else
      if name = dot then do
        let dir ← getDir workingDir
        pathLookupFrom pathStr target cnt fuel (i + 1) name workingDir prevWorkingDir dir.inode
      else if name = dotdot then do
        let dir ← getDir workingDir
        let workingDirSector ← inodeGetParent dir.inode
        let p ← inodeOpen workingDirSector
        let newDir ← dirOpenInode p
        dirClose prevWorkingDir
        pathLookupFrom pathStr target cnt fuel (i + 1) name newDir newDir p
      else
        match ← dirLookupEntry env workingDir name true with
        | none => pure none
        | some p => do
          let newDir ← dirOpenInode p
          dirClose prevWorkingDir
          pathLookupFrom pathStr target cnt fuel (i + 1) name newDir newDir p
    else pure inode

/-- `dir_path_lookup`. -/
def dirPathLookup (current : Nat) (pathStr : List UInt8) : HandleRoutine (Option Nat) := do
  let drawn ← draw env
  if pathStr.head? = some slash ∧ pathStr.length = 1 then some <$> inodeOpen rootDirSector
  else do
    let workingDir ← if pathStr.head? = some slash then dirOpenRoot else getCurrWorkingDir current
    pathLookupFrom env pathStr (getPathLastEntry pathStr) (getPathEntryCnt pathStr) fuel 0
      drawn.dirEntryName workingDir none none

/-- `get_parent_directory`. -/
def getParentDirectory (current : Nat) (pathStr : List UInt8) : HandleRoutine (Option Nat) :=
  if slash ∉ pathStr then some <$> getCurrWorkingDir current
  else if getPathEntry pathStr 1 = none then some <$> dirOpenRoot
  else if dirPathMax < pathStr.length then throw (.undefined "buffer")
  else do
    let inode ← dirPathLookup env fuel current (cutLastEntry pathStr)
    dirOpen inode

/-- `path_is_dir`. -/
def pathIsDir (current : Nat) (pathStr : List UInt8) : HandleRoutine Bool := do
  let parentDir ← getParentDirectory env fuel current pathStr
  let target := getPathLastEntry pathStr
  match ← dirLookupEntry env parentDir target true with
  | some _ => pure true
  | none => pure (target = [slash] ∨ target = dot ∨ target = dotdot)

/-! ### `filesys.c` -/

/-- The entries in `length` bytes of zeros. -/
def zeroEntries (length : Nat) : List (Option Entry) := List.replicate (length / dirEntrySize) none

/-- `inode_create` of an inode for data. -/
def inodeCreate (sector length parent : Nat) : HandleRoutine Bool := do
  let drawn ← drawAllocation env
  if drawn.startBlock then do
    modify fun w => { w.setEntries sector (zeroEntries (min length blockSectorSize)) with
      parent := Function.update w.parent sector parent }
    if blockSectorSize < length then do
      let p ← inodeOpen sector
      accessUpTo env length
      if drawn.grown then modify fun w => w.setEntries sector (zeroEntries length)
      inodeClose (some p)
      pure drawn.grown
    else pure true
  else pure false

/-- `filesys_create`. -/
def filesysCreate (current : Nat) (path : List UInt8) (initialSize : Int) :
    HandleRoutine Bool := do
  match ← getParentDirectory env fuel current path with
  | none => pure false
  | some parentDir => do
    let (parentDirSector, _) ← dirEntries parentDir
    let drawn ← drawAllocation env
    match drawn.inodeSector with
    | none => pure false
    | some inodeSector => do
      let length := if 0 ≤ initialSize then initialSize.toNat else dirInitialSize * dirEntrySize
      if ← inodeCreate env inodeSector length parentDirSector then
        dirAdd env current parentDir (getPathLastEntry path) inodeSector (initialSize < 0)
      else pure false

/-- `filesys_open`. -/
def filesysOpen (current : Nat) (filepath : List UInt8) : HandleRoutine (Option Nat) := do
  let parentDir ← getParentDirectory env fuel current filepath
  let inode ← dirLookupEntry env parentDir (getPathLastEntry filepath) false
  fileOpen inode

/-- `filesys_remove`. -/
def filesysRemove (current : Nat) (path : List UInt8) : HandleRoutine Bool :=
  if path = [slash] then pure false
  else do
    match ← getParentDirectory env fuel current path with
    | none => pure false
    | some parentDir => dirRemove env current parentDir (getPathLastEntry path)

/-! ### `fsaccess.c` -/

/-- An `unsigned` that is passed on as an `off_t`. -/
def offT (length : UInt32) : Int :=
  if length.toNat < 2 ^ 31 then length.toNat else length.toNat - 2 ^ 32

/-- `create_file`. -/
def createFile (current : Nat) (filepath : List UInt8) (length : UInt32) : HandleRoutine Bool :=
  if filepath = [] then pure false else filesysCreate env fuel current filepath (offT length)

/-- `create_directory`. -/
def createDirectory (current : Nat) (dirpath : List UInt8) : HandleRoutine Bool :=
  if dirpath = [] then pure false else filesysCreate env fuel current dirpath (-1)

/-- `change_directory`. -/
def changeDirectory (current : Nat) (dirpath : List UInt8) : HandleRoutine Bool := do
  let inode ← dirPathLookup env fuel current dirpath
  match ← dirOpen inode with
  | none => pure false
  | some newDir => do
    let oldDir ← getCurrWorkingDir current
    let old ← getDir oldDir
    let oldInode ← getInode old.inode
    modify fun w => w.setInode old.inode { oldInode with cwdCnt := oldInode.cwdCnt - 1 }
    dirClose (some oldDir)
    let new ← getDir newDir
    let newInode ← getInode new.inode
    modify fun w => w.setInode new.inode { newInode with cwdCnt := newInode.cwdCnt + 1 }
    modify fun w => { w with currDir := Function.update w.currDir current (some newDir) }
    pure true

/-- `remove_file_or_dir`. -/
def removeFileOrDir (current : Nat) (path : List UInt8) : HandleRoutine Bool := do
  if ← pathIsDir env fuel current path then
    let inode ← dirPathLookup env fuel current path
    let dir ← dirOpen inode
    let isEmpty ← dirIsEmpty env dir
    match dir with
    | none => pure false
    | some d => do
      let dir ← getDir d
      let inode ← getInode dir.inode
      if isEmpty && !decide (0 < inode.openFdCnt) && !decide (0 < inode.cwdCnt) then
        filesysRemove env fuel current path
      else pure false
  else filesysRemove env fuel current path

/-- The new descriptor of `open_file_or_dir`. -/
def State.addDescriptor (w : State) (current : Nat) (opened : Opened) : State :=
  { w with
    openFiles := ⟨w.fdCount, opened, current⟩ :: w.openFiles
    fdCount := w.fdCount + 1 }

/-- `open_file_or_dir`. -/
def openFileOrDir (current : Nat) (path : List UInt8) : HandleRoutine Int := do
  if ← pathIsDir env fuel current path then
    let inode ← dirPathLookup env fuel current path
    match ← dirOpen inode with
    | none => pure (-1)
    | some d => do
      let dir ← getDir d
      let inode ← getInode dir.inode
      modify fun w => w.setInode dir.inode { inode with openFdCnt := inode.openFdCnt + 1 }
      let w ← get
      set (w.addDescriptor current (.openDir d))
      pure w.fdCount
  else
    match ← filesysOpen env fuel current path with
    | none => pure (-1)
    | some f => do
      let w ← get
      set (w.addDescriptor current (.openFile f))
      pure w.fdCount

/-- A descriptor is closed and freed. -/
def closeDescriptor (fd : FileDescriptor) : HandleRoutine Unit := do
  match fd.opened with
  | .openDir d => do
    let dir ← getDir d
    let inode ← getInode dir.inode
    modify fun w => w.setInode dir.inode { inode with openFdCnt := inode.openFdCnt - 1 }
  | .openFile f => fileClose f
  modify fun w => { w with openFiles := w.openFiles.erase fd }

/-- `close_open_file_or_dir`. -/
def closeOpenFileOrDir (current : Nat) (fdNum : Int) : HandleRoutine Unit := do
  let w ← get
  match w.openFiles.reverse.find? fun fd => fd.fdNum = fdNum ∧ fd.owner = current with
  | some fd => closeDescriptor fd
  | none => pure ()

/-- `close_all_files_and_dir`. -/
def closeAllFilesAndDir (current : Nat) : HandleRoutine Unit := do
  let w ← get
  (w.openFiles.reverse.filter fun fd => fd.owner = current).forM closeDescriptor

/-! ### Threads -/

/-- `thread_create`: the new thread has the working directory of its creator. -/
def threadCreate (current : Nat) : HandleRoutine Nat := do
  let w ← get
  set { w with
    threads := insert w.nextTid w.threads
    nextTid := w.nextTid + 1
    currDir := Function.update w.currDir w.nextTid (w.currDir current) }
  pure w.nextTid

/-- `thread_exit`. -/
def threadExit (current : Nat) : HandleRoutine Unit := do
  closeAllFilesAndDir current
  modify fun w => { w with threads := w.threads.erase current }

/-- What a thread can ask for. -/
inductive Call where
  | openFileOrDir (path : List UInt8)
  | closeOpenFileOrDir (fdNum : Int)
  | createFile (filepath : List UInt8) (length : UInt32)
  | createDirectory (dirpath : List UInt8)
  | removeFileOrDir (path : List UInt8)
  | changeDirectory (dirpath : List UInt8)
  | threadCreate
  | threadExit

/-- A call by a thread, which does nothing if there is no such thread. -/
def exec (request : Nat × Call) : HandleRoutine Unit := do
  let w ← get
  let current := request.1
  if current ∈ w.threads then
    match request.2 with
    | .openFileOrDir path => discard (openFileOrDir env fuel current path)
    | .closeOpenFileOrDir fdNum => closeOpenFileOrDir current fdNum
    | .createFile filepath length => discard (createFile env fuel current filepath length)
    | .createDirectory dirpath => discard (createDirectory env fuel current dirpath)
    | .removeFileOrDir path => discard (removeFileOrDir env fuel current path)
    | .changeDirectory dirpath => discard (changeDirectory env fuel current dirpath)
    | .threadCreate => discard (threadCreate current)
    | .threadExit => threadExit current
  else pure ()

end

/-- After `filesys_init`: only the free map file is open, and `threadCnt` threads have the root as
their working directory. -/
def init (threadCnt : Nat) (entries : Nat → List (Option Entry)) (parent : Nat → Nat)
    (freeMap : Bitmap) (extents : Nat → Nat × Int) : State where
  inodes := fun p => if p = 0 then some (.ofSector freeMapSector) else none
  openInodes := [0]
  dirs := fun _ => none
  files := fun f => if f = 1 then some 0 else none
  nextPtr := 2
  freeMapFile := 1
  threads := Finset.range threadCnt
  nextTid := threadCnt
  currDir := fun _ => none
  openFiles := []
  fdCount := 2
  entries := entries
  parent := parent
  freeMap := freeMap
  extents := extents
  clock := 0

end Handles

end Pintos
