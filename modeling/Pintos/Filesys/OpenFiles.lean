import Pintos.Filesys.FreeMap
import Pintos.Library.DoublyLinked

/-! Open files (`filesys/file.c`), the descriptors through which processes use them
(`filesys/fsaccess.c`), and the executables that processes hold open (`load` and `process_exit`).
Calls run one after another.  Pointers are numbers that are never handed out twice.  What a path
names is an input of the calls that take one; the walk through directories that finds it is a
sequence of requests of its own. -/

namespace Pintos

namespace OpenFiles

/-- `struct file`; its inode is given by the sector. -/
structure File where
  inode : Nat
  pos : Int
  denyWrite : Bool

/-- `struct dir`, without its lock. -/
structure Dir where
  inode : Nat
  pos : Int

/-- `struct file_descriptor`, without `elem`. -/
structure FileDescriptor where
  fdNum : Int
  openFile : Option Nat
  openDir : Option Nat
  owner : Nat
  isDir : Bool
  deriving DecidableEq

/-- The elements of the list `open_files`: its two ends and those of descriptors. -/
inductive Elem where
  | head
  | tail
  | fd (p : Nat)
  deriving DecidableEq

/-- The state behind the calls.  `openFdCnt` counts for the inode of a sector, `mapped` has the files
of the mappings of a process, and `memory` what each process has at its addresses. -/
structure State where
  fs : FileSys
  openFdCnt : Nat → Int
  files : Nat → Option File
  dirs : Nat → Option Dir
  fds : Nat → Option FileDescriptor
  openFiles : Links Elem
  fdCount : Nat
  nextPtr : Nat
  runFile : Nat → Option Nat
  mapped : Nat → List Nat
  exited : Nat → Bool
  memory : Nat → Nat → UInt8
  inputPos : Nat

abbrev OpenRoutine := Routine Fault State

/-- A routine of the file system. -/
def onFs {α : Type} (m : FsRoutine α) : OpenRoutine α := fun s =>
  match m s.fs with
  | .ok (a, fs) => .ok (a, { s with fs })
  | .error e => .error e

/-- A pointer to freed memory is followed. -/
def useAfterFree : Fault := .undefined "use after free"

def getFile (f : Nat) : OpenRoutine File := do
  match (← get).files f with
  | some file => pure file
  | none => throw useAfterFree

def setFile (f : Nat) (file : Option File) : OpenRoutine Unit :=
  modify fun s => { s with files := Function.update s.files f file }

def getDir (d : Nat) : OpenRoutine Dir := do
  match (← get).dirs d with
  | some dir => pure dir
  | none => throw useAfterFree

def setDir (d : Nat) (dir : Dir) : OpenRoutine Unit :=
  modify fun s => { s with dirs := Function.update s.dirs d (some dir) }

/-- `list_entry (e, struct file_descriptor, elem)`. -/
def getFd (p : Nat) : OpenRoutine FileDescriptor := do
  match (← get).fds p with
  | some fd => pure fd
  | none => throw useAfterFree

/-- `malloc` or `calloc`. -/
def newPtr : OpenRoutine Nat := do
  let s ← get
  set { s with nextPtr := s.nextPtr + 1 }
  pure s.nextPtr

/-! ### Files -/

/-- `inode_reopen`. -/
def inodeReopen (inode : Nat) : FsRoutine Unit := do
  let i ← getInode inode
  setInode inode { i with openCnt := i.openCnt + 1 }

/-- `inode_deny_write`. -/
def inodeDenyWrite (inode : Nat) : FsRoutine Unit := do
  let i ← getInode inode
  setInode inode { i with denyWriteCnt := i.denyWriteCnt + 1 }
  if ¬ i.denyWriteCnt + 1 ≤ i.openCnt then
    throw (.assertion "inode->deny_write_cnt <= inode->open_cnt")

/-- `inode_allow_write`. -/
def inodeAllowWrite (inode : Nat) : FsRoutine Unit := do
  let i ← getInode inode
  if ¬ 0 < i.denyWriteCnt then throw (.assertion "inode->deny_write_cnt > 0")
  if ¬ i.denyWriteCnt ≤ i.openCnt then
    throw (.assertion "inode->deny_write_cnt <= inode->open_cnt")
  setInode inode { i with denyWriteCnt := i.denyWriteCnt - 1 }

/-- `file_open` of an inode. -/
def fileOpen (inode : Nat) : OpenRoutine Nat := do
  let f ← newPtr
  setFile f (some ⟨inode, 0, false⟩)
  pure f

/-- `file_reopen`. -/
def fileReopen (f : Nat) : OpenRoutine Nat := do
  let file ← getFile f
  onFs (inodeReopen file.inode)
  fileOpen file.inode

/-- `file_deny_write`. -/
def fileDenyWrite (f : Nat) : OpenRoutine Unit := do
  let file ← getFile f
  if file.denyWrite then pure ()
  else
    setFile f (some { file with denyWrite := true })
    onFs (inodeDenyWrite file.inode)

/-- `file_allow_write`. -/
def fileAllowWrite (f : Nat) : OpenRoutine Unit := do
  let file ← getFile f
  if file.denyWrite then
    setFile f (some { file with denyWrite := false })
    onFs (inodeAllowWrite file.inode)
  else pure ()

/-- `file_length`, with `none` for a null pointer. -/
def fileLength : Option Nat → OpenRoutine Int
  | none => throw (.assertion "file != NULL")
  | some f => do
    let file ← getFile f
    onFs (inodeLength file.inode)

/-- `file_seek`. -/
def fileSeek (newPos : Int) : Option Nat → OpenRoutine Unit
  | none => throw (.assertion "file != NULL")
  | some f => do
    if ¬ 0 ≤ newPos then throw (.assertion "new_pos >= 0")
    let file ← getFile f
    setFile f (some { file with pos := newPos })

/-- `file_tell`. -/
def fileTell : Option Nat → OpenRoutine Int
  | none => throw (.assertion "file != NULL")
  | some f => do
    let file ← getFile f
    pure file.pos

/-- A null pointer is followed. -/
def nullPointer : Fault := .undefined "null pointer"

section

variable (calls : FreeMapCalls)

/-- `file_close`, with `none` for a null pointer. -/
def fileClose : Option Nat → OpenRoutine Unit
  | none => pure ()
  | some f => do
    fileAllowWrite f
    let file ← getFile f
    onFs (inodeClose calls file.inode)
    setFile f none

/-- `file_read`: the bytes put into the buffer. -/
def fileRead (size : Int) : Option Nat → OpenRoutine (List UInt8)
  | none => throw nullPointer
  | some f => do
    let file ← getFile f
    let bytes ← onFs (inodeReadAt calls file.inode size file.pos)
    setFile f (some { file with pos := file.pos + bytes.length })
    pure bytes

/-- `file_write` of the bytes of `buffer`. -/
def fileWrite (buffer : List UInt8) : Option Nat → OpenRoutine Nat
  | none => throw nullPointer
  | some f => do
    let file ← getFile f
    let bytesWritten ← onFs (inodeWriteAt calls file.inode buffer file.pos)
    setFile f (some { file with pos := file.pos + bytesWritten })
    pure bytesWritten

end

/-! ### The list of descriptors -/

/-- `list_prev`. -/
def listPrev (e : Elem) : OpenRoutine Elem := do
  match (← get).openFiles.prev e with
  | some e => pure e
  | none => throw (.assertion "is_interior (elem) || is_tail (elem)")

/-- `list_next`. -/
def listNext (e : Elem) : OpenRoutine Elem := do
  match (← get).openFiles.next e with
  | some e => pure e
  | none => throw (.assertion "is_head (elem) || is_interior (elem)")

/-- `list_push_front (&open_files, ..)`. -/
def listPushFront (e : Elem) : OpenRoutine Unit := do
  let before ← listNext .head
  if ((← get).openFiles.prev before).isNone then
    throw (.assertion "is_interior (before) || is_tail (before)")
  modify fun s => { s with openFiles := s.openFiles.insertBefore before e }

/-- `list_remove`. -/
def listRemove (e : Elem) : OpenRoutine Unit := do
  let s ← get
  if (s.openFiles.prev e).isNone ∨ (s.openFiles.next e).isNone then
    throw (.assertion "is_interior (elem)")
  set { s with openFiles := s.openFiles.unlink e }

/-- `free (fd)`. -/
def freeFd (p : Nat) : OpenRoutine Unit :=
  modify fun s => { s with fds := Function.update s.fds p none }

/-- The loop of `get_file_descriptor` after `e`, for at most `fuel` passes. -/
def getFileDescriptorFrom (current : Nat) (fdNum : Int) : (fuel : Nat) → Elem →
    OpenRoutine (Option Nat)
  | 0, _ => throw .spin
  | fuel + 1, e => do
    match ← listPrev e with
    | .head => pure none
    | .tail => throw (.undefined "list_entry of the tail")
    | .fd p =>
      let fd ← getFd p
      if fd.fdNum = fdNum ∧ fd.owner = current then pure (some p)
      else getFileDescriptorFrom current fdNum fuel (.fd p)

/-- `get_file_descriptor`.  Each pass meets another descriptor, and each of these has a pointer below
`nextPtr`. -/
def getFileDescriptor (current : Nat) (fdNum : Int) : OpenRoutine (Option Nat) := do
  getFileDescriptorFrom current fdNum ((← get).nextPtr + 1) .tail

/-- What a path names: nothing, or a file or a directory with its inode. -/
inductive Found where
  | nothing
  | file (sector : Nat)
  | dir (sector : Nat)

/-- The descriptor that `open_file_or_dir` fills in at `p`. -/
def addDescriptor (current p : Nat) (openFile openDir : Option Nat) (isDir : Bool) :
    OpenRoutine Int := do
  let s ← get
  let fd : FileDescriptor := ⟨toOff s.fdCount, openFile, openDir, current, isDir⟩
  set { s with fds := Function.update s.fds p (some fd) }
  listPushFront (.fd p)
  modify fun s => { s with fdCount := (s.fdCount + 1) % 2 ^ 32 }
  pure fd.fdNum

/-- `open_file_or_dir`. -/
def openFileOrDir (current : Nat) : Found → OpenRoutine Int
  | .nothing => pure (-1)
  | .dir sector => do
    let p ← newPtr
    let d ← newPtr
    setDir d ⟨sector, 0⟩
    modify fun s => { s with
      openFdCnt := Function.update s.openFdCnt sector (s.openFdCnt sector + 1) }
    addDescriptor current p none (some d) true
  | .file sector => do
    let p ← newPtr
    onFs (inodeOpen sector)
    let f ← fileOpen sector
    addDescriptor current p (some f) none false

/-- `fd->open_dir->inode->open_fd_cnt--`. -/
def dropOpenFdCnt : Option Nat → OpenRoutine Unit
  | none => throw nullPointer
  | some d => do
    let dir ← getDir d
    modify fun s => { s with
      openFdCnt := Function.update s.openFdCnt dir.inode (s.openFdCnt dir.inode - 1) }

section

variable (calls : FreeMapCalls) (input : Nat → UInt8)

/-- What a descriptor refers to is closed. -/
def closeOpened (fd : FileDescriptor) : OpenRoutine Unit :=
  if fd.isDir then dropOpenFdCnt fd.openDir else fileClose calls fd.openFile

/-- `close_open_file_or_dir`. -/
def closeOpenFileOrDir (current : Nat) (fdNum : Int) : OpenRoutine Unit := do
  match ← getFileDescriptor current fdNum with
  | none => pure ()
  | some p =>
    let fd ← getFd p
    if fd.owner = current then
      closeOpened calls fd
      listRemove (.fd p)
      freeFd p

/-- The loop of `close_all_files_and_dir` after `e`, for at most `fuel` passes. -/
def closeAllFrom (current : Nat) : (fuel : Nat) → Elem → OpenRoutine Unit
  | 0, _ => throw .spin
  | fuel + 1, e => do
    match ← listPrev e with
    | .head => pure ()
    | .tail => throw (.undefined "list_entry of the tail")
    | .fd p =>
      let fd ← getFd p
      if fd.owner = current then
        closeOpened calls fd
        let e ← listNext (.fd p)
        listRemove (.fd p)
        freeFd p
        closeAllFrom current fuel e
      else closeAllFrom current fuel (.fd p)

/-- What `pt_suppl_handle_unmap` does to the file of a mapping: it writes pages back at offsets, and
closes the file. -/
def unmapFile (f : Nat) (pages : List (Int × List UInt8)) : OpenRoutine Unit := do
  pages.forM fun page => do
    fileSeek page.1 (some f)
    let _ ← fileWrite calls page.2 (some f)
  fileClose calls (some f)

/-- `close_all_files_and_dir`, where `pages` says what is written back for the files of the
mappings. -/
def closeAllFilesAndDir (current : Nat) (pages : Nat → List (Int × List UInt8)) :
    OpenRoutine Unit := do
  closeAllFrom calls current ((← get).nextPtr + 1) .tail
  ((← get).mapped current).forM fun f => unmapFile calls f (pages f)
  modify fun s => { s with mapped := Function.update s.mapped current [] }

/-! ### Calls on descriptors -/

/-- `filelength_open_file`. -/
def filelengthOpenFile (current : Nat) (fdNum : Int) : OpenRoutine Int := do
  match ← getFileDescriptor current fdNum with
  | none => pure (-1)
  | some p => fileLength (← getFd p).openFile

/-- The loop of the console branch of `read_open_file`: where `start` is at the end, and the number
of bytes read. -/
def consoleLoop (current endPtr : Nat) : (fuel start result : Nat) → OpenRoutine (Nat × Nat)
  | 0, _, _ => throw .spin
  | fuel + 1, start, result => do
    if start < endPtr then
      let s ← get
      let c := input s.inputPos
      set { s with inputPos := s.inputPos + 1 }
      if c ≠ 0 then
        modify fun s => { s with
          memory := Function.update s.memory current (Function.update (s.memory current) start c) }
        consoleLoop current endPtr fuel ((start + 1) % 2 ^ 32) (result + 1)
      else pure (start, result)
    else pure (start, result)

/-- The bytes that `inode_read_at` copies to the buffer. -/
def copyToUser (current buffer : Nat) (bytes : List UInt8) : OpenRoutine Unit :=
  modify fun s => { s with
    memory := Function.update s.memory current fun a =>
      let i := toWord ((a : Int) - buffer)
      if i < bytes.length ∧ a < 2 ^ 32 then bytes.getD i 0 else s.memory current a }

/-- `read_open_file`. -/
def readOpenFile (current : Nat) (fdNum : Int) (buffer length : Nat) : OpenRoutine Int := do
  if fdNum = 0 then
    let (start, result) ←
      consoleLoop input current ((buffer + length) % 2 ^ 32) (length + 1) buffer 0
    modify fun s => { s with
      memory := Function.update s.memory current (Function.update (s.memory current) start 0) }
    pure (toOff result)
  else if fdNum = 1 then pure (-1)
  else
    match ← getFileDescriptor current fdNum with
    | none => pure (-1)
    | some p =>
      let fd ← getFd p
      if fd.isDir then pure (-1)
      else
        let bytes ← fileRead calls (toOff length) fd.openFile
        copyToUser current buffer bytes
        pure bytes.length

/-- `write_open_file`, where `valid` is what `is_valid_address_range_of_thread` returns. -/
def writeOpenFile (current : Nat) (fdNum : Int) (buffer length : Nat) (valid : Bool) :
    OpenRoutine Int := do
  if fdNum = 0 then pure (-1)
  else if fdNum = 1 then pure (if valid then 0 else -1)
  else
    match ← getFileDescriptor current fdNum with
    | none => pure (-1)
    | some p =>
      let fd ← getFd p
      if fd.isDir then pure (-1)
      else
        let memory := (← get).memory current
        let bytes := (List.range (toOff length).toNat).map fun i => memory ((buffer + i) % 2 ^ 32)
        let bytesWritten ← fileWrite calls bytes fd.openFile
        pure bytesWritten

/-- `seek_open_file`. -/
def seekOpenFile (current : Nat) (fdNum : Int) (position : Nat) : OpenRoutine Unit := do
  match ← getFileDescriptor current fdNum with
  | none => pure ()
  | some p => fileSeek (toOff position) (← getFd p).openFile

/-- `tell_open_file`. -/
def tellOpenFile (current : Nat) (fdNum : Int) : OpenRoutine Int := do
  match ← getFileDescriptor current fdNum with
  | none => pure 0
  | some p => fileTell (← getFd p).openFile

/-- `memory_map_file`, where `ptSupplHandleMmap` is called with the reopened file. -/
def memoryMapFile (current : Nat) (fdNum : Int) (startPage : Nat)
    (ptSupplHandleMmap : Nat → OpenRoutine Int) : OpenRoutine Int := do
  match ← getFileDescriptor current fdNum with
  | none => pure (-1)
  | some p =>
    let fd ← getFd p
    if fdNum = 0 ∨ fdNum = 1 ∨ startPage = 0 ∨ startPage % 4096 ≠ 0 then pure (-1)
    else
      match fd.openFile with
      | none => throw (.assertion "f != NULL")
      | some f =>
        let rf ← fileReopen f
        ptSupplHandleMmap rf

/-- The loop of `dir_readdir`: the name of the next entry. -/
def dirReaddirFrom (d : Nat) : (fuel : Nat) → OpenRoutine (Option (List UInt8))
  | 0 => throw .spin
  | fuel + 1 => do
    let dir ← getDir d
    let e ← onFs (inodeReadAt calls dir.inode 72 dir.pos)
    if e.length = 72 then
      setDir d { dir with pos := dir.pos + 72 }
      if e.getD 68 0 ≠ 0 then pure (some (((e.drop 4).take 63).takeWhile (· ≠ 0)))
      else dirReaddirFrom d fuel
    else pure none

/-- `dir_readdir`; a pass is for 72 of the bytes of a directory. -/
def dirReaddir : Option Nat → OpenRoutine (Option (List UInt8))
  | none => throw nullPointer
  | some d => dirReaddirFrom calls d (2 ^ 31)

/-- `read_directory`, where `valid` is what `is_valid_address_range_of_thread` returns: the name. -/
def readDirectory (current : Nat) (fdNum : Int) (valid : Bool) :
    OpenRoutine (Option (List UInt8)) := do
  match ← getFileDescriptor current fdNum with
  | none => pure none
  | some p =>
    let fd ← getFd p
    if !fd.isDir || !valid then pure none else dirReaddir calls fd.openDir

/-- `fd_inode_number`. -/
def fdInodeNumber (current : Nat) (fdNum : Int) : OpenRoutine Int := do
  match ← getFileDescriptor current fdNum with
  | none => pure (-1)
  | some p =>
    let fd ← getFd p
    match fd.openFile, fd.openDir with
    | some f, _ => pure (toOff (← getFile f).inode)
    | none, some d => pure (toOff (← getDir d).inode)
    | none, none => pure (-1)

/-! ### Executables -/

/-- What `load` does with the executable after it has opened it. -/
inductive LoadStep where
  | fileLength
  | fileSeek (newPos : Nat)
  | fileRead (size : Nat)

def LoadStep.exec (f : Nat) : LoadStep → OpenRoutine Unit
  | .fileLength => discard (OpenFiles.fileLength (some f))
  | .fileSeek newPos => OpenFiles.fileSeek newPos (some f)
  | .fileRead size => discard (OpenFiles.fileRead calls size (some f))

/-- `load` of the executable with the given inode, if there is one; `steps` is what the headers lead
to. -/
def load (current : Nat) (executable : Option Nat) (steps : List LoadStep) : OpenRoutine Bool := do
  match executable with
  | none => pure false
  | some sector =>
    onFs (inodeOpen sector)
    let currentFile ← fileOpen sector
    modify fun s => { s with runFile := Function.update s.runFile current (some currentFile) }
    fileDenyWrite currentFile
    steps.forM fun step => step.exec calls currentFile
    pure true

/-- `thread_exit`. -/
def threadExit (current : Nat) (pages : Nat → List (Int × List UInt8)) : OpenRoutine Unit := do
  closeAllFilesAndDir calls current pages
  fileClose calls ((← get).runFile current)
  modify fun s => { s with exited := Function.update s.exited current true }

/-! ### Runs -/

/-- What a process can ask for, and the steps of a walk along a path. -/
inductive Call where
  | openFileOrDir (found : Found)
  | closeOpenFileOrDir (fdNum : Int)
  | filelengthOpenFile (fdNum : Int)
  | readOpenFile (fdNum : Int) (buffer length : Nat)
  | writeOpenFile (fdNum : Int) (buffer length : Nat) (valid : Bool)
  | seekOpenFile (fdNum : Int) (position : Nat)
  | tellOpenFile (fdNum : Int)
  | memoryMapFile (fdNum : Int) (startPage : Nat) (mapId : Int)
  | readDirectory (fdNum : Int) (valid : Bool)
  | fdInodeNumber (fdNum : Int)
  | load (executable : Option Nat) (steps : List LoadStep)
  | threadExit (pages : Nat → List (Int × List UInt8))
  | inodeOpen (sector : Nat)
  | inodeClose (sector : Nat)
  | inodeReadAt (sector size offset : Nat)

/-- `pt_suppl_handle_mmap` of a file, which leaves the file to the mapping; without a mapping, nothing
will close it. -/
def mapFile (current : Nat) (mapId : Int) (f : Nat) : OpenRoutine Int := do
  if mapId ≠ -1 then
    modify fun s => { s with mapped := Function.update s.mapped current (f :: s.mapped current) }
  pure mapId

/-- A call of a process, which fails once the process has exited. -/
def exec (request : Nat × Call) : OpenRoutine Int := do
  let current := request.1
  if (← get).exited current then pure (-1)
  else
    match request.2 with
    | .openFileOrDir found => openFileOrDir current found
    | .closeOpenFileOrDir fdNum => (fun _ => 0) <$> closeOpenFileOrDir calls current fdNum
    | .filelengthOpenFile fdNum => filelengthOpenFile current fdNum
    | .readOpenFile fdNum buffer length => readOpenFile calls input current fdNum buffer length
    | .writeOpenFile fdNum buffer length valid =>
      writeOpenFile calls current fdNum buffer length valid
    | .seekOpenFile fdNum position => (fun _ => 0) <$> seekOpenFile current fdNum position
    | .tellOpenFile fdNum => tellOpenFile current fdNum
    | .memoryMapFile fdNum startPage mapId =>
      memoryMapFile current fdNum startPage (mapFile current mapId)
    | .readDirectory fdNum valid =>
      (fun name => if name.isSome then 1 else 0) <$> readDirectory calls current fdNum valid
    | .fdInodeNumber fdNum => fdInodeNumber current fdNum
    | .load executable steps =>
      (fun success => if success then 1 else 0) <$> load calls current executable steps
    | .threadExit pages => (fun _ => 0) <$> threadExit calls current pages
    | .inodeOpen sector => (fun _ => 0) <$> onFs (Pintos.inodeOpen sector)
    | .inodeClose sector => (fun _ => 0) <$> onFs (Pintos.inodeClose calls sector)
    | .inodeReadAt sector size offset =>
      (fun bytes => (bytes.length : Int)) <$> onFs (Pintos.inodeReadAt calls sector size offset)

end

/-- After `fsaccess_init`: no descriptor and no file is open but that of the free map. -/
def init (fs : FileSys) (memory : Nat → Nat → UInt8) : State where
  fs := fs
  openFdCnt _ := 0
  files _ := none
  dirs _ := none
  fds _ := none
  openFiles :=
    { prev := fun e => if e = .tail then some .head else none
      next := fun e => if e = .head then some .tail else none }
  fdCount := 2
  nextPtr := 0
  runFile _ := none
  mapped _ := []
  exited _ := false
  memory := memory
  inputPos := 0

end OpenFiles

end Pintos
