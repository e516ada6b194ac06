import Pintos.Filesys.DirectoryMap
import Pintos.Library.Serial

/-! `create_file`, `create_directory` and `remove_file_or_dir` (`filesys/fsaccess.c`) by any number
of processes, on names in one directory.  Every call works through a `struct dir` of its own, whose
lock no other call takes; `create_file` alone takes `files_lock`.  A step is one `inode_read_at`,
one `inode_write_at` or one lock operation of a call. -/

namespace Pintos

/-- A name that stands for an entry of the directory that it is looked up in. -/
structure EntryName extends DirName where
  noSlash : 0x2f ∉ bytes
  notDot : bytes ≠ [0x2e] ∧ bytes ≠ [0x2e, 0x2e]

/-- What a call does with its name.  A creation comes with the sector that `free_map_allocate` and
`inode_create` gave the new inode, if they did. -/
inductive DirRequest where
  | createFile (inodeSector : Option UInt32)
  | createDirectory (inodeSector : Option UInt32)
  | remove

/-- The sector and kind of the entry that a call adds, if it gets as far as `dir_add`. -/
def DirRequest.added : DirRequest → Option (Nat × Bool)
  | .createFile inodeSector => inodeSector.map fun s => (s.toNat, false)
  | .createDirectory inodeSector => inodeSector.map fun s => (s.toNat, true)
  | .remove => none

/-- Where a call stands; `k` is the slot that is read or written next, and `e` the local entry. -/
inductive DirCallPc where
  | start
  | lockDir
  | lookup (k : Nat)
  | freeSlot (k : Nat) (e : DirEntry)
  | write (k : Nat) (e : DirEntry)
  | pathIsDir (k : Nat)
  | pathLookup (k : Nat)
  | lockDirToRemove
  | removeLookup (k : Nat)
  | erase (k : Nat) (e : DirEntry)
  | unlockDir (result : Bool)
  | unlockFiles (result : Bool)
  | returned (result : Bool)

/-- The calls: their names and requests, what their local entries hold at first, whether the
directory gets the sectors that it needs to grow by their entry, and the sectors of directories that
have entries, or that a descriptor or a working directory refers to.  A directory that is being
created is not one of them. -/
structure DirCalls where
  name : Nat → EntryName
  request : Nat → DirRequest
  entry : Nat → DirEntry
  hasRoom : Nat → Bool
  nonEmpty : Nat → Bool
  openOrCwd : Nat → Bool
  fresh : ∀ c v, (request c).added = some v → nonEmpty v.1 = false ∧ openOrCwd v.1 = false

structure DirWorld where
  dir : Directory
  filesLock : Option Nat
  dirLock : Nat → Bool
  pc : Nat → DirCallPc

/-- Steps, which stop with a fault, or with `none` where a call cannot go on. -/
abbrev DirThreadRoutine := Routine (Option Fault) DirWorld

namespace DirWorld

def setPc (w : DirWorld) (c : Nat) (pc : DirCallPc) : DirWorld :=
  { w with pc := Function.update w.pc c pc }

/-- One round of the loop of `lookup`: `none` at the end of the directory, else the entry if it is
the one looked for. -/
def probe (d : Directory) (name : List UInt8) (k : Nat) : Option (Option DirEntry) :=
  let (bytesRead, e) := d.inodeReadAt (fun _ => 0) (dirEntrySize * k)
  if bytesRead = dirEntrySize then some (if e.inUse && strcmpEq name e 4 then some e else none)
  else none

/-- Where a call goes that leaves `filesys_create` or `filesys_remove` with `result`. -/
def leaves (calls : DirCalls) (c : Nat) (result : Bool) : DirCallPc :=
  match calls.request c with
  | .createFile _ => .unlockFiles result
  | .createDirectory _ | .remove => .returned result

/-- Where `filesys_create` goes once it has allocated what it can. -/
def allocated (calls : DirCalls) (c : Nat) : DirCallPc :=
  match (calls.request c).added with
  | some _ => .lockDir
  | none => leaves calls c false

/-- The next step of call `c`. -/
def exec (calls : DirCalls) (c : Nat) : DirThreadRoutine Unit := do
  let w ← get
  let name := (calls.name c).bytes
  match w.pc c with
  | .start =>
    match calls.request c with
    | .createFile _ =>
      match w.filesLock with
      | none => set { w.setPc c (allocated calls c) with filesLock := some c }
      | some _ => throw none
    | .createDirectory _ => set (w.setPc c (allocated calls c))
    | .remove => set (w.setPc c (.pathIsDir 0))
  | .lockDir =>
    if w.dirLock c then throw none
    else set { w.setPc c (.lookup 0) with dirLock := Function.update w.dirLock c true }
  | .lookup k =>
    match probe w.dir name k with
    | some (some _) => set (w.setPc c (.unlockDir false))
    | some none => set (w.setPc c (.lookup (k + 1)))
    | none => set (w.setPc c (.freeSlot 0 (calls.entry c)))
  | .freeSlot k e =>
    let (bytesRead, e) := w.dir.inodeReadAt e (dirEntrySize * k)
    if bytesRead = dirEntrySize ∧ e.inUse then set (w.setPc c (.freeSlot (k + 1) e))
    else set (w.setPc c (.write k e))
  | .write k e =>
    match (calls.request c).added with
    | some (inodeSector, isDir) =>
      if calls.hasRoom c then
        set { w.setPc c (.unlockDir true) with
          dir := w.dir.inodeWriteAt (Directory.filled e name inodeSector isDir) (dirEntrySize * k) }
      -- `inode_write_at` writes nothing if the inode has to grow and cannot
      else if w.dir.size ≤ k then set (w.setPc c (.unlockDir false))
      else throw none
    | none => throw none
  | .pathIsDir k =>
    match probe w.dir name k with
    | some (some e) => set (w.setPc c (if e.isDir then .pathLookup 0 else .lockDirToRemove))
    | some none => set (w.setPc c (.pathIsDir (k + 1)))
    | none => set (w.setPc c .lockDirToRemove)
  | .pathLookup k =>
    match probe w.dir name k with
    | some (some e) =>
      if e.isDir then
        if calls.nonEmpty e.inodeSector || calls.openOrCwd e.inodeSector then
          set (w.setPc c (.returned false))
        else set (w.setPc c .lockDirToRemove)
      else throw (some (.assertion "dir != NULL"))
    | some none => set (w.setPc c (.pathLookup (k + 1)))
    | none => throw (some (.assertion "dir != NULL"))
  | .lockDirToRemove =>
    if w.dirLock c then throw none
    else set { w.setPc c (.removeLookup 0) with dirLock := Function.update w.dirLock c true }
  | .removeLookup k =>
    match probe w.dir name k with
    | some (some e) =>
      if e.isDir && calls.nonEmpty e.inodeSector then set (w.setPc c (.unlockDir false))
      else set (w.setPc c (.erase k e))
    | some none => set (w.setPc c (.removeLookup (k + 1)))
    | none => set (w.setPc c (.unlockDir false))
  | .erase k e =>
    set { w.setPc c (.unlockDir true) with
      dir := w.dir.inodeWriteAt (e.store 68 [0]) (dirEntrySize * k) }
  | .unlockDir result =>
    set { w.setPc c (leaves calls c result) with dirLock := Function.update w.dirLock c false }
  | .unlockFiles result => set { w.setPc c (.returned result) with filesLock := none }
  | .returned _ => throw none

/-- No call has started. -/
def init (d : Directory) : DirWorld := ⟨d, none, fun _ => false, fun _ => .start⟩

end DirWorld

/-- What a call will return, once that is decided. -/
def DirCallPc.result : DirCallPc → Option Bool
  | .unlockDir result | .unlockFiles result | .returned result => some result
  | _ => none

namespace DirCalls

/-- A directory that may not be removed. -/
def Blocked (calls : DirCalls) (v : Nat × Bool) : Bool :=
  v.2 && (calls.nonEmpty v.1 || calls.openOrCwd v.1)

/-- Call `c` as one atomic operation on the map, with its result. -/
def apply (calls : DirCalls) (c : Nat) (m : DirMap) : Bool × DirMap :=
  let name := (calls.name c).bytes
  match calls.request c with
  | .remove =>
    match m name with
    | none => (false, m)
    | some v =>
      if calls.Blocked v then (false, m) else (true, Function.update m name none)
  | .createFile _ | .createDirectory _ =>
    match (calls.request c).added, m name with
    | some v, none =>
      if calls.hasRoom c then (true, Function.update m name (some v)) else (false, m)
    | _, _ => (false, m)

end DirCalls

/-- What the call found still holds where it matters: the name that it adds is still absent and its
slot is free, the entry that it removes is still in its slot, and the directory that `path_is_dir`
found is there for `dir_path_lookup`. -/
def DirWorld.Settled (calls : DirCalls) (c : Nat) (w : DirWorld) : Prop :=
  match w.pc c with
  | .write k _ => calls.hasRoom c = true →
    w.dir.slots k = none ∧ ∀ j v, w.dir.slots j ≠ some ((calls.name c).bytes, v)
  | .erase k e => w.dir.slots k = e.slot
  | .pathLookup k =>
    k < w.dir.size ∧ ∀ v, w.dir.slots k = some ((calls.name c).bytes, v) → v.2 = true
  | _ => True

end Pintos
