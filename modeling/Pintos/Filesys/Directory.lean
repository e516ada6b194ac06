import Pintos.Devices.Block
import Pintos.Library.Memory
import Pintos.Library.SlotTable

/-! Directories (`filesys/directory.c`): `lookup`, `dir_lookup_entry`, `dir_add`, `dir_remove` and
`dir_readdir`, one at a time, on an inode that reads and writes like a growable byte array.  A local
`struct dir_entry` is 72 bytes of memory, whose first contents are an input of each call. -/

namespace Pintos

/-- `NAME_MAX`. -/
def nameMax : Nat := 63

/-- `sizeof (struct dir_entry)`: `inode_sector` at 0, `name` at 4, `in_use` at 68, `is_dir` at 69
and two bytes that nothing reads. -/
def dirEntrySize : Nat := 72

/-- A name of a directory entry. -/
structure DirName where
  bytes : List UInt8
  noNull : 0 ∉ bytes
  pos : 0 < bytes.length
  le : bytes.length ≤ nameMax

/-- The bytes of a `struct dir_entry`. -/
abbrev DirEntry := Memory

namespace DirEntry

def inodeSector (e : DirEntry) : Nat := e.word 0

def inUse (e : DirEntry) : Bool := e 68 != 0

def isDir (e : DirEntry) : Bool := e 69 != 0

/-- The string in `name`. -/
def name (e : DirEntry) : List UInt8 :=
  ((List.range (nameMax + 1)).map fun i => e (4 + i)).takeWhile (· ≠ 0)

end DirEntry

/-- `!strcmp (name, s)`, with `s` at address `a`. -/
def strcmpEq : List UInt8 → Memory → Nat → Bool
  | [], m, a => m a == 0
  | c :: name, m, a => m a == c && strcmpEq name m (a + 1)

/-- A `struct dir`: the bytes of its inode and `pos`. -/
structure Directory where
  length : Nat
  data : Memory
  pos : Nat

abbrev DirRoutine := Routine Fault Directory

namespace Directory

/-- `inode_read_at` of a whole entry: the number of bytes read, and the entry with them in place. -/
def inodeReadAt (d : Directory) (e : DirEntry) (ofs : Nat) : Nat × DirEntry :=
  let bytesRead := min dirEntrySize (d.length - ofs)
  (bytesRead, fun i => if i < bytesRead then d.data (ofs + i) else e i)

/-- `inode_write_at` of a whole entry, which grows the inode where it needs to. -/
def inodeWriteAt (d : Directory) (e : DirEntry) (ofs : Nat) : Directory :=
  { d with
    length := max d.length (ofs + dirEntrySize)
    data := fun i =>
      if ofs ≤ i ∧ i < ofs + dirEntrySize then e (i - ofs)
      else if d.length ≤ i ∧ i < ofs then 0
      else d.data i }

/-- The loop of `lookup` from `ofs` on: the entry and its offset. -/
def lookupFrom (d : Directory) (name : List UInt8) :
    Nat → DirEntry → Nat → Except Fault (Option (DirEntry × Nat))
  | 0, _, _ => throw .spin
  | fuel + 1, e, ofs =>
    let (bytesRead, e) := d.inodeReadAt e ofs
    if bytesRead = dirEntrySize then
      if e.inUse && strcmpEq name e 4 then pure (some (e, ofs))
      else lookupFrom d name fuel e (ofs + dirEntrySize)
    else pure none

/-- `lookup`. -/
def lookup (d : Directory) (name : List UInt8) (e : DirEntry) :
    Except Fault (Option (DirEntry × Nat)) := d.lookupFrom name (d.length + 1) e 0

/-- `dir_lookup_entry`: the sector of the inode that is opened, with `none` for a null pointer. -/
def dirLookupEntry (name : List UInt8) (isDir : Bool) (e : DirEntry) : DirRoutine (Option Nat) := do
  let d ← get
  match ← d.lookup name e with
  | some (e, _) => if isDir && !e.isDir then pure none else pure (some e.inodeSector)
  | none => pure none

/-- The loop of `dir_add` that looks for a free slot or the end of the file: the last entry read
and its offset. -/
def freeSlotFrom (d : Directory) : Nat → DirEntry → Nat → Except Fault (DirEntry × Nat)
  | 0, _, _ => throw .spin
  | fuel + 1, e, ofs =>
    let (bytesRead, e) := d.inodeReadAt e ofs
    if bytesRead = dirEntrySize ∧ e.inUse then freeSlotFrom d fuel e (ofs + dirEntrySize)
    else pure (e, ofs)

/-- The entry that `dir_add` fills in. -/
def filled (e : DirEntry) (name : List UInt8) (inodeSector : Nat) (isDir : Bool) : DirEntry :=
  (((e.store 4 (name.take nameMax ++ [0])).store 0 (Memory.wordBytes inodeSector)).store 68
    [1]).store 69 [if isDir then 1 else 0]

/-- `dir_add`. -/
def dirAdd (name : List UInt8) (inodeSector : Nat) (isDir : Bool) (e : DirEntry) :
    DirRoutine Bool := do
  let d ← get
  if name = [] ∨ nameMax < name.length then return false
  match ← d.lookup name e with
  | some _ => pure false
  | none => do
    let (e, ofs) ← d.freeSlotFrom (d.length + 1) e 0
    set (d.inodeWriteAt (filled e name inodeSector isDir) ofs)
    pure true

/-- `dir_remove`, where `isEmpty` is what `dir_is_empty` returns if the entry is a directory. -/
def dirRemove (name : List UInt8) (isEmpty : Bool) (e : DirEntry) : DirRoutine Bool := do
  let d ← get
  match ← d.lookup name e with
  | none => pure false
  | some (e, ofs) =>
    if e.isDir && !isEmpty then pure false
    else do
      set (d.inodeWriteAt (e.store 68 [0]) ofs)
      pure true

/-- The loop of `dir_readdir`. -/
def readdirFrom : Nat → DirEntry → DirRoutine (Option (List UInt8))
  | 0, _ => throw .spin
  | fuel + 1, e => do
    let d ← get
    let (bytesRead, e) := d.inodeReadAt e d.pos
    if bytesRead = dirEntrySize then
      set { d with pos := d.pos + dirEntrySize }
      if e.inUse then pure (some (e.name.take nameMax)) else readdirFrom fuel e
    else pure none

/-- `dir_readdir`: the name, if there is a next entry. -/
def dirReaddir (e : DirEntry) : DirRoutine (Option (List UInt8)) := do
  let d ← get
  readdirFrom (d.length + 1) e

end Directory

end Pintos
