import Pintos.Library.Routine
import Mathlib.Logic.Function.Basic
import Mathlib.Algebra.Group.Int.Defs
import Mathlib.Algebra.Group.Nat.Defs
import Mathlib.Algebra.GroupWithZero.Nat

/-! Block devices (`devices/block.c`): sectors of `BLOCK_SECTOR_SIZE` bytes, read and written
whole, with the range check of `check_sector`.  Sector numbers are `block_sector_t`, 32-bit
words, kept as natural numbers; a device has fewer than `2 ^ 32` sectors because its size is a
`block_sector_t` too. -/

namespace Pintos

/-- How kernel code stops: a failed `ASSERT`, a `PANIC`, behaviour that C leaves undefined, a
loop that never ends, or the end of the process. -/
inductive Fault where
  | assertion (condition : String)
  | panic (message : String)
  | undefined (what : String)
  | spin
  | exit (status : Int)
  deriving DecidableEq, Repr

/-- `BLOCK_SECTOR_SIZE`. -/
def blockSectorSize : Nat := 512

/-- The bytes of one sector, also of any kernel object that fills a sector. -/
abbrev SectorData := Fin 512 → UInt8

namespace SectorData

/-- A sector of zeros. -/
def zeros : SectorData := fun _ => 0

/-- Byte `i` of a sector. -/
def byte (data : SectorData) (i : Nat) : UInt8 := if h : i < 512 then data ⟨i, h⟩ else 0

/-- `memcpy (buffer, data + offset, size)`: the bytes copied out. -/
def copyOut (data : SectorData) (offset size : Nat) : List UInt8 :=
  (List.range size).map fun i => data.byte (offset + i)

/-- `memcpy (data + offset, buffer, size)`, where `size` is the length of `buffer`. -/
def copyIn (data : SectorData) (offset : Nat) (buffer : List UInt8) : SectorData := fun i =>
  if offset ≤ i.val ∧ i.val < offset + buffer.length then buffer.getD (i.val - offset) 0
  else data i

@[simp] theorem length_copyOut (data : SectorData) (offset size : Nat) :
    (data.copyOut offset size).length = size := by
  simp [copyOut]

theorem byte_of_lt (data : SectorData) {i : Nat} (h : i < 512) : data.byte i = data ⟨i, h⟩ := by
  simp [byte, h]

@[simp] theorem byte_zeros (i : Nat) : zeros.byte i = 0 := by
  simp [byte, zeros]

theorem getElem_copyOut (data : SectorData) (offset size i : Nat)
    (h : i < (data.copyOut offset size).length) :
    (data.copyOut offset size)[i] = data.byte (offset + i) := by
  simp [copyOut]

theorem byte_copyIn (data : SectorData) (offset : Nat) (buffer : List UInt8) {i : Nat}
    (h : i < 512) : (data.copyIn offset buffer).byte i =
      if offset ≤ i ∧ i < offset + buffer.length then buffer.getD (i - offset) 0
      else data.byte i := by
  simp [byte, h, copyIn]

/-- One byte is copied in. -/
theorem byte_copyIn_one (data : SectorData) (k : Nat) (value : UInt8) {i : Nat} (h : i < 512) :
    (data.copyIn k [value]).byte i = if i = k then value else data.byte i := by
  rw [byte_copyIn _ _ _ h, List.length_singleton]
  by_cases hik : i = k
  · subst hik
    simp
  · rw [if_neg (by omega), if_neg hik]

/-- A copy that fills the whole sector leaves nothing of the old contents. -/
theorem copyIn_full (data data' : SectorData) {buffer : List UInt8} (h : buffer.length = 512) :
    data.copyIn 0 buffer = data'.copyIn 0 buffer := by
  funext i
  simp [copyIn, h, i.isLt]

/-- Sectors with the same bytes are equal. -/
theorem ext_byte {data data' : SectorData} (h : ∀ i < 512, data.byte i = data'.byte i) :
    data = data' := by
  funext i
  have := h i.val i.isLt
  simpa [byte, i.isLt] using this

end SectorData

/-- `struct block`: a device of `size` sectors. -/
@[ext]
structure Block where
  size : Nat
  size_lt : size < 2 ^ 32
  data : Nat → SectorData

namespace Block

/-- `check_sector`. -/
def checkSector (block : Block) (sector : Nat) : Except Fault Unit :=
  if block.size ≤ sector then throw (.panic "Access past end of device") else pure ()

/-- `block_read`. -/
def blockRead (block : Block) (sector : Nat) : Except Fault SectorData := do
  block.checkSector sector
  pure (block.data sector)

/-- `block_write`. -/
def blockWrite (block : Block) (sector : Nat) (buffer : SectorData) : Except Fault Block := do
  block.checkSector sector
  pure { block with data := Function.update block.data sector buffer }

/-- The device with `buffer` in `sector`. -/
def store (block : Block) (sector : Nat) (buffer : SectorData) : Block :=
  { block with data := Function.update block.data sector buffer }

@[simp] theorem store_size (block : Block) (sector : Nat) (buffer : SectorData) :
    (block.store sector buffer).size = block.size := rfl

@[simp] theorem store_data (block : Block) (sector : Nat) (buffer : SectorData) :
    (block.store sector buffer).data = Function.update block.data sector buffer := rfl

theorem blockRead_of_lt {block : Block} {sector : Nat} (h : sector < block.size) :
    block.blockRead sector = .ok (block.data sector) := by
  simp [blockRead, checkSector, Nat.not_le.mpr h, bind, Except.bind, pure, Except.pure]

theorem blockRead_of_le {block : Block} {sector : Nat} (h : block.size ≤ sector) :
    block.blockRead sector = .error (.panic "Access past end of device") := by
  simp [blockRead, checkSector, h, bind, Except.bind, throw, throwThe, MonadExceptOf.throw]

theorem blockWrite_of_lt {block : Block} {sector : Nat} (h : sector < block.size)
    (buffer : SectorData) : block.blockWrite sector buffer = .ok (block.store sector buffer) := by
  simp [blockWrite, checkSector, Nat.not_le.mpr h, bind, Except.bind, pure, Except.pure, store]

theorem blockWrite_of_le {block : Block} {sector : Nat} (h : block.size ≤ sector)
    (buffer : SectorData) :
    block.blockWrite sector buffer = .error (.panic "Access past end of device") := by
  simp [blockWrite, checkSector, h, bind, Except.bind, throw, throwThe, MonadExceptOf.throw]

end Block

end Pintos
