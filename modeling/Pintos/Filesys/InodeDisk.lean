import Pintos.Devices.Block
import Mathlib.Tactic.Common

/-! Disk inodes (`struct inode_disk` of `filesys/inode.h`): one sector of 128 little-endian words.
Words 0 to 2 are `start`, `parent` and `length`, the next 79 are the union of `main_index` and
`block_index`, and words 82 and 83 are `is_index_block` and `magic`. -/

namespace Pintos

/-- `DIRECT_BLOCKS`. -/
def directBlocks : Nat := 11

/-- `INDIRECT_BLOCKS`. -/
def indirectBlocks : Nat := 65

/-- `D_INDIRECT_BLOCKS`. -/
def dIndirectBlocks : Nat := 3

/-- `METADATA_BLOCKS`. -/
def metadataBlocks : Nat := 1 + indirectBlocks + dIndirectBlocks * dIndirectBlocks

/-- `INDEX_MAIN_ENTRIES`. -/
def indexMainEntries : Nat := directBlocks + indirectBlocks + dIndirectBlocks

/-- `INDEX_BLOCK_ENTRIES`. -/
def indexBlockEntries : Nat := 64

/-- `SECTOR_ERROR`. -/
def sectorError : Nat := 6666666

/-- `INODE_ACCESS_DIRECT`. -/
def inodeAccessDirect : Nat := directBlocks - 1

/-- `INODE_ACCESS_INDIRECT`. -/
def inodeAccessIndirect : Nat := inodeAccessDirect + indirectBlocks * indexBlockEntries

/-- `INODE_ACCESS_MAX`. -/
def inodeAccessMax : Nat :=
  inodeAccessIndirect + dIndirectBlocks * indexBlockEntries * indexBlockEntries - metadataBlocks

/-- `INODE_MAGIC`. -/
def inodeMagic : Nat := 0x494e4f44

/-- The value of `n` as a 32-bit word. -/
def toWord (n : Int) : Nat := (n % 2 ^ 32).toNat

/-- The value of `n` as an `off_t`. -/
def toOff (n : Int) : Int := (n + 2 ^ 31) % 2 ^ 32 - 2 ^ 31

theorem toWord_of_lt {n : Nat} (h : n < 2 ^ 32) : toWord n = n := by
  unfold toWord
  omega

theorem toOff_of_lt {n : Int} (h0 : 0 ≤ n) (h : n < 2 ^ 31) : toOff n = n := by
  unfold toOff
  omega

/-- `struct inode_disk`. -/
abbrev InodeDisk := SectorData

namespace SectorData

/-- The four bytes of a word. -/
def wordBytes (value : Nat) : List UInt8 :=
  [UInt8.ofNat value, UInt8.ofNat (value / 2 ^ 8), UInt8.ofNat (value / 2 ^ 16),
    UInt8.ofNat (value / 2 ^ 24)]

def word (d : SectorData) (i : Nat) : Nat :=
  (d.byte (4 * i)).toNat + 2 ^ 8 * (d.byte (4 * i + 1)).toNat +
    2 ^ 16 * (d.byte (4 * i + 2)).toNat + 2 ^ 24 * (d.byte (4 * i + 3)).toNat

def setWord (d : SectorData) (i value : Nat) : SectorData := d.copyIn (4 * i) (wordBytes value)

theorem word_setWord_self (d : SectorData) {i value : Nat} (hi : i < 128) (hv : value < 2 ^ 32) :
    (d.setWord i value).word i = value := by
  have hbyte : ∀ k < 4, (d.setWord i value).byte (4 * i + k) = (wordBytes value).getD k 0 := by
    intro k hk
    rw [setWord, byte_copyIn _ _ _ (by omega), if_pos, Nat.add_sub_cancel_left]
    exact ⟨by omega, by simp [wordBytes]; omega⟩
  have h0 := hbyte 0 (by omega)
  have h1 := hbyte 1 (by omega)
  have h2 := hbyte 2 (by omega)
  have h3 := hbyte 3 (by omega)
  rw [Nat.add_zero] at h0
  rw [word, h0, h1, h2, h3]
  simp [wordBytes]
  omega

theorem word_setWord_ne (d : SectorData) {i j : Nat} (value : Nat) (h : j ≠ i) :
    (d.setWord i value).word j = d.word j := by
  have hbyte : ∀ k < 4, (d.setWord i value).byte (4 * j + k) = d.byte (4 * j + k) := by
    intro k hk
    by_cases hlt : 4 * j + k < 512
    · rw [setWord, byte_copyIn _ _ _ hlt, if_neg]
      simp only [wordBytes, List.length_cons, List.length_nil]
      omega
    · simp [byte, hlt]
  have h0 := hbyte 0 (by omega)
  rw [Nat.add_zero] at h0
  rw [word, word, h0, hbyte 1 (by omega), hbyte 2 (by omega), hbyte 3 (by omega)]

/-- A sector copied out and back in whole. -/
theorem copyIn_copyOut (d data : SectorData) : d.copyIn 0 (data.copyOut 0 512) = data := by
  refine ext_byte fun i hi => ?_
  rw [byte_copyIn _ _ _ hi, if_pos ⟨Nat.zero_le i, by simpa using hi⟩]
  simp [copyOut, hi]

end SectorData

namespace InodeDisk

open SectorData

def start (d : InodeDisk) : Nat := d.word 0

def length (d : InodeDisk) : Int := toOff (d.word 2)

/-- Entry `k` of the index, `main_index[k]` or `block_index[k]`. -/
def entry (d : InodeDisk) (k : Nat) : Nat := d.word (3 + k)

def isIndexBlock (d : InodeDisk) : Nat := d.word 82

def setLength (d : InodeDisk) (length : Int) : InodeDisk := d.setWord 2 (toWord length)

def setEntry (d : InodeDisk) (k sector : Nat) : InodeDisk := d.setWord (3 + k) sector

/-- The disk inode with `SECTOR_ERROR` in the entries `ks` of its index. -/
def clearEntries (d : InodeDisk) (ks : List Nat) : InodeDisk :=
  ks.foldl (fun d k => d.setEntry k sectorError) d

theorem entry_setEntry_self (d : InodeDisk) {k sector : Nat} (hk : k < 79)
    (hsector : sector < 2 ^ 32) : (d.setEntry k sector).entry k = sector :=
  word_setWord_self d (by omega) hsector

theorem entry_setEntry_ne (d : InodeDisk) {k j : Nat} (sector : Nat) (h : j ≠ k) :
    (d.setEntry k sector).entry j = d.entry j :=
  word_setWord_ne d sector (by omega)

theorem isIndexBlock_setEntry (d : InodeDisk) {k : Nat} (sector : Nat) (hk : k < 79) :
    (d.setEntry k sector).isIndexBlock = d.isIndexBlock :=
  word_setWord_ne d sector (by omega)

theorem entry_setLength (d : InodeDisk) (length : Int) (k : Nat) :
    (d.setLength length).entry k = d.entry k :=
  word_setWord_ne d _ (by omega)

theorem length_setLength (d : InodeDisk) {length : Int} (h0 : 0 ≤ length) (h : length < 2 ^ 31) :
    (d.setLength length).length = length := by
  have hword : toWord length < 2 ^ 32 := by
    unfold toWord
    omega
  rw [InodeDisk.length, setLength, word_setWord_self d (by omega) hword]
  unfold toOff toWord
  omega

theorem entry_clearEntries (d : InodeDisk) (ks : List Nat) (hks : ∀ k ∈ ks, k < 79) (j : Nat) :
    (d.clearEntries ks).entry j = if j ∈ ks then sectorError else d.entry j := by
  unfold clearEntries
  induction ks generalizing d with
  | nil => simp
  | cons k ks ih =>
    rw [List.foldl_cons, ih _ fun i hi => hks i (List.mem_cons_of_mem _ hi)]
    by_cases hjks : j ∈ ks
    · simp [hjks]
    · by_cases hjk : j = k
      · subst hjk
        rw [entry_setEntry_self d (hks j (by simp)) (by decide)]
        simp
      · rw [entry_setEntry_ne d _ hjk]
        simp [hjks, hjk]

end InodeDisk

end Pintos
