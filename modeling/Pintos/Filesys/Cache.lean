import Pintos.Devices.Block
import Mathlib.Data.List.FinRange

/-! The buffer cache (`filesys/cache.c`) as one thread runs it: 64 entries in front of the file
system device.  Calls are executed one after another, so every `lock_acquire` of a cache lock
succeeds at once and is left out; what the locks do between threads is the subject of
`Pintos.Filesys.CacheThreads`.  The victim scan still takes the set of entries whose `elock`
another thread holds, because it skips these. -/

namespace Pintos

instance neZero_cacheSectors : NeZero 64 := ⟨by decide⟩

/-- `EMPTY_SECTOR`, which is `SIZE_MAX`. -/
def emptySector : Nat := 2 ^ 32 - 1

/-- `struct buffer_cache_entry`, without its lock. -/
structure BufferCacheEntry where
  sector : Nat
  data : SectorData
  isInSecondChance : Bool
  isDirty : Bool
  readers : Nat

/-- The array `cache` and the device `fs_device` behind it. -/
structure Cache where
  cache : Fin 64 → BufferCacheEntry
  fsDevice : Block

abbrev CacheRoutine := Routine Fault Cache

namespace Cache

/-- The cache with entry `i` replaced. -/
def setEntry (c : Cache) (i : Fin 64) (entry : BufferCacheEntry) : Cache :=
  { c with cache := Function.update c.cache i entry }

end Cache

/-- `bc_init`, where `memory` is what the `data` arrays held before. -/
def bcInit (memory : Fin 64 → SectorData) (fsDevice : Block) : Cache where
  cache i :=
    { sector := emptySector, data := memory i, isInSecondChance := false, isDirty := false,
      readers := 0 }
  fsDevice := fsDevice

/-- `bc_get_entry_by_sector`. -/
def bcGetEntryBySector (c : Cache) (sector : Nat) : Option (Fin 64) :=
  (List.finRange 64).find? fun i => (c.cache i).sector = sector

/-- `bc_flush`. -/
def bcFlush (i : Fin 64) : CacheRoutine Unit := do
  let c ← get
  let fsDevice ← c.fsDevice.blockWrite (c.cache i).sector (c.cache i).data
  set (Cache.setEntry { c with fsDevice } i { c.cache i with isDirty := false })

/-- What the scan of `bc_get_free_entry` does at one entry. -/
inductive Visit where
  | victim
  | waits
  | passes (c : Cache)

/-- The body of the loop of `bc_get_free_entry` at entry `i` in sweep `round`.  `locked` tells
whose `elock` another thread holds: such an entry is skipped up to round 5, and from then on
`lock_acquire` waits for it. -/
def bcVisitEntry (locked : Fin 64 → Bool) (round : Nat) (i : Fin 64) (c : Cache) : Visit :=
  if locked i then if round > 5 then .waits else .passes c
  else if (c.cache i).readers > 0 then .passes c
  else if (c.cache i).sector = emptySector ∨ (c.cache i).isInSecondChance then .victim
  else if !(c.cache i).isDirty ∨ round > 0 then
    .passes (c.setEntry i { c.cache i with isInSecondChance := true })
  else .passes c

/-- The loop of `bc_get_free_entry` from entry `i` in sweep `round`, for at most `fuel` visits.
The result is `none` while the loop has not ended. -/
def bcGetFreeEntryLoop (locked : Fin 64 → Bool) :
    (fuel round : Nat) → Fin 64 → Cache → Option (Fin 64 × Cache)
  | 0, _, _, _ => none
  | fuel + 1, round, i, c =>
    match bcVisitEntry locked round i c with
    | .victim => some (i, c)
    | .waits => none
    | .passes c =>
      if i = 63 then bcGetFreeEntryLoop locked fuel (round + 1) 0 c
      else bcGetFreeEntryLoop locked fuel round (i + 1) c

/-- `bc_get_free_entry`.  Three sweeps are enough when no other thread holds an entry, so more
visits are not allowed for. -/
def bcGetFreeEntry (locked : Fin 64 → Bool) : CacheRoutine (Fin 64) := do
  match bcGetFreeEntryLoop locked (3 * 64) 0 0 (← get) with
  | none => throw .spin
  | some (victim, c) =>
    set c
    if (c.cache victim).sector ≠ emptySector ∧ (c.cache victim).isDirty then bcFlush victim
    pure victim

/-- `bc_get_and_lock_entry`: the entry for `sector`, and whether it missed the cache.  The entry
holds `sector` when the loop condition is tested, so the loop ends after one pass. -/
def bcGetAndLockEntry (sector : Nat) : CacheRoutine (Fin 64 × Bool) := do
  match bcGetEntryBySector (← get) sector with
  | some i => pure (i, false)
  | none =>
    let i ← bcGetFreeEntry fun _ => false
    modify fun c => c.setEntry i { c.cache i with sector, isDirty := false }
    pure (i, true)

/-- `block_read (fs_device, sector, cache_entry->data)`. -/
def bcFill (i : Fin 64) (sector : Nat) : CacheRoutine Unit := do
  let c ← get
  let data ← c.fsDevice.blockRead sector
  set (c.setEntry i { c.cache i with data })

/-- `bc_block_read`: the bytes copied to `buffer`.  The reader count it raises and lowers around
the copy is back at its old value at the end. -/
def bcBlockRead (sector offset size : Nat) : CacheRoutine (List UInt8) := do
  if ¬ offset + size ≤ blockSectorSize then
    throw (.assertion "offset + size <= BLOCK_SECTOR_SIZE")
  let (i, isCacheMiss) ← bcGetAndLockEntry sector
  if isCacheMiss then bcFill i sector
  modify fun c => c.setEntry i { c.cache i with isInSecondChance := false }
  let c ← get
  pure ((c.cache i).data.copyOut offset size)

/-- `bc_block_write` of the `buffer.length` bytes of `buffer`.  `isAllowed` is the value that the
uninitialised local `is_allowed` has on entry: when it is true the loop is skipped and
`cache_entry` is still null.  With no other thread a positive reader count never goes away. -/
def bcBlockWrite (sector : Nat) (buffer : List UInt8) (offset : Nat) (isAllowed : Bool) :
    CacheRoutine Unit := do
  if ¬ offset + buffer.length ≤ blockSectorSize then
    throw (.assertion "offset + size <= BLOCK_SECTOR_SIZE")
  if isAllowed then throw (.undefined "cache_entry is null")
  let (i, isCacheMiss) ← bcGetAndLockEntry sector
  if isCacheMiss then
    if offset > 0 ∨ buffer.length + offset < blockSectorSize then bcFill i sector
    else modify fun c => c.setEntry i { c.cache i with data := SectorData.zeros }
  let c ← get
  if (c.cache i).readers ≠ 0 then throw .spin
  set (c.setEntry i
    { c.cache i with
      isInSecondChance := false
      isDirty := true
      data := (c.cache i).data.copyIn offset buffer })

/-- A pass over the entries `is` that flushes those which `wants` selects. -/
def bcFlushEach (wants : BufferCacheEntry → Bool) (is : List (Fin 64)) : CacheRoutine Unit :=
  is.forM fun i => do
    if wants ((← get).cache i) then bcFlush i

/-- `bc_flush_all`. -/
def bcFlushAll : CacheRoutine Unit :=
  bcFlushEach (fun entry => entry.sector ≠ emptySector ∧ entry.isDirty) (List.finRange 64)

/-- One pass of `bc_daemon_flush`. -/
def bcDaemonFlush : CacheRoutine Unit :=
  bcFlushEach (fun entry => entry.isDirty) (List.finRange 64)

/-- `bc_remove`: the first entry that holds `sector` is emptied, and its dirty bit stays. -/
def bcRemove (sector : Nat) : CacheRoutine Unit := do
  let c ← get
  match bcGetEntryBySector c sector with
  | some i => set (c.setEntry i { c.cache i with sector := emptySector })
  | none => pure ()

/-! ### The code without a cache -/

/-- `bc_block_read` compiled without `ENABLE_BUFFER_CACHE`. -/
def uncachedBlockRead (sector offset size : Nat) : Routine Fault Block (List UInt8) := do
  if ¬ offset + size ≤ blockSectorSize then
    throw (.assertion "offset + size <= BLOCK_SECTOR_SIZE")
  let bounce ← (← get).blockRead sector
  pure (bounce.copyOut offset size)

/-- `bc_block_write` compiled without `ENABLE_BUFFER_CACHE`. -/
def uncachedBlockWrite (sector : Nat) (buffer : List UInt8) (offset : Nat) :
    Routine Fault Block Unit := do
  let bounce ←
    if offset > 0 ∨ buffer.length + offset < blockSectorSize then (← get).blockRead sector
    else pure SectorData.zeros
  set (← (← get).blockWrite sector (bounce.copyIn offset buffer))

end Pintos
