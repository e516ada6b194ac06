import Pintos.Filesys.Cache
import Pintos.Library.LockProgram

/-! The buffer cache under threads.  Each function of `filesys/cache.c` is a program whose
instructions are its lock operations and the single bytes it copies; the statements up to the next
such point are executed with it.  A program counter carries the locals of the functions that are
active.  `completed` records the calls of `bc_block_write` that have returned, in order. -/

namespace Pintos

open LockProgram (Instr)

/-- `cache_lock`, or the `elock` of an entry. -/
inductive CacheLock where
  | cacheLock
  | elock (i : Fin 64)
  deriving DecidableEq

/-- The arguments of `bc_block_read`. -/
structure ReadCall where
  sector : Nat
  offset : Nat
  size : Nat

/-- The arguments of `bc_block_write`. -/
structure WriteCall where
  sector : Nat
  buffer : List UInt8
  offset : Nat

/-- A caller of `bc_get_and_lock_entry`: `bc_block_read`, `bc_block_write`, or the read-ahead daemon
with a requested sector. -/
inductive Fetch where
  | read (r : ReadCall)
  | write (w : WriteCall)
  | readAhead (sector : Nat)

def Fetch.sector : Fetch → Nat
  | read r => r.sector
  | write w => w.sector
  | readAhead sector => sector

/-- Where a thread is in the code of the cache.  In comments, the locks it holds there: `c` for
`cache_lock` and `e` for the `elock` of entry `i`. -/
inductive CachePc where
  | idle
  -- `bc_get_and_lock_entry` and `bc_get_free_entry`
  | getLock (call : Fetch)
  | hit (call : Fetch) (i : Fin 64)                        -- c
  | scan (call : Fetch) (round : Nat) (i : Fin 64)         -- c
  | pass (call : Fetch) (round : Nat) (i : Fin 64)         -- c e
  | flushVictim (call : Fetch) (i : Fin 64) (k : Nat)      -- c e
  | fetched (call : Fetch) (i : Fin 64) (isCacheMiss : Bool) -- c e
  | notFound (call : Fetch) (i : Fin 64)                   -- c e
  | retry (call : Fetch)                                   -- c
  -- `bc_block_read` and the read-ahead daemon
  | locked (call : Fetch) (i : Fin 64) (isCacheMiss : Bool) -- e
  | fill (call : Fetch) (i : Fin 64) (k : Nat)             -- c e
  | filled (call : Fetch) (i : Fin 64)                     -- c e
  | release (call : Fetch) (i : Fin 64)                    -- e
  | copyOut (r : ReadCall) (i : Fin 64) (bytes : List UInt8)
  | uncount (r : ReadCall) (i : Fin 64) (bytes : List UInt8) -- e
  | returned (r : ReadCall) (bytes : List UInt8)
  -- `bc_block_write`
  | writeFill (w : WriteCall) (i : Fin 64) (k : Nat)       -- e
  | writeClear (w : WriteCall) (i : Fin 64) (k : Nat)      -- e
  | copyIn (w : WriteCall) (i : Fin 64) (k : Nat)          -- e
  | written (w : WriteCall) (i : Fin 64)                   -- e
  | refused (w : WriteCall) (i : Fin 64)                   -- e
  -- a failed check of `check_sector`, in the first case with `cache_lock` held
  | panicked (locked : Bool) (i : Fin 64)                  -- e
  | crashed
  -- `bc_flush_all` and the flush daemon
  | flushLock (daemon : Bool)
  | flushVisit (daemon : Bool) (i : Fin 64)                -- c
  | flushWrite (daemon : Bool) (i : Fin 64) (k : Nat)      -- c e
  | flushNext (daemon : Bool) (i : Fin 64)                 -- c e
  | flushUnlock                                            -- c
  -- `bc_remove`
  | removeLock (sector : Nat)
  | removeVisit (sector : Nat) (i : Fin 64)                -- c
  | removed (i : Fin 64)                                   -- c e
  | removeUnlock                                           -- c

/-- The memory the threads share. -/
structure SharedCache extends Cache where
  completed : List WriteCall

namespace SharedCache

def setEntry (s : SharedCache) (i : Fin 64) (entry : BufferCacheEntry) : SharedCache :=
  { s with cache := Function.update s.cache i entry }

/-- Byte `k` of entry `i` is set to `value`. -/
def setByte (s : SharedCache) (i : Fin 64) (k : Nat) (value : UInt8) : SharedCache :=
  s.setEntry i { s.cache i with data := (s.cache i).data.copyIn k [value] }

/-- Byte `k` of entry `i` is written to its sector on the device. -/
def writeByte (s : SharedCache) (i : Fin 64) (k : Nat) : SharedCache :=
  let sector := (s.cache i).sector
  { s with
    fsDevice := s.fsDevice.store sector
      ((s.fsDevice.data sector).copyIn k [(s.cache i).data.byte k]) }

end SharedCache

abbrev CacheInstr := Instr CacheLock SharedCache CachePc

namespace CachePc

/-- The end of `bc_get_and_lock_entry` on a miss: the victim `i` gets the sector. -/
def assign (call : Fetch) (i : Fin 64) (s : SharedCache) : SharedCache × CachePc :=
  (s.setEntry i { s.cache i with sector := call.sector, isDirty := false }, fetched call i true)

/-- The loop of `bc_get_free_entry` goes on after entry `i`. -/
def advance (call : Fetch) (round : Nat) (i : Fin 64) : CachePc :=
  if i = 63 then scan call (round + 1) 0 else scan call round (i + 1)

/-- The body of the loop of `bc_get_free_entry` with the `elock` of entry `i` taken. -/
def visit (call : Fetch) (round : Nat) (i : Fin 64) (s : SharedCache) : SharedCache × CachePc :=
  match bcVisitEntry (fun _ => false) round i s.toCache with
  | .victim =>
    if (s.cache i).sector ≠ emptySector ∧ (s.cache i).isDirty then
      if s.fsDevice.size ≤ (s.cache i).sector then (s, panicked true i) else (s, flushVictim call i 0)
    else assign call i s
  | .passes c => ({ s with toCache := c }, pass call round i)
  | .waits => (s, pass call round i)

/-- The test `is_allowed = cache_entry->readers == 0` of `bc_block_write` and what depends on it. -/
def checkReaders (w : WriteCall) (i : Fin 64) (s : SharedCache) : SharedCache × CachePc :=
  if (s.cache i).readers = 0 then
    (s.setEntry i { s.cache i with isInSecondChance := false, isDirty := true }, copyIn w i 0)
  else (s, refused w i)

/-- What the caller of `bc_get_and_lock_entry` does with the fetched entry. -/
def use (i : Fin 64) (isCacheMiss : Bool) (s : SharedCache) : Fetch → SharedCache × CachePc
  | .write w =>
    if isCacheMiss then
      if w.offset > 0 ∨ w.buffer.length + w.offset < blockSectorSize then
        if s.fsDevice.size ≤ w.sector then (s, panicked false i) else (s, writeFill w i 0)
      else (s, writeClear w i 0)
    else checkReaders w i s
  | call => (s, locked call i isCacheMiss)

/-- The entry is out of its second chance, and `bc_block_read` counts a reader. -/
def countReader (i : Fin 64) (s : SharedCache) : Fetch → SharedCache
  | .read _ => s.setEntry i
      { s.cache i with isInSecondChance := false, readers := (s.cache i).readers + 1 }
  | _ => s.setEntry i { s.cache i with isInSecondChance := false }

/-- Whether a flush pass writes the entry: only `bc_flush_all` spares empty entries. -/
def wantsFlush (daemon : Bool) (entry : BufferCacheEntry) : Bool :=
  entry.isDirty && (daemon || entry.sector ≠ emptySector)

/-- The code of the cache. -/
def program : CachePc → CacheInstr
  | idle | returned _ _ | crashed | panicked _ _ => .halt
  | getLock call => .acquire .cacheLock fun s =>
    match bcGetEntryBySector s.toCache call.sector with
    | some i => (s, hit call i)
    | none => (s, scan call 0 0)
  | hit call i => .acquire (.elock i) fun s =>
    if (s.cache i).sector = call.sector then (s, fetched call i false) else (s, notFound call i)
  | scan call round i =>
    if round > 5 then .acquire (.elock i) (visit call round i)
    else .tryAcquire (.elock i) (visit call round i) (advance call round i)
  | pass call round i => .release (.elock i) fun s => (s, advance call round i)
  | flushVictim call i k => .run fun s =>
    if k < 512 then (s.writeByte i k, flushVictim call i (k + 1))
    else assign call i (s.setEntry i { s.cache i with isDirty := false })
  | fetched call i isCacheMiss => .release .cacheLock fun s => use i isCacheMiss s call
  | notFound call i => .release (.elock i) fun s => (s, retry call)
  | retry call => .release .cacheLock fun s => (s, getLock call)
  | locked call i isCacheMiss => .acquire .cacheLock fun s =>
    if isCacheMiss then
      if s.fsDevice.size ≤ call.sector then (s, panicked true i) else (s, fill call i 0)
    else (s, filled call i)
  | fill call i k => .run fun s =>
    if k < 512 then
      (s.setByte i k ((s.fsDevice.data call.sector).byte k), fill call i (k + 1))
    else (s, filled call i)
  | filled call i => .release .cacheLock fun s => (countReader i s call, release call i)
  | release call i => .release (.elock i) fun s =>
    match call with
    | .read r => (s, copyOut r i [])
    | _ => (s, idle)
  | copyOut r i bytes =>
    if bytes.length < r.size then .run fun s =>
      (s, copyOut r i (bytes ++ [(s.cache i).data.byte (r.offset + bytes.length)]))
    else .acquire (.elock i) fun s =>
      (s.setEntry i { s.cache i with readers := (s.cache i).readers - 1 }, uncount r i bytes)
  | uncount r i bytes => .release (.elock i) fun s => (s, returned r bytes)
  | writeFill w i k => .run fun s =>
    if k < 512 then (s.setByte i k ((s.fsDevice.data w.sector).byte k), writeFill w i (k + 1))
    else checkReaders w i s
  | writeClear w i k => .run fun s =>
    if k < 512 then (s.setByte i k 0, writeClear w i (k + 1)) else checkReaders w i s
  | copyIn w i k => .run fun s =>
    if k < w.buffer.length then
      (s.setByte i (w.offset + k) (w.buffer.getD k 0), copyIn w i (k + 1))
    else (s, written w i)
  | written w i => .release (.elock i) fun s =>
    ({ s with completed := s.completed ++ [w] }, idle)
  | refused w i => .release (.elock i) fun s => (s, getLock (.write w))
  | flushLock daemon => .acquire .cacheLock fun s => (s, flushVisit daemon 0)
  | flushVisit daemon i => .acquire (.elock i) fun s =>
    if wantsFlush daemon (s.cache i) then
      if s.fsDevice.size ≤ (s.cache i).sector then (s, panicked true i) else (s, flushWrite daemon i 0)
    else (s, flushNext daemon i)
  | flushWrite daemon i k => .run fun s =>
    if k < 512 then (s.writeByte i k, flushWrite daemon i (k + 1))
    else (s.setEntry i { s.cache i with isDirty := false }, flushNext daemon i)
  | flushNext daemon i => .release (.elock i) fun s =>
    if i = 63 then (s, flushUnlock) else (s, flushVisit daemon (i + 1))
  | flushUnlock => .release .cacheLock fun s => (s, idle)
  | removeLock sector => .acquire .cacheLock fun s =>
    match bcGetEntryBySector s.toCache sector with
    | some i => (s, removeVisit sector i)
    | none => (s, removeUnlock)
  | removeVisit sector i => .acquire (.elock i) fun s =>
    if (s.cache i).sector = sector then
      (s.setEntry i { s.cache i with sector := emptySector }, removed i)
    else (s, removed i)
  | removed i => .release (.elock i) fun s => (s, removeUnlock)
  | removeUnlock => .release .cacheLock fun s => (s, idle)

/-- The calls that pass their `ASSERT`.  `bc_block_write` enters its loop if the uninitialised local
`is_allowed` is false, and otherwise stops at the null `cache_entry`. -/
inductive Starts : CachePc → Prop where
  | read {r : ReadCall} (hsize : r.offset + r.size ≤ 512) : Starts (getLock (.read r))
  | write {w : WriteCall} (hsize : w.offset + w.buffer.length ≤ 512) :
      Starts (getLock (.write w))
  | writeAllowed : Starts crashed
  | readAhead {sector : Nat} (hsector : sector ≠ emptySector) :
      Starts (getLock (.readAhead sector))
  | flushAll : Starts (flushLock false)
  | daemonFlush : Starts (flushLock true)
  | remove (sector : Nat) : Starts (removeLock sector)

/-- A thread that is idle, or whose read has returned, starts a call. -/
def start (p q : CachePc) : Prop :=
  (p = idle ∨ ∃ r bytes, p = returned r bytes) ∧ Starts q

/-! ### Locks -/

/-- Whether a thread at this point holds `cache_lock`. -/
def holdsCacheLock : CachePc → Bool
  | hit _ _ | scan _ _ _ | pass _ _ _ | flushVictim _ _ _ | fetched _ _ _ | notFound _ _
  | retry _ | fill _ _ _ | filled _ _ | flushVisit _ _ | flushWrite _ _ _ | flushNext _ _
  | flushUnlock | panicked true _ | removeVisit _ _ | removed _ | removeUnlock => true
  | _ => false

/-- The entry whose `elock` a thread at this point holds. -/
def holdsElock : CachePc → Option (Fin 64)
  | pass _ _ i | flushVictim _ i _ | fetched _ i _ | notFound _ i | locked _ i _ | fill _ i _
  | filled _ i | release _ i | uncount _ i _ | writeFill _ i _ | writeClear _ i _ | copyIn _ i _
  | written _ i | refused _ i | flushWrite _ i _ | flushNext _ i | panicked _ i | removed i => some i
  | _ => none

/-- The locks a thread at this point holds. -/
def holds (p : CachePc) : CacheLock → Prop
  | .cacheLock => p.holdsCacheLock = true
  | .elock i => p.holdsElock = some i

/-- A point with both locks. -/
theorem holds_both {p : CachePc} {i : Fin 64} (hc : p.holdsCacheLock = true)
    (he : p.holdsElock = some i) (k : CacheLock) :
    p.holds k ↔ k = .cacheLock ∨ k = .elock i := by
  cases k <;> simp [holds, hc, he, eq_comm]

/-- A point with the lock of an entry only. -/
theorem holds_entry {p : CachePc} {i : Fin 64} (hc : p.holdsCacheLock = false)
    (he : p.holdsElock = some i) (k : CacheLock) : p.holds k ↔ k = .elock i := by
  cases k <;> simp [holds, hc, he, eq_comm]

/-- A point with `cache_lock` only. -/
theorem holds_cache {p : CachePc} (hc : p.holdsCacheLock = true) (he : p.holdsElock = none)
    (k : CacheLock) : p.holds k ↔ k = .cacheLock := by
  cases k <;> simp [holds, hc, he]

/-- A point without locks. -/
theorem holds_none {p : CachePc} (hc : p.holdsCacheLock = false) (he : p.holdsElock = none)
    (k : CacheLock) : ¬ p.holds k := by
  cases k <;> simp [holds, hc, he]

theorem holds_visit (call : Fetch) (round : Nat) (i : Fin 64) (s : SharedCache) (k : CacheLock) :
    (visit call round i s).2.holds k ↔ k = .cacheLock ∨ k = .elock i := by
  apply holds_both <;> unfold visit <;> split
  all_goals first | rfl | (split <;> first | rfl | (split <;> rfl))

theorem holds_checkReaders (w : WriteCall) (i : Fin 64) (s : SharedCache) (k : CacheLock) :
    (checkReaders w i s).2.holds k ↔ k = .elock i := by
  apply holds_entry <;> unfold checkReaders <;> split <;> rfl

theorem holds_use (i : Fin 64) (isCacheMiss : Bool) (s : SharedCache) (call : Fetch)
    (k : CacheLock) : (use i isCacheMiss s call).2.holds k ↔ k = .elock i := by
  cases call with
  | write w =>
    cases isCacheMiss with
    | true =>
      apply holds_entry <;> simp only [use, if_true] <;> split
      all_goals first | rfl | (split <;> rfl)
    | false => exact holds_checkReaders w i s k
  | read r => exact holds_entry rfl rfl k
  | readAhead sector => exact holds_entry rfl rfl k

/-- Every instruction of the cache takes and gives back the locks that the program counters say. -/
theorem program_typed (p : CachePc) : (program p).Typed holds p := by
  cases p with
  | idle => trivial
  | returned _ _ => trivial
  | crashed => trivial
  | panicked _ _ => trivial
  | getLock call =>
    refine ⟨nofun, fun s k => ?_⟩
    dsimp only
    split <;> cases k <;> simp [holds, holdsCacheLock, holdsElock]
  | hit call i =>
    refine ⟨nofun, fun s k => ?_⟩
    dsimp only
    split <;> cases k <;> simp [holds, holdsCacheLock, holdsElock, eq_comm]
  | scan call round i =>
    have hvisit : ∀ s k, (visit call round i s).2.holds k ↔
        (scan call round i).holds k ∨ k = .elock i := fun s k => by
      rw [holds_visit, holds_cache rfl rfl]
    rw [program]
    split
    · exact ⟨nofun, hvisit⟩
    · refine ⟨nofun, hvisit, fun k => ?_⟩
      unfold advance
      split <;> rfl
  | pass call round i =>
    refine ⟨rfl, fun s k => ?_⟩
    dsimp only
    unfold advance
    split <;> cases k <;> simp [holds, holdsCacheLock, holdsElock, eq_comm]
  | flushVictim call i k =>
    intro s l
    dsimp only
    split <;> rfl
  | fetched call i isCacheMiss =>
    refine ⟨rfl, fun s k => ?_⟩
    dsimp only
    rw [holds_use, holds_both rfl rfl]
    cases k <;> simp
  | notFound call i =>
    refine ⟨rfl, fun s k => ?_⟩
    cases k <;> simp [holds, holdsCacheLock, holdsElock, eq_comm]
  | retry call =>
    refine ⟨rfl, fun s k => ?_⟩
    cases k <;> simp [holds, holdsCacheLock, holdsElock]
  | locked call i isCacheMiss =>
    refine ⟨nofun, fun s k => ?_⟩
    dsimp only
    split
    · split <;> cases k <;> simp [holds, holdsCacheLock, holdsElock]
    · cases k <;> simp [holds, holdsCacheLock, holdsElock]
  | fill call i k =>
    intro s l
    dsimp only
    split <;> rfl
  | filled call i =>
    refine ⟨rfl, fun s k => ?_⟩
    cases k <;> simp [holds, holdsCacheLock, holdsElock]
  | release call i =>
    refine ⟨rfl, fun s k => ?_⟩
    dsimp only
    split <;> cases k <;> simp [holds, holdsCacheLock, holdsElock, eq_comm]
  | copyOut r i bytes =>
    rw [program]
    split
    · intro s k
      rfl
    · refine ⟨nofun, fun s k => ?_⟩
      cases k <;> simp [holds, holdsCacheLock, holdsElock, eq_comm]
  | uncount r i bytes =>
    refine ⟨rfl, fun s k => ?_⟩
    cases k <;> simp [holds, holdsCacheLock, holdsElock, eq_comm]
  | writeFill w i k =>
    intro s l
    dsimp only
    split
    · rfl
    · rw [holds_checkReaders, holds_entry rfl rfl]
  | writeClear w i k =>
    intro s l
    dsimp only
    split
    · rfl
    · rw [holds_checkReaders, holds_entry rfl rfl]
  | copyIn w i k =>
    intro s l
    dsimp only
    split <;> rfl
  | written w i =>
    refine ⟨rfl, fun s k => ?_⟩
    cases k <;> simp [holds, holdsCacheLock, holdsElock, eq_comm]
  | refused w i =>
    refine ⟨rfl, fun s k => ?_⟩
    cases k <;> simp [holds, holdsCacheLock, holdsElock, eq_comm]
  | flushLock daemon =>
    refine ⟨nofun, fun s k => ?_⟩
    cases k <;> simp [holds, holdsCacheLock, holdsElock]
  | flushVisit daemon i =>
    refine ⟨nofun, fun s k => ?_⟩
    dsimp only
    split
    · split <;> cases k <;> simp [holds, holdsCacheLock, holdsElock, eq_comm]
    · cases k <;> simp [holds, holdsCacheLock, holdsElock, eq_comm]
  | flushWrite daemon i k =>
    intro s l
    dsimp only
    split <;> rfl
  | flushNext daemon i =>
    refine ⟨rfl, fun s k => ?_⟩
    dsimp only
    split <;> cases k <;> simp [holds, holdsCacheLock, holdsElock, eq_comm]
  | flushUnlock =>
    refine ⟨rfl, fun s k => ?_⟩
    cases k <;> simp [holds, holdsCacheLock, holdsElock]
  | removeLock sector =>
    refine ⟨nofun, fun s k => ?_⟩
    dsimp only
    split <;> cases k <;> simp [holds, holdsCacheLock, holdsElock]
  | removeVisit sector i =>
    refine ⟨nofun, fun s k => ?_⟩
    dsimp only
    split <;> cases k <;> simp [holds, holdsCacheLock, holdsElock, eq_comm]
  | removed i =>
    refine ⟨rfl, fun s k => ?_⟩
    cases k <;> simp [holds, holdsCacheLock, holdsElock, eq_comm]
  | removeUnlock =>
    refine ⟨rfl, fun s k => ?_⟩
    cases k <;> simp [holds, holdsCacheLock, holdsElock]

theorem typed : LockProgram.Typed program start holds where
  instr := program_typed
  start := by
    rintro p q ⟨hidle, hstarts⟩ k
    have hq : ¬ q.holds k := by cases hstarts <;> exact holds_none rfl rfl k
    have hp : ¬ p.holds k := by
      rcases hidle with rfl | ⟨r, bytes, rfl⟩ <;> exact holds_none rfl rfl k
    exact iff_of_false hq hp

end CachePc

abbrev CacheConfig (T : Type) := LockProgram.Config T CacheLock SharedCache CachePc

/-- The state after `bc_init`, with every thread idle. -/
def CacheConfig.initial {T : Type} (memory : Fin 64 → SectorData) (fsDevice : Block) :
    CacheConfig T where
  shared := { bcInit memory fsDevice with completed := [] }
  holder _ := none
  pc _ := .idle

/-- Some thread takes a step in the code of the cache. -/
def CacheStep {T : Type} [DecidableEq T] (c c' : CacheConfig T) : Prop :=
  ∃ t, LockProgram.Step CachePc.program CachePc.start c t c'

end Pintos
