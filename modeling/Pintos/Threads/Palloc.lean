import Pintos.Devices.Block
import Pintos.Lib.Bitmap
import Pintos.Library.LockProgram
import Pintos.Library.Ownership
import Pintos.Vm.Pagedir

/-! The page allocator (`threads/palloc.c`) under threads that call it at any time.  A pool's lock
is held while a group is looked for and marked, bit by bit; a group that is freed is unmarked bit by
bit without the lock.  What lies in the pages is left out, and the bitmaps are not in the pages that
are handed out. -/

namespace Pintos

namespace Palloc

open LockProgram (Config Instr Step Reach Locked Typed)

/-- `kernel_pool` and `user_pool`. -/
inductive PoolId where
  | kernel
  | user
  deriving DecidableEq

/-- `struct pool`: where its bitmap lies, and its pages.  The bits are in the memory of the
threads. -/
structure Pool where
  usedMap : Nat
  base : Nat
  pageCnt : Nat

/-- `DIV_ROUND_UP`. -/
def divRoundUp (x step : Nat) : Nat := (x + step - 1) / step

/-- `bitmap_buf_size`. -/
def bitmapBufSize (bitCnt : Nat) : Nat := 8 + 4 * divRoundUp bitCnt 32

/-- `init_pool`. -/
def initPool (base pageCnt : Nat) : Except Fault Pool :=
  let bmPages := divRoundUp (bitmapBufSize pageCnt) pgSize
  if pageCnt < bmPages then throw (.panic "Not enough memory in %s for bitmap.")
  else if bitmapBufSize (pageCnt - bmPages) ≤ bmPages * pgSize then
    pure ⟨base, base + bmPages * pgSize, pageCnt - bmPages⟩
  else throw (.assertion "block_size >= bitmap_buf_size (bit_cnt)")

/-- `ptov`. -/
def ptov (paddr : Nat) : Nat := paddr + physBase

/-- `palloc_init`.  The start code has found from 256 to 16384 pages of memory, so nothing wraps
around. -/
def pallocInit (initRamPages userPageLimit : Nat) : Except Fault (PoolId → Pool) := do
  let freeStart := ptov (1024 * 1024)
  let freeEnd := ptov (initRamPages * pgSize)
  let freePages := (freeEnd - freeStart) / pgSize
  let userPages := min (freePages / 2) userPageLimit
  let kernelPages := freePages - userPages
  let kernelPool ← initPool freeStart kernelPages
  let userPool ← initPool (freeStart + kernelPages * pgSize) userPages
  pure fun
    | .kernel => kernelPool
    | .user => userPool

/-- The arguments of `palloc_get_multiple`, with the flags. -/
structure Request where
  user : Bool
  assert : Bool
  pageCnt : Nat
  deriving DecidableEq

/-- The pool that the flags ask for. -/
def poolId (user : Bool) : PoolId := if user then .user else .kernel

def Request.pool (r : Request) : PoolId := poolId r.user

/-- A group that `palloc_get_multiple` has returned, with the flag that it was asked for. -/
structure Group where
  user : Bool
  pages : Nat
  pageCnt : Nat
  deriving DecidableEq

/-- The bitmaps, and the groups that are with their callers. -/
structure Memory where
  usedMap : PoolId → Bitmap
  live : List Group

/-- Where a thread is in `palloc_get_multiple` and `palloc_free_multiple`. -/
inductive Pc where
  | idle
  | get (r : Request)
  | scan (r : Request) (i k : Nat)
  | flip (r : Request) (pageIdx k : Nat)
  | release (r : Request) (pageIdx : Option Nat)
  | got (r : Request) (pageIdx : Option Nat)
  | free (g : Group)
  | check (p : PoolId) (pageIdx pageCnt k : Nat)
  | clear (p : PoolId) (pageIdx pageCnt k : Nat)
  | faulted (fault : Fault) (pc : Pc)
  deriving DecidableEq

/-! ### Bits -/

/-- `bitmap_test`. -/
def bitmapTest (b : Bitmap) (idx : Nat) : Except Fault Bool :=
  if idx < b.bitCnt then pure (b.bits idx) else throw (.assertion "idx < b->bit_cnt")

/-- `bitmap_set` in the bitmap of a pool. -/
def bitmapSet (s : Memory) (p : PoolId) (idx : Nat) (value : Bool) : Except Fault Memory :=
  let b := s.usedMap p
  if idx < b.bitCnt then
    pure { s with
      usedMap := Function.update s.usedMap p { b with bits := Function.update b.bits idx value } }
  else throw (.assertion "idx < b->bit_cnt")

/-- The assertions on a range of bits in `bitmap_contains` and `bitmap_set_multiple`. -/
def checkRange (b : Bitmap) (start cnt : Nat) : Except Fault Unit :=
  if b.bitCnt < start then throw (.assertion "start <= b->bit_cnt")
  else if b.bitCnt < start + cnt then throw (.assertion "start + cnt <= b->bit_cnt")
  else pure ()

/-! ### The calls -/

/-- `bitmap_scan` has got to start `i`, and `bitmap_contains` to bit `k` of the range there. -/
def scanStep (r : Request) (i k : Nat) (s : Memory) : Except Fault (Memory × Pc) := do
  let b := s.usedMap r.pool
  if b.bitCnt - r.pageCnt < i then pure (s, .release r none)
  else
    checkRange b i r.pageCnt
    if k < r.pageCnt then
      let used ← bitmapTest b (i + k)
      pure (s, if used then .scan r (i + 1) 0 else .scan r i (k + 1))
    else pure (s, .flip r i 0)

/-- `bitmap_set_multiple` in `bitmap_scan_and_flip` has got to bit `k`. -/
def flipStep (r : Request) (pageIdx k : Nat) (s : Memory) : Except Fault (Memory × Pc) := do
  checkRange (s.usedMap r.pool) pageIdx r.pageCnt
  if k < r.pageCnt then
    let s' ← bitmapSet s r.pool (pageIdx + k) true
    pure (s', .flip r pageIdx (k + 1))
  else pure (s, .release r (some pageIdx))

section

variable (pools : PoolId → Pool)

/-- The end of `palloc_get_multiple`. -/
def gotStep (r : Request) (pageIdx : Option Nat) (s : Memory) : Except Fault (Memory × Pc) :=
  let pages := match pageIdx with
    | some pageIdx => (pools r.pool).base + pgSize * pageIdx
    | none => 0
  if pages ≠ 0 then pure ({ s with live := ⟨r.user, pages, r.pageCnt⟩ :: s.live }, .idle)
  else if r.assert then throw (.panic "palloc_get: out of pages")
  else pure (s, .idle)

/-- `page_from_pool`. -/
def pageFromPool (s : Memory) (p : PoolId) (page : Nat) : Bool :=
  let startPage := (pools p).base / pgSize
  startPage ≤ page / pgSize && page / pgSize < startPage + (s.usedMap p).bitCnt

/-- The beginning of `palloc_free_multiple`. -/
def freeStep (g : Group) (s : Memory) : Except Fault (Memory × Pc) :=
  if g.pages % pgSize ≠ 0 then throw (.assertion "pg_ofs (pages) == 0")
  else if g.pages = 0 ∨ g.pageCnt = 0 then pure (s, .idle)
  else if pageFromPool pools s .kernel g.pages then
    pure (s, .check .kernel (g.pages / pgSize - (pools .kernel).base / pgSize) g.pageCnt 0)
  else if pageFromPool pools s .user g.pages then
    pure (s, .check .user (g.pages / pgSize - (pools .user).base / pgSize) g.pageCnt 0)
  else throw (.assertion "NOT_REACHED ()")

end

/-- `bitmap_all` in `palloc_free_multiple` has got to bit `k`. -/
def checkStep (p : PoolId) (pageIdx pageCnt k : Nat) (s : Memory) :
    Except Fault (Memory × Pc) := do
  let b := s.usedMap p
  checkRange b pageIdx pageCnt
  if k < pageCnt then
    let used ← bitmapTest b (pageIdx + k)
    if used then pure (s, .check p pageIdx pageCnt (k + 1))
    else throw (.assertion "bitmap_all (pool->used_map, page_idx, page_cnt)")
  else pure (s, .clear p pageIdx pageCnt 0)

/-- `bitmap_set_multiple` in `palloc_free_multiple` has got to bit `k`. -/
def clearStep (p : PoolId) (pageIdx pageCnt k : Nat) (s : Memory) :
    Except Fault (Memory × Pc) := do
  checkRange (s.usedMap p) pageIdx pageCnt
  if k < pageCnt then
    let s' ← bitmapSet s p (pageIdx + k) false
    pure (s', .clear p pageIdx pageCnt (k + 1))
  else pure (s, .idle)

namespace Pc

/-- A step that may fail. -/
def attempt (pc : Pc) (next : Memory → Except Fault (Memory × Pc)) (s : Memory) : Memory × Pc :=
  match next s with
  | .ok r => r
  | .error fault => (s, faulted fault pc)

/-- The next instruction.  A call of `palloc_free_multiple` takes its group from the live ones;
where there is no such group, there is no call. -/
def program (pools : PoolId → Pool) : Pc → Instr PoolId Memory Pc
  | idle | faulted _ _ => .halt
  | get r =>
    if r.pageCnt = 0 then .run fun s => (s, idle)
    else .acquire r.pool fun s =>
      (s, if r.pageCnt ≤ (s.usedMap r.pool).bitCnt then scan r 0 0 else release r none)
  | scan r i k => .run (attempt (scan r i k) (scanStep r i k))
  | flip r pageIdx k => .run (attempt (flip r pageIdx k) (flipStep r pageIdx k))
  | release r pageIdx => .release r.pool fun s => (s, got r pageIdx)
  | got r pageIdx => .run (attempt (got r pageIdx) (gotStep pools r pageIdx))
  | free g => .run fun s =>
    if g ∈ s.live then
      attempt (free g) (freeStep pools g) { s with live := s.live.erase g }
    else (s, idle)
  | check p pageIdx pageCnt k =>
    .run (attempt (check p pageIdx pageCnt k) (checkStep p pageIdx pageCnt k))
  | clear p pageIdx pageCnt k =>
    .run (attempt (clear p pageIdx pageCnt k) (clearStep p pageIdx pageCnt k))

/-- A thread that is in no call may make one. -/
def starts : Pc → Pc → Bool
  | idle, get _ | idle, free _ => true
  | _, _ => false

def start (p q : Pc) : Prop := starts p q = true

instance : DecidableRel start := fun _ _ => inferInstanceAs (Decidable (_ = true))

/-- The locks that a thread holds. -/
def holds : Pc → PoolId → Prop
  | scan r _ _, p | flip r _ _, p | release r _, p => p = r.pool
  | faulted _ pc, p => pc.holds p
  | _, _ => False

end Pc

/-- After `palloc_init`: no page is marked, and no thread is in a call. -/
def initial {T : Type} (pools : PoolId → Pool) : Config T PoolId Memory Pc where
  shared := ⟨fun p => Bitmap.ofAll (pools p).pageCnt false, []⟩
  holder _ := none
  pc _ := .idle

end Palloc

end Pintos
