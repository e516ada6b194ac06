import Mathlib.Data.List.Nodup
import Mathlib.Data.List.Perm.Subperm
import Pintos.Library.Weakest
import Pintos.Vm.Pagedir

/-! The block allocator (`threads/malloc.c`).  Blocks of one size form arenas of a page each and share
a free list; larger blocks are arenas of several pages.  The page allocator is a parameter of every
call: the page group that it hands out. -/

namespace Pintos

namespace Malloc

/-- `struct desc`, without its free list. -/
structure Desc where
  blockSize : Nat
  blocksPerArena : Nat
  deriving DecidableEq

/-- `struct arena` with a valid magic number; `desc` is an index into `descs`. -/
structure Arena where
  desc : Option Nat
  freeCnt : Nat
  deriving DecidableEq

/-- `sizeof (struct arena)`. -/
def arenaSize : Nat := 12

/-- The loop of `malloc_init` from `block_size` on, with `room` descriptors left. -/
def mallocInitLoop : (room blockSize : Nat) → Option (List Desc)
  | 0, blockSize => if blockSize < pgSize / 2 then none else some []
  | room + 1, blockSize =>
    if blockSize < pgSize / 2 then
      (mallocInitLoop room (blockSize * 2)).map
        (⟨blockSize, (pgSize - arenaSize) / blockSize⟩ :: ·)
    else some []

/-- `malloc_init`, with room for ten descriptors. -/
def mallocInit : Option (List Desc) := mallocInitLoop 10 16

def descs : List Desc := mallocInit.getD []

def desc (i : Nat) : Desc := descs.getD i ⟨0, 0⟩

/-- `arena` has the headers of the arenas, by the address of their first page; `live` has the blocks
that are allocated, with the sizes that were asked for. -/
structure Heap where
  arena : Nat → Option Arena
  freeList : Nat → List Nat
  live : List (Nat × Nat)

abbrev HeapRoutine := Routine Fault Heap

namespace Heap

def setArena (w : Heap) (a : Nat) (arena : Option Arena) : Heap :=
  { w with arena := Function.update w.arena a arena }

def setFreeList (w : Heap) (i : Nat) (blocks : List Nat) : Heap :=
  { w with freeList := Function.update w.freeList i blocks }

def allocated (w : Heap) (b size : Nat) : Heap := { w with live := (b, size) :: w.live }

def freed (w : Heap) (b : Nat) : Heap := { w with live := w.live.filter fun e => e.1 ≠ b }

def init : Heap := ⟨fun _ => none, fun _ => [], []⟩

end Heap

/-- `block_to_arena`. -/
def blockToArena (b : Nat) : HeapRoutine (Nat × Arena) := do
  let a := pgRoundDown b
  if a = 0 then throw (.assertion "a != NULL")
  else
    match (← get).arena a with
    | none => throw (.assertion "a->magic == ARENA_MAGIC")
    | some arena =>
      match arena.desc with
      | some i =>
        if ((b % pgSize + 2 ^ 32 - arenaSize) % 2 ^ 32) % (desc i).blockSize = 0 then
          pure (a, arena)
        else throw (.assertion "(pg_ofs (b) - sizeof *a) % a->desc->block_size == 0")
      | none =>
        if b % pgSize = arenaSize then pure (a, arena)
        else throw (.assertion "pg_ofs (b) == sizeof *a")

/-- `arena_to_block`. -/
def arenaToBlock (a idx : Nat) : HeapRoutine Nat := do
  if a = 0 then throw (.assertion "a != NULL")
  else
    match (← get).arena a with
    | none => throw (.assertion "a->magic == ARENA_MAGIC")
    | some arena =>
      match arena.desc with
      | none => throw (.undefined "a->desc->blocks_per_arena")
      | some i =>
        if idx < (desc i).blocksPerArena then pure (a + arenaSize + idx * (desc i).blockSize)
        else throw (.assertion "idx < a->desc->blocks_per_arena")

/-- The number of pages for a block that is too big for any descriptor, in the arithmetic of
`size_t`. -/
def bigPages (size : Nat) : Nat :=
  ((size + arenaSize) % 2 ^ 32 + pgSize - 1) % 2 ^ 32 / pgSize

/-- The loop of `malloc` that adds the blocks of a new arena to the free list. -/
def addBlocks (i a : Nat) (idxs : List Nat) : HeapRoutine Unit :=
  idxs.forM fun idx => do
    let b ← arenaToBlock a idx
    modify fun w => w.setFreeList i (w.freeList i ++ [b])

/-- If the free list is empty, a new arena is made, if there is a page for it. -/
def refill (i : Nat) (page : Option Nat) : HeapRoutine Bool := do
  let w ← get
  if w.freeList i = [] then
    match page with
    | none => pure false
    | some a => do
      set (w.setArena a (some ⟨some i, (desc i).blocksPerArena⟩))
      addBlocks i a (List.range (desc i).blocksPerArena)
      pure true
  else pure true

/-- The first block of the free list is allocated. -/
def takeBlock (i size : Nat) : HeapRoutine (Option Nat) := do
  let w ← get
  match w.freeList i with
  | [] => throw (.undefined "list_pop_front")
  | b :: bs => do
    set (w.setFreeList i bs)
    let (a, arena) ← blockToArena b
    modify fun w =>
      (w.setArena a (some { arena with freeCnt := arena.freeCnt - 1 })).allocated b size
    pure (some b)

/-- `malloc`, where `palloc_get_page` and `palloc_get_multiple` return `page`. -/
def malloc (size : Nat) (page : Option Nat) : HeapRoutine (Option Nat) := do
  if size = 0 then pure none
  else
    match descs.findIdx? fun d => size ≤ d.blockSize with
    | none =>
      match page with
      | none => pure none
      | some a => do
        modify fun w =>
          (w.setArena a (some ⟨none, bigPages size⟩)).allocated (a + arenaSize) size
        pure (some (a + arenaSize))
    | some i => do
      if ← refill i page then takeBlock i size else pure none

/-- The loop of `free` that takes the blocks of an arena off the free list. -/
def removeBlocks (i a : Nat) (idxs : List Nat) : HeapRoutine Unit :=
  idxs.forM fun idx => do
    let b ← arenaToBlock a idx
    let w ← get
    if b ∈ w.freeList i then set (w.setFreeList i ((w.freeList i).erase b))
    else throw (.undefined "list_remove")

/-- `free`, without the bytes of the block. -/
def free : Option Nat → HeapRoutine Unit
  | none => pure ()
  | some b => do
    let (a, arena) ← blockToArena b
    match arena.desc with
    | some i => do
      modify fun w => ((w.setFreeList i (b :: w.freeList i)).setArena a
        (some { arena with freeCnt := arena.freeCnt + 1 })).freed b
      if (desc i).blocksPerArena ≤ arena.freeCnt + 1 then
        if arena.freeCnt + 1 = (desc i).blocksPerArena then do
          removeBlocks i a (List.range (desc i).blocksPerArena)
          modify fun w => w.setArena a none
        else throw (.assertion "a->free_cnt == d->blocks_per_arena")
      else pure ()
    | none => modify fun w => (w.setArena a none).freed b

/-- A call, with the page group that the page allocator has for it. -/
inductive HeapOp where
  | malloc (size : Nat) (page : Option Nat)
  | free (p : Option Nat)

def HeapOp.exec : HeapOp → HeapRoutine (Option Nat)
  | .malloc size page => Malloc.malloc size page
  | .free p => do
    Malloc.free p
    pure none

/-! ### Blocks and arenas -/

variable {w v : Heap} {a b i k n idx size : Nat} {arena : Arena} {page : Option Nat}

/-- Block `idx` of an arena. -/
def blockAt (i a idx : Nat) : Nat := a + arenaSize + idx * (desc i).blockSize

/-- The pages of an arena. -/
def Arena.pages (arena : Arena) : Nat := if arena.desc = none then arena.freeCnt else 1

/-- The page is an arena of descriptor `i`. -/
def HasDesc (w : Heap) (a i : Nat) : Prop := ∃ k, w.arena a = some ⟨some i, k⟩

/-- A block of an arena of descriptor `i`. -/
def IsBlock (w : Heap) (i b : Nat) : Prop :=
  ∃ a idx, HasDesc w a i ∧ idx < (desc i).blocksPerArena ∧ b = blockAt i a idx

theorem descs_fit : ∀ d ∈ descs, 0 < d.blockSize ∧ 1 < d.blocksPerArena ∧
    d.blocksPerArena * d.blockSize + arenaSize ≤ pgSize := by
  decide

theorem desc_mem (h : idx < (desc i).blocksPerArena) : desc i ∈ descs := by
  rw [desc, List.getD_eq_getElem?_getD] at h ⊢
  cases hi : descs[i]? with
  | none =>
    rw [hi] at h
    exact absurd h (Nat.not_lt_zero idx)
  | some d => exact List.mem_of_getElem? hi

/-- A block lies in the page of its arena, behind the header. -/
theorem blockAt_bounds (h : idx < (desc i).blocksPerArena) (a : Nat) :
    a + arenaSize ≤ blockAt i a idx ∧
      blockAt i a idx + (desc i).blockSize ≤ a + pgSize ∧ 0 < (desc i).blockSize := by
  obtain ⟨hpos, -, hfit⟩ := descs_fit _ (desc_mem h)
  have hle := Nat.mul_le_mul_right (desc i).blockSize (Nat.succ_le_of_lt h)
  rw [Nat.succ_mul] at hle
  unfold blockAt
  omega

theorem pgRoundDown_eq (ha : a % pgSize = 0) (hle : a ≤ b) (hlt : b < a + pgSize) :
    pgRoundDown b = a := by
  unfold pgRoundDown pgSize at *
  omega

theorem pgRoundDown_blockAt (h : idx < (desc i).blocksPerArena) (ha : a % pgSize = 0) :
    pgRoundDown (blockAt i a idx) = a := by
  have hbounds := blockAt_bounds h a
  exact pgRoundDown_eq ha (by omega) (by omega)

theorem blockAt_inj {idx' : Nat} (h : idx < (desc i).blocksPerArena)
    (heq : blockAt i a idx = blockAt i a idx') : idx = idx' := by
  obtain ⟨hpos, -, -⟩ := descs_fit _ (desc_mem h)
  exact Nat.eq_of_mul_eq_mul_right hpos (Nat.add_left_cancel heq)

/-- Two blocks of one arena do not overlap. -/
theorem blockAt_apart {idx' : Nat} (hne : idx ≠ idx') :
    blockAt i a idx + (desc i).blockSize ≤ blockAt i a idx' ∨
      blockAt i a idx' + (desc i).blockSize ≤ blockAt i a idx := by
  have hlt : ∀ {j j'}, j < j' → blockAt i a j + (desc i).blockSize ≤ blockAt i a j' := by
    intro j j' hj
    have hle := Nat.mul_le_mul_right (desc i).blockSize (Nat.succ_le_of_lt hj)
    rw [Nat.succ_mul] at hle
    unfold blockAt
    omega
  rcases Nat.lt_or_gt_of_ne hne with hlt' | hlt'
  · exact .inl (hlt hlt')
  · exact .inr (hlt hlt')

/-! ### The invariant -/

/-- A block that is allocated for `size` bytes. -/
def IsLive (w : Heap) (b size : Nat) : Prop :=
  (∃ a n, w.arena a = some ⟨none, n⟩ ∧ b = a + arenaSize ∧ size + arenaSize ≤ n * pgSize) ∨
    ∃ i, IsBlock w i b ∧ b ∉ w.freeList i ∧ size ≤ (desc i).blockSize

/-- Two page groups do not overlap. -/
def Apart (a n a' n' : Nat) : Prop := a + n * pgSize ≤ a' ∨ a' + n' * pgSize ≤ a

structure Valid (w : Heap) : Prop where
  aligned : ∀ a arena, w.arena a = some arena → a ≠ 0 ∧ a % pgSize = 0 ∧ 0 < arena.pages
  apart : ∀ a arena a' arena', w.arena a = some arena → w.arena a' = some arena' → a ≠ a' →
    Apart a arena.pages a' arena'.pages
  counts : ∀ a i k, w.arena a = some ⟨some i, k⟩ →
    k = (w.freeList i).countP fun b => pgRoundDown b = a
  free : ∀ i, ∀ b ∈ w.freeList i, IsBlock w i b
  nodup : ∀ i, (w.freeList i).Nodup
  live : ∀ b size, (b, size) ∈ w.live → IsLive w b size
  distinct : (w.live.map Prod.fst).Nodup

/-- Every arena has a block that is allocated. -/
def Used (w : Heap) : Prop :=
  ∀ a i k, w.arena a = some ⟨some i, k⟩ → k < (desc i).blocksPerArena

theorem IsBlock.eq_blockAt (h : Valid w) (hb : IsBlock w i b) : ∃ idx,
    HasDesc w (pgRoundDown b) i ∧ idx < (desc i).blocksPerArena ∧
      b = blockAt i (pgRoundDown b) idx := by
  obtain ⟨a, idx, ⟨k, hk⟩, hidx, rfl⟩ := hb
  have ha := (h.aligned a _ hk).2.1
  rw [pgRoundDown_blockAt hidx ha]
  exact ⟨idx, ⟨k, hk⟩, hidx, rfl⟩

theorem IsBlock.mono (h : IsBlock w i b) (hdesc : ∀ a, HasDesc w a i → HasDesc v a i) :
    IsBlock v i b := by
  obtain ⟨a, idx, ha, hidx, hb⟩ := h
  exact ⟨a, idx, hdesc a ha, hidx, hb⟩

/-- `block_to_arena` of a block passes its assertions. -/
theorem blockToArena_block (ha : a ≠ 0) (halign : a % pgSize = 0)
    (harena : w.arena a = some ⟨some i, k⟩) (hidx : idx < (desc i).blocksPerArena) :
    blockToArena (blockAt i a idx) w = .ok ((a, ⟨some i, k⟩), w) := by
  have hbounds := blockAt_bounds hidx a
  have hround := pgRoundDown_blockAt hidx halign
  have hofs : (blockAt i a idx % pgSize + 2 ^ 32 - arenaSize) % 2 ^ 32 =
      idx * (desc i).blockSize := by
    have heq : blockAt i a idx = a + arenaSize + idx * (desc i).blockSize := rfl
    unfold pgSize arenaSize at *
    omega
  have hmod : ((blockAt i a idx % pgSize + 2 ^ 32 - arenaSize) % 2 ^ 32) % (desc i).blockSize = 0 := by
    rw [hofs]
    exact Nat.mul_mod_left idx _
  rw [blockToArena, hround, if_neg ha, Routine.get_bind_apply, harena]
  dsimp only
  rw [if_pos hmod]
  rfl

theorem blockToArena_big (h : Valid w) (harena : w.arena a = some ⟨none, n⟩) :
    blockToArena (a + arenaSize) w = .ok ((a, ⟨none, n⟩), w) := by
  obtain ⟨ha, halign, -⟩ := h.aligned a _ harena
  have hround : pgRoundDown (a + arenaSize) = a :=
    pgRoundDown_eq halign (Nat.le_add_right ..) (by unfold arenaSize pgSize; omega)
  have hofs : (a + arenaSize) % pgSize = arenaSize := by
    unfold arenaSize pgSize at *
    omega
  rw [blockToArena, hround, if_neg ha, Routine.get_bind_apply, harena]
  dsimp only
  rw [if_pos hofs]
  rfl

theorem arenaToBlock_eq (ha : a ≠ 0) (hdesc : HasDesc w a i)
    (hidx : idx < (desc i).blocksPerArena) : arenaToBlock a idx w = .ok (blockAt i a idx, w) := by
  obtain ⟨k, hk⟩ := hdesc
  rw [arenaToBlock, if_neg ha, Routine.get_bind_apply, hk]
  dsimp only
  rw [if_pos hidx]
  rfl

@[simp] theorem setFreeList_freeList (w : Heap) (i : Nat) (bs : List Nat) :
    (w.setFreeList i bs).freeList i = bs := Function.update_self ..

@[simp] theorem setFreeList_setFreeList (w : Heap) (i : Nat) (bs bs' : List Nat) :
    (w.setFreeList i bs).setFreeList i bs' = w.setFreeList i bs' := by
  simp [Heap.setFreeList]

@[simp] theorem setFreeList_self (w : Heap) (i : Nat) : w.setFreeList i (w.freeList i) = w := by
  simp [Heap.setFreeList]

/-- The loop over a new arena. -/
theorem addBlocks_eq (ha : a ≠ 0) {idxs : List Nat} (hdesc : HasDesc w a i)
    (hidxs : ∀ idx ∈ idxs, idx < (desc i).blocksPerArena) :
    addBlocks i a idxs w = .ok ((), w.setFreeList i (w.freeList i ++ idxs.map (blockAt i a))) := by
  induction idxs generalizing w with
  | nil =>
    rw [List.map_nil, List.append_nil, setFreeList_self]
    rfl
  | cons idx idxs ih =>
    have hblock := arenaToBlock_eq ha hdesc (hidxs idx List.mem_cons_self)
    have hrest := ih (w := w.setFreeList i (w.freeList i ++ [blockAt i a idx])) hdesc
      fun j hj => hidxs j (List.mem_cons_of_mem _ hj)
    rw [setFreeList_freeList, setFreeList_setFreeList, List.append_assoc] at hrest
    have hfirst : (do
        let b ← arenaToBlock a idx
        modify fun w => w.setFreeList i (w.freeList i ++ [b]) : HeapRoutine PUnit) w =
          .ok (⟨⟩, w.setFreeList i (w.freeList i ++ [blockAt i a idx])) := Routine.bind_of_ok hblock _
    exact (Routine.bind_of_ok hfirst fun _ => addBlocks i a idxs).trans hrest

/-- The loop over an arena whose blocks are all free. -/
theorem removeBlocks_eq (ha : a ≠ 0) {idxs : List Nat} (hdesc : HasDesc w a i)
    (hidxs : ∀ idx ∈ idxs, idx < (desc i).blocksPerArena) (hnodup : idxs.Nodup)
    (hfree : ∀ idx ∈ idxs, blockAt i a idx ∈ w.freeList i) :
    removeBlocks i a idxs w =
      .ok ((), w.setFreeList i ((w.freeList i).diff (idxs.map (blockAt i a)))) := by
  induction idxs generalizing w with
  | nil =>
    rw [List.map_nil, List.diff_nil, setFreeList_self]
    rfl
  | cons idx idxs ih =>
    have hidx := hidxs idx List.mem_cons_self
    have hblock := arenaToBlock_eq ha hdesc hidx
    have hmem := hfree idx List.mem_cons_self
    obtain ⟨hnot, hnodup⟩ := List.nodup_cons.mp hnodup
    have hrest := ih (w := w.setFreeList i ((w.freeList i).erase (blockAt i a idx))) hdesc
      (fun j hj => hidxs j (List.mem_cons_of_mem _ hj)) hnodup fun j hj => by
        rw [setFreeList_freeList]
        refine (List.mem_erase_of_ne ?_).mpr (hfree j (List.mem_cons_of_mem _ hj))
        intro heq
        exact hnot (blockAt_inj hidx heq.symm ▸ hj)
    rw [setFreeList_freeList, setFreeList_setFreeList, ← List.diff_cons] at hrest
    have hfirst : (do
        let b ← arenaToBlock a idx
        let w ← get
        if b ∈ w.freeList i then set (w.setFreeList i ((w.freeList i).erase b))
        else throw (.undefined "list_remove") : HeapRoutine PUnit) w =
          .ok (⟨⟩, w.setFreeList i ((w.freeList i).erase (blockAt i a idx))) := by
      rw [Routine.bind_of_ok hblock, Routine.get_bind_apply, if_pos hmem]
      rfl
    exact (Routine.bind_of_ok hfirst fun _ => removeBlocks i a idxs).trans hrest

/-! ### What the invariant says of blocks -/

theorem HasDesc.unique {j : Nat} (h : HasDesc w a i) (h' : HasDesc w a j) : i = j := by
  obtain ⟨k, hk⟩ := h
  obtain ⟨k', hk'⟩ := h'
  rw [hk] at hk'
  cases hk'
  rfl

theorem pgRoundDown_big (h : Valid w) (harena : w.arena a = some ⟨none, n⟩) :
    pgRoundDown (a + arenaSize) = a :=
  pgRoundDown_eq (h.aligned a _ harena).2.1 (Nat.le_add_right ..)
    (by unfold arenaSize pgSize; omega)

/-- A block on a free list is not allocated. -/
theorem Valid.not_live (h : Valid w) (hb : b ∈ w.freeList i) (size : Nat) :
    (b, size) ∉ w.live := by
  intro hlive
  obtain ⟨idx, hdesc, -, -⟩ := (h.free i b hb).eq_blockAt h
  rcases h.live b size hlive with ⟨a, n, harena, rfl, -⟩ | ⟨j, hblock, hnot, -⟩
  · obtain ⟨k, hk⟩ := hdesc
    rw [pgRoundDown_big h harena, harena] at hk
    nomatch hk
  · obtain ⟨idx', hdesc', -, -⟩ := hblock.eq_blockAt h
    rw [hdesc'.unique hdesc] at hnot
    exact hnot hb

/-- The blocks of an arena, in order. -/
def blocks (i a : Nat) : List Nat := (List.range (desc i).blocksPerArena).map (blockAt i a)

theorem mem_blocks : b ∈ blocks i a ↔ ∃ idx < (desc i).blocksPerArena, b = blockAt i a idx := by
  simp only [blocks, List.mem_map, List.mem_range, eq_comm]

theorem blocks_nodup (i a : Nat) : (blocks i a).Nodup := by
  refine List.Nodup.map_on (fun j hj j' _ heq => ?_) List.nodup_range
  exact blockAt_inj (List.mem_range.mp hj) heq

theorem length_blocks (i a : Nat) : (blocks i a).length = (desc i).blocksPerArena := by
  rw [blocks, List.length_map, List.length_range]

theorem pgRoundDown_blocks (ha : a % pgSize = 0) (hb : b ∈ blocks i a) : pgRoundDown b = a := by
  obtain ⟨idx, hidx, rfl⟩ := mem_blocks.mp hb
  exact pgRoundDown_blockAt hidx ha

/-- A block that lies in the page of an arena is one of its blocks. -/
theorem IsBlock.mem_blocks (h : Valid w) (hb : IsBlock w i b) :
    b ∈ blocks i (pgRoundDown b) := by
  obtain ⟨idx, -, hidx, heq⟩ := hb.eq_blockAt h
  exact Malloc.mem_blocks.mpr ⟨idx, hidx, heq⟩

/-! ### A new arena -/

/-- A page group as the page allocator hands it out: not empty, and apart from those in use. -/
def Handed (w : Heap) (a n : Nat) : Prop :=
  a ≠ 0 ∧ a % pgSize = 0 ∧ 0 < n ∧
    ∀ a' arena, w.arena a' = some arena → Apart a n a' arena.pages

theorem Handed.arena_eq_none (h : Handed w a n) (hvalid : Valid w) : w.arena a = none := by
  obtain ⟨-, -, hn, hapart⟩ := h
  by_contra hne
  obtain ⟨arena, harena⟩ := Option.ne_none_iff_exists'.mp hne
  have hpos := (hvalid.aligned a arena harena).2.2
  have hself := hapart a arena harena
  unfold Apart pgSize at hself
  omega

theorem Apart.symm {a' n' : Nat} (h : Apart a n a' n') : Apart a' n' a n := Or.symm h

section NewArena

variable (hvalid : Valid w) (hhanded : Handed w a arena.pages)

include hvalid hhanded

theorem setArena_aligned : ∀ a' arena', Function.update w.arena a (some arena) a' = some arena' →
    a' ≠ 0 ∧ a' % pgSize = 0 ∧ 0 < arena'.pages := by
  intro a' arena' h
  rw [Function.update_apply] at h
  split_ifs at h with ha
  · cases h
    rw [ha]
    exact ⟨hhanded.1, hhanded.2.1, hhanded.2.2.1⟩
  · exact hvalid.aligned a' arena' h

theorem setArena_apart : ∀ a1 arena1 a2 arena2,
    Function.update w.arena a (some arena) a1 = some arena1 →
    Function.update w.arena a (some arena) a2 = some arena2 → a1 ≠ a2 →
    Apart a1 arena1.pages a2 arena2.pages := by
  intro a1 arena1 a2 arena2 h1 h2 hne
  rw [Function.update_apply] at h1 h2
  split_ifs at h1 h2 with ha1 ha2 ha2
  · exact absurd (ha1.trans ha2.symm) hne
  · cases h1
    rw [ha1]
    exact hhanded.2.2.2 a2 arena2 h2
  · cases h2
    rw [ha2]
    exact (hhanded.2.2.2 a1 arena1 h1).symm
  · exact hvalid.apart a1 arena1 a2 arena2 h1 h2 hne

theorem setArena_old {a' : Nat} {arena' : Arena} (h : w.arena a' = some arena') :
    Function.update w.arena a (some arena) a' = some arena' := by
  rw [Function.update_of_ne]
  · exact h
  · rintro rfl
    rw [hhanded.arena_eq_none hvalid] at h
    nomatch h

end NewArena

/-- The heap with a new arena, whose blocks are all on the free list, which was empty. -/
theorem Valid.refilled (h : Valid w) (hnil : w.freeList i = []) (hhanded : Handed w a 1) :
    Valid ((w.setArena a (some ⟨some i, (desc i).blocksPerArena⟩)).setFreeList i (blocks i a)) := by
  have hpages : Handed w a (Arena.pages ⟨some i, (desc i).blocksPerArena⟩) := hhanded
  have halign := hhanded.2.1
  have hold : ∀ {a' arena'}, w.arena a' = some arena' → Function.update w.arena a
      (some ⟨some i, (desc i).blocksPerArena⟩) a' = some arena' := fun h' =>
    setArena_old h hpages h'
  have hdesc : ∀ j a', HasDesc w a' j → HasDesc ((w.setArena a
      (some ⟨some i, (desc i).blocksPerArena⟩)).setFreeList i (blocks i a)) a' j :=
    fun j a' ⟨k, hk⟩ => ⟨k, hold hk⟩
  have hnone := hhanded.arena_eq_none h
  refine ⟨setArena_aligned h hpages, setArena_apart h hpages, fun a' j k hk => ?_, fun j b hb => ?_,
    fun j => ?_, fun b size hlive => ?_, h.distinct⟩
  · replace hk : Function.update w.arena a _ a' = some ⟨some j, k⟩ := hk
    show k = (Function.update w.freeList i (blocks i a) j).countP fun b => pgRoundDown b = a'
    rw [Function.update_apply] at hk ⊢
    split_ifs at hk with ha
    · cases hk
      rw [if_pos rfl, ← length_blocks i a, eq_comm, List.countP_eq_length]
      intro b hb
      simpa [ha] using pgRoundDown_blocks halign hb
    · have hcount := h.counts a' j k hk
      split_ifs with hj
      · rw [hj, hnil, List.countP_nil] at hcount
        rw [hcount, eq_comm, List.countP_eq_zero]
        intro b hb
        simpa [pgRoundDown_blocks halign hb] using Ne.symm ha
      · exact hcount
  · replace hb : b ∈ Function.update w.freeList i (blocks i a) j := hb
    rw [Function.update_apply] at hb
    split_ifs at hb with hj
    · obtain ⟨idx, hidx, rfl⟩ := mem_blocks.mp hb
      rw [hj]
      exact ⟨a, idx, ⟨_, Function.update_self ..⟩, hidx, rfl⟩
    · exact (h.free j b hb).mono (hdesc j)
  · show (Function.update w.freeList i (blocks i a) j).Nodup
    rw [Function.update_apply]
    split_ifs
    · exact blocks_nodup i a
    · exact h.nodup j
  · rcases h.live b size hlive with ⟨a', n, harena, hb, hsize⟩ | ⟨j, hblock, hnot, hsize⟩
    · exact .inl ⟨a', n, hold harena, hb, hsize⟩
    · refine .inr ⟨j, hblock.mono (hdesc j), ?_, hsize⟩
      show b ∉ Function.update w.freeList i (blocks i a) j
      rw [Function.update_apply]
      split_ifs with hj
      · intro hb
        obtain ⟨-, ⟨k, hk⟩, -, -⟩ := hblock.eq_blockAt h
        rw [pgRoundDown_blocks halign hb, hnone] at hk
        nomatch hk
      · exact hnot

/-- A large block in an arena of its own. -/
theorem Valid.big (h : Valid w) (hhanded : Handed w a n) (hsize : size + arenaSize ≤ n * pgSize) :
    Valid ((w.setArena a (some ⟨none, n⟩)).allocated (a + arenaSize) size) := by
  have hpages : Handed w a (Arena.pages ⟨none, n⟩) := hhanded
  have hold : ∀ {a' arena'}, w.arena a' = some arena' →
      Function.update w.arena a (some ⟨none, n⟩) a' = some arena' := fun h' =>
    setArena_old h hpages h'
  have hdesc : ∀ j a', HasDesc w a' j →
      HasDesc ((w.setArena a (some ⟨none, n⟩)).allocated (a + arenaSize) size) a' j :=
    fun j a' ⟨k, hk⟩ => ⟨k, hold hk⟩
  have hnone := hhanded.arena_eq_none h
  have hround : pgRoundDown (a + arenaSize) = a :=
    pgRoundDown_eq hhanded.2.1 (Nat.le_add_right ..) (by unfold arenaSize pgSize; omega)
  have hself : Function.update w.arena a (some ⟨none, n⟩) a = some ⟨none, n⟩ :=
    Function.update_self ..
  refine ⟨setArena_aligned h hpages, setArena_apart h hpages, fun a' j k hk => ?_, fun j b hb =>
    (h.free j b hb).mono (hdesc j), h.nodup, fun b size' hlive => ?_, ?_⟩
  · replace hk : Function.update w.arena a _ a' = some ⟨some j, k⟩ := hk
    rw [Function.update_apply] at hk
    split_ifs at hk with ha
    · cases hk
    · exact h.counts a' j k hk
  · rcases List.mem_cons.mp hlive with heq | hlive
    · cases heq
      exact .inl ⟨a, n, hself, rfl, hsize⟩
    · rcases h.live b size' hlive with ⟨a', n', harena, hb, hsize'⟩ | ⟨j, hblock, hnot, hsize'⟩
      · exact .inl ⟨a', n', hold harena, hb, hsize'⟩
      · exact .inr ⟨j, hblock.mono (hdesc j), hnot, hsize'⟩
  · show ((a + arenaSize) :: w.live.map Prod.fst).Nodup
    rw [List.nodup_cons]
    refine ⟨fun hmem => ?_, h.distinct⟩
    obtain ⟨⟨b, size'⟩, hlive, hb⟩ := List.mem_map.mp hmem
    replace hb : b = a + arenaSize := hb
    rw [hb] at hlive
    rcases h.live _ size' hlive with ⟨a', n', harena, heq, -⟩ | ⟨j, hblock, -, -⟩
    · rw [Nat.add_right_cancel heq, harena] at hnone
      nomatch hnone
    · obtain ⟨-, ⟨k, hk⟩, -, -⟩ := hblock.eq_blockAt h
      rw [hround, hnone] at hk
      nomatch hk

/-! ### Blocks that are taken and given back -/

/-- The headers say the same but for the count of a page. -/
structure Recounted (w v : Heap) (a i k : Nat) : Prop where
  old : ∃ k', w.arena a = some ⟨some i, k'⟩
  new : v.arena a = some ⟨some i, k⟩
  others : ∀ a', a' ≠ a → v.arena a' = w.arena a'

theorem Recounted.back {a' : Nat} {arena' : Arena} (h : Recounted w v a i k)
    (harena : v.arena a' = some arena') :
    ∃ arena, w.arena a' = some arena ∧ arena.desc = arena'.desc ∧ arena.pages = arena'.pages := by
  by_cases ha : a' = a
  · subst ha
    obtain ⟨k', hk'⟩ := h.old
    rw [h.new] at harena
    cases harena
    exact ⟨_, hk', rfl, rfl⟩
  · rw [h.others a' ha] at harena
    exact ⟨arena', harena, rfl, rfl⟩

theorem Recounted.hasDesc {a' j : Nat} (h : Recounted w v a i k) (hdesc : HasDesc w a' j) :
    HasDesc v a' j := by
  by_cases ha : a' = a
  · subst ha
    rw [hdesc.unique h.old]
    exact ⟨k, h.new⟩
  · obtain ⟨k', hk'⟩ := hdesc
    exact ⟨k', (h.others a' ha).trans hk'⟩

theorem Recounted.big {a' : Nat} (h : Recounted w v a i k) (harena : w.arena a' = some ⟨none, n⟩) :
    v.arena a' = some ⟨none, n⟩ := by
  rw [h.others]
  · exact harena
  · rintro rfl
    obtain ⟨k', hk'⟩ := h.old
    rw [harena] at hk'
    nomatch hk'

theorem Recounted.aligned (h : Recounted w v a i k) (hvalid : Valid w) (a' : Nat) (arena' : Arena)
    (harena : v.arena a' = some arena') : a' ≠ 0 ∧ a' % pgSize = 0 ∧ 0 < arena'.pages := by
  obtain ⟨arena, hw, -, hpages⟩ := h.back harena
  rw [← hpages]
  exact hvalid.aligned a' arena hw

theorem Recounted.apart (h : Recounted w v a i k) (hvalid : Valid w) (a1 : Nat) (arena1 : Arena)
    (a2 : Nat) (arena2 : Arena) (h1 : v.arena a1 = some arena1) (h2 : v.arena a2 = some arena2)
    (hne : a1 ≠ a2) : Apart a1 arena1.pages a2 arena2.pages := by
  obtain ⟨arena1', hw1, -, hpages1⟩ := h.back h1
  obtain ⟨arena2', hw2, -, hpages2⟩ := h.back h2
  rw [← hpages1, ← hpages2]
  exact hvalid.apart a1 arena1' a2 arena2' hw1 hw2 hne

/-- The counts are right again when the free list has changed by the blocks of one page. -/
theorem Recounted.counts (h : Recounted w v a i k) (hvalid : Valid w) {bs : List Nat}
    (hlist : v.freeList = Function.update w.freeList i bs)
    (hself : k = bs.countP fun b => pgRoundDown b = a)
    (hothers : ∀ a', a' ≠ a → (bs.countP fun b => pgRoundDown b = a') =
      (w.freeList i).countP fun b => pgRoundDown b = a')
    (a' j k' : Nat) (hk : v.arena a' = some ⟨some j, k'⟩) :
    k' = (v.freeList j).countP fun b => pgRoundDown b = a' := by
  rw [hlist, Function.update_apply]
  by_cases ha : a' = a
  · subst ha
    rw [h.new] at hk
    cases hk
    rw [if_pos rfl]
    exact hself
  · have hcount := hvalid.counts a' j k' ((h.others a' ha).symm.trans hk)
    split_ifs with hj
    · rw [hothers a' ha, ← hj]
      exact hcount
    · exact hcount

/-- The first block of a free list is allocated. -/
theorem Valid.taken (h : Valid w) {bs : List Nat} (hlist : w.freeList i = b :: bs)
    (harena : w.arena (pgRoundDown b) = some ⟨some i, k⟩) (hsize : size ≤ (desc i).blockSize) :
    Valid (((w.setFreeList i bs).setArena (pgRoundDown b) (some ⟨some i, k - 1⟩)).allocated b size) := by
  generalize hv : ((w.setFreeList i bs).setArena (pgRoundDown b) (some ⟨some i, k - 1⟩)).allocated b
    size = v
  have hmem : b ∈ w.freeList i := hlist ▸ List.mem_cons_self
  have hrecounted : Recounted w v (pgRoundDown b) i (k - 1) := by
    rw [← hv]
    exact ⟨⟨k, harena⟩, Function.update_self .., fun a' ha => Function.update_of_ne ha ..⟩
  have hfree : v.freeList = Function.update w.freeList i bs := by rw [← hv]; rfl
  have hlive : v.live = (b, size) :: w.live := by rw [← hv]; rfl
  have hsub : ∀ j b', b' ∈ v.freeList j → b' ∈ w.freeList j := by
    intro j b' hb'
    rw [hfree, Function.update_apply] at hb'
    split_ifs at hb' with hj
    · rw [hj, hlist]
      exact List.mem_cons_of_mem _ hb'
    · exact hb'
  have hcount := h.counts _ i k harena
  have hnodup := h.nodup i
  rw [hlist, List.nodup_cons] at hnodup
  rw [hlist, List.countP_cons] at hcount
  refine ⟨hrecounted.aligned h, hrecounted.apart h, hrecounted.counts h hfree ?_ fun a' ha => ?_,
    fun j b' hb' => (h.free j b' (hsub j b' hb')).mono fun a' => hrecounted.hasDesc, fun j => ?_,
    fun b' size' hb' => ?_, ?_⟩
  · simp only [decide_true, if_true] at hcount
    omega
  · rw [hlist, List.countP_cons, if_neg]
    · rfl
    · simpa using Ne.symm ha
  · rw [hfree, Function.update_apply]
    split_ifs
    · exact hnodup.2
    · exact h.nodup j
  · rw [hlive] at hb'
    rcases List.mem_cons.mp hb' with heq | hb'
    · cases heq
      refine .inr ⟨i, (h.free i b hmem).mono fun a' => hrecounted.hasDesc, ?_, hsize⟩
      rw [hfree, Function.update_self]
      exact hnodup.1
    · rcases h.live b' size' hb' with ⟨a', n, hbig, hb, hsize'⟩ | ⟨j, hblock, hnot, hsize'⟩
      · exact .inl ⟨a', n, hrecounted.big hbig, hb, hsize'⟩
      · exact .inr ⟨j, hblock.mono fun a' => hrecounted.hasDesc,
          fun hmem => hnot (hsub j b' hmem), hsize'⟩
  · rw [hlive, List.map_cons, List.nodup_cons]
    refine ⟨fun hmem' => ?_, h.distinct⟩
    obtain ⟨⟨b', size'⟩, hb', rfl⟩ := List.mem_map.mp hmem'
    exact h.not_live hmem size' hb'

/-- A block of an arena with a descriptor is a block of that descriptor. -/
theorem Valid.live_block (h : Valid w) (hlive : (b, size) ∈ w.live)
    (harena : w.arena (pgRoundDown b) = some ⟨some i, k⟩) :
    IsBlock w i b ∧ b ∉ w.freeList i ∧ size ≤ (desc i).blockSize := by
  rcases h.live b size hlive with ⟨a, n, hbig, rfl, -⟩ | ⟨j, hblock, hnot, hsize⟩
  · rw [pgRoundDown_big h hbig, hbig] at harena
    nomatch harena
  · obtain ⟨idx, hdesc, -, -⟩ := hblock.eq_blockAt h
    obtain rfl := hdesc.unique ⟨k, harena⟩
    exact ⟨hblock, hnot, hsize⟩

theorem mem_freed {b' : Nat} : (b', size) ∈ (w.freed b).live ↔ (b', size) ∈ w.live ∧ b' ≠ b := by
  simp [Heap.freed]

theorem freed_distinct (h : (w.live.map Prod.fst).Nodup) (b : Nat) :
    ((w.freed b).live.map Prod.fst).Nodup :=
  h.sublist (List.filter_sublist.map Prod.fst)

/-- A block is given back to its free list. -/
theorem Valid.givenBack (h : Valid w) (hlive : (b, size) ∈ w.live)
    (harena : w.arena (pgRoundDown b) = some ⟨some i, k⟩) :
    Valid (((w.setFreeList i (b :: w.freeList i)).setArena (pgRoundDown b)
      (some ⟨some i, k + 1⟩)).freed b) := by
  generalize hv : ((w.setFreeList i (b :: w.freeList i)).setArena (pgRoundDown b)
    (some ⟨some i, k + 1⟩)).freed b = v
  obtain ⟨hblock, hnot, -⟩ := h.live_block hlive harena
  have hrecounted : Recounted w v (pgRoundDown b) i (k + 1) := by
    rw [← hv]
    exact ⟨⟨k, harena⟩, Function.update_self .., fun a' ha => Function.update_of_ne ha ..⟩
  have hfree : v.freeList = Function.update w.freeList i (b :: w.freeList i) := by rw [← hv]; rfl
  have hmem : ∀ b' size', (b', size') ∈ v.live ↔ (b', size') ∈ w.live ∧ b' ≠ b := by
    intro b' size'
    rw [← hv]
    exact mem_freed
  refine ⟨hrecounted.aligned h, hrecounted.apart h, hrecounted.counts h hfree ?_ fun a' ha => ?_,
    fun j b' hb' => ?_, fun j => ?_, fun b' size' hb' => ?_, ?_⟩
  · rw [List.countP_cons, if_pos (by simp), ← h.counts _ i k harena]
  · rw [List.countP_cons, if_neg]
    · rfl
    · simpa using Ne.symm ha
  · rw [hfree, Function.update_apply] at hb'
    have hold : IsBlock w j b' := by
      split_ifs at hb' with hj
      · rcases List.mem_cons.mp hb' with rfl | hb'
        · exact hj ▸ hblock
        · exact hj ▸ h.free i b' hb'
      · exact h.free j b' hb'
    exact hold.mono fun a' => hrecounted.hasDesc
  · rw [hfree, Function.update_apply]
    split_ifs
    · exact List.nodup_cons.mpr ⟨hnot, h.nodup i⟩
    · exact h.nodup j
  · obtain ⟨hb', hne⟩ := (hmem b' size').mp hb'
    rcases h.live b' size' hb' with ⟨a', n, hbig, hb, hsize'⟩ | ⟨j, hblock', hnot', hsize'⟩
    · exact .inl ⟨a', n, hrecounted.big hbig, hb, hsize'⟩
    · refine .inr ⟨j, hblock'.mono fun a' => hrecounted.hasDesc, ?_, hsize'⟩
      rw [hfree, Function.update_apply]
      split_ifs with hj
      · rw [List.mem_cons, not_or]
        exact ⟨hne, hj ▸ hnot'⟩
      · exact hnot'
  · rw [← hv]
    exact freed_distinct h.distinct b

/-- The free blocks of an arena are as many as it has blocks, at most, and then they are all. -/
theorem Valid.count_le (h : Valid w) (harena : w.arena a = some ⟨some i, k⟩) :
    k ≤ (desc i).blocksPerArena ∧
      (k = (desc i).blocksPerArena → ∀ b ∈ blocks i a, b ∈ w.freeList i) := by
  have hcount := h.counts a i k harena
  rw [List.countP_eq_length_filter] at hcount
  have hnodup := (h.nodup i).filter fun b => pgRoundDown b = a
  have hsub : (w.freeList i).filter (fun b => pgRoundDown b = a) ⊆ blocks i a := by
    intro b hb
    obtain ⟨hb, ha⟩ := List.mem_filter.mp hb
    rw [← of_decide_eq_true ha]
    exact (h.free i b hb).mem_blocks h
  have hperm := hnodup.subperm hsub
  refine ⟨?_, fun hk b hb => ?_⟩
  · rw [hcount, ← length_blocks i a]
    exact hperm.length_le
  · have hall := hperm.perm_of_length_le (by rw [length_blocks]; omega)
    exact List.mem_of_mem_filter (hall.mem_iff.mpr hb)

/-- An arena without allocated blocks goes back to the page allocator. -/
theorem Valid.emptied (h : Valid w) (harena : w.arena a = some ⟨some i, k⟩)
    (hall : ∀ b ∈ blocks i a, b ∈ w.freeList i) :
    Valid ((w.setFreeList i ((w.freeList i).diff (blocks i a))).setArena a none) := by
  generalize hv : (w.setFreeList i ((w.freeList i).diff (blocks i a))).setArena a none = v
  have halign := (h.aligned a _ harena).2.1
  have hback : ∀ {a' arena'}, v.arena a' = some arena' → a' ≠ a ∧ w.arena a' = some arena' := by
    intro a' arena' hk
    rw [← hv] at hk
    replace hk : Function.update w.arena a none a' = some arena' := hk
    rw [Function.update_apply] at hk
    split_ifs at hk with ha
    exact ⟨ha, hk⟩
  have hold : ∀ {a'}, a' ≠ a → v.arena a' = w.arena a' := by
    intro a' ha
    rw [← hv]
    exact Function.update_of_ne ha ..
  have hfree : v.freeList = Function.update w.freeList i ((w.freeList i).diff (blocks i a)) := by
    rw [← hv]
    rfl
  have hmem : ∀ j b, b ∈ v.freeList j ↔ b ∈ w.freeList j ∧ pgRoundDown b ≠ a := by
    intro j b
    rw [hfree, Function.update_apply]
    split_ifs with hj
    · subst hj
      rw [(h.nodup j).mem_sdiff_iff]
      refine and_congr_right fun hb => not_congr ⟨fun hmem => pgRoundDown_blocks halign hmem,
        fun ha => ?_⟩
      rw [← ha]
      exact (h.free j b hb).mem_blocks h
    · refine (and_iff_left_of_imp fun hb ha => ?_).symm
      obtain ⟨-, hdesc, -, -⟩ := (h.free j b hb).eq_blockAt h
      rw [ha] at hdesc
      exact hj (hdesc.unique ⟨k, harena⟩)
  have hblock : ∀ {j b}, IsBlock w j b → pgRoundDown b ≠ a → IsBlock v j b := by
    intro j b hb ha
    obtain ⟨idx, ⟨k', hk'⟩, hidx, heq⟩ := hb.eq_blockAt h
    exact ⟨pgRoundDown b, idx, ⟨k', (hold ha).trans hk'⟩, hidx, heq⟩
  refine ⟨fun a' arena' hk => h.aligned a' arena' (hback hk).2,
    fun a1 arena1 a2 arena2 h1 h2 => h.apart a1 arena1 a2 arena2 (hback h1).2 (hback h2).2,
    fun a' j k' hk => ?_, fun j b hb => ?_, fun j => ?_, fun b size hlive => ?_, ?_⟩
  · obtain ⟨ha, hk⟩ := hback hk
    rw [h.counts a' j k' hk, hfree, Function.update_apply]
    split_ifs with hj
    · rw [hj, (h.nodup i).sdiff_eq_filter, List.countP_filter]
      refine List.countP_congr fun b _ => ?_
      simp only [decide_eq_true_eq, Bool.and_eq_true]
      refine (and_iff_left_of_imp fun hb => ?_).symm
      intro hmem
      exact ha (hb.symm.trans (pgRoundDown_blocks halign hmem))
    · rfl
  · obtain ⟨hb, ha⟩ := (hmem j b).mp hb
    exact hblock (h.free j b hb) ha
  · rw [hfree, Function.update_apply]
    split_ifs
    · exact (h.nodup i).diff
    · exact h.nodup j
  · have hlive' : (b, size) ∈ w.live := by
      rw [← hv] at hlive
      exact hlive
    rcases h.live b size hlive' with ⟨a', n, hbig, hb, hsize⟩ | ⟨j, hb, hnot, hsize⟩
    · refine .inl ⟨a', n, (hold ?_).trans hbig, hb, hsize⟩
      rintro rfl
      rw [harena] at hbig
      nomatch hbig
    · refine .inr ⟨j, hblock hb fun ha => ?_, fun hmem' => hnot ((hmem j b).mp hmem').1, hsize⟩
      obtain ⟨-, hdesc, -, -⟩ := hb.eq_blockAt h
      have hb' := hb.mem_blocks h
      rw [ha] at hdesc hb'
      obtain rfl := hdesc.unique ⟨k, harena⟩
      exact hnot (hall b hb')
  · rw [← hv]
    exact h.distinct

/-- A large block goes back to the page allocator. -/
theorem Valid.freedBig (h : Valid w) (harena : w.arena a = some ⟨none, n⟩) :
    Valid ((w.setArena a none).freed (a + arenaSize)) := by
  generalize hv : (w.setArena a none).freed (a + arenaSize) = v
  have hback : ∀ {a' arena'}, v.arena a' = some arena' → a' ≠ a ∧ w.arena a' = some arena' := by
    intro a' arena' hk
    rw [← hv] at hk
    replace hk : Function.update w.arena a none a' = some arena' := hk
    rw [Function.update_apply] at hk
    split_ifs at hk with ha
    exact ⟨ha, hk⟩
  have hold : ∀ {a'}, a' ≠ a → v.arena a' = w.arena a' := by
    intro a' ha
    rw [← hv]
    exact Function.update_of_ne ha ..
  have hfree : v.freeList = w.freeList := by rw [← hv]; rfl
  have hblock : ∀ {j b}, IsBlock w j b → IsBlock v j b := by
    refine fun hb => hb.mono fun a' ⟨k, hk⟩ => ⟨k, (hold ?_).trans hk⟩
    rintro rfl
    rw [harena] at hk
    nomatch hk
  refine ⟨fun a' arena' hk => h.aligned a' arena' (hback hk).2,
    fun a1 arena1 a2 arena2 h1 h2 => h.apart a1 arena1 a2 arena2 (hback h1).2 (hback h2).2,
    fun a' j k' hk => ?_, fun j b hb => hblock (h.free j b (hfree ▸ hb)), ?_,
    fun b size hlive => ?_, ?_⟩
  · rw [hfree]
    exact h.counts a' j k' (hback hk).2
  · rw [hfree]
    exact h.nodup
  · have hlive' : (b, size) ∈ w.live ∧ b ≠ a + arenaSize := by
      rw [← hv] at hlive
      exact mem_freed.mp hlive
    rcases h.live b size hlive'.1 with ⟨a', n', hbig, hb, hsize⟩ | ⟨j, hb, hnot, hsize⟩
    · refine .inl ⟨a', n', (hold ?_).trans hbig, hb, hsize⟩
      rintro rfl
      exact hlive'.2 hb
    · exact .inr ⟨j, hblock hb, hfree ▸ hnot, hsize⟩
  · rw [← hv]
    exact freed_distinct h.distinct _

/-! ### Calls -/

open Routine (wp)

/-- Every arena has an allocated block, but for one of descriptor `i` that has just been made. -/
def AlmostUsed (w : Heap) (i : Nat) : Prop :=
  ∀ a j k, w.arena a = some ⟨some j, k⟩ → k < (desc j).blocksPerArena ∨
    j = i ∧ ∀ b ∈ w.freeList i, pgRoundDown b = a

theorem wp_refill (h : Valid w) (hused : Used w) (hdesc : desc i ∈ descs)
    (hpage : ∀ a, page = some a → Handed w a 1) :
    wp (refill i page) (fun r w' => if r then Valid w' ∧ AlmostUsed w' i ∧ w'.freeList i ≠ []
      else Valid w' ∧ Used w') (fun _ => False) w := by
  rw [refill, Routine.wp_bind, Routine.wp_get]
  split_ifs with hnil
  · rcases page with _ | a
    · exact ⟨h, hused⟩
    have hhanded := hpage a rfl
    have hfull : HasDesc (w.setArena a (some ⟨some i, (desc i).blocksPerArena⟩)) a i :=
      ⟨_, Function.update_self ..⟩
    have hadd := addBlocks_eq hhanded.1 hfull fun idx hidx => List.mem_range.mp hidx
    have hlist : (w.setArena a (some ⟨some i, (desc i).blocksPerArena⟩)).freeList i = [] := hnil
    rw [hlist, List.nil_append] at hadd
    rw [Routine.wp_bind, Routine.wp_set, Routine.wp_bind]
    refine Routine.wp_of_ok hadd ?_
    refine ⟨h.refilled hnil hhanded, fun a' j k hk => ?_, ?_⟩
    · replace hk : Function.update w.arena a _ a' = some ⟨some j, k⟩ := hk
      rw [Function.update_apply] at hk
      split_ifs at hk with ha
      · cases hk
        refine .inr ⟨rfl, fun b hb => ?_⟩
        rw [setFreeList_freeList] at hb
        rw [ha]
        exact pgRoundDown_blocks hhanded.2.1 hb
      · exact .inl (hused a' j k hk)
    · rw [setFreeList_freeList]
      intro hblocks
      have hlen := length_blocks i a
      have := (descs_fit _ hdesc).2.1
      rw [show blocks i a = [] from hblocks, List.length_nil] at hlen
      omega
  · exact ⟨h, fun a j k hk => .inl (hused a j k hk), hnil⟩

theorem wp_takeBlock (h : Valid w) (halmost : AlmostUsed w i) (hne : w.freeList i ≠ [])
    (hsize : size ≤ (desc i).blockSize) :
    wp (takeBlock i size) (fun _ w' => Valid w' ∧ Used w') (fun _ => False) w := by
  rw [takeBlock, Routine.wp_bind, Routine.wp_get]
  rcases hlist : w.freeList i with _ | ⟨b, bs⟩
  · exact absurd hlist hne
  have hmem : b ∈ w.freeList i := hlist ▸ List.mem_cons_self
  obtain ⟨idx, ⟨k, hk⟩, hidx, hb⟩ := (h.free i b hmem).eq_blockAt h
  obtain ⟨ha, halign, -⟩ := h.aligned _ _ hk
  have hblock : blockToArena b (w.setFreeList i bs) =
      .ok ((pgRoundDown b, ⟨some i, k⟩), w.setFreeList i bs) := by
    have hrun := blockToArena_block ha halign (w := w.setFreeList i bs) hk hidx
    rw [← hb] at hrun
    exact hrun
  have hcount := h.counts _ i k hk
  rw [hlist, List.countP_cons, if_pos (by simp)] at hcount
  have hle := (h.count_le hk).1
  rw [Routine.wp_bind, Routine.wp_set, Routine.wp_bind]
  refine Routine.wp_of_ok hblock ?_
  rw [Routine.wp_bind, Routine.wp_modify]
  refine ⟨h.taken hlist hk hsize, fun a' j k' hk' => ?_⟩
  replace hk' : Function.update w.arena (pgRoundDown b) (some ⟨some i, k - 1⟩) a' =
    some ⟨some j, k'⟩ := hk'
  rw [Function.update_apply] at hk'
  split_ifs at hk' with ha'
  · cases hk'
    omega
  · rcases halmost a' j k' hk' with hlt | ⟨-, hall⟩
    · exact hlt
    · exact absurd (hall b hmem).symm ha'

/-- The pages that `malloc` asks for. -/
def pagesFor (size : Nat) : Nat :=
  if (descs.findIdx? fun d => size ≤ d.blockSize).isSome then 1 else bigPages size

theorem wp_malloc (h : Valid w) (hused : Used w)
    (hpage : ∀ a, page = some a → Handed w a (pagesFor size))
    (hsize : ∀ a, page = some a → size ≤ 2 ^ 32 - arenaSize) :
    wp (malloc size page) (fun _ w' => Valid w' ∧ Used w') (fun _ => False) w := by
  unfold malloc
  split_ifs
  · exact ⟨h, hused⟩
  rw [pagesFor] at hpage
  rcases hfind : descs.findIdx? (fun d => size ≤ d.blockSize) with _ | i <;> rw [hfind] at hpage ⊢
  · rw [Option.isSome_none, if_neg nofun] at hpage
    rcases page with _ | a
    · exact ⟨h, hused⟩
    have hhanded := hpage a rfl
    have hfits : size + arenaSize ≤ bigPages size * pgSize := by
      have hle := hsize a rfl
      have hpos := hhanded.2.2.1
      unfold bigPages arenaSize pgSize at *
      omega
    refine ⟨h.big hhanded hfits, fun a' j k hk => ?_⟩
    replace hk : Function.update w.arena a (some ⟨none, bigPages size⟩) a' =
      some ⟨some j, k⟩ := hk
    rw [Function.update_apply] at hk
    split_ifs at hk
    · cases hk
    · exact hused a' j k hk
  · rw [Option.isSome_some, if_pos rfl] at hpage
    obtain ⟨hi, hle, -⟩ := List.findIdx?_eq_some_iff_getElem.mp hfind
    have hdesc : desc i = descs[i] := by
      rw [desc, List.getD_eq_getElem?_getD, List.getElem?_eq_getElem hi, Option.getD_some]
    have hmem : desc i ∈ descs := hdesc ▸ List.getElem_mem hi
    have hsize' : size ≤ (desc i).blockSize := by
      rw [hdesc]
      exact of_decide_eq_true hle
    rw [Routine.wp_bind]
    refine (wp_refill h hused hmem hpage).mono fun r w1 h1 => ?_
    cases r with
    | true => exact wp_takeBlock h1.1 h1.2.1 h1.2.2 hsize'
    | false => exact h1

theorem wp_free (h : Valid w) (hused : Used w) (hlive : (b, size) ∈ w.live) :
    wp (free (some b)) (fun _ w' => Valid w' ∧ Used w') (fun _ => False) w := by
  rw [free, Routine.wp_bind]
  rcases h.live b size hlive with ⟨a, n, hbig, rfl, -⟩ | ⟨i, hblock, hnot, hsize⟩
  · refine Routine.wp_of_ok (blockToArena_big h hbig) ?_
    refine ⟨h.freedBig hbig, fun a' j k hk => ?_⟩
    replace hk : Function.update w.arena a none a' = some ⟨some j, k⟩ := hk
    rw [Function.update_apply] at hk
    split_ifs at hk
    exact hused a' j k hk
  · obtain ⟨idx, ⟨k, hk⟩, hidx, hb⟩ := hblock.eq_blockAt h
    obtain ⟨ha, halign, -⟩ := h.aligned _ _ hk
    have hrun := blockToArena_block ha halign hk hidx
    rw [← hb] at hrun
    refine Routine.wp_of_ok hrun ?_
    dsimp only
    rw [Routine.wp_bind, Routine.wp_modify]
    have h1 := h.givenBack hlive hk
    generalize hv : ((w.setFreeList i (b :: w.freeList i)).setArena (pgRoundDown b)
      (some ⟨some i, k + 1⟩)).freed b = v at h1 ⊢
    have hself : v.arena (pgRoundDown b) = some ⟨some i, k + 1⟩ := by
      rw [← hv]
      exact Function.update_self ..
    have hother : ∀ a', a' ≠ pgRoundDown b → v.arena a' = w.arena a' := fun a' ha' => by
      rw [← hv]
      exact Function.update_of_ne ha' ..
    have hlt := hused _ i k hk
    by_cases hfull : (desc i).blocksPerArena ≤ k + 1
    · have heq : k + 1 = (desc i).blocksPerArena := by omega
      have hall := (h1.count_le hself).2 heq
      have hremove := removeBlocks_eq ha ⟨_, hself⟩ (fun idx hidx => List.mem_range.mp hidx)
        List.nodup_range fun idx hidx =>
          hall _ (mem_blocks.mpr ⟨idx, List.mem_range.mp hidx, rfl⟩)
      rw [if_pos hfull, if_pos heq, Routine.wp_bind]
      refine Routine.wp_of_ok hremove ?_
      rw [Routine.wp_modify]
      refine ⟨h1.emptied hself hall, fun a' j k' hk' => ?_⟩
      replace hk' : Function.update v.arena (pgRoundDown b) none a' = some ⟨some j, k'⟩ := hk'
      rw [Function.update_apply] at hk'
      split_ifs at hk' with ha'
      rw [hother a' ha'] at hk'
      exact hused a' j k' hk'
    · rw [if_neg hfull, Routine.wp_pure]
      refine ⟨h1, fun a' j k' hk' => ?_⟩
      by_cases ha' : a' = pgRoundDown b
      · rw [ha', hself] at hk'
        cases hk'
        omega
      · rw [hother a' ha'] at hk'
        exact hused a' j k' hk'

/-! ### Sequences of calls -/

/-- `block_size`. -/
def blockSize (w : Heap) (b : Nat) : Nat :=
  match w.arena (pgRoundDown b) with
  | some ⟨some i, _⟩ => (desc i).blockSize
  | some ⟨none, pageCnt⟩ => pgSize * pageCnt - b % pgSize
  | none => 0

/-- The allocated blocks do not overlap and are as large as requested, in their arenas; the counts of
the arenas are right; and the free lists have blocks of arenas in use only. -/
structure HeapOk (w : Heap) : Prop where
  disjoint : w.live.Pairwise fun e e' =>
    e.1 + blockSize w e.1 ≤ e'.1 ∨ e'.1 + blockSize w e'.1 ≤ e.1
  inside : ∀ b size, (b, size) ∈ w.live → ∃ arena, w.arena (pgRoundDown b) = some arena ∧
    pgRoundDown b + arenaSize ≤ b ∧
    b + blockSize w b ≤ pgRoundDown b + arena.pages * pgSize ∧ size ≤ blockSize w b
  counts : ∀ a i k, w.arena a = some ⟨some i, k⟩ →
    k = (w.freeList i).countP fun b => pgRoundDown b = a
  noStale : ∀ i, ∀ b ∈ w.freeList i, ∃ k, w.arena (pgRoundDown b) = some ⟨some i, k⟩

theorem blockSize_block (h : Valid w) (hb : IsBlock w i b) : blockSize w b = (desc i).blockSize := by
  obtain ⟨-, ⟨k, hk⟩, -, -⟩ := hb.eq_blockAt h
  rw [blockSize, hk]

theorem blockSize_big (h : Valid w) (harena : w.arena a = some ⟨none, n⟩) :
    blockSize w (a + arenaSize) = pgSize * n - arenaSize := by
  have halign := (h.aligned a _ harena).2.1
  have hofs : (a + arenaSize) % pgSize = arenaSize := by
    unfold arenaSize pgSize at *
    omega
  rw [blockSize, pgRoundDown_big h harena, harena]
  dsimp only
  rw [hofs]

theorem Valid.inside (h : Valid w) (hlive : (b, size) ∈ w.live) :
    ∃ arena, w.arena (pgRoundDown b) = some arena ∧ pgRoundDown b + arenaSize ≤ b ∧
      b + blockSize w b ≤ pgRoundDown b + arena.pages * pgSize ∧ size ≤ blockSize w b := by
  rcases h.live b size hlive with ⟨a, n, hbig, rfl, hsize⟩ | ⟨i, hblock, -, hsize⟩
  · have hpos := (h.aligned a _ hbig).2.2
    have hpages : Arena.pages ⟨none, n⟩ = n := rfl
    rw [pgRoundDown_big h hbig, blockSize_big h hbig]
    refine ⟨_, hbig, Nat.le_refl _, ?_, ?_⟩
    · rw [hpages] at hpos ⊢
      unfold arenaSize pgSize at *
      omega
    · unfold arenaSize pgSize at *
      omega
  · obtain ⟨idx, ⟨k, hk⟩, hidx, hb⟩ := hblock.eq_blockAt h
    have hbounds := blockAt_bounds hidx (pgRoundDown b)
    rw [← hb] at hbounds
    have hpages : Arena.pages ⟨some i, k⟩ = 1 := rfl
    refine ⟨_, hk, hbounds.1, ?_, ?_⟩
    · rw [blockSize_block h hblock, hpages]
      omega
    · rw [blockSize_block h hblock]
      exact hsize

/-- Two allocated blocks do not overlap. -/
theorem Valid.disjoint (h : Valid w) {b' size' : Nat} (hlive : (b, size) ∈ w.live)
    (hlive' : (b', size') ∈ w.live) (hne : b ≠ b') :
    b + blockSize w b ≤ b' ∨ b' + blockSize w b' ≤ b := by
  obtain ⟨arena, harena, hlow, hhigh, -⟩ := h.inside hlive
  obtain ⟨arena', harena', hlow', hhigh', -⟩ := h.inside hlive'
  by_cases hpage : pgRoundDown b = pgRoundDown b'
  · rcases h.live b size hlive with ⟨a, n, hbig, rfl, -⟩ | ⟨i, hblock, -, -⟩
    · rcases h.live b' size' hlive' with ⟨a', n', hbig', rfl, -⟩ | ⟨i, hblock, -, -⟩
      · rw [pgRoundDown_big h hbig, pgRoundDown_big h hbig'] at hpage
        exact absurd (by rw [hpage]) hne
      · obtain ⟨-, ⟨k, hk⟩, -, -⟩ := hblock.eq_blockAt h
        rw [← hpage, pgRoundDown_big h hbig, hbig] at hk
        nomatch hk
    · obtain ⟨idx, ⟨k, hk⟩, hidx, hb⟩ := hblock.eq_blockAt h
      obtain ⟨hblock', -, -⟩ := h.live_block hlive' (hpage ▸ hk)
      obtain ⟨idx', -, -, hb'⟩ := hblock'.eq_blockAt h
      rw [blockSize_block h hblock, blockSize_block h hblock']
      rw [← hpage] at hb'
      have hidx' : idx ≠ idx' := by
        rintro rfl
        exact hne (hb.trans hb'.symm)
      have happart := blockAt_apart (i := i) (a := pgRoundDown b) hidx'
      rwa [← hb, ← hb'] at happart
  · have happart := h.apart _ arena _ arena' harena harena' hpage
    unfold Apart at happart
    omega

theorem Valid.heapOk (h : Valid w) : HeapOk w where
  disjoint := by
    have hdistinct := List.pairwise_map.mp h.distinct
    refine hdistinct.imp_of_mem fun {e e'} he he' hne => ?_
    have hlive : (e.1, e.2) ∈ w.live := he
    have hlive' : (e'.1, e'.2) ∈ w.live := he'
    exact h.disjoint hlive hlive' hne
  inside b size := h.inside
  counts := h.counts
  noStale i b hb := by
    obtain ⟨-, hdesc, -, -⟩ := (h.free i b hb).eq_blockAt h
    exact hdesc

/-- Calls as they may be: the page allocator hands out page groups that are not in use, and blocks are
freed that are allocated. -/
def HeapOp.InDomain : HeapOp → Heap → Prop
  | .malloc size page, w => size < 2 ^ 32 ∧ ∀ a, page = some a → Handed w a (pagesFor size)
  | .free none, _ => True
  | .free (some b), w => ∃ size, (b, size) ∈ w.live

/-- A request that gets pages does not wrap around with the header of its arena. -/
def HeapOp.Fits : HeapOp → Prop
  | .malloc size (some _) => size ≤ 2 ^ 32 - arenaSize
  | _ => True

theorem wp_exec {op : HeapOp} (h : Valid w ∧ Used w) (hdomain : op.InDomain w) (hfits : op.Fits) :
    wp op.exec (fun _ w' => Valid w' ∧ Used w') (fun _ => False) w := by
  cases op with
  | malloc size page =>
    refine wp_malloc h.1 h.2 hdomain.2 ?_
    rintro a rfl
    exact hfits
  | free p =>
    rw [HeapOp.exec, Routine.wp_bind]
    rcases p with _ | b
    · exact h
    · obtain ⟨size, hlive⟩ := hdomain
      exact (wp_free h.1 h.2 hlive).mono fun _ w' hw' => hw'

theorem valid_init : Valid Heap.init :=
  ⟨nofun, nofun, nofun, nofun, fun _ => List.nodup_nil, nofun, List.nodup_nil⟩

theorem used_init : Used Heap.init := nofun

/-- A request that is larger than the blocks of every descriptor, with pages for it. -/
theorem malloc_big (hsize : ∀ d ∈ descs, d.blockSize < size) : malloc size (some a) w =
    .ok (some (a + arenaSize),
      (w.setArena a (some ⟨none, bigPages size⟩)).allocated (a + arenaSize) size) := by
  have hnone : descs.findIdx? (fun d => size ≤ d.blockSize) = none := by
    rw [List.findIdx?_eq_none_iff]
    intro d hd
    have hlt := hsize d hd
    simp only [decide_eq_false_iff_not, Nat.not_le]
    exact hlt
  have hpos : size ≠ 0 := by
    rintro rfl
    exact absurd (hsize _ (List.mem_of_getElem? (i := 0) rfl)) (Nat.not_lt_zero _)
  unfold malloc
  rw [if_neg hpos, hnone]
  rfl

theorem blockSize_lt (hsize : 2 ^ 32 - arenaSize < size) : ∀ d ∈ descs, d.blockSize < size := by
  intro d hd
  obtain ⟨-, hcnt, hfit⟩ := descs_fit d hd
  have hle := Nat.mul_le_mul_right d.blockSize (Nat.le_of_lt hcnt)
  unfold arenaSize pgSize at *
  omega

/-- A request that wraps around gets a block that is too small. -/
theorem not_heapOk_malloc (hsize : 2 ^ 32 - arenaSize < size) (hword : size < 2 ^ 32)
    (ha : a % pgSize = 0) : ¬ HeapOk
      ((w.setArena a (some ⟨none, bigPages size⟩)).allocated (a + arenaSize) size) := by
  intro hok
  obtain ⟨-, -, -, -, hle⟩ := hok.inside _ size List.mem_cons_self
  have hround : pgRoundDown (a + arenaSize) = a :=
    pgRoundDown_eq ha (Nat.le_add_right ..) (by unfold arenaSize pgSize; omega)
  have hself : ((w.setArena a (some ⟨none, bigPages size⟩)).allocated (a + arenaSize) size).arena a =
    some ⟨none, bigPages size⟩ := Function.update_self ..
  rw [blockSize, hround, hself] at hle
  unfold bigPages arenaSize pgSize at *
  dsimp only at hle
  omega

/-- Over any sequence of `malloc` and `free`, no assertion fails and the blocks, the counts and the
free lists stay right, if and only if no request that gets pages wraps around. -/
theorem malloc_ok_iff (ops : List HeapOp)
    (hdomain : ∀ op w, Routine.Takes HeapOp.exec ops Heap.init op w → op.InDomain w) :
    ((∃ rs w, Routine.execAll HeapOp.exec ops Heap.init = .ok (rs, w)) ∧
      ∀ w, Routine.Visits HeapOp.exec ops Heap.init w → HeapOk w) ↔
      ∀ op w, Routine.Takes HeapOp.exec ops Heap.init op w → op.Fits := by
  constructor
  · rintro ⟨-, hok⟩ op w htakes
    rcases op with ⟨size, page⟩ | p
    · rcases page with _ | a
      · trivial
      · by_contra hnot
        have hlt : 2 ^ 32 - arenaSize < size := Nat.lt_of_not_le hnot
        obtain ⟨hword, hpage⟩ := hdomain _ w htakes
        have hvisits := htakes.visits (malloc_big (w := w) (a := a) (blockSize_lt hlt))
        exact not_heapOk_malloc hlt hword (hpage a rfl).2.1 (hok _ hvisits)
    · trivial
  · intro hfits
    have hstep : ∀ s op r t, Valid s ∧ Used s → op.InDomain s ∧ op.Fits →
        HeapOp.exec op s = .ok (r, t) → Valid t ∧ Used t := fun s op r t h hop hrun =>
      (wp_exec h hop.1 hop.2).of_ok hrun
    have hmay : ∀ op w, Routine.Takes HeapOp.exec ops Heap.init op w → op.InDomain w ∧ op.Fits :=
      fun op w htakes => ⟨hdomain op w htakes, hfits op w htakes⟩
    refine ⟨Routine.execAll_of_wp (fun op w htakes h =>
      wp_exec h (hmay op w htakes).1 (hmay op w htakes).2) ⟨valid_init, used_init⟩, fun w hw => ?_⟩
    have hvalid := hw.invariant hstep hmay ⟨valid_init, used_init⟩
    exact hvalid.1.heapOk

/-- A large block, two small ones of one arena, and two that are freed. -/
def someOps : List HeapOp :=
  [.malloc 5000 (some 8192), .malloc 1000 (some 4096), .malloc 1000 none, .free (some 8204),
    .free (some 4108)]

/-- Only blocks that were returned and not yet freed are freed. -/
def HeapOp.freesLive (op : HeapOp) (w : Heap) : Bool :=
  match op with
  | .free (some b) => decide (b ∈ w.live.map Prod.fst)
  | _ => true

theorem malloc_ok_iff_someOps :
    (∀ op w, Routine.Takes HeapOp.exec someOps Heap.init op w → op.InDomain w) ∧
      (((∃ rs w, Routine.execAll HeapOp.exec someOps Heap.init = .ok (rs, w)) ∧
        ∀ w, Routine.Visits HeapOp.exec someOps Heap.init w → HeapOk w) ↔
        ∀ op w, Routine.Takes HeapOp.exec someOps Heap.init op w → op.Fits) := by
  have hlarge : ∀ d ∈ descs, d.blockSize < 5000 := by decide
  have hfirst : HeapOp.exec (.malloc 5000 (some 8192)) Heap.init = .ok (some 8204,
      (Heap.init.setArena 8192 (some ⟨none, 2⟩)).allocated 8204 5000) := malloc_big hlarge
  obtain ⟨⟨r, w2⟩, hsecond⟩ : ∃ r, HeapOp.exec (.malloc 1000 (some 4096))
      ((Heap.init.setArena 8192 (some ⟨none, 2⟩)).allocated 8204 5000) = .ok r :=
    Routine.ok_of_toBool (by decide +kernel)
  have hcheck : Routine.checkAll HeapOp.exec HeapOp.freesLive someOps Heap.init = true := by
    decide +kernel
  have hdomain : ∀ op w, Routine.Takes HeapOp.exec someOps Heap.init op w → op.InDomain w := by
    intro op w htakes
    have hlast := Routine.of_checkAll hcheck htakes
    rcases (Routine.takes_cons_of_ok hfirst).mp htakes with ⟨rfl, rfl⟩ | htakes
    · refine ⟨by decide, ?_⟩
      rintro a ⟨⟩
      exact ⟨by decide, by decide, by decide, (by rintro _ _ ⟨⟩)⟩
    rcases (Routine.takes_cons_of_ok hsecond).mp htakes with ⟨rfl, rfl⟩ | htakes
    · refine ⟨by decide, ?_⟩
      rintro a ⟨⟩
      refine ⟨by decide, by decide, by decide, fun a' arena h => ?_⟩
      replace h : Function.update (fun _ => none) 8192 (some (Arena.mk none 2)) a' = some arena := h
      rw [Function.update_apply] at h
      split_ifs at h with ha
      cases h
      rw [ha]
      exact .inl (by decide)
    · obtain ⟨before, after, as, hsplit, -⟩ := htakes
      have hmem : op ∈ [HeapOp.malloc 1000 none, .free (some 8204), .free (some 4108)] := by
        rw [hsplit]
        exact List.mem_append_right before List.mem_cons_self
      have hlive : ∀ b, op = .free (some b) → ∃ size, (b, size) ∈ w.live := by
        rintro b rfl
        obtain ⟨⟨_, size⟩, he, rfl⟩ := List.mem_map.mp (of_decide_eq_true hlast)
        exact ⟨size, he⟩
      simp only [List.mem_cons, List.not_mem_nil, or_false] at hmem
      rcases hmem with rfl | rfl | rfl
      · exact ⟨by decide, (by simp)⟩
      · exact hlive 8204 rfl
      · exact hlive 4108 rfl
  exact ⟨hdomain, malloc_ok_iff someOps hdomain⟩

/-- A request for the largest `size_t` gets a block of one page. -/
theorem malloc_wraps :
    (∀ op w, Routine.Takes HeapOp.exec [.malloc (2 ^ 32 - 1) (some 4096)] Heap.init op w →
      op.InDomain w) ∧
      ∃ w, Routine.Visits HeapOp.exec [.malloc (2 ^ 32 - 1) (some 4096)] Heap.init w ∧
        ((4108, 2 ^ 32 - 1) ∈ w.live ∧ blockSize w 4108 = 4084) ∧ ¬ HeapOk w := by
  have hlarge : ∀ d ∈ descs, d.blockSize < 2 ^ 32 - 1 := by decide
  have hfirst : HeapOp.exec (.malloc (2 ^ 32 - 1) (some 4096)) Heap.init = .ok (some 4108,
      (Heap.init.setArena 4096 (some ⟨none, 1⟩)).allocated 4108 (2 ^ 32 - 1)) := malloc_big hlarge
  constructor
  · intro op w htakes
    rcases (Routine.takes_cons_of_ok hfirst).mp htakes with ⟨rfl, rfl⟩ | htakes
    · refine ⟨by decide, ?_⟩
      rintro a ⟨⟩
      exact ⟨by decide, by decide, by decide, nofun⟩
    · exact absurd htakes Routine.not_takes_nil
  · have hwraps : 2 ^ 32 - arenaSize < 2 ^ 32 - 1 := by decide
    have hword : 2 ^ 32 - 1 < 2 ^ 32 := by decide
    have halign : 4096 % pgSize = 0 := by decide
    exact ⟨_, (Routine.visits_cons_of_ok hfirst).mpr (.inr (Routine.visits_start _ _)),
      ⟨List.mem_cons_self, by decide +kernel⟩, not_heapOk_malloc hwraps hword halign⟩

end Malloc

end Pintos
