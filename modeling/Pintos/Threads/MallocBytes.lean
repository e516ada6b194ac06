import Pintos.Library.Memory
import Pintos.Threads.Malloc

/-! The sizes of allocated blocks and the bytes in them: `malloc`, `calloc`, `realloc` and `free`
(`threads/malloc.c`) on the heap together with its memory.  What the allocator writes for itself,
the headers of arenas and the links of free blocks, are bytes that a call supplies. -/

namespace Pintos

namespace Malloc

/-- The heap, and the bytes of the memory that it manages. -/
structure MemHeap where
  heap : Heap
  bytes : Memory

abbrev MemRoutine := Routine Fault MemHeap

/-- A routine on the heap alone. -/
def onHeap {α : Type} (m : HeapRoutine α) : MemRoutine α := fun s =>
  match m s.heap with
  | .ok (a, w) => .ok (a, { s with heap := w })
  | .error e => .error e

def modifyBytes (f : Memory → Memory) : MemRoutine Unit :=
  modify fun s => { s with bytes := f s.bytes }

/-- `sizeof (struct block)`. -/
def linkSize : Nat := 8

/-- The byte belongs to the header of an arena or to the link of a block in a free list. -/
def isOwn (w : Heap) (x : Nat) : Bool :=
  (w.arena (pgRoundDown x)).isSome && x % pgSize < arenaSize ||
    (List.range descs.length).any fun i => (w.freeList i).any fun b => b ≤ x && x < b + linkSize

/-- The byte belongs to the link of block `p`, unless that is null. -/
def isLink (p : Option Nat) (x : Nat) : Bool := p.any fun b => b ≤ x && x < b + linkSize

/-- The allocator writes headers and links, among them the link of `p`. -/
def scribble (w : Heap) (p : Option Nat) (own m : Memory) : Memory := fun x =>
  if isOwn w x || isLink p x then own x else m x

/-- The `n` bytes at `a`. -/
def readBytes (m : Memory) (a n : Nat) : List UInt8 := (List.range n).map fun i => m (a + i)

/-- `malloc`. -/
def mallocBytes (size : Nat) (page : Option Nat) (own : Memory) : MemRoutine (Option Nat) := do
  let p ← onHeap (malloc size page)
  modify fun s => { s with bytes := scribble s.heap p own s.bytes }
  pure p

/-- The bytes after `free` of block `b` has made the heap `w'` of `w`: the block of a descriptor is
cleared, and so are the pages of an arena that goes back to the page allocator. -/
def freedBytes (w w' : Heap) (b : Nat) (own m : Memory) : Memory :=
  match w.arena (pgRoundDown b) with
  | none => m
  | some arena =>
    let m := match arena.desc with
      | some i => scribble w (some b) own (m.store b (List.replicate (desc i).blockSize 0xcc))
      | none => m
    if w'.arena (pgRoundDown b) = none then
      m.store (pgRoundDown b) (List.replicate (arena.pages * pgSize) 0xcc)
    else m

/-- `free`. -/
def freeBytes (p : Option Nat) (own : Memory) : MemRoutine Unit := do
  let s ← get
  onHeap (free p)
  match p with
  | none => pure ()
  | some b => modify fun t => { t with bytes := freedBytes s.heap t.heap b own t.bytes }

/-- `calloc`. -/
def calloc (a b : Nat) (page : Option Nat) (own : Memory) : MemRoutine (Option Nat) := do
  let size := a * b % 2 ^ 32
  if size < a ∨ size < b then pure none
  else
    let p ← mallocBytes size page own
    match p with
    | none => pure none
    | some q => do
      modifyBytes fun m => m.store q (List.replicate size 0)
      pure (some q)

/-- `block_size`. -/
def blockSizeOf (b : Nat) : HeapRoutine Nat := do
  let (_, arena) ← blockToArena b
  match arena.desc with
  | some i => pure (desc i).blockSize
  | none => pure (pgSize * arena.freeCnt - b % pgSize)

/-- `realloc`; `own` are the bytes that its `malloc` writes for itself, and `own'` those of its
`free`. -/
def realloc (old : Option Nat) (newSize : Nat) (page : Option Nat) (own own' : Memory) :
    MemRoutine (Option Nat) :=
  if newSize = 0 then do
    freeBytes old own'
    pure none
  else do
    let new ← mallocBytes newSize page own
    match old, new with
    | some p, some q => do
      let oldSize ← onHeap (blockSizeOf p)
      let minSize := if newSize < oldSize then newSize else oldSize
      modifyBytes fun m => m.store q (readBytes m p minSize)
      freeBytes (some p) own'
      pure new
    | _, _ => pure new

/-! ### What `malloc` does to the heap -/

variable {w w' : Heap} {a b i k n size : Nat} {page r : Option Nat}

/-- `malloc` has no block for a request. -/
def NoBlock (w : Heap) (size : Nat) (page : Option Nat) : Prop :=
  size = 0 ∨ page = none ∧
    ∀ i, descs.findIdx? (fun d => size ≤ d.blockSize) = some i → w.freeList i = []

/-- The first block of a free list is taken. -/
theorem takeBlock_eq (h : Valid w) {bs : List Nat} (hlist : w.freeList i = b :: bs) :
    ∃ k, takeBlock i size w = .ok (some b, ((w.setFreeList i bs).setArena (pgRoundDown b)
      (some ⟨some i, k⟩)).allocated b size) := by
  have hmem : b ∈ w.freeList i := hlist ▸ List.mem_cons_self
  obtain ⟨idx, ⟨k, hk⟩, hidx, hb⟩ := (h.free i b hmem).eq_blockAt h
  obtain ⟨ha, halign, -⟩ := h.aligned _ _ hk
  have hblock : blockToArena b (w.setFreeList i bs) =
      .ok ((pgRoundDown b, ⟨some i, k⟩), w.setFreeList i bs) := by
    have hk' : (w.setFreeList i bs).arena (pgRoundDown b) = some ⟨some i, k⟩ := hk
    have hrun := blockToArena_block ha halign hk' hidx
    rw [← hb] at hrun
    exact hrun
  refine ⟨k - 1, ?_⟩
  rw [takeBlock, Routine.get_bind_apply, hlist]
  show (do
    set (w.setFreeList i bs)
    let (a, arena) ← blockToArena b
    modify fun w =>
      (w.setArena a (some { arena with freeCnt := arena.freeCnt - 1 })).allocated b size
    pure (some b) : HeapRoutine (Option Nat)) w = _
  rw [Routine.set_bind_apply, Routine.bind_of_ok hblock]
  rfl

/-- What a refilled free list leaves in the list of the allocated blocks. -/
theorem refill_live {ok : Bool} (hpage : ∀ a, page = some a → a ≠ 0)
    (hrun : refill i page w = .ok (ok, w')) :
    w'.live = w.live ∧ (ok = false → w' = w ∧ w.freeList i = [] ∧ page = none) := by
  rw [refill, Routine.get_bind_apply] at hrun
  by_cases hnil : w.freeList i = []
  · rw [if_pos hnil] at hrun
    cases page with
    | none =>
      cases hrun
      exact ⟨rfl, fun _ => ⟨rfl, hnil, rfl⟩⟩
    | some a =>
      have hdesc : HasDesc (w.setArena a (some ⟨some i, (desc i).blocksPerArena⟩)) a i :=
        ⟨_, Function.update_self ..⟩
      have hadd := addBlocks_eq (hpage a rfl) hdesc fun idx hidx => List.mem_range.mp hidx
      simp only [Routine.set_bind_apply] at hrun
      rw [Routine.bind_of_ok hadd] at hrun
      cases hrun
      exact ⟨rfl, (by simp)⟩
  · rw [if_neg hnil] at hrun
    cases hrun
    exact ⟨rfl, (by simp)⟩

/-- What `malloc` returns, and the heap: nothing, the pages of a new arena, or a block of a
descriptor. -/
inductive MallocResult (w : Heap) (size : Nat) (page : Option Nat) : Option Nat → Heap → Prop where
  | none (h : NoBlock w size page) : MallocResult w size page none w
  | big (a : Nat) (hpage : page = some a) (hsize : ∀ d ∈ descs, d.blockSize < size) :
    MallocResult w size page (some (a + arenaSize))
      ((w.setArena a (some ⟨none, bigPages size⟩)).allocated (a + arenaSize) size)
  | small (i b : Nat) (w' : Heap) (hdesc : desc i ∈ descs) (hsize : size ≤ (desc i).blockSize)
      (hlive : w'.live = (b, size) :: w.live) (hblock : blockSize w' b = (desc i).blockSize) :
    MallocResult w size page (some b) w'

theorem malloc_result (h : Valid w) (hused : Used w)
    (hpage : ∀ a, page = some a → Handed w a (pagesFor size))
    (hrun : malloc size page w = .ok (r, w')) : MallocResult w size page r w' := by
  unfold malloc at hrun
  split_ifs at hrun with hzero
  · cases hrun
    exact .none (.inl hzero)
  cases hfind : descs.findIdx? (fun d => size ≤ d.blockSize) with
  | none =>
    rw [hfind] at hrun
    cases page with
    | none =>
      cases hrun
      refine .none (.inr ⟨rfl, fun i hi => ?_⟩)
      rw [hfind] at hi
      cases hi
    | some a =>
      cases hrun
      refine .big a rfl fun d hd => ?_
      simpa using List.findIdx?_eq_none_iff.mp hfind d hd
  | some i =>
    rw [hfind] at hrun
    obtain ⟨hi, hle, -⟩ := List.findIdx?_eq_some_iff_getElem.mp hfind
    have hdesc : desc i = descs[i] := by
      rw [desc, List.getD_eq_getElem?_getD, List.getElem?_eq_getElem hi, Option.getD_some]
    have hmem : desc i ∈ descs := hdesc ▸ List.getElem_mem hi
    have hsize : size ≤ (desc i).blockSize := by
      rw [hdesc]
      exact of_decide_eq_true hle
    rw [pagesFor, hfind, Option.isSome_some, if_pos rfl] at hpage
    obtain ⟨ok, w1, hrefill, htake⟩ := Routine.bind_ok.mp hrun
    have hpost := (wp_refill h hused hmem hpage).of_ok hrefill
    obtain ⟨hlive, hfail⟩ := refill_live (fun a ha => (hpage a ha).1) hrefill
    cases ok with
    | false =>
      cases htake
      obtain ⟨rfl, hnil, rfl⟩ := hfail rfl
      refine .none (.inr ⟨rfl, fun j hj => ?_⟩)
      rw [hfind, Option.some.injEq] at hj
      exact hj ▸ hnil
    | true =>
      obtain ⟨hvalid, -, hne⟩ := hpost
      obtain ⟨b, bs, hlist⟩ := List.exists_cons_of_ne_nil hne
      obtain ⟨k, heq⟩ : ∃ k, takeBlock i size w1 = _ := takeBlock_eq hvalid hlist
      rw [if_pos rfl, heq] at htake
      cases htake
      refine .small i b _ hmem hsize (congrArg _ hlive) ?_
      have harena : (((w1.setFreeList i bs).setArena (pgRoundDown b) (some ⟨some i, k⟩)).allocated b
          size).arena (pgRoundDown b) = some ⟨some i, k⟩ := Function.update_self ..
      rw [blockSize, harena]

/-! ### What `free` does to the heap -/

/-- `block_to_arena` only looks. -/
theorem blockToArena_ok {arena : Arena} (hrun : blockToArena b w = .ok ((a, arena), w')) :
    w' = w ∧ a = pgRoundDown b ∧ w.arena a = some arena := by
  by_cases hzero : pgRoundDown b = 0
  · rw [blockToArena, if_pos hzero] at hrun
    cases hrun
  rw [blockToArena, if_neg hzero, Routine.get_bind_apply] at hrun
  cases harena : w.arena (pgRoundDown b) with
  | none =>
    rw [harena] at hrun
    cases hrun
  | some arena' =>
    rw [harena] at hrun
    obtain ⟨_ | j, cnt⟩ := arena'
    · dsimp only at hrun
      split_ifs at hrun
      · cases hrun
        exact ⟨rfl, rfl, harena⟩
      · cases hrun
    · dsimp only at hrun
      split_ifs at hrun
      · cases hrun
        exact ⟨rfl, rfl, harena⟩
      · cases hrun

/-- The heaps have the same arenas and allocated blocks. -/
def SameBlocks (w w' : Heap) : Prop := w'.arena = w.arena ∧ w'.live = w.live

instance : IsPreorder Heap SameBlocks where
  refl _ := ⟨rfl, rfl⟩
  trans _ _ _ h h' := ⟨h'.1.trans h.1, h'.2.trans h.2⟩

theorem arenaToBlock_same (a idx : Nat) : Routine.Keeps SameBlocks (arenaToBlock a idx) := by
  refine Routine.Keeps.ite (fun _ => Routine.Keeps.throw) fun _ => ?_
  refine Routine.Keeps.get_bind fun w b w' hrun => ?_
  rcases harena : w.arena a with _ | ⟨_ | i, cnt⟩ <;> rw [harena] at hrun
  · cases hrun
  · cases hrun
  · dsimp only at hrun
    split_ifs at hrun
    · cases hrun
      exact refl_of SameBlocks w
    · cases hrun

theorem blockSizeOf_same (b : Nat) : Routine.Keeps SameBlocks (blockSizeOf b) := by
  refine Routine.Keeps.bind ?_ fun r => ?_
  · rintro w ⟨a, arena⟩ w' hrun
    rw [(blockToArena_ok hrun).1]
    exact refl_of SameBlocks w
  · obtain ⟨-, ⟨_ | i, cnt⟩⟩ := r
    · exact Routine.Keeps.pure
    · exact Routine.Keeps.pure

theorem removeBlocks_same (i a : Nat) (idxs : List Nat) :
    Routine.Keeps SameBlocks (removeBlocks i a idxs) := by
  refine Routine.Keeps.forM fun idx _ => (arenaToBlock_same a idx).bind fun b => ?_
  refine Routine.Keeps.get_bind fun w u w' hrun => ?_
  split at hrun
  · cases hrun
    exact ⟨rfl, rfl⟩
  · cases hrun

/-- `free` takes the block off the allocated ones and may give its arena back. -/
theorem free_result {u : Unit} (hrun : free (some b) w = .ok (u, w')) :
    w'.live = (w.freed b).live ∧ ∀ a, a ≠ pgRoundDown b → w'.arena a = w.arena a := by
  rw [free] at hrun
  obtain ⟨⟨a, arena⟩, w1, hblock, hrest⟩ := Routine.bind_ok.mp hrun
  obtain ⟨rfl, rfl, harena⟩ := blockToArena_ok hblock
  obtain ⟨_ | i, cnt⟩ := arena
  · cases hrest
    exact ⟨rfl, fun a ha => Function.update_of_ne ha ..⟩
  · obtain ⟨u1, w2, hmodify, hrest⟩ := Routine.bind_ok.mp hrest
    cases hmodify
    have hother : ∀ a, a ≠ pgRoundDown b → (((w1.setFreeList i (b :: w1.freeList i)).setArena
        (pgRoundDown b) (some ⟨some i, cnt + 1⟩)).freed b).arena a = w1.arena a := fun a ha =>
      Function.update_of_ne ha ..
    split at hrest
    · split at hrest
      · obtain ⟨u2, w3, hremove, hset⟩ := Routine.bind_ok.mp hrest
        cases hset
        obtain ⟨harenas, hlive⟩ := removeBlocks_same _ _ _ _ _ _ hremove
        refine ⟨hlive, fun a ha => ?_⟩
        rw [← hother a ha, ← harenas]
        exact Function.update_of_ne ha ..
      · cases hrest
    · cases hrest
      exact ⟨rfl, hother⟩

/-! ### Where the allocator writes for itself -/

theorem eight_le_blockSize : ∀ d ∈ descs, linkSize ≤ d.blockSize := by decide

/-- The link of a free block lies in the block. -/
theorem Valid.linkSize_le (h : Valid w) (hlive : (b, size) ∈ w.live) :
    linkSize ≤ blockSize w b := by
  rcases h.live b size hlive with ⟨a, n, hbig, rfl, -⟩ | ⟨i, hblock, -, -⟩
  · have hpos := (h.aligned a _ hbig).2.2
    have hpages : Arena.pages ⟨none, n⟩ = n := rfl
    rw [hpages] at hpos
    rw [blockSize_big h hbig]
    unfold linkSize arenaSize pgSize
    omega
  · obtain ⟨_, -, hidx, -⟩ := hblock.eq_blockAt h
    rw [blockSize_block h hblock]
    exact eight_le_blockSize _ (desc_mem hidx)

/-- The pages of an arena, and what lies in them. -/
theorem Valid.same_arena (h : Valid w) {arena arena' : Arena} {a' x : Nat}
    (harena : w.arena a = some arena) (harena' : w.arena a' = some arena')
    (hin : a ≤ x ∧ x < a + arena.pages * pgSize) (hin' : a' ≤ x ∧ x < a' + arena'.pages * pgSize) :
    a = a' := by
  by_contra hne
  have hapart := h.apart a arena a' arena' harena harena' hne
  unfold Apart at hapart
  omega

/-- No byte of an allocated block is the allocator's own. -/
theorem Valid.not_own (h : Valid w) (hlive : (b, size) ∈ w.live) (hi : i < blockSize w b) :
    isOwn w (b + i) = false := by
  obtain ⟨arena, harena, hlow, hhigh, -⟩ := h.inside hlive
  rw [isOwn, Bool.or_eq_false_iff]
  constructor
  · rw [Bool.and_eq_false_iff]
    cases hother : w.arena (pgRoundDown (b + i)) with
    | none => exact .inl rfl
    | some arena' =>
      have hpos := (h.aligned _ _ hother).2.2
      have hle := Nat.mul_le_mul_right pgSize (Nat.succ_le_of_lt hpos)
      have hin : pgRoundDown (b + i) ≤ b + i ∧ b + i < pgRoundDown (b + i) + pgSize := by
        unfold pgRoundDown pgSize
        omega
      have hsame := h.same_arena harena hother (x := b + i) ⟨by omega, by omega⟩
        ⟨hin.1, by omega⟩
      refine .inr (decide_eq_false ?_)
      unfold pgRoundDown arenaSize pgSize at *
      omega
  · rw [List.any_eq_false]
    intro j _ hany
    obtain ⟨f, hf, hin⟩ := List.any_eq_true.mp hany
    rw [Bool.and_eq_true, decide_eq_true_eq, decide_eq_true_eq] at hin
    obtain ⟨idx, ⟨k, hk⟩, hidx, hfree⟩ := (h.free j f hf).eq_blockAt h
    have hbounds := blockAt_bounds hidx (pgRoundDown f)
    rw [← hfree] at hbounds
    have hlink := eight_le_blockSize _ (desc_mem hidx)
    have hpages : Arena.pages ⟨some j, k⟩ = 1 := rfl
    have hsame := h.same_arena harena hk (x := b + i) ⟨by omega, by omega⟩
      ⟨by omega, by rw [hpages]; omega⟩
    rw [← hsame] at hk
    obtain ⟨hblock, hnot, -⟩ := h.live_block hlive hk
    obtain ⟨idx', -, -, hb⟩ := hblock.eq_blockAt h
    rw [hsame] at hb
    have hne : idx ≠ idx' := by
      rintro rfl
      exact hnot (hb.trans hfree.symm ▸ hf)
    have happart := blockAt_apart (i := j) (a := pgRoundDown f) hne
    rw [← hb, ← hfree] at happart
    rw [blockSize_block h hblock] at hi
    omega

/-- The link of another block is not in an allocated block. -/
theorem Valid.not_link (h : Valid w) {b' size' : Nat} (hlive : (b, size) ∈ w.live)
    (hlive' : (b', size') ∈ w.live) (hne : b ≠ b') (hi : i < blockSize w b) :
    isLink (some b') (b + i) = false := by
  have hdisjoint := h.disjoint hlive hlive' hne
  have hlink := h.linkSize_le hlive'
  rw [isLink, Option.any_some, Bool.and_eq_false_iff, decide_eq_false_iff_not,
    decide_eq_false_iff_not]
  omega

/-- What the allocator writes for itself leaves the other allocated blocks alone. -/
theorem Valid.scribble_live (h : Valid w) {b' size' : Nat} (hlive : (b, size) ∈ w.live)
    (hlive' : (b', size') ∈ w.live) (hne : b ≠ b') (own m : Memory) (hi : i < blockSize w b) :
    scribble w (some b') own m (b + i) = m (b + i) := by
  rw [scribble, h.not_own hlive hi, h.not_link hlive hlive' hne hi]
  rfl

/-- `block_size` of an allocated block. -/
theorem blockSizeOf_live (h : Valid w) (hlive : (b, size) ∈ w.live) :
    blockSizeOf b w = .ok (blockSize w b, w) := by
  rcases h.live b size hlive with ⟨a, n, hbig, rfl, -⟩ | ⟨i, hblock, -, -⟩
  · rw [blockSizeOf, Routine.bind_of_ok (blockToArena_big h hbig), blockSize_big h hbig]
    have halign := (h.aligned a _ hbig).2.1
    have hofs : (a + arenaSize) % pgSize = arenaSize := by
      unfold arenaSize pgSize at *
      omega
    dsimp only
    rw [hofs]
    rfl
  · obtain ⟨idx, ⟨k, hk⟩, hidx, hb⟩ := hblock.eq_blockAt h
    obtain ⟨ha, halign, -⟩ := h.aligned _ _ hk
    have hrun := blockToArena_block ha halign hk hidx
    rw [← hb] at hrun
    rw [blockSizeOf, Routine.bind_of_ok hrun, blockSize_block h hblock]
    rfl

/-- The bytes of a block that stays allocated survive a `free`. -/
theorem freedBytes_live (h : Valid w) (h' : Valid w') {b' size' : Nat}
    (hlive : (b, size) ∈ w.live) (hstays : (b, size) ∈ w'.live) (hfreed : (b', size') ∈ w.live)
    (hne : b ≠ b') (own m : Memory) (hi : i < blockSize w b) :
    freedBytes w w' b' own m (b + i) = m (b + i) := by
  obtain ⟨arena', harena', hlow', hhigh', -⟩ := h.inside hfreed
  obtain ⟨arena, harena, hlow, hhigh, -⟩ := h.inside hlive
  have hcleared : ∀ j, arena'.desc = some j → scribble w (some b') own
      (m.store b' (List.replicate (desc j).blockSize 0xcc)) (b + i) = m (b + i) := by
    intro j hj
    have hdesc : w.arena (pgRoundDown b') = some ⟨some j, arena'.freeCnt⟩ := by
      rw [harena', ← hj]
    obtain ⟨hblock, -, -⟩ := h.live_block hfreed hdesc
    have hdisjoint := h.disjoint hlive hfreed hne
    rw [blockSize_block h hblock] at hdisjoint
    rw [h.scribble_live hlive hfreed hne own _ hi, Memory.store_apply, List.length_replicate,
      if_neg (by omega)]
  have hpages : w'.arena (pgRoundDown b') = none →
      b + i < pgRoundDown b' ∨ pgRoundDown b' + arena'.pages * pgSize ≤ b + i := by
    intro hnone
    obtain ⟨arena'', harena'', -⟩ := h'.inside hstays
    have hpage : pgRoundDown b' ≠ pgRoundDown b := by
      intro heq
      rw [← heq, hnone] at harena''
      cases harena''
    have happart := h.apart _ _ _ _ harena harena' hpage.symm
    unfold Apart at happart
    omega
  rw [freedBytes, harena']
  dsimp only
  have hfirst : (match arena'.desc with
      | some i => scribble w (some b') own (m.store b' (List.replicate (desc i).blockSize 0xcc))
      | none => m) (b + i) = m (b + i) := by
    rcases hdesc : arena'.desc with _ | j
    · rfl
    · exact hcleared j hdesc
  split_ifs with hnone
  · rcases hpages hnone with hbefore | hbehind
    · rw [Memory.store_apply, if_neg (by omega)]
      exact hfirst
    · rw [Memory.store_apply, List.length_replicate, if_neg (by omega)]
      exact hfirst
  · exact hfirst

/-! ### Calls -/

/-- A call, with the page group that the page allocator has for it and what the allocator writes for
itself; or the program writes to its memory. -/
inductive SizeOp where
  | malloc (size : Nat) (page : Option Nat) (own : Memory)
  | calloc (a b : Nat) (page : Option Nat) (own : Memory)
  | realloc (old : Option Nat) (newSize : Nat) (page : Option Nat) (own own' : Memory)
  | free (p : Option Nat) (own : Memory)
  | write (bytes : Memory)

def SizeOp.exec : SizeOp → MemRoutine (Option Nat)
  | .malloc size page own => mallocBytes size page own
  | .calloc a b page own => Malloc.calloc a b page own
  | .realloc old newSize page own own' => Malloc.realloc old newSize page own own'
  | .free p own => do
    freeBytes p own
    pure none
  | .write bytes => do
    modifyBytes fun _ => bytes
    pure none

/-- Calls as they may be: sizes are words, the page allocator hands out page groups that are not in
use, and blocks are freed that are allocated. -/
def SizeOp.InDomain : SizeOp → Heap → Prop
  | .malloc size page _, w => (HeapOp.malloc size page).InDomain w
  | .calloc a b page _, w =>
    a < 2 ^ 32 ∧ b < 2 ^ 32 ∧ (HeapOp.malloc (a * b % 2 ^ 32) page).InDomain w
  | .realloc old newSize page _ _, w =>
    (HeapOp.free old).InDomain w ∧ (HeapOp.malloc newSize page).InDomain w
  | .free p _, w => (HeapOp.free p).InDomain w
  | .write _, _ => True

/-- The block that a call returns is as large as requested; `calloc` clears it and `realloc` copies
the old one to it. -/
def SizeOp.Honest : SizeOp → MemHeap → Option Nat → MemHeap → Prop
  | .malloc size _ _, _, r, t => ∀ q, r = some q → size ≤ blockSize t.heap q
  | .calloc a b _ _, _, r, t => ∀ q, r = some q →
    a * b ≤ blockSize t.heap q ∧ ∀ i < a * b, t.bytes (q + i) = 0
  | .realloc old newSize _ _ _, s, r, t => ∀ q, r = some q →
    newSize ≤ blockSize t.heap q ∧ ∀ p size, old = some p → (p, size) ∈ s.heap.live →
      ∀ i < min size newSize, t.bytes (q + i) = s.bytes (p + i)
  | .free _ _, _, _, _ | .write _, _, _, _ => True

/-- The header and a block of `size` bytes fit in a word. -/
def FitsWord (size : Nat) : Prop := size + arenaSize ≤ 2 ^ 32

/-- A request does not wrap around, or it is refused. -/
def SizeOp.Fits : SizeOp → Heap → Prop
  | .malloc size page _, w => FitsWord size ∨ NoBlock w size page
  | .calloc a b page _, w => FitsWord (a * b) ∨ a * b % 2 ^ 32 < a ∨ a * b % 2 ^ 32 < b ∨
    NoBlock w (a * b % 2 ^ 32) page
  | .realloc _ newSize page _ _, w => FitsWord newSize ∨ NoBlock w newSize page
  | .free _ _, _ | .write _, _ => True

section Calls

variable {s t : MemHeap}

theorem onHeap_ok {α : Type} {m : HeapRoutine α} {x : α} (hrun : onHeap m s = .ok (x, t)) :
    m s.heap = .ok (x, t.heap) ∧ t.bytes = s.bytes := by
  rw [onHeap] at hrun
  split at hrun
  · rename_i heq
    cases hrun
    exact ⟨heq, rfl⟩
  · cases hrun

theorem onHeap_of_ok {α : Type} {m : HeapRoutine α} {x : α} (hrun : m s.heap = .ok (x, w)) :
    onHeap m s = .ok (x, ⟨w, s.bytes⟩) := by
  rw [onHeap, hrun]

theorem mallocBytes_of_ok (hrun : malloc size page s.heap = .ok (r, w)) (own : Memory) :
    mallocBytes size page own s = .ok (r, ⟨w, scribble w r own s.bytes⟩) := by
  rw [mallocBytes, Routine.bind_of_ok (onHeap_of_ok hrun)]
  rfl

theorem mallocBytes_ok {own : Memory} (hrun : mallocBytes size page own s = .ok (r, t)) :
    malloc size page s.heap = .ok (r, t.heap) := by
  obtain ⟨p, u, hmalloc, hrest⟩ := Routine.bind_ok.mp hrun
  cases hrest
  exact (onHeap_ok hmalloc).1

theorem freeBytes_of_ok {u : Unit} (hrun : free (some b) s.heap = .ok (u, w)) (own : Memory) :
    freeBytes (some b) own s = .ok ((), ⟨w, freedBytes s.heap w b own s.bytes⟩) := by
  rw [freeBytes, Routine.get_bind_apply, Routine.bind_of_ok (onHeap_of_ok hrun)]
  rfl

theorem freeBytes_ok {u : Unit} {p : Option Nat} {own : Memory}
    (hrun : freeBytes p own s = .ok (u, t)) : free p s.heap = .ok (u, t.heap) := by
  rw [freeBytes, Routine.get_bind_apply] at hrun
  obtain ⟨u', s', hfree, hrest⟩ := Routine.bind_ok.mp hrun
  cases p <;> cases hrest <;> exact (onHeap_ok hfree).1

/-- A request that is refused. -/
theorem malloc_noBlock (h : NoBlock w size page) : malloc size page w = .ok (none, w) := by
  unfold malloc
  split_ifs with hzero
  · rfl
  obtain ⟨rfl, hnil⟩ := h.resolve_left hzero
  cases hfind : descs.findIdx? (fun d => size ≤ d.blockSize) with
  | none => rfl
  | some i =>
    have hrefill : refill i none w = .ok (false, w) := by
      rw [refill, Routine.get_bind_apply, if_pos (hnil i hfind)]
      rfl
    exact Routine.bind_of_ok hrefill _

/-- A request that does not wrap around, or is refused. -/
theorem malloc_sound (h : Valid w ∧ Used w) (hdomain : (HeapOp.malloc size page).InDomain w)
    (hfits : FitsWord size ∨ NoBlock w size page) :
    ∃ r w', malloc size page w = .ok (r, w') ∧ (Valid w' ∧ Used w') ∧
      ∀ q, r = some q → w'.live = (q, size) :: w.live := by
  rcases hfits with hfits | hnone
  · obtain ⟨r, w', hrun, hsound⟩ := Routine.ok_of_wp (wp_malloc h.1 h.2 hdomain.2 fun _ _ => by
      unfold FitsWord at hfits
      omega)
    refine ⟨r, w', hrun, hsound, ?_⟩
    rintro q rfl
    cases malloc_result h.1 h.2 hdomain.2 hrun with
    | big a hpage hsize => rfl
    | small i b w' hdesc hsize hlive hblock => exact hlive
  · exact ⟨none, w, malloc_noBlock hnone, h, nofun⟩

theorem noBlock_of_none (h : Valid w) (hused : Used w)
    (hdomain : (HeapOp.malloc size page).InDomain w)
    (hrun : malloc size page w = .ok (none, w')) : NoBlock w size page := by
  generalize hr : (none : Option Nat) = r at hrun
  cases malloc_result h hused hdomain.2 hrun with
  | none hnone => exact hnone
  | big => cases hr
  | small => cases hr

/-- A block that was not refused is one of pages, or a small one. -/
theorem MallocResult.cases_some {q : Nat} (h : MallocResult w size page (some q) w') :
    (FitsWord size ∧ FitsWord (blockSize w' q)) ∨ ∃ a, page = some a ∧ q = a + arenaSize ∧
      w'.arena a = some ⟨Option.none, bigPages size⟩ := by
  cases h with
  | big a hpage hsize => exact .inr ⟨a, hpage, rfl, Function.update_self ..⟩
  | small i b w' hdesc hsize hlive hblock =>
    obtain ⟨-, hcnt, hfit⟩ := descs_fit _ hdesc
    have hle := Nat.mul_le_mul_right (desc i).blockSize (Nat.le_of_lt hcnt)
    rw [hblock]
    unfold FitsWord
    unfold pgSize at hfit
    exact .inl ⟨by omega, by omega⟩

/-- The pages of an arena and its header fit in a word. -/
theorem fitsWord_blockSize (harena : w.arena a = some ⟨none, bigPages n⟩) (ha : a % pgSize = 0) :
    FitsWord (blockSize w (a + arenaSize)) := by
  have hround : pgRoundDown (a + arenaSize) = a :=
    pgRoundDown_eq ha (Nat.le_add_right ..) (by unfold arenaSize pgSize; omega)
  rw [blockSize, hround, harena]
  unfold FitsWord bigPages arenaSize pgSize at *
  dsimp only
  omega

end Calls

/-! ### What one call does -/

def Sound (s : MemHeap) : Prop := Valid s.heap ∧ Used s.heap

section Steps

variable {s t : MemHeap} {old : Option Nat} {own own' : Memory}

theorem mallocBytes_sound (h : Sound s) (hdomain : (HeapOp.malloc size page).InDomain s.heap)
    (hfits : FitsWord size ∨ NoBlock s.heap size page) (own : Memory) :
    ∃ r t, mallocBytes size page own s = .ok (r, t) ∧ Sound t ∧
      ∀ q, r = some q → t.heap.live = (q, size) :: s.heap.live ∧ size ≤ blockSize t.heap q ∧
        t.bytes = scribble t.heap (some q) own s.bytes := by
  obtain ⟨r, w', hrun, hsound, hlive⟩ := malloc_sound h hdomain hfits
  refine ⟨r, _, mallocBytes_of_ok hrun own, hsound, ?_⟩
  rintro q rfl
  have hmem : (q, size) ∈ w'.live := by
    rw [hlive q rfl]
    exact List.mem_cons_self
  obtain ⟨-, -, -, -, hsize⟩ := hsound.1.inside hmem
  exact ⟨hlive q rfl, hsize, rfl⟩

theorem freeBytes_sound (h : Sound s) (hdomain : (HeapOp.free old).InDomain s.heap)
    (own : Memory) : ∃ t, freeBytes old own s = .ok ((), t) ∧ Sound t := by
  cases old with
  | none => exact ⟨s, rfl, h⟩
  | some p =>
    obtain ⟨size, hlive⟩ := hdomain
    obtain ⟨_, w', hrun, hsound⟩ := Routine.ok_of_wp (wp_free h.1 h.2 hlive)
    exact ⟨_, freeBytes_of_ok hrun own, hsound⟩

theorem calloc_sound (h : Sound s) (hdomain : (SizeOp.calloc a b page own).InDomain s.heap)
    (hfits : (SizeOp.calloc a b page own).Fits s.heap) :
    ∃ r t, calloc a b page own s = .ok (r, t) ∧ Sound t ∧
      (SizeOp.calloc a b page own).Honest s r t := by
  rw [calloc]
  split_ifs with hover
  · exact ⟨none, s, rfl, h, nofun⟩
  obtain ⟨-, -, hdomain⟩ := hdomain
  have hcases : FitsWord (a * b) ∨ NoBlock s.heap (a * b % 2 ^ 32) page := by
    rcases hfits with hfits | hlt | hlt | hnone
    · exact .inl hfits
    · exact absurd (.inl hlt) hover
    · exact absurd (.inr hlt) hover
    · exact .inr hnone
  have hfits' : FitsWord (a * b % 2 ^ 32) ∨ NoBlock s.heap (a * b % 2 ^ 32) page :=
    hcases.imp_left fun hword => by
      unfold FitsWord arenaSize at *
      omega
  obtain ⟨r, t, hrun, hsound, hblock⟩ := mallocBytes_sound h hdomain hfits' own
  rw [Routine.bind_of_ok hrun]
  cases r with
  | none => exact ⟨none, t, rfl, hsound, nofun⟩
  | some q =>
    refine ⟨some q, _, rfl, hsound, ?_⟩
    rintro _ ⟨⟩
    obtain ⟨-, hsize, -⟩ := hblock q rfl
    have hword : FitsWord (a * b) := by
      refine hcases.resolve_right fun hnone => ?_
      have hrun' := mallocBytes_of_ok (malloc_noBlock hnone) own
      rw [hrun] at hrun'
      cases hrun'
    have hproduct : a * b % 2 ^ 32 = a * b := by
      unfold FitsWord arenaSize at hword
      exact Nat.mod_eq_of_lt (by omega)
    rw [hproduct] at hsize ⊢
    refine ⟨hsize, fun i hi => ?_⟩
    have hzero := Memory.holds_store t.bytes q (List.replicate (a * b) 0) i (by simpa using hi)
    rw [List.getElem_replicate] at hzero
    exact hzero

/-- `realloc` of an allocated block, where `malloc` has returned `q`. -/
theorem realloc_copies {q n p size : Nat} (h1 : Sound t)
    (hp : (p, size) ∈ s.heap.live) (hlive : t.heap.live = (q, n) :: s.heap.live)
    (hbytes : t.bytes = scribble t.heap (some q) own s.bytes) (own' : Memory) :
    ∃ u, (do
        let oldSize ← onHeap (blockSizeOf p)
        let minSize := if n < oldSize then n else oldSize
        modifyBytes fun m => m.store q (readBytes m p minSize)
        freeBytes (some p) own'
        pure (some q) : MemRoutine (Option Nat)) t = .ok (some q, u) ∧ Sound u ∧
      n ≤ blockSize u.heap q ∧ ∀ i < min size n, u.bytes (q + i) = s.bytes (p + i) := by
  have hp1 : (p, size) ∈ t.heap.live := by
    rw [hlive]
    exact List.mem_cons_of_mem _ hp
  have hq1 : (q, n) ∈ t.heap.live := by
    rw [hlive]
    exact List.mem_cons_self
  have hne : q ≠ p := by
    have hdistinct := h1.1.distinct
    rw [hlive, List.map_cons, List.nodup_cons] at hdistinct
    rintro rfl
    exact hdistinct.1 (List.mem_map.mpr ⟨_, hp, rfl⟩)
  obtain ⟨-, -, -, -, hpsize⟩ := h1.1.inside hp1
  obtain ⟨-, -, -, -, hqsize⟩ := h1.1.inside hq1
  obtain ⟨_, w2, hfree, hsound⟩ := Routine.ok_of_wp (wp_free h1.1 h1.2 hp1)
  obtain ⟨hlive2, -⟩ := free_result hfree
  have hq2 : (q, n) ∈ w2.live := by
    rw [hlive2]
    exact List.mem_filter.mpr ⟨hq1, decide_eq_true hne⟩
  obtain ⟨-, -, -, -, hqsize2⟩ := hsound.1.inside hq2
  rw [Routine.bind_of_ok (onHeap_of_ok (blockSizeOf_live h1.1 hp1))]
  rw [modifyBytes, Routine.modify_bind_apply]
  generalize hmin : (if n < blockSize t.heap p then n else blockSize t.heap p) = minSize
  have hle : min size n ≤ minSize := by
    rw [← hmin]
    split_ifs <;> omega
  have hfree' : free (some p)
      (MemHeap.mk t.heap (t.bytes.store q (readBytes t.bytes p minSize))).heap = .ok ((), w2) :=
    hfree
  rw [Routine.bind_of_ok (freeBytes_of_ok hfree' own')]
  refine ⟨_, rfl, hsound, hqsize2, fun i hi => ?_⟩
  have hlength : i < (readBytes t.bytes p minSize).length := by
    rw [readBytes, List.length_map, List.length_range]
    omega
  have hcopy := Memory.holds_store t.bytes q (readBytes t.bytes p minSize) i hlength
  calc freedBytes t.heap w2 p own' (t.bytes.store q (readBytes t.bytes p minSize)) (q + i)
      = t.bytes.store q (readBytes t.bytes p minSize) (q + i) :=
        freedBytes_live h1.1 hsound.1 hq1 hq2 hp1 hne own' _ (by omega)
    _ = (readBytes t.bytes p minSize)[i] := hcopy
    _ = t.bytes (p + i) := by simp [readBytes]
    _ = s.bytes (p + i) := by
      rw [hbytes]
      exact h1.1.scribble_live hp1 hq1 hne.symm own _ (by omega)

theorem realloc_sound {n : Nat}
    (h : Sound s) (hdomain : (SizeOp.realloc old n page own own').InDomain s.heap)
    (hfits : (SizeOp.realloc old n page own own').Fits s.heap) :
    ∃ r t, realloc old n page own own' s = .ok (r, t) ∧ Sound t ∧
      (SizeOp.realloc old n page own own').Honest s r t := by
  rw [realloc]
  split_ifs with hzero
  · obtain ⟨t, hrun, hsound⟩ := freeBytes_sound h hdomain.1 own'
    exact ⟨none, t, Routine.bind_of_ok hrun _, hsound, nofun⟩
  obtain ⟨r, t, hrun, hsound, hblock⟩ := mallocBytes_sound h hdomain.2 hfits own
  rw [Routine.bind_of_ok hrun]
  cases r with
  | none => cases old <;> exact ⟨none, t, rfl, hsound, nofun⟩
  | some q =>
    obtain ⟨hlive, hsize, hbytes⟩ := hblock q rfl
    cases old with
    | none =>
      refine ⟨some q, t, rfl, hsound, ?_⟩
      rintro _ ⟨⟩
      exact ⟨hsize, nofun⟩
    | some p =>
      obtain ⟨size, hp⟩ := hdomain.1
      obtain ⟨u, hrest, hsound', hsize', -⟩ := realloc_copies hsound hp hlive hbytes own'
      refine ⟨some q, u, hrest, hsound', ?_⟩
      rintro _ ⟨⟩
      refine ⟨hsize', ?_⟩
      rintro _ size' ⟨⟩ hp'
      obtain ⟨u', hrest', -, -, hcopied⟩ := realloc_copies hsound hp' hlive hbytes own'
      rw [hrest] at hrest'
      cases hrest'
      exact hcopied

theorem size_sound {op : SizeOp} (h : Sound s) (hdomain : op.InDomain s.heap)
    (hfits : op.Fits s.heap) :
    ∃ r t, op.exec s = .ok (r, t) ∧ Sound t ∧ op.Honest s r t := by
  cases op with
  | malloc size page own =>
    obtain ⟨r, t, hrun, hsound, hblock⟩ := mallocBytes_sound h hdomain hfits own
    exact ⟨r, t, hrun, hsound, fun q hq => (hblock q hq).2.1⟩
  | calloc a b page own => exact calloc_sound h hdomain hfits
  | realloc old n page own own' => exact realloc_sound h hdomain hfits
  | free p own =>
    obtain ⟨t, hrun, hsound⟩ := freeBytes_sound h hdomain own
    exact ⟨none, t, Routine.bind_of_ok hrun _, hsound, trivial⟩
  | write bytes => exact ⟨none, { s with bytes := bytes }, rfl, h, trivial⟩

/-- A block that stays as large as requested was not one for a request that wraps around. -/
theorem fits_of_le {q : Nat} (h : Sound s) (hdomain : (HeapOp.malloc size page).InDomain s.heap)
    (hrun : malloc size page s.heap = .ok (some q, w))
    (hsame : ∀ a, s.heap.arena a = none → w'.arena a = w.arena a)
    (hle : size ≤ blockSize w' q) : FitsWord size := by
  rcases (malloc_result h.1 h.2 hdomain.2 hrun).cases_some with
    ⟨hfits, -⟩ | ⟨a, hpage, rfl, harena⟩
  · exact hfits
  · have hhanded := hdomain.2 a hpage
    rw [← hsame a (hhanded.arena_eq_none h.1)] at harena
    have hfits := fitsWord_blockSize harena hhanded.2.1
    unfold FitsWord at *
    omega

theorem calloc_fits {r : Option Nat} (h : Sound s)
    (hdomain : (SizeOp.calloc a b page own).InDomain s.heap)
    (hrun : calloc a b page own s = .ok (r, t))
    (hhonest : (SizeOp.calloc a b page own).Honest s r t) :
    (SizeOp.calloc a b page own).Fits s.heap := by
  by_cases hover : a * b % 2 ^ 32 < a ∨ a * b % 2 ^ 32 < b
  · exact .inr (hover.imp_right .inl)
  rw [calloc, if_neg hover] at hrun
  obtain ⟨p, u, hmalloc, hrest⟩ := Routine.bind_ok.mp hrun
  replace hmalloc := mallocBytes_ok hmalloc
  obtain ⟨-, -, hdomain⟩ := hdomain
  cases p with
  | none => exact .inr (.inr (.inr (noBlock_of_none h.1 h.2 hdomain hmalloc)))
  | some q =>
    cases hrest
    obtain ⟨hsize, -⟩ := hhonest q rfl
    replace hsize : a * b ≤ blockSize u.heap q := hsize
    have hword : FitsWord (blockSize u.heap q) := by
      rcases (malloc_result h.1 h.2 hdomain.2 hmalloc).cases_some with
        ⟨-, hfits⟩ | ⟨p, hpage, rfl, harena⟩
      · exact hfits
      · exact fitsWord_blockSize harena (hdomain.2 p hpage).2.1
    refine .inl ?_
    unfold FitsWord at *
    omega

theorem realloc_fits {n : Nat} {r : Option Nat} (h : Sound s)
    (hdomain : (SizeOp.realloc old n page own own').InDomain s.heap)
    (hrun : realloc old n page own own' s = .ok (r, t))
    (hhonest : (SizeOp.realloc old n page own own').Honest s r t) :
    (SizeOp.realloc old n page own own').Fits s.heap := by
  by_cases hzero : n = 0
  · exact .inr (.inl hzero)
  rw [realloc, if_neg hzero] at hrun
  obtain ⟨new, u, hmalloc, hrest⟩ := Routine.bind_ok.mp hrun
  replace hmalloc := mallocBytes_ok hmalloc
  cases new with
  | none => exact .inr (noBlock_of_none h.1 h.2 hdomain.2 hmalloc)
  | some q =>
    refine .inl ?_
    cases old with
    | none =>
      cases hrest
      exact fits_of_le h hdomain.2 hmalloc (fun _ _ => rfl) (hhonest q rfl).1
    | some p =>
      obtain ⟨size, hp⟩ := hdomain.1
      obtain ⟨arena, harena, -⟩ := h.1.inside hp
      obtain ⟨oldSize, u1, hsizeOf, hrest1⟩ := Routine.bind_ok.mp hrest
      obtain ⟨_, u2, hcopy, hrest2⟩ := Routine.bind_ok.mp hrest1
      obtain ⟨_, u3, hfree, hlast⟩ := Routine.bind_ok.mp hrest2
      cases hcopy
      cases hlast
      have hlook := blockSizeOf_same _ _ _ _ (onHeap_ok hsizeOf).1
      obtain ⟨-, hothers⟩ := free_result (freeBytes_ok hfree)
      refine fits_of_le h hdomain.2 hmalloc (fun a ha => ?_) (hhonest q rfl).1
      rw [hothers a, ← hlook.1]
      rintro rfl
      rw [harena] at ha
      cases ha

/-- A call that is honest does not wrap around. -/
theorem size_fits {op : SizeOp} {r : Option Nat} (h : Sound s) (hdomain : op.InDomain s.heap)
    (hrun : op.exec s = .ok (r, t)) (hhonest : op.Honest s r t) : op.Fits s.heap := by
  cases op with
  | malloc size page own =>
    have hmalloc := mallocBytes_ok hrun
    cases r with
    | none => exact .inr (noBlock_of_none h.1 h.2 hdomain hmalloc)
    | some q => exact .inl (fits_of_le h hdomain hmalloc (fun _ _ => rfl) (hhonest q rfl))
  | calloc a b page own => exact calloc_fits h hdomain hrun hhonest
  | realloc old n page own own' => exact realloc_fits h hdomain hrun hhonest
  | free p own => trivial
  | write bytes => trivial

end Steps

/-! ### Sequences of calls -/

/-- Over any sequence of calls, every call returns a block as large as requested and with the right
bytes, if and only if no call that is not refused wraps around. -/
theorem sizes_honest_iff (ops : List SizeOp) (m : Memory)
    (hdomain : ∀ op s, Routine.Takes SizeOp.exec ops ⟨Heap.init, m⟩ op s → op.InDomain s.heap) :
    (∀ op s, Routine.Takes SizeOp.exec ops ⟨Heap.init, m⟩ op s →
      ∃ r t, op.exec s = .ok (r, t) ∧ op.Honest s r t) ↔
      ∀ op s, Routine.Takes SizeOp.exec ops ⟨Heap.init, m⟩ op s → op.Fits s.heap := by
  have hinit : Sound ⟨Heap.init, m⟩ := ⟨valid_init, used_init⟩
  have hstep : ∀ s (op : SizeOp) r t, Sound s → op.InDomain s.heap ∧ op.Fits s.heap →
      SizeOp.exec op s = .ok (r, t) → Sound t := by
    intro s op r t h hop hrun
    obtain ⟨r', t', hrun', hsound, -⟩ := size_sound h hop.1 hop.2
    rw [hrun] at hrun'
    cases hrun'
    exact hsound
  constructor
  · intro hhonest op s htakes
    have hmay : ∀ (op : SizeOp) s, Routine.Takes SizeOp.exec ops ⟨Heap.init, m⟩ op s →
        op.InDomain s.heap ∧ ∃ r t, op.exec s = .ok (r, t) ∧ op.Honest s r t := fun op s htakes =>
      ⟨hdomain op s htakes, hhonest op s htakes⟩
    have hfits : ∀ s (op : SizeOp), Sound s → (op.InDomain s.heap ∧
        ∃ r t, op.exec s = .ok (r, t) ∧ op.Honest s r t) → op.Fits s.heap := by
      rintro s op h ⟨hop, r, t, hrun, hr⟩
      exact size_fits h hop hrun hr
    have hsound : Sound s := htakes.visits_before.invariant
      (fun s op r t h hop hrun => hstep s op r t h ⟨hop.1, hfits s op h hop⟩ hrun) hmay hinit
    exact hfits s op hsound (hmay op s htakes)
  · intro hfits op s htakes
    have hmay : ∀ op s, Routine.Takes SizeOp.exec ops ⟨Heap.init, m⟩ op s →
        op.InDomain s.heap ∧ op.Fits s.heap := fun op s htakes =>
      ⟨hdomain op s htakes, hfits op s htakes⟩
    have hsound : Sound s := htakes.visits_before.invariant hstep hmay hinit
    obtain ⟨r, t, hrun, -, hhonest⟩ := size_sound hsound (hmay op s htakes).1 (hmay op s htakes).2
    exact ⟨r, t, hrun, hhonest⟩

/-- A cleared block of two pages, of which 100 bytes are kept. -/
def someSizes : List SizeOp :=
  [.calloc 1250 4 (some 8192) (fun _ => 1), .realloc (some 8204) 100 (some 4096) (fun _ => 2)
    (fun _ => 3)]

theorem sizes_honest_iff_someSizes :
    (∀ op s, Routine.Takes SizeOp.exec someSizes ⟨Heap.init, fun _ => 5⟩ op s →
      op.InDomain s.heap) ∧
      ((∀ op s, Routine.Takes SizeOp.exec someSizes ⟨Heap.init, fun _ => 5⟩ op s →
        ∃ r t, op.exec s = .ok (r, t) ∧ op.Honest s r t) ↔
        ∀ op s, Routine.Takes SizeOp.exec someSizes ⟨Heap.init, fun _ => 5⟩ op s →
          op.Fits s.heap) := by
  have hlarge : ∀ d ∈ descs, d.blockSize < 5000 := by decide
  obtain ⟨m, hfirst⟩ : ∃ m, SizeOp.exec (.calloc 1250 4 (some 8192) fun _ => 1)
      ⟨Heap.init, fun _ => 5⟩ = .ok (some 8204,
        ⟨(Heap.init.setArena 8192 (some ⟨none, 2⟩)).allocated 8204 5000, m⟩) := by
    have hmalloc := mallocBytes_of_ok (s := ⟨Heap.init, fun _ => 5⟩)
      (malloc_big (w := Heap.init) (a := 8192) hlarge) fun _ => 1
    exact ⟨_, Routine.bind_of_ok hmalloc _⟩
  have hdomain : ∀ op s, Routine.Takes SizeOp.exec someSizes ⟨Heap.init, fun _ => 5⟩ op s →
      op.InDomain s.heap := by
    intro op s htakes
    rcases (Routine.takes_cons_of_ok hfirst).mp htakes with ⟨rfl, rfl⟩ | htakes
    · refine ⟨by decide, by decide, by decide, ?_⟩
      rintro a ⟨⟩
      exact ⟨by decide, by decide, by decide, nofun⟩
    · obtain ⟨before, after, as, hsplit, hrun⟩ := htakes
      cases before with
      | nil =>
        cases hsplit
        cases hrun
        refine ⟨⟨5000, List.mem_cons_self⟩, by decide, ?_⟩
        rintro a ⟨⟩
        refine ⟨by decide, by decide, by decide, fun a' arena h => ?_⟩
        replace h : Function.update (fun _ => none) 8192 (some (Arena.mk none 2)) a' = some arena :=
          h
        rw [Function.update_apply] at h
        split_ifs at h with ha
        cases h
        rw [ha]
        exact .inl (by decide)
      | cons op' before => simp at hsplit
  exact ⟨hdomain, sizes_honest_iff someSizes _ hdomain⟩

/-- A product that wraps around to more than its factors gets a block of 33 pages. -/
theorem calloc_wraps : ¬ ∀ (ops : List SizeOp) (m : Memory),
    (∀ op s, Routine.Takes SizeOp.exec ops ⟨Heap.init, m⟩ op s → op.InDomain s.heap) →
      ∀ op s r t, Routine.Takes SizeOp.exec ops ⟨Heap.init, m⟩ op s → op.exec s = .ok (r, t) →
        op.Honest s r t := by
  intro hclaim
  have hlarge : ∀ d ∈ descs, d.blockSize < 131073 := by decide
  obtain ⟨m, hfirst⟩ : ∃ m, SizeOp.exec (.calloc 65537 65537 (some 4096) fun _ => 1)
      ⟨Heap.init, fun _ => 5⟩ = .ok (some 4108,
        ⟨(Heap.init.setArena 4096 (some ⟨none, 33⟩)).allocated 4108 131073, m⟩) := by
    have hmalloc := mallocBytes_of_ok (s := ⟨Heap.init, fun _ => 5⟩)
      (malloc_big (w := Heap.init) (a := 4096) hlarge) fun _ => 1
    exact ⟨_, Routine.bind_of_ok hmalloc _⟩
  have hdomain : ∀ op s, Routine.Takes SizeOp.exec
      [.calloc 65537 65537 (some 4096) fun _ => 1] ⟨Heap.init, fun _ => 5⟩ op s →
      op.InDomain s.heap := by
    intro op s htakes
    rcases (Routine.takes_cons_of_ok hfirst).mp htakes with ⟨rfl, rfl⟩ | htakes
    · refine ⟨by decide, by decide, by decide, ?_⟩
      rintro a ⟨⟩
      exact ⟨by decide, by decide, by decide, nofun⟩
    · exact absurd htakes Routine.not_takes_nil
  obtain ⟨hsize, -⟩ := hclaim _ _ hdomain _ _ _ _
    ((Routine.takes_cons_of_ok hfirst).mpr (.inl ⟨rfl, rfl⟩)) hfirst 4108 rfl
  replace hsize : 65537 * 65537 ≤
    blockSize ((Heap.init.setArena 4096 (some ⟨none, 33⟩)).allocated 4108 131073) 4108 := hsize
  exact absurd hsize (by decide +kernel)

end Malloc

end Pintos
