import Pintos.Filesys.Extension

/-! What calls of `inode_read_at` see of an extension.  A call that runs while no one holds `inode_lock`
returns bytes below `logical_length`; they are to be bytes that the file had before, or bytes that a
call of `inode_write_at` has copied. -/

namespace Pintos

namespace Extension

/-- A call has copied the byte at `p`. -/
def Copied (s : Extension) (p : Int) : Prop :=
  ∃ i, (s.writer i).start ≤ p ∧ p < (s.writer i).offset

/-- The loop of `inode_read_at`: the positions of the bytes that it reads, in at most `fuel`
passes. -/
def readLoop (s : Extension) : (fuel : Nat) → (size offset : Int) → List Int
  | 0, _, _ => []
  | fuel + 1, size, offset =>
    if size ≤ 0 then []
    else if s.byteToSector offset then
      let inodeLeft := s.logicalLength - offset
      let chunkSize := min size (min inodeLeft (blockSectorSize - offset % blockSectorSize))
      if chunkSize ≤ 0 then []
      else
        (List.range chunkSize.toNat).map (fun k : Nat => offset + k) ++
          s.readLoop fuel (size - chunkSize) (offset + chunkSize)
    else []

/-- `inode_read_at`: the positions of the bytes that it returns. -/
def readAt (s : Extension) (size offset : Int) : List Int :=
  if s.logicalLength = 0 then [] else s.readLoop size.toNat size offset

/-- If no one holds the lock, the bytes below `logical_length` have their values, and so have the bytes
that are read; `length` is the length before the calls. -/
def Published (length : Int) (s : Extension) : Prop :=
  s.inodeLock = none → (∀ p < s.logicalLength, p < length ∨ s.Copied p) ∧
    ∀ size offset, ∀ p ∈ s.readAt size offset, p < length ∨ s.Copied p

/-- The length that `inode_grow` gives the inode. -/
def grownLength (s : Extension) (size offset : Int) : Int :=
  if offset + size > roundUpToSectorBoundary s.length then s.length + s.growLenBytes size offset
  else offset + size

/-- The end of the sector that position `pos` lies in. -/
def sectorEnd (pos : Int) : Int := pos + (blockSectorSize - pos % blockSectorSize)

/-- A call that enters `inode_grow`, and gets the sectors that it asks for, asks for no more than the
sector that it writes next. -/
def OneChunk (length : Int) (a : WriterStep) (s : Extension) : Prop :=
  let w := s.writer a.thread
  w.pc = .grow → w.offset + w.size ≤ roundUpToSectorBoundary s.length ∨
      (s.growPlaces w.size w.offset).length ≤ a.got →
    s.grownLength w.size w.offset ≤ max length (sectorEnd w.offset)

/-- The calls start at or before the end of the file. -/
def StartsInside (a : WriterStep) (s : Extension) : Prop :=
  (s.writer a.thread).pc = .load → (s.writer a.thread).start ≤ s.length

instance decidableStartsInside (a : WriterStep) (s : Extension) : Decidable (StartsInside a s) :=
  inferInstanceAs (Decidable (_ → _))

instance decidableOneChunk (length : Int) (a : WriterStep) (s : Extension) :
    Decidable (OneChunk length a s) :=
  inferInstanceAs (Decidable (_ → _ → _))

/-! ### What is read -/

variable {s s' s1 : Extension} {length p size offset : Int} {i : Nat} {w : Writer} {a : WriterStep}

theorem readLoop_lt {fuel : Nat} (h : p ∈ s.readLoop fuel size offset) : p < s.logicalLength := by
  induction fuel generalizing size offset with
  | zero => nomatch h
  | succ fuel ih =>
    rw [readLoop] at h
    split_ifs at h with hsize hsector
    · nomatch h
    · dsimp only at h
      split_ifs at h with hchunk
      · nomatch h
      · rcases List.mem_append.mp h with h | h
        · obtain ⟨k, hk, rfl⟩ := List.mem_map.mp h
          rw [List.mem_range] at hk
          omega
        · exact ih h
    · nomatch h

theorem readAt_lt (h : p ∈ s.readAt size offset) : p < s.logicalLength := by
  unfold readAt at h
  split_ifs at h
  · nomatch h
  · exact readLoop_lt h

theorem published_of_lt (h : s.inodeLock = none → ∀ p, length ≤ p → p < s.logicalLength → s.Copied p) :
    Published length s := by
  intro hfree
  have hlt : ∀ p < s.logicalLength, p < length ∨ s.Copied p := by
    intro p hp
    rcases lt_or_ge p length with hlow | hhigh
    · exact .inl hlow
    · exact .inr (h hfree p hhigh hp)
  exact ⟨hlt, fun size offset p hp => hlt p (readAt_lt hp)⟩

/-! ### Growing -/

theorem roundUpToSectorBoundary_bounds {length : Int} (h : 0 ≤ length)
    (hle : length + 512 ≤ 2 ^ 31) : length ≤ roundUpToSectorBoundary length ∧
      roundUpToSectorBoundary length < length + 512 ∧
      roundUpToSectorBoundary length = 512 * bytesToSectors length := by
  have hdiv : (length + blockSectorSize - 1).tdiv blockSectorSize = (length + 511) / 512 := by
    rw [Int.tdiv_eq_ediv_of_nonneg (by unfold blockSectorSize; omega)]
    unfold blockSectorSize
    omega
  have hcnt : (bytesToSectors length : Int) = (length + 511) / 512 := by
    rw [bytesToSectors, hdiv]
    unfold toWord
    omega
  unfold roundUpToSectorBoundary sectorsToBytes toOff blockSectorSize
  omega

/-- A place that `inode_grow` gets a sector for. -/
theorem mem_growPlaces {k : Nat} (hk : k < bytesToSectors (s.growLenBytes size offset)) :
    toWord ((if s.length ≤ blockSectorSize then (s.inodeStart : Int)
      else toWord (s.inodeStart + bytesToSectors s.length - 1)) + (k + 1) - s.inodeStart) ∈
      s.growPlaces size offset := by
  rw [growPlaces, List.mem_map]
  have hmem : k ∈ List.range (bytesToSectors (s.growLenBytes size offset)) := List.mem_range.mpr hk
  refine ⟨k, ?_, rfl⟩
  rw [bind_pure_comp]
  exact List.mem_map_of_mem hmem

/-- The last sector that `inode_grow` gets a place for is in the range of the index. -/
theorem growPlaces_last (h : 0 ≤ s.length) (hle : s.length + 512 ≤ 2 ^ 31)
    (hmore : offset + size > roundUpToSectorBoundary s.length) (hsum : offset + size < 2 ^ 31)
    (hplaces : ∀ j ∈ s.growPlaces size offset, j ≤ inodeAccessIndirect) :
    offset + size ≤ 512 * (inodeAccessIndirect + 1) := by
  obtain ⟨hup, hlow, hround⟩ := roundUpToSectorBoundary_bounds h hle
  have hgrow : s.growLenBytes size offset = offset + size - roundUpToSectorBoundary s.length := rfl
  have hdiv : (s.growLenBytes size offset + blockSectorSize - 1).tdiv blockSectorSize =
      (s.growLenBytes size offset + 511) / 512 := by
    rw [Int.tdiv_eq_ediv_of_nonneg (by unfold blockSectorSize; omega)]
    unfold blockSectorSize
    omega
  have hcnt : (bytesToSectors (s.growLenBytes size offset) : Int) =
      (s.growLenBytes size offset + 511) / 512 := by
    rw [bytesToSectors, hdiv]
    unfold toWord
    omega
  have hk : bytesToSectors (s.growLenBytes size offset) - 1 <
      bytesToSectors (s.growLenBytes size offset) := by omega
  have hlast := hplaces _ (mem_growPlaces hk)
  unfold toWord inodeAccessIndirect inodeAccessDirect directBlocks indirectBlocks
    indexBlockEntries at *
  split_ifs at hlast with hshort
  · unfold blockSectorSize at hshort
    omega
  · omega

/-- `inode_grow` changes the length and the sectors only. -/
theorem inodeGrow_same {b : Bool} (hgrow : s.inodeGrow size offset got = some (s', b)) :
    s'.logicalLength = s.logicalLength ∧ s'.inodeLock = s.inodeLock := by
  unfold inodeGrow at hgrow
  split at hgrow
  · nomatch hgrow
  · split at hgrow
    · dsimp only at hgrow
      split at hgrow
      · nomatch hgrow
      · split at hgrow <;> cases hgrow <;> exact ⟨rfl, rfl⟩
    · cases hgrow
      exact ⟨rfl, rfl⟩

/-- Where `inode_grow` succeeds, it has got every sector, and the index has room for them. -/
theorem growPlaces_le (hmore : offset + size > roundUpToSectorBoundary s.length)
    (hgrow : s.inodeGrow size offset got = some (s', true)) :
    (s.growPlaces size offset).length ≤ got ∧ offset + size < 2 ^ 31 ∧
      ∀ j ∈ s.growPlaces size offset, j ≤ inodeAccessIndirect := by
  have hsum : ¬ 2 ^ 31 ≤ offset + size := by
    intro hlarge
    rw [inodeGrow, if_pos hlarge] at hgrow
    nomatch hgrow
  rw [inodeGrow, if_neg hsum, if_pos hmore] at hgrow
  dsimp only at hgrow
  split at hgrow
  · nomatch hgrow
  rename_i hany
  split at hgrow
  · rename_i hgot
    refine ⟨hgot, by omega, fun j hj => ?_⟩
    rw [List.take_of_length_le (by omega), List.any_eq_true] at hany
    by_contra hlt
    exact hany ⟨j, hj, decide_eq_true (by omega)⟩
  · nomatch hgrow

/-- `inode_grow` gives the inode its new length, which is not past what the call wants. -/
theorem inodeGrow_true (h : 0 ≤ s.length) (hle : s.length + 512 ≤ 2 ^ 31) (hsum : 0 ≤ offset + size)
    (hgrow : s.inodeGrow size offset got = some (s', true)) :
    s'.length = s.grownLength size offset ∧ s'.length ≤ offset + size ∧ 0 ≤ s'.length ∧
      s'.length + 512 ≤ 2 ^ 31 := by
  obtain ⟨hup, hlow, hround⟩ := roundUpToSectorBoundary_bounds h hle
  have hgrowLen : s.growLenBytes size offset =
      offset + size - roundUpToSectorBoundary s.length := rfl
  obtain ⟨-, ⟨hmore, -, hlength⟩ | ⟨-, hfalse, -⟩ | ⟨hless, -, hlength⟩⟩ := inodeGrow_cases hgrow
  · obtain ⟨-, hlt, hplaces⟩ := growPlaces_le hmore hgrow
    have hlast := growPlaces_last h hle hmore hlt hplaces
    rw [grownLength, if_pos hmore]
    unfold inodeAccessIndirect inodeAccessDirect directBlocks indirectBlocks indexBlockEntries
      at hlast
    omega
  · nomatch hfalse
  · rw [grownLength, if_neg (by omega)]
    omega

/-! ### What is copied -/

/-- The call holds the lock. -/
def HoldsLock : WriterPc → Prop
  | .grow | .look true | .copy true _ | .logical _ | .release _ => True
  | _ => False

/-- The call has grown the inode and not yet copied its chunk. -/
def Copying : WriterPc → Prop
  | .look true | .copy true _ => True
  | _ => False

theorem Copying.holdsLock {pc : WriterPc} (h : Copying pc) : HoldsLock pc := by
  cases pc with
  | look isGrowing | copy isGrowing => cases isGrowing <;> exact h
  | _ => exact h.elim

/-- The byte at `p` is copied, or it is in the chunk that is copied next. -/
def Settled (s : Extension) (p : Int) : Prop :=
  s.Copied p ∨ ∃ i, Copying (s.writer i).pc ∧ (s.writer i).offset ≤ p ∧ p < s.length

/-- What is known of a call at its next step: a chunk that grows the inode reaches its end. -/
def Reaches (length length' : Int) (w : Writer) : Prop :=
  match w.pc with
  | .acquire | .grow => 0 < w.size
  | .look true => 0 < w.size ∧ length' ≤ max length (sectorEnd w.offset) ∧
    length' ≤ w.offset + w.size
  | .copy isGrowing chunkSize =>
    0 < chunkSize ∧ (isGrowing = true → length' ≤ max length (w.offset + chunkSize))
  | _ => True

/-- The bytes from `length` on are copied or in a chunk that is copied next, up to the end and up to
the offset of each call. -/
structure Kept (length : Int) (s : Extension) : Prop where
  range : 0 ≤ s.length ∧ s.length + 512 ≤ 2 ^ 31
  start : ∀ i, 0 ≤ (s.writer i).start ∧ (s.writer i).start ≤ (s.writer i).offset
  load : ∀ i, (s.writer i).pc = .load → (s.writer i).offset = (s.writer i).start
  locked : ∀ i, HoldsLock (s.writer i).pc → s.inodeLock = some i
  reaches : ∀ i, Reaches length s.length (s.writer i)
  logical : ∀ p, length ≤ p → p < s.logicalLength → s.Copied p
  settled : ∀ p, length ≤ p → p < s.length → s.Settled p
  before : ∀ i, (s.writer i).pc ≠ .load → ∀ p, length ≤ p → p < (s.writer i).offset → s.Settled p

/-- Who holds the lock, and is not copying, leaves nothing to be copied. -/
theorem Kept.copied (h : Kept length s) (hlock : ∀ i, s.inodeLock = some i →
    ¬ Copying (s.writer i).pc) (hp : s.Settled p) : s.Copied p := by
  rcases hp with hp | ⟨i, hcopying, -⟩
  · exact hp
  · exact absurd hcopying (hlock i (h.locked i hcopying.holdsLock))

@[simp] theorem setWriter_length : (s.setWriter i w).length = s.length := rfl

@[simp] theorem setWriter_logicalLength : (s.setWriter i w).logicalLength = s.logicalLength := rfl

theorem setWriter_self : (s.setWriter i w).writer i = w := Function.update_self ..

theorem setWriter_other {j : Nat} (hne : j ≠ i) : (s.setWriter i w).writer j = s.writer j :=
  Function.update_of_ne hne ..

section OneCall

/-- A call goes on from `s`; the rest of the state is that of `s1`. -/
structure GoesOn (s s1 : Extension) (i : Nat) (w : Writer) : Prop where
  writer : s1.writer = s.writer
  start : w.start = (s.writer i).start
  offset : (s.writer i).offset ≤ w.offset

variable (hgoes : GoesOn s s1 i w)

include hgoes

theorem GoesOn.copied (hp : s.Copied p) : (s1.setWriter i w).Copied p := by
  obtain ⟨j, hstart, hoffset⟩ := hp
  refine ⟨j, ?_⟩
  by_cases hji : j = i
  · subst hji
    have hstart' := hgoes.start
    have hoffset' := hgoes.offset
    rw [setWriter_self]
    omega
  · rw [setWriter_other hji, hgoes.writer]
    exact ⟨hstart, hoffset⟩

/-- What is settled stays so, if the call still copies it or has copied it. -/
theorem GoesOn.settled (hlength : s1.length = s.length)
    (hself : Copying (s.writer i).pc → (s.writer i).offset ≤ p → p < s.length →
      (s1.setWriter i w).Settled p) (hp : s.Settled p) : (s1.setWriter i w).Settled p := by
  rcases hp with hp | ⟨j, hcopying, hoffset, hlt⟩
  · exact .inl (hgoes.copied hp)
  · by_cases hji : j = i
    · subst hji
      exact hself hcopying hoffset hlt
    · refine .inr ⟨j, ?_⟩
      rw [setWriter_other hji, hgoes.writer, setWriter_length, hlength]
      exact ⟨hcopying, hoffset, hlt⟩

/-- A call goes on. -/
theorem Kept.goesOn (h : Kept length s) (hload : w.pc ≠ .load)
    (hrange : 0 ≤ s1.length ∧ s1.length + 512 ≤ 2 ^ 31)
    (hothers : s1.length = s.length ∨ s.inodeLock = some i)
    (hlock : ∀ j, j ≠ i → HoldsLock (s.writer j).pc → s1.inodeLock = some j)
    (hlocked : HoldsLock w.pc → s1.inodeLock = some i) (hreaches : Reaches length s1.length w)
    (hlogical : ∀ p, length ≤ p → p < s1.logicalLength → (s1.setWriter i w).Copied p)
    (hsettled : ∀ p, length ≤ p → p < s1.length → (s1.setWriter i w).Settled p)
    (hbefore : ∀ p, length ≤ p → p < w.offset → (s1.setWriter i w).Settled p)
    (hkeeps : ∀ p, length ≤ p → s.Settled p → (s1.setWriter i w).Settled p) :
    Kept length (s1.setWriter i w) := by
  refine ⟨hrange, fun j => ?_, fun j hj => ?_, fun j hj => ?_, fun j => ?_, hlogical, hsettled,
    fun j hj p hp hlt => ?_⟩ <;> by_cases hji : j = i
  · rw [hji, setWriter_self, hgoes.start]
    exact ⟨(h.start i).1, (h.start i).2.trans hgoes.offset⟩
  · rw [setWriter_other hji, hgoes.writer]
    exact h.start j
  · rw [hji, setWriter_self] at hj
    exact absurd hj hload
  · rw [setWriter_other hji, hgoes.writer] at hj ⊢
    exact h.load j hj
  · rw [hji, setWriter_self] at hj
    rw [hji]
    exact hlocked hj
  · rw [setWriter_other hji, hgoes.writer] at hj
    exact hlock j hji hj
  · rw [hji, setWriter_self]
    exact hreaches
  · rw [setWriter_other hji, hgoes.writer, setWriter_length]
    rcases hothers with hlength | hheld
    · rw [hlength]
      exact h.reaches j
    · have hfree : ¬ HoldsLock (s.writer j).pc := fun hj =>
        hji (Option.some.inj ((h.locked j hj).symm.trans hheld))
      have hj := h.reaches j
      unfold Reaches at hj ⊢
      cases hpc : (s.writer j).pc with
      | look isGrowing =>
        rw [hpc] at hfree
        cases isGrowing with
        | true => exact absurd trivial hfree
        | false => trivial
      | copy isGrowing chunkSize =>
        rw [hpc] at hfree hj
        cases isGrowing with
        | true => exact absurd trivial hfree
        | false => exact ⟨hj.1, nofun⟩
      | _ =>
        rw [hpc] at hj
        exact hj
  · rw [hji, setWriter_self] at hlt
    exact hbefore p hp hlt
  · rw [setWriter_other hji, hgoes.writer] at hj hlt
    exact hkeeps p hp (h.before j hj p hp hlt)

end OneCall

/-- A step of a call that does not change what is shared, nor its offset. -/
theorem Kept.moves (h : Kept length s) {pc : WriterPc}
    (hload : pc ≠ .load) (hlocked : HoldsLock pc ↔ HoldsLock (s.writer i).pc)
    (hreaches : Reaches length s.length { s.writer i with pc := pc })
    (hcopying : Copying (s.writer i).pc → Copying pc ∨ s.length ≤ (s.writer i).offset)
    (hbefore : ∀ p, length ≤ p → p < (s.writer i).offset → s.Settled p) :
    Kept length (s.setWriter i { s.writer i with pc := pc }) := by
  have hgoes : GoesOn s s i { s.writer i with pc := pc } := ⟨rfl, rfl, le_rfl⟩
  have hkeeps : ∀ p, s.Settled p →
      (s.setWriter i { s.writer i with pc := pc }).Settled p := by
    intro p
    refine hgoes.settled rfl fun hself hoffset hlt => ?_
    rcases hcopying hself with hpc | hle
    · refine .inr ⟨i, ?_⟩
      rw [setWriter_self]
      exact ⟨hpc, hoffset, hlt⟩
    · omega
  exact h.goesOn hgoes hload h.range (.inl rfl) (fun j _ => h.locked j)
    (fun hpc => h.locked i (hlocked.mp hpc)) hreaches
    (fun p hp hlt => hgoes.copied (h.logical p hp hlt))
    (fun p hp hlt => hkeeps p (h.settled p hp hlt))
    (fun p hp hlt => hkeeps p (hbefore p hp hlt)) (fun p _ => hkeeps p)

/-- A call acquires the lock. -/
theorem Kept.acquires (h : Kept length s) (hpc : (s.writer i).pc = .acquire)
    (hfree : s.inodeLock = none) :
    Kept length ({ s with inodeLock := some i }.setWriter i { s.writer i with pc := .grow }) := by
  have hgoes : GoesOn s { s with inodeLock := some i } i { s.writer i with pc := .grow } :=
    ⟨rfl, rfl, le_rfl⟩
  have hnone : ∀ j, ¬ HoldsLock (s.writer j).pc := by
    intro j hj
    have hheld := h.locked j hj
    rw [hfree] at hheld
    nomatch hheld
  have hcopied : ∀ p, s.Settled p → s.Copied p := by
    intro p
    refine h.copied fun j hj => ?_
    rw [hfree] at hj
    nomatch hj
  have hload : (s.writer i).pc ≠ .load := by
    rw [hpc]
    nofun
  have hreaches := h.reaches i
  unfold Reaches at hreaches
  rw [hpc] at hreaches
  exact h.goesOn hgoes nofun h.range (.inl rfl) (fun j _ hj => absurd hj (hnone j)) (fun _ => rfl)
    hreaches (fun p hp hlt => hgoes.copied (h.logical p hp hlt))
    (fun p hp hlt => .inl (hgoes.copied (hcopied p (h.settled p hp hlt))))
    (fun p hp hlt => .inl (hgoes.copied (hcopied p (h.before i hload p hp hlt))))
    (fun p _ hp => .inl (hgoes.copied (hcopied p hp)))

/-- `inode_grow` has given the inode a new length. -/
theorem Kept.grows (h : Kept length s) (hpc : (s.writer i).pc = .grow)
    (hgrow : s.inodeGrow (s.writer i).size (s.writer i).offset got = some (s1, true))
    (hchunk : s.grownLength (s.writer i).size (s.writer i).offset ≤
      max length (sectorEnd (s.writer i).offset)) :
    Kept length (s1.setWriter i { s.writer i with pc := .look true }) := by
  obtain ⟨hwriter, -⟩ := inodeGrow_cases hgrow
  have hgoes : GoesOn s s1 i { s.writer i with pc := .look true } := ⟨hwriter, rfl, le_rfl⟩
  have hheld := h.locked i (by rw [hpc]; trivial)
  have hsize := h.reaches i
  unfold Reaches at hsize
  rw [hpc] at hsize
  dsimp only at hsize
  have hstart := h.start i
  have hload : (s.writer i).pc ≠ .load := by
    rw [hpc]
    nofun
  obtain ⟨hlength, hwants, hrange⟩ :=
    inodeGrow_true h.range.1 h.range.2 (by omega) hgrow
  have hcopied : ∀ p, s.Settled p → s.Copied p := by
    intro p
    refine h.copied fun j hj => ?_
    cases hheld.symm.trans hj
    rw [hpc]
    exact id
  obtain ⟨hlogical, hlock⟩ := inodeGrow_same hgrow
  -- what lies from the offset on is in the chunk that is copied next
  have hsettled : ∀ p, length ≤ p → p < s1.length →
      (s1.setWriter i { s.writer i with pc := .look true }).Settled p := by
    intro p hp hlt
    rcases lt_or_ge p (s.writer i).offset with hlow | hhigh
    · exact .inl (hgoes.copied (hcopied p (h.before i hload p hp hlow)))
    · refine .inr ⟨i, ?_⟩
      rw [setWriter_self]
      exact ⟨trivial, hhigh, hlt⟩
  refine h.goesOn hgoes nofun hrange (.inr hheld) (fun j _ hj => ?_) (fun _ => ?_)
    ⟨hsize, hlength ▸ hchunk, by omega⟩ (fun p hp hlt => ?_) hsettled (fun p hp hlt => ?_)
    fun p _ hp => .inl (hgoes.copied (hcopied p hp))
  · rw [hlock]
    exact h.locked j hj
  · rw [hlock]
    exact hheld
  · rw [hlogical] at hlt
    exact hgoes.copied (h.logical p hp hlt)
  · exact .inl (hgoes.copied (hcopied p (h.before i hload p hp hlt)))

/-- `inode_grow` has not got its sectors. -/
theorem Kept.growFails (h : Kept length s) (hpc : (s.writer i).pc = .grow)
    (hgrow : s.inodeGrow (s.writer i).size (s.writer i).offset got = some (s1, false)) :
    Kept length (s1.setWriter i { s.writer i with pc := .release true }) := by
  obtain ⟨hwriter, ⟨-, htrue, -⟩ | ⟨-, -, -, hlength⟩ | ⟨-, htrue, -⟩⟩ := inodeGrow_cases hgrow
  · nomatch htrue
  · obtain ⟨hlogical, hlock⟩ := inodeGrow_same hgrow
    have hgoes : GoesOn s s1 i { s.writer i with pc := .release true } := ⟨hwriter, rfl, le_rfl⟩
    have hheld := h.locked i (by rw [hpc]; trivial)
    have hload : (s.writer i).pc ≠ .load := by
      rw [hpc]
      nofun
    have hkeeps : ∀ p, s.Settled p →
        (s1.setWriter i { s.writer i with pc := .release true }).Settled p := by
      intro p
      refine hgoes.settled hlength fun hcopying => ?_
      rw [hpc] at hcopying
      exact hcopying.elim
    refine h.goesOn hgoes nofun (hlength ▸ h.range) (.inl hlength) (fun j _ hj => ?_)
      (fun _ => hlock ▸ hheld) trivial (fun p hp hlt => ?_) (fun p hp hlt => ?_)
      (fun p hp hlt => hkeeps p (h.before i hload p hp hlt)) fun p _ => hkeeps p
    · rw [hlock]
      exact h.locked j hj
    · rw [hlogical] at hlt
      exact hgoes.copied (h.logical p hp hlt)
    · rw [hlength] at hlt
      exact hkeeps p (h.settled p hp hlt)
  · nomatch htrue

/-- A call copies its chunk. -/
theorem Kept.copies (h : Kept length s) {isGrowing : Bool} {chunkSize bytesWritten : Int}
    (hpc : (s.writer i).pc = .copy isGrowing chunkSize) :
    Kept length (s.setWriter i
      { s.writer i with
        pc := if isGrowing then .logical false else .test
        size := size
        offset := (s.writer i).offset + chunkSize
        bytesWritten := bytesWritten }) := by
  have hreaches := h.reaches i
  unfold Reaches at hreaches
  rw [hpc] at hreaches
  obtain ⟨hpos, hend⟩ := hreaches
  have hgoes : GoesOn s s i
      { s.writer i with
        pc := if isGrowing then .logical false else .test
        size := size
        offset := (s.writer i).offset + chunkSize
        bytesWritten := bytesWritten } := ⟨rfl, rfl, by dsimp only; omega⟩
  generalize hw : ({ s.writer i with
        pc := if isGrowing then .logical false else .test
        size := size
        offset := (s.writer i).offset + chunkSize
        bytesWritten := bytesWritten } : Writer) = w at hgoes ⊢
  have hoffset : w.offset = (s.writer i).offset + chunkSize := by rw [← hw]
  have hstart := h.start i
  have hload : (s.writer i).pc ≠ .load := by
    rw [hpc]
    nofun
  have hchunk : ∀ p, (s.writer i).offset ≤ p → p < w.offset → (s.setWriter i w).Copied p := by
    intro p hp hlt
    refine ⟨i, ?_⟩
    rw [setWriter_self, hgoes.start]
    exact ⟨by omega, hlt⟩
  have hkeeps : ∀ p, length ≤ p → s.Settled p → (s.setWriter i w).Settled p := by
    intro p hp
    refine hgoes.settled rfl fun hcopying hle hlt => .inl (hchunk p hle ?_)
    rw [hpc] at hcopying
    cases isGrowing with
    | false => exact hcopying.elim
    | true =>
      have hmax := hend rfl
      omega
  refine h.goesOn hgoes ?_ h.range (.inl rfl) (fun j _ => h.locked j) ?_ ?_
    (fun p hp hlt => hgoes.copied (h.logical p hp hlt))
    (fun p hp hlt => hkeeps p hp (h.settled p hp hlt)) (fun p hp hlt => ?_) hkeeps
  · rw [← hw]
    cases isGrowing <;> nofun
  · intro hlocked
    rw [← hw] at hlocked
    cases isGrowing with
    | false => exact hlocked.elim
    | true =>
      refine h.locked i ?_
      rw [hpc]
      trivial
  · unfold Reaches
    rw [← hw]
    cases isGrowing <;> trivial
  · rcases lt_or_ge p (s.writer i).offset with hlow | hhigh
    · exact hkeeps p hp (h.before i hload p hp hlow)
    · exact .inl (hchunk p hhigh hlt)

/-- Who holds the lock and has copied its chunk leaves all bytes copied. -/
theorem Kept.copied_of_held (h : Kept length s) (hlocked : HoldsLock (s.writer i).pc)
    (hpc : ¬ Copying (s.writer i).pc) (hp : s.Settled p) : s.Copied p := by
  refine h.copied (fun j hj => ?_) hp
  cases (h.locked i hlocked).symm.trans hj
  exact hpc

/-- A call sets `logical_length`. -/
theorem Kept.setsLogical (h : Kept length s) {ends : Bool} (hpc : (s.writer i).pc = .logical ends) :
    Kept length ({ s with logicalLength := s.length }.setWriter i
      { s.writer i with pc := .release ends }) := by
  have hgoes : GoesOn s { s with logicalLength := s.length } i
      { s.writer i with pc := .release ends } := ⟨rfl, rfl, le_rfl⟩
  have hlocked : HoldsLock (s.writer i).pc := by
    rw [hpc]
    trivial
  have hcopying : ¬ Copying (s.writer i).pc := by
    rw [hpc]
    exact id
  have hload : (s.writer i).pc ≠ .load := by
    rw [hpc]
    nofun
  have hcopied : ∀ p, s.Settled p → (({ s with logicalLength := s.length } : Extension).setWriter i
      { s.writer i with pc := .release ends }).Copied p := fun p hp =>
    hgoes.copied (h.copied_of_held hlocked hcopying hp)
  exact h.goesOn hgoes nofun h.range (.inl rfl) (fun j _ => h.locked j) (fun _ => h.locked i hlocked)
    trivial (fun p hp hlt => hcopied p (h.settled p hp hlt))
    (fun p hp hlt => .inl (hcopied p (h.settled p hp hlt)))
    (fun p hp hlt => .inl (hcopied p (h.before i hload p hp hlt))) fun p _ hp => .inl (hcopied p hp)

/-- A call releases the lock. -/
theorem Kept.releases (h : Kept length s) {ends : Bool} (hpc : (s.writer i).pc = .release ends) :
    Kept length ({ s with inodeLock := none }.setWriter i
      { s.writer i with pc := if ends then .unload else .test }) := by
  have hgoes : GoesOn s { s with inodeLock := none } i
      { s.writer i with pc := if ends then .unload else .test } := ⟨rfl, rfl, le_rfl⟩
  have hlocked : HoldsLock (s.writer i).pc := by
    rw [hpc]
    trivial
  have hcopying : ¬ Copying (s.writer i).pc := by
    rw [hpc]
    exact id
  have hload : (s.writer i).pc ≠ .load := by
    rw [hpc]
    nofun
  have hcopied : ∀ p, s.Settled p → (({ s with inodeLock := none } : Extension).setWriter i
      { s.writer i with pc := if ends then .unload else .test }).Copied p := fun p hp =>
    hgoes.copied (h.copied_of_held hlocked hcopying hp)
  refine h.goesOn hgoes ?_ h.range (.inl rfl) (fun j hji hj => ?_) ?_ ?_
    (fun p hp hlt => hgoes.copied (h.logical p hp hlt))
    (fun p hp hlt => .inl (hcopied p (h.settled p hp hlt)))
    (fun p hp hlt => .inl (hcopied p (h.before i hload p hp hlt))) fun p _ hp => .inl (hcopied p hp)
  · cases ends <;> nofun
  · exact absurd (Option.some.inj ((h.locked j hj).symm.trans (h.locked i hlocked))) hji
  · cases ends <;> exact False.elim
  · unfold Reaches
    cases ends <;> trivial

/-- A step keeps the bytes, if the call starts inside the file and grows by no more than its chunk. -/
theorem Kept.step (h : Kept length s) (hstarts : StartsInside a s) (hchunk : OneChunk length a s)
    (hrun : exec a s = .ok ((), s')) : Kept length s' := by
  have hreaches := h.reaches a.thread
  have hbefore := h.before a.thread
  unfold Reaches at hreaches
  unfold StartsInside at hstarts
  unfold OneChunk at hchunk
  rw [exec, Routine.get_bind_apply] at hrun
  cases hpc : (s.writer a.thread).pc with
  | load =>
    rw [hpc] at hrun
    dsimp only at hrun
    split at hrun
    · cases hrun
    · cases hrun
      have hoffset := h.load a.thread hpc
      refine h.moves (by simp) ?_ trivial ?_ fun p hp hlt => h.settled p hp ?_
      · rw [hpc]
        exact Iff.rfl
      · rw [hpc]
        exact False.elim
      · have hinside := hstarts hpc
        omega
  | test =>
    rw [hpc] at hrun hbefore
    dsimp only at hrun
    have hmoves : ∀ pc, pc ≠ .load → ¬ HoldsLock pc →
        Reaches length s.length { s.writer a.thread with pc := pc } →
        Kept length (s.setWriter a.thread { s.writer a.thread with pc := pc }) := by
      intro pc hload hlocked hreaches
      refine h.moves hload ?_ hreaches ?_ (hbefore (by simp))
      · rw [hpc]
        exact iff_of_false hlocked id
      · rw [hpc]
        exact False.elim
    split at hrun
    · rename_i hmore
      split at hrun <;> cases hrun
      · exact hmoves _ (by simp) id trivial
      · exact hmoves _ (by simp) id hmore.1
    · cases hrun
      exact hmoves _ (by simp) id trivial
  | acquire =>
    rw [hpc] at hrun
    dsimp only at hrun
    split at hrun
    · cases hrun
    · rename_i hfree
      cases hrun
      exact h.acquires hpc (Option.not_isSome_iff_eq_none.mp hfree)
  | grow =>
    rw [hpc] at hrun hbefore
    dsimp only at hrun
    cases hgrow : s.inodeGrow (s.writer a.thread).size (s.writer a.thread).offset a.got with
    | none =>
      rw [hgrow] at hrun
      cases hrun
    | some r =>
      obtain ⟨s1, b⟩ := r
      rw [hgrow] at hrun
      cases b with
      | true =>
        cases hrun
        refine h.grows hpc hgrow (hchunk hpc ?_)
        by_cases hmore : (s.writer a.thread).offset + (s.writer a.thread).size ≤
            roundUpToSectorBoundary s.length
        · exact .inl hmore
        · exact .inr (growPlaces_le (by omega) hgrow).1
      | false =>
        cases hrun
        exact h.growFails hpc hgrow
  | look isGrowing =>
    rw [hpc] at hrun hreaches hbefore
    dsimp only at hrun
    have hmoves : ∀ pc, pc ≠ .load → (HoldsLock pc ↔ HoldsLock (.look isGrowing)) →
        Reaches length s.length { s.writer a.thread with pc := pc } →
        (Copying (.look isGrowing) → Copying pc ∨ s.length ≤ (s.writer a.thread).offset) →
        Kept length (s.setWriter a.thread { s.writer a.thread with pc := pc }) := by
      intro pc hload hlocked hreaches hcopying
      exact h.moves hload (hpc ▸ hlocked) hreaches (hpc ▸ hcopying) (hbefore (by simp))
    split at hrun <;> rename_i hsize <;> cases hrun <;> unfold chunkSize at hsize
    · cases isGrowing with
      | false => exact hmoves _ (by simp) Iff.rfl trivial False.elim
      | true =>
        dsimp only at hreaches
        refine hmoves _ (by simp) Iff.rfl trivial fun _ => .inr ?_
        have hmod := Int.emod_lt_of_pos (s.writer a.thread).offset
          (show (0 : Int) < blockSectorSize by decide)
        omega
    · cases isGrowing with
      | false =>
        refine hmoves _ (by simp) Iff.rfl ⟨not_le.mp hsize, (by simp)⟩ False.elim
      | true =>
        dsimp only at hreaches
        refine hmoves _ (by simp) Iff.rfl ⟨not_le.mp hsize, fun _ => ?_⟩ fun _ => .inl trivial
        unfold sectorEnd at hreaches
        unfold chunkSize
        dsimp only
        omega
  | copy isGrowing chunk =>
    rw [hpc] at hrun
    dsimp only at hrun
    cases hrun
    exact h.copies hpc
  | logical ends =>
    rw [hpc] at hrun
    cases hrun
    exact h.setsLogical hpc
  | release ends =>
    rw [hpc] at hrun
    cases hrun
    exact h.releases hpc
  | unload =>
    rw [hpc] at hrun hbefore
    dsimp only at hrun
    split at hrun
    · cases hrun
    · cases hrun
      refine h.moves (by simp) ?_ trivial ?_ (hbefore (by simp))
      · rw [hpc]
        exact Iff.rfl
      · rw [hpc]
        exact False.elim
  | returned =>
    rw [hpc] at hrun
    cases hrun

/-! ### Runs -/

/-- The calls are at their start, no one holds the lock, and the lengths are those of the file. -/
structure Begins (s : Extension) : Prop where
  start : s.Start
  nonneg : ∀ i, 0 ≤ (s.writer i).start
  free : s.inodeLock = none
  range : 0 ≤ s.length ∧ s.length + 512 ≤ 2 ^ 31
  logical : s.logicalLength = s.length

theorem Begins.kept (h : s.Begins) : Kept s.length s := by
  refine ⟨h.range, fun i => ⟨h.nonneg i, (h.start.offset i).ge⟩, fun i _ => h.start.offset i,
    fun i hi => ?_, fun i => ?_, fun p hp hlt => ?_, fun p hp hlt => ?_, fun i hi => ?_⟩
  · rw [h.start.load i] at hi
    exact hi.elim
  · unfold Reaches
    rw [h.start.load i]
    trivial
  · rw [h.logical] at hlt
    omega
  · omega
  · exact absurd (h.start.load i) hi

theorem Kept.published (h : Kept length s) : Published length s := by
  refine published_of_lt fun hfree p hp hlt => h.logical p hp hlt

/-- Each state that a run passes is published. -/
theorem Begins.published (h : s.Begins) {acts : List WriterStep}
    (hstarts : ∀ a m, Routine.Takes exec acts s a m → StartsInside a m)
    (hchunk : ∀ a m, Routine.Takes exec acts s a m → OneChunk s.length a m)
    (hvisits : Routine.Visits exec acts s s') : Published s.length s' := by
  have hstep : ∀ m a r m', Kept s.length m → StartsInside a m ∧ OneChunk s.length a m →
      exec a m = .ok (r, m') → Kept s.length m' := fun m a _ m' hkept hmay hrun =>
    hkept.step hmay.1 hmay.2 hrun
  have hmay : ∀ a m, Routine.Takes exec acts s a m → StartsInside a m ∧ OneChunk s.length a m :=
    fun a m htakes => ⟨hstarts a m htakes, hchunk a m htakes⟩
  exact (hvisits.invariant hstep hmay h.kept).published

/-! ### A call that grows by more than a chunk -/

/-- A step is one of its call. -/
theorem exec_others {j : Nat} (hj : j ≠ a.thread) (hrun : exec a s = .ok ((), s')) :
    s'.writer j = s.writer j := by
  rw [exec, Routine.get_bind_apply] at hrun
  cases hpc : (s.writer a.thread).pc with
  | grow =>
    rw [hpc] at hrun
    dsimp only at hrun
    cases hgrow : s.inodeGrow (s.writer a.thread).size (s.writer a.thread).offset a.got with
    | none =>
      rw [hgrow] at hrun
      cases hrun
    | some r =>
      obtain ⟨s1, b⟩ := r
      obtain ⟨hwriter, -⟩ := inodeGrow_cases hgrow
      rw [hgrow] at hrun
      cases b <;> cases hrun <;> rw [setWriter_other hj, hwriter]
  | load | acquire | look | unload =>
    rw [hpc] at hrun
    dsimp only at hrun
    split at hrun <;> cases hrun <;> exact setWriter_other hj
  | test =>
    rw [hpc] at hrun
    dsimp only at hrun
    split at hrun
    · split at hrun <;> cases hrun <;> exact setWriter_other hj
    · cases hrun
      exact setWriter_other hj
  | copy | logical | release =>
    rw [hpc] at hrun
    cases hrun
    exact setWriter_other hj
  | returned =>
    rw [hpc] at hrun
    cases hrun

section Exec

variable (hthread : a.thread = i)

include hthread

theorem exec_look {isGrowing : Bool} (hpc : (s.writer i).pc = .look isGrowing)
    (hpos : 0 < s.chunkSize (s.writer i)) : exec a s = .ok ((), s.setWriter i
      { s.writer i with pc := .copy isGrowing (s.chunkSize (s.writer i)) }) := by
  subst hthread
  rw [exec, Routine.get_bind_apply, hpc]
  dsimp only
  rw [if_neg (by omega)]
  rfl

theorem exec_copy {isGrowing : Bool} {chunk : Int} (hpc : (s.writer i).pc = .copy isGrowing chunk) :
    exec a s = .ok ((), s.setWriter i
      { s.writer i with
        pc := if isGrowing then .logical false else .test
        size := (s.writer i).size - chunk
        offset := (s.writer i).offset + chunk
        bytesWritten := (s.writer i).bytesWritten + chunk }) := by
  subst hthread
  rw [exec, Routine.get_bind_apply, hpc]
  rfl

theorem exec_logical {ends : Bool} (hpc : (s.writer i).pc = .logical ends) :
    exec a s = .ok ((), { s with logicalLength := s.length }.setWriter i
      { s.writer i with pc := .release ends }) := by
  subst hthread
  rw [exec, Routine.get_bind_apply, hpc]
  rfl

theorem exec_release {ends : Bool} (hpc : (s.writer i).pc = .release ends) :
    exec a s = .ok ((), { s with inodeLock := none }.setWriter i
      { s.writer i with pc := if ends then .unload else .test }) := by
  subst hthread
  rw [exec, Routine.get_bind_apply, hpc]
  rfl

end Exec

/-- A run that ends with the return of the call has its next step. -/
theorem next_step {acts : List WriterStep} {rs : List Unit} {m : Extension}
    (hacts : ∀ b ∈ acts, b.thread = i) (hrun : Routine.execAll exec acts s = .ok (rs, m))
    (hreturned : (m.writer i).pc = .returned) (hpc : (s.writer i).pc ≠ .returned)
    (hexec : ∀ b : WriterStep, b.thread = i → exec b s = .ok ((), s1)) :
    ∃ rest rs', (∀ b ∈ rest, b.thread = i) ∧ Routine.execAll exec rest s1 = .ok (rs', m) ∧
      ∀ t, Routine.Visits exec rest s1 t → Routine.Visits exec acts s t := by
  cases acts with
  | nil =>
    cases hrun
    exact absurd hreturned hpc
  | cons b rest =>
    have hb := hexec b (hacts b List.mem_cons_self)
    obtain ⟨r, rs', t, hb', hrest, -⟩ := Routine.execAll_cons_ok.mp hrun
    cases hb.symm.trans hb'
    exact ⟨rest, rs', fun c hc => hacts c (List.mem_cons_of_mem _ hc), hrest,
      fun t ht => (Routine.visits_cons_of_ok hb).mpr (.inr ht)⟩

/-- After `inode_grow` the call copies one chunk, sets `logical_length` and releases the lock. -/
theorem visits_released {acts : List WriterStep} {rs : List Unit} {m : Extension}
    (hacts : ∀ b ∈ acts, b.thread = i) (hrun : Routine.execAll exec acts s = .ok (rs, m))
    (hreturned : (m.writer i).pc = .returned) (hpc : (s.writer i).pc = .look true)
    (hpos : 0 < s.chunkSize (s.writer i)) : ∃ t, Routine.Visits exec acts s t ∧
      t.inodeLock = none ∧ t.logicalLength = s.length ∧
      (t.writer i).offset = (s.writer i).offset + s.chunkSize (s.writer i) ∧
      ∀ j, j ≠ i → t.writer j = s.writer j := by
  have hlook : ∀ b : WriterStep, b.thread = i → _ := fun b hb => exec_look hb hpc hpos
  obtain ⟨acts1, rs1, hacts1, hrun1, hvisits1⟩ :=
    next_step hacts hrun hreturned (by rw [hpc]; nofun) hlook
  generalize hs1 : s.setWriter i
    { s.writer i with pc := .copy true (s.chunkSize (s.writer i)) } = s1 at hrun1 hvisits1
  have hwriter1 : s1.writer i =
      { s.writer i with pc := .copy true (s.chunkSize (s.writer i)) } := by
    rw [← hs1]
    exact setWriter_self
  have hpc1 := congrArg Writer.pc hwriter1
  have hcopy : ∀ b : WriterStep, b.thread = i → _ := fun b hb => exec_copy hb hpc1
  obtain ⟨acts2, rs2, hacts2, hrun2, hvisits2⟩ :=
    next_step hacts1 hrun1 hreturned (by rw [hpc1]; nofun) hcopy
  generalize hw2 : ({ s1.writer i with
      pc := if true = true then WriterPc.logical false else .test
      size := (s1.writer i).size - s.chunkSize (s.writer i)
      offset := (s1.writer i).offset + s.chunkSize (s.writer i)
      bytesWritten := (s1.writer i).bytesWritten + s.chunkSize (s.writer i) } : Writer) = w2
    at hrun2 hvisits2
  have hpc2 : ((s1.setWriter i w2).writer i).pc = .logical false := by
    rw [setWriter_self, ← hw2]
    rfl
  have hlogical : ∀ b : WriterStep, b.thread = i → _ := fun b hb => exec_logical hb hpc2
  obtain ⟨acts3, rs3, hacts3, hrun3, hvisits3⟩ :=
    next_step hacts2 hrun2 hreturned (by rw [hpc2]; nofun) hlogical
  generalize hs3 : ({ s1.setWriter i w2 with logicalLength := (s1.setWriter i w2).length } :
    Extension).setWriter i { (s1.setWriter i w2).writer i with pc := .release false } = s3
    at hrun3 hvisits3
  have hwriter3 : s3.writer i = { w2 with pc := .release false } := by
    rw [← hs3, setWriter_self, setWriter_self]
  have hpc3 := congrArg Writer.pc hwriter3
  have hrelease : ∀ b : WriterStep, b.thread = i → _ := fun b hb => exec_release hb hpc3
  obtain ⟨acts4, rs4, -, -, hvisits4⟩ :=
    next_step hacts3 hrun3 hreturned (by rw [hpc3]; nofun) hrelease
  refine ⟨_, hvisits1 _ (hvisits2 _ (hvisits3 _ (hvisits4 _ (Routine.visits_start _ _)))), rfl, ?_,
    ?_, fun j hj => ?_⟩
  · rw [setWriter_logicalLength, ← hs3, setWriter_logicalLength, setWriter_length, ← hs1]
    rfl
  · rw [setWriter_self, hwriter3, ← hw2, hwriter1]
  · rw [setWriter_other hj]
    show s3.writer j = _
    rw [← hs3, setWriter_other hj]
    show (s1.setWriter i w2).writer j = _
    rw [setWriter_other hj, ← hs1, setWriter_other hj]

/-- A call that grows by more than its chunk leaves bytes that are not copied. -/
theorem oneChunk_of_published {acts : List WriterStep} {rs : List Unit} {m : Extension}
    (h : Kept length s) (hothers : ∀ j, j ≠ i → (s.writer j).pc = .load)
    (hacts : ∀ b ∈ a :: acts, b.thread = i)
    (hrun : Routine.execAll exec (a :: acts) s = .ok (rs, m))
    (hreturned : (m.writer i).pc = .returned)
    (hpublished : ∀ t, Routine.Visits exec (a :: acts) s t → Published length t) :
    OneChunk length a s := by
  have hthread := hacts a List.mem_cons_self
  intro hpc hgets
  by_contra hlong
  rw [hthread] at hpc hgets hlong
  obtain ⟨⟨⟩, rs', s2, ha, hrest, -⟩ := Routine.execAll_cons_ok.mp hrun
  have hsize := h.reaches i
  unfold Reaches at hsize
  rw [hpc] at hsize
  dsimp only at hsize
  have hstart := h.start i
  have hrun' := ha
  rw [exec, Routine.get_bind_apply, hthread, hpc] at hrun'
  dsimp only at hrun'
  cases hgrow : s.inodeGrow (s.writer i).size (s.writer i).offset a.got with
  | none =>
    rw [hgrow] at hrun'
    cases hrun'
  | some r =>
    obtain ⟨s1, b⟩ := r
    rw [hgrow] at hrun'
    cases b with
    | false =>
      obtain ⟨-, ⟨-, htrue, -⟩ | ⟨hmore, -, hfew, -⟩ | ⟨-, htrue, -⟩⟩ := inodeGrow_cases hgrow
      · cases htrue
      · omega
      · cases htrue
    | true =>
      cases hrun'
      obtain ⟨hwriter, -⟩ := inodeGrow_cases hgrow
      obtain ⟨hlength, hwants, -⟩ := inodeGrow_true h.range.1 h.range.2 (by omega) hgrow
      have hself : (s1.setWriter i { s.writer i with pc := .look true }).writer i =
          { s.writer i with pc := .look true } := setWriter_self
      have hmod := Int.emod_lt_of_pos (s.writer i).offset
        (show (0 : Int) < blockSectorSize by decide)
      unfold sectorEnd at hlong
      -- the chunk ends with its sector
      have hchunk : (s1.setWriter i { s.writer i with pc := .look true }).chunkSize
          { s.writer i with pc := .look true } =
            blockSectorSize - (s.writer i).offset % blockSectorSize := by
        unfold chunkSize
        rw [setWriter_length]
        dsimp only
        omega
      obtain ⟨t, hvisits, hfree, hlogical, hoffset, hsame⟩ := visits_released
        (fun b hb => hacts b (List.mem_cons_of_mem _ hb)) hrest hreturned
        (congrArg Writer.pc hself) (by rw [hself, hchunk]; omega)
      rw [hself, hchunk] at hoffset
      dsimp only at hoffset
      rw [setWriter_length] at hlogical
      have hpublic := (hpublished t ((Routine.visits_cons_of_ok ha).mpr (.inr hvisits)) hfree).1
        (s1.length - 1) (by omega)
      rcases hpublic with hlow | ⟨j, hlow, hhigh⟩
      · omega
      · by_cases hji : j = i
        · rw [hji] at hhigh
          omega
        · rw [hsame j hji, setWriter_other hji, hwriter] at hlow hhigh
          have hload := h.load j (hothers j hji)
          omega

/-- A run of one call, from where the bytes are kept. -/
theorem oneChunk_of_run {acts : List WriterStep} {rs : List Unit} {m : Extension}
    (h : Kept length s) (hothers : ∀ j, j ≠ i → (s.writer j).pc = .load)
    (hacts : ∀ b ∈ acts, b.thread = i) (hrun : Routine.execAll exec acts s = .ok (rs, m))
    (hreturned : (m.writer i).pc = .returned)
    (hstarts : ∀ a t, Routine.Takes exec acts s a t → StartsInside a t)
    (hpublished : ∀ t, Routine.Visits exec acts s t → Published length t) {t : Extension}
    (htakes : Routine.Takes exec acts s a t) : OneChunk length a t := by
  induction acts generalizing s rs with
  | nil => exact absurd htakes Routine.not_takes_nil
  | cons b acts ih =>
    have hone := oneChunk_of_published h hothers hacts hrun hreturned hpublished
    obtain ⟨⟨⟩, rs', s1, hb, hrest, -⟩ := Routine.execAll_cons_ok.mp hrun
    rcases (Routine.takes_cons_of_ok hb).mp htakes with ⟨rfl, rfl⟩ | htakes
    · exact hone
    · have hfirst := hstarts b s ((Routine.takes_cons_of_ok hb).mpr (.inl ⟨rfl, rfl⟩))
      refine ih (h.step hfirst hone hb) (fun j hj => ?_)
        (fun c hc => hacts c (List.mem_cons_of_mem _ hc)) hrest
        (fun c u hc => hstarts c u ((Routine.takes_cons_of_ok hb).mpr (.inr hc)))
        (fun u hu => hpublished u ((Routine.visits_cons_of_ok hb).mpr (.inr hu))) htakes
      have hthread := hacts b List.mem_cons_self
      rw [exec_others (hthread ▸ hj) hb]
      exact hothers j hj

end Extension

/-- In every run of calls that start inside the file, reads see only bytes that the file had or that
were copied, if no call that gets its sectors grows the inode past the sector that it writes next.
For a run of one call that returns, this is also what is needed. -/
theorem extension_published {s : Extension} (hs : s.Begins) (acts : List WriterStep)
    (hstarts : ∀ a m, Routine.Takes Extension.exec acts s a m → Extension.StartsInside a m) :
    ((∀ a m, Routine.Takes Extension.exec acts s a m → Extension.OneChunk s.length a m) →
        ∀ m, Routine.Visits Extension.exec acts s m → Extension.Published s.length m) ∧
      ∀ i, (∀ a ∈ acts, a.thread = i) →
        (∃ rs m, Routine.execAll Extension.exec acts s = .ok (rs, m) ∧
          (m.writer i).pc = .returned) →
        ((∀ m, Routine.Visits Extension.exec acts s m → Extension.Published s.length m) ↔
          ∀ a m, Routine.Takes Extension.exec acts s a m → Extension.OneChunk s.length a m) := by
  refine ⟨fun hchunk m => hs.published hstarts hchunk, fun i hacts hrun => ⟨?_, ?_⟩⟩
  · obtain ⟨rs, m, hrun, hreturned⟩ := hrun
    intro hpublished a t htakes
    exact Extension.oneChunk_of_run hs.kept (fun j _ => hs.start.load j) hacts hrun hreturned hstarts
      hpublished htakes
  · exact fun hchunk m => hs.published hstarts hchunk

/-- An empty inode with one sector, and a call that writes two sectors at its start. -/
def twoSectorWriter : Extension where
  inodeStart := 2
  length := 0
  logicalLength := 0
  denyWriteCnt := 0
  hasSector j := j = 0
  inodeLock := none
  writer i := ⟨.load, if i = 0 then 1024 else 0, 0, 0, 0⟩

theorem twoSectorWriter_begins : twoSectorWriter.Begins :=
  ⟨⟨fun _ => rfl, fun _ => rfl, fun _ => rfl⟩, fun _ => le_rfl, rfl, by decide, rfl⟩

/-- The steps of the call; `inode_grow` gets its two sectors. -/
def twoSectorSteps : List WriterStep := List.replicate 13 ⟨0, 2⟩

theorem twoSectorSteps_startsInside (a : WriterStep) (m : Extension)
    (htakes : Routine.Takes Extension.exec twoSectorSteps twoSectorWriter a m) :
    Extension.StartsInside a m := by
  have hcheck : Routine.checkAll Extension.exec (fun a m => decide (Extension.StartsInside a m))
      twoSectorSteps twoSectorWriter = true := by
    decide +kernel
  have hlast := Routine.of_checkAll hcheck htakes
  exact of_decide_eq_true hlast

theorem twoWriters_begins : twoWriters.Begins :=
  ⟨twoWriters_start, fun _ => le_rfl, rfl, by decide, rfl⟩

/-- Both calls of `twoWriters` stay in one sector: no read sees a byte that they have not written. -/
theorem extension_published_firstWriterFirst :
    Extension.lengthAfter firstWriterFirst twoWriters = some 100 ∧
      ∀ m, Routine.Visits Extension.exec firstWriterFirst twoWriters m →
        Extension.Published 0 m := by
  have hcheck : Routine.checkAll Extension.exec
      (fun a m => decide (Extension.StartsInside a m ∧ Extension.OneChunk 0 a m))
      firstWriterFirst twoWriters = true := by
    decide +kernel
  have hsteps : ∀ a m, Routine.Takes Extension.exec firstWriterFirst twoWriters a m →
      Extension.StartsInside a m ∧ Extension.OneChunk 0 a m := by
    intro a m htakes
    have hstep := Routine.of_checkAll hcheck htakes
    exact of_decide_eq_true hstep
  have hpublished := (extension_published twoWriters_begins firstWriterFirst
    fun a m h => (hsteps a m h).1).1 fun a m h => (hsteps a m h).2
  exact ⟨by decide +kernel, hpublished⟩

theorem Extension.ok_of_check {acts : List WriterStep} {s : Extension} {check : Extension → Bool}
    (h : (match Routine.execAll exec acts s with
      | .ok (_, m) => check m
      | .error _ => false) = true) :
    ∃ rs m, Routine.execAll exec acts s = .ok (rs, m) ∧ check m = true := by
  split at h
  · rename_i rs m hrun
    exact ⟨rs, m, hrun, h⟩
  · nomatch h

/-- After the first sector `logical_length` is that of both. -/
theorem extension_unpublished :
    (∀ a m, Routine.Takes Extension.exec twoSectorSteps twoSectorWriter a m →
      Extension.StartsInside a m) ∧
    ¬ ∀ m, Routine.Visits Extension.exec twoSectorSteps twoSectorWriter m →
      Extension.Published twoSectorWriter.length m := by
  refine ⟨twoSectorSteps_startsInside, fun hpublished => ?_⟩
  obtain ⟨rs, m, hrun, hreturned⟩ := @Extension.ok_of_check twoSectorSteps twoSectorWriter
    (fun m => decide ((m.writer 0).pc = .returned)) (by decide +kernel)
  obtain ⟨rs', m', hbefore, hgrow⟩ := @Extension.ok_of_check (List.replicate 3 ⟨0, 2⟩)
    twoSectorWriter (fun m => decide ((m.writer 0).pc = .grow ∧
      (m.growPlaces (m.writer 0).size (m.writer 0).offset).length ≤ 2 ∧
      512 < m.grownLength (m.writer 0).size (m.writer 0).offset ∧
      Extension.sectorEnd (m.writer 0).offset = 512)) (by decide +kernel)
  obtain ⟨hpc, hgets, hlong, hsector⟩ := of_decide_eq_true hgrow
  have htakes : Routine.Takes Extension.exec twoSectorSteps twoSectorWriter ⟨0, 2⟩ m' :=
    ⟨List.replicate 3 ⟨0, 2⟩, List.replicate 9 ⟨0, 2⟩, rs', rfl, hbefore⟩
  have hothers : ∀ j, j ≠ 0 → (twoSectorWriter.writer j).pc = .load := fun _ _ => rfl
  have hacts : ∀ b ∈ twoSectorSteps, b.thread = 0 := by decide
  have hone := Extension.oneChunk_of_run twoSectorWriter_begins.kept hothers hacts hrun
    (of_decide_eq_true hreturned) twoSectorSteps_startsInside hpublished htakes
  have hle : m'.grownLength (m'.writer 0).size (m'.writer 0).offset ≤
      max twoSectorWriter.length (Extension.sectorEnd (m'.writer 0).offset) := hone hpc (.inr hgets)
  rw [hsector] at hle
  have hlength : twoSectorWriter.length = 0 := rfl
  omega

end Pintos
