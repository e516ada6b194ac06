import Pintos.Filesys.Inode

/-! Calls of `inode_write_at` on one inode by several threads (`filesys/inode.c`).  A step is one access
to what the threads share: the loop test with `byte_to_sector`, which takes no lock, an operation on
`inode_lock`, `inode_grow` under the lock, the read of `inode->data->length` for the chunk, or the copy
of a chunk.  The bytes are left out. -/

namespace Pintos

/-- What a call of `inode_write_at` does next. -/
inductive WriterPc where
  | load
  | test
  | acquire
  | grow
  | look (isGrowing : Bool)
  | copy (isGrowing : Bool) (chunkSize : Int)
  | logical (ends : Bool)
  | release (ends : Bool)
  | unload
  | returned
  deriving DecidableEq

/-- The variables of a call; `start` is the `offset` that it was called with. -/
structure Writer where
  pc : WriterPc
  size : Int
  start : Int
  offset : Int
  bytesWritten : Int

/-- The inode, which sectors it has, the holder of `inode_lock`, and the calls. -/
structure Extension where
  inodeStart : Nat
  length : Int
  logicalLength : Int
  denyWriteCnt : Nat
  hasSector : Nat → Bool
  inodeLock : Option Nat
  writer : Nat → Writer

/-- A step of a call.  Where it is in `inode_grow`, `got` is the number of passes of the loop before
one that gets no sector. -/
structure WriterStep where
  thread : Nat
  got : Nat

abbrev ExtensionRoutine := Routine Unit Extension Unit

namespace Extension

def setWriter (s : Extension) (i : Nat) (w : Writer) : Extension :=
  { s with writer := Function.update s.writer i w }

/-- `byte_to_sector` finds a sector. -/
def byteToSector (s : Extension) (pos : Int) : Bool :=
  pos < s.length ∧ s.hasSector (pos / blockSectorSize).toNat

/-- `grow_len_bytes` of `inode_grow`. -/
def growLenBytes (s : Extension) (size offset : Int) : Int :=
  offset + size - roundUpToSectorBoundary s.length

/-- The values of `sector_inode_relative` in the loop of `inode_grow`. -/
def growPlaces (s : Extension) (size offset : Int) : List Nat :=
  let lastSector : Int :=
    if s.length ≤ blockSectorSize then s.inodeStart
    else toWord (s.inodeStart + bytesToSectors s.length - 1)
  (List.range (bytesToSectors (s.growLenBytes size offset))).map fun i =>
    toWord (lastSector + (i + 1) - s.inodeStart)

/-- `inode_grow`, where the loop gets `got` sectors: the inode afterwards and the result.  It stops
with a fault at a place past the second range of the index. -/
def inodeGrow (s : Extension) (size offset : Int) (got : Nat) : Option (Extension × Bool) :=
  if 2 ^ 31 ≤ offset + size then none
  else if offset + size > roundUpToSectorBoundary s.length then
    let places := s.growPlaces size offset
    if (places.take (got + 1)).any (inodeAccessIndirect < ·) then none
    else
      let s := { s with hasSector := fun j => s.hasSector j || (places.take got).contains j }
      if places.length ≤ got then
        some ({ s with length := s.length + s.growLenBytes size offset }, true)
      else some (s, false)
  else some ({ s with length := offset + size }, true)

/-- `chunk_size` in `inode_write_at`. -/
def chunkSize (s : Extension) (w : Writer) : Int :=
  min w.size (min (s.length - w.offset) (blockSectorSize - w.offset % blockSectorSize))

/-- The step of thread `i`.  A step that has to wait, or that ends in a fault, is not taken. -/
def exec (a : WriterStep) : ExtensionRoutine := do
  let s ← get
  let i := a.thread
  let w := s.writer i
  match w.pc with
  | .load => if s.inodeLock.isSome then throw () else set (s.setWriter i { w with pc := .test })
  | .test =>
    if 0 < w.size ∧ s.denyWriteCnt = 0 then
      if s.byteToSector w.offset then set (s.setWriter i { w with pc := .look false })
      else set (s.setWriter i { w with pc := .acquire })
    else set (s.setWriter i { w with pc := .unload })
  | .acquire =>
    if s.inodeLock.isSome then throw ()
    else set ({ s with inodeLock := some i }.setWriter i { w with pc := .grow })
  | .grow =>
    match s.inodeGrow w.size w.offset a.got with
    | none => throw ()
    | some (s, true) => set (s.setWriter i { w with pc := .look true })
    | some (s, false) => set (s.setWriter i { w with pc := .release true })
  | .look isGrowing =>
    if s.chunkSize w ≤ 0 then
      set (s.setWriter i { w with pc := if isGrowing then .logical true else .unload })
    else set (s.setWriter i { w with pc := .copy isGrowing (s.chunkSize w) })
  | .copy isGrowing chunkSize =>
    set (s.setWriter i
      { w with
        pc := if isGrowing then .logical false else .test
        size := w.size - chunkSize
        offset := w.offset + chunkSize
        bytesWritten := w.bytesWritten + chunkSize })
  | .logical ends =>
    set ({ s with logicalLength := s.length }.setWriter i { w with pc := .release ends })
  | .release ends =>
    set ({ s with inodeLock := none }.setWriter i
      { w with pc := if ends then .unload else .test })
  | .unload => if s.inodeLock.isSome then throw () else set (s.setWriter i { w with pc := .returned })
  | .returned => throw ()

/-- Every call is at its start. -/
structure Start (s : Extension) : Prop where
  load : ∀ i, (s.writer i).pc = .load
  offset : ∀ i, (s.writer i).offset = (s.writer i).start
  bytesWritten : ∀ i, (s.writer i).bytesWritten = 0

/-- No step of the run shortens the inode. -/
def NeverShrinks (acts : List WriterStep) (s : Extension) : Prop :=
  ∀ a m m', Routine.Takes exec acts s a m → exec a m = .ok ((), m') → m.length ≤ m'.length

/-- Wherever the run passes, the inode covers what the calls that have returned wrote. -/
def Covers (acts : List WriterStep) (s : Extension) : Prop :=
  ∀ m, Routine.Visits exec acts s m → ∀ i, (m.writer i).pc = .returned →
    (m.writer i).start + (m.writer i).bytesWritten ≤ m.length

/-- The inode is not past what the call wants if that is in its last sector. -/
def Fits (s : Extension) (w : Writer) : Prop :=
  w.offset + w.size ≤ roundUpToSectorBoundary s.length → s.length ≤ w.offset + w.size

/-- What a step needs.  A call that enters `inode_grow` finds that it `Fits`; and a call that starts
past the length is not denied, gets its sectors, and gets more than the rest of the last sector. -/
def Fine (a : WriterStep) (s : Extension) : Prop :=
  let w := s.writer a.thread
  match w.pc with
  | .test => (0 < w.size ∧ s.denyWriteCnt = 0) ∨ w.offset ≤ s.length
  | .grow => s.Fits w ∧
    (w.offset ≤ s.length ∨ w.offset + w.size ≤ roundUpToSectorBoundary s.length ∨
      (s.growPlaces w.size w.offset).length ≤ a.got ∧
        w.offset ≤ s.length + s.growLenBytes w.size w.offset)
  | _ => True

instance decidableFits (s : Extension) (w : Writer) : Decidable (s.Fits w) :=
  inferInstanceAs (Decidable (_ → _))

instance decidableFine (a : WriterStep) (s : Extension) : Decidable (Fine a s) :=
  let w := s.writer a.thread
  match hpc : w.pc with
  | .test => decidable_of_iff ((0 < w.size ∧ s.denyWriteCnt = 0) ∨ w.offset ≤ s.length)
      (by simp only [Fine, show (s.writer a.thread).pc = _ from hpc]; rfl)
  | .grow => decidable_of_iff (s.Fits w ∧
      (w.offset ≤ s.length ∨ w.offset + w.size ≤ roundUpToSectorBoundary s.length ∨
        (s.growPlaces w.size w.offset).length ≤ a.got ∧
          w.offset ≤ s.length + s.growLenBytes w.size w.offset))
      (by simp only [Fine, show (s.writer a.thread).pc = _ from hpc]; rfl)
  | .load | .acquire | .look _ | .copy _ _ | .logical _ | .release _ | .unload | .returned =>
    isTrue (by simp only [Fine, show (s.writer a.thread).pc = _ from hpc])

/-! ### One step -/

variable {s s' : Extension} {size offset : Int} {got : Nat} {b : Bool} {a : WriterStep}

/-- What `inode_grow` does to the length. -/
theorem inodeGrow_cases (h : s.inodeGrow size offset got = some (s', b)) :
    s'.writer = s.writer ∧
      ((offset + size > roundUpToSectorBoundary s.length ∧ b = true ∧
          s'.length = s.length + s.growLenBytes size offset) ∨
        (offset + size > roundUpToSectorBoundary s.length ∧ b = false ∧
          ¬ (s.growPlaces size offset).length ≤ got ∧ s'.length = s.length) ∨
        (offset + size ≤ roundUpToSectorBoundary s.length ∧ b = true ∧
          s'.length = offset + size)) := by
  unfold inodeGrow at h
  split at h
  · nomatch h
  · split at h
    · rename_i hmore
      dsimp only at h
      split at h
      · nomatch h
      · split at h
        · cases h
          exact ⟨rfl, .inl ⟨hmore, rfl, rfl⟩⟩
        · rename_i hgot
          cases h
          exact ⟨rfl, .inr (.inl ⟨hmore, rfl, hgot, rfl⟩)⟩
    · rename_i hless
      cases h
      exact ⟨rfl, .inr (.inr ⟨not_lt.mp hless, rfl, rfl⟩)⟩

/-- `inode_grow` makes the inode longer, unless it was past what the call wants. -/
theorem length_le_of_inodeGrow (h : s.inodeGrow size offset got = some (s', b))
    (hle : offset + size ≤ roundUpToSectorBoundary s.length → s.length ≤ offset + size) :
    s.length ≤ s'.length := by
  obtain ⟨-, ⟨hmore, -, hlength⟩ | ⟨-, -, -, hlength⟩ | ⟨hless, -, hlength⟩⟩ := inodeGrow_cases h
  · unfold growLenBytes at hlength
    omega
  · omega
  · have hfits := hle hless
    omega

/-- Only a step in `inode_grow` changes the length. -/
theorem exec_length (hrun : exec a s = .ok ((), s')) :
    ((s.writer a.thread).pc ≠ .grow ∧ s'.length = s.length) ∨
      (s.writer a.thread).pc = .grow ∧ ∃ s1 b,
        s.inodeGrow (s.writer a.thread).size (s.writer a.thread).offset a.got = some (s1, b) ∧
          s'.length = s1.length := by
  rw [exec, Routine.get_bind_apply] at hrun
  cases hpc : (s.writer a.thread).pc with
  | grow =>
    rw [hpc] at hrun
    dsimp only at hrun
    cases hgrow : s.inodeGrow (s.writer a.thread).size (s.writer a.thread).offset a.got with
    | none =>
      rw [hgrow] at hrun
      nomatch hrun
    | some r =>
      obtain ⟨s1, b⟩ := r
      rw [hgrow] at hrun
      refine .inr ⟨rfl, s1, b, rfl, ?_⟩
      cases b <;> cases hrun <;> rfl
  | load | acquire | look | unload =>
    rw [hpc] at hrun
    dsimp only at hrun
    split at hrun <;> cases hrun <;> exact .inl ⟨nofun, rfl⟩
  | test =>
    rw [hpc] at hrun
    dsimp only at hrun
    split at hrun
    · split at hrun <;> cases hrun <;> exact .inl ⟨nofun, rfl⟩
    · cases hrun
      exact .inl ⟨nofun, rfl⟩
  | copy | logical | release =>
    rw [hpc] at hrun
    cases hrun
    exact .inl ⟨nofun, rfl⟩
  | returned =>
    rw [hpc] at hrun
    nomatch hrun

/-- What is known of a call at its next step: it has bytes left when it grows the inode, and after
that its offset is not past the end. -/
def Covered (length : Int) (w : Writer) : Prop :=
  match w.pc with
  | .look _ | .logical _ | .release _ | .unload | .returned => w.offset ≤ length
  | .copy _ chunkSize => w.offset + chunkSize ≤ length
  | .acquire | .grow => 0 < w.size
  | .load | .test => True

theorem Covered.mono {length length' : Int} {w : Writer} (h : Covered length w)
    (hle : length ≤ length') : Covered length' w := by
  unfold Covered at h ⊢
  cases hpc : w.pc <;> rw [hpc] at h <;> first | exact h | exact h.trans hle

structure Inv (s : Extension) : Prop where
  offset : ∀ i, (s.writer i).offset = (s.writer i).start + (s.writer i).bytesWritten
  covered : ∀ i, Covered s.length (s.writer i)

theorem Start.inv (h : s.Start) : s.Inv := by
  refine ⟨fun i => ?_, fun i => ?_⟩
  · have hoffset := h.offset i
    have hwritten := h.bytesWritten i
    omega
  · unfold Covered
    rw [h.load i]
    trivial

/-- One call goes on, and the length does not fall. -/
theorem Inv.setWriter (h : s.Inv) {i : Nat} {w : Writer} (hwriter : s'.writer = s.writer)
    (hle : s.length ≤ s'.length) (hoffset : w.offset = w.start + w.bytesWritten)
    (hcovered : Covered s'.length w) : (s'.setWriter i w).Inv := by
  refine ⟨fun j => ?_, fun j => ?_⟩
  · by_cases hji : j = i
    · simpa [Extension.setWriter, hji] using hoffset
    · simpa [Extension.setWriter, hji, hwriter] using h.offset j
  · by_cases hji : j = i
    · simpa [Extension.setWriter, hji] using hcovered
    · simpa [Extension.setWriter, hji, hwriter] using (h.covered j).mono hle

/-- A step that satisfies `Fine` keeps the invariant. -/
theorem Inv.step (h : s.Inv) (hfine : Fine a s) (hrun : exec a s = .ok ((), s')) : s'.Inv := by
  have hoffset := h.offset a.thread
  have hcovered := h.covered a.thread
  unfold Covered at hcovered
  unfold Fine at hfine
  rw [exec, Routine.get_bind_apply] at hrun
  dsimp only at hfine
  cases hpc : (s.writer a.thread).pc with
  | load =>
    rw [hpc] at hrun
    dsimp only at hrun
    split at hrun
    · nomatch hrun
    · cases hrun
      exact h.setWriter rfl le_rfl hoffset trivial
  | test =>
    rw [hpc] at hrun hfine
    dsimp only at hrun
    split at hrun
    · rename_i hmore
      split at hrun
      · rename_i hsector
        cases hrun
        have hlt : (s.writer a.thread).offset < s.length := by
          simp only [byteToSector, decide_eq_true_eq] at hsector
          exact hsector.1
        exact h.setWriter rfl le_rfl hoffset hlt.le
      · cases hrun
        exact h.setWriter rfl le_rfl hoffset hmore.1
    · rename_i hends
      cases hrun
      exact h.setWriter rfl le_rfl hoffset (hfine.resolve_left hends)
  | acquire =>
    rw [hpc] at hrun hcovered
    dsimp only at hrun
    split at hrun
    · nomatch hrun
    · cases hrun
      exact h.setWriter rfl le_rfl hoffset hcovered
  | grow =>
    rw [hpc] at hrun hfine hcovered
    dsimp only at hrun hcovered
    obtain ⟨hfits, hsectors⟩ := hfine
    cases hgrow : s.inodeGrow (s.writer a.thread).size (s.writer a.thread).offset a.got with
    | none =>
      rw [hgrow] at hrun
      nomatch hrun
    | some r =>
      obtain ⟨s1, b⟩ := r
      have hmono := length_le_of_inodeGrow hgrow hfits
      obtain ⟨hwriter, hcases⟩ := inodeGrow_cases hgrow
      rw [hgrow] at hrun
      -- after growing the offset is not past the end
      have hend : (s.writer a.thread).offset ≤ s1.length := by
        obtain ⟨hmore, -, hlength⟩ | ⟨hmore, -, hfew, -⟩ | ⟨-, -, hlength⟩ := hcases
        · rcases hsectors with hin | hless | ⟨-, henough⟩ <;> omega
        · rcases hsectors with hin | hless | ⟨hgot, -⟩
          · omega
          · omega
          · exact absurd hgot hfew
        · omega
      cases b with
      | true =>
        cases hrun
        exact h.setWriter hwriter hmono hoffset hend
      | false =>
        cases hrun
        exact h.setWriter hwriter hmono hoffset hend
  | look isGrowing =>
    rw [hpc] at hrun hcovered
    dsimp only at hrun hcovered
    split at hrun
    · cases hrun
      refine h.setWriter rfl le_rfl hoffset ?_
      cases isGrowing <;> exact hcovered
    · cases hrun
      refine h.setWriter rfl le_rfl hoffset ?_
      show (s.writer a.thread).offset + s.chunkSize (s.writer a.thread) ≤ s.length
      unfold chunkSize
      omega
  | copy isGrowing chunk =>
    rw [hpc] at hrun hcovered
    dsimp only at hrun hcovered
    cases hrun
    refine h.setWriter rfl le_rfl ?_ ?_
    · show (s.writer a.thread).offset + chunk =
        (s.writer a.thread).start + ((s.writer a.thread).bytesWritten + chunk)
      omega
    · cases isGrowing with
      | true => exact hcovered
      | false => trivial
  | logical ends =>
    rw [hpc] at hrun hcovered
    cases hrun
    exact h.setWriter rfl le_rfl hoffset hcovered
  | release ends =>
    rw [hpc] at hrun hcovered
    cases hrun
    refine h.setWriter rfl le_rfl hoffset ?_
    cases ends with
    | true => exact hcovered
    | false => trivial
  | unload =>
    rw [hpc] at hrun hcovered
    dsimp only at hrun
    split at hrun
    · nomatch hrun
    · cases hrun
      exact h.setWriter rfl le_rfl hoffset hcovered
  | returned =>
    rw [hpc] at hrun
    nomatch hrun

/-- Each state that a run passes keeps the invariant if its steps satisfy `Fine`. -/
theorem Inv.visits {acts : List WriterStep} (h : s.Inv)
    (hfine : ∀ a m, Routine.Takes exec acts s a m → Fine a m)
    (hvisits : Routine.Visits exec acts s s') : s'.Inv :=
  Routine.Visits.invariant (fun _ _ _ _ hinv hmay hrun => hinv.step hmay hrun) hfine h hvisits

/-- The length falls in no step exactly if every call that grows the inode finds that it `Fits`. -/
theorem neverShrinks_iff (acts : List WriterStep) (s : Extension) :
    NeverShrinks acts s ↔ ∀ a m m', Routine.Takes exec acts s a m → exec a m = .ok ((), m') →
      (m.writer a.thread).pc = .grow → m.Fits (m.writer a.thread) := by
  constructor
  · intro h a m m' htakes hrun hpc hless
    have hmono := h a m m' htakes hrun
    rcases exec_length hrun with ⟨hnot, -⟩ | ⟨-, s1, b, hgrow, hlength⟩
    · exact absurd hpc hnot
    · obtain ⟨-, ⟨hmore, -⟩ | ⟨hmore, -⟩ | ⟨-, -, hassign⟩⟩ := inodeGrow_cases hgrow
      · omega
      · omega
      · omega
  · intro h a m m' htakes hrun
    rcases exec_length hrun with ⟨-, hsame⟩ | ⟨hpc, s1, b, hgrow, hlength⟩
    · omega
    · have hle := length_le_of_inodeGrow hgrow (h a m m' htakes hrun hpc)
      omega

theorem Fine.fits {a : WriterStep} {s : Extension} (h : Fine a s)
    (hpc : (s.writer a.thread).pc = .grow) : s.Fits (s.writer a.thread) := by
  unfold Fine at h
  dsimp only at h
  rw [hpc] at h
  exact h.1

end Extension

/-- Calls of `inode_write_at` on one inode never shorten it exactly if each call that enters
`inode_grow` to grow it within its last sector finds it no longer than it wants it to be.  If moreover
no call that starts past the end is denied or fails to reach its offset, the inode also covers what
the calls report to have written. -/
theorem extension_never_shrinks {s : Extension} (hs : s.Start) (acts : List WriterStep) :
    (Extension.NeverShrinks acts s ↔ ∀ a m m', Routine.Takes Extension.exec acts s a m →
        Extension.exec a m = .ok ((), m') → (m.writer a.thread).pc = .grow →
          m.Fits (m.writer a.thread)) ∧
      ((∀ a m, Routine.Takes Extension.exec acts s a m → Extension.Fine a m) →
        Extension.NeverShrinks acts s ∧ Extension.Covers acts s) := by
  refine ⟨Extension.neverShrinks_iff acts s, fun hfine => ⟨?_, fun m hvisits i hreturned => ?_⟩⟩
  · apply (Extension.neverShrinks_iff acts s).mpr
    intro a m m' htakes _ hpc
    exact (hfine a m htakes).fits hpc
  · have hinv := hs.inv.visits hfine hvisits
    have hcovered := hinv.covered i
    have hoffset := hinv.offset i
    unfold Extension.Covered at hcovered
    rw [hreturned] at hcovered
    omega

/-- An empty inode with one sector, and two calls that write 10 and 100 bytes at its start. -/
def twoWriters : Extension where
  inodeStart := 2
  length := 0
  logicalLength := 0
  denyWriteCnt := 0
  hasSector j := j = 0
  inodeLock := none
  writer i := ⟨.load, if i = 0 then 10 else if i = 1 then 100 else 0, 0, 0, 0⟩

theorem twoWriters_start : twoWriters.Start := ⟨fun _ => rfl, fun _ => rfl, fun _ => rfl⟩

/-- Both calls find that they have to grow the inode, and the second one does all its work. -/
def secondWriterFirst : List WriterStep :=
  [⟨0, 0⟩, ⟨0, 0⟩, ⟨1, 0⟩, ⟨1, 0⟩, ⟨1, 0⟩, ⟨1, 1⟩, ⟨1, 0⟩, ⟨1, 0⟩, ⟨1, 0⟩, ⟨1, 0⟩, ⟨1, 0⟩, ⟨1, 0⟩, ⟨0, 0⟩]

/-- The length after the steps. -/
def Extension.lengthAfter (acts : List WriterStep) (s : Extension) : Option Int :=
  match Routine.execAll Extension.exec acts s with
  | .ok (_, m) => some m.length
  | .error _ => none

theorem Extension.run_of_lengthAfter {acts : List WriterStep} {s : Extension} {length : Int}
    (h : lengthAfter acts s = some length) :
    ∃ rs m, Routine.execAll exec acts s = .ok (rs, m) ∧ m.length = length := by
  unfold lengthAfter at h
  split at h
  · rename_i rs m hrun
    exact ⟨rs, m, hrun, Option.some.inj h⟩
  · nomatch h

/-- Then the first one shortens the inode to what it wants. -/
theorem extension_shrinks :
    ¬ Extension.NeverShrinks (secondWriterFirst ++ [⟨0, 0⟩]) twoWriters := by
  intro h
  obtain ⟨rs, m, hbefore, hlong⟩ := Extension.run_of_lengthAfter
    (show Extension.lengthAfter secondWriterFirst twoWriters = some 100 by decide +kernel)
  obtain ⟨rs', m', hall, hshort⟩ := Extension.run_of_lengthAfter
    (show Extension.lengthAfter (secondWriterFirst ++ [⟨0, 0⟩]) twoWriters = some 10 by
      decide +kernel)
  obtain ⟨as, bs, m1, hfirst, hlast, -⟩ := Routine.execAll_append_ok.mp hall
  cases hbefore.symm.trans hfirst
  obtain ⟨_, _, m2, hrun, hnil, -⟩ := Routine.execAll_cons_ok.mp hlast
  cases hnil
  have hmono := h ⟨0, 0⟩ m m' ⟨secondWriterFirst, [], rs, rfl, hbefore⟩ hrun
  omega

/-- Both calls find that they have to grow the inode, and the first one does it first. -/
def firstWriterFirst : List WriterStep :=
  [⟨0, 0⟩, ⟨1, 0⟩, ⟨0, 0⟩, ⟨1, 0⟩, ⟨0, 0⟩, ⟨0, 1⟩, ⟨0, 0⟩, ⟨0, 0⟩, ⟨0, 0⟩, ⟨0, 0⟩, ⟨1, 0⟩, ⟨1, 0⟩,
    ⟨1, 0⟩, ⟨1, 0⟩, ⟨1, 0⟩, ⟨1, 0⟩, ⟨0, 0⟩, ⟨0, 0⟩, ⟨1, 0⟩, ⟨1, 0⟩]

theorem firstWriterFirst_fine (a : WriterStep) (m : Extension)
    (htakes : Routine.Takes Extension.exec firstWriterFirst twoWriters a m) :
    Extension.Fine a m := by
  have hcheck : Routine.checkAll Extension.exec (fun a m => decide (Extension.Fine a m))
      firstWriterFirst twoWriters = true := by
    decide +kernel
  have hfine := Routine.of_checkAll hcheck htakes
  exact of_decide_eq_true hfine

/-- The inode becomes as long as the longer call wants it, and covers what both have written. -/
theorem extension_never_shrinks_firstWriterFirst :
    Extension.lengthAfter firstWriterFirst twoWriters = some 100 ∧
      Extension.NeverShrinks firstWriterFirst twoWriters ∧
      Extension.Covers firstWriterFirst twoWriters :=
  ⟨by decide +kernel,
    (extension_never_shrinks twoWriters_start firstWriterFirst).2 firstWriterFirst_fine⟩

end Pintos
