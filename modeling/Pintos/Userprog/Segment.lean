import Mathlib.Data.UInt
import Pintos.Devices.Block
import Pintos.Library.Weakest

/-! Loadable segments of an executable (`userprog/process.c`): `validate_segment`, the case
`PT_LOAD` of `load`, and `load_segment`, in 32-bit arithmetic.  Page entries can always be
allocated. -/

namespace Pintos

namespace Segment

/-- `PGSIZE`. -/
def pgSize : UInt32 := 4096

/-- `PGMASK`. -/
def pgMask : UInt32 := 0xfff

/-- `PHYS_BASE`. -/
def physBase : UInt32 := 0xc0000000

/-- `PF_W`. -/
def pfW : UInt32 := 2

/-- `struct Elf32_Phdr`, as far as a loadable segment uses it. -/
structure Elf32Phdr where
  pOffset : UInt32
  pVaddr : UInt32
  pFilesz : UInt32
  pMemsz : UInt32
  pFlags : UInt32

/-- What `pt_suppl_add_lazy` notes for a page. -/
structure LazyPage where
  ofs : Int32
  upage : UInt32
  readBytes : UInt32
  zeroBytes : UInt32
  writable : Bool

/-- The state is the pages added so far. -/
abbrev LoadRoutine := Routine Fault (List LazyPage)

/-- `ROUND_UP (x, PGSIZE)`. -/
def roundUp (x : UInt32) : UInt32 := (x + pgSize - 1) / pgSize * pgSize

/-- `is_user_vaddr`. -/
def isUserVaddr (vaddr : UInt32) : Bool := vaddr < physBase

/-- `validate_segment`. -/
def validateSegment (phdr : Elf32Phdr) (fileLength : UInt32) : Bool :=
  if phdr.pOffset &&& pgMask ≠ phdr.pVaddr &&& pgMask then false
  else if phdr.pOffset > fileLength then false
  else if phdr.pMemsz < phdr.pFilesz then false
  else if phdr.pMemsz = 0 then false
  else if ¬ isUserVaddr phdr.pVaddr then false
  else if ¬ isUserVaddr (phdr.pVaddr + phdr.pMemsz) then false
  else if phdr.pVaddr + phdr.pMemsz < phdr.pVaddr then false
  else if phdr.pVaddr < pgSize then false
  else true

def assertThat (condition : String) (c : Bool) : LoadRoutine Unit :=
  if c then pure () else throw (.assertion condition)

/-- `pt_suppl_add_lazy`. -/
def ptSupplAddLazy (page : LazyPage) : LoadRoutine Bool := do
  modify (· ++ [page])
  pure true

/-- The loop of `load_segment`. -/
def loadLoop (isWritable : Bool) : (fuel : Nat) → (bytesRead zeroBytes : UInt32) → (ofs : Int32) →
    (userPage : UInt32) → LoadRoutine Bool
  | 0, _, _, _, _ => throw .spin
  | fuel + 1, bytesRead, zeroBytes, ofs, userPage =>
    if bytesRead > 0 ∨ zeroBytes > 0 then do
      let bytesReadFromPage := if bytesRead < pgSize then bytesRead else pgSize
      let pageZeroBytes := pgSize - bytesReadFromPage
      let success ← ptSupplAddLazy
        ⟨ofs, userPage, bytesReadFromPage, pageZeroBytes, isWritable⟩
      if ¬ success then pure false
      else do
        let bytesRead := bytesRead - bytesReadFromPage
        let zeroBytes := zeroBytes - pageZeroBytes
        let ofs := (ofs.toUInt32 + bytesReadFromPage).toInt32
        loadLoop isWritable fuel bytesRead zeroBytes ofs (userPage + pgSize)
    else pure true

/-- `load_segment`. -/
def loadSegment (fuel : Nat) (ofs : Int32) (userPage bytesRead zeroBytes : UInt32)
    (isWritable : Bool) : LoadRoutine Bool := do
  assertThat "bytesRead + zero_bytes > 0" (bytesRead + zeroBytes > 0)
  assertThat "(bytesRead + zero_bytes) % PGSIZE == 0" ((bytesRead + zeroBytes) % pgSize = 0)
  assertThat "pg_ofs(userPage) == 0" (userPage &&& pgMask = 0)
  assertThat "ofs % PGSIZE == 0" (ofs.toInt.tmod 4096 = 0)
  loadLoop isWritable fuel bytesRead zeroBytes ofs userPage

/-- `read_bytes` in `load`. -/
def readBytes (phdr : Elf32Phdr) : UInt32 :=
  let pageOffset := phdr.pVaddr &&& pgMask
  if phdr.pFilesz > 0 then pageOffset + phdr.pFilesz else 0

/-- `zero_bytes` in `load`. -/
def zeroBytes (phdr : Elf32Phdr) : UInt32 :=
  let pageOffset := phdr.pVaddr &&& pgMask
  if phdr.pFilesz > 0 then roundUp (pageOffset + phdr.pMemsz) - readBytes phdr
  else roundUp (pageOffset + phdr.pMemsz)

/-- The case `PT_LOAD` of `load`, and whether loading goes on. -/
def loadPhdr (fuel : Nat) (phdr : Elf32Phdr) (fileLength : UInt32) : LoadRoutine Bool :=
  if validateSegment phdr fileLength then
    let writable := phdr.pFlags &&& pfW ≠ 0
    let filePage := phdr.pOffset &&& ~~~pgMask
    let memPage := phdr.pVaddr &&& ~~~pgMask
    loadSegment fuel filePage.toInt32 memPage (readBytes phdr) (zeroBytes phdr) writable
  else pure false

/-! ### Pages -/

variable {x : UInt32} {phdr : Elf32Phdr} {fileLength : UInt32}

theorem toNat_and_pgMask (x : UInt32) : (x &&& pgMask).toNat = x.toNat % 4096 := by
  rw [UInt32.toNat_and]
  exact Nat.and_two_pow_sub_one_eq_mod x.toNat 12

/-- Without its offset in the page, an address is the start of the page. -/
theorem toNat_and_not_pgMask (x : UInt32) :
    (x &&& ~~~pgMask).toNat = x.toNat / 4096 * 4096 := by
  have hbits : (x &&& ~~~pgMask).toBitVec = x.toBitVec >>> 12 <<< 12 := by
    refine BitVec.eq_of_getLsbD_eq fun i hi => ?_
    rw [UInt32.toBitVec_and, UInt32.toBitVec_not, BitVec.getLsbD_and, BitVec.getLsbD_not,
      BitVec.getLsbD_shiftLeft, BitVec.getLsbD_ushiftRight]
    have hmask : pgMask.toBitVec.getLsbD i = decide (i < 12) := by
      have hnat := Nat.testBit_two_pow_sub_one 12 i
      rwa [show (2 ^ 12 - 1 : Nat) = pgMask.toBitVec.toNat from rfl] at hnat
    rw [hmask]
    by_cases hlow : i < 12
    · simp [hlow]
    · simp [hlow, hi, Nat.add_sub_cancel' (Nat.not_lt.mp hlow)]
  have hlt := x.toNat_lt
  rw [← UInt32.toNat_toBitVec, hbits, BitVec.toNat_shiftLeft, BitVec.toNat_ushiftRight,
    UInt32.toNat_toBitVec, Nat.shiftRight_eq_div_pow, Nat.shiftLeft_eq, Nat.mod_eq_of_lt (by omega)]

theorem toInt_toInt32 (h : x.toNat < 2 ^ 31) : x.toInt32.toInt = x.toNat :=
  BitVec.toInt_eq_toNat_of_lt (show 2 * x.toBitVec.toNat < 2 ^ 32 by
    rw [UInt32.toNat_toBitVec]
    omega)

theorem toNat_roundUp (h : x.toNat + 4095 < 2 ^ 32) :
    (roundUp x).toNat = (x.toNat + 4095) / 4096 * 4096 := by
  have hsub : (x + pgSize - 1).toNat = x.toNat + 4095 := by
    rw [UInt32.toNat_sub, UInt32.toNat_add]
    change (2 ^ 32 - 1 + (x.toNat + 4096) % 2 ^ 32) % 2 ^ 32 = _
    omega
  rw [roundUp, UInt32.toNat_mul, UInt32.toNat_div, hsub]
  change (x.toNat + 4095) / 4096 * 4096 % 2 ^ 32 = _
  omega

theorem assertThat_ok {condition : String} {c : Bool} (hc : c = true) (added : List LazyPage) :
    assertThat condition c added = .ok ((), added) := by
  rw [assertThat, if_pos hc]
  rfl

/-- `load_segment` gets past its assertions on page-aligned arguments. -/
theorem loadSegment_eq {fuel : Nat} {ofs : Int32} {userPage bytesRead zeroBytes : UInt32}
    {isWritable : Bool} {k : Nat} (added : List LazyPage)
    (hsum : bytesRead.toNat + zeroBytes.toNat = k * 4096) (hk : 0 < k) (hwrap : k * 4096 < 2 ^ 32)
    (hpage : userPage.toNat % 4096 = 0) (hofs : ofs.toInt.tmod 4096 = 0) :
    loadSegment fuel ofs userPage bytesRead zeroBytes isWritable added =
      loadLoop isWritable fuel bytesRead zeroBytes ofs userPage added := by
  have hadd : (bytesRead + zeroBytes).toNat = k * 4096 := by
    rw [UInt32.toNat_add, hsum, Nat.mod_eq_of_lt hwrap]
  have hpos : bytesRead + zeroBytes > 0 := by
    rw [gt_iff_lt, UInt32.lt_iff_toNat_lt, UInt32.toNat_zero, hadd]
    omega
  have hwhole : (bytesRead + zeroBytes) % pgSize = 0 := by
    rw [← UInt32.toNat_inj, UInt32.toNat_mod, hadd]
    exact Nat.mul_mod_left k 4096
  have hpgOfs : userPage &&& pgMask = 0 := by
    rw [← UInt32.toNat_inj, toNat_and_pgMask, hpage, UInt32.toNat_zero]
  rw [loadSegment, Routine.bind_of_ok (assertThat_ok (decide_eq_true hpos) added),
    Routine.bind_of_ok (assertThat_ok (decide_eq_true hwhole) added),
    Routine.bind_of_ok (assertThat_ok (decide_eq_true hpgOfs) added),
    Routine.bind_of_ok (assertThat_ok (decide_eq_true hofs) added)]

/-- The loop adds one page after another until both counters are used up. -/
theorem loadLoop_ok {isWritable : Bool} {fuel k : Nat} {bytesRead zeroBytes : UInt32} {ofs : Int32}
    {userPage : UInt32} (added : List LazyPage)
    (hsum : bytesRead.toNat + zeroBytes.toNat = k * 4096)
    (hfits : userPage.toNat + k * 4096 < 2 ^ 32) (hfuel : k < fuel) :
    ∃ pages, loadLoop isWritable fuel bytesRead zeroBytes ofs userPage added =
        .ok (true, added ++ pages) ∧
      pages.length = k ∧
      (pages.map fun page => page.readBytes.toNat).sum = bytesRead.toNat ∧
      (pages.map fun page => page.zeroBytes.toNat).sum = zeroBytes.toNat ∧
      ∀ i (h : i < pages.length), pages[i].upage.toNat = userPage.toNat + i * 4096 ∧
        pages[i].readBytes.toNat + pages[i].zeroBytes.toNat = 4096 := by
  induction k generalizing fuel bytesRead zeroBytes ofs userPage added with
  | zero =>
    cases fuel with
    | zero => nomatch hfuel
    | succ fuel =>
      have hread : bytesRead.toNat = 0 := by omega
      have hzero : zeroBytes.toNat = 0 := by omega
      refine ⟨[], ?_, rfl, hread.symm, hzero.symm, fun i hi => nomatch hi⟩
      have hdone : ¬ (bytesRead > 0 ∨ zeroBytes > 0) := by
        simp only [gt_iff_lt, UInt32.lt_iff_toNat_lt, hread, hzero]
        simp
      rw [loadLoop, if_neg hdone, List.append_nil]
      rfl
  | succ k ih =>
    cases fuel with
    | zero => nomatch hfuel
    | succ fuel =>
      have hpgSize : pgSize.toNat = 4096 := rfl
      have hgoes : bytesRead > 0 ∨ zeroBytes > 0 := by
        simp only [gt_iff_lt, UInt32.lt_iff_toNat_lt, UInt32.toNat_zero]
        omega
      rw [loadLoop, if_pos hgoes]
      generalize hfrom : (if bytesRead < pgSize then bytesRead else pgSize) = fromPage
      have hfromNat : fromPage.toNat = min bytesRead.toNat 4096 := by
        rw [← hfrom]
        split_ifs with hless
        · rw [UInt32.lt_iff_toNat_lt, hpgSize] at hless
          omega
        · rw [UInt32.lt_iff_toNat_lt, hpgSize] at hless
          omega
      have hrest : (pgSize - fromPage).toNat = 4096 - fromPage.toNat := by
        refine UInt32.toNat_sub_of_le _ _ (UInt32.le_iff_toNat_le.mpr ?_)
        omega
      have hbytesRead : (bytesRead - fromPage).toNat = bytesRead.toNat - fromPage.toNat := by
        refine UInt32.toNat_sub_of_le _ _ (UInt32.le_iff_toNat_le.mpr ?_)
        omega
      have hzeroBytes : (zeroBytes - (pgSize - fromPage)).toNat =
          zeroBytes.toNat - (4096 - fromPage.toNat) := by
        rw [← hrest]
        refine UInt32.toNat_sub_of_le _ _ (UInt32.le_iff_toNat_le.mpr ?_)
        omega
      have hnext : (userPage + pgSize).toNat = userPage.toNat + 4096 := by
        rw [UInt32.toNat_add, hpgSize, Nat.mod_eq_of_lt (by omega)]
      obtain ⟨pages, hrun, hlength, hreads, hzeros, hpages⟩ :=
        @ih fuel (bytesRead - fromPage) (zeroBytes - (pgSize - fromPage))
          (ofs.toUInt32 + fromPage).toInt32 (userPage + pgSize)
          (added ++ [⟨ofs, userPage, fromPage, pgSize - fromPage, isWritable⟩])
          (by omega) (by omega) (by omega)
      refine ⟨⟨ofs, userPage, fromPage, pgSize - fromPage, isWritable⟩ :: pages, ?_, ?_, ?_, ?_,
        fun i hi => ?_⟩
      · rw [ptSupplAddLazy]
        simpa using hrun
      · rw [List.length_cons, hlength]
      · rw [List.map_cons, List.sum_cons, hreads]
        dsimp only
        omega
      · rw [List.map_cons, List.sum_cons, hzeros]
        dsimp only
        omega
      · cases i with
        | zero => exact ⟨by simp, by simp only [List.getElem_cons_zero]; omega⟩
        | succ i =>
          obtain ⟨hupage, hfull⟩ := hpages i (by simpa using hi)
          rw [List.getElem_cons_succ]
          exact ⟨by omega, hfull⟩

/-- What the checks of `validate_segment` say about the numbers. -/
structure Valid (phdr : Elf32Phdr) (fileLength : UInt32) : Prop where
  offset : phdr.pOffset.toNat % 4096 = phdr.pVaddr.toNat % 4096
  inFile : phdr.pOffset.toNat ≤ fileLength.toNat
  filesz : phdr.pFilesz.toNat ≤ phdr.pMemsz.toNat
  memsz : 0 < phdr.pMemsz.toNat
  start : 4096 ≤ phdr.pVaddr.toNat
  endOf : phdr.pVaddr.toNat + phdr.pMemsz.toNat < 0xc0000000

theorem valid_of_validateSegment (h : validateSegment phdr fileLength = true) :
    Valid phdr fileLength := by
  rw [validateSegment] at h
  split_ifs at h with hoffset hinFile hfilesz hmemsz hstart hend hwrap hpage
  have hphys : physBase.toNat = 0xc0000000 := rfl
  have hpgSize : pgSize.toNat = 4096 := rfl
  simp only [isUserVaddr, decide_eq_true_eq, UInt32.lt_iff_toNat_lt, UInt32.toNat_add,
    gt_iff_lt, hphys, hpgSize] at hinFile hfilesz hstart hend hwrap hpage
  have hoffset' := congrArg UInt32.toNat (not_not.mp hoffset)
  rw [toNat_and_pgMask, toNat_and_pgMask] at hoffset'
  have hmemsz' : phdr.pMemsz.toNat ≠ 0 := fun hzero => hmemsz (UInt32.toNat_inj.mp hzero)
  have hvaddr := phdr.pVaddr.toNat_lt
  have hmem := phdr.pMemsz.toNat_lt
  exact ⟨hoffset', by omega, by omega, by omega, by omega, by omega⟩

/-- The bytes that `load` reads and zeroes fill whole pages, up to the one with the last byte. -/
theorem Valid.bytes (h : Valid phdr fileLength) :
    (readBytes phdr).toNat + (zeroBytes phdr).toNat =
      (phdr.pVaddr.toNat % 4096 + phdr.pMemsz.toNat + 4095) / 4096 * 4096 := by
  obtain ⟨-, -, hfilesz, hmemsz, hstart, hend⟩ := h
  have hoffset := toNat_and_pgMask phdr.pVaddr
  have hmem : ((phdr.pVaddr &&& pgMask) + phdr.pMemsz).toNat =
      phdr.pVaddr.toNat % 4096 + phdr.pMemsz.toNat := by
    rw [UInt32.toNat_add, hoffset, Nat.mod_eq_of_lt (by omega)]
  have hround := toNat_roundUp (x := (phdr.pVaddr &&& pgMask) + phdr.pMemsz) (by omega)
  rw [hmem] at hround
  by_cases hfile : phdr.pFilesz > 0
  · have hread : (readBytes phdr).toNat = phdr.pVaddr.toNat % 4096 + phdr.pFilesz.toNat := by
      rw [readBytes, if_pos hfile, UInt32.toNat_add, hoffset, Nat.mod_eq_of_lt (by omega)]
    have hle : readBytes phdr ≤ roundUp ((phdr.pVaddr &&& pgMask) + phdr.pMemsz) := by
      rw [UInt32.le_iff_toNat_le]
      omega
    rw [zeroBytes, if_pos hfile, UInt32.toNat_sub_of_le _ _ hle, hround]
    rw [UInt32.le_iff_toNat_le, hround] at hle
    omega
  · rw [readBytes, zeroBytes, if_neg hfile, if_neg hfile, hround, UInt32.toNat_zero, Nat.zero_add]

end Segment

open Segment in
/-- An accepted segment is loaded page by page, into pages of user memory that follow each other.
What the pages read and zero adds up to the two counters, so neither of them goes below zero. -/
theorem segment_loaded {phdr : Elf32Phdr} {fileLength : UInt32} {fuel : Nat}
    (hlength : fileLength.toNat < 2 ^ 31) (h : validateSegment phdr fileLength = true)
    (hfuel : ((readBytes phdr).toNat + (zeroBytes phdr).toNat) / 4096 < fuel)
    (added : List LazyPage) :
    ∃ pages, loadPhdr fuel phdr fileLength added = .ok (true, added ++ pages) ∧
      pages.length * 4096 = (readBytes phdr).toNat + (zeroBytes phdr).toNat ∧
      (pages.map fun page => page.readBytes.toNat).sum = (readBytes phdr).toNat ∧
      (pages.map fun page => page.zeroBytes.toNat).sum = (zeroBytes phdr).toNat ∧
      ∀ i (h : i < pages.length),
        pages[i].upage.toNat = phdr.pVaddr.toNat / 4096 * 4096 + i * 4096 ∧
        pages[i].readBytes.toNat + pages[i].zeroBytes.toNat = 4096 ∧
        pgSize ≤ pages[i].upage ∧ pages[i].upage < physBase := by
  have hvalid := valid_of_validateSegment h
  have hbytes := hvalid.bytes
  obtain ⟨hoffset, hinFile, hfilesz, hmemsz, hstart, hend⟩ := hvalid
  have hmemPage := toNat_and_not_pgMask phdr.pVaddr
  have hfilePage := toNat_and_not_pgMask phdr.pOffset
  obtain ⟨pages, hrun, hpagesLength, hreads, hzeros, hpages⟩ := @loadLoop_ok
    (phdr.pFlags &&& pfW ≠ 0) fuel _ (readBytes phdr) (zeroBytes phdr)
    (phdr.pOffset &&& ~~~pgMask).toInt32 (phdr.pVaddr &&& ~~~pgMask) added hbytes (by omega)
    (by omega)
  refine ⟨pages, ?_, ?_, hreads, hzeros, fun i hi => ?_⟩
  · have hofs : (phdr.pOffset &&& ~~~pgMask).toInt32.toInt.tmod 4096 = 0 := by
      rw [toInt_toInt32 (by omega), hfilePage]
      exact Int.tmod_eq_zero_of_dvd ⟨(phdr.pOffset.toNat / 4096 : Nat), by push_cast; omega⟩
    rw [loadPhdr, if_pos h, loadSegment_eq added hbytes (by omega) (by omega) (by omega) hofs]
    exact hrun
  · omega
  · obtain ⟨hupage, hfull⟩ := hpages i hi
    have hpgSize : pgSize.toNat = 4096 := rfl
    have hphys : physBase.toNat = 0xc0000000 := rfl
    rw [UInt32.le_iff_toNat_le, UInt32.lt_iff_toNat_lt, hpgSize, hphys]
    refine ⟨by omega, hfull, by omega, by omega⟩

open Segment in
/-- A segment of 5000 bytes of the file and 4000 zero bytes, from the middle of a page on. -/
theorem segment_loaded_threePages :
    let phdr : Elf32Phdr := ⟨0x1010, 0x08048010, 5000, 9000, 5⟩
    ∃ pages, loadPhdr 4 phdr 0x3000 [] = .ok (true, [] ++ pages) ∧
      pages.length * 4096 = (readBytes phdr).toNat + (zeroBytes phdr).toNat := by
  obtain ⟨pages, hrun, hlength, -⟩ := @segment_loaded
    ⟨0x1010, 0x08048010, 5000, 9000, 5⟩ 0x3000 4 (by decide) (by decide) (by decide) []
  exact ⟨pages, hrun, hlength⟩

end Pintos
