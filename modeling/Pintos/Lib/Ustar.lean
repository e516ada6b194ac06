import Mathlib.Algebra.Order.BigOperators.Group.List
import Pintos.Lib.Stdio
import Pintos.Lib.String
import Pintos.Library.Memory

/-! Headers of ustar archives (`lib/ustar.c`).  A header is 512 bytes of fields, numbers in them are
octal digits, and a checksum covers all of them.  File names lose the prefixes that lead out of the
directory that an archive is extracted to. -/

namespace Pintos

/-! ### File names -/

/-- `strchr` for a character other than the null byte. -/
def strchr (s : List UInt8) (c : UInt8) : Option (List UInt8) :=
  match s.dropWhile (· ≠ c) with
  | [] => none
  | c :: s => some (c :: s)

/-- The condition of the loop of `strip_antisocial_prefixes`. -/
def antisocial (fileName : List UInt8) : Bool :=
  fileName.head? = some (ascii '/') || (asciiBytes "./").isPrefixOf fileName ||
    (asciiBytes "../").isPrefixOf fileName

/-- The loop of `strip_antisocial_prefixes`; `none` if it has not ended after `fuel` rounds or goes
on from a null pointer. -/
def stripLoop : (fuel : Nat) → List UInt8 → Option (List UInt8)
  | 0, _ => none
  | fuel + 1, fileName =>
    if antisocial fileName then
      match strchr fileName (ascii '/') with
      | some slash => stripLoop fuel slash.tail
      | none => none
    else some fileName

def stripAntisocialPrefixes (fileName : List UInt8) : Option (List UInt8) := do
  let fileName ← stripLoop (fileName.length + 1) fileName
  return if fileName = [] ∨ fileName = asciiBytes ".." then asciiBytes "." else fileName

/-! ### Headers -/

def ustarHeaderSize : Nat := 512

inductive UstarType where
  | regular | directory | eof
  deriving DecidableEq

/-- The value in the file format. -/
def UstarType.byte : UstarType → UInt8
  | .regular => ascii '0'
  | .directory => ascii '5'
  | .eof => 0xFF

/-! The offsets of the fields of `struct ustar_header` that are used. -/

def nameOfs : Nat := 0
def modeOfs : Nat := 100
def uidOfs : Nat := 108
def gidOfs : Nat := 116
def sizeOfs : Nat := 124
def mtimeOfs : Nat := 136
def chksumOfs : Nat := 148
def typeflagOfs : Nat := 156
def magicOfs : Nat := 257
def versionOfs : Nat := 263
def unameOfs : Nat := 265
def gnameOfs : Nat := 297
def prefixOfs : Nat := 345

/-- The `n` bytes at `ofs`. -/
def fieldBytes (h : Memory) (ofs n : Nat) : List UInt8 := (List.range n).map fun i => h (ofs + i)

/-- `calculate_chksum`, which takes its own field for spaces. -/
def calculateChksum (h : Memory) : Nat :=
  ((List.range ustarHeaderSize).map fun i =>
    if chksumOfs ≤ i ∧ i < chksumOfs + 8 then (ascii ' ').toNat else (h i).toNat).sum

/-- The fields that `ustar_make_header` fills in before the checksum. -/
def fillHeader (fileName : List UInt8) (type : UstarType) (size : Int) (header : Memory) :
    Option Memory := do
  let h := header.store 0 (List.replicate ustarHeaderSize 0)
  let h := h.store nameOfs (strlcpy fileName 100)
  let (mode, _) ← vsnprintf 8 (asciiBytes "%07o")
    [.integer (if type = .regular then 0o644 else 0o755)]
  let h := h.store modeOfs mode
  let h := h.store uidOfs (strlcpy (asciiBytes "0000000") 8)
  let h := h.store gidOfs (strlcpy (asciiBytes "0000000") 8)
  let (sizeText, _) ← vsnprintf 12 (asciiBytes "%011o") [.integer size]
  let h := h.store sizeOfs sizeText
  let (mtime, _) ← vsnprintf 12 (asciiBytes "%011o") [.integer 1136102400]
  let h := h.store mtimeOfs mtime
  let h := h.store typeflagOfs [type.byte]
  let h := h.store magicOfs (strlcpy (asciiBytes "ustar") 6)
  let h := h.store versionOfs [ascii '0', ascii '0']
  let h := h.store gnameOfs (strlcpy (asciiBytes "root") 32)
  return h.store unameOfs (strlcpy (asciiBytes "root") 32)

/-- `ustar_make_header`: its result and the header; `none` if an assertion fails. -/
def ustarMakeHeader (fileName : List UInt8) (type : UstarType) (size : Int) (header : Memory) :
    Option (Bool × Memory) := do
  if type = .eof then none
  else
    let fileName ← stripAntisocialPrefixes fileName
    if 99 < fileName.length then return (false, header)
    else
      let h ← fillHeader fileName type size header
      let (chksum, _) ← vsnprintf 8 (asciiBytes "%07o") [.integer (calculateChksum h)]
      return (true, h.store chksumOfs chksum)

/-- The loop of `parse_octal_field` from offset `ofs` of the field on. -/
def octalLoop : (ofs : Nat) → List UInt8 → (value : Nat) → Option Nat
  | _, [], _ => none
  | ofs, c :: s, value =>
    if ascii '0' ≤ c ∧ c ≤ ascii '7' then
      if (2 ^ 32 - 1) / 8 < value then none
      else octalLoop (ofs + 1) s (c.toNat - (ascii '0').toNat + value * 8)
    else if c = ascii ' ' ∨ c = 0 then if 0 < ofs then some value else none
    else none

def parseOctalField (s : List UInt8) : Option Nat := octalLoop 0 s 0

def isAllZeros (h : Memory) (cnt : Nat) : Bool := (List.range cnt).all fun i => h i = 0

/-- The string at `ofs`, which ends within `n` bytes. -/
def fieldString (h : Memory) (ofs n : Nat) : List UInt8 := (fieldBytes h ofs n).takeWhile (· ≠ 0)

/-- `ustar_parse_header`: an error message, or the file name, the type and the size. -/
def ustarParseHeader (h : Memory) :
    Option (Except String (Option (List UInt8) × UstarType × Int)) :=
  if isAllZeros h ustarHeaderSize then some (.ok (none, .eof, 0))
  else if fieldBytes h magicOfs 6 ≠ asciiBytes "ustar" ++ [0] then
    some (.error "not a ustar archive")
  else if h versionOfs ≠ ascii '0' ∨ h (versionOfs + 1) ≠ ascii '0' then
    some (.error "invalid ustar version")
  else
    match parseOctalField (fieldBytes h chksumOfs 8) with
    | none => some (.error "corrupt chksum field")
    | some chksum =>
      if chksum ≠ calculateChksum h then some (.error "checksum mismatch")
      else if h (nameOfs + 99) ≠ 0 ∨ h prefixOfs ≠ 0 then some (.error "file name too long")
      else if h typeflagOfs = UstarType.regular.byte then
        match parseOctalField (fieldBytes h sizeOfs 12) with
        | none => some (.error "corrupt file size field")
        | some size =>
          if 2 ^ 31 - 1 < size then some (.error "file too large")
          else do
            let fileName ← stripAntisocialPrefixes (fieldString h nameOfs 100)
            return .ok (some fileName, .regular, size)
      else if h typeflagOfs = UstarType.directory.byte then do
        let fileName ← stripAntisocialPrefixes (fieldString h nameOfs 100)
        return .ok (some fileName, .directory, 0)
      else some (.error "unimplemented file type")

/-! ### Stripping -/

theorem strchr_of_mem {s : List UInt8} {c : UInt8} (hc : c ∈ s) :
    ∃ rest, strchr s c = some (c :: rest) ∧ rest <:+ s ∧ rest.length < s.length := by
  induction s with
  | nil => cases hc
  | cons d s ih =>
    by_cases hd : d = c
    · subst hd
      exact ⟨s, by simp [strchr], List.suffix_cons _ _, by simp⟩
    · obtain ⟨rest, hrest, hsuffix, hlen⟩ := ih ((List.mem_cons.mp hc).resolve_left (Ne.symm hd))
      refine ⟨rest, ?_, hsuffix.trans (List.suffix_cons _ _), by simp; omega⟩
      rw [← hrest, strchr, List.dropWhile_cons_of_pos (by simpa using hd)]
      rfl

/-- A name with a prefix to strip has a slash. -/
theorem antisocial_slash {s : List UInt8} (h : antisocial s = true) : ascii '/' ∈ s := by
  rw [antisocial, Bool.or_eq_true, Bool.or_eq_true, decide_eq_true_eq] at h
  rcases h with (hhead | hdot) | hparent
  · exact List.mem_of_head? hhead
  · exact (List.isPrefixOf_iff_prefix.mp hdot).subset (by decide +kernel)
  · exact (List.isPrefixOf_iff_prefix.mp hparent).subset (by decide +kernel)

/-- A name that is not stripped begins with none of the prefixes. -/
theorem not_antisocial {s : List UInt8} (h : antisocial s = false) :
    ¬ asciiBytes "/" <+: s ∧ ¬ asciiBytes "./" <+: s ∧ ¬ asciiBytes "../" <+: s := by
  rw [antisocial, Bool.or_eq_false_iff, Bool.or_eq_false_iff, decide_eq_false_iff_not] at h
  obtain ⟨⟨hhead, hdot⟩, hparent⟩ := h
  refine ⟨?_, fun hp => ?_, fun hp => ?_⟩
  · have hslash : asciiBytes "/" = [ascii '/'] := by decide +kernel
    rw [hslash]
    rintro ⟨rest, rfl⟩
    exact hhead rfl
  · rw [List.isPrefixOf_iff_prefix.mpr hp] at hdot
    cases hdot
  · rw [List.isPrefixOf_iff_prefix.mpr hp] at hparent
    cases hparent

/-- The loop ends at a part of the name that it would not strip. -/
theorem stripLoop_spec {fuel : Nat} {s : List UInt8} (hfuel : s.length < fuel) :
    ∃ r, stripLoop fuel s = some r ∧ antisocial r = false ∧ r <:+ s := by
  induction fuel generalizing s with
  | zero => omega
  | succ fuel ih =>
    rw [stripLoop]
    by_cases hanti : antisocial s = true
    · obtain ⟨rest, hrest, hsuffix, hlen⟩ := strchr_of_mem (antisocial_slash hanti)
      obtain ⟨r, hr, hclean, hr'⟩ := ih (s := rest) (by omega)
      refine ⟨r, ?_, hclean, hr'.trans hsuffix⟩
      rw [if_pos hanti, hrest]
      exact hr
    · rw [if_neg hanti]
      exact ⟨s, rfl, Bool.eq_false_of_not_eq_true hanti, List.suffix_rfl⟩

/-- A name that stripping leaves alone. -/
structure Stripped (r : List UInt8) : Prop where
  clean : antisocial r = false
  nonempty : r ≠ []
  notParent : r ≠ asciiBytes ".."

theorem strip_spec (s : List UInt8) :
    ∃ r, stripAntisocialPrefixes s = some r ∧ Stripped r ∧ (0 ∉ s → 0 ∉ r) := by
  obtain ⟨r, hr, hclean, hsuffix⟩ := stripLoop_spec (Nat.lt_succ_self s.length)
  rw [stripAntisocialPrefixes, hr]
  by_cases hdot : r = [] ∨ r = asciiBytes ".."
  · refine ⟨asciiBytes ".", ?_, ⟨by decide +kernel, by decide +kernel, by decide +kernel⟩, fun _ => ?_⟩
    · simp [hdot]
    · decide +kernel
  · refine ⟨r, by simp [hdot], ⟨hclean, fun h => hdot (.inl h), fun h => hdot (.inr h)⟩, ?_⟩
    exact fun hs h0 => hs (hsuffix.subset h0)

/-- Stripping is idempotent. -/
theorem Stripped.strip {r : List UInt8} (h : Stripped r) : stripAntisocialPrefixes r = some r := by
  rw [stripAntisocialPrefixes, stripLoop, if_neg (by rw [h.clean]; decide)]
  simp [h.nonempty, h.notParent]

/-! ### Octal fields -/

theorem octalLoop_zeros (ofs k : Nat) (s : List UInt8) :
    octalLoop ofs (List.replicate k (ascii '0') ++ s) 0 = octalLoop (ofs + k) s 0 := by
  induction k generalizing ofs with
  | zero => rfl
  | succ k ih =>
    rw [List.replicate_succ, List.cons_append, octalLoop, if_pos (by decide), if_neg (by decide)]
    rw [show (ascii '0').toNat - (ascii '0').toNat + 0 * 8 = 0 from rfl, ih, Nat.add_assoc,
      Nat.add_comm 1]

theorem octalDigit : ∀ d < 8, ascii '0' ≤ baseO.digits.getD d 0 ∧
    baseO.digits.getD d 0 ≤ ascii '7' ∧
    (baseO.digits.getD d 0).toNat - (ascii '0').toNat = d := by
  decide +kernel

/-- The digits of a number in front of the rest of the field add up to the number. -/
theorem octalLoop_digits {ds : List Nat} (hds : ∀ d ∈ ds, d < 8) (hfits : Nat.ofDigits 8 ds < 2 ^ 32)
    (ofs : Nat) (s : List UInt8) :
    octalLoop ofs ((ds.map (baseO.digits.getD · 0)).reverse ++ s) 0
      = octalLoop (ofs + ds.length) s (Nat.ofDigits 8 ds) := by
  induction ds generalizing s with
  | nil => rfl
  | cons d ds ih =>
    rw [Nat.ofDigits_cons] at hfits
    obtain ⟨hlow, hhigh, hvalue⟩ := octalDigit d (hds d List.mem_cons_self)
    rw [List.map_cons, List.reverse_cons, List.append_assoc, List.singleton_append,
      ih (fun x hx => hds x (List.mem_cons_of_mem _ hx)) (by omega), octalLoop,
      if_pos ⟨hlow, hhigh⟩, if_neg (by omega), hvalue, Nat.ofDigits_cons, List.length_cons]
    congr 1
    omega

/-- A zero-filled number in a field parses back. -/
theorem parseOctalField_octalText {width n : Nat} (hpos : 0 < width) (hwidth : n < 8 ^ width)
    (hn : n < 2 ^ 32) : parseOctalField (octalText width n ++ [0]) = some n := by
  have hlen := length_digits_le hwidth
  have hdigits : Nat.ofDigits 8 (Nat.digits 8 n) = n := Nat.ofDigits_digits 8 n
  rw [parseOctalField, octalText, List.append_assoc, octalLoop_zeros,
    octalLoop_digits (fun d hd => Nat.digits_lt_base (by decide) hd) (by rwa [hdigits]), hdigits,
    octalLoop, if_neg (by decide), if_pos (by decide), if_pos]
  simp
  omega

/-! ### Fields -/

theorem strlcpy_fits {s : List UInt8} {size : Nat} (h : s.length < size) :
    strlcpy s size = s ++ [0] := by
  rw [strlcpy, if_pos (by omega), Nat.min_eq_right (by omega), List.take_length]

theorem fieldBytes_eq {h : Memory} {ofs : Nat} {bytes : List UInt8} (hh : h.Holds ofs bytes) :
    fieldBytes h ofs bytes.length = bytes := by
  apply List.ext_getElem
  · simp [fieldBytes]
  · intro i hi hi'
    simp [fieldBytes, hh i hi']

/-- A field of more bytes than are known. -/
theorem fieldBytes_of_holds {h : Memory} {ofs n : Nat} {bytes : List UInt8} (hh : h.Holds ofs bytes)
    (hn : bytes.length ≤ n) : ∃ rest, fieldBytes h ofs n = bytes ++ rest := by
  obtain ⟨k, rfl⟩ := Nat.exists_eq_add_of_le hn
  refine ⟨(List.range k).map fun i => h (ofs + (bytes.length + i)), ?_⟩
  rw [fieldBytes, List.range_add, List.map_append, ← fieldBytes, fieldBytes_eq hh, List.map_map]
  rfl

theorem fieldString_eq {h : Memory} {ofs n : Nat} {s : List UInt8} (hh : h.Holds ofs (s ++ [0]))
    (hn : s.length < n) (hs : 0 ∉ s) : fieldString h ofs n = s := by
  obtain ⟨rest, hrest⟩ := fieldBytes_of_holds hh (n := n) (by simp; omega)
  rw [fieldString, hrest, List.append_assoc, List.takeWhile_append_of_pos]
  · simp
  · intro c hc
    have : c ≠ 0 := fun h0 => hs (h0 ▸ hc)
    simpa using this

/-- What a header says, apart from its checksum. -/
structure Describes (h : Memory) (fileName : List UInt8) (type : UstarType) (size : Nat) : Prop where
  name : h.Holds nameOfs (fileName ++ [0])
  nameEnd : h (nameOfs + 99) = 0
  size : h.Holds sizeOfs (octalText 11 size ++ [0])
  typeflag : h.Holds typeflagOfs [type.byte]
  magic : h.Holds magicOfs (asciiBytes "ustar" ++ [0])
  version : h.Holds versionOfs [ascii '0', ascii '0']
  noPrefix : h prefixOfs = 0

/-- A checksum in its field changes nothing else. -/
theorem Describes.store_chksum {h : Memory} {fileName : List UInt8} {type : UstarType} {size : Nat}
    (hd : Describes h fileName type size) (hname : fileName.length ≤ 99) (hsize : size < 8 ^ 11)
    {text : List UInt8} (htext : text.length = 8) :
    Describes (h.store chksumOfs text) fileName type size := by
  have hlen := length_octalText hsize
  have hmagic : (asciiBytes "ustar").length = 5 := by decide +kernel
  refine ⟨hd.name.store ?_, ?_, hd.size.store ?_, hd.typeflag.store ?_, hd.magic.store ?_,
    hd.version.store ?_, ?_⟩
  all_goals simp only [nameOfs, sizeOfs, typeflagOfs, magicOfs, versionOfs, prefixOfs, chksumOfs,
    List.length_append, List.length_cons, List.length_nil, hlen, htext,
    hmagic]
  · omega
  · rw [Memory.store_apply, if_neg (by omega)]
    exact hd.nameEnd
  · omega
  · omega
  · omega
  · omega
  · rw [Memory.store_apply, if_neg (by omega)]
    exact hd.noPrefix

/-- The checksum does not depend on its own field. -/
theorem calculateChksum_store (h : Memory) {text : List UInt8} (htext : text.length = 8) :
    calculateChksum (h.store chksumOfs text) = calculateChksum h := by
  rw [calculateChksum, calculateChksum]
  refine congrArg List.sum (List.map_congr_left fun i _ => ?_)
  split
  · rfl
  · next hout =>
    rw [Memory.store_apply, htext, if_neg hout]

theorem calculateChksum_lt (h : Memory) : calculateChksum h < 8 ^ 7 := by
  have hbound : calculateChksum h ≤ ((List.range ustarHeaderSize).map fun _ => 255).sum := by
    apply List.sum_le_sum
    intro i _
    split
    · decide
    · have := (h i).toNat_lt
      omega
  rw [List.map_const', List.sum_replicate, List.length_range] at hbound
  exact lt_of_le_of_lt hbound (by decide)

/-- The fields that `ustar_make_header` fills in, in this order. -/
def headerWrites (fileName : List UInt8) (type : UstarType) (size : Nat) :
    List (Nat × List UInt8) :=
  [(nameOfs, fileName ++ [0]),
    (modeOfs, octalText 7 (if type = .regular then 0o644 else 0o755) ++ [0]),
    (uidOfs, asciiBytes "0000000" ++ [0]), (gidOfs, asciiBytes "0000000" ++ [0]),
    (sizeOfs, octalText 11 size ++ [0]), (mtimeOfs, octalText 11 1136102400 ++ [0]),
    (typeflagOfs, [type.byte]), (magicOfs, asciiBytes "ustar" ++ [0]),
    (versionOfs, [ascii '0', ascii '0']), (gnameOfs, asciiBytes "root" ++ [0]),
    (unameOfs, asciiBytes "root" ++ [0])]

theorem fillHeader_eq {fileName : List UInt8} (type : UstarType) {size : Nat} (header : Memory)
    (hlen : fileName.length ≤ 99) (hsize : size < 2 ^ 31) :
    fillHeader fileName type size header = some ((header.store 0
      (List.replicate ustarHeaderSize 0)).storeAll (headerWrites fileName type size)) := by
  have hmode : vsnprintf 8 (asciiBytes "%07o")
      [.integer (if type = .regular then 0o644 else 0o755)]
        = some (octalText 7 (if type = .regular then 0o644 else 0o755) ++ [0], 7) := by
    split <;> exact vsnprintf_octal (.inl ⟨rfl, rfl⟩) (by decide) (by decide)
  have hsizeText : vsnprintf 12 (asciiBytes "%011o") [.integer size]
      = some (octalText 11 size ++ [0], 11) :=
    vsnprintf_octal (.inr ⟨rfl, rfl⟩) (by omega) (by omega)
  have hmtime : vsnprintf 12 (asciiBytes "%011o") [.integer 1136102400]
      = some (octalText 11 1136102400 ++ [0], 11) :=
    vsnprintf_octal (.inr ⟨rfl, rfl⟩) (by decide) (by decide)
  have hname : strlcpy fileName 100 = fileName ++ [0] := strlcpy_fits (by omega)
  have hid : strlcpy (asciiBytes "0000000") 8 = asciiBytes "0000000" ++ [0] :=
    strlcpy_fits (by decide +kernel)
  have hmagic : strlcpy (asciiBytes "ustar") 6 = asciiBytes "ustar" ++ [0] :=
    strlcpy_fits (by decide +kernel)
  have hroot : strlcpy (asciiBytes "root") 32 = asciiBytes "root" ++ [0] :=
    strlcpy_fits (by decide +kernel)
  simp only [fillHeader, hmode, hsizeText, hmtime, hname, hid, hmagic, hroot, Option.bind_eq_bind,
    Option.bind_some, Option.pure_def]
  rfl

/-- Where the fields begin and end. -/
theorem headerWrites_extents (fileName : List UInt8) (type : UstarType) {size : Nat}
    (hsize : size < 2 ^ 31) :
    (headerWrites fileName type size).map (fun w => (w.1, w.1 + w.2.length)) =
      [(0, fileName.length + 1), (100, 108), (108, 116), (116, 124), (124, 136), (136, 148),
        (156, 157), (257, 263), (263, 265), (297, 302), (265, 270)] := by
  have hmode : (octalText 7 (if type = .regular then 0o644 else 0o755)).length = 7 :=
    length_octalText (by split <;> decide)
  have hsizeText : (octalText 11 size).length = 11 := length_octalText (by omega)
  have hmtime : (octalText 11 1136102400).length = 11 := length_octalText (by decide)
  have hid : (asciiBytes "0000000").length = 7 := by decide +kernel
  have hmagic : (asciiBytes "ustar").length = 5 := by decide +kernel
  have hroot : (asciiBytes "root").length = 4 := by decide +kernel
  simp [headerWrites, hmode, hsizeText, hmtime, hid, hmagic, hroot, nameOfs, modeOfs, uidOfs,
    gidOfs, sizeOfs, mtimeOfs, typeflagOfs, magicOfs, versionOfs, gnameOfs, unameOfs]

theorem headerWrites_apart {fileName : List UInt8} (type : UstarType) {size : Nat}
    (hlen : fileName.length ≤ 99) (hsize : size < 2 ^ 31) :
    (headerWrites fileName type size).Pairwise Memory.Apart := by
  have hextents : ((headerWrites fileName type size).map
      (fun w => (w.1, w.1 + w.2.length))).Pairwise (fun e e' => e.2 ≤ e'.1 ∨ e'.2 ≤ e.1) := by
    rw [headerWrites_extents fileName type hsize]
    simp
    omega
  have hwrites := List.pairwise_map.mp hextents
  exact hwrites.imp id

/-- What holds of all extents holds of the writes. -/
theorem headerWrites_forall {fileName : List UInt8} {type : UstarType} {size : Nat}
    (hsize : size < 2 ^ 31) {p : Nat × Nat → Prop}
    (h : ∀ e ∈ [(0, fileName.length + 1), (100, 108), (108, 116), (116, 124), (124, 136),
      (136, 148), (156, 157), (257, 263), (263, 265), (297, 302), (265, 270)], p e) :
    ∀ w ∈ headerWrites fileName type size, p (w.1, w.1 + w.2.length) := by
  intro w hw
  rw [← headerWrites_extents fileName type hsize] at h
  exact h _ (List.mem_map_of_mem hw)

/-- A byte that only `memset` writes. -/
theorem cleared_storeAll {header : Memory} {writes : List (Nat × List UInt8)} {i : Nat}
    (hi : i < ustarHeaderSize) (hapart : ∀ w ∈ writes, Memory.Apart (i, [0]) w) :
    ((header.store 0 (List.replicate ustarHeaderSize 0)).storeAll writes) i = 0 := by
  have hzero : (header.store 0 (List.replicate ustarHeaderSize 0)).Holds i [0] := by
    rw [Memory.holds_singleton, Memory.store_apply, List.length_replicate, if_pos (by omega)]
    simp [hi]
  exact Memory.holds_singleton.mp (hzero.storeAll hapart)

theorem fillHeader_describes {fileName : List UInt8} (type : UstarType) {size : Nat}
    (header : Memory) (hlen : fileName.length ≤ 99) (hsize : size < 2 ^ 31) :
    ∃ h, fillHeader fileName type size header = some h ∧ Describes h fileName type size := by
  have hapart := headerWrites_apart type hlen hsize
  have hname : ((header.store 0 (List.replicate ustarHeaderSize 0)).storeAll
      (headerWrites fileName type size)).Holds nameOfs (fileName ++ [0]) :=
    Memory.holds_storeAll _ hapart (by simp [headerWrites])
  refine ⟨_, fillHeader_eq type header hlen hsize, hname, ?_,
    Memory.holds_storeAll _ hapart (by simp [headerWrites]),
    Memory.holds_storeAll _ hapart (by simp [headerWrites]),
    Memory.holds_storeAll _ hapart (by simp [headerWrites]),
    Memory.holds_storeAll _ hapart (by simp [headerWrites]), ?_⟩
  · by_cases hfull : fileName.length = 99
    · have hend := hname 99 (by simp [hfull])
      simpa [hfull] using hend
    · refine cleared_storeAll (by decide) (headerWrites_forall hsize
        (p := fun e => nameOfs + 99 + 1 ≤ e.1 ∨ e.2 ≤ nameOfs + 99) ?_)
      simp [nameOfs]
      omega
  · refine cleared_storeAll (by decide) (headerWrites_forall hsize
      (p := fun e => prefixOfs + 1 ≤ e.1 ∨ e.2 ≤ prefixOfs) ?_)
    simp [prefixOfs]
    omega

/-- Nothing is written behind the header. -/
theorem fillHeader_behind {fileName : List UInt8} {type : UstarType} {size : Nat}
    {header h : Memory} (hlen : fileName.length ≤ 99) (hsize : size < 2 ^ 31)
    (hfill : fillHeader fileName type size header = some h) {i : Nat} (hi : 512 ≤ i) :
    h i = header i := by
  rw [fillHeader_eq type header hlen hsize, Option.some.injEq] at hfill
  subst hfill
  have hbase : (header.store 0 (List.replicate ustarHeaderSize 0)).Holds i [header i] := by
    rw [Memory.holds_singleton, Memory.store_apply, if_neg]
    rw [List.length_replicate, ustarHeaderSize]
    omega
  refine Memory.holds_singleton.mp (hbase.storeAll ?_)
  refine headerWrites_forall hsize (p := fun e => i + 1 ≤ e.1 ∨ e.2 ≤ i) ?_
  simp
  omega

/-- What `ustar_make_header` makes of a short name. -/
theorem make_describes {fileName stripped : List UInt8} {type : UstarType} {size : Nat}
    (header : Memory) (htype : type ≠ .eof)
    (hstrip : stripAntisocialPrefixes fileName = some stripped) (hlen : stripped.length ≤ 99)
    (hsize : size < 2 ^ 31) :
    ∃ h, ustarMakeHeader fileName type size header = some (true, h) ∧
      Describes h stripped type size ∧
      h.Holds chksumOfs (octalText 7 (calculateChksum h) ++ [0]) ∧
      ∀ i, 512 ≤ i → h i = header i := by
  obtain ⟨h, hfill, hd⟩ := fillHeader_describes type header hlen hsize
  have hlt := calculateChksum_lt h
  have hchksum : vsnprintf 8 (asciiBytes "%07o") [.integer (calculateChksum h)]
      = some (octalText 7 (calculateChksum h) ++ [0], 7) :=
    vsnprintf_octal (.inl ⟨rfl, rfl⟩) hlt (hlt.trans (by decide))
  have htext : (octalText 7 (calculateChksum h) ++ [0]).length = 8 := by
    rw [List.length_append, length_octalText hlt]
    rfl
  refine ⟨h.store chksumOfs (octalText 7 (calculateChksum h) ++ [0]), ?_, ?_, ?_, fun i hi => ?_⟩
  · simp only [ustarMakeHeader, if_neg htype, hstrip, Option.bind_eq_bind, Option.bind_some,
      if_neg (Nat.not_lt.mpr hlen), hfill, hchksum, Option.pure_def]
  · exact hd.store_chksum hlen (by omega) htext
  · rw [calculateChksum_store h htext]
    exact Memory.holds_store _ _ _
  · rw [Memory.store_apply, htext, if_neg (by rw [chksumOfs]; omega)]
    exact fillHeader_behind hlen hsize hfill hi

/-- What `ustar_parse_header` makes of a header. -/
theorem parse_of_describes {h : Memory} {fileName : List UInt8} {type : UstarType} {size : Nat}
    (hd : Describes h fileName type size)
    (hsum : h.Holds chksumOfs (octalText 7 (calculateChksum h) ++ [0])) (htype : type ≠ .eof)
    (hname : Stripped fileName) (hnull : 0 ∉ fileName) (hlen : fileName.length ≤ 99)
    (hsize : size < 2 ^ 31) :
    ustarParseHeader h =
      some (.ok (some fileName, type, if type = .regular then (size : Int) else 0)) := by
  have hsize11 : size < 8 ^ 11 := by omega
  have hzero : isAllZeros h ustarHeaderSize = false := by
    rw [isAllZeros, List.all_eq_false]
    refine ⟨versionOfs, List.mem_range.mpr (by decide), ?_⟩
    rw [show h versionOfs = ascii '0' from hd.version 0 (by decide)]
    decide
  have hmagic : fieldBytes h magicOfs 6 = asciiBytes "ustar" ++ [0] := by
    have hlength : (asciiBytes "ustar" ++ [0]).length = 6 := by decide +kernel
    rw [← hlength, fieldBytes_eq hd.magic]
  have hversion : h versionOfs = ascii '0' ∧ h (versionOfs + 1) = ascii '0' :=
    ⟨hd.version 0 (by decide), hd.version 1 (by decide)⟩
  have hchksum : parseOctalField (fieldBytes h chksumOfs 8) = some (calculateChksum h) := by
    have hlt := calculateChksum_lt h
    have hlength : (octalText 7 (calculateChksum h) ++ [0]).length = 8 := by
      rw [List.length_append, length_octalText hlt]
      rfl
    rw [← hlength, fieldBytes_eq hsum, parseOctalField_octalText (by decide) hlt (by omega)]
  have hfield : parseOctalField (fieldBytes h sizeOfs 12) = some size := by
    have hlength : (octalText 11 size ++ [0]).length = 12 := by
      rw [List.length_append, length_octalText hsize11]
      rfl
    rw [← hlength, fieldBytes_eq hd.size, parseOctalField_octalText (by decide) hsize11 (by omega)]
  have hstring : fieldString h nameOfs 100 = fileName := fieldString_eq hd.name (by omega) hnull
  have htypeflag : h typeflagOfs = type.byte := hd.typeflag 0 (by simp)
  rw [ustarParseHeader, hzero, hmagic, hchksum, hfield, hstring, hname.strip, hversion.1,
    hversion.2, hd.nameEnd, hd.noPrefix, htypeflag]
  cases type with
  | eof => exact absurd rfl htype
  | regular =>
    simp
    omega
  | directory =>
    have hother : UstarType.directory.byte ≠ UstarType.regular.byte := by decide
    simp [hother]

/-- The parser reads the bytes of the header and no others. -/
theorem ustarParseHeader_congr {h h' : Memory} (hsame : ∀ i < ustarHeaderSize, h' i = h i) :
    ustarParseHeader h' = ustarParseHeader h := by
  have hfield : ∀ ofs n, ofs + n ≤ ustarHeaderSize → fieldBytes h' ofs n = fieldBytes h ofs n := by
    intro ofs n hn
    refine List.map_congr_left fun i hi => hsame _ ?_
    have := List.mem_range.mp hi
    omega
  have hzeros : isAllZeros h' ustarHeaderSize = isAllZeros h ustarHeaderSize := by
    rw [Bool.eq_iff_iff, isAllZeros, isAllZeros, List.all_eq_true, List.all_eq_true]
    refine forall₂_congr fun i hi => ?_
    rw [hsame i (List.mem_range.mp hi)]
  have hchksum : calculateChksum h' = calculateChksum h := by
    refine congrArg List.sum (List.map_congr_left fun i hi => ?_)
    rw [hsame i (List.mem_range.mp hi)]
  have hstring : fieldString h' nameOfs 100 = fieldString h nameOfs 100 := by
    rw [fieldString, hfield _ _ (by decide), fieldString]
  rw [ustarParseHeader, ustarParseHeader, hzeros, hfield magicOfs 6 (by decide),
    hsame versionOfs (by decide), hsame (versionOfs + 1) (by decide),
    hfield chksumOfs 8 (by decide), hchksum, hsame (nameOfs + 99) (by decide),
    hsame prefixOfs (by decide), hsame typeflagOfs (by decide), hfield sizeOfs 12 (by decide),
    hstring]

/-- A header that is made parses to the stripped name, the type and the size of a file, and one is
made unless the stripped name is too long; stripping ends at a name that it leaves alone and that
does not lead out of the directory. -/
theorem ustar_round_trip (fileName : CString) (type : UstarType) (size : Int) (header : Memory)
    (htype : type = .regular ∨ type = .directory) (hsize : 0 ≤ size ∧ size ≤ 2 ^ 31 - 1) :
    ∃ stripped, stripAntisocialPrefixes fileName.bytes = some stripped ∧
      stripAntisocialPrefixes stripped = some stripped ∧
      ¬ asciiBytes "/" <+: stripped ∧ ¬ asciiBytes "./" <+: stripped ∧
      ¬ asciiBytes "../" <+: stripped ∧ stripped ≠ [] ∧ stripped ≠ asciiBytes ".." ∧
      ∃ made h, ustarMakeHeader fileName.bytes type size header = some (made, h) ∧
        (made = false ↔ 99 < stripped.length) ∧
        (made = true → ustarParseHeader h =
          some (.ok (some stripped, type, if type = .regular then size else 0))) := by
  obtain ⟨stripped, hstrip, hs, hnull⟩ := strip_spec fileName.bytes
  have htype' : type ≠ .eof := by
    rcases htype with rfl | rfl <;> decide
  obtain ⟨hslash, hdot, hparent⟩ := not_antisocial hs.clean
  refine ⟨stripped, hstrip, hs.strip, hslash, hdot, hparent, hs.nonempty, hs.notParent, ?_⟩
  obtain ⟨n, rfl⟩ := Int.eq_ofNat_of_zero_le hsize.1
  by_cases hlong : 99 < stripped.length
  · refine ⟨false, header, ?_, by simp [hlong], by simp⟩
    simp only [ustarMakeHeader, if_neg htype', hstrip, Option.bind_eq_bind, Option.bind_some,
      if_pos hlong, Option.pure_def]
  · have hshort : stripped.length ≤ 99 := by omega
    have hn : n < 2 ^ 31 := by omega
    obtain ⟨h, hmake, hd, hsum, -⟩ := make_describes header htype' hstrip hshort hn
    refine ⟨true, h, hmake, by simp [hshort], fun _ => ?_⟩
    exact parse_of_describes hd hsum htype' hs (hnull fileName.noNull) hshort hn

theorem ustar_round_trip_readme :
    ∃ stripped, stripAntisocialPrefixes (asciiBytes "../doc") = some stripped ∧
      stripAntisocialPrefixes stripped = some stripped ∧
      ¬ asciiBytes "/" <+: stripped ∧ ¬ asciiBytes "./" <+: stripped ∧
      ¬ asciiBytes "../" <+: stripped ∧ stripped ≠ [] ∧ stripped ≠ asciiBytes ".." ∧
      ∃ made h, ustarMakeHeader (asciiBytes "../doc") .regular 3000 (fun _ => 7) = some (made, h) ∧
        (made = false ↔ 99 < stripped.length) ∧
        (made = true → ustarParseHeader h =
          some (.ok (some stripped, .regular,
            if UstarType.regular = .regular then 3000 else 0))) :=
  ustar_round_trip ⟨asciiBytes "../doc", by decide +kernel⟩ .regular 3000 (fun _ => 7) (.inl rfl)
    (by decide)

end Pintos
