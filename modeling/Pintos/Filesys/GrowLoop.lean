import Pintos.Filesys.IndexRelease
import Pintos.Library.Weakest

/-! Which growth the disk has room for.  `free_map_allocate` takes the unused sectors in order, and one
of them is taken for a failure when it is `SECTOR_ERROR`, so what counts is how many come before that.
The loop of `inode_grow` gets through a list of places exactly if these are as many as the slots that
are empty. -/

namespace Pintos

open Routine (Runs Meets)

namespace Bitmap

/-- The unused sectors, in the order in which they are handed out. -/
def unused (b : Bitmap) : List Nat := (List.range b.bitCnt).filter fun i => !b.bits i

/-- How many sectors are handed out before an allocation fails. -/
def room (b : Bitmap) : Nat := (b.unused.takeWhile fun i => i ≠ sectorError).length

theorem scan_eq_head (b : Bitmap) : b.scan 0 1 false = b.unused.head? := by
  have hpred : (fun i => decide (0 ≤ i) && !b.contains i 1 !false) = fun i => !b.bits i := by
    funext i
    simp [contains]
  rw [scan, hpred, unused, List.head?_filter]
  by_cases hcnt : 1 ≤ b.bitCnt
  · rw [if_pos hcnt, Nat.sub_add_cancel hcnt]
  · rw [if_neg hcnt, show b.bitCnt = 0 by omega]
    rfl

/-- One sector less after an allocation. -/
theorem unused_afterAllocate (b : Bitmap) : b.afterAllocate.unused = b.unused.tail := by
  rw [afterAllocate, scanAndFlip, scan_eq_head]
  cases hunused : b.unused with
  | nil => exact hunused
  | cons i rest =>
    have hnodup : (i :: rest).Nodup := by
      rw [← hunused]
      exact List.nodup_range.filter _
    have hbits : (fun x => !(b.setMultiple i 1 true).bits x) = fun x => decide (x ≠ i) && !b.bits x := by
      funext x
      rw [setMultiple]
      dsimp only
      by_cases hx : x = i
      · rw [if_pos (by omega)]
        simp [hx]
      · rw [if_neg (by omega)]
        simp [hx]
    change (List.range b.bitCnt).filter (fun x => !(b.setMultiple i 1 true).bits x) = rest
    rw [hbits, ← List.filter_filter, ← unused, hunused, List.filter_cons_of_neg (by simp)]
    refine List.filter_eq_self.mpr fun x hx => decide_eq_true ?_
    rintro rfl
    exact (List.nodup_cons.mp hnodup).1 hx

theorem gives_iff_head (b : Bitmap) : b.Gives ↔ ∃ i rest, b.unused = i :: rest ∧ i ≠ sectorError := by
  rw [Gives, scan_eq_head]
  cases b.unused with
  | nil => exact iff_of_false (by rintro ⟨_, ⟨⟩, _⟩) (by rintro ⟨_, _, ⟨⟩, _⟩)
  | cons i rest =>
    constructor
    · rintro ⟨_, h, hne⟩
      cases h
      exact ⟨i, rest, rfl, hne⟩
    · rintro ⟨_, _, h, hne⟩
      cases h
      exact ⟨i, rfl, hne⟩

theorem room_of_not_gives {b : Bitmap} (h : ¬ b.Gives) : b.room = 0 := by
  rw [gives_iff_head] at h
  rw [room]
  cases hunused : b.unused with
  | nil => rfl
  | cons i rest =>
    rw [List.takeWhile_cons_of_neg]
    · rfl
    · intro hne
      exact h ⟨i, rest, hunused, of_decide_eq_true hne⟩

theorem room_of_gives {b : Bitmap} (h : b.Gives) : b.room = b.afterAllocate.room + 1 := by
  obtain ⟨i, rest, hunused, hne⟩ := (gives_iff_head b).mp h
  rw [room, room, unused_afterAllocate, hunused, List.takeWhile_cons_of_pos (by simpa using hne)]
  rfl

end Bitmap

variable {calls : FreeMapCalls} {live : Set Nat} {d d' : FlatFs} {t j : Nat} {a : Slot}
  {W : Finset Slot}

/-! ### One lookup -/

/-- What filling a slot costs. -/
theorem Stores.room (h : Stores Scans t a d d') (hempty : slotOf d.cur t a = sectorError)
    (haW : a ∈ W) (hW : ∀ c ∈ W, c.Valid) :
    (slotOf d'.cur t a ≠ sectorError →
      d'.freeMap.room + d.missing t W = d.freeMap.room + d'.missing t W) ∧
    (slotOf d'.cur t a = sectorError → d.freeMap.room < d.missing t W) := by
  constructor
  · intro hsome
    have hroom := Bitmap.room_of_gives (h.gives_iff.mpr hsome)
    have hmissing := FlatFs.missing_of_fill (b := slotOf d'.cur t a) haW hempty fun c hc => by
      by_cases hca : c = a
      · rw [if_pos hca, hca]
      · rw [if_neg hca, h.others c (hW c hc) hca]
    rw [if_neg hsome] at hmissing
    rw [h.freeMap]
    omega
  · intro hnone
    rw [Bitmap.room_of_not_gives fun hgives => h.gives_iff.mp hgives hnone]
    exact Finset.card_pos.mpr ⟨a, Finset.mem_filter.mpr ⟨haW, hempty⟩⟩

theorem Checked.room (h : Checked Scans true t a d d') (haW : a ∈ W) (hW : ∀ c ∈ W, c.Valid) :
    (slotOf d'.cur t a ≠ sectorError →
      d'.freeMap.room + d.missing t W = d.freeMap.room + d'.missing t W) ∧
    (slotOf d'.cur t a = sectorError → d.freeMap.room < d.missing t W) := by
  rcases h.cases with ⟨-, hempty, hstores⟩ | ⟨hold, rfl⟩
  · exact hstores.room hempty haW hW
  · exact ⟨fun _ => rfl, fun hnone => absurd ⟨rfl, hnone⟩ hold⟩

theorem Recounts.missing {x m n : Nat} (h : Recounts x m n d d') : d'.missing t W = d.missing t W := by
  rw [FlatFs.missing, h.cur]
  rfl

/-- What a lookup that allocates costs. -/
theorem Walk.room (h : Walk Scans true t j d d') (hdata : .data j ∈ W)
    (hindex : 10 < j → .index (mainIdx j) ∈ W) (hW : ∀ c ∈ W, c.Valid) :
    (slotOf d'.cur t (.data j) ≠ sectorError →
      d'.freeMap.room + d.missing t W = d.freeMap.room + d'.missing t W) ∧
    (slotOf d'.cur t (.data j) = sectorError → d.freeMap.room < d.missing t W) := by
  cases h with
  | direct hj h => exact h.room hdata hW
  | noIndex hj h hnone =>
    exact ⟨fun hsome => absurd (slotOf_no_index hj hnone) hsome,
      fun _ => (h.room (hindex hj) hW).2 hnone⟩
  | @stops d1 d2 d' n hj h hsome hopen h' hkept hnone =>
    refine ⟨fun hfound => absurd hnone hfound, fun _ => ?_⟩
    have h1 := (h.room (hindex hj) hW).1 hsome
    have h2 := (h'.room hdata hW).2 hnone
    rw [hopen.missing, hopen.freeMap] at h2
    omega
  | @releases d1 d2 d3 d' n hj h hsome hopen h' hfound hclose =>
    have h1 := (h.room (hindex hj) hW).1 hsome
    have h2 := (h'.room hdata hW).1 hfound
    rw [hopen.missing, hopen.freeMap] at h2
    rw [hclose.missing, hclose.freeMap, hclose.cur]
    exact ⟨fun _ => by omega, fun hnone => absurd hnone hfound⟩

/-! ### The loop -/

/-- The slots that a growth to the places needs. -/
def growSlots (js : List Nat) : Finset Slot :=
  (js.map Slot.data ++ (js.filter fun j => 10 < j).map fun j => Slot.index (mainIdx j)).toFinset

theorem mem_growSlots {js : List Nat} {c : Slot} :
    c ∈ growSlots js ↔ ∃ j ∈ js, c = .data j ∨ 10 < j ∧ c = .index (mainIdx j) := by
  rw [growSlots, List.mem_toFinset, List.mem_append, List.mem_map, List.mem_map]
  constructor
  · rintro (⟨j, hj, rfl⟩ | ⟨j, hj, rfl⟩)
    · exact ⟨j, hj, .inl rfl⟩
    · obtain ⟨hmem, hlt⟩ := List.mem_filter.mp hj
      exact ⟨j, hmem, .inr ⟨of_decide_eq_true hlt, rfl⟩⟩
  · rintro ⟨j, hj, rfl | ⟨hlt, rfl⟩⟩
    · exact .inl ⟨j, hj, rfl⟩
    · exact .inr ⟨j, List.mem_filter.mpr ⟨hj, decide_eq_true hlt⟩, rfl⟩

theorem growSlots_valid {js : List Nat} (hjs : ∀ j ∈ js, j ≤ 4170) : ∀ c ∈ growSlots js, c.Valid := by
  intro c hc
  obtain ⟨j, hj, rfl | ⟨hlt, rfl⟩⟩ := mem_growSlots.mp hc
  · exact hjs j hj
  · exact index_valid hlt (hjs j hj)

/-- The places of the loop, one after another, where all slots are among `W`. -/
theorem runs_inodeGrowLoop_among (depth : Nat) (hd : d.Good live) (ht : t ∈ live)
    (hloaded : d.Loaded t) {js : List Nat} (hjs : ∀ j ∈ js, j ≤ 4170)
    (hin : ∀ c ∈ growSlots js, c ∈ W) (hW : ∀ c ∈ W, c.Valid) :
    ∃ b d', Runs Shows (inodeGrowLoop (freeMapCalls (depth + 1)) t js) d b d' ∧ d'.Good live ∧
      Grows live t W d d' ∧
      (b = true → (∀ j ∈ js, slotOf d'.cur t (.data j) ≠ sectorError) ∧
        d'.freeMap.room + d.missing t W = d.freeMap.room + d'.missing t W) ∧
      (b = false → d.freeMap.room < d.missing t W) := by
  induction js generalizing d with
  | nil => exact ⟨true, d, Runs.pure, hd, Grows.refl, fun _ => ⟨nofun, rfl⟩, nofun⟩
  | cons j js ih =>
    have hj := hjs j List.mem_cons_self
    have hdata : .data j ∈ W := hin _ (mem_growSlots.mpr ⟨j, List.mem_cons_self, .inl rfl⟩)
    have hindex : 10 < j → .index (mainIdx j) ∈ W := fun hlt =>
      hin _ (mem_growSlots.mpr ⟨j, List.mem_cons_self, .inr ⟨hlt, rfl⟩⟩)
    have hpos : sectorsToBytes j = 512 * j := by
      rw [sectorsToBytes, toOff_of_lt] <;> unfold blockSectorSize <;> omega
    obtain ⟨d1, hrun, hadv, -, hwalk⟩ := runs_inodePosToRealSector (freeMapCalls_allocates depth live)
      hd ht hloaded (show 0 ≤ sectorsToBytes j by omega) (j := j) (by omega) hj
      (fun _ : true = true => ⟨hdata, hindex⟩) hW
    obtain ⟨hfound, hlost⟩ := Walk.room hwalk hdata hindex hW
    by_cases hnone : slotOf d1.cur t (.data j) = sectorError
    · refine ⟨false, d1, hrun.bind ?_, hadv.good, hadv.grows, nofun, fun _ => hlost hnone⟩
      rw [if_pos hnone]
      exact Runs.pure
    · have hin' : ∀ c ∈ growSlots js, c ∈ W := by
        intro c hc
        obtain ⟨i, hi, hc⟩ := mem_growSlots.mp hc
        exact hin c (mem_growSlots.mpr ⟨i, List.mem_cons_of_mem _ hi, hc⟩)
      obtain ⟨b, d', hrest, hgood, hgrows, htrue, hfalse⟩ := ih hadv.good
        (hadv.grows.loaded t ht hloaded) (fun i hi => hjs i (List.mem_cons_of_mem _ hi)) hin'
      have hroom := hfound hnone
      refine ⟨b, d', hrun.bind ?_, hgood, hadv.grows.trans ht hgrows, fun hb => ?_, fun hb => ?_⟩
      · rw [if_neg hnone]
        exact hrest
      · obtain ⟨hall, hroom'⟩ := htrue hb
        refine ⟨fun i hi => ?_, by omega⟩
        rcases List.mem_cons.mp hi with rfl | hi
        · rw [hgrows.kept t ht (.data i) hj hnone]
          exact hnone
        · exact hall i hi
      · have := hfalse hb
        omega

/-- The loop gets through exactly if there are as many sectors as slots are empty. -/
theorem runs_inodeGrowLoop (depth : Nat) (hd : d.Good live) (ht : t ∈ live)
    (hloaded : d.Loaded t) {js : List Nat} (hjs : ∀ j ∈ js, j ≤ 4170) :
    ∃ d', Runs Shows (inodeGrowLoop (freeMapCalls (depth + 1)) t js) d
        (decide (d.missing t (growSlots js) ≤ d.freeMap.room)) d' ∧ d'.Good live ∧
      Grows live t (growSlots js) d d' ∧
      (d.missing t (growSlots js) ≤ d.freeMap.room →
        ∀ j ∈ js, slotOf d'.cur t (.data j) ≠ sectorError) := by
  obtain ⟨b, d', hrun, hgood, hgrows, htrue, hfalse⟩ := runs_inodeGrowLoop_among depth hd ht hloaded
    hjs (fun _ hc => hc) (growSlots_valid hjs)
  cases b with
  | false =>
    have hlt := hfalse rfl
    refine ⟨d', ?_, hgood, hgrows, fun hle => absurd hle (Nat.not_le.mpr hlt)⟩
    rwa [decide_eq_false (Nat.not_le.mpr hlt)]
  | true =>
    obtain ⟨hall, hroom⟩ := htrue rfl
    have hfilled : d'.missing t (growSlots js) = 0 := by
      rw [FlatFs.missing, Finset.card_eq_zero, Finset.filter_eq_empty_iff]
      intro c hc hnone
      obtain ⟨j, hj, rfl | ⟨hlt, rfl⟩⟩ := mem_growSlots.mp hc
      · exact hall j hj hnone
      · exact hall j hj (slotOf_no_index hlt hnone)
    refine ⟨d', ?_, hgood, hgrows, fun _ => hall⟩
    rwa [decide_eq_true (by omega)]

/-! ### Places -/

/-- How many sectors `n` bytes take. -/
def sectorCnt (n : Nat) : Nat := (n + 511) / 512

theorem bytesToSectors_natCast {n : Nat} (h : n < 2 ^ 31) : bytesToSectors n = sectorCnt n := by
  unfold bytesToSectors sectorCnt toWord blockSectorSize
  rw [Int.tdiv_eq_ediv_of_nonneg (by omega)]
  omega

theorem roundUpToSectorBoundary_natCast {n : Nat} (h : sectorCnt n < 2 ^ 22) :
    roundUpToSectorBoundary n = (512 * sectorCnt n : Nat) := by
  have hn : n < 2 ^ 31 := by
    unfold sectorCnt at h
    omega
  rw [roundUpToSectorBoundary, bytesToSectors_natCast hn, sectorsToBytes, toOff_of_lt] <;>
    unfold blockSectorSize <;> omega

/-- The first place at which `inode_grow` looks for a sector. -/
def firstPlace (length : Nat) : Nat := max 1 (sectorCnt length)

/-- The places at which `inode_grow` looks for sectors in an inode of the given length that is to reach
`upTo`. -/
def growPlaces (length upTo : Nat) : List Nat :=
  List.range' (firstPlace length) (sectorCnt upTo - sectorCnt length)

theorem growPlaces_eq (start : Nat) {length upTo : Nat} (hlength : length < 2 ^ 31)
    (hupTo : upTo < 2 ^ 31) (hmore : 512 * sectorCnt length < upTo) :
    (List.range (bytesToSectors ((upTo : Int) - (512 * sectorCnt length : Nat)))).map (fun i =>
      toWord ((if (length : Int) ≤ blockSectorSize then (start : Int)
        else toWord (start + bytesToSectors length - 1)) + (i + 1) - start)) =
      growPlaces length upTo := by
  have hcast : ∀ n : Nat, (do let i ← List.range n; pure (i : Int)) = (List.range n).map Int.ofNat := by
    intro n
    exact List.flatMap_pure_eq_map ..
  rw [← Int.ofNat_sub (Nat.le_of_lt hmore), bytesToSectors_natCast hlength,
    bytesToSectors_natCast (n := upTo - 512 * sectorCnt length) (by omega), hcast, List.map_map,
    growPlaces, List.range'_eq_map_range,
    show sectorCnt (upTo - 512 * sectorCnt length) = sectorCnt upTo - sectorCnt length by
      unfold sectorCnt at *
      omega]
  refine List.map_congr_left fun i hi => ?_
  have hi := List.mem_range.mp hi
  rw [Function.comp_apply, Int.ofNat_eq_natCast]
  unfold firstPlace sectorCnt toWord blockSectorSize at *
  split_ifs <;> omega

/-! ### The length -/

/-- The state in which inode `t` has the length `n`. -/
def FlatFs.setLength (d : FlatFs) (t n : Nat) : FlatFs :=
  d.setCur t (InodeDisk.setLength (d.cur t) n)

section SetLength

variable {u n : Nat}

theorem FlatFs.setLength_cur_self (d : FlatFs) (t n : Nat) :
    (d.setLength t n).cur t = InodeDisk.setLength (d.cur t) n := Function.update_self ..

theorem FlatFs.setLength_cur_ne (d : FlatFs) (n : Nat) (h : u ≠ t) :
    (d.setLength t n).cur u = d.cur u := Function.update_of_ne h ..

theorem FlatFs.lengthOf_setLength (d : FlatFs) (t : Nat) (hn : n < 2 ^ 31) :
    (d.setLength t n).lengthOf t = n := by
  rw [lengthOf, setLength_cur_self]
  exact InodeDisk.length_setLength _ (Int.natCast_nonneg n) (by omega)

theorem slotOf_setLength (hd : d.Good live) (ht : t ∈ live) (n : Nat) (hu : u ∈ live)
    (ha : a.Valid) : slotOf (d.setLength t n).cur u a = slotOf d.cur u a := by
  refine slotOf_congr ha (fun k => ?_) fun k hk hne i => ?_
  · by_cases hut : u = t
    · rw [hut, d.setLength_cur_self, InodeDisk.entry_setLength]
    · rw [d.setLength_cur_ne n hut]
  · rw [d.setLength_cur_ne n (hd.layout.apart t ht u hu _ hk hne)]

theorem FlatFs.Good.setLength (hd : d.Good live) (ht : t ∈ live) (hle : d.lengthOf t ≤ n)
    (hn : n < 2 ^ 31) (hfilled : ∀ j : Nat, 512 * j < n → j ≤ 4170 ∧
      slotOf d.cur t (.data j) ≠ sectorError) : (d.setLength t n).Good live := by
  have hslot : ∀ {u : Nat} {a : Slot}, u ∈ live → a.Valid →
      slotOf (d.setLength t n).cur u a = slotOf d.cur u a := fun hu ha =>
    slotOf_setLength hd ht n hu ha
  have hlayout := hd.layout
  refine ⟨⟨hlayout.inode, ?_, ?_, ?_, ?_⟩, hd.bitCnt, hd.range, hd.small, hd.openUsed, ?_, ?_, ?_, ?_⟩
  · intro u hu a ha hne
    rw [hslot hu ha] at hne ⊢
    exact hlayout.slot u hu a ha hne
  · intro u hu v hv a c ha hc heq hne
    rw [hslot hu ha] at heq hne
    rw [hslot hv hc] at heq
    exact hlayout.inj u hu v hv a c ha hc heq hne
  · intro u hu v hv a ha hne
    rw [hslot hv ha] at hne ⊢
    exact hlayout.apart u hu v hv a ha hne
  · intro u hu k hk hne
    rw [hslot hu hk] at hne ⊢
    rw [d.setLength_cur_ne n (hlayout.apart t ht u hu _ hk hne)]
    exact hlayout.flag u hu k hk hne
  · intro u hu j hj hne
    rw [hslot (a := .data j) hu hj] at hne ⊢
    exact hd.closed u hu j hj hne
  · intro u hu
    by_cases hut : u = t
    · rw [hut]
      rw [show InodeDisk.length ((d.setLength t n).cur t) = n from d.lengthOf_setLength t hn]
      refine ⟨Int.natCast_nonneg n, fun j hj => ?_⟩
      obtain ⟨hj', hne⟩ := hfilled j (by omega)
      exact ⟨hj', by rwa [hslot (a := .data j) ht hj']⟩
    · rw [d.setLength_cur_ne n hut]
      obtain ⟨h0, hall⟩ := hd.filled u hu
      refine ⟨h0, fun j hj => ?_⟩
      obtain ⟨hj', hne⟩ := hall j hj
      exact ⟨hj', by rwa [hslot (a := .data j) hu hj']⟩
  · intro u hu
    have hvalid : (Slot.data 0).Valid := Nat.zero_le _
    rw [hslot hu hvalid]
    exact hd.first u hu
  · intro f hf
    obtain ⟨hlive, hsize, hopen⟩ := hd.file f hf
    refine ⟨hlive, ?_, hopen⟩
    by_cases hft : f = t
    · subst hft
      rw [show InodeDisk.length ((d.setLength f n).cur f) = n from d.lengthOf_setLength f hn]
      exact hsize.trans hle
    · rw [d.setLength_cur_ne n hft]
      exact hsize

end SetLength

end Pintos
