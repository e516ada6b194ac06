import Pintos.Filesys.Cache

/-! What the calls of the buffer cache do to the sectors a reader sees.  `Cache.view` is the
contents of a sector: its entry's data if an entry holds it, else the device's.  `Cache.Wf` is the
invariant of the entries, and `Cache.Sees` relates the caches before and after work that changes
no contents.  One lemma for each call says what it does to the view; later proofs use these and
not the definitions. -/

namespace Pintos

/-! ### Finding an entry -/

theorem bcGetEntryBySector_some {c : Cache} {sector : Nat} {i : Fin 64}
    (h : bcGetEntryBySector c sector = some i) : (c.cache i).sector = sector := by
  simpa using List.find?_some h

theorem bcGetEntryBySector_none {c : Cache} {sector : Nat}
    (h : bcGetEntryBySector c sector = none) (i : Fin 64) : (c.cache i).sector ≠ sector := by
  simpa using List.find?_eq_none.mp h i (List.mem_finRange i)

namespace Cache

/-- The contents of `sector` that a read through the cache returns. -/
def view (c : Cache) (sector : Nat) : SectorData :=
  match bcGetEntryBySector c sector with
  | some i => (c.cache i).data
  | none => c.fsDevice.data sector

/-- At most one entry holds a given sector. -/
def Unique (c : Cache) : Prop :=
  ∀ i j, (c.cache i).sector ≠ emptySector → (c.cache i).sector = (c.cache j).sector → i = j

/-- Entry `i` is empty, or holds a sector of the device, with the device's bytes when it is
clean; no thread is copying from it. -/
structure EntryWf (c : Cache) (i : Fin 64) : Prop where
  inRange : (c.cache i).sector ≠ emptySector → (c.cache i).sector < c.fsDevice.size
  clean : (c.cache i).sector ≠ emptySector → (c.cache i).isDirty = false →
    (c.cache i).data = c.fsDevice.data (c.cache i).sector
  idle : (c.cache i).readers = 0

/-- The invariant of the cache between calls. -/
structure Wf (c : Cache) : Prop where
  unique : c.Unique
  entry : ∀ i, c.EntryWf i

/-- No empty entry is dirty. -/
def EmptyClean (c : Cache) : Prop :=
  ∀ i, (c.cache i).sector = emptySector → (c.cache i).isDirty = false

/-- The cache `c'` shows the same sectors as `c`; the device may have taken over sectors that
were newer in the cache. -/
structure Sees (c c' : Cache) : Prop where
  size : c'.fsDevice.size = c.fsDevice.size
  wf : c'.Wf
  view : ∀ t < c.fsDevice.size, c'.view t = c.view t
  device : ∀ t, c'.fsDevice.data t = c.fsDevice.data t ∨
    t < c.fsDevice.size ∧ c'.fsDevice.data t = c.view t
  emptyClean : c.EmptyClean → c'.EmptyClean

/-- A sector of the device is not the mark of an empty entry. -/
theorem ne_empty {c : Cache} {t : Nat} (h : t < c.fsDevice.size) : t ≠ emptySector := by
  have := c.fsDevice.size_lt
  unfold emptySector
  omega

theorem Unique.find {c : Cache} (h : c.Unique) {i : Fin 64} {t : Nat}
    (hi : (c.cache i).sector = t) (ht : t ≠ emptySector) : bcGetEntryBySector c t = some i := by
  cases hf : bcGetEntryBySector c t with
  | none => exact absurd hi (bcGetEntryBySector_none hf i)
  | some j =>
    have hj := bcGetEntryBySector_some hf
    rw [h i j (by rwa [hi]) (hi.trans hj.symm)]

theorem view_of_holds {c : Cache} (h : c.Unique) {i : Fin 64} {t : Nat}
    (hi : (c.cache i).sector = t) (ht : t ≠ emptySector) : c.view t = (c.cache i).data := by
  simp [view, h.find hi ht]

theorem view_of_absent {c : Cache} {t : Nat} (h : ∀ i, (c.cache i).sector ≠ t) :
    c.view t = c.fsDevice.data t := by
  have : bcGetEntryBySector c t = none := by
    simpa [bcGetEntryBySector] using h
  simp [view, this]

/-- A sector is held by an entry or by none. -/
theorem holds_or_absent (c : Cache) (t : Nat) :
    (∃ i, (c.cache i).sector = t) ∨ ∀ i, (c.cache i).sector ≠ t := by
  by_cases h : ∃ i, (c.cache i).sector = t
  · exact Or.inl h
  · exact Or.inr fun i hi => h ⟨i, hi⟩

/-- Caches with the same entries for sector `t`, and the same device bytes when there is none,
show the same contents of it. -/
theorem view_congr {c c' : Cache} (h : c.Unique) (h' : c'.Unique) {t : Nat}
    (ht : t ≠ emptySector) (hsec : ∀ i, (c'.cache i).sector = t ↔ (c.cache i).sector = t)
    (hdata : ∀ i, (c.cache i).sector = t → (c'.cache i).data = (c.cache i).data)
    (hdev : (∀ i, (c.cache i).sector ≠ t) → c'.fsDevice.data t = c.fsDevice.data t) :
    c'.view t = c.view t := by
  rcases c.holds_or_absent t with ⟨i, hi⟩ | habs
  · rw [view_of_holds h hi ht, view_of_holds h' ((hsec i).mpr hi) ht, hdata i hi]
  · rw [view_of_absent habs, view_of_absent fun i hi => habs i ((hsec i).mp hi), hdev habs]

theorem Sees.refl {c : Cache} (h : c.Wf) : c.Sees c :=
  ⟨rfl, h, fun _ _ => rfl, fun _ => Or.inl rfl, id⟩

theorem Sees.trans {c c1 c2 : Cache} (h1 : c.Sees c1) (h2 : c1.Sees c2) : c.Sees c2 where
  size := h2.size.trans h1.size
  wf := h2.wf
  view t ht := (h2.view t (by rwa [h1.size])).trans (h1.view t ht)
  device t := by
    rcases h2.device t with h | ⟨ht, h⟩
    · rw [h]
      exact h1.device t
    · rw [h1.size] at ht
      exact Or.inr ⟨ht, h.trans (h1.view t ht)⟩
  emptyClean h := h2.emptyClean (h1.emptyClean h)

@[simp] theorem setEntry_fsDevice (c : Cache) (i : Fin 64) (entry : BufferCacheEntry) :
    (c.setEntry i entry).fsDevice = c.fsDevice := rfl

@[simp] theorem setEntry_cache_self (c : Cache) (i : Fin 64) (entry : BufferCacheEntry) :
    (c.setEntry i entry).cache i = entry := by
  simp [setEntry]

theorem setEntry_cache_ne (c : Cache) {i j : Fin 64} (h : j ≠ i) (entry : BufferCacheEntry) :
    (c.setEntry i entry).cache j = c.cache j := by
  simp [setEntry, h]

end Cache

theorem bcInit_wf (memory : Fin 64 → SectorData) (fsDevice : Block) :
    (bcInit memory fsDevice).Wf :=
  ⟨fun _ _ h => absurd rfl h,
    fun _ => ⟨fun h => absurd rfl h, fun h => absurd rfl h, rfl⟩⟩

theorem bcInit_emptyClean (memory : Fin 64 → SectorData) (fsDevice : Block) :
    (bcInit memory fsDevice).EmptyClean :=
  fun _ _ => rfl

theorem bcInit_view (memory : Fin 64 → SectorData) (fsDevice : Block) {t : Nat}
    (h : t < fsDevice.size) : (bcInit memory fsDevice).view t = fsDevice.data t :=
  Cache.view_of_absent fun _ =>
    (Cache.ne_empty (c := bcInit memory fsDevice) h).symm

/-! ### The victim scan -/

/-- `c'` differs from `c` in second-chance marks only, and no mark is taken back. -/
structure MarksOnly (c c' : Cache) : Prop where
  device : c'.fsDevice = c.fsDevice
  sector : ∀ i, (c'.cache i).sector = (c.cache i).sector
  data : ∀ i, (c'.cache i).data = (c.cache i).data
  dirty : ∀ i, (c'.cache i).isDirty = (c.cache i).isDirty
  readers : ∀ i, (c'.cache i).readers = (c.cache i).readers
  chance : ∀ i, (c.cache i).isInSecondChance → (c'.cache i).isInSecondChance

namespace MarksOnly

theorem refl (c : Cache) : MarksOnly c c :=
  ⟨rfl, fun _ => rfl, fun _ => rfl, fun _ => rfl, fun _ => rfl, fun _ h => h⟩

theorem trans {c c1 c2 : Cache} (h1 : MarksOnly c c1) (h2 : MarksOnly c1 c2) :
    MarksOnly c c2 where
  device := h2.device.trans h1.device
  sector i := (h2.sector i).trans (h1.sector i)
  data i := (h2.data i).trans (h1.data i)
  dirty i := (h2.dirty i).trans (h1.dirty i)
  readers i := (h2.readers i).trans (h1.readers i)
  chance i h := h2.chance i (h1.chance i h)

theorem mark (c : Cache) (i : Fin 64) :
    MarksOnly c (c.setEntry i { c.cache i with isInSecondChance := true }) := by
  refine ⟨rfl, ?_, ?_, ?_, ?_, ?_⟩ <;> intro j <;> by_cases h : j = i
  all_goals first
    | (subst h; simp)
    | simp [Cache.setEntry_cache_ne c h]

end MarksOnly

/-- No other thread holds the entry and nobody reads it. -/
def Free (locked : Fin 64 → Bool) (c : Cache) (i : Fin 64) : Prop :=
  locked i = false ∧ (c.cache i).readers = 0

/-- A free entry that a visit of the scan takes as the victim. -/
def Takeable (c : Cache) (i : Fin 64) : Prop :=
  (c.cache i).sector = emptySector ∨ (c.cache i).isInSecondChance

theorem bcVisitEntry_victim {locked : Fin 64 → Bool} {round : Nat} {i : Fin 64} {c : Cache}
    (h : bcVisitEntry locked round i c = .victim) :
    locked i = false ∧ (c.cache i).readers = 0 ∧ Takeable c i := by
  unfold bcVisitEntry at h
  split at h
  · split at h <;> cases h
  rename_i hlocked
  split at h
  · cases h
  rename_i hreaders
  split at h
  · rename_i htake
    exact ⟨by simpa using hlocked, by omega, htake⟩
  · split at h <;> cases h

theorem bcVisitEntry_waits {locked : Fin 64 → Bool} {round : Nat} {i : Fin 64} {c : Cache}
    (h : bcVisitEntry locked round i c = .waits) : 5 < round := by
  unfold bcVisitEntry at h
  repeat' split at h
  all_goals first | assumption | cases h

/-- A visit that goes on changes at most the mark of its own entry.  It marks a free entry if it is
clean, and from round 1 on in any case. -/
theorem bcVisitEntry_passes {locked : Fin 64 → Bool} {round : Nat} {i : Fin 64} {c c1 : Cache}
    (h : bcVisitEntry locked round i c = .passes c1) :
    MarksOnly c c1 ∧ (∀ k ≠ i, c1.cache k = c.cache k) ∧
      (Free locked c i → ¬ Takeable c i ∧
        (Takeable c1 i ↔ 0 < round ∨ (c.cache i).isDirty = false)) := by
  unfold bcVisitEntry at h
  split at h
  · rename_i hlocked
    split at h
    · cases h
    · cases h
      exact ⟨MarksOnly.refl _, fun _ _ => rfl, fun hfree => by rw [hfree.1] at hlocked; cases hlocked⟩
  split at h
  · rename_i hreaders
    cases h
    exact ⟨MarksOnly.refl _, fun _ _ => rfl, fun hfree => absurd hfree.2 (Nat.ne_of_gt hreaders)⟩
  split at h
  · cases h
  rename_i htake
  split at h
  · rename_i hmark
    cases h
    refine ⟨MarksOnly.mark _ i, fun k hk => Cache.setEntry_cache_ne _ hk _, fun _ =>
      ⟨htake, iff_of_true (Or.inr (by simp)) ?_⟩⟩
    simpa [or_comm] using hmark
  · rename_i hmark
    cases h
    refine ⟨MarksOnly.refl _, fun _ _ => rfl, fun _ => ⟨htake, iff_of_false htake ?_⟩⟩
    simpa [or_comm] using hmark

/-- The victim that the scan returns is idle and takeable, and the scan changes marks only. -/
theorem bcGetFreeEntryLoop_some {locked : Fin 64 → Bool} {fuel round : Nat} {i v : Fin 64}
    {c c' : Cache} (h : bcGetFreeEntryLoop locked fuel round i c = some (v, c')) :
    MarksOnly c c' ∧ locked v = false ∧ (c'.cache v).readers = 0 ∧ Takeable c' v := by
  induction fuel generalizing round i c with
  | zero => simp [bcGetFreeEntryLoop] at h
  | succ fuel ih =>
    unfold bcGetFreeEntryLoop at h
    split at h
    · rename_i hv
      cases h
      exact ⟨MarksOnly.refl _, bcVisitEntry_victim hv⟩
    · cases h
    · rename_i c1 hp
      have hm := (bcVisitEntry_passes hp).1
      split at h
      · exact ⟨hm.trans (ih h).1, (ih h).2⟩
      · exact ⟨hm.trans (ih h).1, (ih h).2⟩

/-- One sweep up to round 5 from entry `i` ends the scan at the first free entry that is takeable, or
it reaches the next round. -/
theorem bcGetFreeEntryLoop_sweep (locked : Fin 64 → Bool) {round : Nat} (hround : round ≤ 5)
    (fuel n : Nat) (i : Fin 64) (hn : i.val + n = 63) (c : Cache) :
    (∃ v c', bcGetFreeEntryLoop locked (fuel + n + 1) round i c = some (v, c') ∧ MarksOnly c c' ∧
      i ≤ v ∧ Free locked c v ∧ Takeable c v ∧
        ∀ k, i ≤ k → k < v → Free locked c k → ¬ Takeable c k) ∨
    ∃ c', bcGetFreeEntryLoop locked (fuel + n + 1) round i c =
        bcGetFreeEntryLoop locked fuel (round + 1) 0 c' ∧
      MarksOnly c c' ∧ (∀ k < i, c'.cache k = c.cache k) ∧
      ∀ k, i ≤ k → Free locked c k → ¬ Takeable c k ∧
        (Takeable c' k ↔ 0 < round ∨ (c.cache k).isDirty = false) := by
  induction n generalizing i c with
  | zero =>
    obtain rfl : i = 63 := Fin.ext (by simpa using hn)
    have last : ∀ k : Fin 64, 63 ≤ k → k = 63 := by decide
    rw [Nat.add_zero, bcGetFreeEntryLoop]
    cases hv : bcVisitEntry locked round 63 c with
    | victim =>
      obtain ⟨hlocked, hreaders, htake⟩ := bcVisitEntry_victim hv
      exact Or.inl ⟨63, c, rfl, MarksOnly.refl c, le_rfl, ⟨hlocked, hreaders⟩, htake, fun k hk hlt =>
        absurd hlt (not_lt.mpr hk)⟩
    | waits => exact absurd (bcVisitEntry_waits hv) (by omega)
    | passes c1 =>
      obtain ⟨hm, hsame, htake⟩ := bcVisitEntry_passes hv
      refine Or.inr ⟨c1, by simp, hm, fun k hk => hsame k (ne_of_lt hk), fun k hk hfree => ?_⟩
      rw [last k hk] at hfree ⊢
      exact htake hfree
  | succ n ih =>
    have hlt : i.val < 63 := by omega
    have hi : i ≠ 63 := fun h => by rw [h] at hlt; exact absurd hlt (by decide)
    have hsucc : (i + 1).val = i.val + 1 := by
      have h1 : ((1 : Fin 64) : Nat) = 1 := rfl
      rw [Fin.val_add, h1]
      omega
    have hlater : ∀ k, i ≤ k → k ≠ i → i + 1 ≤ k := by
      intro k hk hne
      have hv : k.val ≠ i.val := fun h => hne (Fin.ext h)
      have := Fin.le_def.mp hk
      rw [Fin.le_def, hsucc]
      omega
    rw [show fuel + (n + 1) + 1 = (fuel + n + 1) + 1 by omega, bcGetFreeEntryLoop]
    cases hv : bcVisitEntry locked round i c with
    | victim =>
      obtain ⟨hlocked, hreaders, htake⟩ := bcVisitEntry_victim hv
      exact Or.inl ⟨i, c, rfl, MarksOnly.refl c, le_rfl, ⟨hlocked, hreaders⟩, htake, fun k hk hlt =>
        absurd hlt (not_lt.mpr hk)⟩
    | waits => exact absurd (bcVisitEntry_waits hv) (by omega)
    | passes c1 =>
      obtain ⟨hm, hsame, hvisited⟩ := bcVisitEntry_passes hv
      have hfree : ∀ {k}, Free locked c1 k ↔ Free locked c k := fun {k} => by
        rw [Free, Free, hm.readers k]
      have htake : ∀ {k}, k ≠ i → (Takeable c1 k ↔ Takeable c k) := fun {k} hk => by
        rw [Takeable, Takeable, hsame k hk]
      simp only [hi, if_false]
      rcases ih (i + 1) (by omega) c1 with ⟨v, c', heq, hm', hle, hv', htakev, hfirst⟩ |
        ⟨c', heq, hm', hbefore, hall⟩
      · have hnot : ∀ k, i ≤ k → k < v → Free locked c k → ¬ Takeable c k := by
          intro k hk hkv hfreek
          by_cases hki : k = i
          · subst hki
            exact (hvisited hfreek).1
          · rw [← htake hki]
            exact hfirst k (hlater k hk hki) hkv (hfree.mpr hfreek)
        have hnext : i < v := by
          rw [Fin.lt_def]
          have := Fin.le_def.mp hle
          omega
        exact Or.inl ⟨v, c', heq, hm.trans hm', le_of_lt hnext, hfree.mp hv',
          (htake (ne_of_gt hnext)).mp htakev, hnot⟩
      · refine Or.inr ⟨c', heq, hm.trans hm', fun k hk => ?_, fun k hk hfreek => ?_⟩
        · have hki : k ≠ i := ne_of_lt hk
          rw [hbefore k (by rw [Fin.lt_def, hsucc]; have := Fin.lt_def.mp hk; omega), hsame k hki]
        · by_cases hki : k = i
          · subst hki
            obtain ⟨hnot, hmark⟩ := hvisited hfreek
            refine ⟨hnot, ?_⟩
            rw [← hmark, Takeable, Takeable, hbefore k (by rw [Fin.lt_def, hsucc]; omega)]
          · obtain ⟨hnot, hmark⟩ := hall k (hlater k hk hki) (hfree.mpr hfreek)
            rw [htake hki] at hnot
            rw [hsame k hki] at hmark
            exact ⟨hnot, hmark⟩

/-- Why the scan prefers entry `v` to the other free entries: it takes the first that it may take at
once, else the first that is clean, else the first. -/
inductive Preferred (locked : Fin 64 → Bool) (c : Cache) (v : Fin 64) : Prop
  | takeable (htake : Takeable c v) (first : ∀ k < v, Free locked c k → ¬ Takeable c k)
  | clean (none : ∀ k, Free locked c k → ¬ Takeable c k) (hclean : (c.cache v).isDirty = false)
      (first : ∀ k < v, Free locked c k → (c.cache k).isDirty = true)
  | dirty (none : ∀ k, Free locked c k → ¬ Takeable c k)
      (all : ∀ k, Free locked c k → (c.cache k).isDirty = true)
      (first : ∀ k < v, ¬ Free locked c k)

/-- With a free entry the scan ends within three sweeps. -/
theorem bcGetFreeEntryLoop_ends (locked : Fin 64 → Bool) {c : Cache} {k : Fin 64}
    (hk : Free locked c k) : ∃ v c', bcGetFreeEntryLoop locked (3 * 64) 0 0 c = some (v, c') ∧
      MarksOnly c c' ∧ Free locked c v ∧ Preferred locked c v := by
  rcases bcGetFreeEntryLoop_sweep locked (show 0 ≤ 5 by omega) 128 63 0 rfl c with
    ⟨v, c', h, hm, -, hv, htake, hfirst⟩ | ⟨c1, h1, m1, -, t1⟩
  · exact ⟨v, c', h, hm, hv, .takeable htake fun k hk => hfirst k (Fin.zero_le k) hk⟩
  have none : ∀ k, Free locked c k → ¬ Takeable c k := fun k hk => (t1 k (Fin.zero_le k) hk).1
  have free1 : ∀ {k}, Free locked c1 k ↔ Free locked c k := fun {k} => by
    rw [Free, Free, m1.readers k]
  have take1 : ∀ {k}, Free locked c k → (Takeable c1 k ↔ (c.cache k).isDirty = false) :=
    fun {k} hk => (t1 k (Fin.zero_le k) hk).2.trans (by simp)
  rcases bcGetFreeEntryLoop_sweep locked (show 1 ≤ 5 by omega) 64 63 0 rfl c1 with
    ⟨v, c', h, hm, -, hv, htake, hfirst⟩ | ⟨c2, h2, m2, -, t2⟩
  · have hv := free1.mp hv
    refine ⟨v, c', h1.trans h, m1.trans hm, hv, .clean none ((take1 hv).mp htake) fun k hk hfree => ?_⟩
    have hnot := hfirst k (Fin.zero_le k) hk (free1.mpr hfree)
    rw [take1 hfree] at hnot
    simpa using hnot
  have all : ∀ k, Free locked c k → (c.cache k).isDirty = true := by
    intro k hk
    have hnot := (t2 k (Fin.zero_le k) (free1.mpr hk)).1
    rw [take1 hk] at hnot
    simpa using hnot
  have free2 : ∀ {k}, Free locked c2 k ↔ Free locked c k := fun {k} => by
    rw [← free1, Free, Free, m2.readers k]
  have take2 : ∀ k, Free locked c k → Takeable c2 k := fun k hk =>
    (t2 k (Fin.zero_le k) (free1.mpr hk)).2.mpr (.inl Nat.one_pos)
  rcases bcGetFreeEntryLoop_sweep locked (show 2 ≤ 5 by omega) 0 63 0 rfl c2 with
    ⟨v, c', h, hm, -, hv, htake, hfirst⟩ | ⟨c3, -, -, -, t3⟩
  · refine ⟨v, c', h1.trans (h2.trans h), (m1.trans m2).trans hm, free2.mp hv,
      .dirty none all fun k hk hfree => ?_⟩
    exact hfirst k (Fin.zero_le k) hk (free2.mpr hfree) (take2 k hfree)
  · exact absurd (take2 k hk) (t3 k (Fin.zero_le k) (free2.mpr hk)).1

/-! ### One call -/

/-- `bcFlush` of an entry whose sector is on the device. -/
theorem bcFlush_of_lt {c : Cache} {i : Fin 64} (h : (c.cache i).sector < c.fsDevice.size) :
    bcFlush i c = .ok ((), Cache.setEntry
      { c with fsDevice := c.fsDevice.store (c.cache i).sector (c.cache i).data } i
      { c.cache i with isDirty := false }) := by
  rw [bcFlush, Routine.get_bind_apply,
    Routine.bind_of_ok (Routine.lift_of_ok (Block.blockWrite_of_lt h _) c)]
  rfl

theorem bcFlush_of_le {c : Cache} {i : Fin 64} (h : c.fsDevice.size ≤ (c.cache i).sector) :
    bcFlush i c = .error (.panic "Access past end of device") := by
  rw [bcFlush, Routine.get_bind_apply,
    Routine.bind_of_error (Routine.lift_of_error (Block.blockWrite_of_le h _) c)]

theorem MarksOnly.sees {c c' : Cache} (hm : MarksOnly c c') (h : c.Wf) : c.Sees c' where
  size := by rw [hm.device]
  wf :=
    { unique := fun i j => by
        rw [hm.sector i, hm.sector j]
        exact h.unique i j
      entry := fun i =>
        { inRange := by
            rw [hm.sector i, hm.device]
            exact (h.entry i).inRange
          clean := by
            rw [hm.sector i, hm.dirty i, hm.data i, hm.device]
            exact (h.entry i).clean
          idle := (hm.readers i).trans (h.entry i).idle } }
  view t ht := by
    refine Cache.view_congr h.unique ?_ (Cache.ne_empty ht) (fun i => by rw [hm.sector i])
      (fun i _ => hm.data i) fun _ => by rw [hm.device]
    intro i j
    rw [hm.sector i, hm.sector j]
    exact h.unique i j
  device t := Or.inl (by rw [hm.device])
  emptyClean he i hi := by
    rw [hm.sector i] at hi
    rw [hm.dirty i]
    exact he i hi

/-- The cache after entry `i` has been written to the device. -/
def Cache.flushed (c : Cache) (i : Fin 64) : Cache :=
  Cache.setEntry { c with fsDevice := c.fsDevice.store (c.cache i).sector (c.cache i).data } i
    { c.cache i with isDirty := false }

namespace Cache

variable (c : Cache) (i j : Fin 64)

@[simp] theorem flushed_sector : ((c.flushed i).cache j).sector = (c.cache j).sector := by
  by_cases h : j = i
  · subst h
    simp [flushed]
  · rw [flushed, setEntry_cache_ne _ h]

@[simp] theorem flushed_data : ((c.flushed i).cache j).data = (c.cache j).data := by
  by_cases h : j = i
  · subst h
    simp [flushed]
  · rw [flushed, setEntry_cache_ne _ h]

@[simp] theorem flushed_readers : ((c.flushed i).cache j).readers = (c.cache j).readers := by
  by_cases h : j = i
  · subst h
    simp [flushed]
  · rw [flushed, setEntry_cache_ne _ h]

theorem flushed_dirty :
    ((c.flushed i).cache j).isDirty = if j = i then false else (c.cache j).isDirty := by
  by_cases h : j = i
  · subst h
    simp [flushed]
  · rw [flushed, setEntry_cache_ne _ h, if_neg h]

@[simp] theorem flushed_fsDevice :
    (c.flushed i).fsDevice = c.fsDevice.store (c.cache i).sector (c.cache i).data := rfl

variable {c i}

theorem flushed_sees (h : c.Wf) (hi : (c.cache i).sector < c.fsDevice.size) :
    c.Sees (c.flushed i) := by
  have hne : (c.cache i).sector ≠ emptySector := ne_empty hi
  have hunique : (c.flushed i).Unique := by
    intro j k
    simpa using h.unique j k
  have hview : c.view (c.cache i).sector = (c.cache i).data := view_of_holds h.unique rfl hne
  refine ⟨rfl, ⟨hunique, fun j => ⟨?_, ?_, ?_⟩⟩, fun t ht => ?_, fun t => ?_, fun he j hj => ?_⟩
  · simpa using (h.entry j).inRange
  · intro hj hd
    simp only [flushed_sector, flushed_data, flushed_fsDevice, Block.store_data,
      flushed_dirty] at hj hd ⊢
    by_cases hji : j = i
    · subst hji
      simp
    · have hsec : (c.cache j).sector ≠ (c.cache i).sector := fun he =>
        hji (h.unique j i hj he)
      rw [if_neg hji] at hd
      rw [Function.update_of_ne hsec]
      exact (h.entry j).clean hj hd
  · simpa using (h.entry j).idle
  · refine view_congr h.unique hunique (ne_empty ht) (fun j => by simp) (fun j _ => by simp) ?_
    intro habs
    simp [Function.update_of_ne (habs i).symm]
  · by_cases ht : t = (c.cache i).sector
    · subst ht
      exact Or.inr ⟨hi, by simp [hview]⟩
    · exact Or.inl (by simp [Function.update_of_ne ht])
  · rw [flushed_dirty]
    split
    · rfl
    · exact he j (by simpa using hj)

end Cache

/-- The victim of `bc_get_free_entry`: idle, and empty or clean with its sector's contents on
the device. -/
theorem bcGetFreeEntry_spec {c : Cache} (h : c.Wf) :
    ∃ v c', bcGetFreeEntry (fun _ => false) c = .ok (v, c') ∧ c.Sees c' ∧
      (∀ i, (c'.cache i).sector = (c.cache i).sector) ∧
      (∀ i, (c'.cache i).data = (c.cache i).data) ∧
      ((c'.cache v).sector ≠ emptySector → (c'.cache v).isDirty = false) := by
  obtain ⟨v, c1, hloop, hm, -, -⟩ :=
    bcGetFreeEntryLoop_ends (fun _ => false) ⟨rfl, (h.entry 0).idle⟩
  have h1 := hm.sees h
  by_cases hd : (c1.cache v).sector ≠ emptySector ∧ (c1.cache v).isDirty = true
  · have hlt := (h1.wf.entry v).inRange hd.1
    refine ⟨v, c1.flushed v, ?_, h1.trans (Cache.flushed_sees h1.wf hlt), fun i => ?_, fun i => ?_,
      fun _ => ?_⟩
    · rw [bcGetFreeEntry, Routine.get_bind_apply, hloop]
      simp only [Routine.set_bind_apply]
      rw [if_pos hd, Routine.bind_of_ok (bcFlush_of_lt hlt)]
      rfl
    · simpa using hm.sector i
    · simpa using hm.data i
    · simp [Cache.flushed_dirty]
  · refine ⟨v, c1, ?_, h1, hm.sector, hm.data, fun hne => ?_⟩
    · rw [bcGetFreeEntry, Routine.get_bind_apply, hloop]
      simp only [Routine.set_bind_apply]
      rw [if_neg hd]
      rfl
    · by_contra hdirty
      exact hd ⟨hne, by simpa using hdirty⟩

/-- An entry that `bc_get_and_lock_entry` has fetched for `sector`. -/
structure Fetched (c : Cache) (sector : Nat) (i : Fin 64) (isCacheMiss : Bool) (c' : Cache) :
    Prop where
  size : c'.fsDevice.size = c.fsDevice.size
  holds : (c'.cache i).sector = sector
  unique : c'.Unique
  others : ∀ j ≠ i, c'.EntryWf j
  idle : (c'.cache i).readers = 0
  view : ∀ t < c.fsDevice.size, t ≠ sector → c'.view t = c.view t
  hit : isCacheMiss = false → c' = c
  miss : isCacheMiss = true →
    (c'.cache i).isDirty = false ∧ c'.fsDevice.data sector = c.view sector
  device : ∀ t, c'.fsDevice.data t = c.fsDevice.data t ∨
    t < c.fsDevice.size ∧ c'.fsDevice.data t = c.view t
  emptyClean : c.EmptyClean → ∀ j ≠ i, (c'.cache j).sector = emptySector →
    (c'.cache j).isDirty = false

theorem bcGetAndLockEntry_spec {c : Cache} (h : c.Wf) {sector : Nat}
    (hs : sector < c.fsDevice.size) :
    ∃ i isCacheMiss c', bcGetAndLockEntry sector c = .ok ((i, isCacheMiss), c') ∧
      Fetched c sector i isCacheMiss c' := by
  have hne := Cache.ne_empty hs
  cases hf : bcGetEntryBySector c sector with
  | some i =>
    refine ⟨i, false, c, ?_, ?_⟩
    · rw [bcGetAndLockEntry, Routine.get_bind_apply, hf]
      rfl
    · exact ⟨rfl, bcGetEntryBySector_some hf, h.unique, fun j _ => h.entry j, (h.entry i).idle,
        fun _ _ _ => rfl, fun _ => rfl, nofun, fun _ => Or.inl rfl,
        fun he j _ => he j⟩
  | none =>
    have habs := bcGetEntryBySector_none hf
    obtain ⟨v, c1, hfree, hsees, hsec, hdata, hclean⟩ := bcGetFreeEntry_spec h
    have habs1 : ∀ i, (c1.cache i).sector ≠ sector := fun i => by
      rw [hsec i]
      exact habs i
    let entry : BufferCacheEntry := { c1.cache v with sector := sector, isDirty := false }
    have hself : (c1.setEntry v entry).cache v = entry := by simp
    have hother : ∀ j ≠ v, (c1.setEntry v entry).cache j = c1.cache j := fun j hj =>
      Cache.setEntry_cache_ne c1 hj _
    have hunique : (c1.setEntry v entry).Unique := by
      intro i j hi hij
      by_cases hiv : i = v <;> by_cases hjv : j = v
      · rw [hiv, hjv]
      · rw [hiv, hself, hother j hjv] at hij
        exact absurd hij.symm (habs1 j)
      · rw [hjv, hself, hother i hiv] at hij
        exact absurd hij (habs1 i)
      · rw [hother i hiv] at hi hij
        rw [hother j hjv] at hij
        exact hsees.wf.unique i j hi hij
    refine ⟨v, true, c1.setEntry v entry, ?_, ?_⟩
    · rw [bcGetAndLockEntry, Routine.get_bind_apply, hf]
      simp only
      rw [Routine.bind_of_ok hfree]
      rfl
    refine ⟨hsees.size, by rw [hself], hunique, fun j hj => ?_, ?_, fun t ht hts => ?_,
      nofun, fun _ => ⟨by rw [hself], ?_⟩, hsees.device, fun he j hj hje => ?_⟩
    · have := hsees.wf.entry j
      exact ⟨by rw [hother j hj]; exact this.inRange, by rw [hother j hj]; exact this.clean,
        by rw [hother j hj]; exact this.idle⟩
    · rw [hself]
      exact (hsees.wf.entry v).idle
    · -- a sector that only the victim held is seen on the device, where the flush left it
      have htne := Cache.ne_empty ht
      rw [← hsees.view t ht]
      rcases c1.holds_or_absent t with ⟨i, hi⟩ | habst
      · by_cases hiv : i = v
        · subst hiv
          have hempty : ∀ j, ((c1.setEntry i entry).cache j).sector ≠ t := by
            intro j hj
            by_cases hji : j = i
            · rw [hji, hself] at hj
              exact hts hj.symm
            · rw [hother j hji] at hj
              exact hji (hsees.wf.unique j i (by rwa [hj]) (hj.trans hi.symm))
          have hine : (c1.cache i).sector ≠ emptySector := by rwa [hi]
          rw [Cache.view_of_absent hempty, Cache.view_of_holds hsees.wf.unique hi htne,
            (hsees.wf.entry i).clean hine (hclean hine), hi]
          rfl
        · rw [Cache.view_of_holds hsees.wf.unique hi htne,
            Cache.view_of_holds hunique (by rw [hother i hiv]; exact hi) htne, hother i hiv]
      · have hempty : ∀ j, ((c1.setEntry v entry).cache j).sector ≠ t := by
          intro j hj
          by_cases hjv : j = v
          · rw [hjv, hself] at hj
            exact hts hj.symm
          · rw [hother j hjv] at hj
            exact habst j hj
        rw [Cache.view_of_absent hempty, Cache.view_of_absent habst]
        rfl
    · rw [Cache.setEntry_fsDevice, ← hsees.view sector hs, Cache.view_of_absent habs1]
    · rw [hother j hj] at hje ⊢
      exact hsees.emptyClean he j hje

/-- `c'` shows `data` in `sector` and every other sector as `c` does. -/
structure Cache.Wrote (c : Cache) (sector : Nat) (data : SectorData) (c' : Cache) : Prop where
  size : c'.fsDevice.size = c.fsDevice.size
  wf : c'.Wf
  view_self : c'.view sector = data
  view_ne : ∀ t < c.fsDevice.size, t ≠ sector → c'.view t = c.view t
  device : ∀ t, c'.fsDevice.data t = c.fsDevice.data t ∨
    t < c.fsDevice.size ∧ c'.fsDevice.data t = c.view t
  emptyClean : c.EmptyClean → c'.EmptyClean

/-- The end of a call on a fetched entry: the entry is stored back with `sector` in it. -/
theorem Fetched.store {c c1 : Cache} {sector : Nat} {i : Fin 64} {isCacheMiss : Bool}
    (hf : Fetched c sector i isCacheMiss c1) (hs : sector < c.fsDevice.size)
    (entry : BufferCacheEntry) (hsector : entry.sector = sector) (hreaders : entry.readers = 0)
    (hclean : entry.isDirty = false → entry.data = c1.fsDevice.data sector) :
    c.Wrote sector entry.data (c1.setEntry i entry) := by
  have hne := Cache.ne_empty hs
  have hother : ∀ j ≠ i, (c1.setEntry i entry).cache j = c1.cache j := fun j hj =>
    Cache.setEntry_cache_ne c1 hj _
  have hsec : ∀ j, ((c1.setEntry i entry).cache j).sector = (c1.cache j).sector := by
    intro j
    by_cases hj : j = i
    · subst hj
      simp [hsector, hf.holds]
    · rw [hother j hj]
  have hunique : (c1.setEntry i entry).Unique := by
    intro j k
    rw [hsec j, hsec k]
    exact hf.unique j k
  refine ⟨hf.size, ⟨hunique, fun j => ?_⟩, ?_, fun t ht hts => ?_, hf.device, fun he j hj => ?_⟩
  · by_cases hj : j = i
    · subst hj
      refine ⟨fun _ => ?_, fun _ hd => ?_, ?_⟩
      · rw [hsec j, hf.holds, Cache.setEntry_fsDevice, hf.size]
        exact hs
      · rw [Cache.setEntry_cache_self] at hd ⊢
        rw [hclean hd, hsector]
        rfl
      · rw [Cache.setEntry_cache_self, hreaders]
    · have := hf.others j hj
      exact ⟨by rw [hother j hj]; exact this.inRange, by rw [hother j hj]; exact this.clean,
        by rw [hother j hj]; exact this.idle⟩
  · rw [Cache.view_of_holds hunique ((hsec i).trans hf.holds) hne, Cache.setEntry_cache_self]
  · rw [← hf.view t ht hts]
    refine Cache.view_congr hf.unique hunique (Cache.ne_empty ht) (fun j => by rw [hsec j]) ?_
      fun _ => rfl
    intro j hj
    rw [hother j fun hji => hts ?_]
    rw [← hj, hji, hf.holds]
  · have hji : j ≠ i := by
      rintro rfl
      rw [hsec j, hf.holds] at hj
      exact hne hj
    rw [hother j hji] at hj ⊢
    exact hf.emptyClean he j hji hj

theorem Cache.Wrote.sees {c c' : Cache} {sector : Nat}
    (h : c.Wrote sector (c.view sector) c') : c.Sees c' where
  size := h.size
  wf := h.wf
  view t ht := by
    by_cases hts : t = sector
    · rw [hts]
      exact h.view_self
    · exact h.view_ne t ht hts
  device := h.device
  emptyClean := h.emptyClean

theorem bcFill_of_lt {c : Cache} {sector : Nat} (h : sector < c.fsDevice.size) (i : Fin 64) :
    bcFill i sector c =
      .ok ((), c.setEntry i { c.cache i with data := c.fsDevice.data sector }) := by
  rw [bcFill, Routine.get_bind_apply,
    Routine.bind_of_ok (Routine.lift_of_ok (Block.blockRead_of_lt h) c)]
  rfl

@[simp] theorem Cache.setEntry_setEntry (c : Cache) (i : Fin 64) (e1 e2 : BufferCacheEntry) :
    (c.setEntry i e1).setEntry i e2 = c.setEntry i e2 := by
  simp [setEntry]

theorem bcBlockRead_spec {c : Cache} (h : c.Wf) {sector offset size : Nat}
    (hs : sector < c.fsDevice.size) (ho : offset + size ≤ 512) :
    ∃ c', bcBlockRead sector offset size c = .ok ((c.view sector).copyOut offset size, c') ∧
      c.Sees c' := by
  obtain ⟨i, isCacheMiss, c1, hget, hf⟩ := bcGetAndLockEntry_spec h hs
  have hs1 : sector < c1.fsDevice.size := by rwa [hf.size]
  rw [bcBlockRead, if_neg (by simpa [blockSectorSize] using ho)]
  beta_reduce
  rw [Routine.bind_of_ok hget]
  cases isCacheMiss with
  | false =>
    obtain rfl := hf.hit rfl
    have hview := Cache.view_of_holds h.unique hf.holds (Cache.ne_empty hs)
    have hw := hf.store hs { c1.cache i with isInSecondChance := false } hf.holds
      hf.idle fun hd => by
        have := (h.entry i).clean (by rw [hf.holds]; exact Cache.ne_empty hs) hd
        rwa [hf.holds] at this
    refine ⟨_, ?_, (hview ▸ hw : Cache.Wrote _ _ (c1.view sector) _).sees⟩
    simp [hview]
  | true =>
    obtain ⟨hdirty, hdev⟩ := hf.miss rfl
    have hw := hf.store hs
      { c1.cache i with data := c1.fsDevice.data sector, isInSecondChance := false }
      hf.holds hf.idle fun _ => rfl
    refine ⟨_, ?_, (hdev ▸ hw : Cache.Wrote _ _ (c.view sector) _).sees⟩
    simp only [if_true]
    rw [Routine.bind_of_ok (bcFill_of_lt hs1 i)]
    simp [hdev]

theorem bcBlockWrite_spec {c : Cache} (h : c.Wf) {sector offset : Nat} {buffer : List UInt8}
    (hs : sector < c.fsDevice.size) (ho : offset + buffer.length ≤ 512) :
    ∃ c', bcBlockWrite sector buffer offset false c = .ok ((), c') ∧
      c.Wrote sector ((c.view sector).copyIn offset buffer) c' := by
  obtain ⟨i, isCacheMiss, c1, hget, hf⟩ := bcGetAndLockEntry_spec h hs
  have hs1 : sector < c1.fsDevice.size := by rwa [hf.size]
  -- the entry's data before the copy agrees with the sector wherever the copy does not reach
  have finish : ∀ data : SectorData,
      data.copyIn offset buffer = (c.view sector).copyIn offset buffer →
      c.Wrote sector ((c.view sector).copyIn offset buffer)
        (c1.setEntry i { c1.cache i with
          isInSecondChance := false, isDirty := true, data := data.copyIn offset buffer }) := by
    intro data hdata
    rw [← hdata]
    exact hf.store hs
      { c1.cache i with
        isInSecondChance := false, isDirty := true, data := data.copyIn offset buffer }
      hf.holds hf.idle nofun
  rw [bcBlockWrite, if_neg (by simpa [blockSectorSize] using ho)]
  simp only [Bool.false_eq_true, if_false]
  rw [Routine.bind_of_ok hget]
  cases isCacheMiss with
  | false =>
    obtain rfl := hf.hit rfl
    have hview := Cache.view_of_holds h.unique hf.holds (Cache.ne_empty hs)
    refine ⟨_, ?_, finish (c1.cache i).data (by rw [hview])⟩
    simp [hf.idle]
  | true =>
    obtain ⟨-, hdev⟩ := hf.miss rfl
    simp only [if_true]
    by_cases hpart : offset > 0 ∨ buffer.length + offset < blockSectorSize
    · rw [if_pos hpart, Routine.bind_of_ok (bcFill_of_lt hs1 i)]
      refine ⟨_, ?_, finish (c1.fsDevice.data sector) (by rw [hdev])⟩
      simp [hf.idle]
    · rw [if_neg hpart]
      unfold blockSectorSize at hpart
      obtain rfl : offset = 0 := by omega
      refine ⟨_, ?_, finish SectorData.zeros (SectorData.copyIn_full _ _ (by omega))⟩
      simp [hf.idle]

/-- What `bc_remove` leaves: the sector is seen as the device has it. -/
structure Cache.Removed (c : Cache) (sector : Nat) (c' : Cache) : Prop where
  device : c'.fsDevice = c.fsDevice
  wf : c'.Wf
  view_self : c'.view sector = c.fsDevice.data sector
  view_ne : ∀ t < c.fsDevice.size, t ≠ sector → c'.view t = c.view t

theorem bcRemove_spec {c : Cache} (h : c.Wf) {sector : Nat} (hs : sector < c.fsDevice.size) :
    ∃ c', bcRemove sector c = .ok ((), c') ∧ c.Removed sector c' := by
  have hne := Cache.ne_empty hs
  cases hf : bcGetEntryBySector c sector with
  | none =>
    have habs := bcGetEntryBySector_none hf
    refine ⟨c, ?_, rfl, h, Cache.view_of_absent habs, fun _ _ _ => rfl⟩
    rw [bcRemove, Routine.get_bind_apply, hf]
    rfl
  | some i =>
    have hi := bcGetEntryBySector_some hf
    let entry : BufferCacheEntry := { c.cache i with sector := emptySector }
    have hself : (c.setEntry i entry).cache i = entry := by simp
    have hother : ∀ j ≠ i, (c.setEntry i entry).cache j = c.cache j := fun j hj =>
      Cache.setEntry_cache_ne c hj _
    have hunique : (c.setEntry i entry).Unique := by
      intro j k hj hjk
      by_cases hji : j = i <;> by_cases hki : k = i
      · rw [hji, hki]
      · rw [hji, hself] at hj
        exact absurd rfl hj
      · rw [hki, hself] at hjk
        exact absurd hjk hj
      · rw [hother j hji] at hj hjk
        rw [hother k hki] at hjk
        exact h.unique j k hj hjk
    refine ⟨c.setEntry i entry, ?_, rfl, ⟨hunique, fun j => ?_⟩, ?_, fun t ht hts => ?_⟩
    · rw [bcRemove, Routine.get_bind_apply, hf]
      rfl
    · by_cases hji : j = i
      · subst hji
        refine ⟨fun hj => ?_, fun hj => ?_, ?_⟩
        · rw [hself] at hj
          exact absurd rfl hj
        · rw [hself] at hj
          exact absurd rfl hj
        · rw [hself]
          exact (h.entry j).idle
      · have := h.entry j
        exact ⟨by rw [hother j hji]; exact this.inRange, by rw [hother j hji]; exact this.clean,
          by rw [hother j hji]; exact this.idle⟩
    · refine Cache.view_of_absent fun j hj => ?_
      by_cases hji : j = i
      · rw [hji, hself] at hj
        exact hne hj.symm
      · rw [hother j hji] at hj
        exact hji (h.unique j i (by rwa [hj]) (hj.trans hi.symm))
    · refine Cache.view_congr h.unique hunique (Cache.ne_empty ht) (fun j => ?_) (fun j hj => ?_)
        fun _ => rfl
      · by_cases hji : j = i
        · subst hji
          rw [hself, hi]
          exact ⟨fun he => absurd he.symm (Cache.ne_empty ht), fun he => absurd he.symm hts⟩
        · rw [hother j hji]
      · have hji : j ≠ i := by
          rintro rfl
          exact hts (hj.symm.trans hi)
        rw [hother j hji]

/-! ### Flush passes -/

theorem bcFlushEach_cons (wants : BufferCacheEntry → Bool) (i : Fin 64) (is : List (Fin 64))
    (c : Cache) : bcFlushEach wants (i :: is) c =
      if wants (c.cache i) then
        match bcFlush i c with
        | .ok (_, c1) => bcFlushEach wants is c1
        | .error e => .error e
      else bcFlushEach wants is c := by
  simp only [bcFlushEach, List.forM_eq_forM, List.forM_cons]
  rw [Routine.bind_apply, Routine.get_bind_apply]
  by_cases hw : wants (c.cache i)
  · simp only [if_pos hw]
    cases bcFlush i c <;> rfl
  · simp only [if_neg hw]
    rfl

/-- A flush pass over entries of the device writes back what it selects and changes nothing
else. -/
theorem bcFlushEach_spec {wants : BufferCacheEntry → Bool} {is : List (Fin 64)} {c : Cache}
    (h : c.Wf) (hnodup : is.Nodup)
    (hin : ∀ i ∈ is, wants (c.cache i) → (c.cache i).sector < c.fsDevice.size) :
    ∃ c', bcFlushEach wants is c = .ok ((), c') ∧ c.Sees c' ∧
      (∀ i, (c'.cache i).sector = (c.cache i).sector) ∧
      (∀ i, (c.cache i).isDirty = false → (c'.cache i).isDirty = false) ∧
      ∀ i ∈ is, wants (c.cache i) → (c'.cache i).isDirty = false := by
  induction is generalizing c with
  | nil =>
    exact ⟨c, rfl, Cache.Sees.refl h, fun _ => rfl, fun _ hd => hd, fun i hi => by simp at hi⟩
  | cons i is ih =>
    obtain ⟨hi, hnodup⟩ := List.nodup_cons.mp hnodup
    rw [bcFlushEach_cons]
    by_cases hw : wants (c.cache i)
    · have hlt := hin i List.mem_cons_self hw
      have hsees := Cache.flushed_sees h hlt
      have hsame : ∀ j ≠ i, (c.flushed i).cache j = c.cache j := fun j hj =>
        Cache.setEntry_cache_ne _ hj _
      have hne : ∀ j ∈ is, j ≠ i := fun j hj hji => hi (hji ▸ hj)
      obtain ⟨c', hrun, hsees', hsec, hkeep, hclean⟩ := ih hsees.wf hnodup fun j hj hwj => by
        rw [hsame j (hne j hj)] at hwj ⊢
        rw [hsees.size]
        exact hin j (List.mem_cons_of_mem _ hj) hwj
      refine ⟨c', ?_, hsees.trans hsees', fun j => ?_, fun j hd => ?_, fun j hj hwj => ?_⟩
      · rw [if_pos hw, bcFlush_of_lt hlt]
        exact hrun
      · rw [hsec j, Cache.flushed_sector]
      · refine hkeep j ?_
        rw [Cache.flushed_dirty, hd]
        split <;> rfl
      · by_cases hji : j = i
        · exact hkeep j (by simp [Cache.flushed_dirty, hji])
        · have hjis : j ∈ is := (List.mem_cons.mp hj).resolve_left hji
          exact hclean j hjis (by rw [hsame j hji]; exact hwj)
    · obtain ⟨c', hrun, hsees', hsec, hkeep, hclean⟩ :=
        ih h hnodup fun j hj => hin j (List.mem_cons_of_mem _ hj)
      refine ⟨c', by rw [if_neg hw]; exact hrun, hsees', hsec, hkeep, fun j hj hwj => ?_⟩
      rcases List.mem_cons.mp hj with rfl | hj
      · exact absurd hwj hw
      · exact hclean j hj hwj

/-- A flush pass that selects an entry off the device panics. -/
theorem bcFlushEach_panics {wants : BufferCacheEntry → Bool} {is : List (Fin 64)} {c : Cache}
    (hnodup : is.Nodup) {k : Fin 64} (hk : k ∈ is) (hw : wants (c.cache k))
    (hoff : c.fsDevice.size ≤ (c.cache k).sector) :
    bcFlushEach wants is c = .error (.panic "Access past end of device") := by
  induction is generalizing c with
  | nil => simp at hk
  | cons i is ih =>
    obtain ⟨hi, hnodup⟩ := List.nodup_cons.mp hnodup
    rw [bcFlushEach_cons]
    by_cases hki : k = i
    · subst hki
      rw [if_pos hw, bcFlush_of_le hoff]
    · have hkis : k ∈ is := (List.mem_cons.mp hk).resolve_left hki
      by_cases hwi : wants (c.cache i)
      · rw [if_pos hwi]
        by_cases hlt : (c.cache i).sector < c.fsDevice.size
        · have hsame : (c.flushed i).cache k = c.cache k := Cache.setEntry_cache_ne _ hki _
          rw [bcFlush_of_lt hlt]
          exact ih (c := c.flushed i) hnodup hkis (by rwa [hsame]) (by rwa [hsame])
        · rw [bcFlush_of_le (Nat.not_lt.mp hlt)]
      · rw [if_neg hwi]
        exact ih hnodup hkis hw hoff

/-- A pass over all entries that flushes at least the dirty ones with a sector leaves the device
with the contents that readers see. -/
theorem bcFlushEach_all {wants : BufferCacheEntry → Bool} {c : Cache} (h : c.Wf)
    (hin : ∀ i, wants (c.cache i) → (c.cache i).sector < c.fsDevice.size)
    (hall : ∀ i, (c.cache i).sector ≠ emptySector → (c.cache i).isDirty → wants (c.cache i)) :
    ∃ c', bcFlushEach wants (List.finRange 64) c = .ok ((), c') ∧ c.Sees c' ∧
      ∀ t < c.fsDevice.size, c'.fsDevice.data t = c.view t := by
  obtain ⟨c', hrun, hsees, hsec, hkeep, hclean⟩ :=
    bcFlushEach_spec h (List.nodup_finRange 64) fun i _ => hin i
  refine ⟨c', hrun, hsees, fun t ht => ?_⟩
  rw [← hsees.view t ht]
  rcases c'.holds_or_absent t with ⟨i, hi⟩ | habs
  · have hne : (c'.cache i).sector ≠ emptySector := by
      rw [hi]
      exact Cache.ne_empty ht
    have hdirty : (c'.cache i).isDirty = false := by
      by_cases hd : (c.cache i).isDirty
      · exact hclean i (List.mem_finRange i) (hall i (by rwa [← hsec i]) hd)
      · exact hkeep i (by simpa using hd)
    rw [Cache.view_of_holds hsees.wf.unique hi (Cache.ne_empty ht),
      (hsees.wf.entry i).clean hne hdirty, hi]
  · rw [Cache.view_of_absent habs]

theorem bcFlushAll_spec {c : Cache} (h : c.Wf) :
    ∃ c', bcFlushAll c = .ok ((), c') ∧ c.Sees c' ∧
      ∀ t < c.fsDevice.size, c'.fsDevice.data t = c.view t := by
  refine bcFlushEach_all h (fun i hw => ?_) fun i hne hd => ?_
  · simp only [decide_eq_true_eq] at hw
    exact (h.entry i).inRange hw.1
  · simpa using ⟨hne, hd⟩

theorem bcDaemonFlush_spec {c : Cache} (h : c.Wf) (he : c.EmptyClean) :
    ∃ c', bcDaemonFlush c = .ok ((), c') ∧ c.Sees c' ∧
      ∀ t < c.fsDevice.size, c'.fsDevice.data t = c.view t := by
  refine bcFlushEach_all h (fun i hw => (h.entry i).inRange fun hi => ?_) fun i _ hd => hd
  rw [he i hi] at hw
  cases hw

theorem bcDaemonFlush_panics {c : Cache} (he : ¬ c.EmptyClean) :
    bcDaemonFlush c = .error (.panic "Access past end of device") := by
  simp only [Cache.EmptyClean, not_forall, Bool.not_eq_false] at he
  obtain ⟨i, hi, hd⟩ := he
  refine bcFlushEach_panics (List.nodup_finRange 64) (List.mem_finRange i) hd ?_
  have := c.fsDevice.size_lt
  rw [hi]
  unfold emptySector
  omega

end Pintos
