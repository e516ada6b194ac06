import Pintos.Filesys.CacheSound

/-! The buffer cache from any state of its entries, well formed or not: which victim
`bc_get_free_entry` selects and what happens to its data, and when `bc_block_write` does its write. -/

namespace Pintos

open Routine

variable {locked : Fin 64 → Bool} {c c1 c' : Cache} {i j k v : Fin 64} {sector offset : Nat}
  {buffer : List UInt8}

/-! ### The victim -/

namespace Cache

/-- The data of entry `v` have to be written before the entry can be used again. -/
def MustFlush (c : Cache) (v : Fin 64) : Prop :=
  (c.cache v).sector ≠ emptySector ∧ (c.cache v).isDirty = true

/-- Entry `v` can be given to another sector: if it was dirty, the device has its data.  Nothing else
on the device and no data of an entry have changed. -/
structure Evicted (c : Cache) (v : Fin 64) (c' : Cache) : Prop where
  sector : ∀ i, (c'.cache i).sector = (c.cache i).sector
  data : ∀ i, (c'.cache i).data = (c.cache i).data
  readers : ∀ i, (c'.cache i).readers = (c.cache i).readers
  size : c'.fsDevice.size = c.fsDevice.size
  flushed : c.MustFlush v → c'.fsDevice.data (c.cache v).sector = (c.cache v).data
  clean : ¬ c'.MustFlush v
  device : ∀ t, ¬ (c.MustFlush v ∧ t = (c.cache v).sector) → c'.fsDevice.data t = c.fsDevice.data t

end Cache

theorem MarksOnly.mustFlush (hm : MarksOnly c c1) : c1.MustFlush v ↔ c.MustFlush v := by
  rw [Cache.MustFlush, Cache.MustFlush, hm.sector, hm.dirty]

theorem MarksOnly.evicted (hm : MarksOnly c c1) (h : ¬ c.MustFlush v) : c.Evicted v c1 where
  sector := hm.sector
  data := hm.data
  readers := hm.readers
  size := by rw [hm.device]
  flushed hflush := absurd hflush h
  clean := by rwa [hm.mustFlush]
  device t _ := by rw [hm.device]

theorem MarksOnly.evicted_flushed (hm : MarksOnly c c1) (h : c.MustFlush v) :
    c.Evicted v (c1.flushed v) where
  sector i := by rw [Cache.flushed_sector, hm.sector]
  data i := by rw [Cache.flushed_data, hm.data]
  readers i := by rw [Cache.flushed_readers, hm.readers]
  size := by simp [hm.device]
  flushed _ := by simp [hm.sector, hm.data]
  clean := by simp [Cache.MustFlush, Cache.flushed_dirty]
  device t ht := by
    have hne : t ≠ (c.cache v).sector := fun heq => ht ⟨h, heq⟩
    simp [hm.sector, hm.device, Function.update_of_ne hne]

/-- What `bc_get_free_entry` does with a victim that has to be written. -/
theorem bcGetFreeEntry_of_dirty (h : bcGetFreeEntryLoop locked (3 * 64) 0 0 c = some (v, c1))
    (hflush : c1.MustFlush v) :
    bcGetFreeEntry locked c = (bcFlush v >>= fun _ => pure v : CacheRoutine (Fin 64)) c1 := by
  have hd : (c1.cache v).sector ≠ emptySector ∧ (c1.cache v).isDirty = true := hflush
  rw [bcGetFreeEntry, get_bind_apply, h]
  simp only [set_bind_apply]
  rw [if_pos hd]

theorem bcGetFreeEntry_of_clean (h : bcGetFreeEntryLoop locked (3 * 64) 0 0 c = some (v, c1))
    (hflush : ¬ c1.MustFlush v) : bcGetFreeEntry locked c = .ok (v, c1) := by
  have hd : ¬ ((c1.cache v).sector ≠ emptySector ∧ (c1.cache v).isDirty = true) := hflush
  rw [bcGetFreeEntry, get_bind_apply, h]
  simp only [set_bind_apply]
  rw [if_neg hd]
  rfl

/-- Without a dirty sector that the device does not have the victim is evicted. -/
theorem bcGetFreeEntry_evicts (h : bcGetFreeEntryLoop locked (3 * 64) 0 0 c = some (v, c1))
    (hm : MarksOnly c c1) (hsector : c.MustFlush v → (c.cache v).sector < c.fsDevice.size) :
    ∃ c', bcGetFreeEntry locked c = .ok (v, c') ∧ c.Evicted v c' := by
  by_cases hflush : c1.MustFlush v
  · have hdirty := hm.mustFlush.mp hflush
    have hlt : (c1.cache v).sector < c1.fsDevice.size := by
      rw [hm.sector, hm.device]
      exact hsector hdirty
    refine ⟨c1.flushed v, ?_, hm.evicted_flushed hdirty⟩
    rw [bcGetFreeEntry_of_dirty h hflush, bind_of_ok (bcFlush_of_lt hlt)]
    rfl
  · have hclean : ¬ c.MustFlush v := fun hdirty => hflush (hm.mustFlush.mpr hdirty)
    exact ⟨c1, bcGetFreeEntry_of_clean h hflush, hm.evicted hclean⟩

/-- A dirty victim with a sector that the device does not have. -/
theorem bcGetFreeEntry_panics (h : bcGetFreeEntryLoop locked (3 * 64) 0 0 c = some (v, c1))
    (hm : MarksOnly c c1) (hflush : c.MustFlush v) (hsector : c.fsDevice.size ≤ (c.cache v).sector) :
    bcGetFreeEntry locked c = .error (.panic "Access past end of device") := by
  have hle : c1.fsDevice.size ≤ (c1.cache v).sector := by
    rw [hm.sector, hm.device]
    exact hsector
  rw [bcGetFreeEntry_of_dirty h (hm.mustFlush.mpr hflush), bind_of_error (bcFlush_of_le hle)]

/-- With a free entry the scan takes at most three sweeps.  The victim is free and empty or in its
second chance, the preferred one of the free entries, and it is evicted, unless it is dirty and its
sector is not on the device: then `block_write` panics. -/
theorem bcGetFreeEntry_selects (hk : Free locked c k) :
    ∃ v c1, bcGetFreeEntryLoop locked (3 * 64) 0 0 c = some (v, c1) ∧
      Free locked c v ∧ Takeable c1 v ∧ Preferred locked c v ∧
      ((c.MustFlush v → (c.cache v).sector < c.fsDevice.size) →
        ∃ c', bcGetFreeEntry locked c = .ok (v, c') ∧ c.Evicted v c') ∧
      (c.MustFlush v ∧ c.fsDevice.size ≤ (c.cache v).sector →
        bcGetFreeEntry locked c = .error (.panic "Access past end of device")) := by
  obtain ⟨v, c1, hloop, hm, hfree, hpreferred⟩ := bcGetFreeEntryLoop_ends locked hk
  obtain ⟨-, -, -, htake⟩ := bcGetFreeEntryLoop_some hloop
  exact ⟨v, c1, hloop, hfree, htake, hpreferred, bcGetFreeEntry_evicts hloop hm,
    fun ⟨hflush, hsector⟩ => bcGetFreeEntry_panics hloop hm hflush hsector⟩

theorem oneDirty_size : 64 < 2 ^ 32 := by decide

/-- All entries are in their second chance, the first holds new data of sector `first`, and the
others are clean. -/
def oneDirty (first : Nat) : Cache where
  cache i := ⟨if i = 0 then first else i, .zeros, true, i = 0, 0⟩
  fsDevice := ⟨64, oneDirty_size, fun _ => .zeros⟩

theorem oneDirty_loop (first : Nat) :
    bcGetFreeEntryLoop (fun _ => false) (3 * 64) 0 0 (oneDirty first) = some (0, oneDirty first) := by
  have hvisit : bcVisitEntry (fun _ => false) 0 0 (oneDirty first) = .victim := by
    rw [bcVisitEntry, if_neg (by decide),
      if_neg (show ¬ ((oneDirty first).cache 0).readers > 0 from Nat.lt_irrefl 0), if_pos (.inr rfl)]
  rw [bcGetFreeEntryLoop, hvisit]

/-- The scan over `oneDirty 0`. -/
theorem bcGetFreeEntry_selects_oneDirty :
    ∃ v c1, bcGetFreeEntryLoop (fun _ => false) (3 * 64) 0 0 (oneDirty 0) = some (v, c1) ∧
      Preferred (fun _ => false) (oneDirty 0) v := by
  have hfree : Free (fun _ => false) (oneDirty 0) 0 := ⟨rfl, rfl⟩
  obtain ⟨v, c1, hloop, -, -, hpreferred, -⟩ := bcGetFreeEntry_selects hfree
  exact ⟨v, c1, hloop, hpreferred⟩

/-- The first sweep takes a dirty entry although entry 1 is clean and in its second chance, and the
call does not return at all if the device does not have the sector of the entry. -/
theorem bcGetFreeEntry_takes_dirty :
    (∃ c', bcGetFreeEntry (fun _ => false) (oneDirty 0) = .ok (0, c') ∧
      ((oneDirty 0).cache 0).isDirty = true ∧ Free (fun _ => false) (oneDirty 0) 1 ∧
      Takeable (oneDirty 0) 1 ∧ ((oneDirty 0).cache 1).isDirty = false) ∧
    Free (fun _ => false) (oneDirty 64) 0 ∧
      bcGetFreeEntry (fun _ => false) (oneDirty 64) = .error (.panic "Access past end of device") := by
  refine ⟨?_, ⟨rfl, rfl⟩, ?_⟩
  · obtain ⟨c', hrun, -⟩ := bcGetFreeEntry_evicts (oneDirty_loop 0) (.refl _) fun _ => by decide
    exact ⟨c', hrun, rfl, ⟨rfl, rfl⟩, .inr rfl, rfl⟩
  · exact bcGetFreeEntry_panics (oneDirty_loop 64) (.refl _) ⟨by decide, rfl⟩ (by decide)

/-! ### Writing -/

theorem find_of_unique (hi : (c.cache i).sector = sector) (h : ∀ j ≠ i, (c.cache j).sector ≠ sector) :
    bcGetEntryBySector c sector = some i := by
  cases hfind : bcGetEntryBySector c sector with
  | none => exact absurd hi (bcGetEntryBySector_none hfind i)
  | some j =>
    by_contra hne
    exact h j (fun hji => hne (by rw [hji])) (bcGetEntryBySector_some hfind)

/-- The two ways in which `bc_get_and_lock_entry` returns: it finds the first entry that holds the
sector, or it gives a victim to a sector that no entry holds. -/
theorem bcGetAndLockEntry_returns {isCacheMiss : Bool}
    (h : bcGetAndLockEntry sector c = .ok ((i, isCacheMiss), c')) :
    isCacheMiss = false ∧ c' = c ∧ bcGetEntryBySector c sector = some i ∨
      isCacheMiss = true ∧ bcGetEntryBySector c sector = none ∧ (c'.cache i).sector = sector ∧
        (∀ j ≠ i, (c'.cache j).sector ≠ sector) ∧
        c'.fsDevice.data sector = c.fsDevice.data sector := by
  rw [bcGetAndLockEntry, get_bind_apply] at h
  cases hfind : bcGetEntryBySector c sector with
  | some j =>
    rw [hfind] at h
    cases h
    exact .inl ⟨rfl, rfl, rfl⟩
  | none =>
    rw [hfind] at h
    obtain ⟨v, c2, hfree, hrest⟩ := bind_ok.mp h
    have habs := bcGetEntryBySector_none hfind
    have hevicted : c.Evicted v c2 := by
      cases hloop : bcGetFreeEntryLoop (fun _ => false) (3 * 64) 0 0 c with
      | none =>
        rw [bcGetFreeEntry, get_bind_apply, hloop] at hfree
        cases hfree
      | some r =>
        obtain ⟨hm, -⟩ := bcGetFreeEntryLoop_some hloop
        by_cases hbad : c.MustFlush r.1 ∧ c.fsDevice.size ≤ (c.cache r.1).sector
        · rw [bcGetFreeEntry_panics hloop hm hbad.1 hbad.2] at hfree
          cases hfree
        · obtain ⟨c3, hrun, hevicted⟩ := bcGetFreeEntry_evicts hloop hm fun hflush =>
            Nat.lt_of_not_le fun hle => hbad ⟨hflush, hle⟩
          obtain ⟨rfl, rfl⟩ := Prod.mk.inj (Except.ok.inj (hrun.symm.trans hfree))
          exact hevicted
    cases hrest
    refine .inr ⟨rfl, rfl, by simp, fun j hj => ?_, hevicted.device sector fun hflushed =>
      habs _ hflushed.2.symm⟩
    rw [Cache.setEntry_cache_ne _ hj, hevicted.sector]
    exact habs j

/-- `bc_block_write` does its write: no step of it is undefined, and when it returns, the entry of the
sector is dirty and holds the bytes of the buffer over those that the sector held before. -/
structure Writes (c : Cache) (sector : Nat) (buffer : List UInt8) (offset : Nat) (isAllowed : Bool) :
    Prop where
  defined : ∀ what, bcBlockWrite sector buffer offset isAllowed c ≠ .error (.undefined what)
  written : ∀ c', bcBlockWrite sector buffer offset isAllowed c = .ok ((), c') →
    ∃ i, bcGetEntryBySector c' sector = some i ∧ (c'.cache i).isDirty = true ∧
      (c'.cache i).data = (c.view sector).copyIn offset buffer

theorem bcBlockWrite_written (hsize : offset + buffer.length ≤ blockSectorSize)
    (h : bcBlockWrite sector buffer offset false c = .ok ((), c')) :
    ∃ i, bcGetEntryBySector c' sector = some i ∧ (c'.cache i).isDirty = true ∧
      (c'.cache i).data = (c.view sector).copyIn offset buffer := by
  rw [bcBlockWrite, if_neg (not_not.mpr hsize)] at h
  simp only [Bool.false_eq_true, if_false] at h
  obtain ⟨⟨i, isCacheMiss⟩, c1, hget, hrest⟩ := bind_ok.mp h
  -- what is left once the data are there
  have hstore : ∀ {c2 : Cache}, bcGetEntryBySector c2 sector = some i →
      (c2.cache i).data.copyIn offset buffer = (c.view sector).copyIn offset buffer →
      (do
        let c ← get
        if (c.cache i).readers ≠ 0 then throw .spin
        set (c.setEntry i
          { c.cache i with
            isInSecondChance := false
            isDirty := true
            data := (c.cache i).data.copyIn offset buffer }) : CacheRoutine Unit) c2 = .ok ((), c') →
      ∃ i, bcGetEntryBySector c' sector = some i ∧ (c'.cache i).isDirty = true ∧
        (c'.cache i).data = (c.view sector).copyIn offset buffer := by
    intro c2 hfind hdata hrun
    rw [get_bind_apply] at hrun
    by_cases hreaders : (c2.cache i).readers ≠ 0
    · rw [if_pos hreaders] at hrun
      cases hrun
    · rw [if_neg hreaders] at hrun
      cases hrun
      refine ⟨i, ?_, by simp, by simpa using hdata⟩
      rw [← hfind, bcGetEntryBySector, bcGetEntryBySector]
      congr 1
      funext j
      by_cases hj : j = i
      · subst hj
        simp
      · rw [Cache.setEntry_cache_ne _ hj]
  rcases bcGetAndLockEntry_returns hget with ⟨rfl, rfl, hfind⟩ | ⟨rfl, hnone, hi, hother, hdevice⟩
  · refine hstore hfind ?_ hrest
    rw [Cache.view, hfind]
  · have hview : c.view sector = c1.fsDevice.data sector := by
      rw [Cache.view, hnone, hdevice]
    have hfind : ∀ {data : SectorData},
        bcGetEntryBySector (c1.setEntry i { c1.cache i with data }) sector = some i := by
      intro data
      refine find_of_unique (by simpa using hi) fun j hj => ?_
      rw [Cache.setEntry_cache_ne _ hj]
      exact hother j hj
    simp only [if_true] at hrest
    by_cases hpart : offset > 0 ∨ buffer.length + offset < blockSectorSize
    · rw [if_pos hpart] at hrest
      obtain ⟨⟨⟩, c2, hfill, hrest⟩ := bind_ok.mp hrest
      obtain rfl := bcFill_ok hfill
      exact hstore hfind (by rw [Cache.setEntry_cache_self, hview]) hrest
    · rw [if_neg hpart] at hrest
      unfold blockSectorSize at hpart hsize
      obtain rfl : offset = 0 := by omega
      refine hstore hfind ?_ hrest
      rw [Cache.setEntry_cache_self]
      exact SectorData.copyIn_full _ _ (by omega)

/-- The fault of a panic, a failed assertion or an endless loop. -/
def Fault.Defined (e : Fault) : Prop := ∀ what, e ≠ .undefined what

theorem bcGetFreeEntry_defined (locked : Fin 64 → Bool) (c : Cache) :
    wp (bcGetFreeEntry locked) (fun _ _ => True) Fault.Defined c := by
  cases hloop : bcGetFreeEntryLoop locked (3 * 64) 0 0 c with
  | none =>
    rw [wp, bcGetFreeEntry, get_bind_apply, hloop]
    exact fun _ h => by cases h
  | some r =>
    obtain ⟨hm, -⟩ := bcGetFreeEntryLoop_some hloop
    by_cases hbad : c.MustFlush r.1 ∧ c.fsDevice.size ≤ (c.cache r.1).sector
    · rw [wp, bcGetFreeEntry_panics hloop hm hbad.1 hbad.2]
      exact fun _ h => by cases h
    · obtain ⟨c', hrun, -⟩ := bcGetFreeEntry_evicts hloop hm fun hflush =>
        Nat.lt_of_not_le fun hle => hbad ⟨hflush, hle⟩
      exact wp_of_ok hrun trivial

theorem bcFill_defined (i : Fin 64) (sector : Nat) (c : Cache) :
    wp (bcFill i sector) (fun _ _ => True) Fault.Defined c := by
  rw [bcFill, wp_bind, wp_get, wp_bind]
  by_cases hlt : sector < c.fsDevice.size
  · exact wp_of_ok (lift_of_ok (Block.blockRead_of_lt hlt) c) trivial
  · rw [wp, lift_of_error (Block.blockRead_of_le (Nat.le_of_not_lt hlt)) c]
    exact fun _ h => by cases h

/-- No step is undefined while `is_allowed` is false on entry. -/
theorem bcBlockWrite_defined (sector : Nat) (buffer : List UInt8) (offset : Nat) (c : Cache) :
    wp (bcBlockWrite sector buffer offset false) (fun _ _ => True) Fault.Defined c := by
  -- what is left once there is an entry with data
  have hstore : ∀ (i : Fin 64) (c : Cache), wp (do
      let c ← get
      if (c.cache i).readers ≠ 0 then throw .spin
      set (c.setEntry i
        { c.cache i with
          isInSecondChance := false
          isDirty := true
          data := (c.cache i).data.copyIn offset buffer }) : CacheRoutine Unit)
      (fun _ _ => True) Fault.Defined c := by
    intro i c
    rw [wp_bind, wp_get]
    by_cases hreaders : (c.cache i).readers ≠ 0
    · rw [if_pos hreaders]
      exact fun _ h => by cases h
    · rw [if_neg hreaders]
      trivial
  rw [bcBlockWrite]
  by_cases hsize : offset + buffer.length ≤ blockSectorSize
  · rw [if_neg (not_not.mpr hsize), if_neg (by decide), wp_bind, bcGetAndLockEntry, wp_bind, wp_get]
    cases hfind : bcGetEntryBySector c sector with
    | some i => exact hstore i c
    | none =>
      rw [wp_bind]
      refine (bcGetFreeEntry_defined _ c).mono fun i c1 _ => ?_
      rw [wp_bind, wp_modify, wp_pure]
      dsimp only
      rw [if_pos rfl]
      by_cases hpart : offset > 0 ∨ buffer.length + offset < blockSectorSize
      · rw [if_pos hpart, wp_bind]
        exact (bcFill_defined i sector _).mono fun _ c2 _ => hstore i c2
      · rw [if_neg hpart, wp_bind, wp_modify]
        exact hstore i _
  · rw [if_pos hsize]
    exact fun _ h => by cases h

/-- `bc_block_write` does its write exactly if the uninitialised `is_allowed` is false on entry. -/
theorem bcBlockWrite_writes_iff (c : Cache) (sector : Nat) (isAllowed : Bool)
    (hsize : offset + buffer.length ≤ blockSectorSize) :
    Writes c sector buffer offset isAllowed ↔ isAllowed = false := by
  constructor
  · intro h
    by_contra htrue
    rw [Bool.not_eq_false] at htrue
    subst htrue
    refine h.defined "cache_entry is null" ?_
    rw [bcBlockWrite, if_neg (not_not.mpr hsize)]
    rfl
  · rintro rfl
    exact ⟨fun what h => (bcBlockWrite_defined sector buffer offset c).of_error h what rfl,
      fun _ h => bcBlockWrite_written hsize h⟩

/-- A byte is written to sector 0 of a fresh cache. -/
theorem bcBlockWrite_writes_init : Writes (bcInit (fun _ => .zeros) (oneDirty 0).fsDevice) 0 [1] 0
    false := (bcBlockWrite_writes_iff _ 0 false (by decide)).mpr rfl

/-- The same with another value on the stack. -/
theorem bcBlockWrite_skips_init : ¬ Writes (bcInit (fun _ => .zeros) (oneDirty 0).fsDevice) 0 [1] 0
    true := fun h => h.defined "cache_entry is null" rfl

end Pintos
