import Pintos.Filesys.CacheSpec
import Pintos.Library.Weakest

/-! The buffer cache on any device, also where an entry holds a sector that the device does not have.
`Cache.Sound` is what every call keeps that returns, and the lemmas say what a call that returned has
done to the sectors a reader sees. -/

namespace Pintos

open Routine

namespace Cache

/-- The invariant of the entries, whatever sectors they hold. -/
structure Sound (c : Cache) : Prop where
  unique : c.Unique
  clean : ∀ i, (c.cache i).sector ≠ emptySector → (c.cache i).isDirty = false →
    (c.cache i).data = c.fsDevice.data (c.cache i).sector
  idle : ∀ i, (c.cache i).readers = 0

/-- The cache `c'` is sound and shows what `c` shows, but for `data` in `sector`. -/
structure Put (c : Cache) (sector : Nat) (data : SectorData) (c' : Cache) : Prop where
  sound : c'.Sound
  self : sector ≠ emptySector → c'.view sector = data
  others : ∀ t, t ≠ emptySector → t ≠ sector → c'.view t = c.view t

/-- The cache `c'` is sound and shows what `c` shows. -/
structure Same (c c' : Cache) : Prop where
  sound : c'.Sound
  view : ∀ t, t ≠ emptySector → c'.view t = c.view t

variable {c c' c1 : Cache} {sector t : Nat} {data : SectorData} {i v : Fin 64}
  {e : BufferCacheEntry}

theorem Same.trans (h : c.Same c1) (h' : c1.Same c') : c.Same c' :=
  ⟨h'.sound, fun t ht => (h'.view t ht).trans (h.view t ht)⟩

theorem Same.put (h : c.Same c1) (h' : c1.Put sector data c') : c.Put sector data c' :=
  ⟨h'.sound, h'.self, fun t ht hts => (h'.others t ht hts).trans (h.view t ht)⟩

theorem Wf.sound (h : c.Wf) : c.Sound :=
  ⟨h.unique, fun i => (h.entry i).clean, fun i => (h.entry i).idle⟩

namespace Sound

theorem marksOnly (h : c.Sound) (hm : MarksOnly c c') : c.Same c' := by
  have hunique : c'.Unique := by
    intro i j
    rw [hm.sector i, hm.sector j]
    exact h.unique i j
  refine ⟨⟨hunique, fun i => ?_, fun i => (hm.readers i).trans (h.idle i)⟩, fun t ht => ?_⟩
  · rw [hm.sector i, hm.dirty i, hm.data i, hm.device]
    exact h.clean i
  · refine view_congr h.unique hunique ht (fun i => by rw [hm.sector i]) (fun i _ => hm.data i) ?_
    rw [hm.device]
    exact fun _ => rfl

theorem flushed (h : c.Sound) (hi : (c.cache i).sector ≠ emptySector) : c.Same (c.flushed i) := by
  have hunique : (c.flushed i).Unique := by
    intro j k
    simpa using h.unique j k
  refine ⟨⟨hunique, fun j hj hd => ?_, fun j => by simpa using h.idle j⟩, fun t ht => ?_⟩
  · simp only [flushed_sector, flushed_data, flushed_fsDevice, Block.store_data, flushed_dirty]
      at hj hd ⊢
    by_cases hji : j = i
    · subst hji
      simp
    · have hsec : (c.cache j).sector ≠ (c.cache i).sector := fun he => hji (h.unique j i hj he)
      rw [if_neg hji] at hd
      rw [Function.update_of_ne hsec]
      exact h.clean j hj hd
  · refine view_congr h.unique hunique ht (fun j => by simp) (fun j _ => by simp) fun habs => ?_
    rw [flushed_fsDevice, Block.store_data, Function.update_of_ne (habs i).symm]

/-- An entry is stored back with the sector that it held. -/
theorem putEntry (h : c.Sound) (hi : (c.cache i).sector = sector) (hsector : e.sector = sector)
    (hreaders : e.readers = 0)
    (hclean : sector ≠ emptySector → e.isDirty = false →
      e.data = c.fsDevice.data sector) : c.Put sector e.data (c.setEntry i e) := by
  have hsec : ∀ j, ((c.setEntry i e).cache j).sector = (c.cache j).sector := by
    intro j
    by_cases hj : j = i
    · rw [hj, setEntry_cache_self, hsector, hi]
    · rw [setEntry_cache_ne c hj]
  have hunique : (c.setEntry i e).Unique := by
    intro j k
    rw [hsec j, hsec k]
    exact h.unique j k
  refine ⟨⟨hunique, fun j hj hd => ?_, fun j => ?_⟩, fun hne => ?_, fun t ht hts => ?_⟩
  · by_cases hji : j = i
    · rw [hji, setEntry_cache_self] at hj hd ⊢
      rw [hsector] at hj ⊢
      exact hclean hj hd
    · rw [setEntry_cache_ne c hji] at hj hd ⊢
      exact h.clean j hj hd
  · by_cases hji : j = i
    · rw [hji, setEntry_cache_self, hreaders]
    · rw [setEntry_cache_ne c hji]
      exact h.idle j
  · rw [view_of_holds hunique ((hsec i).trans hi) hne, setEntry_cache_self]
  · refine view_congr h.unique hunique ht (fun j => by rw [hsec j]) (fun j hj => ?_) fun _ => rfl
    rw [setEntry_cache_ne c fun hji => hts (by rw [← hj, hji, hi])]

/-- A victim, which is empty or clean, takes a sector that no entry holds. -/
theorem takeEntry (h : c.Sound)
    (hvictim : (c.cache v).sector ≠ emptySector → (c.cache v).isDirty = false)
    (habs : ∀ i, (c.cache i).sector ≠ sector) (hsector : e.sector = sector)
    (hreaders : e.readers = 0)
    (hclean : sector ≠ emptySector → e.isDirty = false →
      e.data = c.fsDevice.data sector) : c.Put sector e.data (c.setEntry v e) := by
  have hself : (c.setEntry v e).cache v = e := setEntry_cache_self ..
  have hother : ∀ j, j ≠ v → (c.setEntry v e).cache j = c.cache j := fun j hj =>
    setEntry_cache_ne c hj e
  have hunique : (c.setEntry v e).Unique := by
    intro j k hj hjk
    by_cases hjv : j = v <;> by_cases hkv : k = v
    · rw [hjv, hkv]
    · rw [hjv, hself, hother k hkv, hsector] at hjk
      exact absurd hjk.symm (habs k)
    · rw [hkv, hself, hother j hjv, hsector] at hjk
      exact absurd hjk (habs j)
    · rw [hother j hjv] at hj hjk
      rw [hother k hkv] at hjk
      exact h.unique j k hj hjk
  refine ⟨⟨hunique, fun j hj hd => ?_, fun j => ?_⟩, fun hne => ?_, fun t ht hts => ?_⟩
  · by_cases hjv : j = v
    · rw [hjv, hself, hsector] at hj ⊢
      rw [hjv, hself] at hd
      exact hclean hj hd
    · rw [hother j hjv] at hj hd ⊢
      exact h.clean j hj hd
  · by_cases hjv : j = v
    · rw [hjv, hself, hreaders]
    · rw [hother j hjv]
      exact h.idle j
  · rw [view_of_holds hunique (by rw [hself, hsector]) hne, hself]
  · -- what only the victim held is seen on the device
    by_cases htv : (c.cache v).sector = t
    · have hnone : ∀ j, ((c.setEntry v e).cache j).sector ≠ t := by
        intro j hj
        by_cases hjv : j = v
        · rw [hjv, hself, hsector] at hj
          exact hts hj.symm
        · rw [hother j hjv] at hj
          exact hjv (h.unique j v (by rwa [hj]) (hj.trans htv.symm))
      have hne : (c.cache v).sector ≠ emptySector := by rwa [htv]
      rw [view_of_absent hnone, view_of_holds h.unique htv ht, h.clean v hne (hvictim hne), htv]
      rfl
    · refine view_congr h.unique hunique ht (fun j => ?_) (fun j hj => ?_) fun _ => rfl
      · by_cases hjv : j = v
        · rw [hjv, hself, hsector]
          exact iff_of_false (Ne.symm hts) htv
        · rw [hother j hjv]
      · rw [hother j fun hjv => htv (hjv ▸ hj)]

end Sound

end Cache

/-! ### Calls that returned -/

variable {c c' : Cache} {sector offset size : Nat} {i v : Fin 64} {bytes buffer : List UInt8}

theorem bcFlush_ok (h : bcFlush i c = .ok ((), c')) : c' = c.flushed i := by
  by_cases hlt : (c.cache i).sector < c.fsDevice.size
  · rw [bcFlush_of_lt hlt] at h
    cases h
    rfl
  · rw [bcFlush_of_le (Nat.le_of_not_lt hlt)] at h
    nomatch h

theorem bcFill_ok (h : bcFill i sector c = .ok ((), c')) :
    c' = c.setEntry i { c.cache i with data := c.fsDevice.data sector } := by
  rw [bcFill, get_bind_apply] at h
  obtain ⟨data, c1, hread, hset⟩ := bind_ok.mp h
  obtain rfl := lift_state hread
  have hdata := lift_ok hread
  cases hset
  rw [Block.blockRead, Block.checkSector] at hdata
  split_ifs at hdata
  · cases hdata
  · cases hdata
    rfl

theorem bcGetFreeEntry_ok (hc : c.Sound) (h : bcGetFreeEntry (fun _ => false) c = .ok (v, c')) :
    c.Same c' ∧ (∀ i, (c'.cache i).sector = (c.cache i).sector) ∧
      ((c'.cache v).sector ≠ emptySector → (c'.cache v).isDirty = false) := by
  rw [bcGetFreeEntry, get_bind_apply] at h
  cases hloop : bcGetFreeEntryLoop (fun _ => false) (3 * 64) 0 0 c with
  | none =>
    rw [hloop] at h
    cases h
  | some r =>
    obtain ⟨v', c1⟩ := r
    have hm := (bcGetFreeEntryLoop_some hloop).1
    have hsame := hc.marksOnly hm
    rw [hloop] at h
    simp only [set_bind_apply] at h
    by_cases hd : (c1.cache v').sector ≠ emptySector ∧ (c1.cache v').isDirty = true
    · rw [if_pos hd] at h
      obtain ⟨⟨⟩, c2, hflush, hpure⟩ := bind_ok.mp h
      cases hpure
      obtain rfl := bcFlush_ok hflush
      refine ⟨hsame.trans (hsame.sound.flushed hd.1), fun i => ?_, fun _ => ?_⟩
      · rw [Cache.flushed_sector]
        exact hm.sector i
      · rw [Cache.flushed_dirty, if_pos rfl]
    · rw [if_neg hd] at h
      cases h
      refine ⟨hsame, hm.sector, fun hne => ?_⟩
      by_contra hdirty
      exact hd ⟨hne, by simpa using hdirty⟩

/-- The two ways in which `bc_get_and_lock_entry` returns. -/
theorem bcGetAndLockEntry_ok {isCacheMiss : Bool} (hc : c.Sound)
    (h : bcGetAndLockEntry sector c = .ok ((i, isCacheMiss), c')) :
    isCacheMiss = false ∧ c' = c ∧ (c.cache i).sector = sector ∨
      isCacheMiss = true ∧ ∃ c1, c.Same c1 ∧ (∀ j, (c1.cache j).sector ≠ sector) ∧
        ((c1.cache i).sector ≠ emptySector → (c1.cache i).isDirty = false) ∧
        c' = c1.setEntry i { c1.cache i with sector, isDirty := false } := by
  rw [bcGetAndLockEntry, get_bind_apply] at h
  cases hfind : bcGetEntryBySector c sector with
  | some j =>
    rw [hfind] at h
    cases h
    exact .inl ⟨rfl, rfl, bcGetEntryBySector_some hfind⟩
  | none =>
    rw [hfind] at h
    obtain ⟨j, c1, hfree, hrest⟩ := bind_ok.mp h
    obtain ⟨hsame, hsector, hvictim⟩ := bcGetFreeEntry_ok hc hfree
    cases hrest
    refine .inr ⟨rfl, c1, hsame, fun k => ?_, hvictim, rfl⟩
    rw [hsector k]
    exact bcGetEntryBySector_none hfind k

/-- `bc_block_read` changes nothing that is shown. -/
theorem bcBlockRead_ok (hc : c.Sound) (h : bcBlockRead sector offset size c = .ok (bytes, c')) :
    c.Same c' ∧ (sector ≠ emptySector → bytes = (c.view sector).copyOut offset size) := by
  by_cases ho : offset + size ≤ blockSectorSize
  · rw [bcBlockRead, if_neg (not_not.mpr ho)] at h
    obtain ⟨⟨i, isCacheMiss⟩, c1, hget, hrest⟩ := bind_ok.mp h
    rcases bcGetAndLockEntry_ok hc hget with
      ⟨rfl, rfl, hi⟩ | ⟨rfl, c2, hsame, habs, hvictim, rfl⟩
    · simp only [Bool.false_eq_true, if_false, modify_bind_apply, get_bind_apply] at hrest
      cases hrest
      have hput := hc.putEntry (e := { c1.cache i with isInSecondChance := false }) hi hi
        (hc.idle i) fun hne hd => by
          rw [← hi] at hne ⊢
          exact hc.clean i hne hd
      have hview : sector ≠ emptySector → c1.view sector = (c1.cache i).data :=
        fun hne => Cache.view_of_holds hc.unique hi hne
      refine ⟨⟨hput.sound, fun t ht => ?_⟩, fun hne => ?_⟩
      · by_cases hts : t = sector
        · subst hts
          rw [hput.self ht, hview ht]
        · exact hput.others t ht hts
      · rw [hview hne, Cache.setEntry_cache_self]
    · simp only [if_true] at hrest
      obtain ⟨⟨⟩, c3, hfill, hrest⟩ := bind_ok.mp hrest
      obtain rfl := bcFill_ok hfill
      rw [modify_bind_apply, get_bind_apply] at hrest
      simp only [Cache.setEntry_setEntry, Cache.setEntry_cache_self] at hrest
      cases hrest
      have hput := hsame.sound.takeEntry hvictim habs (e := { c2.cache i with
        sector, isDirty := false, data := c2.fsDevice.data sector, isInSecondChance := false })
        rfl (hsame.sound.idle i) fun _ _ => rfl
      have hview : sector ≠ emptySector → c2.fsDevice.data sector = c.view sector := fun hne => by
        rw [← hsame.view sector hne, Cache.view_of_absent habs]
      refine ⟨⟨hput.sound, fun t ht => ?_⟩, fun hne => ?_⟩
      · by_cases hts : t = sector
        · subst hts
          exact (hput.self ht).trans (hview ht)
        · exact (hput.others t ht hts).trans (hsame.view t ht)
      · rw [← hview hne]
        rfl
  · rw [bcBlockRead, if_pos ho] at h
    cases h

/-- `bc_block_write` copies its bytes to the sector. -/
theorem bcBlockWrite_ok (hc : c.Sound)
    (h : bcBlockWrite sector buffer offset false c = .ok ((), c')) :
    c.Put sector ((c.view sector).copyIn offset buffer) c' := by
  by_cases ho : offset + buffer.length ≤ blockSectorSize
  · rw [bcBlockWrite, if_neg (not_not.mpr ho)] at h
    simp only [Bool.false_eq_true, if_false] at h
    obtain ⟨⟨i, isCacheMiss⟩, c1, hget, hrest⟩ := bind_ok.mp h
    rcases bcGetAndLockEntry_ok hc hget with
      ⟨rfl, rfl, hi⟩ | ⟨rfl, c2, hsame, habs, hvictim, rfl⟩
    · simp only [Bool.false_eq_true, if_false, get_bind_apply] at hrest
      rw [if_neg (not_not.mpr (hc.idle i))] at hrest
      cases hrest
      have hput := hc.putEntry (e := { c1.cache i with
        isInSecondChance := false, isDirty := true,
        data := (c1.cache i).data.copyIn offset buffer }) hi hi (hc.idle i) (by simp)
      refine ⟨hput.sound, fun hne => ?_, hput.others⟩
      rw [hput.self hne, Cache.view_of_holds hc.unique hi hne]
    · have hview : sector ≠ emptySector → c2.fsDevice.data sector = c.view sector := fun hne => by
        rw [← hsame.view sector hne, Cache.view_of_absent habs]
      -- the data before the copy agree with the sector wherever the copy does not reach
      have hdone : ∀ data : SectorData, (sector ≠ emptySector →
          data.copyIn offset buffer = (c.view sector).copyIn offset buffer) →
          c.Put sector ((c.view sector).copyIn offset buffer) (c2.setEntry i { c2.cache i with
            sector, isInSecondChance := false, isDirty := true,
            data := data.copyIn offset buffer }) := by
        intro data hdata
        have hput := hsame.sound.takeEntry hvictim habs (e := { c2.cache i with
          sector, isInSecondChance := false, isDirty := true,
          data := data.copyIn offset buffer }) rfl (hsame.sound.idle i) (by simp)
        refine hsame.put ⟨hput.sound, fun hne => ?_, hput.others⟩
        rw [hput.self hne, hdata hne]
      simp only [if_true] at hrest
      by_cases hpart : offset > 0 ∨ buffer.length + offset < blockSectorSize
      · rw [if_pos hpart] at hrest
        obtain ⟨⟨⟩, c3, hfill, hrest⟩ := bind_ok.mp hrest
        obtain rfl := bcFill_ok hfill
        simp only [get_bind_apply, Cache.setEntry_setEntry, Cache.setEntry_cache_self] at hrest
        rw [if_neg (not_not.mpr (hsame.sound.idle i))] at hrest
        cases hrest
        exact hdone (c2.fsDevice.data sector) fun hne => by rw [hview hne]
      · rw [if_neg hpart] at hrest
        simp only [modify_bind_apply, get_bind_apply, Cache.setEntry_setEntry,
          Cache.setEntry_cache_self] at hrest
        rw [if_neg (not_not.mpr (hsame.sound.idle i))] at hrest
        cases hrest
        unfold blockSectorSize at hpart ho
        obtain rfl : offset = 0 := by omega
        exact hdone SectorData.zeros fun _ => SectorData.copyIn_full _ _ (by omega)
  · rw [bcBlockWrite, if_pos ho] at h
    cases h

/-- `bc_remove` keeps the entries sound. -/
theorem bcRemove_ok (hc : c.Sound) (h : bcRemove sector c = .ok ((), c')) : c'.Sound := by
  rw [bcRemove, get_bind_apply] at h
  cases hfind : bcGetEntryBySector c sector with
  | none =>
    rw [hfind] at h
    cases h
    exact hc
  | some i =>
    rw [hfind] at h
    cases h
    have hother : ∀ j, j ≠ i →
        (c.setEntry i { c.cache i with sector := emptySector }).cache j = c.cache j :=
      fun j hj => Cache.setEntry_cache_ne c hj _
    refine ⟨fun j k hj hjk => ?_, fun j hj hd => ?_, fun j => ?_⟩
    · by_cases hji : j = i
      · rw [hji, Cache.setEntry_cache_self] at hj
        exact absurd rfl hj
      · by_cases hki : k = i
        · rw [hki, Cache.setEntry_cache_self] at hjk
          exact absurd hjk hj
        · rw [hother j hji] at hj hjk
          rw [hother k hki] at hjk
          exact hc.unique j k hj hjk
    · by_cases hji : j = i
      · rw [hji, Cache.setEntry_cache_self] at hj
        exact absurd rfl hj
      · rw [hother j hji] at hj hd ⊢
        exact hc.clean j hj hd
    · by_cases hji : j = i
      · rw [hji, Cache.setEntry_cache_self]
        exact hc.idle i
      · rw [hother j hji]
        exact hc.idle j

end Pintos
