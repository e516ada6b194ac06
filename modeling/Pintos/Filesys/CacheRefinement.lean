import Pintos.Filesys.CacheSpec

/-! Runs of the buffer cache, one call after another.  With `bc_remove` among the calls, a run
keeps its writes on the device exactly when no flush daemon pass meets an empty entry that is
still dirty.  Without `bc_remove`, the cache refines the bare disk: the calls return what the
uncached code returns, and a flush leaves the device as the uncached code would have. -/

namespace Pintos

/-- A call of the cache's interface, or a pass of the flush daemon.  A write carries the value that
the uninitialised local `is_allowed` happens to have. -/
inductive CacheOp where
  | read (sector offset size : Nat)
  | write (sector : Nat) (buffer : List UInt8) (offset : Nat) (isAllowed : Bool)
  | remove (sector : Nat)
  | flushAll
  | daemonFlush

namespace CacheOp

/-- The call, with the bytes it returns. -/
def exec : CacheOp → CacheRoutine (List UInt8)
  | read sector offset size => bcBlockRead sector offset size
  | write sector buffer offset isAllowed => do
    bcBlockWrite sector buffer offset isAllowed
    pure []
  | remove sector => do bcRemove sector; pure []
  | flushAll => do bcFlushAll; pure []
  | daemonFlush => do bcDaemonFlush; pure []

/-- The same call in the code without a cache, where `bc_remove` and `bc_flush_all` are empty and
no daemon runs. -/
def execUncached : CacheOp → Routine Fault Block (List UInt8)
  | read sector offset size => uncachedBlockRead sector offset size
  | write sector buffer offset _ => do uncachedBlockWrite sector buffer offset; pure []
  | remove _ | flushAll | daemonFlush => pure []

/-- The call names a sector of a device of `size` sectors and stays inside the sector. -/
def Valid (size : Nat) : CacheOp → Prop
  | read sector offset len => sector < size ∧ offset + len ≤ 512
  | write sector buffer offset _ => sector < size ∧ offset + buffer.length ≤ 512
  | remove sector => sector < size
  | flushAll | daemonFlush => True

/-- A valid call other than `bc_remove`, and other than a write that skips its loop. -/
def Plain (size : Nat) : CacheOp → Prop
  | read sector offset len => sector < size ∧ offset + len ≤ 512
  | write sector buffer offset isAllowed =>
    sector < size ∧ offset + buffer.length ≤ 512 ∧ isAllowed = false
  | remove _ => False
  | flushAll | daemonFlush => True

end CacheOp

/-! ### Writes stay on the device -/

/-- How a call from a well-formed cache ends: well; or with a null `cache_entry`, when a write
skipped its loop; or in `check_sector`, when a daemon pass met a dirty empty entry. -/
theorem CacheOp.exec_cases {c : Cache} (h : c.Wf) {op : CacheOp} (hv : op.Valid c.fsDevice.size) :
    (∃ bytes c', op.exec c = .ok (bytes, c') ∧ c'.Wf ∧ c'.fsDevice.size = c.fsDevice.size ∧
      (op = .daemonFlush → c.EmptyClean)) ∨
    op ≠ .daemonFlush ∧ op.exec c = .error (.undefined "cache_entry is null") ∨
    op = .daemonFlush ∧ ¬ c.EmptyClean ∧
      op.exec c = .error (.panic "Access past end of device") := by
  cases op with
  | read sector offset size =>
    obtain ⟨c', hrun, hsees⟩ := bcBlockRead_spec h hv.1 hv.2
    exact Or.inl ⟨_, c', hrun, hsees.wf, hsees.size, (by simp)⟩
  | write sector buffer offset isAllowed =>
    cases isAllowed with
    | false =>
      obtain ⟨c', hrun, hwrote⟩ := bcBlockWrite_spec h hv.1 hv.2
      exact Or.inl ⟨[], c', by rw [exec, Routine.bind_of_ok hrun]; rfl, hwrote.wf, hwrote.size,
        (by simp)⟩
    | true =>
      refine Or.inr (Or.inl ⟨(by simp), ?_⟩)
      have hoff : offset + buffer.length ≤ blockSectorSize := hv.2
      rw [exec, Routine.bind_of_error]
      rw [bcBlockWrite, if_neg (not_not.mpr hoff)]
      rfl
  | remove sector =>
    obtain ⟨c', hrun, hremoved⟩ := bcRemove_spec h hv
    exact Or.inl ⟨[], c', by rw [exec, Routine.bind_of_ok hrun]; rfl, hremoved.wf,
      by rw [hremoved.device], (by simp)⟩
  | flushAll =>
    obtain ⟨c', hrun, hsees, -⟩ := bcFlushAll_spec h
    exact Or.inl ⟨[], c', by rw [exec, Routine.bind_of_ok hrun]; rfl, hsees.wf, hsees.size, (by simp)⟩
  | daemonFlush =>
    by_cases he : c.EmptyClean
    · obtain ⟨c', hrun, hsees, -⟩ := bcDaemonFlush_spec h he
      exact Or.inl ⟨[], c', by rw [exec, Routine.bind_of_ok hrun]; rfl, hsees.wf, hsees.size,
        fun _ => he⟩
    · exact Or.inr (Or.inr ⟨rfl, he, by rw [exec, Routine.bind_of_error (bcDaemonFlush_panics he)]⟩)

/-- Every daemon pass of the run `ops` from `c` starts in a cache without dirty empty entries. -/
def DaemonMeetsNoDirtyEmpty (ops : List CacheOp) (c : Cache) : Prop :=
  ∀ m, Routine.Takes CacheOp.exec ops c .daemonFlush m →
    ∀ i, (m.cache i).sector = emptySector → (m.cache i).isDirty = false

/-- The run `ops` from `c` ends without a call of `check_sector` that panics. -/
def NeverPastDevice (ops : List CacheOp) (c : Cache) : Prop :=
  Routine.execAll CacheOp.exec ops c ≠ .error (.panic "Access past end of device")

/-- From any well-formed cache, a run of valid calls stays on the device exactly when its daemon
passes meet no dirty empty entry. -/
theorem neverPastDevice_iff {ops : List CacheOp} {c : Cache} (h : c.Wf)
    (hv : ∀ op ∈ ops, op.Valid c.fsDevice.size) :
    NeverPastDevice ops c ↔ DaemonMeetsNoDirtyEmpty ops c := by
  induction ops generalizing c with
  | nil => exact iff_of_true nofun fun m htakes => absurd htakes Routine.not_takes_nil
  | cons op ops ih =>
    rcases CacheOp.exec_cases h (hv op List.mem_cons_self) with
      ⟨bytes, c1, hop, hwf, hsize, hclean⟩ | ⟨hne, hop⟩ | ⟨rfl, he, hop⟩
    · have hv1 : ∀ o ∈ ops, o.Valid c1.fsDevice.size := fun o ho => by
        rw [hsize]
        exact hv o (List.mem_cons_of_mem _ ho)
      have hruns : NeverPastDevice (op :: ops) c ↔ NeverPastDevice ops c1 := by
        rw [NeverPastDevice, NeverPastDevice, Routine.execAll, Routine.bind_of_ok hop,
          Routine.bind_apply]
        cases Routine.execAll CacheOp.exec ops c1 <;> simp
      rw [hruns, ih hwf hv1]
      constructor
      · intro hmeets m htakes
        rcases (Routine.takes_cons_of_ok hop).mp htakes with ⟨hdaemon, rfl⟩ | htakes
        · exact hclean hdaemon.symm
        · exact hmeets m htakes
      · intro hmeets m htakes
        exact hmeets m ((Routine.takes_cons_of_ok hop).mpr (Or.inr htakes))
    · refine iff_of_true ?_ fun m htakes => ?_
      · rw [NeverPastDevice, Routine.execAll, Routine.bind_of_error hop]
        simp
      · exact absurd ((Routine.takes_cons_of_error hop).mp htakes).1.symm hne
    · refine iff_of_false (fun hrun => hrun ?_) fun hmeets => ?_
      · rw [Routine.execAll, Routine.bind_of_error hop]
      · exact he (hmeets c ((Routine.takes_cons_of_error hop).mpr ⟨rfl, rfl⟩))

/-- From `bc_init` on, no call writes past the end of the device (where `check_sector` panics) if
and only if no pass of the flush daemon starts while an empty entry is dirty. -/
theorem cache_writes_on_device_iff (memory : Fin 64 → SectorData) (fsDevice : Block)
    (ops : List CacheOp) (hv : ∀ op ∈ ops, op.Valid fsDevice.size) :
    NeverPastDevice ops (bcInit memory fsDevice) ↔
      DaemonMeetsNoDirtyEmpty ops (bcInit memory fsDevice) :=
  neverPastDevice_iff (bcInit_wf memory fsDevice) hv

/-- A device of one sector of zeros. -/
def oneSectorDevice : Block where
  size := 1
  size_lt := by decide
  data _ := SectorData.zeros

/-- `cache_writes_on_device_iff` for a run of a write and a daemon pass. -/
theorem cache_writes_on_device_iff_write_flush :
    NeverPastDevice [.write 0 [7] 0 false, .daemonFlush]
      (bcInit (fun _ => SectorData.zeros) oneSectorDevice) ↔
    DaemonMeetsNoDirtyEmpty [.write 0 [7] 0 false, .daemonFlush]
      (bcInit (fun _ => SectorData.zeros) oneSectorDevice) :=
  cache_writes_on_device_iff _ _ _ (by simp [CacheOp.Valid, oneSectorDevice])

/-- A sector is written, removed while its entry is dirty, and then the daemon runs: it writes
sector `EMPTY_SECTOR`, and `check_sector` panics. -/
theorem daemon_writes_past_device :
    (∀ op ∈ [CacheOp.write 0 [7] 0 false, .remove 0, .daemonFlush],
      op.Valid oneSectorDevice.size) ∧
    Routine.execAll CacheOp.exec [.write 0 [7] 0 false, .remove 0, .daemonFlush]
      (bcInit (fun _ => SectorData.zeros) oneSectorDevice) =
        .error (.panic "Access past end of device") := by
  refine ⟨by simp [CacheOp.Valid, oneSectorDevice], ?_⟩
  rfl

/-! ### The cache refines the bare disk -/

/-- The caches that can exist at some moment while a plain call runs from `c`.  The statement of
`bc_get_and_lock_entry` that assigns a missed sector is the only one that changes the `sector` of an
entry; the others store other fields of an entry or write the device. -/
inductive Moment (c : Cache) : Cache → Prop where
  | start : Moment c c
  | fetched {sector : Nat} {r : Fin 64 × Bool} {m : Cache} (hs : sector < c.fsDevice.size)
      (hrun : bcGetAndLockEntry sector c = .ok (r, m)) : Moment c m
  | stores {m : Cache} (hm : Moment c m) (i : Fin 64) (entry : BufferCacheEntry)
      (hentry : entry.sector = (m.cache i).sector) : Moment c (m.setEntry i entry)
  | writes {m : Cache} (hm : Moment c m) (fsDevice : Block) : Moment c { m with fsDevice }

theorem Moment.unique {c m : Cache} (h : c.Wf) (hm : Moment c m) : m.Unique := by
  induction hm with
  | start => exact h.unique
  | fetched hs hrun =>
    obtain ⟨i, isCacheMiss, c', hrun', hf⟩ := bcGetAndLockEntry_spec h hs
    cases hrun.symm.trans hrun'
    exact hf.unique
  | @stores m hm i entry hentry ih =>
    have hsec : ∀ j, ((m.setEntry i entry).cache j).sector = (m.cache j).sector := fun j => by
      by_cases hj : j = i
      · subst hj
        rw [Cache.setEntry_cache_self, hentry]
      · rw [Cache.setEntry_cache_ne _ hj]
    intro j k
    rw [hsec j, hsec k]
    exact ih j k
  | writes hm fsDevice ih => exact ih

/-- The bare disk `b` holds what readers see in the cache `c`. -/
structure Refines (c : Cache) (b : Block) : Prop where
  wf : c.Wf
  emptyClean : c.EmptyClean
  size : c.fsDevice.size = b.size
  view : ∀ t < b.size, c.view t = b.data t
  beyond : ∀ t, b.size ≤ t → c.fsDevice.data t = b.data t

namespace Refines

theorem sees {c c' : Cache} {b : Block} (h : Refines c b) (hsees : c.Sees c') : Refines c' b where
  wf := hsees.wf
  emptyClean := hsees.emptyClean h.emptyClean
  size := hsees.size.trans h.size
  view t ht := (hsees.view t (by rwa [h.size])).trans (h.view t ht)
  beyond t ht := by
    rcases hsees.device t with heq | ⟨hlt, -⟩
    · rw [heq]
      exact h.beyond t ht
    · rw [h.size] at hlt
      omega

theorem wrote {c c' : Cache} {b : Block} {sector : Nat} {data : SectorData} (h : Refines c b)
    (hs : sector < b.size) (hwrote : c.Wrote sector data c') :
    Refines c' (b.store sector data) where
  wf := hwrote.wf
  emptyClean := hwrote.emptyClean h.emptyClean
  size := hwrote.size.trans h.size
  view t ht := by
    by_cases hts : t = sector
    · subst hts
      rw [hwrote.view_self, Block.store_data, Function.update_self]
    · rw [Block.store_data, Function.update_of_ne hts]
      exact (hwrote.view_ne t (by rwa [h.size]) hts).trans (h.view t ht)
  beyond t ht := by
    rw [Block.store_size] at ht
    rw [Block.store_data, Function.update_of_ne (by omega)]
    rcases hwrote.device t with heq | ⟨hlt, -⟩
    · rw [heq]
      exact h.beyond t ht
    · rw [h.size] at hlt
      omega

/-- A flush pass that copies every sector out leaves exactly the bare disk. -/
theorem device_eq {c c' : Cache} {b : Block} (h : Refines c b) (hsees : c.Sees c')
    (hall : ∀ t < c.fsDevice.size, c'.fsDevice.data t = c.view t) : c'.fsDevice = b := by
  have h' := h.sees hsees
  refine Block.ext h'.size (funext fun t => ?_)
  by_cases ht : t < b.size
  · rw [hall t (by rwa [h.size]), h.view t ht]
  · exact h'.beyond t (by omega)

end Refines

theorem bcInit_refines (memory : Fin 64 → SectorData) (fsDevice : Block) :
    Refines (bcInit memory fsDevice) fsDevice :=
  ⟨bcInit_wf memory fsDevice, bcInit_emptyClean memory fsDevice, rfl,
    fun _ ht => bcInit_view memory fsDevice ht, fun _ _ => rfl⟩

theorem uncachedBlockRead_of_lt {b : Block} {sector offset size : Nat} (hs : sector < b.size)
    (ho : offset + size ≤ 512) :
    uncachedBlockRead sector offset size b = .ok ((b.data sector).copyOut offset size, b) := by
  rw [uncachedBlockRead, if_neg (by simpa [blockSectorSize] using ho)]
  beta_reduce
  rw [Routine.get_bind_apply, Routine.bind_of_ok (Routine.lift_of_ok (Block.blockRead_of_lt hs) b)]
  rfl

theorem uncachedBlockWrite_of_lt {b : Block} {sector offset : Nat} {buffer : List UInt8}
    (hs : sector < b.size) (ho : offset + buffer.length ≤ 512) :
    uncachedBlockWrite sector buffer offset b =
      .ok ((), b.store sector ((b.data sector).copyIn offset buffer)) := by
  have hwrite : ∀ data : SectorData, (do
      let c ← (get : Routine Fault Block Block)
      set (← c.blockWrite sector data)) b = .ok ((), b.store sector data) := fun data => by
    rw [Routine.get_bind_apply,
      Routine.bind_of_ok (Routine.lift_of_ok (Block.blockWrite_of_lt hs data) b)]
    rfl
  rw [uncachedBlockWrite]
  beta_reduce
  by_cases hpart : offset > 0 ∨ buffer.length + offset < blockSectorSize
  · rw [if_pos hpart, Routine.get_bind_apply,
      Routine.bind_of_ok (Routine.lift_of_ok (Block.blockRead_of_lt hs) b)]
    exact hwrite _
  · rw [if_neg hpart, Routine.pure_bind_apply, hwrite]
    unfold blockSectorSize at hpart
    obtain rfl : offset = 0 := by omega
    rw [SectorData.copyIn_full _ (b.data sector) (by omega)]

/-- A plain call answers alike with and without the cache. -/
theorem CacheOp.exec_refines {c : Cache} {b : Block} (h : Refines c b) {op : CacheOp}
    (hop : op.Plain b.size) :
    ∃ bytes c' b', op.exec c = .ok (bytes, c') ∧ op.execUncached b = .ok (bytes, b') ∧
      Refines c' b' ∧ b'.size = b.size := by
  cases op with
  | read sector offset size =>
    obtain ⟨hs, ho⟩ := hop
    obtain ⟨c', hrun, hsees⟩ := bcBlockRead_spec h.wf (by rwa [h.size]) ho
    rw [h.view sector hs] at hrun
    exact ⟨_, c', b, hrun, uncachedBlockRead_of_lt hs ho, h.sees hsees, rfl⟩
  | write sector buffer offset isAllowed =>
    obtain ⟨hs, ho, rfl⟩ := hop
    obtain ⟨c', hrun, hwrote⟩ := bcBlockWrite_spec h.wf (by rwa [h.size]) ho
    rw [h.view sector hs] at hwrote
    refine ⟨[], c', _, ?_, ?_, h.wrote hs hwrote, rfl⟩
    · rw [exec, Routine.bind_of_ok hrun]
      rfl
    · rw [execUncached, Routine.bind_of_ok (uncachedBlockWrite_of_lt hs ho)]
      rfl
  | remove sector => exact hop.elim
  | flushAll =>
    obtain ⟨c', hrun, hsees, -⟩ := bcFlushAll_spec h.wf
    exact ⟨[], c', b, by rw [exec, Routine.bind_of_ok hrun]; rfl, rfl, h.sees hsees, rfl⟩
  | daemonFlush =>
    obtain ⟨c', hrun, hsees, -⟩ := bcDaemonFlush_spec h.wf h.emptyClean
    exact ⟨[], c', b, by rw [exec, Routine.bind_of_ok hrun]; rfl, rfl, h.sees hsees, rfl⟩

/-- From `bc_init` on, a run of plain calls returns the bytes that the uncached code returns, a
`bc_flush_all` after it leaves the uncached code's device, and at no moment of it do two entries
hold one sector. -/
theorem cache_refines_disk (memory : Fin 64 → SectorData) (fsDevice : Block) (ops : List CacheOp)
    (hops : ∀ op ∈ ops, op.Plain fsDevice.size) :
    (∃ outs c b, Routine.execAll CacheOp.exec ops (bcInit memory fsDevice) = .ok (outs, c) ∧
      Routine.execAll CacheOp.execUncached ops fsDevice = .ok (outs, b) ∧ c.Unique ∧
      ∃ c', bcFlushAll c = .ok ((), c') ∧ c'.fsDevice = b) ∧
    ∀ op c, Routine.Takes CacheOp.exec ops (bcInit memory fsDevice) op c →
      ∀ m, Moment c m → m.Unique := by
  have hstep : ∀ (c : Cache) (b : Block) (op : CacheOp), (Refines c b ∧ b.size = fsDevice.size) → op.Plain fsDevice.size →
      ∃ bytes c' b', op.exec c = .ok (bytes, c') ∧ op.execUncached b = .ok (bytes, b') ∧
        Refines c' b' ∧ b'.size = fsDevice.size := by
    rintro c b op ⟨h, hsize⟩ hop
    rw [← hsize] at hop ⊢
    exact CacheOp.exec_refines h hop
  have hinit := bcInit_refines memory fsDevice
  constructor
  · obtain ⟨outs, c, b, hc, hb, h, -⟩ := Routine.execAll_simulates hstep hops ⟨hinit, rfl⟩
    obtain ⟨c', hrun, hsees, hall⟩ := bcFlushAll_spec h.wf
    exact ⟨outs, c, b, hc, hb, h.wf.unique, c', hrun, h.device_eq hsees hall⟩
  · intro op c htakes m hm
    have hwf : ∃ b, Refines c b ∧ b.size = fsDevice.size := by
      refine Routine.Takes.invariant (P := fun c => ∃ b, Refines c b ∧ b.size = fsDevice.size)
        ?_ hops ⟨fsDevice, hinit, rfl⟩ htakes
      rintro c1 op1 bytes c2 ⟨b, h⟩ hop hrun
      obtain ⟨bytes', c2', b', hrun', -, h'⟩ := hstep c1 b op1 h hop
      cases hrun.symm.trans hrun'
      exact ⟨b', h'⟩
    obtain ⟨b, h, -⟩ := hwf
    exact hm.unique h.wf

/-- `cache_refines_disk` for a partial write that misses, a daemon pass and a read. -/
theorem cache_refines_disk_write_flush_read :
    let ops := [CacheOp.write 0 [7] 3 false, .daemonFlush, .read 0 2 2]
    (∃ outs c b, Routine.execAll CacheOp.exec ops
        (bcInit (fun _ => SectorData.zeros) oneSectorDevice) = .ok (outs, c) ∧
      Routine.execAll CacheOp.execUncached ops oneSectorDevice = .ok (outs, b) ∧ c.Unique ∧
      ∃ c', bcFlushAll c = .ok ((), c') ∧ c'.fsDevice = b) ∧
    ∀ op c, Routine.Takes CacheOp.exec ops
        (bcInit (fun _ => SectorData.zeros) oneSectorDevice) op c →
      ∀ m, Moment c m → m.Unique :=
  cache_refines_disk _ _ _ (by simp [CacheOp.Plain, oneSectorDevice])

end Pintos
