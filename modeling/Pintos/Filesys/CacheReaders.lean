import Pintos.Filesys.CacheThreads
import Pintos.Filesys.CacheSpec
import Mathlib.Data.Finset.Card

/-! Readers of the buffer cache under threads.  `contents` is what a sector holds after a list of
completed writes; `Inv` says for each entry, by the point at which the thread with its `elock` is,
how the entry and the device hold these contents, and for each thread what it knows.  Every step keeps `Inv`
and changes no entry that has readers, so the bytes a reader copies are one version. -/

namespace Pintos

open LockProgram

namespace SharedCache

@[simp] theorem setEntry_cache_self (s : SharedCache) (i : Fin 64) (entry : BufferCacheEntry) :
    (s.setEntry i entry).cache i = entry := by
  simp [setEntry]

@[simp] theorem setEntry_cache_ne (s : SharedCache) {i j : Fin 64} (h : j ≠ i)
    (entry : BufferCacheEntry) : (s.setEntry i entry).cache j = s.cache j := by
  simp [setEntry, h]

@[simp] theorem setEntry_completed (s : SharedCache) (i : Fin 64) (entry : BufferCacheEntry) :
    (s.setEntry i entry).completed = s.completed := rfl

end SharedCache

/-- The contents of `sector` after the writes `ws`, where `disk` is what the device held. -/
def contents (disk : Nat → SectorData) (ws : List WriteCall) (sector : Nat) : SectorData :=
  ws.foldl (fun data w => if w.sector = sector then data.copyIn w.offset w.buffer else data)
    (disk sector)

theorem contents_append_self (disk : Nat → SectorData) (ws : List WriteCall) (w : WriteCall) :
    contents disk (ws ++ [w]) w.sector = (contents disk ws w.sector).copyIn w.offset w.buffer := by
  simp [contents]

theorem contents_append_ne (disk : Nat → SectorData) (ws : List WriteCall) {w : WriteCall}
    {sector : Nat} (h : sector ≠ w.sector) :
    contents disk (ws ++ [w]) sector = contents disk ws sector := by
  simp [contents, Ne.symm h]

namespace CachePc

/-- A thread starts a call other than `bc_remove`, on a number that can be a sector. -/
def startsKeeping (p q : CachePc) : Prop :=
  start p q ∧ (∀ sector, q ≠ removeLock sector) ∧
    ∀ call, q = getLock call → call.sector ≠ emptySector

/-- The entry at which a thread is counted in `readers`. -/
def countedAt : CachePc → Option (Fin 64)
  | release (.read _) i | copyOut _ i _ => some i
  | _ => none

end CachePc

open CachePc

/-- The arguments of a call that passed its `ASSERT`. -/
def Fetch.Ok (call : Fetch) : Prop :=
  call.sector ≠ emptySector ∧
    match call with
    | .read r => r.offset + r.size ≤ 512
    | .write w => w.offset + w.buffer.length ≤ 512
    | .readAhead _ => True

/-- A non-empty entry holds the contents, and the device does when the entry is clean. -/
def Settled (e : BufferCacheEntry) (device now : SectorData) : Prop :=
  e.sector ≠ emptySector → e.data = now ∧ (e.isDirty = false → device = now)

/-- An entry after a miss, not yet filled. -/
structure Missed (sector : Nat) (e : BufferCacheEntry) (device now : SectorData) : Prop where
  sector : e.sector = sector
  clean : e.isDirty = false
  idle : e.readers = 0
  device : device = now

/-- A dirty entry whose first `k` bytes are on the device. -/
structure Flushing (k : Nat) (e : BufferCacheEntry) (device now : SectorData) : Prop where
  nonempty : e.sector ≠ emptySector
  dirty : e.isDirty = true
  data : e.data = now
  device : ∀ j < k, j < 512 → device.byte j = now.byte j

/-- An entry into which the first `k` bytes of a write are copied. -/
structure Copying (w : WriteCall) (k : Nat) (e : BufferCacheEntry) (now : SectorData) : Prop where
  sector : e.sector = w.sector
  dirty : e.isDirty = true
  idle : e.readers = 0
  copied : ∀ j < 512, w.offset ≤ j → j < w.offset + k → e.data.byte j = w.buffer.getD (j - w.offset) 0
  rest : ∀ j < 512, ¬ (w.offset ≤ j ∧ j < w.offset + w.buffer.length) → e.data.byte j = now.byte j

/-- An entry while the thread at the point has its `elock`, or no thread has. -/
def EntryInv (e : BufferCacheEntry) (device now : SectorData) : Option CachePc → Prop
  | some (flushVictim _ _ k) => Flushing k e device now ∧ e.readers = 0
  | some (flushWrite _ _ k) => Flushing k e device now
  | some (fetched call _ true) | some (locked call _ true) => Missed call.sector e device now
  | some (fetched call _ false) | some (locked call _ false) | some (filled call _)
  | some (release call _) => e.sector = call.sector ∧ Settled e device now
  | some (fill call _ k) =>
    Missed call.sector e device now ∧ ∀ j < k, j < 512 → e.data.byte j = now.byte j
  | some (writeFill w _ k) =>
    Missed w.sector e device now ∧ ∀ j < k, j < 512 → e.data.byte j = now.byte j
  | some (writeClear w _ _) =>
    Missed w.sector e device now ∧ w.offset = 0 ∧ w.buffer.length = 512
  | some (copyIn w _ k) => Copying w k e now
  | some (written w _) => Copying w w.buffer.length e now
  | some (panicked _ _) => 0 < e.readers → Settled e device now
  | _ => Settled e device now

/-- The bytes of a read are one version of its sector. -/
def OneVersion (disk : Nat → SectorData) (completed : List WriteCall) (r : ReadCall)
    (bytes : List UInt8) : Prop :=
  ∃ n ≤ completed.length,
    bytes = (contents disk (completed.take n) r.sector).copyOut r.offset r.size

/-- What a thread at the point knows. -/
def LocalInv (disk : Nat → SectorData) (s : SharedCache) : CachePc → Prop
  | getLock call | retry call | fetched call _ _ | notFound call _ | locked call _ _
  | fill call _ _ | filled call _ => call.Ok
  | hit call i => call.Ok ∧ (s.cache i).sector = call.sector
  | scan call _ _ | .pass call _ _ | flushVictim call _ _ =>
    call.Ok ∧ ∀ j, (s.cache j).sector ≠ call.sector
  | release (.read r) i => (Fetch.read r).Ok ∧ (s.cache i).sector = r.sector
  | copyOut r i bytes =>
    (Fetch.read r).Ok ∧ (s.cache i).sector = r.sector ∧ bytes.length ≤ r.size ∧
      bytes = (contents disk s.completed r.sector).copyOut r.offset bytes.length
  | uncount r _ bytes | returned r bytes => OneVersion disk s.completed r bytes
  | writeFill w _ _ | writeClear w _ _ | copyIn w _ _ | written w _ | refused w _ =>
    (Fetch.write w).Ok
  | removeLock _ | removeVisit _ _ | removed _ | removeUnlock => False
  | _ => True

variable {T : Type} {c c' : CacheConfig T} {t u : T} {disk : Nat → SectorData}

/-- Where the thread with the `elock` of entry `i` is. -/
def owner (c : CacheConfig T) (i : Fin 64) : Option CachePc :=
  (c.holder (.elock i)).map c.pc

/-- The invariant of the cache under threads. -/
structure Inv (disk : Nat → SectorData) (c : CacheConfig T) : Prop where
  locked : Locked holds c
  unique : c.shared.Unique
  absent : ∀ d, d ≠ emptySector → (∀ i, (c.shared.cache i).sector ≠ d) →
    c.shared.fsDevice.data d = contents disk c.shared.completed d
  entry : ∀ i, EntryInv (c.shared.cache i) (c.shared.fsDevice.data (c.shared.cache i).sector)
    (contents disk c.shared.completed (c.shared.cache i).sector) (owner c i)
  thread : ∀ t, LocalInv disk c.shared (c.pc t)
  readers : ∀ i, ∃ counted : Finset T, (∀ t, t ∈ counted ↔ (c.pc t).countedAt = some i) ∧
    (c.shared.cache i).readers = counted.card

/-- The data of entries that have readers stay as they are. -/
def Kept (s s' : SharedCache) : Prop :=
  ∀ i, 0 < (s.cache i).readers →
    (s'.cache i).sector = (s.cache i).sector ∧ (s'.cache i).data = (s.cache i).data

/-! ### Who has an entry -/

theorem owner_of_holds (h : Locked holds c) {i : Fin 64} (ht : (c.pc t).holdsElock = some i) :
    owner c i = some (c.pc t) := by
  rw [owner, (h (.elock i) t).mpr ht]
  rfl

theorem owner_of_free {i : Fin 64} (h : c.holder (.elock i) = none) : owner c i = none := by
  rw [owner, h]
  rfl

/-- A thread that gives the `elock` back leaves it free. -/
theorem owner_of_released (h : Locked holds c) (h' : Locked holds c')
    (hpc : ∀ u, u ≠ t → c'.pc u = c.pc u) {i : Fin 64} (ht : (c.pc t).holdsElock = some i)
    (ht' : (c'.pc t).holdsElock = none) : owner c' i = none := by
  refine owner_of_free (Option.eq_none_iff_forall_ne_some.mpr fun u hu => ?_)
  have hheld : (c'.pc u).holdsElock = some i := (h' _ _).mp hu
  have hut : u ≠ t := by
    rintro rfl
    rw [ht'] at hheld
    nomatch hheld
  rw [hpc u hut] at hheld
  exact hut (h.unique (l := .elock i) hheld ht)

/-- Where the owner of an entry is does not change when a thread without it moves. -/
theorem owner_congr (h : Locked holds c) (h' : Locked holds c')
    (hpc : ∀ u, u ≠ t → c'.pc u = c.pc u) {i : Fin 64} (ht : (c.pc t).holdsElock ≠ some i)
    (ht' : (c'.pc t).holdsElock ≠ some i) : owner c' i = owner c i := by
  cases hc : c.holder (.elock i) with
  | none =>
    rw [owner_of_free hc]
    refine owner_of_free (Option.eq_none_iff_forall_ne_some.mpr fun u hu => ?_)
    have hheld : (c'.pc u).holdsElock = some i := (h' _ _).mp hu
    have hut : u ≠ t := by
      rintro rfl
      exact ht' hheld
    rw [hpc u hut] at hheld
    rw [(h (.elock i) u).mpr hheld] at hc
    nomatch hc
  | some u =>
    have hheld : (c.pc u).holdsElock = some i := (h _ _).mp hc
    have hut : u ≠ t := by
      rintro rfl
      exact ht hheld
    rw [owner_of_holds h hheld, ← hpc u hut]
    rw [← hpc u hut] at hheld
    exact owner_of_holds h' hheld

/-! ### Frames -/

/-- The memory `s'` differs from `s` in entry `i`, its sector on the device and the writes to its
sector only, and not at all for readers of the entry. -/
structure Touches (disk : Nat → SectorData) (s s' : SharedCache) (i : Fin 64) : Prop where
  others : ∀ j, j ≠ i → s'.cache j = s.cache j
  device : ∀ d, d ≠ (s.cache i).sector ∨ d = emptySector →
    s'.fsDevice.data d = s.fsDevice.data d
  contents : ∀ d, d ≠ (s.cache i).sector ∨ d = emptySector →
    contents disk s'.completed d = contents disk s.completed d
  log : s.completed <+: s'.completed
  kept : 0 < (s.cache i).readers → (s'.cache i).sector = (s.cache i).sector ∧
    (s'.cache i).data = (s.cache i).data ∧
    Pintos.contents disk s'.completed (s.cache i).sector =
      Pintos.contents disk s.completed (s.cache i).sector

theorem Touches.keeps {s s' : SharedCache} {i : Fin 64} (h : Touches disk s s' i) : Kept s s' := by
  intro j hj
  by_cases hji : j = i
  · subst hji
    obtain ⟨hsector, hdata, -⟩ := h.kept hj
    exact ⟨hsector, hdata⟩
  · rw [h.others j hji]
    exact ⟨rfl, rfl⟩

theorem OneVersion.mono {completed completed' : List WriteCall} {r : ReadCall}
    {bytes : List UInt8} (h : OneVersion disk completed r bytes) (hlog : completed <+: completed') :
    OneVersion disk completed' r bytes := by
  obtain ⟨n, hn, rfl⟩ := h
  obtain ⟨more, rfl⟩ := hlog
  refine ⟨n, by rw [List.length_append]; omega, ?_⟩
  rw [List.take_append_of_le_length hn]

/-- What another thread knows survives a step that touches entry `i`. -/
theorem LocalInv.frame {s s' : SharedCache} {i : Fin 64} {p : CachePc} (h : LocalInv disk s p)
    (htouches : Touches disk s s' i) (hunique : s.Unique)
    (hsectors : (∀ j, (s'.cache j).sector = (s.cache j).sector) ∨ p.holdsCacheLock = false)
    (hcounted : ∀ j, p.countedAt = some j → 0 < (s.cache j).readers) : LocalInv disk s' p := by
  have hcontents : ∀ (r : ReadCall) j, (Fetch.read r).Ok → (s.cache j).sector = r.sector →
      0 < (s.cache j).readers →
      contents disk s'.completed r.sector = contents disk s.completed r.sector := by
    intro r j hok hsector hreaders
    by_cases hji : j = i
    · subst hji
      rw [← hsector]
      exact (htouches.kept hreaders).2.2
    · refine htouches.contents _ (.inl fun heq => hji (hunique j i ?_ (hsector.trans heq)))
      rw [hsector]
      exact hok.1
  cases p with
  | hit call j =>
    obtain ⟨hok, hsector⟩ := h
    rcases hsectors with hsame | hfalse
    · exact ⟨hok, (hsame j).trans hsector⟩
    · nomatch hfalse
  | scan call round j =>
    obtain ⟨hok, habsent⟩ := h
    rcases hsectors with hsame | hfalse
    · exact ⟨hok, fun k => by rw [hsame k]; exact habsent k⟩
    · nomatch hfalse
  | pass call round j =>
    obtain ⟨hok, habsent⟩ := h
    rcases hsectors with hsame | hfalse
    · exact ⟨hok, fun k => by rw [hsame k]; exact habsent k⟩
    · nomatch hfalse
  | flushVictim call j k =>
    obtain ⟨hok, habsent⟩ := h
    rcases hsectors with hsame | hfalse
    · exact ⟨hok, fun k => by rw [hsame k]; exact habsent k⟩
    · nomatch hfalse
  | release call j =>
    cases call with
    | read r =>
      obtain ⟨hok, hsector⟩ := h
      exact ⟨hok, ((htouches.keeps j (hcounted j rfl)).1).trans hsector⟩
    | write w => trivial
    | readAhead sector => trivial
  | copyOut r j bytes =>
    obtain ⟨hok, hsector, hlength, hbytes⟩ := h
    have hreaders := hcounted j rfl
    refine ⟨hok, (htouches.keeps j hreaders).1.trans hsector, hlength, ?_⟩
    rw [hcontents r j hok hsector hreaders]
    exact hbytes
  | uncount r j bytes => exact OneVersion.mono h htouches.log
  | returned r bytes => exact OneVersion.mono h htouches.log
  | _ => exact h

/-- Thread `t` moved from `p` to `p'` and left the memory `s'`. -/
structure Move (c c' : CacheConfig T) (t : T) (p p' : CachePc) (s' : SharedCache) : Prop where
  before : c.pc t = p
  after : c'.pc t = p'
  shared : c'.shared = s'
  others : ∀ u, u ≠ t → c'.pc u = c.pc u
  locked : Locked holds c'

variable {p p' : CachePc} {s' : SharedCache} {i : Fin 64}

theorem Move.owner_own (m : Move c c' t p p' s') (hp' : p'.holdsElock = some i) :
    owner c' i = some p' := by
  rw [owner_of_holds m.locked (t := t) (by rw [m.after]; exact hp'), m.after]

theorem Move.owner_released (m : Move c c' t p p' s') (h : Locked holds c)
    (hp : p.holdsElock = some i) (hp' : p'.holdsElock = none) : owner c' i = none :=
  owner_of_released h m.locked m.others (by rw [m.before]; exact hp) (by rw [m.after]; exact hp')

theorem Inv.readers_pos (h : Inv disk c) {j : Fin 64} (hu : (c.pc u).countedAt = some j) :
    0 < (c.shared.cache j).readers := by
  obtain ⟨counted, hmem, hcard⟩ := h.readers j
  rw [hcard]
  exact Finset.card_pos.mpr ⟨u, (hmem u).mpr hu⟩

/-- A step that touches entry `i` only, in a thread that has no other entry. -/
theorem Inv.frame (h : Inv disk c) (m : Move c c' t p p' s')
    (htouches : Touches disk c.shared s' i)
    (hp : p.holdsElock = some i ∨ p.holdsElock = none)
    (hp' : p'.holdsElock = some i ∨ p'.holdsElock = none)
    (hentry : EntryInv (s'.cache i) (s'.fsDevice.data (s'.cache i).sector)
      (contents disk s'.completed (s'.cache i).sector) (owner c' i))
    (hlocal : LocalInv disk s' p')
    (hsectors : (∀ j, (s'.cache j).sector = (c.shared.cache j).sector) ∨ p.holdsCacheLock = true)
    (hunique : s'.Unique)
    (habsent : ∀ d, d ≠ emptySector → (∀ j, (s'.cache j).sector ≠ d) →
      s'.fsDevice.data d = contents disk s'.completed d)
    (hreaders : ∀ j, ∃ counted : Finset T, (∀ u, u ∈ counted ↔ (c'.pc u).countedAt = some j) ∧
      (s'.cache j).readers = counted.card) :
    Inv disk c' ∧ Kept c.shared c'.shared := by
  obtain ⟨hbefore, hafter, hshared, hothers, hlocked⟩ := m
  refine ⟨⟨hlocked, by rwa [hshared], by rwa [hshared], ?_, ?_, by rwa [hshared]⟩, ?_⟩
  · intro j
    rw [hshared]
    by_cases hji : j = i
    · rw [hji]
      exact hentry
    · have hne : ∀ {q : CachePc}, q.holdsElock = some i ∨ q.holdsElock = none →
          q.holdsElock ≠ some j := by
        rintro q (hq | hq) <;> rw [hq]
        · exact fun heq => hji (Option.some.inj heq).symm
        · exact nofun
      have hsector : (c.shared.cache j).sector ≠ (c.shared.cache i).sector ∨
          (c.shared.cache j).sector = emptySector := by
        by_cases hempty : (c.shared.cache j).sector = emptySector
        · exact .inr hempty
        · exact .inl fun heq => hji (h.unique j i hempty heq)
      rw [htouches.others j hji, htouches.device _ hsector, htouches.contents _ hsector,
        owner_congr h.locked hlocked hothers (by rw [hbefore]; exact hne hp)
          (by rw [hafter]; exact hne hp')]
      exact h.entry j
  · intro u
    rw [hshared]
    by_cases hut : u = t
    · rw [hut, hafter]
      exact hlocal
    · rw [hothers u hut]
      refine (h.thread u).frame htouches h.unique ?_ fun j hj => h.readers_pos hj
      rcases hsectors with hsame | hheld
      · exact .inl hsame
      · refine .inr (Bool.eq_false_iff.mpr fun hu => hut ?_)
        exact h.locked.unique (l := .cacheLock) hu (by rw [hbefore]; exact hheld)
  · rw [hshared]
    exact htouches.keeps

/-- The readers are still counted when no thread comes to be counted or stops to be. -/
theorem Inv.readers_congr (h : Inv disk c) (m : Move c c' t p p' s')
    (htouches : Touches disk c.shared s' i)
    (hreaders : (s'.cache i).readers = (c.shared.cache i).readers)
    (hcounted : p'.countedAt = p.countedAt) (j : Fin 64) :
    ∃ counted : Finset T, (∀ u, u ∈ counted ↔ (c'.pc u).countedAt = some j) ∧
      (s'.cache j).readers = counted.card := by
  obtain ⟨counted, hmem, hcard⟩ := h.readers j
  refine ⟨counted, fun u => ?_, ?_⟩
  · rw [hmem u]
    by_cases hut : u = t
    · rw [hut, m.before, m.after, hcounted]
    · rw [m.others u hut]
  · by_cases hji : j = i
    · rw [hji] at hcard ⊢
      exact hreaders.trans hcard
    · rw [htouches.others j hji]
      exact hcard

/-- A step after which entry `i` has the sector it had. -/
theorem Inv.stay (h : Inv disk c) (m : Move c c' t p p' s')
    (htouches : Touches disk c.shared s' i)
    (hp : p.holdsElock = some i ∨ p.holdsElock = none)
    (hp' : p'.holdsElock = some i ∨ p'.holdsElock = none)
    (hsector : (s'.cache i).sector = (c.shared.cache i).sector)
    (hentry : EntryInv (s'.cache i) (s'.fsDevice.data (c.shared.cache i).sector)
      (contents disk s'.completed (c.shared.cache i).sector) (owner c' i))
    (hlocal : LocalInv disk s' p')
    (hreaders : ∀ j, ∃ counted : Finset T, (∀ u, u ∈ counted ↔ (c'.pc u).countedAt = some j) ∧
      (s'.cache j).readers = counted.card) : Inv disk c' ∧ Kept c.shared c'.shared := by
  have hsectors : ∀ j, (s'.cache j).sector = (c.shared.cache j).sector := fun j => by
    by_cases hji : j = i
    · rw [hji]
      exact hsector
    · rw [htouches.others j hji]
  refine h.frame m htouches hp hp' (by rwa [hsector]) hlocal (.inl hsectors) ?_ ?_ hreaders
  · intro j k
    rw [hsectors j, hsectors k]
    exact h.unique j k
  · intro d hd hnone
    have hdi : d ≠ (c.shared.cache i).sector := fun heq => hnone i (hsector.trans heq.symm)
    rw [htouches.device d (.inl hdi), htouches.contents d (.inl hdi)]
    exact h.absent d hd fun j => by
      rw [← hsectors j]
      exact hnone j

/-- A step after which entry `i` has the sector and the readers it had. -/
theorem Inv.keep (h : Inv disk c) (m : Move c c' t p p' s')
    (htouches : Touches disk c.shared s' i)
    (hp : p.holdsElock = some i ∨ p.holdsElock = none)
    (hp' : p'.holdsElock = some i ∨ p'.holdsElock = none)
    (hsector : (s'.cache i).sector = (c.shared.cache i).sector)
    (hreaders : (s'.cache i).readers = (c.shared.cache i).readers)
    (hcounted : p'.countedAt = p.countedAt)
    (hentry : EntryInv (s'.cache i) (s'.fsDevice.data (c.shared.cache i).sector)
      (contents disk s'.completed (c.shared.cache i).sector) (owner c' i))
    (hlocal : LocalInv disk s' p') : Inv disk c' ∧ Kept c.shared c'.shared :=
  h.stay m htouches hp hp' hsector hentry hlocal
    (h.readers_congr m htouches hreaders hcounted)

theorem Touches.refl (s : SharedCache) (i : Fin 64) : Touches disk s s i :=
  ⟨fun _ _ => rfl, fun _ _ => rfl, fun _ _ => rfl, List.prefix_rfl, fun _ => ⟨rfl, rfl, rfl⟩⟩

/-- A store in an entry; its sector and data may change only if it has no readers. -/
theorem Touches.setEntry {s : SharedCache} {i : Fin 64} {entry : BufferCacheEntry}
    (h : 0 < (s.cache i).readers → entry.sector = (s.cache i).sector ∧
      entry.data = (s.cache i).data) : Touches disk s (s.setEntry i entry) i where
  others j hj := s.setEntry_cache_ne hj entry
  device _ _ := rfl
  contents _ _ := rfl
  log := List.prefix_rfl
  kept hreaders := by
    rw [SharedCache.setEntry_cache_self]
    exact ⟨(h hreaders).1, (h hreaders).2, rfl⟩

/-- A step that changes nothing in the memory, of a thread that has no entry. -/
theorem Inv.walk (h : Inv disk c) (m : Move c c' t p p' c.shared) (hp : p.holdsElock = none)
    (hp' : p'.holdsElock = none) (hcounted : p'.countedAt = p.countedAt)
    (hlocal : LocalInv disk c.shared p') : Inv disk c' ∧ Kept c.shared c'.shared := by
  refine h.keep m (Touches.refl _ 0) (.inr hp) (.inr hp') rfl rfl hcounted ?_ hlocal
  rw [owner_congr h.locked m.locked m.others (by rw [m.before, hp]; exact nofun)
    (by rw [m.after, hp']; exact nofun)]
  exact h.entry 0

/-- A step after which the thread has entry `i`. -/
theorem Inv.own (h : Inv disk c) (m : Move c c' t p p' s')
    (htouches : Touches disk c.shared s' i)
    (hp : p.holdsElock = some i ∨ p.holdsElock = none) (hp' : p'.holdsElock = some i)
    (hsector : (s'.cache i).sector = (c.shared.cache i).sector)
    (hreaders : (s'.cache i).readers = (c.shared.cache i).readers)
    (hcounted : p'.countedAt = p.countedAt)
    (hentry : EntryInv (s'.cache i) (s'.fsDevice.data (c.shared.cache i).sector)
      (contents disk s'.completed (c.shared.cache i).sector) (some p'))
    (hlocal : LocalInv disk s' p') : Inv disk c' ∧ Kept c.shared c'.shared := by
  refine h.keep m htouches hp (.inl hp') hsector hreaders hcounted ?_ hlocal
  rw [m.owner_own hp']
  exact hentry

/-- A step in which the thread gives entry `i` back. -/
theorem Inv.giveBack (h : Inv disk c) (m : Move c c' t p p' s')
    (htouches : Touches disk c.shared s' i) (hp : p.holdsElock = some i)
    (hp' : p'.holdsElock = none)
    (hsector : (s'.cache i).sector = (c.shared.cache i).sector)
    (hreaders : (s'.cache i).readers = (c.shared.cache i).readers)
    (hcounted : p'.countedAt = p.countedAt)
    (hentry : Settled (s'.cache i) (s'.fsDevice.data (c.shared.cache i).sector)
      (contents disk s'.completed (c.shared.cache i).sector))
    (hlocal : LocalInv disk s' p') : Inv disk c' ∧ Kept c.shared c'.shared := by
  refine h.keep m htouches (.inl hp) (.inr hp') hsector hreaders hcounted ?_ hlocal
  rw [m.owner_released h.locked hp hp']
  exact hentry

/-- The invariant of an entry that the thread at `p` has. -/
theorem Inv.entry_of (h : Inv disk c) (hp : c.pc t = p) (hi : p.holdsElock = some i) :
    EntryInv (c.shared.cache i) (c.shared.fsDevice.data (c.shared.cache i).sector)
      (contents disk c.shared.completed (c.shared.cache i).sector) (some p) := by
  have hentry := h.entry i
  rw [owner_of_holds h.locked (t := t) (by rw [hp]; exact hi), hp] at hentry
  exact hentry

/-- An entry that no thread has is settled. -/
theorem Inv.settled (h : Inv disk c) (hfree : c.holder (.elock i) = none) :
    Settled (c.shared.cache i) (c.shared.fsDevice.data (c.shared.cache i).sector)
      (contents disk c.shared.completed (c.shared.cache i).sector) := by
  have hentry := h.entry i
  rw [owner_of_free hfree] at hentry
  exact hentry

/-! ### Steps -/

/-- The victim of a miss gets the sector. -/
theorem Inv.assign {call : Fetch} (h : Inv disk c)
    (m : Move c c' t p (fetched call i true) (c.shared.setEntry i
      { c.shared.cache i with sector := call.sector, isDirty := false }))
    (hp : p.holdsElock = some i ∨ p.holdsElock = none) (hlock : p.holdsCacheLock = true)
    (hcounted : p.countedAt = none) (hok : call.Ok)
    (habsent : ∀ j, (c.shared.cache j).sector ≠ call.sector)
    (hidle : (c.shared.cache i).readers = 0)
    (hflushed : (c.shared.cache i).sector ≠ emptySector →
      c.shared.fsDevice.data (c.shared.cache i).sector =
        contents disk c.shared.completed (c.shared.cache i).sector) :
    Inv disk c' ∧ Kept c.shared c'.shared := by
  have htouches : Touches disk c.shared (c.shared.setEntry i
      { c.shared.cache i with sector := call.sector, isDirty := false }) i :=
    Touches.setEntry fun hreaders => by omega
  refine h.frame m htouches hp (.inl rfl) ?_ hok (.inr hlock) ?_ ?_ ?_
  · rw [m.owner_own rfl, SharedCache.setEntry_cache_self]
    exact ⟨rfl, rfl, hidle, h.absent call.sector hok.1 habsent⟩
  · intro j k hj hjk
    by_cases hji : j = i
    · by_cases hki : k = i
      · rw [hji, hki]
      · rw [hji, SharedCache.setEntry_cache_self, SharedCache.setEntry_cache_ne _ hki] at hjk
        exact (habsent k hjk.symm).elim
    · rw [SharedCache.setEntry_cache_ne _ hji] at hj hjk
      by_cases hki : k = i
      · rw [hki, SharedCache.setEntry_cache_self] at hjk
        exact (habsent j hjk).elim
      · rw [SharedCache.setEntry_cache_ne _ hki] at hjk
        exact h.unique j k hj hjk
  · intro d hd hnone
    by_cases hdi : d = (c.shared.cache i).sector
    · subst hdi
      exact hflushed hd
    · refine h.absent d hd fun j hj => ?_
      by_cases hji : j = i
      · subst hji
        exact hdi hj.symm
      · exact hnone j (by rwa [SharedCache.setEntry_cache_ne _ hji])
  · exact h.readers_congr m htouches (by rw [SharedCache.setEntry_cache_self]) hcounted.symm

/-- A reader is counted. -/
theorem Inv.count [DecidableEq T] {r : ReadCall} (h : Inv disk c)
    (m : Move c c' t (filled (.read r) i) (release (.read r) i) (countReader i c.shared (.read r)))
    (hok : (Fetch.read r).Ok) : Inv disk c' ∧ Kept c.shared c'.shared := by
  have htouches : Touches disk c.shared (countReader i c.shared (.read r)) i :=
    Touches.setEntry fun _ => ⟨rfl, rfl⟩
  have hentry := h.entry_of m.before rfl
  refine h.stay m htouches (.inl rfl) (.inl rfl) ?_ ?_ ?_ fun j => ?_
  · rw [countReader, SharedCache.setEntry_cache_self]
  · rw [m.owner_own rfl, countReader, SharedCache.setEntry_cache_self]
    exact hentry
  · refine ⟨hok, ?_⟩
    rw [countReader, SharedCache.setEntry_cache_self]
    exact hentry.1
  obtain ⟨counted, hmem, hcard⟩ := h.readers j
  by_cases hji : j = i
  · subst hji
    have ht : t ∉ counted := by
      rw [hmem t, m.before]
      exact nofun
    refine ⟨insert t counted, fun u => ?_, ?_⟩
    · rw [Finset.mem_insert, hmem u]
      by_cases hut : u = t
      · rw [hut, m.after]
        exact iff_of_true (.inl rfl) rfl
      · rw [m.others u hut]
        simp [hut]
    · rw [Finset.card_insert_of_notMem ht, ← hcard, countReader, SharedCache.setEntry_cache_self]
  · refine ⟨counted, fun u => ?_, ?_⟩
    · rw [hmem u]
      by_cases hut : u = t
      · rw [hut, m.before, m.after]
        exact iff_of_false nofun fun heq => hji (Option.some.inj heq).symm
      · rw [m.others u hut]
    · rw [htouches.others j hji]
      exact hcard

/-- A reader that has copied its bytes is counted no more. -/
theorem Inv.discount [DecidableEq T] {r : ReadCall} {bytes : List UInt8} (h : Inv disk c)
    (m : Move c c' t (copyOut r i bytes) (uncount r i bytes) (c.shared.setEntry i
      { c.shared.cache i with readers := (c.shared.cache i).readers - 1 }))
    (hfree : c.holder (.elock i) = none) (hlength : ¬ bytes.length < r.size) :
    Inv disk c' ∧ Kept c.shared c'.shared := by
  have htouches : Touches disk c.shared (c.shared.setEntry i
      { c.shared.cache i with readers := (c.shared.cache i).readers - 1 }) i :=
    Touches.setEntry fun _ => ⟨rfl, rfl⟩
  have hthread := h.thread t
  rw [m.before] at hthread
  obtain ⟨-, -, hle, hbytes⟩ := hthread
  refine h.stay m htouches (.inr rfl) (.inl rfl) ?_ ?_ ?_ fun j => ?_
  · rw [SharedCache.setEntry_cache_self]
  · rw [m.owner_own rfl, SharedCache.setEntry_cache_self]
    exact h.settled hfree
  · refine ⟨c.shared.completed.length, le_rfl, ?_⟩
    rw [SharedCache.setEntry_completed, List.take_length]
    rwa [show bytes.length = r.size by omega] at hbytes
  obtain ⟨counted, hmem, hcard⟩ := h.readers j
  by_cases hji : j = i
  · subst hji
    have ht : t ∈ counted := by
      rw [hmem t, m.before]
      rfl
    refine ⟨counted.erase t, fun u => ?_, ?_⟩
    · rw [Finset.mem_erase, hmem u]
      by_cases hut : u = t
      · rw [hut, m.after]
        exact iff_of_false (fun hand => hand.1 rfl) nofun
      · rw [m.others u hut]
        simp [hut]
    · rw [Finset.card_erase_of_mem ht, ← hcard, SharedCache.setEntry_cache_self]
  · refine ⟨counted, fun u => ?_, ?_⟩
    · rw [hmem u]
      by_cases hut : u = t
      · rw [hut, m.before, m.after]
        exact iff_of_false (fun heq => hji (Option.some.inj heq).symm) nofun
      · rw [m.others u hut]
    · rw [htouches.others j hji]
      exact hcard

theorem Touches.writeByte {s : SharedCache} {i : Fin 64} (h : (s.cache i).sector ≠ emptySector)
    (k : Nat) : Touches disk s (s.writeByte i k) i where
  others _ _ := rfl
  device d hd := by
    have hne : d ≠ (s.cache i).sector := hd.elim id fun heq => by
      rw [heq]
      exact Ne.symm h
    simp [SharedCache.writeByte, hne]
  contents _ _ := rfl
  log := List.prefix_rfl
  kept _ := ⟨rfl, rfl, rfl⟩

/-- One more byte of the entry is on the device. -/
theorem Flushing.step {k : Nat} {e : BufferCacheEntry} {device now : SectorData}
    (h : Flushing k e device now) : Flushing (k + 1) e (device.copyIn k [e.data.byte k]) now where
  nonempty := h.nonempty
  dirty := h.dirty
  data := h.data
  device j hj hj' := by
    rw [SectorData.byte_copyIn_one _ _ _ hj']
    by_cases hjk : j = k
    · rw [if_pos hjk, h.data, hjk]
    · rw [if_neg hjk]
      exact h.device j (by omega) hj'

theorem Flushing.done {k : Nat} {e : BufferCacheEntry} {device now : SectorData}
    (h : Flushing k e device now) (hk : ¬ k < 512) : device = now :=
  SectorData.ext_byte fun j hj => h.device j (by omega) hj

/-- One more byte of a write is in the entry. -/
theorem Copying.step {w : WriteCall} {k : Nat} {e : BufferCacheEntry} {now : SectorData}
    (h : Copying w k e now) (hk : k < w.buffer.length) :
    Copying w (k + 1) { e with data := e.data.copyIn (w.offset + k) [w.buffer.getD k 0] } now where
  sector := h.sector
  dirty := h.dirty
  idle := h.idle
  copied j hj hle hlt := by
    rw [SectorData.byte_copyIn_one _ _ _ hj]
    by_cases hjk : j = w.offset + k
    · rw [if_pos hjk, hjk, Nat.add_sub_cancel_left]
    · rw [if_neg hjk]
      exact h.copied j hj hle (by omega)
  rest j hj hout := by
    rw [SectorData.byte_copyIn_one _ _ _ hj, if_neg (by omega)]
    exact h.rest j hj hout

/-- The entry after the whole write. -/
theorem Copying.done {w : WriteCall} {e : BufferCacheEntry} {now : SectorData}
    (h : Copying w w.buffer.length e now) : e.data = now.copyIn w.offset w.buffer := by
  refine SectorData.ext_byte fun j hj => ?_
  rw [SectorData.byte_copyIn _ _ _ hj]
  by_cases hin : w.offset ≤ j ∧ j < w.offset + w.buffer.length
  · rw [if_pos hin]
    exact h.copied j hj hin.1 hin.2
  · rw [if_neg hin]
    exact h.rest j hj hin

/-- A prefix of the fill of an entry grows by a byte of the device. -/
theorem filled_step {e : BufferCacheEntry} {device now : SectorData} {k : Nat}
    (hdevice : device = now) (h : ∀ j < k, j < 512 → e.data.byte j = now.byte j) :
    ∀ j < k + 1, j < 512 → (e.data.copyIn k [device.byte k]).byte j = now.byte j := by
  intro j hj hj'
  rw [SectorData.byte_copyIn_one _ _ _ hj']
  by_cases hjk : j = k
  · rw [if_pos hjk, hdevice, hjk]
  · rw [if_neg hjk]
    exact h j (by omega) hj'

/-- A visit of the victim scan takes the entry or goes past it. -/
theorem Inv.visited {call : Fetch} {round : Nat} (h : Inv disk c)
    (m : Move c c' t (scan call round i) (visit call round i c.shared).2
      (visit call round i c.shared).1) (hfree : c.holder (.elock i) = none) :
    Inv disk c' ∧ Kept c.shared c'.shared := by
  have hthread := h.thread t
  rw [m.before] at hthread
  obtain ⟨hok, habsent⟩ := hthread
  have hsettled := h.settled hfree
  cases hvisit : bcVisitEntry (fun _ => false) round i c.shared.toCache with
  | waits =>
    simp only [visit, hvisit] at m
    exact h.own m (Touches.refl _ i) (.inr rfl) rfl rfl rfl rfl hsettled ⟨hok, habsent⟩
  | passes d =>
    simp only [visit, hvisit] at m
    obtain ⟨hmarks, hothers, -⟩ := bcVisitEntry_passes hvisit
    refine h.own m ⟨hothers, fun d _ => by rw [hmarks.device], fun _ _ => rfl, List.prefix_rfl,
      fun _ => ⟨hmarks.sector i, hmarks.data i, rfl⟩⟩ (.inr rfl) rfl (hmarks.sector i)
      (hmarks.readers i) rfl ?_ ⟨hok, fun j => ?_⟩
    · rw [hmarks.device]
      intro hnonempty
      rw [hmarks.data, hmarks.dirty]
      rw [hmarks.sector] at hnonempty
      exact hsettled hnonempty
    · rw [hmarks.sector]
      exact habsent j
  | victim =>
    obtain ⟨-, hidle, -⟩ := bcVisitEntry_victim hvisit
    simp only [visit, hvisit] at m
    by_cases hflush : (c.shared.cache i).sector ≠ emptySector ∧ (c.shared.cache i).isDirty
    · rw [if_pos hflush] at m
      obtain ⟨hdata, -⟩ := hsettled hflush.1
      by_cases hsize : c.shared.fsDevice.size ≤ (c.shared.cache i).sector
      · rw [if_pos hsize] at m
        exact h.own m (Touches.refl _ i) (.inr rfl) rfl rfl rfl rfl (fun _ => hsettled) trivial
      · rw [if_neg hsize] at m
        exact h.own m (Touches.refl _ i) (.inr rfl) rfl rfl rfl rfl
          ⟨⟨hflush.1, hflush.2, hdata, fun j hj => absurd hj (Nat.not_lt_zero j)⟩, hidle⟩
          ⟨hok, habsent⟩
    · rw [if_neg hflush] at m
      refine h.assign m (.inr rfl) rfl rfl hok habsent hidle fun hnonempty => ?_
      exact (hsettled hnonempty).2 (by simpa [hnonempty] using hflush)

/-- A write that has its entry goes on when the entry has no readers, and else gives it back. -/
theorem Inv.writer {w : WriteCall} (h : Inv disk c)
    (m : Move c c' t p (checkReaders w i c.shared).2 (checkReaders w i c.shared).1)
    (hp : p.holdsElock = some i) (hcounted : p.countedAt = none) (hok : (Fetch.write w).Ok)
    (hsector : (c.shared.cache i).sector = w.sector)
    (hrest : ∀ j < 512, ¬ (w.offset ≤ j ∧ j < w.offset + w.buffer.length) →
      (c.shared.cache i).data.byte j = (contents disk c.shared.completed w.sector).byte j)
    (hsettled : 0 < (c.shared.cache i).readers → Settled (c.shared.cache i)
      (c.shared.fsDevice.data (c.shared.cache i).sector)
      (contents disk c.shared.completed (c.shared.cache i).sector)) :
    Inv disk c' ∧ Kept c.shared c'.shared := by
  unfold checkReaders at m
  by_cases hidle : (c.shared.cache i).readers = 0
  · rw [if_pos hidle] at m
    refine h.own m (Touches.setEntry fun hreaders => by omega) (.inl hp) rfl ?_ ?_ hcounted.symm
      ?_ hok
    · rw [SharedCache.setEntry_cache_self]
    · rw [SharedCache.setEntry_cache_self]
    · rw [SharedCache.setEntry_cache_self]
      refine ⟨hsector, rfl, hidle, fun j _ hle hlt => absurd hlt (by omega), ?_⟩
      rw [SharedCache.setEntry_completed, hsector]
      exact hrest
  · rw [if_neg hidle] at m
    exact h.own m (Touches.refl _ i) (.inl hp) rfl rfl rfl hcounted.symm
      (hsettled (Nat.pos_of_ne_zero hidle)) hok

/-- Entries with readers hold the contents, whatever the thread with the `elock` is doing. -/
theorem EntryInv.data {e : BufferCacheEntry} {device now : SectorData} {o : Option CachePc}
    (h : EntryInv e device now o) (hreaders : 0 < e.readers) (he : e.sector ≠ emptySector) :
    e.data = now := by
  unfold EntryInv at h
  split at h
  · exact h.1.data
  · exact h.data
  · exact absurd h.idle (by omega)
  · exact absurd h.idle (by omega)
  · exact (h.2 he).1
  · exact (h.2 he).1
  · exact (h.2 he).1
  · exact (h.2 he).1
  · exact absurd h.1.idle (by omega)
  · exact absurd h.1.idle (by omega)
  · exact absurd h.1.idle (by omega)
  · exact absurd h.idle (by omega)
  · exact absurd h.idle (by omega)
  · exact (h hreaders he).1
  · exact (h he).1

theorem assign_flushed (call : Fetch) (i : Fin 64) (s : SharedCache) :
    assign call i (s.setEntry i { s.cache i with isDirty := false }) =
      (s.setEntry i { s.cache i with sector := call.sector, isDirty := false },
        fetched call i true) := by
  simp [assign, SharedCache.setEntry]

theorem copyOut_succ (data : SectorData) (offset n : Nat) :
    data.copyOut offset (n + 1) = data.copyOut offset n ++ [data.byte (offset + n)] := by
  simp [SectorData.copyOut, List.range_succ]

/-- A write to the sector of entry `i` returns. -/
theorem Touches.complete {s : SharedCache} {i : Fin 64} {w : WriteCall}
    (hsector : (s.cache i).sector = w.sector) (hidle : (s.cache i).readers = 0)
    (hok : (Fetch.write w).Ok) :
    Touches disk s { s with completed := s.completed ++ [w] } i where
  others _ _ := rfl
  device _ _ := rfl
  contents d hd := by
    refine contents_append_ne disk _ (hd.elim (fun hne => ?_) fun heq => ?_)
    · rwa [hsector] at hne
    · rw [heq]
      exact Ne.symm hok.1
  log := List.prefix_append _ _
  kept hreaders := by omega

theorem Move.to (m : Move c c' t p (c'.pc t) c'.shared) (hout : (c'.shared, c'.pc t) = (s', p')) :
    Move c c' t p p' s' := by
  obtain ⟨hshared, hafter⟩ := Prod.mk.inj hout
  rwa [hshared, hafter] at m

/-- Every instruction keeps the invariant and the entries that have readers. -/
theorem Inv.executes [DecidableEq T] (h : Inv disk c) (hp : c.pc t = p)
    (hstep : (program p).Executes t c c') (m : Move c c' t p (c'.pc t) c'.shared) :
    Inv disk c' ∧ Kept c.shared c'.shared := by
  have hthread := h.thread t
  rw [hp] at hthread
  have hentry : ∀ i, p.holdsElock = some i → _ := fun i hi => h.entry_of hp hi
  cases p with
  | idle => exact hstep.elim
  | returned r bytes => exact hstep.elim
  | crashed => exact hstep.elim
  | panicked locked i => exact hstep.elim
  | getLock call =>
    obtain ⟨-, hout⟩ := hstep.acquire
    cases hfind : bcGetEntryBySector c.shared.toCache call.sector with
    | some i =>
      simp only [hfind] at hout
      exact h.walk (m.to hout) rfl rfl rfl ⟨hthread, bcGetEntryBySector_some hfind⟩
    | none =>
      simp only [hfind] at hout
      exact h.walk (m.to hout) rfl rfl rfl ⟨hthread, bcGetEntryBySector_none hfind⟩
  | hit call i =>
    obtain ⟨hfree, hout⟩ := hstep.acquire
    obtain ⟨hok, hsector⟩ := hthread
    simp only [hsector, if_true] at hout
    exact h.own (m.to hout) (Touches.refl _ i) (.inr rfl) rfl rfl rfl rfl
      ⟨hsector, h.settled hfree⟩ hok
  | scan call round i =>
    have hadvance : (advance call round i).holdsElock = none ∧
        (advance call round i).countedAt = none ∧
        LocalInv disk c.shared (advance call round i) := by
      unfold advance
      split <;> exact ⟨rfl, rfl, hthread⟩
    rw [program] at hstep
    split at hstep
    · obtain ⟨hfree, hout⟩ := hstep.acquire
      exact h.visited (m.to hout) hfree
    · obtain ⟨hfree, hout⟩ | ⟨-, hout⟩ := hstep.tryAcquire
      · exact h.visited (m.to hout) hfree
      · exact h.walk (m.to hout) rfl hadvance.1 hadvance.2.1 hadvance.2.2
  | pass call round i =>
    have hadvance : (advance call round i).holdsElock = none ∧
        (advance call round i).countedAt = none ∧
        LocalInv disk c.shared (advance call round i) := by
      unfold advance
      split <;> exact ⟨rfl, rfl, hthread⟩
    exact h.giveBack (m.to hstep.release) (Touches.refl _ i) rfl hadvance.1 rfl rfl hadvance.2.1
      (hentry i rfl) hadvance.2.2
  | flushVictim call i k =>
    obtain ⟨hflushing, hidle⟩ := hentry i rfl
    obtain ⟨hok, habsent⟩ := hthread
    have hout := hstep.run
    by_cases hk : k < 512
    · simp only [hk, if_true] at hout
      refine h.own (m.to hout) (Touches.writeByte hflushing.nonempty k) (.inl rfl) rfl rfl rfl rfl
        ⟨?_, hidle⟩ ⟨hok, habsent⟩
      have hnext := hflushing.step
      simpa [SharedCache.writeByte] using hnext
    · simp only [hk, if_false, assign_flushed] at hout
      exact h.assign (m.to hout) (.inl rfl) rfl rfl hok habsent hidle
        fun _ => hflushing.done hk
  | fetched call i isCacheMiss =>
    have hout := hstep.release
    cases call with
    | read r =>
      cases isCacheMiss <;> exact h.own (m.to hout) (Touches.refl _ i) (.inl rfl) rfl rfl rfl rfl
        (hentry i rfl) hthread
    | readAhead sector =>
      cases isCacheMiss <;> exact h.own (m.to hout) (Touches.refl _ i) (.inl rfl) rfl rfl rfl rfl
        (hentry i rfl) hthread
    | write w =>
      cases isCacheMiss with
      | false =>
        obtain ⟨hsector, hsettled⟩ := hentry i rfl
        have hnonempty : (c.shared.cache i).sector ≠ emptySector := by
          rw [hsector]
          exact hthread.1
        refine h.writer (m.to hout) rfl rfl hthread hsector (fun j _ _ => ?_) fun _ => hsettled
        rw [(hsettled hnonempty).1, hsector]
        rfl
      | true =>
        have hmissed := hentry i rfl
        simp only [use, if_true] at hout
        by_cases hpart : w.offset > 0 ∨ w.buffer.length + w.offset < blockSectorSize
        · rw [if_pos hpart] at hout
          by_cases hsize : c.shared.fsDevice.size ≤ w.sector
          · simp only [hsize, if_true] at hout
            refine h.own (m.to hout) (Touches.refl _ i) (.inl rfl) rfl rfl rfl rfl
              (fun hreaders => ?_) trivial
            exact absurd hmissed.idle (by omega)
          · simp only [hsize, if_false] at hout
            exact h.own (m.to hout) (Touches.refl _ i) (.inl rfl) rfl rfl rfl rfl
              ⟨hmissed, fun j hj => absurd hj (Nat.not_lt_zero j)⟩ hthread
        · rw [if_neg hpart] at hout
          have hle := hthread.2
          unfold blockSectorSize at hpart
          simp only at hle
          exact h.own (m.to hout) (Touches.refl _ i) (.inl rfl) rfl rfl rfl rfl
            ⟨hmissed, by omega, by omega⟩ hthread
  | notFound call i =>
    exact h.giveBack (m.to hstep.release) (Touches.refl _ i) rfl rfl rfl rfl rfl (hentry i rfl)
      hthread
  | retry call => exact h.walk (m.to hstep.release) rfl rfl rfl hthread
  | locked call i isCacheMiss =>
    obtain ⟨-, hout⟩ := hstep.acquire
    cases isCacheMiss with
    | true =>
      have hmissed := hentry i rfl
      simp only [if_true] at hout
      by_cases hsize : c.shared.fsDevice.size ≤ call.sector
      · rw [if_pos hsize] at hout
        refine h.own (m.to hout) (Touches.refl _ i) (.inl rfl) rfl rfl rfl rfl
          (fun hreaders => ?_) trivial
        exact absurd hmissed.idle (by omega)
      · rw [if_neg hsize] at hout
        exact h.own (m.to hout) (Touches.refl _ i) (.inl rfl) rfl rfl rfl rfl
          ⟨hmissed, fun j hj => absurd hj (Nat.not_lt_zero j)⟩ hthread
    | false =>
      exact h.own (m.to hout) (Touches.refl _ i) (.inl rfl) rfl rfl rfl rfl (hentry i rfl) hthread
  | fill call i k =>
    obtain ⟨hmissed, hfilled⟩ := hentry i rfl
    have hout := hstep.run
    by_cases hk : k < 512
    · simp only [hk, if_true] at hout
      refine h.own (m.to hout) (Touches.setEntry fun hreaders => ?_) (.inl rfl) rfl ?_ ?_ rfl ?_
        hthread
      · exact absurd hmissed.idle (by omega)
      · rw [SharedCache.setByte, SharedCache.setEntry_cache_self]
      · rw [SharedCache.setByte, SharedCache.setEntry_cache_self]
      · rw [SharedCache.setByte, SharedCache.setEntry_cache_self, ← hmissed.sector]
        exact ⟨⟨hmissed.sector, hmissed.clean, hmissed.idle, hmissed.device⟩,
          filled_step hmissed.device hfilled⟩
    · simp only [hk, if_false] at hout
      refine h.own (m.to hout) (Touches.refl _ i) (.inl rfl) rfl rfl rfl rfl
        ⟨hmissed.sector, fun _ => ⟨?_, fun _ => hmissed.device⟩⟩ hthread
      exact SectorData.ext_byte fun j hj => hfilled j (by omega) hj
  | filled call i =>
    have hout := hstep.release
    obtain ⟨hsector, hsettled⟩ := hentry i rfl
    cases call with
    | read r => exact h.count (m.to hout) hthread
    | write w =>
      refine h.own (m.to hout) (Touches.setEntry fun _ => ⟨rfl, rfl⟩) (.inl rfl) rfl ?_ ?_ rfl ?_
        trivial
      all_goals simp only [countReader, SharedCache.setEntry_cache_self]
      exact ⟨hsector, hsettled⟩
    | readAhead sector =>
      refine h.own (m.to hout) (Touches.setEntry fun _ => ⟨rfl, rfl⟩) (.inl rfl) rfl ?_ ?_ rfl ?_
        trivial
      all_goals simp only [countReader, SharedCache.setEntry_cache_self]
      exact ⟨hsector, hsettled⟩
  | release call i =>
    have hout := hstep.release
    obtain ⟨-, hsettled⟩ := hentry i rfl
    cases call with
    | read r =>
      exact h.giveBack (m.to hout) (Touches.refl _ i) rfl rfl rfl rfl rfl hsettled
        ⟨hthread.1, hthread.2, Nat.zero_le _, rfl⟩
    | write w =>
      exact h.giveBack (m.to hout) (Touches.refl _ i) rfl rfl rfl rfl rfl hsettled trivial
    | readAhead sector =>
      exact h.giveBack (m.to hout) (Touches.refl _ i) rfl rfl rfl rfl rfl hsettled trivial
  | copyOut r i bytes =>
    rw [program] at hstep
    by_cases hlength : bytes.length < r.size
    · rw [if_pos hlength] at hstep
      obtain ⟨hok, hsector, -, hbytes⟩ := hthread
      have hnonempty : (c.shared.cache i).sector ≠ emptySector := by
        rw [hsector]
        exact hok.1
      have hdata := (h.entry i).data (h.readers_pos (u := t) (by rw [hp]; rfl)) hnonempty
      refine h.walk (m.to hstep.run) rfl rfl rfl ⟨hok, hsector, ?_, ?_⟩
      · rw [List.length_append, List.length_singleton]
        omega
      · rw [List.length_append, List.length_singleton, copyOut_succ, ← hbytes, hdata, hsector]
    · rw [if_neg hlength] at hstep
      obtain ⟨hfree, hout⟩ := hstep.acquire
      exact h.discount (m.to hout) hfree hlength
  | uncount r i bytes =>
    exact h.giveBack (m.to hstep.release) (Touches.refl _ i) rfl rfl rfl rfl rfl (hentry i rfl)
      hthread
  | writeFill w i k =>
    obtain ⟨hmissed, hfilled⟩ := hentry i rfl
    have hout := hstep.run
    by_cases hk : k < 512
    · simp only [hk, if_true] at hout
      refine h.own (m.to hout) (Touches.setEntry fun hreaders => ?_) (.inl rfl) rfl ?_ ?_ rfl ?_
        hthread
      · exact absurd hmissed.idle (by omega)
      · rw [SharedCache.setByte, SharedCache.setEntry_cache_self]
      · rw [SharedCache.setByte, SharedCache.setEntry_cache_self]
      · rw [SharedCache.setByte, SharedCache.setEntry_cache_self, ← hmissed.sector]
        exact ⟨⟨hmissed.sector, hmissed.clean, hmissed.idle, hmissed.device⟩,
          filled_step hmissed.device hfilled⟩
    · simp only [hk, if_false] at hout
      refine h.writer (m.to hout) rfl rfl hthread hmissed.sector (fun j hj _ => ?_)
        fun hreaders => absurd hmissed.idle (by omega)
      rw [← hmissed.sector]
      exact hfilled j (by omega) hj
  | writeClear w i k =>
    obtain ⟨hmissed, hoffset, hsize⟩ := hentry i rfl
    have hout := hstep.run
    by_cases hk : k < 512
    · simp only [hk, if_true] at hout
      refine h.own (m.to hout) (Touches.setEntry fun hreaders => ?_) (.inl rfl) rfl ?_ ?_ rfl ?_
        hthread
      · exact absurd hmissed.idle (by omega)
      · rw [SharedCache.setByte, SharedCache.setEntry_cache_self]
      · rw [SharedCache.setByte, SharedCache.setEntry_cache_self]
      · rw [SharedCache.setByte, SharedCache.setEntry_cache_self]
        exact ⟨⟨hmissed.sector, hmissed.clean, hmissed.idle, hmissed.device⟩, hoffset, hsize⟩
    · simp only [hk, if_false] at hout
      -- the write replaces all of the sector
      exact h.writer (m.to hout) rfl rfl hthread hmissed.sector (fun j hj hout => by omega)
        fun hreaders => absurd hmissed.idle (by omega)
  | copyIn w i k =>
    have hcopying : Copying w k _ _ := hentry i rfl
    have hout := hstep.run
    by_cases hk : k < w.buffer.length
    · simp only [hk, if_true] at hout
      refine h.own (m.to hout) (Touches.setEntry fun hreaders => ?_) (.inl rfl) rfl ?_ ?_ rfl ?_
        hthread
      · exact absurd hcopying.idle (by omega)
      · rw [SharedCache.setByte, SharedCache.setEntry_cache_self]
      · rw [SharedCache.setByte, SharedCache.setEntry_cache_self]
      · rw [SharedCache.setByte, SharedCache.setEntry_cache_self]
        exact hcopying.step hk
    · simp only [hk, if_false] at hout
      refine h.own (m.to hout) (Touches.refl _ i) (.inl rfl) rfl rfl rfl rfl ?_ hthread
      exact { hcopying with copied := fun j hj hle hlt => hcopying.copied j hj hle (by omega) }
  | written w i =>
    have hcopying : Copying w w.buffer.length _ _ := hentry i rfl
    refine h.giveBack (m.to hstep.release)
      (Touches.complete hcopying.sector hcopying.idle hthread) rfl rfl rfl rfl rfl
      (fun _ => ⟨?_, fun hclean => ?_⟩) trivial
    · rw [hcopying.sector, contents_append_self, ← hcopying.sector]
      exact hcopying.done
    · rw [hcopying.dirty] at hclean
      cases hclean
  | refused w i =>
    exact h.giveBack (m.to hstep.release) (Touches.refl _ i) rfl rfl rfl rfl rfl (hentry i rfl)
      hthread
  | flushLock daemon =>
    obtain ⟨-, hout⟩ := hstep.acquire
    exact h.walk (m.to hout) rfl rfl rfl trivial
  | flushVisit daemon i =>
    obtain ⟨hfree, hout⟩ := hstep.acquire
    have hsettled := h.settled hfree
    by_cases hwants : wantsFlush daemon (c.shared.cache i) = true
    · simp only [hwants, if_true] at hout
      by_cases hsize : c.shared.fsDevice.size ≤ (c.shared.cache i).sector
      · rw [if_pos hsize] at hout
        exact h.own (m.to hout) (Touches.refl _ i) (.inr rfl) rfl rfl rfl rfl
          (fun _ => hsettled) trivial
      · rw [if_neg hsize] at hout
        have hnonempty : (c.shared.cache i).sector ≠ emptySector :=
          Cache.ne_empty (Nat.lt_of_not_le hsize)
        have hdirty : (c.shared.cache i).isDirty = true := by
          unfold wantsFlush at hwants
          exact (Bool.and_eq_true_iff.mp hwants).1
        exact h.own (m.to hout) (Touches.refl _ i) (.inr rfl) rfl rfl rfl rfl
          ⟨hnonempty, hdirty, (hsettled hnonempty).1, fun j hj => absurd hj (Nat.not_lt_zero j)⟩
          trivial
    · simp only [hwants] at hout
      exact h.own (m.to hout) (Touches.refl _ i) (.inr rfl) rfl rfl rfl rfl hsettled trivial
  | flushWrite daemon i k =>
    have hflushing : Flushing k _ _ _ := hentry i rfl
    have hout := hstep.run
    by_cases hk : k < 512
    · simp only [hk, if_true] at hout
      refine h.own (m.to hout) (Touches.writeByte hflushing.nonempty k) (.inl rfl) rfl rfl rfl rfl
        ?_ trivial
      have hnext := hflushing.step
      simpa [SharedCache.writeByte, EntryInv] using hnext
    · simp only [hk, if_false] at hout
      refine h.own (m.to hout) (Touches.setEntry fun _ => ⟨rfl, rfl⟩) (.inl rfl) rfl ?_ ?_ rfl ?_
        trivial
      · rw [SharedCache.setEntry_cache_self]
      · rw [SharedCache.setEntry_cache_self]
      · rw [SharedCache.setEntry_cache_self]
        exact fun _ => ⟨hflushing.data, fun _ => hflushing.done hk⟩
  | flushNext daemon i =>
    have hout := hstep.release
    by_cases hi : i = 63
    · simp only [hi, if_true] at hout
      exact h.giveBack (m.to hout) (Touches.refl _ i) rfl rfl rfl rfl rfl (hentry i rfl) trivial
    · simp only [hi, if_false] at hout
      exact h.giveBack (m.to hout) (Touches.refl _ i) rfl rfl rfl rfl rfl (hentry i rfl) trivial
  | flushUnlock => exact h.walk (m.to hstep.release) rfl rfl rfl trivial
  | removeLock sector => exact hthread.elim
  | removeVisit sector i => exact hthread.elim
  | removed i => exact hthread.elim
  | removeUnlock => exact hthread.elim

/-- Every step keeps the invariant and the entries that have readers. -/
theorem Inv.step [DecidableEq T] (h : Inv disk c) (hstep : Step program startsKeeping c t c') :
    Inv disk c' ∧ Kept c.shared c'.shared := by
  have htyped : LockProgram.Typed program startsKeeping holds :=
    ⟨typed.instr, fun hstart => typed.start hstart.1⟩
  have m : Move c c' t (c.pc t) (c'.pc t) c'.shared :=
    ⟨rfl, rfl, rfl, fun u hu => hstep.pc_ne hu, htyped.step h.locked hstep⟩
  cases hstep with
  | instr hstep => exact h.executes rfl hstep m
  | @start q hstart =>
    obtain ⟨⟨hidle, hstarts⟩, hremove, hsector⟩ := hstart
    rw [Config.jump_pc] at m
    have hp : (c.pc t).holdsElock = none ∧ (c.pc t).countedAt = none := by
      rcases hidle with heq | ⟨r, bytes, heq⟩ <;> rw [heq] <;> exact ⟨rfl, rfl⟩
    have hq : q.holdsElock = none ∧ q.countedAt = none := by
      cases hstarts <;> exact ⟨rfl, rfl⟩
    refine h.walk m hp.1 hq.1 (hq.2.trans hp.2.symm) ?_
    cases hstarts with
    | read hsize => exact ⟨hsector _ rfl, hsize⟩
    | write hsize => exact ⟨hsector _ rfl, hsize⟩
    | writeAllowed => trivial
    | readAhead hnonempty => exact ⟨hnonempty, trivial⟩
    | flushAll => trivial
    | daemonFlush => trivial
    | remove sector => exact hremove sector rfl

theorem Inv.initial (memory : Fin 64 → SectorData) (fsDevice : Block) :
    Inv fsDevice.data (.initial memory fsDevice : CacheConfig T) where
  locked l _ := iff_of_false nofun (holds_none rfl rfl l)
  unique _ _ hi := absurd rfl hi
  absent _ _ _ := rfl
  entry _ := fun hnonempty => absurd rfl hnonempty
  thread _ := trivial
  readers _ := ⟨∅, fun _ => iff_of_false (Finset.notMem_empty _) nofun, rfl⟩

/-- However the steps of any number of threads that read, write, read ahead and flush interleave, no
step changes the sector or the data of an entry that has readers, and the bytes that a
`bc_block_read` returns are all from the requested sector as it was after some prefix of the
completed calls of `bc_block_write`. -/
theorem readers_see_one_version [DecidableEq T] (memory : Fin 64 → SectorData) (fsDevice : Block)
    (c : CacheConfig T) (hreach : Reach program startsKeeping (CacheConfig.initial memory fsDevice) c) :
    (∀ t c', Step program startsKeeping c t c' → Kept c.shared c'.shared) ∧
      ∀ t r bytes, c.pc t = .returned r bytes →
        OneVersion fsDevice.data c.shared.completed r bytes := by
  have hinv : Inv fsDevice.data c :=
    hreach.invariant (fun _ _ _ h hstep => (h.step hstep).1) (Inv.initial memory fsDevice)
  refine ⟨fun t c' hstep => (hinv.step hstep).2, fun t r bytes hreturned => ?_⟩
  have hthread := hinv.thread t
  rw [hreturned] at hthread
  exact hthread

/-- `readers_see_one_version` when one thread is writing sector 0 and another one has called
`bc_block_read` for it. -/
theorem readers_see_one_version_two_calls :
    ∃ c : CacheConfig Bool,
      c.pc true = .getLock (.read ⟨0, 0, 1⟩) ∧ c.pc false = .fetched (.write ⟨0, [7], 0⟩) 0 true ∧
      (∀ t c', Step program startsKeeping c t c' → Kept c.shared c'.shared) ∧
      ∀ t r bytes, c.pc t = .returned r bytes →
        OneVersion (fun _ => SectorData.zeros) c.shared.completed r bytes := by
  have hwrite : Reach program startsKeeping
      (CacheConfig.initial (fun _ => SectorData.zeros)
        { size := 1, size_lt := by decide, data := fun _ => SectorData.zeros }) _ :=
    .single ⟨false, .start (p := .getLock (.write ⟨0, [7], 0⟩))
      ⟨⟨.inl rfl, .write (by decide)⟩, nofun, by rintro _ ⟨⟩; decide⟩⟩
  have hread := hwrite.tail ⟨true, .start (p := .getLock (.read ⟨0, 0, 1⟩))
    ⟨⟨.inl rfl, .read (by decide)⟩, nofun, by rintro _ ⟨⟩; decide⟩⟩
  have hlock := hread.tail ⟨false, .instr ⟨rfl, rfl⟩⟩
  have hscan := hlock.tail ⟨false, .instr (.inl ⟨rfl, rfl⟩)⟩
  exact ⟨_, rfl, rfl, readers_see_one_version _ _ _ hscan⟩

end Pintos
