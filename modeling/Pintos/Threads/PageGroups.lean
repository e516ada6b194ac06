import Pintos.Library.Routine
import Pintos.Threads.Palloc

/-! The page groups that the page allocator hands out do not overlap.  A page is marked exactly as
long as one party has it: the caller with whom its group is, a thread that is marking the group, or
a thread that frees it and has not unmarked the page yet. -/

namespace Pintos

namespace Palloc

open LockProgram (Config Instr Step Reach Locked Typed)
open Ownership (Exclusive)

variable {s s' : Memory} {r : Request} {p : PoolId} {g : Group} {pc q : Pc}
  {i k idx cnt pageIdx : Nat} {b : Bitmap} {pools : PoolId → Pool}

/-! ### What a step can do -/

theorem checkRange_ok (h : idx + cnt ≤ b.bitCnt) : checkRange b idx cnt = .ok () := by
  rw [checkRange, if_neg (by omega), if_neg (by omega)]
  rfl

theorem bitmapTest_ok (h : idx < b.bitCnt) : bitmapTest b idx = .ok (b.bits idx) := by
  rw [bitmapTest, if_pos h]
  rfl

/-- The memory with one bit of a bitmap set to a value. -/
def Memory.setBit (s : Memory) (p : PoolId) (idx : Nat) (value : Bool) : Memory :=
  { s with
    usedMap := Function.update s.usedMap p
      { s.usedMap p with bits := Function.update (s.usedMap p).bits idx value } }

theorem bitmapSet_ok (h : idx < (s.usedMap p).bitCnt) (value : Bool) :
    bitmapSet s p idx value = .ok (s.setBit p idx value) := by
  rw [bitmapSet]
  exact if_pos h

@[simp] theorem setBit_live (s : Memory) (p : PoolId) (idx : Nat) (value : Bool) :
    (s.setBit p idx value).live = s.live := rfl

@[simp] theorem setBit_bitCnt (s : Memory) (p p' : PoolId) (idx : Nat) (value : Bool) :
    ((s.setBit p idx value).usedMap p').bitCnt = (s.usedMap p').bitCnt := by
  show (Function.update s.usedMap p _ p').bitCnt = _
  rw [Function.update_apply]
  split_ifs with hp
  · rw [hp]
  · rfl

theorem setBit_bits (s : Memory) (p p' : PoolId) (idx j : Nat) (value : Bool) :
    ((s.setBit p idx value).usedMap p').bits j =
      if p' = p ∧ j = idx then value else (s.usedMap p').bits j := by
  show (Function.update s.usedMap p _ p').bits j = _
  by_cases hp : p' = p
  · subst hp
    rw [Function.update_self]
    show Function.update (s.usedMap p').bits idx value j = _
    rw [Function.update_apply]
    simp
  · rw [Function.update_of_ne hp, if_neg fun h => hp h.1]

namespace Pc

theorem attempt_of_ok {next : Memory → Except Fault (Memory × Pc)} {x : Memory × Pc}
    (h : next s = .ok x) : attempt pc next s = x := by
  rw [attempt, h]

/-- A step that fails leaves the locks as they are. -/
theorem holds_attempt {next : Memory → Except Fault (Memory × Pc)}
    (h : ∀ x, next s = .ok x → (holds x.2 p ↔ holds pc p)) :
    holds (attempt pc next s).2 p ↔ holds pc p := by
  rw [attempt]
  split
  · rename_i x hx
    exact h x hx
  · exact Iff.rfl

end Pc

/-- What `bitmap_scan` does next. -/
inductive Scanned (r : Request) (i k : Nat) (s : Memory) : Pc → Prop where
  | failed : Scanned r i k s (.release r none)
  | found (hle : i ≤ (s.usedMap r.pool).bitCnt - r.pageCnt) (hk : r.pageCnt ≤ k) :
      Scanned r i k s (.flip r i 0)
  | used : Scanned r i k s (.scan r (i + 1) 0)
  | free (hk : k < r.pageCnt) (hbit : (s.usedMap r.pool).bits (i + k) = false) :
      Scanned r i k s (.scan r i (k + 1))

theorem scanStep_ok (h : r.pageCnt ≤ (s.usedMap r.pool).bitCnt) :
    ∃ q, scanStep r i k s = .ok (s, q) ∧ Scanned r i k s q := by
  unfold scanStep
  by_cases hlast : (s.usedMap r.pool).bitCnt - r.pageCnt < i
  · exact ⟨_, if_pos hlast, .failed⟩
  dsimp only
  rw [if_neg hlast, checkRange_ok (by omega)]
  by_cases hk : k < r.pageCnt
  · cases hbit : (s.usedMap r.pool).bits (i + k) with
    | true =>
      refine ⟨.scan r (i + 1) 0, ?_, .used⟩
      rw [if_pos hk, bitmapTest_ok (by omega), hbit]
      rfl
    | false =>
      refine ⟨.scan r i (k + 1), ?_, .free hk hbit⟩
      rw [if_pos hk, bitmapTest_ok (by omega), hbit]
      rfl
  · exact ⟨.flip r i 0, by rw [if_neg hk]; rfl, .found (by omega) (by omega)⟩

theorem flipStep_ok (h : pageIdx + r.pageCnt ≤ (s.usedMap r.pool).bitCnt) :
    flipStep r pageIdx k s = .ok (if k < r.pageCnt then
      (s.setBit r.pool (pageIdx + k) true, .flip r pageIdx (k + 1))
    else (s, .release r (some pageIdx))) := by
  rw [flipStep, checkRange_ok h]
  split_ifs with hk
  · rw [bitmapSet_ok (by omega)]
    rfl
  · rfl

theorem checkStep_ok (h : pageIdx + cnt ≤ (s.usedMap p).bitCnt)
    (hused : k < cnt → (s.usedMap p).bits (pageIdx + k) = true) :
    checkStep p pageIdx cnt k s =
      .ok (s, if k < cnt then .check p pageIdx cnt (k + 1) else .clear p pageIdx cnt 0) := by
  unfold checkStep
  dsimp only
  rw [checkRange_ok h]
  split_ifs with hk
  · rw [bitmapTest_ok (by omega), hused hk]
    rfl
  · rfl

theorem clearStep_ok (h : pageIdx + cnt ≤ (s.usedMap p).bitCnt) :
    clearStep p pageIdx cnt k s = .ok (if k < cnt then
      (s.setBit p (pageIdx + k) false, .clear p pageIdx cnt (k + 1))
    else (s, .idle)) := by
  rw [clearStep, checkRange_ok h]
  split_ifs with hk
  · rw [bitmapSet_ok (by omega)]
    rfl
  · rfl

/-! ### The locks -/

theorem scanStep_holds {x : Memory × Pc} (h : scanStep r i k s = .ok x) :
    x.2.holds p ↔ p = r.pool := by
  unfold scanStep at h
  dsimp only at h
  split_ifs at h with hlast hk
  · cases h
    rfl
  · cases hrange : checkRange (s.usedMap r.pool) i r.pageCnt <;> rw [hrange] at h
    · cases h
    · cases htest : bitmapTest (s.usedMap r.pool) (i + k) <;> rw [htest] at h
      · cases h
      · cases h
        dsimp only
        split <;> rfl
  · cases hrange : checkRange (s.usedMap r.pool) i r.pageCnt <;> rw [hrange] at h
    · cases h
    · cases h
      rfl

theorem flipStep_holds {x : Memory × Pc} (h : flipStep r pageIdx k s = .ok x) :
    x.2.holds p ↔ p = r.pool := by
  unfold flipStep at h
  cases hrange : checkRange (s.usedMap r.pool) pageIdx r.pageCnt <;> rw [hrange] at h
  · cases h
  · split_ifs at h
    · cases hset : bitmapSet s r.pool (pageIdx + k) true <;> rw [hset] at h <;> cases h
      rfl
    · cases h
      rfl

theorem gotStep_holds {x : Memory × Pc} {idx : Option Nat} (h : gotStep pools r idx s = .ok x) :
    ¬ x.2.holds p := by
  unfold gotStep at h
  dsimp only at h
  split_ifs at h <;> cases h <;> exact id

theorem freeStep_holds {x : Memory × Pc} (h : freeStep pools g s = .ok x) : ¬ x.2.holds p := by
  unfold freeStep at h
  split_ifs at h <;> cases h <;> exact id

theorem checkStep_holds {p' : PoolId} {x : Memory × Pc}
    (h : checkStep p' pageIdx cnt k s = .ok x) : ¬ x.2.holds p := by
  unfold checkStep at h
  dsimp only at h
  cases hrange : checkRange (s.usedMap p') pageIdx cnt <;> rw [hrange] at h
  · cases h
  · split_ifs at h
    · cases htest : bitmapTest (s.usedMap p') (pageIdx + k) <;> rw [htest] at h
      · cases h
      · rename_i used
        cases used <;> cases h
        exact id
    · cases h
      exact id

theorem clearStep_holds {p' : PoolId} {x : Memory × Pc}
    (h : clearStep p' pageIdx cnt k s = .ok x) : ¬ x.2.holds p := by
  unfold clearStep at h
  cases hrange : checkRange (s.usedMap p') pageIdx cnt <;> rw [hrange] at h
  · cases h
  · split_ifs at h
    · cases hset : bitmapSet s p' (pageIdx + k) false <;> rw [hset] at h <;> cases h
      exact id
    · cases h
      exact id

theorem start_cases (h : pc.start q) : pc = .idle ∧ ((∃ r, q = .get r) ∨ ∃ g, q = .free g) := by
  unfold Pc.start Pc.starts at h
  split at h
  · exact ⟨rfl, .inl ⟨_, rfl⟩⟩
  · exact ⟨rfl, .inr ⟨_, rfl⟩⟩
  · cases h

/-- The program counter says which locks are held. -/
theorem typed (pools : PoolId → Pool) : Typed (Pc.program pools) Pc.start Pc.holds where
  instr pc := by
    cases pc with
    | idle => trivial
    | faulted fault pc => trivial
    | get r =>
      rw [Pc.program]
      split_ifs
      · exact fun s p => Iff.rfl
      · refine ⟨id, fun s p => ?_⟩
        dsimp only
        split_ifs <;> simp [Pc.holds]
    | scan r i k => exact fun s p => Pc.holds_attempt fun x hx => scanStep_holds hx
    | flip r pageIdx k => exact fun s p => Pc.holds_attempt fun x hx => flipStep_holds hx
    | release r pageIdx =>
      refine ⟨rfl, fun s p => ?_⟩
      exact ⟨False.elim, fun h => h.2 h.1⟩
    | got r pageIdx =>
      exact fun s p => Pc.holds_attempt fun x hx => iff_of_false (gotStep_holds hx) id
    | free g =>
      intro s p
      dsimp only
      split_ifs
      · exact Pc.holds_attempt fun x hx => iff_of_false (freeStep_holds hx) id
      · exact Iff.rfl
    | check p' pageIdx cnt k =>
      exact fun s p => Pc.holds_attempt fun x hx => iff_of_false (checkStep_holds hx) id
    | clear p' pageIdx cnt k =>
      exact fun s p => Pc.holds_attempt fun x hx => iff_of_false (clearStep_holds hx) id
  start := by
    intro pc q h p
    obtain ⟨rfl, ⟨r, rfl⟩ | ⟨g, rfl⟩⟩ := start_cases h <;> exact Iff.rfl

/-! ### Who has a page -/

/-- The pages of a pool from `first` on, as long as they are before `last`. -/
structure Span where
  pool : PoolId
  first : Nat
  last : Nat

/-- The page with number `x.2` of pool `x.1` is among them. -/
def Span.Has (span : Span) (x : PoolId × Nat) : Prop :=
  span.pool = x.1 ∧ span.first ≤ x.2 ∧ x.2 < span.last

/-- No pages. -/
def Span.empty : Span := ⟨.kernel, 0, 0⟩

theorem Span.not_has (span : Span) (h : span.last ≤ span.first) (x : PoolId × Nat) :
    ¬ span.Has x := by
  rintro ⟨-, hfirst, hlast⟩
  omega

/-- The pages that a thread has: those that it has marked, and those that it has not unmarked. -/
def Pc.span : Pc → Span
  | flip r pageIdx k => ⟨r.pool, pageIdx, pageIdx + k⟩
  | release r (some pageIdx) | got r (some pageIdx) => ⟨r.pool, pageIdx, pageIdx + r.pageCnt⟩
  | check p pageIdx pageCnt _ => ⟨p, pageIdx, pageIdx + pageCnt⟩
  | clear p pageIdx pageCnt k => ⟨p, pageIdx + k, pageIdx + pageCnt⟩
  | faulted _ pc => pc.span
  | _ => Span.empty

/-- The number in its pool of the first page of a group. -/
def Group.firstPage (pools : PoolId → Pool) (g : Group) : Nat :=
  g.pages / pgSize - (pools (poolId g.user)).base / pgSize

def Group.span (pools : PoolId → Pool) (g : Group) : Span :=
  ⟨poolId g.user, g.firstPage pools, g.firstPage pools + g.pageCnt⟩

/-- The group is one of pages of the pool that was asked for. -/
structure Group.Ok (pools : PoolId → Pool) (g : Group) : Prop where
  pages : g.pages = (pools (poolId g.user)).base + pgSize * g.firstPage pools
  inside : g.firstPage pools + g.pageCnt ≤ (pools (poolId g.user)).pageCnt
  pos : 0 < g.pageCnt

/-- The pools as `palloc_init` makes them. -/
structure PoolsOk (pools : PoolId → Pool) : Prop where
  aligned : ∀ p, (pools p).base % pgSize = 0
  pos : ∀ p, 0 < (pools p).base
  maps : ∀ p, (pools p).usedMap ≤ (pools p).base
  order : (pools .kernel).base + pgSize * (pools .kernel).pageCnt ≤ (pools .user).usedMap

/-- The page number of a page, counted in its pool. -/
theorem page_sub (h : PoolsOk pools) (p : PoolId) (i : Nat) :
    ((pools p).base + pgSize * i) / pgSize - (pools p).base / pgSize = i := by
  have haligned := h.aligned p
  unfold pgSize at *
  omega

/-- `palloc_free_multiple` finds the pool of a group and its number there. -/
theorem freeStep_ok (h : PoolsOk pools) (hg : g.Ok pools)
    (hsize : ∀ p, (s.usedMap p).bitCnt = (pools p).pageCnt) :
    freeStep pools g s = .ok (s, .check (poolId g.user) (g.firstPage pools) g.pageCnt 0) := by
  obtain ⟨hpages, hinside, hcnt⟩ := hg
  have haligned : g.pages % pgSize = 0 := by
    have hbase := h.aligned (poolId g.user)
    rw [hpages]
    unfold pgSize at *
    omega
  have hpos := h.pos (poolId g.user)
  have hfrom : ∀ p, pageFromPool pools s p g.pages = true ↔ p = poolId g.user := by
    intro p
    have hbase := h.aligned p
    have hbase' := h.aligned (poolId g.user)
    rw [pageFromPool, hsize, Bool.and_eq_true, decide_eq_true_eq, decide_eq_true_eq]
    constructor
    · rintro ⟨hle, hlt⟩
      have horder := h.order
      have hmap := h.maps .user
      rcases p with _ | _ <;> cases huser : g.user <;>
        simp only [huser, poolId, Bool.false_eq_true, if_true, if_false] at * <;>
        first | rfl | (unfold pgSize at *; omega)
    · rintro rfl
      unfold pgSize at *
      omega
  have hidle : ¬ (g.pages = 0 ∨ g.pageCnt = 0) := by omega
  rw [freeStep, if_neg (not_not_intro haligned), if_neg hidle]
  cases huser : g.user with
  | false =>
    have hkernel := (hfrom .kernel).mpr (by rw [huser]; rfl)
    rw [if_pos hkernel, Group.firstPage, huser]
    rfl
  | true =>
    have hkernel : ¬ pageFromPool pools s .kernel g.pages = true := by
      rw [hfrom, huser]
      exact nofun
    have hpool := (hfrom .user).mpr (by rw [huser]; rfl)
    rw [if_neg hkernel, if_pos hpool, Group.firstPage, huser]
    rfl

section Threads

variable {T : Type}

abbrev Threads (T : Type) := Config T PoolId Memory Pc

variable {c c' : Threads T} {t u : T} {x : PoolId × Nat}

/-- The owners of pages are the threads, and the callers with their groups. -/
def owns (pools : PoolId → Pool) (c : Threads T) : T ⊕ Group → PoolId × Nat → Prop
  | .inl t, x => (c.pc t).span.Has x
  | .inr g, x => g ∈ c.shared.live ∧ (g.span pools).Has x

/-- The page is marked. -/
def Used (s : Memory) (x : PoolId × Nat) : Prop := (s.usedMap x.1).bits x.2 = true

/-- Where a thread is, as far as it concerns the bitmaps. -/
def Pc.Ok (pools : PoolId → Pool) (s : Memory) : Pc → Prop
  | scan r i k => 0 < r.pageCnt ∧ r.pageCnt ≤ (pools r.pool).pageCnt ∧
    ∀ j < k, ¬ Used s (r.pool, i + j)
  | flip r pageIdx k => 0 < r.pageCnt ∧ pageIdx + r.pageCnt ≤ (pools r.pool).pageCnt ∧
    k ≤ r.pageCnt ∧ ∀ j, k ≤ j → j < r.pageCnt → ¬ Used s (r.pool, pageIdx + j)
  | release r (some pageIdx) | got r (some pageIdx) =>
    0 < r.pageCnt ∧ pageIdx + r.pageCnt ≤ (pools r.pool).pageCnt
  | check p pageIdx pageCnt _ => pageIdx + pageCnt ≤ (pools p).pageCnt
  | clear p pageIdx pageCnt k => pageIdx + pageCnt ≤ (pools p).pageCnt ∧ k ≤ pageCnt
  | faulted fault _ => ∃ message, fault = .panic message
  | _ => True

/-- The invariant of the page allocator. -/
structure Sound (pools : PoolId → Pool) (c : Threads T) : Prop where
  exclusive : Exclusive (owns pools c) (Used c.shared)
  locked : Locked Pc.holds c
  bitCnt : ∀ p, (c.shared.usedMap p).bitCnt = (pools p).pageCnt
  pcs : ∀ t, (c.pc t).Ok pools c.shared
  groups : ∀ g ∈ c.shared.live, g.Ok pools
  nodup : c.shared.live.Nodup

/-- Only a thread that holds the lock of a pool marks pages of it. -/
theorem Pc.Ok.congr (h : pc.Ok pools s)
    (hmarks : ∀ x, Used s' x → Used s x ∨ ¬ pc.holds x.1) : pc.Ok pools s' := by
  cases pc with
  | scan r i k =>
    refine ⟨h.1, h.2.1, fun j hj hused => ?_⟩
    rcases hmarks _ hused with hused | hnot
    · exact h.2.2 j hj hused
    · exact hnot rfl
  | flip r pageIdx k =>
    refine ⟨h.1, h.2.1, h.2.2.1, fun j hk hj hused => ?_⟩
    rcases hmarks _ hused with hused | hnot
    · exact h.2.2.2 j hk hj hused
    · exact hnot rfl
  | release r pageIdx => cases pageIdx <;> exact h
  | got r pageIdx => cases pageIdx <;> exact h
  | idle | get | free | check | clear | faulted => exact h

/-- A step of thread `t`, as far as the locks and the other threads are concerned. -/
structure Moved (t : T) (c c' : Threads T) : Prop where
  others : ∀ u, u ≠ t → c'.pc u = c.pc u
  locked : Locked Pc.holds c'

/-- The other threads need not know about a step that marks pages only under the lock. -/
theorem Sound.pcs_of (h : Sound pools c) (hmoved : Moved t c c')
    (hmarks : ∀ x, Used c'.shared x → Used c.shared x ∨ (c.pc t).holds x.1)
    (hok : (c'.pc t).Ok pools c'.shared) (u : T) : (c'.pc u).Ok pools c'.shared := by
  by_cases hu : u = t
  · rw [hu]
    exact hok
  · rw [hmoved.others u hu]
    refine (h.pcs u).congr fun x hx => (hmarks x hx).imp_right fun ht hholds => ?_
    exact hu (h.locked.unique hholds ht)

/-- A step that neither changes the bitmaps nor hands pages over. -/
theorem Sound.quiet (h : Sound pools c) (hmoved : Moved t c c') (hshared : c'.shared = c.shared)
    (hspan : ∀ x, (c'.pc t).span.Has x ↔ (c.pc t).span.Has x)
    (hok : (c'.pc t).Ok pools c.shared) : Sound pools c' where
  exclusive := by
    refine h.exclusive.congr (fun y x => ?_) fun x => by rw [hshared]
    cases y with
    | inl u =>
      by_cases hu : u = t
      · subst hu
        exact hspan x
      · show (c'.pc u).span.Has x ↔ _
        rw [hmoved.others u hu]
        rfl
    | inr g =>
      show g ∈ c'.shared.live ∧ _ ↔ _
      rw [hshared]
      rfl
  locked := hmoved.locked
  bitCnt := by
    rw [hshared]
    exact h.bitCnt
  pcs := h.pcs_of hmoved (fun x hx => .inl (hshared ▸ hx)) (hshared ▸ hok)
  groups := by
    rw [hshared]
    exact h.groups
  nodup := by
    rw [hshared]
    exact h.nodup

theorem used_setBit {value : Bool} : Used (s.setBit p i value) x ↔
    if x = (p, i) then value = true else Used s x := by
  obtain ⟨p', j⟩ := x
  rw [Used, setBit_bits]
  simp only [Prod.mk.injEq]
  split_ifs <;> rfl

/-- A page is marked that was not. -/
theorem Sound.marked (h : Sound pools c) (hmoved : Moved t c c')
    (hshared : c'.shared = c.shared.setBit p i true) (hfree : ¬ Used c.shared (p, i))
    (hholds : (c.pc t).holds p)
    (hspan : ∀ x, (c'.pc t).span.Has x ↔ (c.pc t).span.Has x ∨ x = (p, i))
    (hok : (c'.pc t).Ok pools c'.shared) : Sound pools c' where
  exclusive := by
    refine h.exclusive.take (i := (p, i)) (x := .inl t) hfree (fun y x => ?_) fun x => ?_
    · cases y with
      | inl u =>
        by_cases hu : u = t
        · subst hu
          simpa [owns] using hspan x
        · show (c'.pc u).span.Has x ↔ _
          rw [hmoved.others u hu]
          simp [hu, owns]
      | inr g =>
        show g ∈ c'.shared.live ∧ _ ↔ _
        rw [hshared]
        simp [owns]
    · rw [hshared, used_setBit]
      split_ifs with hx
      · simp [hx]
      · simp [hx]
  locked := hmoved.locked
  bitCnt p' := by rw [hshared, setBit_bitCnt, h.bitCnt]
  pcs := by
    refine h.pcs_of hmoved (fun x hx => ?_) hok
    rw [hshared, used_setBit] at hx
    split_ifs at hx with heq
    · rw [heq]
      exact .inr hholds
    · exact .inl hx
  groups := by
    rw [hshared]
    exact h.groups
  nodup := by
    rw [hshared]
    exact h.nodup

/-- A page is unmarked. -/
theorem Sound.unmarked (h : Sound pools c) (hmoved : Moved t c c')
    (hshared : c'.shared = c.shared.setBit p i false) (hhas : (c.pc t).span.Has (p, i))
    (hspan : ∀ x, (c'.pc t).span.Has x ↔ (c.pc t).span.Has x ∧ x ≠ (p, i))
    (hok : (c'.pc t).Ok pools c'.shared) : Sound pools c' where
  exclusive := by
    have hmine : ∀ y, owns pools c y (p, i) → y = .inl t := fun y hy => h.exclusive.unique hy hhas
    refine h.exclusive.drop (i := (p, i)) (fun y x => ?_) fun x => ?_
    · cases y with
      | inl u =>
        by_cases hu : u = t
        · subst hu
          exact hspan x
        · show (c'.pc u).span.Has x ↔ (c.pc u).span.Has x ∧ _
          rw [hmoved.others u hu]
          refine ⟨fun hx => ⟨hx, ?_⟩, fun hx => hx.1⟩
          rintro rfl
          exact hu (Sum.inl.inj (hmine (.inl u) hx))
      | inr g =>
        show g ∈ c'.shared.live ∧ _ ↔ owns pools c (.inr g) x ∧ _
        rw [hshared, setBit_live]
        refine ⟨fun hx => ⟨hx, ?_⟩, fun hx => hx.1⟩
        rintro rfl
        exact nomatch hmine (.inr g) hx
    · rw [hshared, used_setBit]
      split_ifs with hx
      · simp [hx]
      · simp [hx]
  locked := hmoved.locked
  bitCnt p' := by rw [hshared, setBit_bitCnt, h.bitCnt]
  pcs := by
    refine h.pcs_of hmoved (fun x hx => ?_) hok
    rw [hshared, used_setBit] at hx
    split_ifs at hx with heq
    exact .inl hx
  groups := by
    rw [hshared]
    exact h.groups
  nodup := by
    rw [hshared]
    exact h.nodup

/-- A group that is complete goes to the caller. -/
theorem Sound.returned (h : Sound pools c) (hmoved : Moved t c c')
    (hshared : c'.shared = { c.shared with live := g :: c.shared.live }) (hg : g.Ok pools)
    (hold : (c.pc t).span = g.span pools) (hnew : ∀ x, ¬ (c'.pc t).span.Has x)
    (hok : (c'.pc t).Ok pools c.shared) : Sound pools c' := by
  have hfresh : g ∉ c.shared.live := by
    intro hmem
    have hfirst : (g.span pools).Has (poolId g.user, g.firstPage pools) :=
      ⟨rfl, Nat.le_refl _, Nat.lt_add_of_pos_right hg.pos⟩
    have hgroup : owns pools c (.inr g) (poolId g.user, g.firstPage pools) := ⟨hmem, hfirst⟩
    have hthread : owns pools c (.inl t) (poolId g.user, g.firstPage pools) := by
      show (c.pc t).span.Has _
      rw [hold]
      exact hfirst
    exact nomatch h.exclusive.unique hgroup hthread
  have hlive : c'.shared.live = g :: c.shared.live := by rw [hshared]
  have husedMap : c'.shared.usedMap = c.shared.usedMap := by rw [hshared]
  refine ⟨?_, hmoved.locked, fun p => by rw [husedMap, h.bitCnt],
    h.pcs_of hmoved (fun x hx => .inl ?_) (hok.congr fun x hx => .inl ?_), ?_, ?_⟩
  · refine h.exclusive.handOver (x := .inl t) (y := .inr g) (fun x hx => hfresh hx.1) hnew
      (fun x => ?_) (fun y x hy hyg => ?_) fun x => by rw [Used, husedMap]; rfl
    · show g ∈ c'.shared.live ∧ _ ↔ (c.pc t).span.Has x
      rw [hlive, hold]
      exact and_iff_right List.mem_cons_self
    · cases y with
      | inl u =>
        have hu : u ≠ t := fun heq => hy (heq ▸ rfl)
        show (c'.pc u).span.Has x ↔ _
        rw [hmoved.others u hu]
        rfl
      | inr g' =>
        have hg' : g' ≠ g := fun heq => hyg (heq ▸ rfl)
        show g' ∈ c'.shared.live ∧ _ ↔ _
        rw [hlive, List.mem_cons, or_iff_right hg']
        rfl
  · rwa [Used, husedMap] at hx
  · rwa [Used, husedMap] at hx
  · intro g' hmem
    rw [hlive] at hmem
    rcases List.mem_cons.mp hmem with rfl | hmem
    · exact hg
    · exact h.groups g' hmem
  · rw [hlive]
    exact List.nodup_cons.mpr ⟨hfresh, h.nodup⟩

/-- A group goes from its caller to a thread that frees it. -/
theorem Sound.taken (h : Sound pools c) (hmoved : Moved t c c')
    (hshared : c'.shared = { c.shared with live := c.shared.live.erase g })
    (hmem : g ∈ c.shared.live) (hold : ∀ x, ¬ (c.pc t).span.Has x)
    (hnew : (c'.pc t).span = g.span pools) (hok : (c'.pc t).Ok pools c.shared) :
    Sound pools c' := by
  have hlive : ∀ g', g' ∈ c'.shared.live ↔ g' ≠ g ∧ g' ∈ c.shared.live := fun g' => by
    rw [hshared]
    exact h.nodup.mem_erase_iff
  have husedMap : c'.shared.usedMap = c.shared.usedMap := by rw [hshared]
  refine ⟨?_, hmoved.locked, fun p => by rw [husedMap, h.bitCnt],
    h.pcs_of hmoved (fun x hx => .inl ?_) (hok.congr fun x hx => .inl ?_), fun g' hg' => ?_, ?_⟩
  · refine h.exclusive.handOver (x := .inr g) (y := .inl t) hold
      (fun x hx => ((hlive g).mp hx.1).1 rfl) (fun x => ?_) (fun y x hy hyt => ?_)
      fun x => by rw [Used, husedMap]; rfl
    · show (c'.pc t).span.Has x ↔ g ∈ c.shared.live ∧ _
      rw [hnew]
      exact (and_iff_right hmem).symm
    · cases y with
      | inl u =>
        have hu : u ≠ t := fun heq => hyt (heq ▸ rfl)
        show (c'.pc u).span.Has x ↔ _
        rw [hmoved.others u hu]
        rfl
      | inr g' =>
        have hg' : g' ≠ g := fun heq => hy (heq ▸ rfl)
        show g' ∈ c'.shared.live ∧ _ ↔ _
        rw [hlive, and_iff_right hg']
        rfl
  · rwa [Used, husedMap] at hx
  · rwa [Used, husedMap] at hx
  · exact h.groups g' ((hlive g').mp hg').2
  · rw [hshared]
    exact h.nodup.erase g

theorem Span.not_has_empty (x : PoolId × Nat) : ¬ Span.empty.Has x := Span.empty.not_has le_rfl x

theorem Sound.scanned (h : Sound pools c) (hmoved : Moved t c c')
    (hpc : c.pc t = .scan r i k) (hlead : (c'.shared, c'.pc t) =
      (Pc.scan r i k).attempt (scanStep r i k) c.shared) : Sound pools c' := by
  have hok := h.pcs t
  rw [hpc] at hok
  obtain ⟨hpos, hcnt, hfree⟩ := hok
  have hbitCnt := h.bitCnt r.pool
  obtain ⟨q, hrun, hscanned⟩ := scanStep_ok (i := i) (k := k) (hbitCnt.symm ▸ hcnt)
  rw [Pc.attempt_of_ok hrun] at hlead
  obtain ⟨hshared, rfl⟩ := Prod.mk.inj hlead
  have hnone : ∀ x, ¬ (c'.pc t).span.Has x := by
    generalize c'.pc t = q at hscanned
    cases hscanned with
    | found => exact Span.not_has _ (Nat.le_refl _)
    | failed | used | free => exact Span.not_has_empty
  refine h.quiet hmoved hshared (fun x => iff_of_false (hnone x) ?_) ?_
  · rw [hpc]
    exact Span.not_has_empty x
  generalize c'.pc t = q at hscanned
  cases hscanned with
  | failed => trivial
  | found hle hk => exact ⟨hpos, by omega, Nat.zero_le _, fun j _ hj => hfree j (by omega)⟩
  | used => exact ⟨hpos, hcnt, nofun⟩
  | free hk hbit =>
    refine ⟨hpos, hcnt, fun j hj => ?_⟩
    rcases Nat.lt_succ_iff_lt_or_eq.mp hj with hj | rfl
    · exact hfree j hj
    · rw [Used, hbit]
      exact nofun

theorem Sound.flipped (h : Sound pools c) (hmoved : Moved t c c')
    (hpc : c.pc t = .flip r pageIdx k) (hlead : (c'.shared, c'.pc t) =
      (Pc.flip r pageIdx k).attempt (flipStep r pageIdx k) c.shared) : Sound pools c' := by
  have hok := h.pcs t
  rw [hpc] at hok
  obtain ⟨hpos, hinside, hle, hfree⟩ := hok
  rw [Pc.attempt_of_ok (flipStep_ok (by rw [h.bitCnt]; exact hinside))] at hlead
  split_ifs at hlead with hk
  · obtain ⟨hshared, hnext⟩ := Prod.mk.inj hlead
    refine h.marked hmoved hshared (hfree k (Nat.le_refl _) hk) (by rw [hpc]; rfl) (fun x => ?_) ?_
    · rw [hnext, hpc]
      obtain ⟨p, j⟩ := x
      simp only [Pc.span, Span.Has, Prod.mk.injEq]
      constructor
      · rintro ⟨rfl, hfirst, hlast⟩
        by_cases hj : j = pageIdx + k
        · exact .inr ⟨rfl, hj⟩
        · exact .inl ⟨rfl, hfirst, by omega⟩
      · rintro (⟨rfl, hfirst, hlast⟩ | ⟨rfl, rfl⟩)
        · exact ⟨rfl, hfirst, by omega⟩
        · exact ⟨rfl, by omega, by omega⟩
    · rw [hnext, hshared]
      refine ⟨hpos, hinside, hk, fun j hj hlt => ?_⟩
      rw [used_setBit, if_neg]
      · exact hfree j (by omega) hlt
      · intro heq
        have := (Prod.mk.inj heq).2
        omega
  · obtain ⟨hshared, hnext⟩ := Prod.mk.inj hlead
    have hall : k = r.pageCnt := by omega
    refine h.quiet hmoved hshared (fun x => ?_) ?_
    · rw [hnext, hpc, hall]
      rfl
    · rw [hnext]
      exact ⟨hpos, hinside⟩

theorem Sound.got (h : Sound pools c) (hpools : PoolsOk pools) (hmoved : Moved t c c')
    {idx : Option Nat} (hpc : c.pc t = .got r idx) (hlead : (c'.shared, c'.pc t) =
      (Pc.got r idx).attempt (gotStep pools r idx) c.shared) : Sound pools c' := by
  have hok := h.pcs t
  rw [hpc] at hok
  cases idx with
  | none =>
    have hold : (c.pc t).span = Span.empty := by rw [hpc]; rfl
    have hresult : ∃ q : Pc, (c'.shared, c'.pc t) = (c.shared, q) ∧ q.span = Span.empty ∧
        q.Ok pools c.shared := by
      rw [hlead]
      cases hassert : r.assert with
      | true =>
        refine ⟨.faulted (.panic "palloc_get: out of pages") (.got r none), ?_, rfl, _, rfl⟩
        simp [Pc.attempt, gotStep, hassert, throw, throwThe, MonadExceptOf.throw]
      | false =>
        refine ⟨.idle, ?_, rfl, trivial⟩
        simp [Pc.attempt, gotStep, hassert, pure, Except.pure]
    obtain ⟨q, hlead, hspan, hq⟩ := hresult
    obtain ⟨hshared, hnext⟩ := Prod.mk.inj hlead
    rw [← hnext] at hspan hq
    exact h.quiet hmoved hshared (fun x => by rw [hspan, hold]) hq
  | some pageIdx =>
    obtain ⟨hpos, hinside⟩ := hok
    generalize hgroup : Group.mk r.user ((pools r.pool).base + pgSize * pageIdx) r.pageCnt = g
    have hfirst : g.firstPage pools = pageIdx := by
      rw [← hgroup]
      exact page_sub hpools r.pool pageIdx
    have hg : g.Ok pools := by
      refine ⟨?_, ?_, ?_⟩
      · rw [hfirst, ← hgroup]
        rfl
      · rw [hfirst, ← hgroup]
        exact hinside
      · rw [← hgroup]
        exact hpos
    have hbase := hpools.pos r.pool
    have hrun : gotStep pools r (some pageIdx) c.shared =
        .ok ({ c.shared with live := g :: c.shared.live }, .idle) := by
      rw [gotStep, ← hgroup]
      exact if_pos (by omega)
    rw [Pc.attempt_of_ok hrun] at hlead
    obtain ⟨hshared, hnext⟩ := Prod.mk.inj hlead
    refine h.returned hmoved hshared hg ?_ (fun x => ?_) ?_
    · rw [hpc, Group.span, hfirst, ← hgroup]
      rfl
    · rw [hnext]
      exact Span.not_has_empty x
    · rw [hnext]
      trivial

theorem Sound.freed (h : Sound pools c) (hpools : PoolsOk pools) (hmoved : Moved t c c')
    (hpc : c.pc t = .free g) (hlead : (c'.shared, c'.pc t) =
      if g ∈ c.shared.live then
        (Pc.free g).attempt (freeStep pools g) { c.shared with live := c.shared.live.erase g }
      else (c.shared, .idle)) : Sound pools c' := by
  have hold : (c.pc t).span = Span.empty := by rw [hpc]; rfl
  split_ifs at hlead with hmem
  · have hg := h.groups g hmem
    have hrun := freeStep_ok (s := { c.shared with live := c.shared.live.erase g }) hpools hg
      h.bitCnt
    rw [Pc.attempt_of_ok hrun] at hlead
    obtain ⟨hshared, hnext⟩ := Prod.mk.inj hlead
    refine h.taken hmoved hshared hmem (fun x => ?_) ?_ ?_
    · rw [hold]
      exact Span.not_has_empty x
    · rw [hnext]
      rfl
    · rw [hnext]
      exact hg.inside
  · obtain ⟨hshared, hnext⟩ := Prod.mk.inj hlead
    refine h.quiet hmoved hshared (fun x => ?_) ?_
    · rw [hnext, hold]
      rfl
    · rw [hnext]
      trivial

theorem Sound.checked (h : Sound pools c) (hmoved : Moved t c c')
    (hpc : c.pc t = .check p pageIdx cnt k) (hlead : (c'.shared, c'.pc t) =
      (Pc.check p pageIdx cnt k).attempt (checkStep p pageIdx cnt k) c.shared) :
    Sound pools c' := by
  have hok := h.pcs t
  rw [hpc] at hok
  have hused : k < cnt → (c.shared.usedMap p).bits (pageIdx + k) = true := by
    intro hk
    refine (h.exclusive.used_iff (p, pageIdx + k)).mpr ⟨.inl t, ?_⟩
    show (c.pc t).span.Has _
    rw [hpc]
    exact ⟨rfl, Nat.le_add_right _ _, Nat.add_lt_add_left hk _⟩
  rw [Pc.attempt_of_ok (checkStep_ok (by rw [h.bitCnt]; exact hok) hused)] at hlead
  obtain ⟨hshared, hnext⟩ := Prod.mk.inj hlead
  split_ifs at hnext with hk
  · refine h.quiet hmoved hshared (fun x => ?_) ?_
    · rw [hnext, hpc]
      rfl
    · rw [hnext]
      exact hok
  · refine h.quiet hmoved hshared (fun x => ?_) ?_
    · rw [hnext, hpc]
      rfl
    · rw [hnext]
      exact ⟨hok, Nat.zero_le _⟩

theorem Sound.cleared (h : Sound pools c) (hmoved : Moved t c c')
    (hpc : c.pc t = .clear p pageIdx cnt k) (hlead : (c'.shared, c'.pc t) =
      (Pc.clear p pageIdx cnt k).attempt (clearStep p pageIdx cnt k) c.shared) :
    Sound pools c' := by
  have hok := h.pcs t
  rw [hpc] at hok
  obtain ⟨hinside, hle⟩ := hok
  rw [Pc.attempt_of_ok (clearStep_ok (by rw [h.bitCnt]; exact hinside))] at hlead
  split_ifs at hlead with hk
  · obtain ⟨hshared, hnext⟩ := Prod.mk.inj hlead
    refine h.unmarked hmoved hshared ?_ (fun x => ?_) ?_
    · rw [hpc]
      exact ⟨rfl, Nat.le_refl _, Nat.add_lt_add_left hk _⟩
    · rw [hnext, hpc]
      obtain ⟨p', j⟩ := x
      simp only [Pc.span, Span.Has, ne_eq, Prod.mk.injEq]
      constructor
      · rintro ⟨rfl, hfirst, hlast⟩
        exact ⟨⟨rfl, by omega, hlast⟩, by omega⟩
      · rintro ⟨⟨rfl, hfirst, hlast⟩, hne⟩
        have hj : j ≠ pageIdx + k := fun heq => hne ⟨rfl, heq⟩
        exact ⟨rfl, by omega, hlast⟩
    · rw [hnext]
      exact ⟨hinside, hk⟩
  · obtain ⟨hshared, hnext⟩ := Prod.mk.inj hlead
    refine h.quiet hmoved hshared (fun x => iff_of_false ?_ ?_) ?_
    · rw [hnext]
      exact Span.not_has_empty x
    · rw [hpc]
      exact Span.not_has _ (by show pageIdx + cnt ≤ pageIdx + k; omega) x
    · rw [hnext]
      trivial

/-- Every step keeps the invariant. -/
theorem Sound.step [DecidableEq T] (h : Sound pools c) (hpools : PoolsOk pools)
    (hstep : Step (Pc.program pools) Pc.start c t c') : Sound pools c' := by
  have hmoved : Moved t c c' := ⟨fun u hu => hstep.pc_ne hu, (typed pools).step h.locked hstep⟩
  cases hstep with
  | start hstart =>
    rename_i q
    obtain ⟨hpc, hq⟩ := start_cases hstart
    have hnext : (c.jump t q).pc t = q := Config.jump_pc c t q
    have hspan : q.span = Span.empty ∧ q.Ok pools c.shared := by
      obtain ⟨r, rfl⟩ | ⟨g, rfl⟩ := hq <;> exact ⟨rfl, trivial⟩
    refine h.quiet hmoved rfl (fun x => ?_) ?_
    · rw [hnext, hpc, hspan.1]
      rfl
    · rw [hnext]
      exact hspan.2
  | instr hexecutes =>
    have hleads := hexecutes.leads
    cases hpc : c.pc t with
    | idle | faulted =>
      rw [hpc] at hleads
      exact hleads.elim
    | get r =>
      have hresult : ∃ q : Pc, (c'.shared, c'.pc t) = (c.shared, q) ∧ q.span = Span.empty ∧
          q.Ok pools c.shared := by
        rw [hpc, Pc.program] at hleads
        split_ifs at hleads with hcnt
        · exact ⟨.idle, hleads, rfl, trivial⟩
        · refine ⟨_, hleads, ?_⟩
          rw [h.bitCnt]
          split_ifs with hle
          · exact ⟨rfl, Nat.pos_of_ne_zero hcnt, hle, nofun⟩
          · exact ⟨rfl, trivial⟩
      obtain ⟨q, hlead, hspan, hq⟩ := hresult
      obtain ⟨hshared, rfl⟩ := Prod.mk.inj hlead
      exact h.quiet hmoved hshared (fun x => by rw [hspan, hpc]; rfl) hq
    | scan r i k =>
      rw [hpc] at hleads
      exact h.scanned hmoved hpc hleads
    | flip r pageIdx k =>
      rw [hpc] at hleads
      exact h.flipped hmoved hpc hleads
    | release r idx =>
      rw [hpc] at hleads
      obtain ⟨hshared, hnext⟩ := Prod.mk.inj hleads
      have hok := h.pcs t
      rw [hpc] at hok
      refine h.quiet hmoved hshared (fun x => ?_) ?_
      · rw [hnext, hpc]
        cases idx <;> rfl
      · rw [hnext]
        cases idx <;> exact hok
    | got r idx =>
      rw [hpc] at hleads
      exact h.got hpools hmoved hpc hleads
    | free g =>
      rw [hpc] at hleads
      exact h.freed hpools hmoved hpc hleads
    | check p pageIdx cnt k =>
      rw [hpc] at hleads
      exact h.checked hmoved hpc hleads
    | clear p pageIdx cnt k =>
      rw [hpc] at hleads
      exact h.cleared hmoved hpc hleads

theorem sound_initial (pools : PoolId → Pool) : Sound pools (initial pools : Threads T) where
  exclusive := by
    have hnone : ∀ y x, ¬ owns pools (initial pools : Threads T) y x := by
      rintro (u | g) x hx
      · exact Span.not_has_empty x hx
      · exact nomatch hx.1
    refine ⟨fun x => iff_of_false Bool.false_ne_true ?_, fun hx => (hnone _ _ hx).elim⟩
    rintro ⟨y, hy⟩
    exact hnone y x hy
  locked p t := iff_of_false nofun id
  bitCnt p := rfl
  pcs t := trivial
  groups := nofun
  nodup := List.nodup_nil

end Threads

/-! ### The pools -/

theorem divRoundUp_mono {m n d : Nat} (h : m ≤ n) : divRoundUp m d ≤ divRoundUp n d :=
  Nat.div_le_div_right (by omega)

/-- `init_pool` leaves room for the bitmap, unless it panics. -/
theorem initPool_cases (base pageCnt : Nat) :
    (∃ message, initPool base pageCnt = .error (.panic message)) ∨
      ∃ bmPages, bmPages ≤ pageCnt ∧
        initPool base pageCnt = .ok ⟨base, base + bmPages * pgSize, pageCnt - bmPages⟩ := by
  rw [initPool]
  generalize hbm : divRoundUp (bitmapBufSize pageCnt) pgSize = bmPages
  by_cases hlt : pageCnt < bmPages
  · rw [if_pos hlt]
    exact .inl ⟨_, rfl⟩
  · have hmono : bitmapBufSize (pageCnt - bmPages) ≤ bitmapBufSize pageCnt := by
      have := divRoundUp_mono (d := 32) (Nat.sub_le pageCnt bmPages)
      unfold bitmapBufSize
      omega
    have hroom : bitmapBufSize (pageCnt - bmPages) ≤ bmPages * pgSize := by
      unfold divRoundUp at hbm
      unfold pgSize at *
      omega
    rw [if_neg hlt, if_pos hroom]
    exact .inr ⟨bmPages, Nat.le_of_not_lt hlt, rfl⟩

theorem pallocInit_cases (initRamPages userPageLimit : Nat) :
    (∃ message, pallocInit initRamPages userPageLimit = .error (.panic message)) ∨
      ∃ pools, PoolsOk pools ∧ pallocInit initRamPages userPageLimit = .ok pools := by
  unfold pallocInit
  dsimp only
  generalize (ptov (initRamPages * pgSize) - ptov (1024 * 1024)) / pgSize = freePages
  generalize min (freePages / 2) userPageLimit = userPages
  rcases initPool_cases (ptov (1024 * 1024)) (freePages - userPages) with
    ⟨message, hpanic⟩ | ⟨kernelBm, hkernel, hkernelPool⟩
  · rw [hpanic]
    exact .inl ⟨message, rfl⟩
  rcases initPool_cases (ptov (1024 * 1024) + (freePages - userPages) * pgSize) userPages with
    ⟨message, hpanic⟩ | ⟨userBm, huser, huserPool⟩
  · rw [hkernelPool, hpanic]
    exact .inl ⟨message, rfl⟩
  · rw [hkernelPool, huserPool]
    refine .inr ⟨_, ⟨fun p => ?_, fun p => ?_, fun p => ?_, ?_⟩, rfl⟩
    · cases p <;> (show (_ + _ * pgSize) % pgSize = 0; unfold ptov physBase pgSize; omega)
    · cases p <;> (show 0 < _ + _ * pgSize; unfold ptov physBase; omega)
    · cases p <;> exact Nat.le_add_right _ _
    · show _ + kernelBm * pgSize + pgSize * (freePages - userPages - kernelBm) ≤
        _ + (freePages - userPages) * pgSize
      unfold pgSize
      omega

/-! ### Runs -/

/-- The groups that are with their callers do not overlap and lie in their pools, outside the
bitmaps; their pages are marked, and no other pages but those of groups that are being taken or
freed; a page is unmarked when it is freed; and no assertion has failed. -/
structure GroupsOk {T : Type} [DecidableEq T] (pools : PoolId → Pool) (c : Threads T) : Prop where
  disjoint : c.shared.live.Pairwise fun g g' =>
    g.pages + pgSize * g.pageCnt ≤ g'.pages ∨ g'.pages + pgSize * g'.pageCnt ≤ g.pages
  inside : ∀ g ∈ c.shared.live, (pools (poolId g.user)).base ≤ g.pages ∧
    g.pages + pgSize * g.pageCnt ≤
      (pools (poolId g.user)).base + pgSize * (pools (poolId g.user)).pageCnt
  outsideMaps : ∀ g ∈ c.shared.live, ∀ p,
    g.pages + pgSize * g.pageCnt ≤ (pools p).usedMap ∨ (pools p).base ≤ g.pages
  marked : ∀ g ∈ c.shared.live, ∀ i < g.pageCnt,
    (c.shared.usedMap (poolId g.user)).bits (g.firstPage pools + i) = true
  unmarked : ∀ p i, (c.shared.usedMap p).bits i = true →
    (∃ g ∈ c.shared.live, (g.span pools).Has (p, i)) ∨ ∃ t, (c.pc t).span.Has (p, i)
  frees : ∀ t c' p pageIdx pageCnt k, Step (Pc.program pools) Pc.start c t c' →
    c.pc t = .clear p pageIdx pageCnt k → k < pageCnt →
      (c'.shared.usedMap p).bits (pageIdx + k) = false ∧
        c'.pc t = .clear p pageIdx pageCnt (k + 1)
  faults : ∀ t fault pc, c.pc t = .faulted fault pc → ∃ message, fault = .panic message

section

variable {T : Type} [DecidableEq T] {c : Threads T}

/-- Two groups of one pool that have no page in common do not overlap. -/
theorem Group.Ok.disjoint {g' : Group} (hg : g.Ok pools) (hg' : g'.Ok pools)
    (hpools : PoolsOk pools) (hnone : ∀ x, (g.span pools).Has x → ¬ (g'.span pools).Has x) :
    g.pages + pgSize * g.pageCnt ≤ g'.pages ∨ g'.pages + pgSize * g'.pageCnt ≤ g.pages := by
  obtain ⟨hpages, hinside, hpos⟩ := hg
  obtain ⟨hpages', hinside', hpos'⟩ := hg'
  by_cases hpool : poolId g.user = poolId g'.user
  · have hfirst : ¬ (g'.firstPage pools ≤ g.firstPage pools ∧
        g.firstPage pools < g'.firstPage pools + g'.pageCnt) := fun h =>
      hnone (poolId g.user, g.firstPage pools) ⟨rfl, Nat.le_refl _, Nat.lt_add_of_pos_right hpos⟩
        ⟨hpool.symm, h.1, h.2⟩
    have hlast : ¬ (g.firstPage pools ≤ g'.firstPage pools ∧
        g'.firstPage pools < g.firstPage pools + g.pageCnt) := fun h =>
      hnone (poolId g.user, g'.firstPage pools) ⟨rfl, h.1, h.2⟩
        ⟨hpool.symm, Nat.le_refl _, Nat.lt_add_of_pos_right hpos'⟩
    rw [← hpool] at hpages'
    unfold pgSize at *
    omega
  · have horder := hpools.order
    have hmaps := hpools.maps .user
    cases huser : g.user <;> cases huser' : g'.user <;>
      simp only [huser, huser', poolId, Bool.false_eq_true, if_true, if_false, not_true,
        reduceCtorEq, not_false_eq_true] at * <;> (unfold pgSize at *; omega)

theorem Sound.groupsOk (h : Sound pools c) (hpools : PoolsOk pools) : GroupsOk pools c where
  disjoint := by
    refine h.nodup.imp_of_mem fun {g g'} hg hg' hne => ?_
    refine (h.groups g hg).disjoint (h.groups g' hg') hpools fun x hx hx' => ?_
    have hsame := h.exclusive.unique (x := .inr g) (y := .inr g') ⟨hg, hx⟩ ⟨hg', hx'⟩
    exact hne (Sum.inr.inj hsame)
  inside g hg := by
    obtain ⟨hpages, hinside, -⟩ := h.groups g hg
    unfold pgSize at *
    omega
  outsideMaps g hg p := by
    obtain ⟨hpages, hinside, -⟩ := h.groups g hg
    have horder := hpools.order
    have hmaps := hpools.maps
    have hmap := hmaps .user
    have hmap' := hmaps .kernel
    cases p <;> cases huser : g.user <;>
      simp only [huser, poolId, Bool.false_eq_true, if_true, if_false] at * <;>
      (unfold pgSize at *; omega)
  marked g hg i hi := by
    refine (h.exclusive.used_iff (poolId g.user, g.firstPage pools + i)).mpr ⟨.inr g, hg, rfl, ?_⟩
    exact ⟨Nat.le_add_right _ _, Nat.add_lt_add_left hi _⟩
  unmarked p i hused := by
    obtain ⟨t | g, howns⟩ := (h.exclusive.used_iff (p, i)).mp hused
    · exact .inr ⟨t, howns⟩
    · exact .inl ⟨g, howns⟩
  frees t c' p pageIdx pageCnt k hstep hpc hk := by
    have hok := h.pcs t
    rw [hpc] at hok
    have hlead : (c'.shared, c'.pc t) =
        (c.shared.setBit p (pageIdx + k) false, .clear p pageIdx pageCnt (k + 1)) := by
      cases hstep with
      | start hstart =>
        rw [hpc] at hstart
        exact nomatch (start_cases hstart).1
      | instr hexecutes =>
        have hleads := hexecutes.leads
        rw [hpc] at hleads
        have hrun := clearStep_ok (k := k) (by rw [h.bitCnt]; exact hok.1)
        rw [if_pos hk] at hrun
        exact hleads.trans (Pc.attempt_of_ok hrun)
    obtain ⟨hshared, hnext⟩ := Prod.mk.inj hlead
    refine ⟨?_, hnext⟩
    rw [hshared, setBit_bits, if_pos ⟨rfl, rfl⟩]
  faults t fault pc hpc := by
    have hok := h.pcs t
    rw [hpc] at hok
    exact hok

/-- From `palloc_init` on, which does not fail an assertion either, the groups are in order whatever
threads do. -/
theorem page_groups_ok (T : Type) [DecidableEq T] (initRamPages userPageLimit : Nat) :
    (∀ fault, pallocInit initRamPages userPageLimit = .error fault →
      ∃ message, fault = .panic message) ∧
    ∀ pools, pallocInit initRamPages userPageLimit = .ok pools → ∀ c : Threads T,
      Reach (Pc.program pools) Pc.start (initial pools) c → GroupsOk pools c := by
  rcases pallocInit_cases initRamPages userPageLimit with ⟨message, hpanic⟩ | ⟨pools, hpools, hok⟩
  · rw [hpanic]
    refine ⟨?_, nofun⟩
    rintro _ ⟨⟩
    exact ⟨message, rfl⟩
  · rw [hok]
    refine ⟨nofun, ?_⟩
    rintro _ ⟨⟩ c hreach
    have hsound := hreach.invariant (fun _ _ _ h hstep => Sound.step h hpools hstep)
      (sound_initial pools)
    exact hsound.groupsOk hpools

/-- Thread 0 takes two user pages, thread 1 takes three kernel pages, and thread 0 unmarks one of
its pages. -/
def someMoves : List (Nat × Pc × Nat) :=
  [(0, .get ⟨true, false, 2⟩, 9), (1, .get ⟨false, true, 3⟩, 11),
    (0, .free ⟨true, 3223851008, 2⟩, 5)]

theorem page_groups_ok_someMoves : ∃ pools, ∃ c : Threads Nat,
    pallocInit 1024 1000 = .ok pools ∧ Reach (Pc.program pools) Pc.start (initial pools) c ∧
      c.shared.live = [⟨false, 3222278144, 3⟩] ∧ c.pc 0 = .clear .user 0 2 1 ∧
        GroupsOk pools c := by
  have hinit : (pallocInit 1024 1000).toBool = true := by decide +kernel
  obtain ⟨pools, hpools⟩ := Routine.ok_of_toBool hinit
  have hplay : (match pallocInit 1024 1000 with
      | .ok pools => (LockProgram.play (Pc.program pools) Pc.start someMoves
        (initial pools : Threads Nat)).any fun c =>
          c.shared.live = [⟨false, 3222278144, 3⟩] && c.pc 0 = .clear .user 0 2 1
      | .error _ => false) = true := by decide +kernel
  rw [hpools] at hplay
  obtain ⟨c, hc, hstate⟩ := (Option.any_eq_true _ _).mp hplay
  rw [Bool.and_eq_true, decide_eq_true_eq, decide_eq_true_eq] at hstate
  have hreach := LockProgram.reach_of_play hc
  exact ⟨pools, c, hpools, hreach, hstate.1, hstate.2,
    (page_groups_ok Nat 1024 1000).2 pools hpools c hreach⟩

end

end Palloc

end Pintos
