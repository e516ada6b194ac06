import Mathlib.Data.List.Flatten
import Mathlib.Data.List.Perm.Basic
import Mathlib.Tactic.Common

/-! The hash table of `lib/kernel/hash.c`: buckets of chained elements, found by a hash function and
a comparison that may fault.  The table grows and shrinks with its elements, where the allocation of
the new buckets may fail, and an iterator walks the buckets in order. -/

namespace Pintos

/-- `struct hash`: the buckets, each a list from its head, and `elem_cnt`. -/
structure HashTable (α : Type) where
  buckets : List (List α)
  elemCnt : Nat

namespace HashTable

variable {ε α : Type}

/-- `hash_init`. -/
def hashInit : HashTable α := ⟨List.replicate 4 [], 0⟩

/-- The elements in the order of the buckets. -/
def elems (h : HashTable α) : List α := h.buckets.flatten

section Operations

variable (hash : α → Nat) (less : α → α → Except ε Bool)

/-- The index of the bucket that `find_bucket` returns. -/
def bucketIdx (h : HashTable α) (e : α) : Nat := hash e &&& (h.buckets.length - 1)

def findBucket (h : HashTable α) (e : α) : List α := h.buckets.getD (h.bucketIdx hash e) []

def findElem (e : α) : List α → Except ε (Option α)
  | [] => pure none
  | hi :: rest => do
    if ← less hi e then findElem e rest
    else if ← less e hi then findElem e rest
    else pure (some hi)

def turnOffLeast1bit (x : Nat) : Nat := x &&& (x - 1)

def isPowerOf2 (x : Nat) : Bool := x ≠ 0 && turnOffLeast1bit x = 0

/-- The loop of `rehash` that rounds the number of buckets down; every round makes `x` smaller. -/
def roundLoop : (fuel : Nat) → Nat → Nat
  | 0, x => x
  | fuel + 1, x => if isPowerOf2 x then x else roundLoop fuel (turnOffLeast1bit x)

/-- The number of buckets that `rehash` wants for `elemCnt` elements. -/
def newBucketCnt (elemCnt : Nat) : Nat :=
  let cnt := if elemCnt / 2 < 4 then 4 else elemCnt / 2
  roundLoop cnt cnt

/-- The loop of `rehash` that moves the elements, each to the front of its new bucket. -/
def moveElems (elems : List α) (buckets : List (List α)) : List (List α) :=
  elems.foldl (fun buckets e => buckets.modify (hash e &&& (buckets.length - 1)) (e :: ·)) buckets

/-- `rehash`; `malloc` tells whether the new buckets could be allocated. -/
def rehash (malloc : Bool) (h : HashTable α) : HashTable α :=
  if newBucketCnt h.elemCnt = h.buckets.length ∨ malloc = false then h
  else { h with buckets := moveElems hash h.elems (List.replicate (newBucketCnt h.elemCnt) []) }

/-- `insert_elem` into the bucket of `e`. -/
def insertElem (h : HashTable α) (e : α) : HashTable α where
  buckets := h.buckets.modify (h.bucketIdx hash e) (e :: ·)
  elemCnt := h.elemCnt + 1

/-- `remove_elem` of `found`, which is in bucket `idx`. -/
def removeElem [DecidableEq α] (h : HashTable α) (idx : Nat) (found : α) : HashTable α where
  buckets := h.buckets.modify idx (·.erase found)
  elemCnt := h.elemCnt - 1

def hashFind (h : HashTable α) (e : α) : Except ε (Option α) :=
  findElem less e (h.findBucket hash e)

/-- `hash_insert`: the equal element that was there, and the table. -/
def hashInsert (malloc : Bool) (h : HashTable α) (new : α) :
    Except ε (Option α × HashTable α) := do
  match ← h.hashFind hash less new with
  | none => pure (none, (h.insertElem hash new).rehash hash malloc)
  | some old => pure (some old, h.rehash hash malloc)

/-- `hash_replace`: the equal element that was there and made room, and the table. -/
def hashReplace [DecidableEq α] (malloc : Bool) (h : HashTable α) (new : α) :
    Except ε (Option α × HashTable α) := do
  match ← h.hashFind hash less new with
  | none => pure (none, (h.insertElem hash new).rehash hash malloc)
  | some old =>
    pure (some old,
      ((h.removeElem (h.bucketIdx hash new) old).insertElem hash new).rehash hash malloc)

/-- `hash_delete`: the element found and removed, and the table. -/
def hashDelete [DecidableEq α] (malloc : Bool) (h : HashTable α) (e : α) :
    Except ε (Option α × HashTable α) := do
  match ← h.hashFind hash less e with
  | none => pure (none, h)
  | some found => pure (some found, (h.removeElem (h.bucketIdx hash e) found).rehash hash malloc)

end Operations

/-! ### Where the elements are -/

theorem modify_cons_perm (buckets : List (List α)) {i : Nat} (hi : i < buckets.length) (e : α) :
    (buckets.modify i (e :: ·)).flatten.Perm (e :: buckets.flatten) := by
  induction buckets generalizing i with
  | nil => simp at hi
  | cons b bs ih =>
    cases i with
    | zero => simp
    | succ i =>
      simp only [List.modify_succ_cons, List.flatten_cons]
      exact ((ih (by simpa using hi)).append_left b).trans List.perm_middle

theorem modify_erase_perm [DecidableEq α] (buckets : List (List α)) {i : Nat} {b : List α}
    (hb : buckets[i]? = some b) {e : α} (he : e ∈ b) :
    buckets.flatten.Perm (e :: (buckets.modify i (·.erase e)).flatten) := by
  induction buckets generalizing i with
  | nil => simp at hb
  | cons c bs ih =>
    cases i with
    | zero =>
      simp only [List.getElem?_cons_zero, Option.some.injEq] at hb
      subst hb
      simpa using (List.perm_cons_erase he).append_right bs.flatten
    | succ i =>
      simp only [List.modify_succ_cons, List.flatten_cons]
      exact ((ih (by simpa using hb)).append_left c).trans List.perm_middle

/-- Every element is in the bucket that its hash selects, and the elements are counted. -/
structure Placed (hash : α → Nat) (h : HashTable α) : Prop where
  bucket : h.buckets ≠ []
  idx : ∀ i b, h.buckets[i]? = some b → ∀ e ∈ b, h.bucketIdx hash e = i
  count : h.elemCnt = h.elems.length

variable {hash : α → Nat} {less : α → α → Except ε Bool} {h : HashTable α}

theorem and_pred_lt (x : Nat) {n : Nat} (hn : 0 < n) : x &&& (n - 1) < n :=
  Nat.lt_of_le_of_lt Nat.and_le_right (Nat.sub_lt hn Nat.one_pos)

theorem Placed.bucketIdx_lt (hp : h.Placed hash) (e : α) :
    h.bucketIdx hash e < h.buckets.length :=
  and_pred_lt _ (List.length_pos_iff.mpr hp.bucket)

theorem Placed.findBucket_eq (hp : h.Placed hash) (e : α) :
    h.buckets[h.bucketIdx hash e]? = some (h.findBucket hash e) := by
  rw [findBucket, List.getD_eq_getElem?_getD, List.getElem?_eq_getElem (hp.bucketIdx_lt e)]
  rfl

theorem mem_elems_of_findBucket {e x : α} (hx : x ∈ h.findBucket hash e) : x ∈ h.elems := by
  rw [findBucket, List.getD_eq_getElem?_getD] at hx
  cases hb : h.buckets[h.bucketIdx hash e]? with
  | none => simp [hb] at hx
  | some b =>
    rw [hb] at hx
    exact List.mem_flatten.mpr ⟨b, List.mem_of_getElem? hb, hx⟩

/-- An element is in the bucket of every key with its hash. -/
theorem Placed.mem_findBucket (hp : h.Placed hash) {e x : α} (hx : x ∈ h.elems)
    (hhash : hash x = hash e) : x ∈ h.findBucket hash e := by
  obtain ⟨b, hb, hxb⟩ := List.mem_flatten.mp hx
  obtain ⟨i, hi⟩ := List.getElem?_of_mem hb
  have hidx : h.bucketIdx hash e = i := by rw [← hp.idx i b hi x hxb, bucketIdx, bucketIdx, hhash]
  rw [findBucket, hidx, List.getD_eq_getElem?_getD, hi]
  exact hxb

theorem flatten_eq_of_single {buckets : List (List α)} {i : Nat} {b : List α}
    (hb : buckets[i]? = some b) (hrest : ∀ j c, buckets[j]? = some c → j ≠ i → c = []) :
    buckets.flatten = b := by
  induction buckets generalizing i with
  | nil => simp at hb
  | cons c bs ih =>
    cases i with
    | zero =>
      simp only [List.getElem?_cons_zero, Option.some.injEq] at hb
      have hnil : bs.flatten = [] := by
        rw [List.flatten_eq_nil_iff]
        intro c' hc'
        obtain ⟨j, hj⟩ := List.getElem?_of_mem hc'
        exact hrest (j + 1) c' (by simpa using hj) (Nat.succ_ne_zero j)
      rw [List.flatten_cons, hnil, hb, List.append_nil]
    | succ i =>
      have hc : c = [] := hrest 0 c rfl (Nat.succ_ne_zero i).symm
      rw [List.flatten_cons, hc, List.nil_append]
      exact ih (by simpa using hb) fun j c' hj hne =>
        hrest (j + 1) c' (by simpa using hj) fun hsucc => hne (Nat.succ.inj hsucc)

/-- Where every element has the hash of the key, the key's bucket holds the whole table. -/
theorem Placed.findBucket_eq_elems (hp : h.Placed hash) {e : α}
    (hconst : ∀ x ∈ h.elems, hash x = hash e) : h.findBucket hash e = h.elems := by
  refine (flatten_eq_of_single (hp.findBucket_eq e) fun j c hc hne => ?_).symm
  refine List.eq_nil_iff_forall_not_mem.mpr fun x hx => hne ?_
  rw [← hp.idx j c hc x hx, bucketIdx, bucketIdx,
    hconst x (List.mem_flatten.mpr ⟨c, List.mem_of_getElem? hc, hx⟩)]

theorem hashInit_placed : (hashInit : HashTable α).Placed hash := by
  refine ⟨by simp [hashInit], fun i b hb e he => ?_, by simp [hashInit, elems]⟩
  have hb' : b = [] := List.eq_of_mem_replicate (List.mem_of_getElem? hb)
  simp [hb'] at he

theorem insertElem_elems (hp : h.Placed hash) (e : α) :
    (h.insertElem hash e).elems.Perm (e :: h.elems) :=
  modify_cons_perm h.buckets (hp.bucketIdx_lt e) e

/-- A bucket after one bucket has changed. -/
theorem getElem?_modify_cases {buckets : List (List α)} {f : List α → List α} {i j : Nat}
    {b : List α} (hb : (buckets.modify i f)[j]? = some b) :
    ∃ c, buckets[j]? = some c ∧ (b = c ∨ j = i ∧ b = f c) := by
  rw [List.getElem?_modify] at hb
  obtain ⟨c, hc, hb⟩ := Option.map_eq_some_iff.mp hb
  refine ⟨c, hc, ?_⟩
  split at hb
  · next hij => exact .inr ⟨hij.symm, hb.symm⟩
  · exact .inl hb.symm

theorem Placed.insertElem (hp : h.Placed hash) (e : α) : (h.insertElem hash e).Placed hash := by
  have hlength : (h.insertElem hash e).buckets.length = h.buckets.length := List.length_modify ..
  have hsame : ∀ x, (h.insertElem hash e).bucketIdx hash x = h.bucketIdx hash x := fun x => by
    rw [bucketIdx, hlength, bucketIdx]
  refine ⟨?_, fun i b hb x hx => ?_, ?_⟩
  · rw [← List.length_pos_iff, hlength]
    exact List.length_pos_iff.mpr hp.bucket
  · rw [hsame]
    obtain ⟨c, hc, rfl | ⟨rfl, rfl⟩⟩ := getElem?_modify_cases hb
    · exact hp.idx i b hc x hx
    · rcases List.mem_cons.mp hx with rfl | hx
      · rfl
      · exact hp.idx _ c hc x hx
  · rw [(insertElem_elems hp e).length_eq, List.length_cons, ← hp.count]
    rfl

theorem removeElem_elems [DecidableEq α] (hp : h.Placed hash) {e found : α}
    (hfound : found ∈ h.findBucket hash e) :
    h.elems.Perm (found :: (h.removeElem (h.bucketIdx hash e) found).elems) :=
  modify_erase_perm h.buckets (hp.findBucket_eq e) hfound

theorem Placed.removeElem [DecidableEq α] (hp : h.Placed hash) {e found : α}
    (hfound : found ∈ h.findBucket hash e) :
    (h.removeElem (h.bucketIdx hash e) found).Placed hash := by
  have hlength : (h.removeElem (h.bucketIdx hash e) found).buckets.length = h.buckets.length :=
    List.length_modify ..
  refine ⟨?_, fun i b hb x hx => ?_, ?_⟩
  · rw [← List.length_pos_iff, hlength]
    exact List.length_pos_iff.mpr hp.bucket
  · rw [bucketIdx, hlength]
    obtain ⟨c, hc, rfl | ⟨rfl, rfl⟩⟩ := getElem?_modify_cases hb
    · exact hp.idx i b hc x hx
    · exact hp.idx _ c hc x (List.mem_of_mem_erase hx)
  · have hcount := (removeElem_elems hp hfound).length_eq
    rw [List.length_cons, ← hp.count] at hcount
    exact Nat.sub_eq_of_eq_add hcount

theorem roundLoop_pos {fuel x : Nat} (hx : x ≠ 0) : 0 < roundLoop fuel x := by
  induction fuel generalizing x with
  | zero => exact Nat.pos_of_ne_zero hx
  | succ fuel ih =>
    rw [roundLoop]
    split
    · exact Nat.pos_of_ne_zero hx
    · next hpower => exact ih fun hzero => hpower (by simp [isPowerOf2, hx, hzero])

theorem newBucketCnt_pos (elemCnt : Nat) : 0 < newBucketCnt elemCnt := by
  refine roundLoop_pos ?_
  split <;> omega

theorem isPowerOfTwo_of_isPowerOf2 {x : Nat} (h : isPowerOf2 x = true) : x.isPowerOfTwo := by
  rw [isPowerOf2, Bool.and_eq_true, decide_eq_true_eq, decide_eq_true_eq] at h
  exact Nat.ne_zero_and_sub_one_eq_zero_iff_isPowerOfTwo.mp h

/-- Rounding down ends at a power of two, since every round makes the number smaller. -/
theorem roundLoop_isPowerOfTwo {fuel x : Nat} (hx : x ≠ 0) (hfuel : x ≤ fuel) :
    (roundLoop fuel x).isPowerOfTwo := by
  induction fuel generalizing x with
  | zero => omega
  | succ fuel ih =>
    rw [roundLoop]
    split
    · next hpower => exact isPowerOfTwo_of_isPowerOf2 hpower
    · next hpower =>
      have hless : turnOffLeast1bit x ≤ x - 1 := Nat.and_le_right
      exact ih (fun hzero => hpower (by simp [isPowerOf2, hx, hzero])) (by omega)

theorem newBucketCnt_isPowerOfTwo (elemCnt : Nat) : (newBucketCnt elemCnt).isPowerOfTwo := by
  apply roundLoop_isPowerOfTwo _ (Nat.le_refl _)
  split <;> omega

/-- What moving elements into `buckets` preserves: each is in the bucket of its hash. -/
theorem moveElems_placed (hash : α → Nat) (elems : List α) {buckets : List (List α)}
    (hpos : 0 < buckets.length)
    (hidx : ∀ i b, buckets[i]? = some b → ∀ e ∈ b, hash e &&& (buckets.length - 1) = i) :
    (moveElems hash elems buckets).length = buckets.length ∧
      (moveElems hash elems buckets).flatten.Perm (elems ++ buckets.flatten) ∧
      ∀ i b, (moveElems hash elems buckets)[i]? = some b →
        ∀ e ∈ b, hash e &&& (buckets.length - 1) = i := by
  induction elems generalizing buckets with
  | nil => exact ⟨rfl, .refl _, hidx⟩
  | cons e rest ih =>
    have hlength : (buckets.modify (hash e &&& (buckets.length - 1)) (e :: ·)).length =
        buckets.length := List.length_modify ..
    obtain ⟨hlen, hperm, hplaced⟩ := ih  (hlength ▸ hpos)
      (fun i b hb x hx => by
        rw [hlength]
        obtain ⟨c, hc, rfl | ⟨rfl, rfl⟩⟩ := getElem?_modify_cases hb
        · exact hidx i b hc x hx
        · rcases List.mem_cons.mp hx with rfl | hx
          · rfl
          · exact hidx _ c hc x hx)
    rw [hlength] at hlen hplaced
    refine ⟨hlen, hperm.trans ?_, hplaced⟩
    exact ((modify_cons_perm buckets (and_pred_lt _ hpos) e).append_left rest).trans
      List.perm_middle

/-- The elements in the buckets of `rehash`. -/
theorem moveElems_fresh (hash : α → Nat) (h : HashTable α) :
    let buckets := moveElems hash h.elems (List.replicate (newBucketCnt h.elemCnt) [])
    buckets.length = newBucketCnt h.elemCnt ∧ buckets.flatten.Perm h.elems ∧
      ∀ i b, buckets[i]? = some b → ∀ e ∈ b, hash e &&& (newBucketCnt h.elemCnt - 1) = i := by
  have hfresh := @moveElems_placed α hash h.elems (List.replicate (newBucketCnt h.elemCnt) [])
    (by simpa using newBucketCnt_pos h.elemCnt)
    (fun i b hb e he => by
      rw [List.eq_of_mem_replicate (List.mem_of_getElem? hb)] at he
      cases he)
  simpa using hfresh

theorem rehash_elems (malloc : Bool) (h : HashTable α) :
    (h.rehash hash malloc).elems.Perm h.elems := by
  rw [rehash]
  split
  · exact .refl _
  · exact (moveElems_fresh hash h).2.1

theorem rehash_elemCnt (malloc : Bool) (h : HashTable α) :
    (h.rehash hash malloc).elemCnt = h.elemCnt := by
  rw [rehash]
  split <;> rfl

/-- The table keeps its buckets or has as many as it wants. -/
theorem rehash_isPowerOfTwo (hpower : h.buckets.length.isPowerOfTwo) (malloc : Bool) :
    (h.rehash hash malloc).buckets.length.isPowerOfTwo := by
  rw [rehash]
  split
  · exact hpower
  · rw [(moveElems_fresh hash h).1]
    exact newBucketCnt_isPowerOfTwo h.elemCnt

theorem Placed.rehash (hp : h.Placed hash) (malloc : Bool) :
    (h.rehash hash malloc).Placed hash := by
  have hcount : (h.rehash hash malloc).elemCnt = (h.rehash hash malloc).elems.length := by
    rw [rehash_elemCnt, (rehash_elems malloc h).length_eq, hp.count]
  by_cases hsame : newBucketCnt h.elemCnt = h.buckets.length ∨ malloc = false
  · rw [HashTable.rehash, if_pos hsame]
    exact hp
  · obtain ⟨hlen, -, hidx⟩ := moveElems_fresh hash h
    rw [HashTable.rehash, if_neg hsame] at hcount ⊢
    refine ⟨List.length_pos_iff.mp ?_, fun i b hb e he => ?_, hcount⟩
    · exact Nat.lt_of_lt_of_eq (newBucketCnt_pos h.elemCnt) hlen.symm
    · rw [bucketIdx, hlen]
      exact hidx i b hb e he

/-! ### Searching a bucket -/

/-- The comparison with the key `e` finds the elements of `bucket` that satisfy `p` equal to it, and
no others, without a fault. -/
def Decides (less : α → α → Except ε Bool) (e : α) (p : α → Bool) (bucket : List α) : Prop :=
  ∀ hi ∈ bucket,
    if p hi then less hi e = .ok false ∧ less e hi = .ok false
    else less hi e = .ok true ∨ less hi e = .ok false ∧ less e hi = .ok true

theorem findElem_of_decides {e : α} {p : α → Bool} {bucket : List α}
    (hd : Decides less e p bucket) : findElem less e bucket = .ok (bucket.find? p) := by
  induction bucket with
  | nil => rfl
  | cons hi rest ih =>
    have hhi := hd hi List.mem_cons_self
    have hrest := ih fun x hx => hd x (List.mem_cons_of_mem _ hx)
    by_cases hp : p hi
    · rw [if_pos hp] at hhi
      rw [findElem, hhi.1, List.find?_cons_of_pos hp]
      show (do if ← less e hi then findElem less e rest else pure (some hi)) = _
      rw [hhi.2]
      rfl
    · rw [if_neg hp] at hhi
      rw [findElem, List.find?_cons_of_neg hp, ← hrest]
      rcases hhi with hless | ⟨hless, hgreater⟩
      · rw [hless]
        rfl
      · rw [hless]
        show (do if ← less e hi then findElem less e rest else pure (some hi)) = _
        rw [hgreater]
        rfl

theorem mem_of_findElem {e found : α} {bucket : List α}
    (hfind : findElem less e bucket = .ok (some found)) : found ∈ bucket := by
  induction bucket with
  | nil => cases hfind
  | cons hi rest ih =>
    rw [findElem] at hfind
    cases hless : less hi e with
    | error fault =>
      rw [hless] at hfind
      cases hfind
    | ok isLess =>
      rw [hless] at hfind
      cases isLess with
      | true => exact List.mem_cons_of_mem _ (ih hfind)
      | false =>
        replace hfind : (do if ← less e hi then findElem less e rest else pure (some hi)) =
          Except.ok (some found) := hfind
        cases hgreater : less e hi with
        | error fault =>
          rw [hgreater] at hfind
          cases hfind
        | ok isGreater =>
          rw [hgreater] at hfind
          cases isGreater with
          | true => exact List.mem_cons_of_mem _ (ih hfind)
          | false =>
            cases hfind
            exact List.mem_cons_self

theorem hashDelete_of_decides [DecidableEq α] {malloc : Bool} {e : α} {p : α → Bool}
    (hd : Decides less e p (h.findBucket hash e)) :
    h.hashDelete hash less malloc e = .ok (match (h.findBucket hash e).find? p with
      | none => (none, h)
      | some found =>
        (some found, (h.removeElem (h.bucketIdx hash e) found).rehash hash malloc)) := by
  rw [hashDelete, hashFind, findElem_of_decides hd]
  cases (h.findBucket hash e).find? p <;> rfl

/-! ### Iterating -/

end HashTable

/-- `struct hash_iterator`: a bucket, and the position of `elem` in it, from the list head on. -/
structure HashIterator where
  bucket : Nat
  elem : Nat

namespace HashTable

variable {α : Type}

def hashFirst : HashIterator := ⟨0, 0⟩

/-- The loop of `hash_next`, which leaves a bucket at its end; `none` is a null `elem`. -/
def nextLoop (buckets : List (List α)) : (fuel : Nat) → HashIterator → Option HashIterator
  | 0, _ => none
  | fuel + 1, i =>
    if i.elem = (buckets.getD i.bucket []).length + 1 then
      if buckets.length ≤ i.bucket + 1 then none else nextLoop buckets fuel ⟨i.bucket + 1, 1⟩
    else some i

def hashNext (h : HashTable α) (i : HashIterator) : Option HashIterator :=
  nextLoop h.buckets h.buckets.length ⟨i.bucket, i.elem + 1⟩

/-- `hash_cur`; the list head is no element. -/
def hashCur (h : HashTable α) (i : HashIterator) : Option α :=
  match i.elem with
  | 0 => none
  | pos + 1 => (h.buckets.getD i.bucket [])[pos]?

variable {h : HashTable α} {i : HashIterator}

/-- The iterator is inside a bucket. -/
structure Inside (h : HashTable α) (i : HashIterator) : Prop where
  bucket : i.bucket < h.buckets.length
  elem : i.elem ≤ (h.buckets.getD i.bucket []).length

/-- The elements that the iterator has still to meet. -/
def remaining (h : HashTable α) (i : HashIterator) : List α :=
  (h.buckets.getD i.bucket []).drop i.elem ++ (h.buckets.drop (i.bucket + 1)).flatten

theorem remaining_hashFirst (h : HashTable α) : h.remaining hashFirst = h.elems := by
  rw [remaining, elems, hashFirst]
  cases h.buckets with
  | nil => rfl
  | cons b bs => simp

/-- Where the loop of `hash_next` stops, from a position that is not before the first element. -/
theorem nextLoop_spec {fuel : Nat} (hbucket : i.bucket < h.buckets.length)
    (helem : i.elem ≤ (h.buckets.getD i.bucket []).length)
    (hfuel : h.buckets.length < fuel + i.bucket + 1) :
    match nextLoop h.buckets fuel ⟨i.bucket, i.elem + 1⟩ with
    | none => h.remaining i = []
    | some j => h.Inside j ∧ ∃ e, h.hashCur j = some e ∧ h.remaining i = e :: h.remaining j := by
  induction fuel generalizing i with
  | zero => omega
  | succ fuel ih =>
    rw [nextLoop]
    by_cases hend : i.elem + 1 = (h.buckets.getD i.bucket []).length + 1
    · have hdrop : (h.buckets.getD i.bucket []).drop i.elem = [] :=
        List.drop_eq_nil_of_le (by omega)
      by_cases hlast : h.buckets.length ≤ i.bucket + 1
      · rw [if_pos hend, if_pos hlast, remaining, hdrop, List.drop_eq_nil_of_le hlast]
        rfl
      · have hnext : i.bucket + 1 < h.buckets.length := Nat.not_le.mp hlast
        have hskip : h.remaining i = h.remaining ⟨i.bucket + 1, 0⟩ := by
          rw [remaining, hdrop, remaining, List.drop_eq_getElem_cons hnext,
            List.getD_eq_getElem?_getD, List.getElem?_eq_getElem hnext]
          rfl
        rw [if_pos hend, if_neg hlast, hskip]
        exact ih (i := ⟨i.bucket + 1, 0⟩) hnext (Nat.zero_le _) (by dsimp only; omega)
    · have hlt : i.elem < (h.buckets.getD i.bucket []).length := by omega
      rw [if_neg hend]
      refine ⟨⟨hbucket, hlt⟩, (h.buckets.getD i.bucket [])[i.elem],
        List.getElem?_eq_getElem hlt, ?_⟩
      rw [remaining, List.drop_eq_getElem_cons hlt]
      rfl

/-- `hash_next` moves to the next of the remaining elements, and returns null after the last. -/
theorem hashNext_spec (hi : h.Inside i) :
    match h.hashNext i with
    | none => h.remaining i = []
    | some j => h.Inside j ∧ ∃ e, h.hashCur j = some e ∧ h.remaining i = e :: h.remaining j :=
  nextLoop_spec hi.bucket hi.elem (by omega)

/-- The calls of `hash_next` until it returns null, and the elements that they return. -/
def pass (h : HashTable α) : (fuel : Nat) → HashIterator → Option (List α)
  | 0, _ => none
  | fuel + 1, i =>
    match h.hashNext i with
    | none => some []
    | some j => do
      let e ← h.hashCur j
      return e :: (← h.pass fuel j)

/-- A pass meets the remaining elements in order and then null. -/
theorem pass_remaining {fuel : Nat} (hi : h.Inside i) (hfuel : (h.remaining i).length < fuel) :
    h.pass fuel i = some (h.remaining i) := by
  induction fuel generalizing i with
  | zero => omega
  | succ fuel ih =>
    have hspec := hashNext_spec hi
    rw [pass]
    cases hnext : h.hashNext i with
    | none =>
      rw [hnext] at hspec
      exact congrArg some hspec.symm
    | some j =>
      rw [hnext] at hspec
      obtain ⟨hj, e, hcur, hremaining⟩ := hspec
      rw [hremaining, List.length_cons] at hfuel
      show (do let e ← h.hashCur j; return e :: (← h.pass fuel j)) = _
      rw [hcur, ih hj (by omega), hremaining]
      rfl

/-- A pass from `hash_first` meets every element of the table. -/
theorem pass_hashFirst {hash : α → Nat} (hp : h.Placed hash) :
    h.pass (h.elemCnt + 1) hashFirst = some h.elems := by
  have hinside : h.Inside hashFirst :=
    ⟨List.length_pos_iff.mpr hp.bucket, Nat.zero_le _⟩
  rw [← remaining_hashFirst h]
  apply pass_remaining hinside
  rw [remaining_hashFirst, hp.count]
  exact Nat.lt_succ_self _

end HashTable

end Pintos
