import Mathlib.Data.Finset.Card
import Mathlib.Tactic.Common
import Pintos.Lib.Hash
import Pintos.Library.Representatives

/-! Runs of the hash table: whatever allocations of new buckets fail, a sequence of insertions,
replacements, searches and deletions gives the results of a set of representatives of the classes
that the comparison does not separate. -/

namespace Pintos

namespace HashTable

variable {ε α : Type}

inductive HashOp (α : Type) where
  | insert (new : α)
  | replace (new : α)
  | find (e : α)
  | delete (e : α)

/-- An operation where `malloc` tells whether `rehash` gets its new buckets. -/
def perform [DecidableEq α] (hash : α → Nat) (less : α → α → Except ε Bool) (malloc : Bool)
    (h : HashTable α) : HashOp α → Except ε (Option α × HashTable α)
  | .insert new => h.hashInsert hash less malloc new
  | .replace new => h.hashReplace hash less malloc new
  | .find e => do
    let found ← h.hashFind hash less e
    return (found, h)
  | .delete e => h.hashDelete hash less malloc e

/-- A sequence of operations: their results and the table at the end. -/
def performAll [DecidableEq α] (hash : α → Nat) (less : α → α → Except ε Bool)
    (h : HashTable α) : List (HashOp α × Bool) → Except ε (List (Option α) × HashTable α)
  | [] => pure ([], h)
  | (op, malloc) :: rest => do
    let (result, h) ← h.perform hash less malloc op
    let (results, h) ← performAll hash less h rest
    return (result :: results, h)

/-! ### The set of representatives -/

/-- An operation on the abstract set. -/
noncomputable def specPerform [Setoid α] (R : Representatives α) :
    HashOp α → Option α × Representatives α
  | .insert new => (R.find new, R.insert new)
  | .replace new => (R.find new, R.replace new)
  | .find e => (R.find e, R)
  | .delete e => (R.find e, R.delete e)

noncomputable def specPerformAll [Setoid α] (R : Representatives α) :
    List (HashOp α) → List (Option α) × Representatives α
  | [] => ([], R)
  | op :: rest =>
    let (result, R) := specPerform R op
    let (results, R) := specPerformAll R rest
    (result :: results, R)

/-- The table holds the elements of the set, each once and where its hash says. -/
structure Refines [Setoid α] (hash : α → Nat) (h : HashTable α) (R : Representatives α) : Prop where
  placed : h.Placed hash
  nodup : h.elems.Nodup
  mem : ∀ x, x ∈ h.elems ↔ x ∈ R.carrier
  power : h.buckets.length.isPowerOfTwo

section Steps

variable [Setoid α] {hash : α → Nat} {h : HashTable α} {R : Representatives α} {e : α}

theorem refines_hashInit : Refines hash (hashInit : HashTable α) Representatives.empty := by
  refine ⟨hashInit_placed, ?_, ?_, ⟨2, rfl⟩⟩
  · simp [hashInit, elems]
  · simp [hashInit, elems, Representatives.empty]

theorem Refines.rehash (hr : Refines hash h R) (malloc : Bool) :
    Refines hash (h.rehash hash malloc) R where
  placed := hr.placed.rehash malloc
  nodup := (rehash_elems malloc h).nodup_iff.mpr hr.nodup
  mem x := (rehash_elems malloc h).mem_iff.trans (hr.mem x)
  power := rehash_isPowerOfTwo hr.power malloc

/-- Inserting an element whose class has no representative. -/
theorem Refines.insertElem (hr : Refines hash h R) (hnone : R.find e = none) :
    Refines hash (h.insertElem hash e) (R.replace e) := by
  have hperm := insertElem_elems hr.placed e
  rw [Representatives.find_eq_none_iff] at hnone
  refine ⟨hr.placed.insertElem e, ?_, fun x => ?_, ?_⟩
  · rw [hperm.nodup_iff, List.nodup_cons]
    refine ⟨fun hmem => ?_, hr.nodup⟩
    exact hnone e ((hr.mem e).mp hmem) (Setoid.refl e)
  · rw [hperm.mem_iff, List.mem_cons, hr.mem, Representatives.mem_replace]
    exact or_congr_right ⟨fun hx => ⟨hx, hnone x hx⟩, And.left⟩
  · have hlength : (h.insertElem hash e).buckets.length = h.buckets.length :=
      List.length_modify ..
    rw [hlength]
    exact hr.power

/-- Removing the representative of the class of `e`. -/
theorem Refines.removeElem [DecidableEq α] (hr : Refines hash h R) {found : α}
    (hbucket : found ∈ h.findBucket hash e) (hfound : R.find e = some found) :
    Refines hash (h.removeElem (h.bucketIdx hash e) found) (R.delete e) := by
  have hperm := removeElem_elems hr.placed hbucket
  obtain ⟨hmem, heq⟩ := Representatives.find_eq_some_iff.mp hfound
  have hnodup := hperm.nodup_iff.mp hr.nodup
  rw [List.nodup_cons] at hnodup
  refine ⟨hr.placed.removeElem hbucket, hnodup.2, fun x => ?_, ?_⟩
  · have hx := hperm.mem_iff (a := x)
    rw [List.mem_cons, hr.mem] at hx
    rw [Representatives.mem_delete]
    constructor
    · intro hrest
      have hxR := hx.mpr (.inr hrest)
      refine ⟨hxR, fun hxe => ?_⟩
      have hsame : x = found := R.unique x hxR found hmem (Setoid.trans hxe (Setoid.symm heq))
      exact hnodup.1 (hsame ▸ hrest)
    · rintro ⟨hxR, hne⟩
      rcases hx.mp hxR with rfl | hrest
      · exact absurd heq hne
      · exact hrest
  · have hlength : (h.removeElem (h.bucketIdx hash e) found).buckets.length = h.buckets.length :=
      List.length_modify ..
    rw [hlength]
    exact hr.power

/-! ### Operations -/

variable [DecidableEq α] {less : α → α → Bool}

/-- A comparison that never faults. -/
def total (less : α → α → Bool) (x y : α) : Except ε Bool := .ok (less x y)

/-- The test of `find_elem`. -/
def equal (less : α → α → Bool) (e x : α) : Bool := !less x e && !less e x

omit [Setoid α] [DecidableEq α] in
theorem total_decides (e : α) (bucket : List α) :
    Decides (total (ε := ε) less) e (equal less e) bucket := by
  intro x _
  rw [total, total, equal]
  cases less x e <;> cases less e x <;> simp

/-- The comparison separates the elements that are not equivalent, and equivalent ones have one
hash. -/
structure Suits (hash : α → Nat) (less : α → α → Bool) : Prop where
  less : ∀ x y : α, x ≈ y ↔ less x y = false ∧ less y x = false
  hash : ∀ x y : α, x ≈ y → hash x = hash y

omit [DecidableEq α] in
theorem Suits.equal_iff (hs : Suits hash less) {x : α} : equal less e x = true ↔ x ≈ e := by
  rw [hs.less, equal, Bool.and_eq_true, Bool.not_eq_true', Bool.not_eq_true']

omit [DecidableEq α] in
/-- A search finds the representative, in the bucket of the key. -/
theorem Refines.find (hr : Refines hash h R) (hs : Suits hash less) (e : α) :
    h.hashFind hash (total (ε := ε) less) e = .ok (R.find e) ∧
      ∀ found, R.find e = some found → found ∈ h.findBucket hash e := by
  have hbucket : ∀ x ∈ R.carrier, x ≈ e → x ∈ h.findBucket hash e := fun x hx hxe =>
    hr.placed.mem_findBucket ((hr.mem x).mpr hx) (hs.hash x e hxe)
  refine ⟨?_, fun found hfound => ?_⟩
  · rw [hashFind, findElem_of_decides (total_decides e _)]
    refine congrArg _ (Representatives.find_eq_of (fun y hy => ?_) fun hnone y hy hye => ?_).symm
    · refine ⟨(hr.mem y).mp (mem_elems_of_findBucket (List.mem_of_find?_eq_some hy)), ?_⟩
      exact hs.equal_iff.mp (List.find?_some hy)
    · exact List.find?_eq_none.mp hnone y (hbucket y hy hye) (hs.equal_iff.mpr hye)
  · obtain ⟨hmem, heq⟩ := Representatives.find_eq_some_iff.mp hfound
    exact hbucket found hmem heq

/-- One operation gives the result of the abstract set and keeps the refinement. -/
theorem Refines.perform (hr : Refines hash h R) (hs : Suits hash less) (malloc : Bool)
    (op : HashOp α) :
    ∃ h', h.perform hash (total (ε := ε) less) malloc op = .ok ((specPerform R op).1, h') ∧
      Refines hash h' (specPerform R op).2 := by
  cases op with
  | insert new =>
    obtain ⟨hfind, -⟩ := hr.find (ε := ε) hs new
    rw [HashTable.perform, hashInsert, hfind]
    cases hresult : R.find new with
    | none =>
      refine ⟨_, by rw [specPerform, hresult]; rfl, ?_⟩
      rw [specPerform, Representatives.insert, if_pos hresult]
      exact (hr.insertElem hresult).rehash malloc
    | some old =>
      refine ⟨_, by rw [specPerform, hresult]; rfl, ?_⟩
      rw [specPerform, Representatives.insert, if_neg (by rw [hresult]; simp)]
      exact hr.rehash malloc
  | replace new =>
    obtain ⟨hfind, hbucket⟩ := hr.find (ε := ε) hs new
    rw [HashTable.perform, hashReplace, hfind]
    cases hresult : R.find new with
    | none =>
      refine ⟨_, by rw [specPerform, hresult]; rfl, ?_⟩
      exact (hr.insertElem hresult).rehash malloc
    | some old =>
      refine ⟨_, by rw [specPerform, hresult]; rfl, ?_⟩
      have hremoved := hr.removeElem (hbucket old hresult) hresult
      have hinserted := hremoved.insertElem Representatives.find_delete_self
      rw [Representatives.replace_delete] at hinserted
      exact hinserted.rehash malloc
  | find e =>
    obtain ⟨hfind, -⟩ := hr.find (ε := ε) hs e
    refine ⟨h, ?_, hr⟩
    rw [HashTable.perform, hfind]
    rfl
  | delete e =>
    obtain ⟨hfind, hbucket⟩ := hr.find (ε := ε) hs e
    rw [HashTable.perform, hashDelete, hfind]
    cases hresult : R.find e with
    | none =>
      refine ⟨_, by rw [specPerform, hresult]; rfl, ?_⟩
      rw [specPerform, Representatives.delete_eq_self hresult]
      exact hr
    | some found =>
      refine ⟨_, by rw [specPerform, hresult]; rfl, ?_⟩
      exact (hr.removeElem (hbucket found hresult) hresult).rehash malloc

/-- A sequence of operations gives the results of the abstract set. -/
theorem Refines.performAll (hr : Refines hash h R) (hs : Suits hash less)
    (ops : List (HashOp α × Bool)) :
    ∃ h', h.performAll hash (total (ε := ε) less) ops
        = .ok ((specPerformAll R (ops.map Prod.fst)).1, h') ∧
      Refines hash h' (specPerformAll R (ops.map Prod.fst)).2 := by
  induction ops generalizing h R with
  | nil => exact ⟨h, rfl, hr⟩
  | cons op rest ih =>
    obtain ⟨op, malloc⟩ := op
    obtain ⟨h1, hperform, hr1⟩ := hr.perform (ε := ε) hs malloc op
    obtain ⟨h2, hrest, hr2⟩ := ih hr1
    refine ⟨h2, ?_, hr2⟩
    rw [HashTable.performAll, hperform]
    show (do
      let (results, h) ← HashTable.performAll hash (total less) h1 rest
      return ((specPerform R op).1 :: results, h)) = _
    rw [hrest]
    rfl

omit [DecidableEq α] in
theorem Refines.elemCnt_eq (hr : Refines hash h R) : h.elemCnt = R.carrier.card := by
  classical
  have hcarrier : R.carrier = h.elems.toFinset := by
    ext x
    rw [List.mem_toFinset, hr.mem]
  rw [hr.placed.count, hcarrier, List.toFinset_card_of_nodup hr.nodup]

end Steps

/-- The hash table is a finite set of representatives: whatever allocations fail, every sequence of
operations gives the results of the set, the table counts the elements of the set and has a power of
two of buckets, and a pass meets each element once and then null. -/
theorem hash_runs_refine [DecidableEq α] (hash : α → Nat) (less : α → α → Bool)
    [IsStrictWeakOrder α fun x y => less x y = true]
    (hhash : ∀ x y, less x y = false → less y x = false → hash x = hash y)
    (ops : List (HashOp α × Bool)) :
    letI := incompSetoid fun x y => less x y = true
    let spec := specPerformAll Representatives.empty (ops.map Prod.fst)
    ∃ h : HashTable α,
      performAll hash (total (ε := Empty) less) hashInit ops = .ok (spec.1, h) ∧
      h.elemCnt = spec.2.carrier.card ∧ h.buckets.length.isPowerOfTwo ∧
      ∃ es, h.pass (h.elemCnt + 1) hashFirst = some es ∧ es.Nodup ∧
        ∀ x, x ∈ es ↔ x ∈ spec.2.carrier := by
  let := incompSetoid fun x y => less x y = true
  have hs : Suits hash less := by
    refine ⟨fun x y => ?_, fun x y hxy => ?_⟩
    · exact and_congr (Bool.not_eq_true _).to_iff (Bool.not_eq_true _).to_iff
    · exact hhash x y (Bool.eq_false_of_not_eq_true hxy.1) (Bool.eq_false_of_not_eq_true hxy.2)
  have hinit : Refines hash (hashInit : HashTable α) Representatives.empty := refines_hashInit
  obtain ⟨h, hrun, hr⟩ := hinit.performAll (ε := Empty) hs ops
  exact ⟨h, hrun, hr.elemCnt_eq, hr.power, h.elems, pass_hashFirst hr.placed, hr.nodup, hr.mem⟩

theorem tensOrder : IsStrictWeakOrder Nat fun x y => decide (x / 10 < y / 10) = true where
  irrefl x := by simp
  trans x y z := by
    simp only [decide_eq_true_eq]
    omega
  incomp_trans x y z := by
    simp only [decide_eq_true_eq]
    omega

/-- Numbers with one hash for ten of them: an insertion, a search for an equal one, a replacement
and a deletion, where an allocation fails. -/
theorem hash_runs_refine_tens :
    letI : IsStrictWeakOrder Nat fun x y => decide (x / 10 < y / 10) = true := tensOrder
    letI := incompSetoid fun x y : Nat => decide (x / 10 < y / 10) = true
    let ops : List (HashOp Nat × Bool) :=
      [(.insert 31, true), (.find 35, true), (.replace 38, false), (.delete 30, true)]
    let spec := specPerformAll Representatives.empty (ops.map Prod.fst)
    ∃ h : HashTable Nat,
      performAll (· / 10) (total (ε := Empty) fun x y => decide (x / 10 < y / 10)) hashInit ops
        = .ok (spec.1, h) ∧
      h.elemCnt = spec.2.carrier.card ∧ h.buckets.length.isPowerOfTwo ∧
      ∃ es, h.pass (h.elemCnt + 1) hashFirst = some es ∧ es.Nodup ∧
        ∀ x, x ∈ es ↔ x ∈ spec.2.carrier :=
  letI : IsStrictWeakOrder Nat fun x y => decide (x / 10 < y / 10) = true := tensOrder
  hash_runs_refine (· / 10) (fun x y => decide (x / 10 < y / 10))
    (fun x y hxy hyx => by simp at hxy hyx; omega) _

end HashTable

end Pintos
