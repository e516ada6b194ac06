import Mathlib.Data.List.Chain
import Mathlib.Data.List.Nodup
import Mathlib.Logic.Function.Basic
import Mathlib.Tactic.Common

/-! Doubly linked lists.  The cells of type `α` point to each other by `prev` and `next`; `Spells`
says that a list of cells is linked in both directions and ends on both sides, and `Spells.splice`
replaces the cells between two others. -/

/-- The two links of each cell. -/
structure Links (α : Type) where
  prev : α → Option α
  next : α → Option α

namespace Links

variable {α : Type}

/-- The cell `a` is right before the cell `b`. -/
def Before (m : Links α) (a b : α) : Prop := m.next a = some b ∧ m.prev b = some a

/-- The cells of `l` are linked in this order, and to no others. -/
structure Spells (m : Links α) (l : List α) : Prop where
  chain : l.IsChain m.Before
  nodup : l.Nodup
  first : ∀ a ∈ l.head?, m.prev a = none
  last : ∀ a ∈ l.getLast?, m.next a = none

variable {m m' : Links α} {l xs ys mid mid' : List α} {a b e : α}

/-- Links that agree on the cells of a list spell it too. -/
theorem Spells.congr (h : m.Spells l) (hprev : ∀ a ∈ l, m'.prev a = m.prev a)
    (hnext : ∀ a ∈ l, m'.next a = m.next a) : m'.Spells l where
  chain := by
    refine h.chain.imp_of_mem_imp fun a b ha hb hab => ⟨?_, ?_⟩
    · rw [hnext a ha]
      exact hab.1
    · rw [hprev b hb]
      exact hab.2
  nodup := h.nodup
  first a ha := by
    rw [hprev a (List.mem_of_mem_head? ha)]
    exact h.first a ha
  last a ha := by
    rw [hnext a (List.mem_of_mem_getLast? ha)]
    exact h.last a ha

/-- Two cells that follow each other. -/
theorem Spells.before (h : m.Spells (xs ++ a :: b :: ys)) : m.Before a b :=
  (List.isChain_append_cons_cons.mp h.chain).2.1

/-- What follows `a` is a cell up to `b`. -/
theorem next_mem (h : (xs ++ a :: (mid ++ b :: ys)).IsChain m.Before) :
    ∃ c ∈ mid ++ [b], m.next a = some c := by
  cases mid with
  | nil => exact ⟨b, by simp, (List.isChain_append_cons_cons.mp h).2.1.1⟩
  | cons c mid => exact ⟨c, by simp, (List.isChain_append_cons_cons.mp h).2.1.1⟩

/-- What `b` follows is a cell from `a` on. -/
theorem prev_mem (h : (xs ++ a :: (mid ++ b :: ys)).IsChain m.Before) :
    ∃ c ∈ a :: mid, m.prev b = some c := by
  rcases List.eq_nil_or_concat mid with rfl | ⟨mid', c, rfl⟩
  · exact ⟨a, by simp, (List.isChain_append_cons_cons.mp h).2.1.2⟩
  · have hsplit : xs ++ a :: (mid'.concat c ++ b :: ys) = (xs ++ a :: mid') ++ c :: b :: ys := by
      simp
    rw [hsplit] at h
    exact ⟨c, by simp, (List.isChain_append_cons_cons.mp h).2.1.2⟩

/-- The cells between `a` and `b` are replaced: outside, only the link from `a` and the one back from
`b` change. -/
theorem Spells.splice (h : m.Spells (xs ++ a :: (mid ++ b :: ys)))
    (hnodup : (xs ++ a :: (mid' ++ b :: ys)).Nodup)
    (hmid : (a :: (mid' ++ [b])).IsChain m'.Before)
    (hprev : ∀ c ∈ xs ++ a :: ys, m'.prev c = m.prev c)
    (hnext : ∀ c ∈ xs ++ b :: ys, m'.next c = m.next c) :
    m'.Spells (xs ++ a :: (mid' ++ b :: ys)) := by
  obtain ⟨hleft, hright⟩ := List.isChain_split.mp h.chain
  rw [← List.cons_append] at hright
  have hlast := (List.isChain_split.mp hright).2
  obtain ⟨c, hc, hca⟩ := next_mem h.chain
  obtain ⟨e, he, heb⟩ := prev_mem h.chain
  have hdistinct := h.nodup
  refine ⟨?_, hnodup, fun x hx => ?_, fun x hx => ?_⟩
  · rw [List.isChain_split]
    refine ⟨hleft.imp_of_mem_imp fun x y hx hy hxy => ?_, ?_⟩
    · -- `a` is followed by no cell on this side
      have hxa : x ≠ a := by
        rintro rfl
        obtain rfl := Option.some.inj (hca.symm.trans hxy.1)
        simp only [List.nodup_append, List.nodup_cons, List.mem_append, List.mem_cons] at hdistinct
        simp only [List.mem_append, List.mem_cons, List.not_mem_nil, or_false] at hc hy
        grind
      refine ⟨?_, ?_⟩
      · rw [hnext x (by simp at hx ⊢; tauto)]
        exact hxy.1
      · rw [hprev y (by simp at hy ⊢; tauto)]
        exact hxy.2
    · rw [← List.cons_append, List.isChain_split]
      refine ⟨hmid, hlast.imp_of_mem_imp fun x y hx hy hxy => ?_⟩
      have hyb : y ≠ b := by
        rintro rfl
        obtain rfl := Option.some.inj (heb.symm.trans hxy.2)
        simp only [List.nodup_append, List.nodup_cons, List.mem_append, List.mem_cons] at hdistinct
        simp only [List.mem_cons] at he hx
        grind
      refine ⟨?_, ?_⟩
      · rw [hnext x (by simp at hx ⊢; tauto)]
        exact hxy.1
      · rw [hprev y (by simp at hy ⊢; tauto)]
        exact hxy.2
  · have hhead : (xs ++ a :: (mid ++ b :: ys)).head? = (xs ++ a :: (mid' ++ b :: ys)).head? := by
      cases xs <;> rfl
    have hmem : x ∈ xs ++ a :: ys := by
      cases xs with
      | nil =>
        obtain rfl := Option.some.inj hx
        simp
      | cons z xs =>
        obtain rfl := Option.some.inj hx
        simp
    rw [hprev x hmem]
    exact h.first x (by rwa [hhead])
  · have hends : ∀ mid : List α, (xs ++ a :: (mid ++ b :: ys)).getLast? = (b :: ys).getLast? := by
      intro mid
      have hsplit : xs ++ a :: (mid ++ b :: ys) = (xs ++ a :: mid) ++ b :: ys := by simp
      rw [hsplit, List.getLast?_append_of_ne_nil _ (List.cons_ne_nil _ _)]
    rw [hends] at hx
    rw [hnext x (List.mem_append_right _ (List.mem_of_mem_getLast? hx))]
    exact h.last x (by rwa [hends])

/-! ### One cell -/

variable [DecidableEq α]

/-- The cell `e` is put right before `b`, and after what was there. -/
def insertBefore (m : Links α) (b e : α) : Links α where
  prev := Function.update (Function.update m.prev e (m.prev b)) b (some e)
  next := match m.prev b with
    | some a => Function.update (Function.update m.next e (some b)) a (some e)
    | none => Function.update m.next e (some b)

/-- The cell `e` is taken out. -/
def unlink (m : Links α) (e : α) : Links α where
  next := match m.prev e with
    | some a => Function.update m.next a (m.next e)
    | none => m.next
  prev := match m.next e with
    | some b => Function.update m.prev b (m.prev e)
    | none => m.prev

theorem Spells.insertBefore (h : m.Spells (xs ++ a :: b :: ys)) (he : e ∉ xs ++ a :: b :: ys) :
    (m.insertBefore b e).Spells (xs ++ a :: e :: b :: ys) := by
  obtain ⟨hab, hba⟩ := h.before
  have hdistinct := h.nodup
  simp only [List.nodup_append, List.nodup_cons, List.mem_append, List.mem_cons, not_or]
    at hdistinct he
  have hnodup : (xs ++ a :: ([e] ++ b :: ys)).Nodup := by
    simp only [List.nodup_append, List.nodup_cons, List.mem_cons, List.cons_append, List.nil_append]
    grind
  refine @splice α m _ xs ys [] [e] a b h hnodup ?_ (fun c hc => ?_) fun c hc => ?_
  · simp only [List.cons_append, List.nil_append, List.isChain_cons_cons, List.IsChain.singleton,
      and_true, Before, Links.insertBefore, hba]
    grind [Function.update_apply]
  · have hcb : c ≠ b ∧ c ≠ e := by
      simp only [List.mem_append, List.mem_cons] at hc
      grind
    simp only [Links.insertBefore, Function.update_of_ne hcb.1, Function.update_of_ne hcb.2]
  · have hca : c ≠ a ∧ c ≠ e := by
      simp only [List.mem_append, List.mem_cons] at hc
      grind
    simp only [Links.insertBefore, hba, Function.update_of_ne hca.1, Function.update_of_ne hca.2]

theorem Spells.unlink (h : m.Spells (xs ++ a :: e :: b :: ys)) :
    (m.unlink e).Spells (xs ++ a :: b :: ys) := by
  obtain ⟨-, hea⟩ := h.before
  have hsplit : xs ++ a :: e :: b :: ys = (xs ++ [a]) ++ e :: b :: ys := by simp
  obtain ⟨heb, -⟩ := (hsplit ▸ h).before
  have hdistinct := h.nodup
  simp only [List.nodup_append, List.nodup_cons, List.mem_cons, not_or] at hdistinct
  have hnodup : (xs ++ a :: ([] ++ b :: ys)).Nodup := by
    simp only [List.nodup_append, List.nodup_cons, List.mem_cons, List.nil_append]
    grind
  refine @splice α m _ xs ys [e] [] a b h hnodup ?_ (fun c hc => ?_) fun c hc => ?_
  · simp [Before, Links.unlink, hea, heb]
  · have hcb : c ≠ b := by
      simp only [List.mem_append, List.mem_cons] at hc
      grind
    simp only [Links.unlink, heb, Function.update_of_ne hcb]
  · have hca : c ≠ a := by
      simp only [List.mem_append, List.mem_cons] at hc
      grind
    simp only [Links.unlink, hea, Function.update_of_ne hca]

/-! ### Ranges of cells -/

/-- The cell `a` points to `b`, and `b` back to `a`. -/
def link (m : Links α) (a b : α) : Links α where
  prev := Function.update m.prev b (some a)
  next := Function.update m.next a (some b)

theorem link_before (m : Links α) (a b : α) : (m.link a b).Before a b :=
  ⟨Function.update_self .., Function.update_self ..⟩

/-- Other cells are linked as before. -/
theorem Before.link {c d : α} (h : m.Before c d) (hc : c ≠ a) (hd : d ≠ b) :
    (m.link a b).Before c d :=
  ⟨(Function.update_of_ne hc ..).trans h.1, (Function.update_of_ne hd ..).trans h.2⟩

omit [DecidableEq α] in
/-- The links inside a range stay if at most the one to its first cell and the one back to its last
cell change. -/
theorem chain_congr (h : mid.IsChain m.Before) (hnodup : mid.Nodup)
    (hprev : ∀ d ∈ mid, mid.head? ≠ some d → m'.prev d = m.prev d)
    (hnext : ∀ c ∈ mid, mid.getLast? ≠ some c → m'.next c = m.next c) :
    mid.IsChain m'.Before := by
  rw [List.isChain_iff_getElem] at h ⊢
  intro i hi
  obtain ⟨hn, hp⟩ := h i hi
  refine ⟨?_, ?_⟩
  · rw [hnext _ (List.getElem_mem _), hn]
    rw [List.getLast?_eq_getElem?, List.getElem?_eq_getElem (by omega)]
    intro heq
    have := (hnodup.getElem_inj_iff).mp (Option.some.inj heq)
    omega
  · rw [hprev _ (List.getElem_mem _), hp]
    rw [List.head?_eq_getElem?, List.getElem?_eq_getElem (by omega)]
    intro heq
    have := (hnodup.getElem_inj_iff).mp (Option.some.inj heq)
    omega

/-- The cells between `a` and `b` are taken out, and stay linked. -/
theorem Spells.cut (h : m.Spells (xs ++ a :: (mid ++ b :: ys))) :
    (m.link a b).Spells (xs ++ a :: b :: ys) ∧ mid.IsChain (m.link a b).Before := by
  have hdistinct := h.nodup
  simp only [List.nodup_append, List.nodup_cons, List.mem_append, List.mem_cons, not_or]
    at hdistinct
  have hnodup : (xs ++ a :: ([] ++ b :: ys)).Nodup := by
    simp only [List.nodup_append, List.nodup_cons, List.mem_cons, List.nil_append]
    grind
  constructor
  · refine @splice α m _ xs ys mid [] a b h hnodup ?_ (fun c hc => ?_) fun c hc => ?_
    · simpa using link_before m a b
    · refine Function.update_of_ne ?_ ..
      simp only [List.mem_append, List.mem_cons] at hc
      grind
    · refine Function.update_of_ne ?_ ..
      simp only [List.mem_append, List.mem_cons] at hc
      grind
  · have hmid : mid.IsChain m.Before := by
      have hchain := h.chain
      rw [List.isChain_split] at hchain
      have hright : (mid ++ b :: ys).IsChain m.Before := hchain.2.tail
      exact (List.isChain_append.mp hright).1
    have hmidNodup : mid.Nodup := hdistinct.2.1.2.1
    refine chain_congr hmid hmidNodup (fun d hd _ => ?_) fun c hc _ => ?_
    · refine Function.update_of_ne ?_ ..
      grind
    · refine Function.update_of_ne ?_ ..
      grind

/-- The linked cells from `f` to `l` are put between `a` and `b`. -/
theorem Spells.paste {f l : α} (h : m.Spells (xs ++ a :: b :: ys)) (hmid : mid.IsChain m.Before)
    (hfirst : mid.head? = some f) (hlast : mid.getLast? = some l)
    (hnodup : (xs ++ a :: (mid ++ b :: ys)).Nodup) :
    ((m.link a f).link l b).Spells (xs ++ a :: (mid ++ b :: ys)) := by
  have hdistinct := hnodup
  simp only [List.nodup_append, List.nodup_cons, List.mem_append, List.mem_cons, not_or]
    at hdistinct
  have hf : f ∈ mid := List.mem_of_mem_head? hfirst
  have hl : l ∈ mid := List.mem_of_mem_getLast? hlast
  have hprev : ∀ c, c ≠ f → c ≠ b → ((m.link a f).link l b).prev c = m.prev c :=
    fun c hcf hcb => (Function.update_of_ne hcb ..).trans (Function.update_of_ne hcf ..)
  have hnext : ∀ c, c ≠ a → c ≠ l → ((m.link a f).link l b).next c = m.next c :=
    fun c hca hcl => (Function.update_of_ne hcl ..).trans (Function.update_of_ne hca ..)
  have haf : ((m.link a f).link l b).Before a f := by
    refine (link_before m a f).link ?_ ?_
    · grind
    · grind
  have hinner : mid.IsChain ((m.link a f).link l b).Before := by
    refine chain_congr hmid hdistinct.2.1.2.1 (fun d hd hne => ?_) fun c hc hne => ?_
    · refine hprev d ?_ ?_
      · grind
      · grind
    · refine hnext c ?_ ?_
      · grind
      · grind
  refine @splice α m _ xs ys [] mid a b h hnodup ?_ (fun c hc => ?_) fun c hc => ?_
  · rw [← List.singleton_append, List.isChain_append, List.isChain_append]
    refine ⟨.singleton a, ⟨hinner, .singleton b, fun x hx y hy => ?_⟩, fun x hx y hy => ?_⟩
    · rw [hlast] at hx
      cases hx
      cases hy
      exact link_before ..
    · cases hx
      rw [List.head?_append, hfirst] at hy
      cases hy
      exact haf
  · simp only [List.mem_append, List.mem_cons] at hc
    refine hprev c ?_ ?_
    · grind
    · grind
  · simp only [List.mem_append, List.mem_cons] at hc
    refine hnext c ?_ ?_
    · grind
    · grind

end Links
