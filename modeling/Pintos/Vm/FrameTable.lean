import Mathlib.Data.List.Nodup
import Pintos.Vm.PageContents

/-! The frame table, the user pool and the page directories agree: every frame in the table is mapped
by its owner at its address, except for the frames that somebody holds between obtaining and mapping
them.  Each operation on the three is checked once, for any set of held frames. -/

namespace Pintos

namespace Pagedir

variable {pd pd' : Pagedir}

theorem getPage_round (pd : Pagedir) (v : Nat) : pd.getPage (pgRoundDown v) = pd.getPage v := by
  have hpdNo : pdNo (pgRoundDown v) = pdNo v := by
    unfold pdNo pgRoundDown pgSize
    omega
  rw [getPage_eq, getPage_eq, hpdNo, pgRoundDown_of_aligned (pgRoundDown_aligned v)]

theorem modifyPte_getPage {v : Nat} {f : Pte → Pte}
    (hf : ∀ pte, (f pte).present = pte.present ∧ (f pte).page = pte.page) (u : Nat) :
    (pd.modifyPte v f).getPage u = pd.getPage u := by
  unfold modifyPte
  split
  · rw [getPage_eq, getPage_eq]
    by_cases hu : pgRoundDown u = pgRoundDown v
    · simp [hu, (hf (pd.pte (pgRoundDown v))).1, (hf (pd.pte (pgRoundDown v))).2]
    · simp [Function.update_of_ne hu]
  · rfl

theorem setAccessed_getPage (pd : Pagedir) (v u : Nat) (accessed : Bool) :
    (pd.setAccessed v accessed).getPage u = pd.getPage u := by
  unfold setAccessed
  exact modifyPte_getPage (f := fun pte => { pte with accessed }) (fun _ => ⟨rfl, rfl⟩) u

theorem clearPage_getPage (pd : Pagedir) {v : Nat} (hv : v % pgSize = 0) (u : Nat) :
    (pd.clearPage v).getPage u = if pgRoundDown u = v then none else pd.getPage u := by
  unfold clearPage modifyPte
  rw [pgRoundDown_of_aligned hv, getPage_eq, getPage_eq]
  split
  · by_cases hu : pgRoundDown u = v
    · simp [hu]
    · simp [hu]
  · rename_i hpde
    by_cases hu : pgRoundDown u = v
    · have hpd : pdNo u = pdNo v := by
        rw [← hu]
        unfold pdNo pgRoundDown pgSize
        omega
      simp [hu, hpd, hpde]
    · rw [if_neg hu]

/-- What `pagedir_set_page` maps, and that it maps nothing over a mapped page. -/
theorem setPage_maps {freePages kernelPages upage kpage : Nat} {writable : Bool}
    (h : pd.setPage freePages upage kpage writable = .ok (some (kernelPages, pd'))) :
    upage % pgSize = 0 ∧ upage < physBase ∧ pd.getPage upage = none ∧
      ∀ u, pd'.getPage u = if pgRoundDown u = upage then some kpage else pd.getPage u := by
  simp only [setPage] at h
  split at h
  · cases h
  rename_i halign
  have halign : upage % pgSize = 0 := not_not.mp halign
  have hround := pgRoundDown_of_aligned halign
  have hpdNo : ∀ u, pgRoundDown u = upage → pdNo u = pdNo upage := by
    intro u hu
    rw [← hu]
    unfold pdNo pgRoundDown pgSize
    omega
  split at h
  · cases h
  rename_i huser
  have huser : upage < physBase := not_le.mp huser
  split at h
  · rename_i hpde
    split at h
    · cases h
    · rename_i hpresent
      cases h
      refine ⟨halign, huser, ?_, fun u => ?_⟩
      · rw [getPage_eq, hround, if_neg fun hp => hpresent hp.2]
      · rw [getPage_eq, getPage_eq]
        by_cases hu : pgRoundDown u = upage
        · simp [hu, hpdNo u hu, hpde]
        · simp [hu]
  · rename_i hpde
    split at h
    · cases h
    · cases h
      refine ⟨halign, huser, ?_, fun u => ?_⟩
      · rw [getPage_eq, if_neg fun hp => hpde hp.1]
      · rw [getPage_eq, getPage_eq]
        by_cases hu : pgRoundDown u = upage
        · simp [hu, hpdNo u hu]
        · have hregion : pdNo (pgRoundDown u) = pdNo u := by
            unfold pdNo pgRoundDown pgSize
            omega
          by_cases hsame : pdNo u = pdNo upage
          · simp [hu, hsame, hregion, hpde, zeroPte]
          · simp [hu, hsame, hregion]

end Pagedir

namespace Vm

/-- The frame that page `v` of process `p` is mapped to. -/
def mapped (s : Vm) (p v : Nat) : Option Nat := (s.process p).pagedir.getPage v

/-- The frame table, the user pool and the page directories agree but for the frames in `held`. -/
structure FrameInv (held : Nat → Prop) (s : Vm) : Prop where
  nodup : (s.frameHash.map FrameEntry.page).Nodup
  used : ∀ fe ∈ s.frameHash, s.userPool.bits fe.page = true
  heldUsed : ∀ page, held page → s.userPool.bits page = true
  backed : ∀ fe ∈ s.frameHash, ¬ held fe.page →
    fe.threadVaddr % pgSize = 0 ∧ s.mapped fe.owner fe.threadVaddr = some fe.page
  listed : ∀ p v page, s.mapped p v = some page →
    ¬ held page ∧ ⟨page, p, pgRoundDown v⟩ ∈ s.frameHash
  user : ∀ p v page, s.mapped p v = some page → v < physBase

/-- The page has an entry in the frame table. -/
def InTable (s : Vm) (page : Nat) : Prop := ∃ fe ∈ s.frameHash, fe.page = page

variable {held held' : Nat → Prop} {s s' : Vm} {page : Nat}

/-- A frame has one entry. -/
theorem FrameInv.unique (h : s.FrameInv held) {fe fe' : FrameEntry} (hfe : fe ∈ s.frameHash)
    (hfe' : fe' ∈ s.frameHash) (hpage : fe.page = fe'.page) : fe = fe' :=
  List.inj_on_of_nodup_map h.nodup hfe hfe' hpage

/-- Nothing of the three changes. -/
theorem FrameInv.congr (h : s.FrameInv held) (hframes : s'.frameHash = s.frameHash)
    (hpool : s'.userPool = s.userPool) (hmapped : ∀ p v, s'.mapped p v = s.mapped p v) :
    s'.FrameInv held where
  nodup := by
    rw [hframes]
    exact h.nodup
  used fe hfe := by
    rw [hframes] at hfe
    rw [hpool]
    exact h.used fe hfe
  heldUsed page hpage := by
    rw [hpool]
    exact h.heldUsed page hpage
  backed fe hfe hheld := by
    rw [hframes] at hfe
    rw [hmapped]
    exact h.backed fe hfe hheld
  listed p v page hpage := by
    rw [hmapped] at hpage
    rw [hframes]
    exact h.listed p v page hpage
  user p v page hpage := by
    rw [hmapped] at hpage
    exact h.user p v page hpage

/-- The held frames under another description. -/
theorem FrameInv.of_iff (h : s.FrameInv held) (hiff : ∀ page, held' page ↔ held page) :
    s.FrameInv held' := by
  obtain rfl : held' = held := funext fun page => propext (hiff page)
  exact h

/-- A page taken from the user pool was free, and is held from then on. -/
theorem FrameInv.take (h : s.FrameInv held) {pool : Bitmap}
    (hscan : s.userPool.scanAndFlip 0 1 false = some (page, pool))
    (hframes : s'.frameHash = s.frameHash) (hpool : s'.userPool = pool)
    (hmapped : ∀ p v, s'.mapped p v = s.mapped p v) :
    ¬ held page ∧ ¬ s.InTable page ∧ s'.FrameInv fun q => held q ∨ q = page := by
  rw [Bitmap.scanAndFlip, Option.map_eq_some_iff] at hscan
  obtain ⟨i, hscan, hflip⟩ := hscan
  obtain ⟨rfl, rfl⟩ := Prod.mk.inj hflip
  obtain ⟨-, hfree⟩ := Bitmap.scan_one hscan
  have hnotHeld : ¬ held i := fun hheld => by
    rw [h.heldUsed i hheld] at hfree
    cases hfree
  have hnotIn : ¬ s.InTable i := by
    rintro ⟨fe, hfe, rfl⟩
    rw [h.used fe hfe] at hfree
    cases hfree
  have hbits : ∀ q, s.userPool.bits q = true → (s.userPool.setMultiple i 1 true).bits q = true := by
    intro q hq
    simp [Bitmap.setMultiple, hq]
  refine ⟨hnotHeld, hnotIn, ?_⟩
  constructor
  · rw [hframes]
    exact h.nodup
  · intro fe hfe
    rw [hframes] at hfe
    rw [hpool]
    exact hbits _ (h.used fe hfe)
  · intro q hq
    rw [hpool]
    rcases hq with hq | rfl
    · exact hbits _ (h.heldUsed q hq)
    · simp [Bitmap.setMultiple]
  · intro fe hfe hheld
    rw [hframes] at hfe
    rw [hmapped]
    exact h.backed fe hfe fun hfe' => hheld (.inl hfe')
  · intro p v q hq
    rw [hmapped] at hq
    obtain ⟨hq', hin⟩ := h.listed p v q hq
    rw [hframes]
    refine ⟨?_, hin⟩
    rintro (hheld | rfl)
    · exact hq' hheld
    · exact hnotIn ⟨_, hin, rfl⟩
  · intro p v q hq
    rw [hmapped] at hq
    exact h.user p v q hq

/-- A held page gets an entry. -/
theorem FrameInv.insert (h : s.FrameInv held) {fe : FrameEntry} (hheld : held fe.page)
    (hnotIn : ¬ s.InTable fe.page) (hframes : s'.frameHash.Perm (fe :: s.frameHash))
    (hpool : s'.userPool = s.userPool) (hmapped : ∀ p v, s'.mapped p v = s.mapped p v) :
    s'.FrameInv held where
  nodup := by
    rw [(hframes.map FrameEntry.page).nodup_iff, List.map_cons, List.nodup_cons]
    refine ⟨fun hmem => ?_, h.nodup⟩
    obtain ⟨fe', hfe', hpage⟩ := List.mem_map.mp hmem
    exact hnotIn ⟨fe', hfe', hpage⟩
  used fe' hfe' := by
    rw [hpool]
    rcases List.mem_cons.mp (hframes.mem_iff.mp hfe') with rfl | hfe'
    · exact h.heldUsed _ hheld
    · exact h.used fe' hfe'
  heldUsed page hpage := by
    rw [hpool]
    exact h.heldUsed page hpage
  backed fe' hfe' hfree := by
    rw [hmapped]
    rcases List.mem_cons.mp (hframes.mem_iff.mp hfe') with rfl | hfe'
    · exact absurd hheld hfree
    · exact h.backed fe' hfe' hfree
  listed p v page hpage := by
    rw [hmapped] at hpage
    obtain ⟨hfree, hin⟩ := h.listed p v page hpage
    exact ⟨hfree, hframes.mem_iff.mpr (List.mem_cons_of_mem _ hin)⟩
  user p v page hpage := by
    rw [hmapped] at hpage
    exact h.user p v page hpage

/-- The page of a frame is unmapped, and the frame is held from then on. -/
theorem FrameInv.evict (h : s.FrameInv held) {fe : FrameEntry} (hfe : fe ∈ s.frameHash)
    (hfree : ¬ held fe.page) (hframes : s'.frameHash = s.frameHash)
    (hpool : s'.userPool = s.userPool)
    (hmapped : ∀ p v, s'.mapped p v =
      if p = fe.owner ∧ pgRoundDown v = fe.threadVaddr then none else s.mapped p v) :
    s'.FrameInv fun q => held q ∨ q = fe.page where
  nodup := by
    rw [hframes]
    exact h.nodup
  used fe' hfe' := by
    rw [hframes] at hfe'
    rw [hpool]
    exact h.used fe' hfe'
  heldUsed page hpage := by
    rw [hpool]
    rcases hpage with hpage | rfl
    · exact h.heldUsed page hpage
    · exact h.used fe hfe
  backed fe' hfe' hnot := by
    rw [hframes] at hfe'
    obtain ⟨halign, hback⟩ := h.backed fe' hfe' fun hheld => hnot (.inl hheld)
    refine ⟨halign, ?_⟩
    rw [hmapped, if_neg]
    · exact hback
    · rintro ⟨howner, hvaddr⟩
      rw [pgRoundDown_of_aligned halign] at hvaddr
      have hsame := (h.backed fe hfe hfree).2
      rw [← howner, ← hvaddr, hback] at hsame
      exact hnot (.inr (Option.some.inj hsame))
  listed p v page hpage := by
    rw [hmapped] at hpage
    split at hpage
    · cases hpage
    · rename_i hother
      obtain ⟨hnot, hin⟩ := h.listed p v page hpage
      rw [hframes]
      refine ⟨?_, hin⟩
      rintro (hheld | rfl)
      · exact hnot hheld
      · have hsame := h.unique hin hfe rfl
        rw [← hsame] at hother
        exact hother ⟨rfl, rfl⟩
  user p v page hpage := by
    rw [hmapped] at hpage
    split at hpage
    · cases hpage
    · exact h.user p v page hpage

/-- The entry of a held frame gets another owner and address. -/
theorem FrameInv.rename (h : s.FrameInv held) (hheld : held page) {g : FrameEntry → FrameEntry}
    (hg : ∀ fe, (g fe).page = fe.page)
    (hframes : s'.frameHash = s.frameHash.map fun fe => if fe.page = page then g fe else fe)
    (hpool : s'.userPool = s.userPool) (hmapped : ∀ p v, s'.mapped p v = s.mapped p v) :
    s'.FrameInv held := by
  have hpages : s'.frameHash.map FrameEntry.page = s.frameHash.map FrameEntry.page := by
    rw [hframes, List.map_map]
    apply List.map_congr_left
    intro fe _
    rw [Function.comp_apply]
    split
    · exact hg fe
    · rfl
  constructor
  · rw [hpages]
    exact h.nodup
  · intro fe hfe
    have hmem : fe.page ∈ s'.frameHash.map FrameEntry.page := List.mem_map_of_mem hfe
    rw [hpages] at hmem
    obtain ⟨fe', hfe', hpage⟩ := List.mem_map.mp hmem
    rw [hpool, ← hpage]
    exact h.used fe' hfe'
  · intro q hq
    rw [hpool]
    exact h.heldUsed q hq
  · intro fe hfe hfree
    rw [hframes] at hfe
    obtain ⟨fe', hfe', rfl⟩ := List.mem_map.mp hfe
    rw [hmapped]
    split at hfree
    · rename_i hpage
      rw [hg, hpage] at hfree
      exact absurd hheld hfree
    · rename_i hpage
      rw [if_neg hpage]
      exact h.backed fe' hfe' hfree
  · intro p v q hq
    rw [hmapped] at hq
    obtain ⟨hnot, hin⟩ := h.listed p v q hq
    refine ⟨hnot, ?_⟩
    rw [hframes]
    refine List.mem_map.mpr ⟨_, hin, if_neg ?_⟩
    rintro rfl
    exact hnot hheld
  · intro p v q hq
    rw [hmapped] at hq
    exact h.user p v q hq

/-- A held frame is mapped at the address of its entry. -/
theorem FrameInv.map (h : s.FrameInv held) {fe : FrameEntry} (hfe : fe ∈ s.frameHash)
    (hheld : held fe.page) (halign : fe.threadVaddr % pgSize = 0)
    (huser : fe.threadVaddr < physBase)
    (hnone : s.mapped fe.owner fe.threadVaddr = none) (hframes : s'.frameHash = s.frameHash)
    (hpool : s'.userPool = s.userPool)
    (hmapped : ∀ p v, s'.mapped p v =
      if p = fe.owner ∧ pgRoundDown v = fe.threadVaddr then some fe.page else s.mapped p v) :
    s'.FrameInv fun q => held q ∧ q ≠ fe.page where
  nodup := by
    rw [hframes]
    exact h.nodup
  used fe' hfe' := by
    rw [hframes] at hfe'
    rw [hpool]
    exact h.used fe' hfe'
  heldUsed q hq := by
    rw [hpool]
    exact h.heldUsed q hq.1
  backed fe' hfe' hnot := by
    rw [hframes] at hfe'
    by_cases hpage : fe'.page = fe.page
    · obtain rfl := h.unique hfe' hfe hpage
      refine ⟨halign, ?_⟩
      rw [hmapped, if_pos ⟨rfl, pgRoundDown_of_aligned halign⟩]
    · obtain ⟨halign', hback⟩ := h.backed fe' hfe' fun hheld' => hnot ⟨hheld', hpage⟩
      refine ⟨halign', ?_⟩
      rw [hmapped, if_neg]
      · exact hback
      · rintro ⟨howner, hvaddr⟩
        rw [pgRoundDown_of_aligned halign'] at hvaddr
        rw [howner, hvaddr, hnone] at hback
        cases hback
  listed p v q hq := by
    rw [hframes]
    rw [hmapped] at hq
    split at hq
    · rename_i hsame
      cases hq
      refine ⟨fun hnot => hnot.2 rfl, ?_⟩
      rw [hsame.1, hsame.2]
      exact hfe
    · obtain ⟨hnot, hin⟩ := h.listed p v q hq
      exact ⟨fun hheld' => hnot hheld'.1, hin⟩
  user p v q hq := by
    rw [hmapped] at hq
    split at hq
    · rename_i hsame
      have hround := hsame.2
      unfold pgRoundDown pgSize at hround
      unfold physBase pgSize at *
      omega
    · exact h.user p v q hq

/-- The entry of a held frame is removed. -/
theorem FrameInv.remove (h : s.FrameInv held) (hheld : held page)
    (hframes : s'.frameHash.Perm (s.frameHash.filter fun fe => fe.page ≠ page))
    (hpool : s'.userPool = s.userPool) (hmapped : ∀ p v, s'.mapped p v = s.mapped p v) :
    s'.FrameInv held ∧ ¬ s'.InTable page := by
  have hmem : ∀ fe, fe ∈ s'.frameHash ↔ fe ∈ s.frameHash ∧ fe.page ≠ page := by
    intro fe
    rw [hframes.mem_iff, List.mem_filter]
    simp
  refine ⟨⟨?_, ?_, ?_, ?_, ?_, ?_⟩, ?_⟩
  · rw [(hframes.map _).nodup_iff]
    exact h.nodup.sublist (List.filter_sublist.map _)
  · intro fe hfe
    rw [hpool]
    exact h.used fe ((hmem fe).mp hfe).1
  · intro q hq
    rw [hpool]
    exact h.heldUsed q hq
  · intro fe hfe hfree
    rw [hmapped]
    exact h.backed fe ((hmem fe).mp hfe).1 hfree
  · intro p v q hq
    rw [hmapped] at hq
    obtain ⟨hnot, hin⟩ := h.listed p v q hq
    refine ⟨hnot, (hmem _).mpr ⟨hin, ?_⟩⟩
    rintro rfl
    exact hnot hheld
  · intro p v q hq
    rw [hmapped] at hq
    exact h.user p v q hq
  · rintro ⟨fe, hfe, hpage⟩
    exact ((hmem fe).mp hfe).2 hpage

/-- A held frame without an entry goes back to the user pool. -/
theorem FrameInv.giveBack (h : s.FrameInv held) (hnotIn : ¬ s.InTable page)
    (hframes : s'.frameHash = s.frameHash)
    (hpool : s'.userPool = s.userPool.setMultiple page 1 false)
    (hmapped : ∀ p v, s'.mapped p v = s.mapped p v) :
    s'.FrameInv fun q => held q ∧ q ≠ page := by
  have hbits : ∀ q, q ≠ page → s'.userPool.bits q = s.userPool.bits q := by
    intro q hq
    rw [hpool]
    have hout : ¬ (page ≤ q ∧ q < page + 1) := by omega
    simp only [Bitmap.setMultiple, if_neg hout]
  constructor
  · rw [hframes]
    exact h.nodup
  · intro fe hfe
    rw [hframes] at hfe
    rw [hbits fe.page fun hpage => hnotIn ⟨fe, hfe, hpage⟩]
    exact h.used fe hfe
  · intro q hq
    rw [hbits q hq.2]
    exact h.heldUsed q hq.1
  · intro fe hfe hnot
    rw [hframes] at hfe
    rw [hmapped]
    exact h.backed fe hfe fun hheld => hnot ⟨hheld, fun hpage => hnotIn ⟨fe, hfe, hpage⟩⟩
  · intro p v q hq
    rw [hmapped] at hq
    obtain ⟨hnot, hin⟩ := h.listed p v q hq
    rw [hframes]
    exact ⟨fun hheld => hnot hheld.1, hin⟩
  · intro p v q hq
    rw [hmapped] at hq
    exact h.user p v q hq

/-- A process loses its page directory; the frames that it maps are held from then on. -/
theorem FrameInv.detach (h : s.FrameInv held) (cur : Nat) (hframes : s'.frameHash = s.frameHash)
    (hpool : s'.userPool = s.userPool)
    (hmapped : ∀ p v, s'.mapped p v = if p = cur then none else s.mapped p v) :
    s'.FrameInv fun q => held q ∨ ∃ v, s.mapped cur v = some q := by
  constructor
  · rw [hframes]
    exact h.nodup
  · intro fe hfe
    rw [hframes] at hfe
    rw [hpool]
    exact h.used fe hfe
  · intro q hq
    rw [hpool]
    rcases hq with hq | ⟨v, hv⟩
    · exact h.heldUsed q hq
    · exact h.used _ (h.listed cur v q hv).2
  · intro fe hfe hnot
    rw [hframes] at hfe
    obtain ⟨halign, hback⟩ := h.backed fe hfe fun hheld => hnot (.inl hheld)
    refine ⟨halign, ?_⟩
    rw [hmapped, if_neg]
    · exact hback
    · rintro rfl
      exact hnot (.inr ⟨_, hback⟩)
  · intro p v q hq
    rw [hmapped] at hq
    split at hq
    · cases hq
    · rename_i hp
      obtain ⟨hnot, hin⟩ := h.listed p v q hq
      rw [hframes]
      refine ⟨?_, hin⟩
      rintro (hheld | ⟨u, hu⟩)
      · exact hnot hheld
      · have hsame := h.unique hin (h.listed cur u q hu).2 rfl
        exact hp (congrArg FrameEntry.owner hsame)
  · intro p v q hq
    rw [hmapped] at hq
    split at hq
    · cases hq
    · exact h.user p v q hq

end Vm

end Pintos
