import Pintos.Vm.FrameTable
import Pintos.Vm.ValidAddress

/-! How `syscall_handler` (`userprog/syscall.c`) gets the number and the parameters of a system call
from the user's stack.  `CHECK_PTR` checks the first byte of a word and the load then takes four, so a
word that crosses the end of a page is read from a page that has not been checked, or from kernel
memory; and a stack pointer in page 0 comes to the unset fields of a key. -/

namespace Pintos

section

variable (order : List FrameEntry → List FrameEntry) (kernel : Nat → UInt8) (cur fesp : Nat)

/-- A byte that the kernel loads.  A page that is not present is brought in by its fault, which the
frame `fesp` of the fault may take for stack growth; a fault that is not handled ends the process.
Above `PHYS_BASE` there is the kernel's own memory. -/
def loadByte (a : Nat) : VmRoutine UInt8 := do
  if physBase ≤ a then pure (kernel a)
  else
    let s ← get
    if ((s.process cur).pagedir.getPage a).isNone then
      if !(← pageFault order cur a fesp) then throw (.exit (-1))
    let s ← get
    match (s.process cur).pagedir.getPage a with
    | none => throw (.undefined "a page that is not present")
    | some page =>
      set (s.setPagedir cur ((s.process cur).pagedir.touch a false))
      pure (s.memory page ⟨a % 4096, Nat.mod_lt _ (by decide)⟩)

/-- `*(int *) esp`. -/
def loadWord (esp : Nat) : VmRoutine Nat := do
  let b0 ← loadByte order kernel cur fesp esp
  let b1 ← loadByte order kernel cur fesp (esp + 1)
  let b2 ← loadByte order kernel cur fesp (esp + 2)
  let b3 ← loadByte order kernel cur fesp (esp + 3)
  pure (b0.toNat + 2 ^ 8 * b1.toNat + 2 ^ 16 * b2.toNat + 2 ^ 24 * b3.toNat)

/-- A word that the handler asks for, with the memory before that, and whether it then reads it. -/
structure WordAccess where
  addr : Nat
  vm : Vm
  read : Bool

variable (tables : PtSuppl → SupplHash.Table) (unset : Nat → SupplHash.Elem)

/-- `CHECK_PTR` and the load of the word: the access, and the word.  `tables` gives the hash table that
holds the entries of the process, and `unset` the key of the check of each address. -/
def getParam (esp : Nat) (s : Vm) : List WordAccess × Except Fault (Nat × Vm) :=
  match isValidAddressOfThread order (tables (s.process cur).ptSuppl) (unset esp) cur esp false 0 s with
  | .error e => ([⟨esp, s, false⟩], .error e)
  | .ok (false, _) => ([⟨esp, s, false⟩], .error (.exit (-1)))
  | .ok (true, s) => ([⟨esp, s, true⟩], loadWord order kernel cur fesp esp s)

/-- `n` times `GET_PARAM`. -/
def getParams : (n esp : Nat) → Vm → List WordAccess × Except Fault (List Nat × Vm)
  | 0, _, s => ([], .ok ([], s))
  | n + 1, esp, s =>
    match getParam order kernel cur fesp tables unset esp s with
    | (accesses, .error e) => (accesses, .error e)
    | (accesses, .ok (word, s)) =>
      let (more, result) := getParams n ((esp + 4) % 2 ^ 32) s
      (accesses ++ more, result.map fun (words, s) => (word :: words, s))

/-- The number of `GET_PARAM`s in the case of a system call. -/
def paramCount (syscallId : Nat) : Nat :=
  match syscallId with
  | 0 => 0
  | 4 | 10 | 13 | 17 => 2
  | 8 | 9 => 3
  | n => if n < 20 then 1 else 0

/-- `syscall_handler` up to the call: the accesses to words, the number and the parameters. -/
def syscallHandler (esp : Nat) (s : Vm) : List WordAccess × Except Fault ((Nat × List Nat) × Vm) :=
  match getParam order kernel cur fesp tables unset esp s with
  | (accesses, .error e) => (accesses, .error e)
  | (accesses, .ok (syscallId, s)) =>
    let (more, result) := getParams order kernel cur fesp tables unset (paramCount syscallId)
      ((esp + 4) % 2 ^ 32) s
    (accesses ++ more, result.map fun (params, s) => ((syscallId, params), s))

end

variable {order : List FrameEntry → List FrameEntry} {kernel : Nat → UInt8} {cur fesp : Nat}
  {tables : PtSuppl → SupplHash.Table} {unset : Nat → SupplHash.Elem}
  {s s' s1 s2 : Vm} {a esp n : Nat}

/-- The check of one address while `esp` is 0, with the process's own tables. -/
def Vm.valid (tables : PtSuppl → SupplHash.Table) (s : Vm) (cur a : Nat) : Bool :=
  (s.process cur).pagedir.valid (tables (s.process cur).ptSuppl) false a

/-- The check of the address comes to the unset fields of its key. -/
def Vm.ReadsKey (tables : PtSuppl → SupplHash.Table) (s : Vm) (cur a : Nat) : Prop :=
  Pintos.ReadsKey (tables (s.process cur).ptSuppl) (s.process cur).pagedir a

/-! ### Loads from a page that is present -/

/-- The checks without a stack pointer give the same results. -/
structure SameChecks (cur : Nat) (s s' : Vm) : Prop where
  getPage : ∀ a, (s'.process cur).pagedir.getPage a = (s.process cur).pagedir.getPage a
  ptSuppl : (s'.process cur).ptSuppl = (s.process cur).ptSuppl

theorem SameChecks.refl (cur : Nat) (s : Vm) : SameChecks cur s s := ⟨fun _ => rfl, rfl⟩

theorem SameChecks.trans (h : SameChecks cur s s1) (h' : SameChecks cur s1 s2) : SameChecks cur s s2 :=
  ⟨fun a => (h'.getPage a).trans (h.getPage a), h'.ptSuppl.trans h.ptSuppl⟩

theorem SameChecks.valid (h : SameChecks cur s s') (a : Nat) :
    s'.valid tables cur a = s.valid tables cur a := by
  rw [Vm.valid, Vm.valid, Pagedir.valid, Pagedir.valid, h.getPage, h.ptSuppl]
  simp

theorem SameChecks.touch (cur : Nat) (s : Vm) (a : Nat) :
    SameChecks cur s (s.setPagedir cur ((s.process cur).pagedir.touch a false)) where
  getPage b := by simp [Pagedir.touch_getPage]
  ptSuppl := by simp

/-- The page of an address is present. -/
def Resident (cur : Nat) (s : Vm) (a : Nat) : Prop :=
  ((s.process cur).pagedir.getPage a).isSome = true

theorem SameChecks.resident (h : SameChecks cur s s') : Resident cur s' a ↔ Resident cur s a := by
  rw [Resident, Resident, h.getPage]

theorem Resident.congr {b : Nat} (h : a / pgSize = b / pgSize) : Resident cur s a ↔ Resident cur s b := by
  rw [Resident, Resident, Pagedir.getPage_congr h]

/-- A byte of a page that is present. -/
theorem loadByte_resident (hlt : a < physBase) (h : Resident cur s a) :
    ∃ b s', loadByte order kernel cur fesp a s = .ok (b, s') ∧ SameChecks cur s s' := by
  obtain ⟨page, hpage⟩ := Option.isSome_iff_exists.mp h
  refine ⟨s.memory page ⟨a % 4096, Nat.mod_lt _ (by decide)⟩,
    s.setPagedir cur ((s.process cur).pagedir.touch a false), ?_, .touch cur s a⟩
  rw [loadByte, if_neg (Nat.not_le.mpr hlt), Routine.get_bind_apply, hpage]
  dsimp only
  rw [if_neg nofun, Routine.get_bind_apply, hpage]
  rfl

/-- After a load the page of the byte is present. -/
theorem loadByte_leaves {b : UInt8} (hlt : a < physBase)
    (h : loadByte order kernel cur fesp a s = .ok (b, s')) : Resident cur s' a := by
  have hend : ∀ {t : Vm}, (do
      let s ← get
      match (s.process cur).pagedir.getPage a with
      | none => throw (.undefined "a page that is not present")
      | some page =>
        set (s.setPagedir cur ((s.process cur).pagedir.touch a false))
        pure (s.memory page ⟨a % 4096, Nat.mod_lt _ (by decide)⟩) : VmRoutine UInt8) t = .ok (b, s') →
      Resident cur s' a := by
    intro t hrun
    rw [Routine.get_bind_apply] at hrun
    cases hpage : (t.process cur).pagedir.getPage a with
    | none =>
      rw [hpage] at hrun
      nomatch hrun
    | some page =>
      rw [hpage] at hrun
      cases hrun
      rw [(SameChecks.touch cur t a).resident, Resident, hpage]
      rfl
  rw [loadByte, if_neg (Nat.not_le.mpr hlt), Routine.get_bind_apply] at h
  by_cases habsent : ((s.process cur).pagedir.getPage a).isNone = true
  · rw [if_pos habsent] at h
    obtain ⟨handled, s1, hfault, h⟩ := Routine.bind_ok.mp h
    cases handled with
    | false => nomatch h
    | true => exact hend h
  · rw [if_neg habsent] at h
    exact hend h

/-- The word at an address reaches to the next page. -/
def Crosses (a : Nat) : Prop := pgSize - 4 < a % pgSize

theorem div_of_not_crosses {i : Nat} (h : ¬ Crosses a) (hi : i < 4) : (a + i) / pgSize = a / pgSize := by
  unfold Crosses pgSize at *
  omega

/-- A word of a page that is present. -/
theorem loadWord_resident (hlt : a < physBase) (hcross : ¬ Crosses a) (h : Resident cur s a) :
    ∃ w s', loadWord order kernel cur fesp a s = .ok (w, s') ∧ SameChecks cur s s' := by
  have hbyte : ∀ {i : Nat} {t : Vm}, i < 4 → SameChecks cur s t →
      ∃ b t', loadByte order kernel cur fesp (a + i) t = .ok (b, t') ∧ SameChecks cur s t' := by
    intro i t hi hsame
    have hres : Resident cur t (a + i) :=
      (Resident.congr (div_of_not_crosses hcross hi)).mpr (hsame.resident.mpr h)
    have hlt' : a + i < physBase := by
      unfold Crosses pgSize at hcross
      unfold physBase at *
      omega
    obtain ⟨b, t', hrun, ht⟩ := loadByte_resident hlt' hres
    exact ⟨b, t', hrun, hsame.trans ht⟩
  obtain ⟨b0, s0, h0, same0⟩ := hbyte (i := 0) (by decide) (.refl cur s)
  obtain ⟨b1, s1, h1, same1⟩ := hbyte (i := 1) (by decide) same0
  obtain ⟨b2, s2, h2, same2⟩ := hbyte (i := 2) (by decide) same1
  obtain ⟨b3, s3, h3, same3⟩ := hbyte (i := 3) (by decide) same2
  rw [Nat.add_zero] at h0
  refine ⟨b0.toNat + 2 ^ 8 * b1.toNat + 2 ^ 16 * b2.toNat + 2 ^ 24 * b3.toNat, s3, ?_, same3⟩
  rw [loadWord, Routine.bind_of_ok h0, Routine.bind_of_ok h1, Routine.bind_of_ok h2,
    Routine.bind_of_ok h3]
  rfl

/-- After the load of a word its page is present. -/
theorem loadWord_leaves {w : Nat} (hlt : a < physBase) (hcross : ¬ Crosses a)
    (h : loadWord order kernel cur fesp a s = .ok (w, s')) : Resident cur s' a := by
  rw [loadWord] at h
  obtain ⟨b0, s0, h0, h⟩ := Routine.bind_ok.mp h
  obtain ⟨b1, s1, h1, h⟩ := Routine.bind_ok.mp h
  obtain ⟨b2, s2, h2, h⟩ := Routine.bind_ok.mp h
  obtain ⟨b3, s3, h3, h⟩ := Routine.bind_ok.mp h
  cases h
  have hlt' : a + 3 < physBase := by
    unfold Crosses pgSize at hcross
    unfold physBase at *
    omega
  exact (Resident.congr (div_of_not_crosses hcross (by decide))).mp (loadByte_leaves hlt' h3)

/-! ### The words that are read -/

/-- All four bytes pass the check. -/
def WordAccess.Valid (order : List FrameEntry → List FrameEntry) (tables : PtSuppl → SupplHash.Table)
    (unset : Nat → SupplHash.Elem) (cur : Nat) (r : WordAccess) : Prop :=
  ∀ i < 4, isValidAddressOfThread order (tables (r.vm.process cur).ptSuppl) (unset (r.addr + i)) cur
    (r.addr + i) false 0 r.vm = .ok (true, r.vm)

/-- The word is read from four valid bytes, or it is not valid and the process ends with status -1
before it is read. -/
def WordAccess.Checked (order : List FrameEntry → List FrameEntry) (tables : PtSuppl → SupplHash.Table)
    (unset : Nat → SupplHash.Elem) (cur : Nat) {α : Type} (result : Except Fault α)
    (r : WordAccess) : Prop :=
  r.read = true ∧ r.Valid order tables unset cur ∨
    r.read = false ∧ ¬ r.Valid order tables unset cur ∧ result = .error (.exit (-1))

/-- Every word that the handler asks for is checked. -/
def ArgsChecked (order : List FrameEntry → List FrameEntry) (tables : PtSuppl → SupplHash.Table)
    (unset : Nat → SupplHash.Elem) (cur : Nat) {α : Type}
    (run : List WordAccess × Except Fault α) : Prop :=
  ∀ r ∈ run.1, r.Checked order tables unset cur run.2

/-- The word does not cross to a page that fails the check, if its first byte passes. -/
def Vm.WordFits (tables : PtSuppl → SupplHash.Table) (s : Vm) (cur a : Nat) : Prop :=
  s.valid tables cur a = true → ¬ Crosses a ∨ s.valid tables cur (a + 3) = true

/-- A page that is present is not looked up. -/
theorem Resident.not_readsKey (h : a < pgSize → Resident cur s a) : ¬ s.ReadsKey tables cur a := by
  intro hkey
  have hres := h hkey.page.2
  rw [Resident, hkey.absent] at hres
  cases hres

theorem WordAccess.valid_iff {r : WordAccess} (hkey : ¬ r.vm.ReadsKey tables cur r.addr) :
    r.Valid order tables unset cur ↔ ∀ i < 4, r.vm.valid tables cur (r.addr + i) = true := by
  have hzero : ¬ r.vm.ReadsKey tables cur 0 := fun h => Nat.lt_irrefl 0 h.page.1
  by_cases haddr : r.addr = 0
  · -- the null byte fails every check
    rw [Valid, haddr]
    refine iff_of_false (fun hall => ?_) fun hall => (Pagedir.lt_of_valid (hall 0 (by decide))).1 rfl
    have hbyte := hall 0 (by decide)
    rw [isValidAddressOfThread_zero hzero rfl] at hbyte
    cases hbyte
  · refine forall_congr' fun i => imp_congr_right fun _ => ?_
    rw [isValidAddressOfThread_zero (fun h => hkey (h.of_le haddr (Nat.le_add_right _ _))) rfl]
    simp [Vm.valid]

theorem WordAccess.valid_iff_fits {read : Bool} (hkey : ¬ s.ReadsKey tables cur a)
    (h : s.valid tables cur a = true) :
    WordAccess.Valid order tables unset cur ⟨a, s, read⟩ ↔ s.WordFits tables cur a := by
  have ha := (Pagedir.lt_of_valid h).1
  rw [WordAccess.valid_iff hkey]
  constructor
  · exact fun hall _ => .inr (hall 3 (by decide))
  · intro hfits i hi
    by_cases hsame : (a + i) / pgSize = a / pgSize
    · exact (Pagedir.valid_congr (by omega) ha hsame).trans h
    rcases hfits h with hcross | hlast
    · exact absurd (div_of_not_crosses hcross hi) hsame
    · have hpage : (a + i) / pgSize = (a + 3) / pgSize := by
        unfold pgSize at *
        omega
      exact (Pagedir.valid_congr (by omega) (by omega) hpage).trans hlast

theorem getParam_of_valid (hkey : ¬ s.ReadsKey tables cur esp) (h : s.valid tables cur esp = true) :
    getParam order kernel cur fesp tables unset esp s =
      ([⟨esp, s, true⟩], loadWord order kernel cur fesp esp s) := by
  rw [Vm.valid] at h
  rw [getParam, isValidAddressOfThread_zero hkey rfl, h]

theorem getParam_of_invalid (hkey : ¬ s.ReadsKey tables cur esp) (h : s.valid tables cur esp = false) :
    getParam order kernel cur fesp tables unset esp s =
      ([⟨esp, s, false⟩], .error (.exit (-1))) := by
  rw [Vm.valid] at h
  rw [getParam, isValidAddressOfThread_zero hkey rfl, h]

/-- A first byte that fails ends the process. -/
theorem argsChecked_of_invalid {α : Type} (hkey : ¬ s.ReadsKey tables cur esp)
    (h : s.valid tables cur esp = false) :
    ArgsChecked order tables unset cur (([⟨esp, s, false⟩], .error (.exit (-1))) :
      List WordAccess × Except Fault α) := by
  intro r hr
  obtain rfl := List.mem_singleton.mp hr
  refine .inr ⟨rfl, fun hvalid => ?_, rfl⟩
  have hfirst := (WordAccess.valid_iff hkey).mp hvalid 0 (by decide)
  rw [Nat.add_zero, h] at hfirst
  cases hfirst

/-- Whether an access is checked does not depend on what becomes of the values. -/
theorem checked_map {α β : Type} (f : α → β) {result : Except Fault α} {r : WordAccess} :
    r.Checked order tables unset cur (result.map f) ↔ r.Checked order tables unset cur result := by
  cases result <;> simp [WordAccess.Checked, Except.map]

/-- A first word whose first byte passes, and the accesses after it. -/
theorem argsChecked_cons {α β : Type} (hkey : ¬ s.ReadsKey tables cur esp)
    (h : s.valid tables cur esp = true) (f : Nat → α → β)
    (rest : Nat → Vm → List WordAccess × Except Fault α) :
    ArgsChecked order tables unset cur
      (match (([⟨esp, s, true⟩], loadWord order kernel cur fesp esp s) :
          List WordAccess × Except Fault (Nat × Vm)) with
        | (accesses, .error e) => (accesses, .error e)
        | (accesses, .ok (word, s)) => (accesses ++ (rest word s).1, (rest word s).2.map (f word))) ↔
      s.WordFits tables cur esp ∧
        ∀ w s1, loadWord order kernel cur fesp esp s = .ok (w, s1) →
          ArgsChecked order tables unset cur (rest w s1) := by
  have hvalid : WordAccess.Valid order tables unset cur ⟨esp, s, true⟩ ↔ s.WordFits tables cur esp :=
    WordAccess.valid_iff_fits hkey h
  have hfirst : ∀ {γ : Type} (result : Except Fault γ), WordAccess.Checked order tables unset cur result
      ⟨esp, s, true⟩ ↔ s.WordFits tables cur esp := by
    intro γ result
    rw [← hvalid]
    simp [WordAccess.Checked]
  cases hload : loadWord order kernel cur fesp esp s with
  | error e => simp [ArgsChecked, hfirst]
  | ok result =>
    obtain ⟨w, s1⟩ := result
    simp only [ArgsChecked, List.mem_append, List.mem_singleton, checked_map]
    constructor
    · intro hall
      refine ⟨(hfirst _).mp (hall _ (.inl rfl)), ?_⟩
      rintro w' s1' heq
      cases heq
      exact fun r hr => hall r (.inr hr)
    · rintro ⟨hhead, hrest⟩ r (rfl | hr)
      · exact (hfirst _).mpr hhead
      · exact hrest w s1 rfl r hr

/-- A word that crosses is the last of four at most on its page. -/
theorem div_of_crosses {k : Nat} (h : Crosses (esp + 4 * k)) (hk : k < 4) :
    (esp + 4 * k) / pgSize = esp / pgSize := by
  unfold Crosses pgSize at *
  omega

theorem not_crosses_after {k : Nat} (h : Crosses esp) (hk : k < 4) (hpos : 0 < k) :
    ¬ Crosses (esp + 4 * k) := by
  unfold Crosses pgSize at *
  omega

/-- The words read by a first `GET_PARAM` and those after it. -/
theorem getParams_checked (hkey : ¬ s.ReadsKey tables cur esp) (h : s.valid tables cur esp = true) :
    ArgsChecked order tables unset cur (getParams order kernel cur fesp tables unset (n + 1) esp s) ↔
      s.WordFits tables cur esp ∧
        ∀ w s1, loadWord order kernel cur fesp esp s = .ok (w, s1) → ArgsChecked order tables unset cur
          (getParams order kernel cur fesp tables unset n ((esp + 4) % 2 ^ 32) s1) := by
  rw [getParams, getParam_of_valid hkey h]
  exact argsChecked_cons hkey h (fun w p => (w :: p.1, p.2)) fun _ s1 =>
    getParams order kernel cur fesp tables unset n ((esp + 4) % 2 ^ 32) s1

theorem getParams_of_invalid (hkey : ¬ s.ReadsKey tables cur esp)
    (h : s.valid tables cur esp = false) : ArgsChecked order tables unset cur
      (getParams order kernel cur fesp tables unset (n + 1) esp s) := by
  rw [getParams, getParam_of_invalid hkey h]
  exact argsChecked_of_invalid hkey h

/-- The word after one that has been read is not in page 0, or that page is present. -/
theorem resident_next {w : Nat} (hlt : esp < physBase)
    (hload : loadWord order kernel cur fesp esp s = .ok (w, s1)) (hpage : (esp + 4) % 2 ^ 32 < pgSize) :
    Resident cur s1 ((esp + 4) % 2 ^ 32) := by
  have hwrap : (esp + 4) % 2 ^ 32 = esp + 4 := by
    unfold physBase at hlt
    omega
  rw [hwrap] at hpage ⊢
  have hcross : ¬ Crosses esp := by
    unfold Crosses pgSize at *
    omega
  have hsame : (esp + 4) / pgSize = esp / pgSize := by
    unfold pgSize at *
    omega
  exact (Resident.congr hsame).mpr (loadWord_leaves hlt hcross hload)

/-- Without words that cross, all of them are checked. -/
theorem getParams_of_not_crosses (hkey : esp < pgSize → Resident cur s esp)
    (h : ∀ k < n, ¬ Crosses (esp + 4 * k)) : ArgsChecked order tables unset cur
      (getParams order kernel cur fesp tables unset n esp s) := by
  induction n generalizing esp s with
  | zero => exact nofun
  | succ n ih =>
    have hunread : ¬ s.ReadsKey tables cur esp := Resident.not_readsKey hkey
    cases hvalid : s.valid tables cur esp with
    | false => exact getParams_of_invalid hunread hvalid
    | true =>
      have hlt := (Pagedir.lt_of_valid hvalid).2
      refine (getParams_checked hunread hvalid).mpr ⟨fun _ => .inl (h 0 (Nat.succ_pos n)),
        fun w s1 hload => ih (resident_next hlt hload) ?_⟩
      intro k hk hcross
      refine h (k + 1) (by omega) ?_
      unfold Crosses pgSize at *
      omega

/-- The parameters are checked exactly if each of them fits, given that the page of the first is
present if it is page 0 or if one of them crosses. -/
theorem getParams_checked_iff (hn : n < 4) (hkey : esp < pgSize → Resident cur s esp)
    (hres : (∃ k < n, Crosses (esp + 4 * k)) → Resident cur s esp) :
    ArgsChecked order tables unset cur (getParams order kernel cur fesp tables unset n esp s) ↔
      ∀ k < n, s.WordFits tables cur (esp + 4 * k) := by
  induction n generalizing esp s with
  | zero => exact iff_of_true nofun nofun
  | succ n ih =>
    have hunread : ¬ s.ReadsKey tables cur esp := Resident.not_readsKey hkey
    cases hvalid : s.valid tables cur esp with
    | false =>
      refine iff_of_true (getParams_of_invalid hunread hvalid) fun k hk hfirst => .inl fun hcross => ?_
      -- the word that crosses is on the page of the first, which failed the check
      have hesp : esp ≠ 0 := by
        rintro rfl
        unfold Crosses pgSize at hcross
        omega
      have hsame : s.valid tables cur (esp + 4 * k) = s.valid tables cur esp :=
        Pagedir.valid_congr (by omega) hesp (div_of_crosses hcross (by omega))
      rw [hsame, hvalid] at hfirst
      nomatch hfirst
    | true =>
      have hlt := (Pagedir.lt_of_valid hvalid).2
      rw [getParams_checked hunread hvalid]
      by_cases hcross : Crosses esp
      · constructor
        · rintro ⟨hfits, -⟩ k hk
          rcases Nat.eq_zero_or_pos k with rfl | hpos
          · exact hfits
          · exact fun _ => .inl (not_crosses_after hcross (by omega) hpos)
        · refine fun hall => ⟨hall 0 (Nat.succ_pos n), fun w s1 hload =>
            getParams_of_not_crosses (resident_next hlt hload) fun k hk h => ?_⟩
          refine not_crosses_after hcross (k := k + 1) (by omega) (Nat.succ_pos k) ?_
          unfold Crosses pgSize at *
          omega
      by_cases hlater : ∃ k < n + 1, Crosses (esp + 4 * k)
      · obtain ⟨w, s1, hload, hsame⟩ : ∃ w s1, loadWord order kernel cur fesp esp s = .ok (w, s1) ∧
            SameChecks cur s s1 := loadWord_resident hlt hcross (hres hlater)
        have hwrap : (esp + 4) % 2 ^ 32 = esp + 4 := by
          unfold physBase at hlt
          omega
        have hfits : ∀ b, s1.WordFits tables cur b ↔ s.WordFits tables cur b := fun b => by
          rw [Vm.WordFits, Vm.WordFits, hsame.valid, hsame.valid]
        have hres1 : (∃ k < n, Crosses (esp + 4 + 4 * k)) → Resident cur s1 (esp + 4) := by
          rintro ⟨k, hk, hcrossk⟩
          have hpage : (esp + 4) / pgSize = esp / pgSize := by
            unfold Crosses pgSize at *
            omega
          rw [Resident.congr hpage, hsame.resident]
          exact hres hlater
        have hkey1 := resident_next hlt hload
        rw [hwrap] at hkey1
        have hrest := ih (by omega) hkey1 hres1
        constructor
        · rintro ⟨-, hall⟩ k hk
          rcases Nat.eq_zero_or_pos k with rfl | hpos
          · exact fun _ => .inl hcross
          · have hk' := hrest.mp (hwrap ▸ hall w s1 hload) (k - 1) (by omega)
            rw [hfits, show esp + 4 + 4 * (k - 1) = esp + 4 * k by omega] at hk'
            exact hk'
        · intro hall
          refine ⟨hall 0 (Nat.succ_pos n), fun w' s1' hload' => ?_⟩
          cases hload.symm.trans hload'
          rw [hwrap]
          refine hrest.mpr fun k hk => ?_
          rw [hfits, show esp + 4 + 4 * k = esp + 4 * (k + 1) by omega]
          exact hall (k + 1) (by omega)
      · refine iff_of_true ⟨fun _ => .inl hcross, fun w s1 hload =>
          getParams_of_not_crosses (resident_next hlt hload) fun k hk h => ?_⟩
          fun k hk _ => .inl fun h => hlater ⟨k, hk, h⟩
        refine hlater ⟨k + 1, by omega, ?_⟩
        unfold Crosses pgSize at *
        omega

theorem paramCount_lt (syscallId : Nat) : paramCount syscallId < 4 := by
  unfold paramCount
  split
  all_goals first | omega | (split <;> omega)

variable (order kernel fesp) in
/-- Where the check of the number comes to the unset fields of its key, they can stop the kernel. -/
theorem not_argsChecked_of_readsKey (hkey : s.ReadsKey tables cur esp) : ∃ unset,
    ¬ ArgsChecked order tables unset cur (syscallHandler order kernel cur fesp tables unset esp s) := by
  obtain ⟨key, text, hcheck⟩ := isValidAddressOfThread_readsKey order false hkey
  refine ⟨fun _ => key, fun hall => ?_⟩
  rw [syscallHandler, getParam, hcheck] at hall
  rcases hall _ (List.mem_singleton_self _) with ⟨hread, -⟩ | ⟨-, -, hexit⟩
  · cases hread
  · cases hexit

theorem syscallHandler_checked (hkey : ¬ s.ReadsKey tables cur esp) : ArgsChecked order tables unset cur
      (syscallHandler order kernel cur fesp tables unset esp s) ↔
    s.WordFits tables cur esp ∧ ∀ syscallId s1, s.valid tables cur esp = true →
      loadWord order kernel cur fesp esp s = .ok (syscallId, s1) →
        ∀ k < paramCount syscallId, s1.WordFits tables cur (esp + 4 + 4 * k) := by
  rw [syscallHandler]
  cases hvalid : s.valid tables cur esp with
  | false =>
    rw [getParam_of_invalid hkey hvalid]
    refine iff_of_true (argsChecked_of_invalid hkey hvalid) ⟨fun h => ?_, fun _ _ h => nomatch h⟩
    rw [hvalid] at h
    nomatch h
  | true =>
    rw [getParam_of_valid hkey hvalid]
    refine (argsChecked_cons hkey hvalid (fun id p => ((id, p.1), p.2)) fun id s1 =>
      getParams order kernel cur fesp tables unset (paramCount id) ((esp + 4) % 2 ^ 32) s1).trans ?_
    have hlt := (Pagedir.lt_of_valid hvalid).2
    have hwrap : (esp + 4) % 2 ^ 32 = esp + 4 := by
      unfold physBase at hlt
      omega
    refine and_congr_right fun _ => forall_congr' fun syscallId => forall_congr' fun s1 => ?_
    rw [imp_iff_right rfl]
    refine imp_congr_right fun hload => ?_
    have hkey1 := resident_next hlt hload
    rw [hwrap] at hkey1 ⊢
    refine getParams_checked_iff (paramCount_lt syscallId) hkey1 ?_
    rintro ⟨k, hk, hcrossk⟩
    have hk4 := paramCount_lt syscallId
    have hcross : ¬ Crosses esp := by
      unfold Crosses pgSize at *
      omega
    have hpage : (esp + 4) / pgSize = esp / pgSize := by
      unfold Crosses pgSize at *
      omega
    exact (Resident.congr hpage).mpr (loadWord_leaves hlt hcross hload)

/-- Whatever the keys of the checks hold, the number and the parameters of a system call come from
valid words, or the process ends with status -1, exactly if the stack pointer is not looked up at page
0 and the words do not cross to pages that fail the check. -/
theorem syscallHandler_valid_iff (order : List FrameEntry → List FrameEntry) (kernel : Nat → UInt8)
    (tables : PtSuppl → SupplHash.Table) (cur fesp esp : Nat) (s : Vm) :
    (∀ unset, ArgsChecked order tables unset cur
      (syscallHandler order kernel cur fesp tables unset esp s)) ↔
      ¬ s.ReadsKey tables cur esp ∧ s.WordFits tables cur esp ∧
        ∀ syscallId s1, s.valid tables cur esp = true →
          loadWord order kernel cur fesp esp s = .ok (syscallId, s1) →
            ∀ k < paramCount syscallId, s1.WordFits tables cur (esp + 4 + 4 * k) := by
  by_cases hkey : s.ReadsKey tables cur esp
  · refine iff_of_false (fun hall => ?_) fun h => h.1 hkey
    obtain ⟨unset, hnot⟩ := not_argsChecked_of_readsKey order kernel fesp hkey
    exact hnot (hall unset)
  rw [and_iff_right hkey]
  constructor
  · intro hall
    exact (syscallHandler_checked hkey).mp (hall fun _ => SupplHash.swappedPage)
  · intro h unset
    exact (syscallHandler_checked hkey).mpr h

/-- A stack pointer two bytes below `PHYS_BASE`. -/
theorem syscallHandler_reads_kernel : ¬ ∀ unset, ArgsChecked id (fun _ => .empty) unset 0
    (syscallHandler id (fun _ => 0) 0 0 (fun _ => .empty) unset 0xbffffffe topPageVm) := by
  intro hall
  have hkey : ¬ topPageVm.ReadsKey (fun _ => .empty) 0 0xbffffffe := fun h => h.entries (by decide)
  have hvalid : topPageVm.valid (fun _ => .empty) 0 0xbffffffe = true := by decide
  rcases ((syscallHandler_checked hkey).mp (hall fun _ => SupplHash.swappedPage)).1 hvalid with
    hcross | hlast
  · exact hcross (show pgSize - 4 < 0xbffffffe % pgSize by decide)
  · revert hlast
    decide

end Pintos
