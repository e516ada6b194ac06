import Pintos.Vm.StackGrowth
import Pintos.Vm.SupplHash

/-! The checks of user addresses (`is_valid_address_of_thread` and
`is_valid_address_range_of_thread` in `threads/thread.c`).  Without a stack pointer a check leaves the
state alone and depends on the page of the address only, as long as its lookup does not come to the
unset fields of its key; a range is checked at one address in each 4096 bytes and at its end. -/

namespace Pintos

/-- `pagedir_is_writable`. -/
def Pagedir.isWritable (pd : Pagedir) (vpage : Nat) : Bool := (pd.lookupPage vpage).any (·.writable)

/-- `pt_suppl_get_entry_by_addr`; `unset` is what the key of the lookup holds besides its address. -/
def ptSupplGetEntryByAddr (table : SupplHash.Table) (unset : SupplHash.Elem) (vaddr : Nat) :
    VmRoutine (Option PtSupplEntry) := do
  let element ← SupplHash.ptSupplGet table.hash (pgRoundDown vaddr) unset
  pure (element.map (·.toEntry))

variable (order : List FrameEntry → List FrameEntry) (table : SupplHash.Table)

/-- `is_valid_address_of_thread` for the current thread, which belongs to process `cur`; `table` is its
supplemental page table. -/
def isValidAddressOfThread (unset : SupplHash.Elem) (cur pointerr : Nat) (wannawrite : Bool)
    (esp : Nat) : VmRoutine Bool := do
  if pointerr ≠ 0 ∧ pointerr < physBase then
    let s ← get
    let pagedir := (s.process cur).pagedir
    if (pagedir.getPage pointerr).isSome then
      pure (if wannawrite then pagedir.isWritable pointerr else true)
    else
      let entry ← ptSupplGetEntryByAddr table unset pointerr
      let grown ← if esp ≠ 0 then ptSupplCheckAndGrowStack order cur pointerr esp else pure false
      if grown then pure true
      else
        match entry with
        | none => pure false
        | some e =>
          match e.fileInfo with
          | some info => pure (if wannawrite then info.writable else true)
          | none => pure true
  else pure false

section

variable (unset : Nat → SupplHash.Elem)

/-- The loop of `is_valid_address_range_of_thread` and the check of the last element, for at most
`fuel` passes; `unset` gives the key of the check of each address. -/
def validRangeLoop (cur ending : Nat) (wannawrite : Bool) (esp : Nat) :
    (fuel : Nat) → (starttt : Nat) → VmRoutine Bool
  | 0, _ => throw .spin
  | fuel + 1, starttt => do
    if starttt < ending then
      let valid ← isValidAddressOfThread order table (unset starttt) cur starttt wannawrite esp
      if !valid then pure false
      else validRangeLoop cur ending wannawrite esp fuel ((starttt + pgSize) % 2 ^ 32)
    else isValidAddressOfThread order table (unset ending) cur ending wannawrite esp

/-- `is_valid_address_range_of_thread`. -/
def isValidAddressRangeOfThread (cur starttt ending : Nat) (wannawrite : Bool) (esp : Nat) :
    VmRoutine Bool := do
  if starttt = 0 ∨ ending = 0 ∨ starttt > ending then pure false
  else validRangeLoop order table unset cur ending wannawrite esp (ending - starttt + 1) starttt

end

/-! ### Checks without a stack pointer -/

variable (pagedir : Pagedir)

/-- The result of the check of one address while `esp` is 0. -/
def Pagedir.valid (wannawrite : Bool) (a : Nat) : Bool :=
  decide (a ≠ 0 ∧ a < physBase) &&
    if (pagedir.getPage a).isSome then !wannawrite || pagedir.isWritable a
    else
      match table.toPtSuppl.get (pgRoundDown a) with
      | none => false
      | some e => !wannawrite || e.fileInfo.all (·.writable)

/-- The check of an address in page 0 comes to the unset fields of its key. -/
structure ReadsKey (a : Nat) : Prop where
  page : 0 < a ∧ a < pgSize
  absent : pagedir.getPage a = none
  entries : table.hash.elems ≠ []

variable {order} {table} {pagedir} {cur a b : Nat} {wannawrite : Bool} {s : Vm}

theorem pgRoundDown_eq_zero : pgRoundDown a = 0 ↔ a < pgSize := by
  unfold pgRoundDown pgSize
  omega

theorem ptSupplGetEntryByAddr_state {unset : SupplHash.Elem} {entry : Option PtSupplEntry} {s' : Vm}
    (h : ptSupplGetEntryByAddr table unset a s = .ok (entry, s')) : s' = s := by
  obtain ⟨element, s1, hget, h⟩ := Routine.bind_ok.mp h
  cases h
  exact Routine.lift_state hget

theorem ptSupplGetEntryByAddr_of_unread (h : ¬ ReadsKey table pagedir a) (ha : 0 < a)
    (habsent : pagedir.getPage a = none) (unset : SupplHash.Elem) :
    ptSupplGetEntryByAddr table unset a s = .ok (table.toPtSuppl.get (pgRoundDown a), s) := by
  have hread : pgRoundDown a ≠ 0 ∨ table.hash.elems = [] := by
    by_contra hboth
    obtain ⟨hpage, hentries⟩ := not_or.mp hboth
    exact h ⟨⟨ha, pgRoundDown_eq_zero.mp (not_not.mp hpage)⟩, habsent, hentries⟩
  obtain ⟨element, hget, hentry⟩ := SupplHash.ptSupplGet_refines table hread unset
  rw [ptSupplGetEntryByAddr, Routine.bind_of_ok (Routine.lift_of_ok hget s), ← hentry]
  rfl

theorem isValidAddressOfThread_zero (h : ¬ ReadsKey table pagedir a)
    (hpagedir : (s.process cur).pagedir = pagedir) (unset : SupplHash.Elem) :
    isValidAddressOfThread order table unset cur a wannawrite 0 s =
      .ok (pagedir.valid table wannawrite a, s) := by
  subst hpagedir
  rw [isValidAddressOfThread, Pagedir.valid]
  by_cases huser : a ≠ 0 ∧ a < physBase
  · rw [if_pos huser, Routine.get_bind_apply, decide_eq_true huser, Bool.true_and]
    cases hloaded : (s.process cur).pagedir.getPage a with
    | some page =>
      simp only [Option.isSome_some, if_true]
      cases wannawrite <;> rfl
    | none =>
      simp only [Option.isSome_none, Bool.false_eq_true, if_false]
      rw [Routine.bind_of_ok
        (ptSupplGetEntryByAddr_of_unread h (Nat.pos_of_ne_zero huser.1) hloaded unset)]
      cases hentry : table.toPtSuppl.get (pgRoundDown a) with
      | none => rfl
      | some e =>
        cases hinfo : e.fileInfo with
        | none => cases wannawrite <;> simp [hinfo]
        | some info => cases wannawrite <;> simp [hinfo]
  · rw [if_neg huser, decide_eq_false huser]
    rfl

variable (order wannawrite) in
/-- The unset fields can stop the check. -/
theorem isValidAddressOfThread_readsKey (h : ReadsKey table (s.process cur).pagedir a) :
    ∃ unset text, isValidAddressOfThread order table unset cur a wannawrite 0 s =
      .error (.undefined text) := by
  obtain ⟨⟨hpos, hlt⟩, habsent, hne⟩ := h
  obtain ⟨unset, text, hget⟩ := SupplHash.ptSupplGet_zero table.isSuppl hne
  have huser : a ≠ 0 ∧ a < physBase := by
    unfold physBase
    unfold pgSize at hlt
    omega
  rw [← pgRoundDown_eq_zero.mpr hlt] at hget
  have hentry : ptSupplGetEntryByAddr table unset a s = .error (.undefined text) :=
    Routine.bind_of_error (Routine.lift_of_error hget s) _
  refine ⟨unset, text, ?_⟩
  rw [isValidAddressOfThread, if_pos huser, Routine.get_bind_apply, habsent]
  exact Routine.bind_of_error hentry _

theorem Pagedir.lt_of_valid (h : pagedir.valid table wannawrite a = true) : a ≠ 0 ∧ a < physBase := by
  rw [valid, Bool.and_eq_true] at h
  exact of_decide_eq_true h.1

theorem Pagedir.lookupPage_congr (h : a / pgSize = b / pgSize) :
    pagedir.lookupPage a = pagedir.lookupPage b := by
  have hround : pgRoundDown a = pgRoundDown b := by rw [pgRoundDown, pgRoundDown, h]
  have hpdNo : Pagedir.pdNo a = Pagedir.pdNo b := by
    unfold Pagedir.pdNo
    unfold pgSize at h
    omega
  rw [lookupPage, lookupPage, hpdNo, hround]

theorem Pagedir.getPage_congr (h : a / pgSize = b / pgSize) :
    pagedir.getPage a = pagedir.getPage b := by
  rw [getPage, getPage, lookupPage_congr h]

/-- The check depends on the page only. -/
theorem Pagedir.valid_congr (ha : a ≠ 0) (hb : b ≠ 0) (h : a / pgSize = b / pgSize) :
    pagedir.valid table wannawrite a = pagedir.valid table wannawrite b := by
  have hround : pgRoundDown a = pgRoundDown b := by rw [pgRoundDown, pgRoundDown, h]
  have huser : (a ≠ 0 ∧ a < physBase) ↔ b ≠ 0 ∧ b < physBase := by
    unfold physBase
    unfold pgSize at h
    omega
  rw [valid, valid, decide_eq_decide.mpr huser, getPage_congr h, hround, isWritable, isWritable,
    lookupPage_congr h]

/-- If the check of an address comes to the key, so does that of every address below it. -/
theorem ReadsKey.of_le (h : ReadsKey table pagedir b) (ha : a ≠ 0) (hle : a ≤ b) :
    ReadsKey table pagedir a := by
  have hlt := h.page.2
  have hpage : a / pgSize = b / pgSize := by
    unfold pgSize at *
    omega
  exact ⟨⟨Nat.pos_of_ne_zero ha, Nat.lt_of_le_of_lt hle hlt⟩,
    (Pagedir.getPage_congr hpage).trans h.absent, h.entries⟩

/-- Every byte of the range passes the check. -/
def Pagedir.ValidBytes (pagedir : Pagedir) (table : SupplHash.Table) (wannawrite : Bool)
    (start stop : Nat) : Prop :=
  ∀ a, start ≤ a → a < stop → pagedir.valid table wannawrite a = true

/-- A byte below the next address that is checked is on the page of that one or of the last. -/
theorem Pagedir.ValidBytes.step {start stop : Nat} (hstart : start ≠ 0)
    (hvalid : pagedir.valid table wannawrite start = true)
    (hend : pagedir.valid table wannawrite stop = true)
    (hrest : pagedir.ValidBytes table wannawrite (start + pgSize) stop) :
    pagedir.ValidBytes table wannawrite start stop := by
  intro a hle hlt
  by_cases hfar : start + pgSize ≤ a
  · exact hrest a hfar hlt
  have ha : a ≠ 0 := by omega
  by_cases hpage : a / pgSize = start / pgSize
  · rwa [valid_congr ha hstart hpage]
  unfold pgSize at *
  by_cases hlast : stop ≤ start + 4096
  · have hsame : a / 4096 = stop / 4096 := by omega
    rwa [valid_congr ha (by omega) hsame]
  · have hsame : a / 4096 = (start + 4096) / 4096 := by omega
    rw [valid_congr ha (by omega) hsame]
    exact hrest (start + 4096) le_rfl (by omega)

/-- The loop ends, and it finds whether the bytes from `start` on and the end pass the check. -/
theorem validRangeLoop_zero {unset : Nat → SupplHash.Elem} {fuel first start stop : Nat}
    (hkey : ∀ a, first ≤ a → ¬ ReadsKey table pagedir a) (hpagedir : (s.process cur).pagedir = pagedir)
    (hstop : first ≤ stop) (hfirst : first ≤ start) (hstart : start ≠ 0) (hpos : 0 < fuel)
    (hfuel : stop < start + fuel) :
    ∃ r, validRangeLoop order table unset cur stop wannawrite 0 fuel start s = .ok (r, s) ∧
      (r = true ↔ pagedir.ValidBytes table wannawrite start stop ∧
        pagedir.valid table wannawrite stop = true) := by
  induction fuel generalizing start with
  | zero => exact absurd hpos (Nat.lt_irrefl 0)
  | succ fuel ih =>
    rw [validRangeLoop]
    by_cases hlt : start < stop
    · rw [if_pos hlt, Routine.bind_of_ok (isValidAddressOfThread_zero (hkey _ hfirst) hpagedir _)]
      cases hvalid : pagedir.valid table wannawrite start with
      | false =>
        refine ⟨false, rfl, iff_of_false nofun fun hall => ?_⟩
        rw [hall.1 start le_rfl hlt] at hvalid
        nomatch hvalid
      | true =>
        have huser := (Pagedir.lt_of_valid hvalid).2
        have hwrap : (start + pgSize) % 2 ^ 32 = start + pgSize := by
          unfold physBase at huser
          unfold pgSize
          omega
        have hnext : start + pgSize ≠ 0 := by omega
        obtain ⟨r, hrun, hr⟩ := ih (by omega) hnext (by omega) (by unfold pgSize; omega)
        refine ⟨r, ?_, hr.trans ⟨fun ⟨hrest, hend⟩ => ⟨hrest.step hstart hvalid hend, hend⟩,
          fun ⟨hall, hend⟩ => ⟨fun a hle => hall a (by omega), hend⟩⟩⟩
        rw [← hrun, hwrap]
        rfl
    · rw [if_neg hlt]
      refine ⟨_, isValidAddressOfThread_zero (hkey _ hstop) hpagedir _,
        fun hend => ⟨fun a hle hlt' => ?_, hend⟩, And.right⟩
      omega

/-- The check of a range returns, and it asks for the end of the range in addition to its bytes. -/
theorem isValidAddressRangeOfThread_zero {unset : Nat → SupplHash.Elem} {start stop : Nat}
    (hkey : start ≤ stop → ¬ ReadsKey table pagedir start)
    (hpagedir : (s.process cur).pagedir = pagedir) :
    ∃ r, isValidAddressRangeOfThread order table unset cur start stop wannawrite 0 s = .ok (r, s) ∧
      (r = true ↔ start ≠ 0 ∧ start ≤ stop ∧ pagedir.ValidBytes table wannawrite start stop ∧
        pagedir.valid table wannawrite stop = true) := by
  rw [isValidAddressRangeOfThread]
  by_cases hbad : start = 0 ∨ stop = 0 ∨ start > stop
  · rw [if_pos hbad]
    refine ⟨false, rfl, iff_of_false nofun fun ⟨hstart, hle, _, hend⟩ => ?_⟩
    have := (Pagedir.lt_of_valid hend).1
    omega
  · rw [if_neg hbad]
    have hstart : start ≠ 0 := fun h => hbad (.inl h)
    have hle : start ≤ stop := by omega
    have hfuel : stop < start + (stop - start + 1) := by omega
    obtain ⟨r, hrun, hr⟩ := validRangeLoop_zero
      (fun a ha h => hkey hle (h.of_le hstart ha)) hpagedir hle le_rfl hstart (Nat.succ_pos _) hfuel
    exact ⟨r, hrun, hr.trans ⟨fun h => ⟨hstart, hle, h⟩, fun h => h.2.2⟩⟩

variable (order wannawrite) in
/-- Where the check of the first address comes to the key, the check of the range can stop. -/
theorem isValidAddressRangeOfThread_readsKey {start stop : Nat} (hle : start < stop)
    (h : ReadsKey table (s.process cur).pagedir start) : ∃ unset text,
      isValidAddressRangeOfThread order table unset cur start stop wannawrite 0 s =
        .error (.undefined text) := by
  obtain ⟨key, text, hrun⟩ := isValidAddressOfThread_readsKey order wannawrite h
  have hpos := h.page.1
  refine ⟨fun _ => key, text, ?_⟩
  rw [isValidAddressRangeOfThread, if_neg (by omega), validRangeLoop, if_pos hle]
  exact Routine.bind_of_error hrun _

/-- Whatever the keys of the checks hold, the check of the `len` bytes at `start` returns, and it
succeeds exactly if each of them passes the check. -/
def ChecksBytes (order : List FrameEntry → List FrameEntry) (table : SupplHash.Table) (s : Vm)
    (cur start len : Nat) (wannawrite : Bool) : Prop :=
  ∀ unset unset' : Nat → SupplHash.Elem, ∃ r,
    isValidAddressRangeOfThread order table unset cur start ((start + len) % 2 ^ 32) wannawrite 0 s =
      .ok (r, s) ∧
    (r = true ↔ ∀ a, start ≤ a → a < start + len →
      isValidAddressOfThread order table (unset' a) cur a wannawrite 0 s = .ok (true, s))

/-- The bytes pass the check, as the check of each finds it. -/
theorem validBytes_iff {unset : Nat → SupplHash.Elem} {start stop : Nat}
    (hkey : ¬ ReadsKey table (s.process cur).pagedir start) :
    (∀ a, start ≤ a → a < stop →
      isValidAddressOfThread order table (unset a) cur a wannawrite 0 s = .ok (true, s)) ↔
      (s.process cur).pagedir.ValidBytes table wannawrite start stop := by
  by_cases hstart : start = 0
  · -- byte 0 fails every check
    have hzero : ¬ ReadsKey table (s.process cur).pagedir 0 := fun h => Nat.lt_irrefl 0 h.page.1
    subst hstart
    by_cases hstop : 0 < stop
    · refine iff_of_false (fun hall => ?_) fun hall => ?_
      · have hbyte := hall 0 le_rfl hstop
        rw [isValidAddressOfThread_zero hzero rfl] at hbyte
        cases hbyte
      · exact (Pagedir.lt_of_valid (hall 0 le_rfl hstop)).1 rfl
    · exact iff_of_true (fun a _ hlt => absurd hlt (by omega)) fun a _ hlt => absurd hlt (by omega)
  · refine forall_congr' fun a => imp_congr_right fun hle => imp_congr_right fun _ => ?_
    rw [isValidAddressOfThread_zero (fun h => hkey (h.of_le hstart hle)) rfl]
    simp

/-- An address of the kernel fails the check. -/
theorem Pagedir.valid_kernel (h : physBase ≤ a) : pagedir.valid table wannawrite a = false := by
  rw [valid, decide_eq_false fun huser => Nat.not_le.mpr huser.2 h, Bool.false_and]

theorem isValidAddressOfThread_kernel (h : physBase ≤ a) (unset : SupplHash.Elem) :
    isValidAddressOfThread order table unset cur a wannawrite 0 s = .ok (false, s) := by
  rw [isValidAddressOfThread, if_neg fun huser => Nat.not_le.mpr huser.2 h]
  rfl

/-- Where no check comes to the key, the range is checked if the bytes decide about its end too. -/
theorem checksBytes_of_unread {start len : Nat} (hlt : start + len < 2 ^ 32)
    (hkey : ¬ ReadsKey table (s.process cur).pagedir start) :
    ChecksBytes order table s cur start len wannawrite ↔
      ((start ≠ 0 ∧ start ≤ start + len ∧
        (s.process cur).pagedir.ValidBytes table wannawrite start (start + len) ∧
        (s.process cur).pagedir.valid table wannawrite (start + len) = true) ↔
        (s.process cur).pagedir.ValidBytes table wannawrite start (start + len)) := by
  rw [ChecksBytes, Nat.mod_eq_of_lt hlt]
  have hrange : ∀ unset : Nat → SupplHash.Elem, ∃ r, isValidAddressRangeOfThread order table unset
      cur start (start + len) wannawrite 0 s = .ok (r, s) ∧ (r = true ↔ _) :=
    fun _ => isValidAddressRangeOfThread_zero (fun _ => hkey) rfl
  constructor
  · intro hall
    obtain ⟨r, hrun, hr⟩ := hall (fun _ => SupplHash.swappedPage) fun _ => SupplHash.swappedPage
    obtain ⟨r', hrun', hr'⟩ := hrange fun _ => SupplHash.swappedPage
    cases hrun.symm.trans hrun'
    exact hr'.symm.trans (hr.trans (validBytes_iff hkey))
  · intro h unset unset'
    obtain ⟨r, hrun, hr⟩ := hrange unset
    exact ⟨r, hrun, hr.trans (h.trans (validBytes_iff hkey).symm)⟩

/-- A range that wraps around is not checked, and not all of its bytes are user addresses. -/
theorem checksBytes_of_wrap {start len : Nat} (hstart : start < 2 ^ 32) (hlen : len < 2 ^ 32)
    (hwrap : 2 ^ 32 ≤ start + len) : ChecksBytes order table s cur start len wannawrite := by
  intro unset unset'
  refine ⟨false, ?_, iff_of_false nofun fun hall => ?_⟩
  · rw [isValidAddressRangeOfThread, if_pos (by omega)]
    rfl
  · have hbyte := hall (2 ^ 32 - 1) (by omega) (by omega)
    rw [isValidAddressOfThread_kernel (by decide)] at hbyte
    cases hbyte

/-- A range is checked exactly if the check of its first address does not come to the unset fields of
the key (or the range wraps around, when no address is checked), and the range does not end at a page
boundary, or the address at its end passes the check too, or one of its bytes does not. -/
theorem checksBytes_iff {start len : Nat} (hstart : start < 2 ^ 32) (hlen : 0 < len)
    (hlen' : len < 2 ^ 32) : ChecksBytes order table s cur start len wannawrite ↔
      (start + len < 2 ^ 32 → ¬ ReadsKey table (s.process cur).pagedir start) ∧
      ((start + len) % pgSize ≠ 0 ∨
        (s.process cur).pagedir.valid table wannawrite (start + len) = true ∨
        ∃ a, start ≤ a ∧ a < start + len ∧
          (s.process cur).pagedir.valid table wannawrite a = false) := by
  by_cases hwrap : 2 ^ 32 ≤ start + len
  · exact iff_of_true (checksBytes_of_wrap hstart hlen' hwrap) ⟨fun h => by omega,
      .inr (.inr ⟨2 ^ 32 - 1, by omega, by omega, Pagedir.valid_kernel (by decide)⟩)⟩
  have hlt : start + len < 2 ^ 32 := by omega
  by_cases hkey : ReadsKey table (s.process cur).pagedir start
  · refine iff_of_false (fun hall => ?_) fun h => h.1 hlt hkey
    obtain ⟨unset, text, hrun⟩ := isValidAddressRangeOfThread_readsKey order wannawrite
      (Nat.lt_add_of_pos_right hlen) hkey
    obtain ⟨r, hok, -⟩ := hall unset unset
    rw [Nat.mod_eq_of_lt hlt, hrun] at hok
    cases hok
  rw [checksBytes_of_unread hlt hkey, and_iff_right fun _ => hkey]
  by_cases hall : (s.process cur).pagedir.ValidBytes table wannawrite start (start + len)
  · -- all bytes pass, so only the check of the end can fail
    have hfirst := (Pagedir.lt_of_valid (hall start le_rfl (by omega))).1
    have hinside : (start + len) % pgSize ≠ 0 →
        (s.process cur).pagedir.valid table wannawrite (start + len) = true := by
      intro hofs
      rw [Pagedir.valid_congr (b := start + len - 1) (by omega) (by omega)
        (by unfold pgSize at *; omega)]
      exact hall _ (by omega) (by omega)
    constructor
    · exact fun h => .inr (.inl (h.mpr hall).2.2.2)
    · intro h
      refine iff_of_true ⟨hfirst, by omega, hall, ?_⟩ hall
      rcases h with hofs | hend | ⟨a, hle, hlt, hinvalid⟩
      · exact hinside hofs
      · exact hend
      · rw [hall a hle hlt] at hinvalid
        nomatch hinvalid
  · have hbyte : ∃ a, start ≤ a ∧ a < start + len ∧
        (s.process cur).pagedir.valid table wannawrite a = false := by
      by_contra hnone
      refine hall fun a hle hlt => ?_
      by_contra hinvalid
      exact hnone ⟨a, hle, hlt, Bool.not_eq_true _ ▸ hinvalid⟩
    exact iff_of_true (iff_of_false (fun h => hall h.2.2.1) hall) (.inr (.inr hbyte))

/-- A process with one resident page at the top of its stack. -/
def topPageVm : Vm :=
  oneFrameVm.setPagedir 0 ⟨fun _ => true, fun v => ⟨0, v = 0xbffff000, true, false, false⟩⟩

/-- The first half of the page. -/
theorem checksBytes_half : ChecksBytes id .empty topPageVm 0 0xbffff000 2048 false :=
  (checksBytes_iff (by decide) (by decide) (by decide)).mpr
    ⟨fun _ h => absurd h.page.2 (by decide), .inl (by decide)⟩

/-- The whole page, which ends at `PHYS_BASE`. -/
theorem not_checksBytes_page : ¬ ChecksBytes id .empty topPageVm 0 0xbffff000 4096 false := by
  have hkey : ¬ ReadsKey .empty (topPageVm.process 0).pagedir 0xbffff000 := fun h =>
    absurd h.page.2 (by decide)
  have hall : (topPageVm.process 0).pagedir.ValidBytes .empty false 0xbffff000
      (0xbffff000 + 4096) := by
    intro a hle hlt
    have hpage : a / pgSize = 0xbffff000 / pgSize := by
      unfold pgSize
      omega
    rw [Pagedir.valid_congr (by omega) (by decide) hpage]
    decide
  intro hchecks
  have hend := (((checksBytes_of_unread (by decide) hkey).mp hchecks).mpr hall).2.2.2
  exact absurd hend (by decide)

end Pintos
