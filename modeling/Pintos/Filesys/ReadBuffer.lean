import Pintos.Filesys.DescriptorRuns

/-! Where `read_open_file` writes.  A file is copied to the buffer and nowhere else.  The console
branch ends what it read with a zero byte, which is past the buffer when the input filled it. -/

namespace Pintos

open Routine

variable {calls : FreeMapCalls} {sector offset size : Nat} {bytes : List UInt8}

/-! ### The number of bytes read -/

theorem bcBlockRead_length {c c' : Cache} (h : bcBlockRead sector offset size c = .ok (bytes, c')) :
    bytes.length = size := by
  by_cases ho : offset + size ≤ blockSectorSize
  · rw [bcBlockRead, if_neg (not_not.mpr ho)] at h
    obtain ⟨⟨i, isCacheMiss⟩, c1, hget, hrest⟩ := bind_ok.mp h
    have hlast : ∀ c1, (do
        modify fun c => c.setEntry i { c.cache i with isInSecondChance := false }
        let c ← get
        pure ((c.cache i).data.copyOut offset size) : CacheRoutine (List UInt8)) c1 =
          .ok (bytes, c') → bytes.length = size := by
      intro c1 hrun
      rw [modify_bind_apply, get_bind_apply] at hrun
      cases hrun
      exact SectorData.length_copyOut _ _ _
    cases isCacheMiss with
    | false => exact hlast c1 hrest
    | true =>
      obtain ⟨⟨⟩, c2, -, hrest⟩ := bind_ok.mp hrest
      exact hlast c2 hrest
  · rw [bcBlockRead, if_pos ho] at h
    nomatch h

theorem inodeReadLoop_length {inode fuel : Nat} {left offset : Int} {s s' : FileSys}
    (h : inodeReadLoop calls inode fuel left offset s = .ok (bytes, s')) :
    (bytes.length : Int) ≤ max left 0 := by
  induction fuel generalizing left offset s bytes with
  | zero =>
    cases h
    exact le_max_right _ _
  | succ fuel ih =>
    rw [inodeReadLoop] at h
    split_ifs at h with hleft
    · cases h
      exact le_max_right _ _
    · obtain ⟨sectorIdx, s1, -, h⟩ := bind_ok.mp h
      split_ifs at h with hsector
      · cases h
        exact le_max_right _ _
      · obtain ⟨i, s2, -, h⟩ := bind_ok.mp h
        generalize hchunk : min left (min (i.logicalLength - offset)
          (blockSectorSize - offset % blockSectorSize)) = chunk at h
        split_ifs at h with hend
        · cases h
          exact le_max_right _ _
        · obtain ⟨first, s3, hfirst, h⟩ := bind_ok.mp h
          obtain ⟨rest, s4, hrest, h⟩ := bind_ok.mp h
          cases h
          have hle := ih hrest
          have hlength : first.length = chunk.toNat := by
            unfold onCache at hfirst
            split at hfirst
            · rename_i hread
              cases hfirst
              exact bcBlockRead_length hread
            · nomatch hfirst
          have hmin : chunk ≤ left := hchunk ▸ min_le_left _ _
          rw [List.length_append]
          omega

/-- `inode_read_at` reads no more bytes than it was asked for. -/
theorem inodeReadAt_length {inode : Nat} {size offset : Int} {s s' : FileSys}
    (h : inodeReadAt calls inode size offset s = .ok (bytes, s')) :
    (bytes.length : Int) ≤ max size 0 := by
  obtain ⟨i, s1, -, h⟩ := bind_ok.mp h
  split_ifs at h with hempty
  · cases h
    exact le_max_right _ _
  · obtain ⟨⟨⟩, s2, -, h⟩ := bind_ok.mp h
    obtain ⟨read, s3, hloop, h⟩ := bind_ok.mp h
    obtain ⟨⟨⟩, s4, -, h⟩ := bind_ok.mp h
    cases h
    exact inodeReadLoop_length hloop

namespace OpenFiles

/-- The address is one of the `length` addresses from `buffer` on. -/
def InBuffer (buffer length a : Nat) : Prop := ∃ i < length, a = (buffer + i) % 2 ^ 32

/-- The bytes that a read delivers: those of the input, or those that `file_read` returns. -/
def Delivers (calls : FreeMapCalls) (input : Nat → UInt8) (current : Nat) (fdNum : Int)
    (length : Nat) (s : State) (bytes : List UInt8) : Prop :=
  if fdNum = 0 then bytes = (List.range bytes.length).map fun i => input (s.inputPos + i)
  else ∃ p fd s', getFileDescriptor current fdNum s = .ok (some p, s) ∧ s.fds p = some fd ∧
    fileRead calls (toOff length) fd.openFile s = .ok (bytes, s')

/-- The call that returned `r` has written inside of the buffer only: as many bytes as it says, and
behind these nothing but the zero byte that ends console input. -/
structure WroteInside (calls : FreeMapCalls) (input : Nat → UInt8) (current : Nat) (fdNum : Int)
    (buffer length : Nat) (s : State) (r : Int) (s' : State) : Prop where
  outside : ∀ P a, P ≠ current ∨ ¬ InBuffer buffer length a → s'.memory P a = s.memory P a
  filled : 0 ≤ r → r ≤ length ∧ ∃ bytes : List UInt8, (bytes.length : Int) = r ∧
    Delivers calls input current fdNum length s bytes ∧
    (∀ i < bytes.length, bytes[i]? = some (s'.memory current ((buffer + i) % 2 ^ 32))) ∧
    ∀ i, bytes.length ≤ i → i < length →
      s'.memory current ((buffer + i) % 2 ^ 32) = s.memory current ((buffer + i) % 2 ^ 32) ∨
        fdNum = 0 ∧ i = bytes.length ∧ s'.memory current ((buffer + i) % 2 ^ 32) = 0

/-- `read_open_file` stays inside of the buffer. -/
def StaysInside (calls : FreeMapCalls) (input : Nat → UInt8) (current : Nat) (fdNum : Int)
    (buffer length : Nat) (s : State) : Prop :=
  ∀ r s', readOpenFile calls input current fdNum buffer length s = .ok (r, s') →
    WroteInside calls input current fdNum buffer length s r s'

variable {input : Nat → UInt8} {current buffer length : Nat} {fdNum : Int} {s s' : State} {r : Int}

/-! ### The console -/

/-- The loop has stored the `k` bytes of input before a zero byte or the end. -/
structure ConsoleRead (input : Nat → UInt8) (current n start : Nat) (s : State) (k : Nat)
    (s' : State) : Prop where
  le : k ≤ n
  nonzero : ∀ i < k, input (s.inputPos + i) ≠ 0
  ends : k < n → input (s.inputPos + k) = 0
  filled : ∀ i < k, s'.memory current (start + i) = input (s.inputPos + i)
  others : ∀ P a, P ≠ current ∨ a < start ∨ start + k ≤ a → s'.memory P a = s.memory P a

/-- One more byte in front. -/
theorem ConsoleRead.cons {n start k : Nat} {c : UInt8} (hc : c = input s.inputPos) (hne : c ≠ 0)
    (h : ConsoleRead input current n (start + 1) { s with
      inputPos := s.inputPos + 1
      memory := Function.update s.memory current
        (Function.update (s.memory current) start c) } k s') :
    ConsoleRead input current (n + 1) start s (k + 1) s' where
  le := Nat.succ_le_succ h.le
  nonzero i hi := by
    cases i with
    | zero => exact hc ▸ hne
    | succ i =>
      rw [Nat.add_comm i 1, ← Nat.add_assoc]
      exact h.nonzero i (Nat.lt_of_succ_lt_succ hi)
  ends hlt := by
    rw [Nat.add_comm k 1, ← Nat.add_assoc]
    exact h.ends (Nat.lt_of_succ_lt_succ hlt)
  filled i hi := by
    cases i with
    | zero =>
      rw [Nat.add_zero, Nat.add_zero, h.others current start (.inr (.inl (Nat.lt_succ_self _)))]
      simp [hc]
    | succ i =>
      rw [Nat.add_comm i 1, ← Nat.add_assoc, ← Nat.add_assoc]
      exact h.filled i (Nat.lt_of_succ_lt_succ hi)
  others P a ha := by
    have hother : P ≠ current ∨ a < start + 1 ∨ start + 1 + k ≤ a := by omega
    rw [h.others P a hother]
    dsimp only
    by_cases hP : P = current
    · have hne : a ≠ start := by omega
      rw [hP, Function.update_self, Function.update_of_ne hne]
    · rw [Function.update_of_ne hP]

/-- The loop of the console branch ends, with the bytes of input that it has stored. -/
theorem consoleLoop_spec (input : Nat → UInt8) (current : Nat) {endPtr : Nat} (fuel start : Nat)
    (result : Nat) (s : State) (hend : endPtr < 2 ^ 32) (hfuel : endPtr - start < fuel) :
    ∃ k s', consoleLoop input current endPtr fuel start result s =
      .ok ((start + k, result + k), s') ∧
      ConsoleRead input current (endPtr - start) start s k s' := by
  induction fuel generalizing start result s with
  | zero => exact absurd hfuel (Nat.not_lt_zero _)
  | succ fuel ih =>
    rw [consoleLoop]
    by_cases hlt : start < endPtr
    · rw [if_pos hlt, get_bind_apply, set_bind_apply]
      by_cases hc : input s.inputPos = 0
      · rw [if_neg (not_not.mpr hc)]
        exact ⟨0, _, rfl, Nat.zero_le _, nofun, fun _ => hc, nofun, fun _ _ _ => rfl⟩
      · rw [if_pos hc, modify_bind_apply, Nat.mod_eq_of_lt (by omega)]
        obtain ⟨k, s', hrun, hread⟩ := ih (start + 1) (result + 1)
          { s with
            inputPos := s.inputPos + 1
            memory := Function.update s.memory current
              (Function.update (s.memory current) start (input s.inputPos)) } (by omega)
        refine ⟨k + 1, s', ?_, ?_⟩
        · rw [hrun, Nat.add_assoc, Nat.add_assoc, Nat.add_comm 1 k]
        · have hsucc : endPtr - start = endPtr - (start + 1) + 1 := by omega
          rw [hsucc]
          exact ConsoleRead.cons rfl hc hread
    · rw [if_neg hlt]
      exact ⟨0, _, rfl, Nat.zero_le _, nofun, fun h => absurd h (by omega), nofun, fun _ _ _ => rfl⟩

/-- Where the console branch has stored `k` bytes, there is a zero byte behind them. -/
theorem readOpenFile_console (calls : FreeMapCalls) (input : Nat → UInt8) (current : Nat)
    (hbuffer : buffer < 2 ^ 32) (hlength : length < 2 ^ 32) (s : State) :
    ∃ k s1, ConsoleRead input current ((buffer + length) % 2 ^ 32 - buffer) buffer s k s1 ∧
      readOpenFile calls input current 0 buffer length s = .ok (toOff k, { s1 with
        memory := Function.update s1.memory current
          (Function.update (s1.memory current) (buffer + k) 0) }) := by
  obtain ⟨k, s1, hrun, hread⟩ := consoleLoop_spec input current (length + 1) buffer 0 s
    (Nat.mod_lt (buffer + length) (by decide : 0 < 2 ^ 32)) (by omega)
  refine ⟨k, s1, hread, ?_⟩
  rw [readOpenFile, if_pos rfl, bind_of_ok hrun, Nat.zero_add]
  rfl

/-- The input has a zero byte among the next `length`. -/
def InputEnds (input : Nat → UInt8) (length : Nat) (s : State) : Prop :=
  ∃ i < length, input (s.inputPos + i) = 0

/-- The zero byte behind `k` bytes of input is inside of the buffer, or changes nothing. -/
theorem ConsoleRead.wroteInside {k : Nat} {s1 : State} (hbuffer : buffer < 2 ^ 32)
    (hlength : length < 2 ^ 32)
    (h : ConsoleRead input current ((buffer + length) % 2 ^ 32 - buffer) buffer s k s1)
    (hend : k < length ∨ k = length ∧ s.memory current (buffer + length) = 0) :
    WroteInside calls input current 0 buffer length s (toOff k) { s1 with
      memory := Function.update s1.memory current
        (Function.update (s1.memory current) (buffer + k) 0) } := by
  have hk := h.le
  have hword : ∀ i ≤ k, (buffer + i) % 2 ^ 32 = buffer + i := fun i hi =>
    Nat.mod_eq_of_lt (by omega)
  have hself : Function.update s1.memory current
      (Function.update (s1.memory current) (buffer + k) 0) current (buffer + k) = 0 := by
    rw [Function.update_self, Function.update_self]
  have hother : ∀ a, a ≠ buffer + k → Function.update s1.memory current
      (Function.update (s1.memory current) (buffer + k) 0) current a = s1.memory current a := by
    intro a ha
    rw [Function.update_self, Function.update_of_ne ha]
  refine ⟨fun P a hout => ?_, fun hr => ?_⟩
  · dsimp only
    by_cases hP : P = current
    · subst hP
      have hnot := hout.resolve_left (not_not.mpr rfl)
      by_cases ha : a = buffer + k
      · rw [ha, hself]
        rcases hend with hlt | ⟨rfl, hzero⟩
        · exact absurd ⟨k, hlt, ha.trans (hword k le_rfl).symm⟩ hnot
        · exact hzero.symm
      · rw [hother a ha]
        refine h.others P a (.inr ?_)
        by_contra hin
        exact hnot ⟨a - buffer, by omega, by rw [hword _ (by omega)]; omega⟩
    · rw [Function.update_of_ne hP]
      exact h.others P a (.inl hP)
  · have hsmall : toOff k = k := by
      unfold toOff at hr ⊢
      omega
    have hlen : ((List.range k).map fun i => input (s.inputPos + i)).length = k := by simp
    refine ⟨by omega, _, by rw [hlen, hsmall], ?_, fun i hi => ?_, fun i hi hlt => ?_⟩
    · rw [Delivers, if_pos rfl, hlen]
    · rw [hlen] at hi
      dsimp only
      rw [hword i hi.le, hother _ (by omega), h.filled i hi]
      simp [hi]
    · rw [hlen] at hi ⊢
      dsimp only
      by_cases hik : i = k
      · rw [hik, hword k le_rfl]
        exact .inr ⟨rfl, rfl, hself⟩
      · have hne : (buffer + i) % 2 ^ 32 ≠ buffer + k := by omega
        rw [hother _ hne]
        exact .inl (h.others current _ (by omega))

/-- The console branch stays inside of a buffer exactly where the input does not fill it, or there was
a zero byte behind it already. -/
theorem console_staysInside_iff (hbuffer : buffer < 2 ^ 32) (hlength : length < 2 ^ 32) (s : State) :
    StaysInside calls input current 0 buffer length s ↔
      0 < length ∧ (2 ^ 32 ≤ buffer + length ∨ InputEnds input length s) ∨
        s.memory current ((buffer + length) % 2 ^ 32) = 0 := by
  obtain ⟨k, s1, hread, hexec⟩ := readOpenFile_console calls input current hbuffer hlength s
  have hk := hread.le
  constructor
  · intro hinside
    have houtside := (hinside _ _ hexec).outside current (buffer + length)
    by_cases hcond : 0 < length ∧ (2 ^ 32 ≤ buffer + length ∨ InputEnds input length s)
    · exact .inl hcond
    · right
      have hfit : buffer + length < 2 ^ 32 := by
        by_contra hwrap
        exact hcond ⟨by omega, .inl (by omega)⟩
      rw [Nat.mod_eq_of_lt hfit] at hk ⊢
      have hfilled : k = length := by
        by_contra hne
        refine hcond ⟨by omega, .inr ⟨k, by omega, hread.ends ?_⟩⟩
        rw [Nat.mod_eq_of_lt hfit]
        omega
      rw [← houtside (.inr ?_), hfilled]
      · simp
      · rintro ⟨i, hi, heq⟩
        rw [Nat.mod_eq_of_lt (by omega)] at heq
        omega
  · intro hcond r s' hrun
    obtain ⟨hr, hs'⟩ := Prod.mk.inj (Except.ok.inj (hexec.symm.trans hrun))
    rw [← hr, ← hs']
    refine hread.wroteInside hbuffer hlength ?_
    by_cases hlt : k < length
    · exact .inl hlt
    · have hfit : buffer + length < 2 ^ 32 := by omega
      rw [Nat.mod_eq_of_lt hfit] at hk hcond
      refine .inr ⟨by omega, hcond.resolve_left ?_⟩
      rintro ⟨-, hwrap | ⟨i, hi, hzero⟩⟩
      · omega
      · exact hread.nonzero i (by omega) hzero

/-! ### Files -/

/-- `file_read` leaves memory alone, and returns no more bytes than it was asked for. -/
theorem fileRead_ok {f : Option Nat} {size : Int}
    (h : fileRead calls size f s = .ok (bytes, s')) :
    s'.memory = s.memory ∧ (bytes.length : Int) ≤ max size 0 := by
  cases f with
  | none => nomatch h
  | some f =>
    obtain ⟨file, s1, hget, hrest⟩ := bind_ok.mp h
    obtain ⟨rfl, -⟩ := getFile_ok hget
    obtain ⟨read, s2, hread, hrest⟩ := bind_ok.mp hrest
    obtain ⟨fs', hok, rfl⟩ := onFs_ok hread
    cases hrest
    exact ⟨rfl, inodeReadAt_length hok⟩

theorem toWord_sub {a buffer : Nat} (ha : a < 2 ^ 32) :
    (buffer + toWord ((a : Int) - buffer)) % 2 ^ 32 = a := by
  unfold toWord
  omega

theorem toWord_add_sub {i buffer : Nat} (hi : i < 2 ^ 32) :
    toWord (((buffer + i) % 2 ^ 32 : Nat) - (buffer : Int)) = i := by
  unfold toWord
  omega

/-- Only the console branch can leave the buffer. -/
theorem file_staysInside (hfd : fdNum ≠ 0) (hlength : length < 2 ^ 32) (s : State) :
    StaysInside calls input current fdNum buffer length s := by
  intro r s' hrun
  have hnothing : WroteInside calls input current fdNum buffer length s (-1) s :=
    ⟨fun _ _ _ => rfl, fun h => absurd h (by decide)⟩
  rw [readOpenFile, if_neg hfd] at hrun
  split_ifs at hrun with hout
  · cases hrun
    exact hnothing
  · obtain ⟨found, s1, hfind, hrest⟩ := bind_ok.mp hrun
    obtain rfl := getFileDescriptor_state fdNum _ _ _ hfind
    cases found with
    | none =>
      cases hrest
      exact hnothing
    | some p =>
      obtain ⟨fd, s1, hget, hbody⟩ := bind_ok.mp hrest
      obtain ⟨rfl, hp⟩ := getFd_ok hget
      split_ifs at hbody with hdir
      · cases hbody
        exact hnothing
      · obtain ⟨read, s2, hread, hcopy⟩ := bind_ok.mp hbody
        obtain ⟨hmemory, hle⟩ := fileRead_ok hread
        cases hcopy
        have hsize : max (toOff length) 0 ≤ length := by
          unfold toOff
          omega
        refine ⟨fun P a ha => ?_, fun _ => ⟨by omega, read, rfl, ?_, fun i hi => ?_,
          fun i hi hlt => .inl ?_⟩⟩
        · dsimp only
          by_cases hP : P = current
          · have hnot := ha.resolve_left (not_not.mpr hP)
            rw [hP, Function.update_self, if_neg, hmemory]
            rintro ⟨hi, hword⟩
            exact hnot ⟨_, by omega, (toWord_sub hword).symm⟩
          · rw [Function.update_of_ne hP, hmemory]
        · rw [Delivers, if_neg hfd]
          exact ⟨p, fd, s2, hfind, hp, hread⟩
        · dsimp only
          rw [Function.update_self, toWord_add_sub (by omega), if_pos ⟨hi, by omega⟩]
          simp [hi]
        · dsimp only
          rw [Function.update_self, toWord_add_sub (by omega), if_neg fun h => absurd h.1 (by omega),
            hmemory]

/-- `read_open_file` stays inside of every buffer, but for console input that fills it, or a console
read of nothing, and even then where there was a zero byte behind the buffer already. -/
theorem readOpenFile_staysInside_iff (calls : FreeMapCalls) (input : Nat → UInt8) (current : Nat)
    (fdNum : Int) (buffer length : UInt32) (s : State) :
    StaysInside calls input current fdNum buffer.toNat length.toNat s ↔
      (fdNum = 0 → 0 < length.toNat ∧
          (2 ^ 32 ≤ buffer.toNat + length.toNat ∨ InputEnds input length.toNat s) ∨
        s.memory current ((buffer.toNat + length.toNat) % 2 ^ 32) = 0) := by
  have hbuffer : buffer.toNat < 2 ^ 32 := buffer.toNat_lt
  have hlength : length.toNat < 2 ^ 32 := length.toNat_lt
  by_cases hfd : fdNum = 0
  · rw [hfd, console_staysInside_iff hbuffer hlength]
    exact ⟨fun h _ => h, fun h => h rfl⟩
  · exact iff_of_true (file_staysInside hfd hlength s) fun h => absurd h hfd

/-- Two bytes of input fill a buffer of two bytes, and the byte behind it is lost. -/
theorem readOpenFile_leavesBuffer : ¬ ∀ (calls : FreeMapCalls) (input : Nat → UInt8) (current : Nat)
    (fdNum : Int) (buffer length : UInt32) (s : State),
    StaysInside calls input current fdNum buffer.toNat length.toNat s := by
  intro h
  have hinside := h (freeMapCalls 0) (fun _ => 97) 1 0 0x8048000 2 (init blankFs fun _ _ => 5)
  have hend : (match readOpenFile (freeMapCalls 0) (fun _ => 97) 1 0 0x8048000 2
      (init blankFs fun _ _ => 5) with
      | .ok (r, s') => some (r, s'.memory 1 0x8048002)
      | .error _ => none) = some (2, 0) := by decide +kernel
  split at hend
  · rename_i r s' hrun
    obtain ⟨-, hlost⟩ := Prod.mk.inj (Option.some.inj hend)
    have hkept := (hinside r s' hrun).outside 1 0x8048002 (.inr ?_)
    · rw [hlost] at hkept
      exact absurd hkept (by decide)
    · rintro ⟨i, hi, heq⟩
      have hi : i < 2 := hi
      have heq : 0x8048002 = (0x8048000 + i) % 2 ^ 32 := heq
      omega
  · nomatch hend

end OpenFiles

end Pintos
