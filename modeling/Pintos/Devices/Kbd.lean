import Pintos.Devices.Intq
import Pintos.Lib.Stdio
import Mathlib.Data.List.Basic
import Mathlib.Logic.Function.Basic

/-! The keyboard (`devices/kbd.c`): its interrupt handler follows the shift keys and Caps Lock, and
puts the characters of the other keys into the input buffer (`devices/input.c`).  The results tell
the state after a run of interrupts by a look back over the whole run, for each key by itself. -/

namespace Pintos

namespace Kbd

/-- The keys with a state variable. -/
inductive ShiftKey where
  | leftShift
  | rightShift
  | leftAlt
  | rightAlt
  | leftCtrl
  | rightCtrl
  deriving DecidableEq

/-- The scancodes in `shift_keys`. -/
def ShiftKey.scancode : ShiftKey → UInt32
  | leftShift => 0x2a
  | rightShift => 0x36
  | leftAlt => 0x38
  | rightAlt => 0xe038
  | leftCtrl => 0x1d
  | rightCtrl => 0xe01d

/-- `shift_keys`. -/
def shiftKeys : List ShiftKey := [.leftShift, .rightShift, .leftAlt, .rightAlt, .leftCtrl,
  .rightCtrl]

/-- `struct keymap`. -/
structure Keymap where
  firstScancode : UInt32
  chars : List UInt8

def invariantKeymap : List Keymap := [⟨0x01, [0x1b]⟩, ⟨0x0e, [0x08]⟩,
  ⟨0x0f, 0x09 :: asciiBytes "QWERTYUIOP"⟩, ⟨0x1c, [0x0d]⟩, ⟨0x1e, asciiBytes "ASDFGHJKL"⟩,
  ⟨0x2c, asciiBytes "ZXCVBNM"⟩, ⟨0x37, asciiBytes "*"⟩, ⟨0x39, asciiBytes " "⟩, ⟨0x53, [0x7f]⟩]

-- The texts with quotes, backslashes and braces are `;'` and a grave accent, `\`, `:"~`.
def unshiftedKeymap : List Keymap := [⟨0x02, asciiBytes "1234567890-="⟩, ⟨0x1a, asciiBytes "[]"⟩,
  ⟨0x27, [0x3b, 0x27, 0x60]⟩, ⟨0x2b, [0x5c]⟩, ⟨0x33, asciiBytes ",./"⟩]

def shiftedKeymap : List Keymap := [⟨0x02, asciiBytes "!@#$%^&*()_+"⟩, ⟨0x1a, [0x7b, 0x7d]⟩,
  ⟨0x27, [0x3a, 0x22, 0x7e]⟩, ⟨0x2b, asciiBytes "|"⟩, ⟨0x33, asciiBytes "<>?"⟩]

/-- `map_key`. -/
def mapKey : List Keymap → UInt32 → Option UInt8
  | [], _ => none
  | k :: ks, scancode =>
    if k.firstScancode ≤ scancode ∧ scancode < k.firstScancode + k.chars.length.toUInt32 then
      k.chars[(scancode - k.firstScancode).toNat]?
    else mapKey ks scancode

/-- The three calls of `map_key`. -/
def keyChar (shift : Bool) (code : UInt32) : Option UInt8 :=
  (mapKey invariantKeymap code).or (mapKey (if shift then shiftedKeymap else unshiftedKeymap) code)

/-- `tolower`. -/
def tolower (c : UInt8) : UInt8 := if 0x41 ≤ c ∧ c ≤ 0x5a then c - 0x41 + 0x61 else c

/-- What the handler makes of an ordinary character. -/
def modified (shift alt ctrl capsLock : Bool) (c : UInt8) : UInt8 :=
  let c := if ctrl && 0x40 ≤ c && c < 0x60 then c - 0x40
    else if shift = capsLock then tolower c else c
  if alt then c + 0x80 else c

/-- What the data register gives to one interrupt; the second byte is read after a prefix. -/
structure Scan where
  first : UInt8
  second : UInt8

namespace Scan

def raw (e : Scan) : UInt32 :=
  if e.first = 0xe0 then (e.first.toUInt32 <<< 8) ||| e.second.toUInt32 else e.first.toUInt32

def release (e : Scan) : Bool := e.raw &&& 0x80 ≠ 0

def code (e : Scan) : UInt32 := e.raw &&& ~~~0x80

end Scan

/-- The variables of the driver, and the bytes in the input buffer. -/
structure Keyboard where
  held : ShiftKey → Bool
  capsLock : Bool
  keyCnt : Nat
  input : List UInt8

/-- `shutdown_reboot` does not return. -/
inductive Reboot where
  | reboot

/-- The bytes that the input buffer has room for. -/
def inputRoom : Nat := Intq.intqBufsize - 1

/-- The end of the handler for an ordinary character. -/
def Keyboard.append (k : Keyboard) (c : UInt8) : Keyboard :=
  if k.input.length = inputRoom then k
  else { k with keyCnt := k.keyCnt + 1, input := k.input ++ [c] }

def shiftOf (held : ShiftKey → Bool) : Bool := held .leftShift || held .rightShift

def altOf (held : ShiftKey → Bool) : Bool := held .leftAlt || held .rightAlt

def ctrlOf (held : ShiftKey → Bool) : Bool := held .leftCtrl || held .rightCtrl

/-- `keyboard_interrupt`. -/
def keyboardInterrupt (e : Scan) : Routine Reboot Keyboard Unit := do
  let k ← get
  if e.code = 0x3a then
    if e.release then pure () else set { k with capsLock := !k.capsLock }
  else
    match keyChar (shiftOf k.held) e.code with
    | some c =>
      if e.release then pure ()
      else if c = 0x7f ∧ ctrlOf k.held = true ∧ altOf k.held = true then throw .reboot
      else set (k.append (modified (shiftOf k.held) (altOf k.held) (ctrlOf k.held) k.capsLock c))
    | none =>
      match shiftKeys.find? (·.scancode = e.code) with
      | some key => set { k with held := Function.update k.held key (!e.release) }
      | none => pure ()

/-! ### Looking back -/

/-- Whether a key is down: what its last event in the run says. -/
def downAfter (down : Bool) (es : List Scan) (key : ShiftKey) : Bool :=
  (es.reverse.find? (·.code = key.scancode)).elim down fun e => !e.release

/-- A press of Caps Lock. -/
def Scan.pressesCaps (e : Scan) : Bool := e.code = 0x3a && !e.release

/-- Whether Caps Lock is on: by the number of times it was pressed. -/
def capsAfter (caps : Bool) (es : List Scan) : Bool :=
  caps ^^ decide (es.countP Scan.pressesCaps % 2 = 1)

/-- The character that an event types where the keys in `held` are down. -/
def charOf (held : ShiftKey → Bool) (caps : Bool) (e : Scan) : Option UInt8 :=
  if e.release then none
  else (keyChar (shiftOf held) e.code).map
    (modified (shiftOf held) (altOf held) (ctrlOf held) caps)

/-- Ctrl+Alt+Del. -/
def Reboots (held : ShiftKey → Bool) (e : Scan) : Prop :=
  e.release = false ∧ keyChar (shiftOf held) e.code = some 0x7f ∧ ctrlOf held = true ∧
    altOf held = true

/-- What a run types that goes on after `past`. -/
def typed (held : ShiftKey → Bool) (caps : Bool) : (past es : List Scan) → List UInt8
  | _, [] => []
  | past, e :: es =>
    (charOf (fun key => downAfter (held key) past key) (capsAfter caps past) e).toList ++
      typed held caps (past ++ [e]) es

/-- It comes to Ctrl+Alt+Del. -/
def ComesToReboot (held : ShiftKey → Bool) : (past es : List Scan) → Prop
  | _, [] => False
  | past, e :: es => Reboots (fun key => downAfter (held key) past key) e ∨
    ComesToReboot held (past ++ [e]) es

variable {k k₀ k' : Keyboard} {e : Scan} {past es : List Scan}

theorem downAfter_append (down : Bool) (past : List Scan) (e : Scan) (key : ShiftKey) :
    downAfter down (past ++ [e]) key =
      if e.code = key.scancode then !e.release else downAfter down past key := by
  rw [downAfter, List.reverse_append, List.reverse_singleton, List.singleton_append,
    List.find?_cons]
  by_cases h : e.code = key.scancode
  · simp [h]
  · simp [h, downAfter]

theorem capsAfter_append (caps : Bool) (past : List Scan) (e : Scan) :
    capsAfter caps (past ++ [e]) =
      if e.pressesCaps then !capsAfter caps past else capsAfter caps past := by
  rw [capsAfter, capsAfter, List.countP_append]
  cases hcaps : e.pressesCaps with
  | false => simp [hcaps]
  | true =>
    have hodd : decide ((past.countP Scan.pressesCaps + 1) % 2 = 1) =
        !decide (past.countP Scan.pressesCaps % 2 = 1) := by
      rw [← decide_not]
      exact decide_eq_decide.mpr (by omega)
    simp only [List.countP_cons, List.countP_nil, hcaps, if_true, Nat.zero_add, hodd]
    cases caps <;> simp

/-! ### The tables -/

theorem scancode_ne_caps (key : ShiftKey) : key.scancode ≠ 0x3a := by
  cases key <;> decide

theorem keyChar_caps (shift : Bool) : keyChar shift 0x3a = none := by
  cases shift <;> decide +kernel

/-- No shift key has a character. -/
theorem keyChar_shiftKey (shift : Bool) (key : ShiftKey) : keyChar shift key.scancode = none := by
  cases shift <;> cases key <;> decide +kernel

theorem find?_shiftKeys (key : ShiftKey) :
    shiftKeys.find? (·.scancode = key.scancode) = some key := by
  cases key <;> decide

/-! ### One interrupt -/

/-- The character is put into the buffer, if there is one. -/
def Keyboard.type (k : Keyboard) (c : Option UInt8) : Keyboard := c.elim k k.append

theorem append_held (k : Keyboard) (c : UInt8) : (k.append c).held = k.held := by
  rw [Keyboard.append]
  split_ifs <;> rfl

theorem append_capsLock (k : Keyboard) (c : UInt8) : (k.append c).capsLock = k.capsLock := by
  rw [Keyboard.append]
  split_ifs <;> rfl

/-- A full buffer drops what comes. -/
theorem type_input (hroom : k.input.length ≤ inputRoom) (c : Option UInt8) :
    (k.type c).input = (k.input ++ c.toList).take inputRoom := by
  cases c with
  | none => rw [Option.toList_none, List.append_nil, List.take_of_length_le hroom, Keyboard.type,
      Option.elim_none]
  | some c =>
    rw [Keyboard.type, Option.elim_some, Keyboard.append, Option.toList_some]
    by_cases hfull : k.input.length = inputRoom
    · rw [if_pos hfull, ← hfull, List.take_left]
    · have hlength : (k.input ++ [c]).length ≤ inputRoom := by
        rw [List.length_append, List.length_singleton]
        omega
      rw [if_neg hfull, List.take_of_length_le hlength]

/-- The characters in the buffer are counted. -/
theorem type_keyCnt (k : Keyboard) (c : Option UInt8) :
    (k.type c).keyCnt + k.input.length = k.keyCnt + (k.type c).input.length := by
  cases c with
  | none => rfl
  | some c =>
    rw [Keyboard.type, Option.elim_some, Keyboard.append]
    split_ifs
    · rfl
    · rw [List.length_append, List.length_singleton]
      show k.keyCnt + 1 + k.input.length = k.keyCnt + (k.input.length + 1)
      omega

/-- Only the shift keys' scancodes change what is held. -/
theorem keyboardInterrupt_held (hcode : e.code ≠ 0x3a)
    (hchar : keyChar (shiftOf k.held) e.code = none) : ∃ held,
      keyboardInterrupt e k = .ok ((), { k with held }) ∧
      ∀ key, held key = if e.code = key.scancode then !e.release else k.held key := by
  rw [keyboardInterrupt, Routine.get_bind_apply, if_neg hcode, hchar]
  have hfound : ∀ key : ShiftKey, e.code = key.scancode →
      shiftKeys.find? (·.scancode = e.code) = some key := fun key hkey => by
    rw [hkey]
    exact find?_shiftKeys key
  cases hfind : shiftKeys.find? (·.scancode = e.code) with
  | none =>
    refine ⟨k.held, rfl, fun key => ?_⟩
    have hne : e.code ≠ key.scancode := fun hkey => by
      have hsome := (hfound key hkey).symm.trans hfind
      cases hsome
    rw [if_neg hne]
  | some key =>
    have hkey : key.scancode = e.code := of_decide_eq_true (List.find?_some hfind :)
    refine ⟨Function.update k.held key (!e.release), rfl, fun key' => ?_⟩
    by_cases hsame : key' = key
    · rw [hsame, Function.update_self, if_pos hkey.symm]
    · have hne : e.code ≠ key'.scancode := fun hkey' =>
        hsame (Option.some.inj ((hfound key' hkey').symm.trans hfind))
      rw [Function.update_of_ne hsame, if_neg hne]

/-- What one interrupt does short of Ctrl+Alt+Del. -/
theorem keyboardInterrupt_ok (h : ¬ Reboots k.held e) : ∃ k', keyboardInterrupt e k = .ok ((), k') ∧
    (∀ key, k'.held key = if e.code = key.scancode then !e.release else k.held key) ∧
    (k'.capsLock = if e.pressesCaps then !k.capsLock else k.capsLock) ∧
    k'.input = (k.type (charOf k.held k.capsLock e)).input ∧
    k'.keyCnt = (k.type (charOf k.held k.capsLock e)).keyCnt := by
  by_cases hcode : e.code = 0x3a
  · have hheld : ∀ key : ShiftKey, k.held key =
        if e.code = key.scancode then !e.release else k.held key := fun key => by
      rw [if_neg (hcode ▸ (scancode_ne_caps key).symm)]
    have hchar : charOf k.held k.capsLock e = none := by
      rw [charOf, hcode, keyChar_caps]
      split_ifs <;> rfl
    rw [keyboardInterrupt, Routine.get_bind_apply, if_pos hcode, hchar, Scan.pressesCaps, hcode]
    cases hrelease : e.release with
    | true => exact ⟨k, rfl, hrelease ▸ hcode ▸ hheld, rfl, rfl, rfl⟩
    | false => exact ⟨_, rfl, hrelease ▸ hcode ▸ hheld, rfl, rfl, rfl⟩
  · have hcaps : e.pressesCaps = false := by
      rw [Scan.pressesCaps, decide_eq_false hcode]
      rfl
    rw [hcaps, charOf]
    cases hchar : keyChar (shiftOf k.held) e.code with
    | none =>
      obtain ⟨held, hrun, hheld⟩ := keyboardInterrupt_held hcode hchar
      refine ⟨_, hrun, hheld, rfl, ?_⟩
      split_ifs <;> exact ⟨rfl, rfl⟩
    | some c =>
      have hheld : ∀ key : ShiftKey, k.held key =
          if e.code = key.scancode then !e.release else k.held key := fun key => by
        have hne : e.code ≠ key.scancode := fun hkey => by
          have hnone := (hkey ▸ hchar).symm.trans (keyChar_shiftKey (shiftOf k.held) key)
          cases hnone
        rw [if_neg hne]
      rw [keyboardInterrupt, Routine.get_bind_apply, if_neg hcode, hchar]
      by_cases hrelease : e.release = true
      · refine ⟨k, ?_, hheld, rfl, ?_⟩
        · dsimp only
          rw [if_pos hrelease]
          rfl
        · rw [if_pos hrelease]
          exact ⟨rfl, rfl⟩
      · have hquiet : ¬ (c = 0x7f ∧ ctrlOf k.held = true ∧ altOf k.held = true) :=
          fun ⟨hdel, hctrl, halt⟩ =>
            h ⟨Bool.eq_false_iff.mpr hrelease, hchar.trans (congrArg some hdel), hctrl, halt⟩
        refine ⟨k.append (modified (shiftOf k.held) (altOf k.held) (ctrlOf k.held) k.capsLock c),
          ?_, ?_, ?_, ?_⟩
        · dsimp only
          rw [if_neg hrelease, if_neg hquiet]
          rfl
        · rw [append_held]
          exact hheld
        · exact append_capsLock ..
        · rw [if_neg hrelease]
          exact ⟨rfl, rfl⟩

theorem keyboardInterrupt_reboots (h : Reboots k.held e) :
    keyboardInterrupt e k = .error .reboot := by
  obtain ⟨hrelease, hchar, hctrl, halt⟩ := h
  have hcode : e.code ≠ 0x3a := fun hcode => by
    have hnone := (hcode ▸ hchar).symm.trans (keyChar_caps (shiftOf k.held))
    cases hnone
  have hpress : ¬ e.release = true := Bool.eq_false_iff.mp hrelease
  rw [keyboardInterrupt, Routine.get_bind_apply, if_neg hcode, hchar]
  dsimp only
  rw [if_neg hpress, if_pos ⟨rfl, hctrl, halt⟩]
  rfl

/-! ### Runs -/

/-- The keyboard is as a look back over the run says. -/
structure Agrees (k₀ : Keyboard) (past : List Scan) (k : Keyboard) : Prop where
  held : k.held = fun key => downAfter (k₀.held key) past key
  capsLock : k.capsLock = capsAfter k₀.capsLock past

theorem Agrees.start (k : Keyboard) : Agrees k [] k where
  held := rfl
  capsLock := by simp [capsAfter]

/-- The step lemma. -/
theorem Agrees.step (h : Agrees k₀ past k)
    (hquiet : ¬ Reboots (fun key => downAfter (k₀.held key) past key) e) :
    ∃ k', keyboardInterrupt e k = .ok ((), k') ∧ Agrees k₀ (past ++ [e]) k' ∧
      k'.input = (k.type (charOf (fun key => downAfter (k₀.held key) past key)
        (capsAfter k₀.capsLock past) e)).input ∧
      k'.keyCnt = (k.type (charOf (fun key => downAfter (k₀.held key) past key)
        (capsAfter k₀.capsLock past) e)).keyCnt := by
  rw [← h.held] at hquiet
  obtain ⟨k', hrun, hheld, hcaps, hinput, hcnt⟩ := keyboardInterrupt_ok hquiet
  rw [h.held, h.capsLock] at hinput hcnt
  refine ⟨k', hrun, ⟨?_, ?_⟩, hinput, hcnt⟩
  · funext key
    rw [hheld, downAfter_append, h.held]
  · rw [hcaps, capsAfter_append, h.capsLock]

/-- Cut to the room there is, twice as well as once. -/
theorem take_append_take (n : Nat) (xs ys : List UInt8) :
    (xs.take n ++ ys).take n = (xs ++ ys).take n := by
  rw [List.take_append, List.take_append, List.take_take, Nat.min_self, List.length_take]
  congr 2
  omega

/-- The run lemma, by induction on what is still to come. -/
theorem Agrees.run (h : Agrees k₀ past k) (hroom : k.input.length ≤ inputRoom)
    (hquiet : ¬ ComesToReboot k₀.held past es) :
    ∃ answers k', Routine.execAll keyboardInterrupt es k = .ok (answers, k') ∧
      Agrees k₀ (past ++ es) k' ∧
      k'.input = (k.input ++ typed k₀.held k₀.capsLock past es).take inputRoom ∧
      k'.keyCnt + k.input.length = k.keyCnt + k'.input.length := by
  induction es generalizing past k with
  | nil =>
    refine ⟨[], k, rfl, ?_, ?_, rfl⟩
    · rw [List.append_nil]
      exact h
    · rw [typed, List.append_nil, List.take_of_length_le hroom]
  | cons e es ih =>
    rw [ComesToReboot, not_or] at hquiet
    obtain ⟨k₁, hrun, hagrees, hinput, hcnt⟩ := h.step hquiet.1
    have hcount := type_keyCnt k (charOf (fun key => downAfter (k₀.held key) past key)
      (capsAfter k₀.capsLock past) e)
    rw [← hcnt, ← hinput] at hcount
    rw [type_input hroom] at hinput
    have hroom₁ : k₁.input.length ≤ inputRoom := by
      rw [hinput]
      exact List.length_take_le ..
    obtain ⟨answers, k', hrest, hagrees', hinput', hcount'⟩ := ih hagrees hroom₁ hquiet.2
    refine ⟨() :: answers, k', Routine.execAll_cons_of_ok hrun hrest, ?_, ?_, by omega⟩
    · rw [List.append_assoc] at hagrees'
      exact hagrees'
    · rw [hinput', hinput, take_append_take, typed, List.append_assoc]

theorem Agrees.reboots (h : Agrees k₀ past k) (hreboot : ComesToReboot k₀.held past es) :
    Routine.execAll keyboardInterrupt es k = .error .reboot := by
  induction es generalizing past k with
  | nil => exact hreboot.elim
  | cons e es ih =>
    rw [Routine.execAll]
    by_cases hnow : Reboots (fun key => downAfter (k₀.held key) past key) e
    · rw [← h.held] at hnow
      rw [Routine.bind_of_error (keyboardInterrupt_reboots hnow)]
    · obtain ⟨k₁, hrun, hagrees, -, -⟩ := h.step hnow
      rw [Routine.bind_of_ok hrun,
        Routine.bind_of_error (ih hagrees (hreboot.resolve_left hnow))]

/-! ### Typing a text -/

instance decidableReboots (held : ShiftKey → Bool) (e : Scan) : Decidable (Reboots held e) :=
  inferInstanceAs (Decidable (_ ∧ _ ∧ _ ∧ _))

instance decidableComesToReboot (held : ShiftKey → Bool) :
    ∀ past es : List Scan, Decidable (ComesToReboot held past es)
  | _, [] => inferInstanceAs (Decidable False)
  | past, e :: es =>
    have := decidableComesToReboot held (past ++ [e]) es
    inferInstanceAs (Decidable (_ ∨ _))

/-- No key is down. -/
def nothingHeld (_ : ShiftKey) : Bool := false

/-- Before any interrupt. -/
def powerOn : Keyboard := ⟨nothingHeld, false, 0, []⟩

/-- A key is pressed and released, perhaps while the left Shift key is down. -/
def strokes (shift : Bool) (code : UInt8) : List Scan :=
  if shift then [⟨0x2a, 0⟩, ⟨code, 0⟩, ⟨code + 0x80, 0⟩, ⟨0xaa, 0⟩]
  else [⟨code, 0⟩, ⟨code + 0x80, 0⟩]

/-- The key that types a character with Shift up or down. -/
def keyFor (shift : Bool) (c : UInt8) : Option UInt8 :=
  ((List.range 0x3a).map Nat.toUInt8).find? fun code =>
    charOf (fun key => shift && key = .leftShift) false ⟨code, 0⟩ = some c

/-- How a character is typed. -/
def strokesFor (c : UInt8) : List Scan :=
  match keyFor false c with
  | some code => strokes false code
  | none => ((keyFor true c).map (strokes true)).getD []

/-- Every printable character has its key, and the strokes leave no key down. -/
theorem strokesFor_printable : ∀ n < 95,
    typed nothingHeld false [] (strokesFor (0x20 + n.toUInt8)) = [0x20 + n.toUInt8] ∧
    ¬ ComesToReboot nothingHeld [] (strokesFor (0x20 + n.toUInt8)) ∧
    (∀ key ∈ shiftKeys, downAfter false (strokesFor (0x20 + n.toUInt8)) key = false) ∧
    capsAfter false (strokesFor (0x20 + n.toUInt8)) = false := by
  decide +kernel

theorem mem_shiftKeys (key : ShiftKey) : key ∈ shiftKeys := by
  cases key <;> decide

theorem printable_eq {c : UInt8} (hlow : 0x20 ≤ c) (hhigh : c ≤ 0x7e) :
    ∃ n < 95, 0x20 + n.toUInt8 = c := by
  have hl : 32 ≤ c.toNat := hlow
  have hh : c.toNat ≤ 126 := hhigh
  refine ⟨c.toNat - 32, by omega, UInt8.toNat_inj.mp ?_⟩
  have hn : (c.toNat - 32).toUInt8.toNat = c.toNat - 32 := by
    rw [Nat.toUInt8_eq, UInt8.toNat_ofNat', Nat.mod_eq_of_lt (by omega)]
  have h32 : (0x20 : UInt8).toNat = 32 := rfl
  rw [UInt8.toNat_add, hn, h32]
  omega

/-- The strokes of a character add it, and leave the keyboard as they found it. -/
theorem types_character {c : UInt8} (hlow : 0x20 ≤ c) (hhigh : c ≤ 0x7e)
    (hheld : k.held = nothingHeld) (hcaps : k.capsLock = false)
    (hroom : k.input.length < inputRoom) :
    ∃ answers k', Routine.execAll keyboardInterrupt (strokesFor c) k = .ok (answers, k') ∧
      k'.held = nothingHeld ∧ k'.capsLock = false ∧ k'.input = k.input ++ [c] := by
  obtain ⟨n, hn, rfl⟩ := printable_eq hlow hhigh
  obtain ⟨htyped, hquiet, hup, hcapsOff⟩ := strokesFor_printable n hn
  rw [← hheld] at hquiet
  obtain ⟨answers, k', hrun, hagrees, hinput, -⟩ :=
    (Agrees.start k).run (Nat.le_of_lt hroom) hquiet
  rw [List.nil_append] at hagrees
  refine ⟨answers, k', hrun, ?_, ?_, ?_⟩
  · rw [hagrees.held, hheld]
    funext key
    exact hup key (mem_shiftKeys key)
  · rw [hagrees.capsLock, hcaps, hcapsOff]
  · have hlength : (k.input ++ [0x20 + n.toUInt8]).length ≤ inputRoom := by
      rw [List.length_append, List.length_singleton]
      exact hroom
    rw [hinput, hheld, hcaps, htyped, List.take_of_length_le hlength]

/-- The run lemma for a text. -/
theorem types_text {s : List UInt8} (hs : ∀ c ∈ s, 0x20 ≤ c ∧ c ≤ 0x7e)
    (hheld : k.held = nothingHeld) (hcaps : k.capsLock = false)
    (hroom : k.input.length + s.length ≤ inputRoom) :
    ∃ answers k', Routine.execAll keyboardInterrupt (s.flatMap strokesFor) k =
      .ok (answers, k') ∧ k'.input = k.input ++ s := by
  induction s generalizing k with
  | nil => exact ⟨[], k, rfl, (List.append_nil _).symm⟩
  | cons c s ih =>
    rw [List.length_cons] at hroom
    obtain ⟨hlow, hhigh⟩ := hs c List.mem_cons_self
    obtain ⟨answers, k₁, hfirst, hheld₁, hcaps₁, hinput₁⟩ :=
      types_character hlow hhigh hheld hcaps (by omega)
    have hroom₁ : k₁.input.length + s.length ≤ inputRoom := by
      rw [hinput₁, List.length_append, List.length_singleton]
      omega
    obtain ⟨answers', k', hrest, hinput⟩ :=
      ih (fun c' hc' => hs c' (List.mem_cons_of_mem c hc')) hheld₁ hcaps₁ hroom₁
    refine ⟨answers ++ answers', k', ?_, ?_⟩
    · rw [List.flatMap_cons]
      exact Routine.execAll_append_ok.mpr ⟨answers, answers', k₁, hfirst, hrest, rfl⟩
    · rw [hinput, hinput₁, List.append_assoc, List.singleton_append]

end Kbd

/-- In every run of interrupts that does not come to Ctrl+Alt+Del, each shift key counts as down
exactly if its last event was a press, Caps Lock is on after an odd number of presses, and the
buffer has the characters typed as far as they fit; the others are not counted.  A run that comes
to Ctrl+Alt+Del reboots. -/
theorem keyboard_follows_run (k : Kbd.Keyboard) (es : List Kbd.Scan)
    (hroom : k.input.length ≤ Kbd.inputRoom) :
    (¬ Kbd.ComesToReboot k.held [] es → ∃ answers k',
      Routine.execAll Kbd.keyboardInterrupt es k = .ok (answers, k') ∧
      (∀ key, k'.held key = Kbd.downAfter (k.held key) es key) ∧
      k'.capsLock = Kbd.capsAfter k.capsLock es ∧
      k'.input = (k.input ++ Kbd.typed k.held k.capsLock [] es).take Kbd.inputRoom ∧
      k'.keyCnt + k.input.length = k.keyCnt + k'.input.length) ∧
    (Kbd.ComesToReboot k.held [] es →
      Routine.execAll Kbd.keyboardInterrupt es k = .error .reboot) := by
  refine ⟨fun hquiet => ?_, fun hreboot => (Kbd.Agrees.start k).reboots hreboot⟩
  obtain ⟨answers, k', hrun, hagrees, hinput, hcount⟩ :=
    (Kbd.Agrees.start k).run hroom hquiet
  rw [List.nil_append] at hagrees
  exact ⟨answers, k', hrun, fun key => congrFun hagrees.held key, hagrees.capsLock, hinput,
    hcount⟩

/-- Left Shift and `A`, then `B` alone, Caps Lock and `C`, and at last Ctrl and Alt, which stay
down. -/
def mixedKeys : List Kbd.Scan :=
  [⟨0x2a, 0⟩, ⟨0x1e, 0⟩, ⟨0x9e, 0⟩, ⟨0xaa, 0⟩, ⟨0x30, 0⟩, ⟨0xb0, 0⟩, ⟨0x3a, 0⟩, ⟨0xba, 0⟩, ⟨0x2e, 0⟩,
    ⟨0xae, 0⟩, ⟨0x1d, 0⟩, ⟨0x38, 0⟩]

/-- `AbC` is typed; Delete would now reboot. -/
theorem keyboard_follows_run_mixed : ∃ answers k',
    Routine.execAll Kbd.keyboardInterrupt mixedKeys Kbd.powerOn = .ok (answers, k') ∧
      k'.input = [0x41, 0x62, 0x43] ∧ k'.capsLock = true ∧ k'.held .leftCtrl = true ∧
      k'.held .leftShift = false ∧
      Routine.execAll Kbd.keyboardInterrupt (mixedKeys ++ [⟨0x53, 0⟩]) Kbd.powerOn =
        .error .reboot := by
  obtain ⟨answers, k', hrun, hheld, hcaps, hinput, -⟩ :=
    (keyboard_follows_run Kbd.powerOn mixedKeys (Nat.zero_le _)).1 (by decide +kernel)
  have hreboots :=
    (keyboard_follows_run Kbd.powerOn (mixedKeys ++ [⟨0x53, 0⟩]) (Nat.zero_le _)).2
      (by decide +kernel)
  exact ⟨answers, k', hrun, hinput.trans (by decide +kernel), hcaps.trans (by decide +kernel),
    (hheld _).trans (by decide +kernel), (hheld _).trans (by decide +kernel), hreboots⟩

/-- Every text of printable characters that the buffer has room for can be typed. -/
theorem printable_texts_typed (s : List UInt8) (hs : ∀ c ∈ s, 0x20 ≤ c ∧ c ≤ 0x7e)
    (hroom : s.length ≤ Kbd.inputRoom) : ∃ es answers k',
      Routine.execAll Kbd.keyboardInterrupt es Kbd.powerOn = .ok (answers, k') ∧
        k'.input = s := by
  have hempty : Kbd.powerOn.input.length + s.length ≤ Kbd.inputRoom := by
    rw [show Kbd.powerOn.input.length = 0 from rfl, Nat.zero_add]
    exact hroom
  obtain ⟨answers, k', hrun, hinput⟩ := @Kbd.types_text Kbd.powerOn s hs rfl rfl hempty
  exact ⟨_, answers, k', hrun, hinput⟩

theorem printable_texts_typed_hi : ∃ es answers k',
    Routine.execAll Kbd.keyboardInterrupt es Kbd.powerOn = .ok (answers, k') ∧
      k'.input = [0x48, 0x69, 0x21] := by
  have hprintable : ∀ c ∈ [(0x48 : UInt8), 0x69, 0x21], 0x20 ≤ c ∧ c ≤ 0x7e := by
    intro c hc
    simp only [List.mem_cons, List.not_mem_nil, or_false] at hc
    obtain rfl | rfl | rfl := hc <;> exact ⟨by decide, by decide⟩
  exact printable_texts_typed [0x48, 0x69, 0x21] hprintable (by decide)

end Pintos
