import Pintos.Filesys.InodeDisk
import Pintos.Userprog.ProcessExecute

/-! `setup_stack` (`userprog/process.c`): the tokens of the command line, the alignment, the
argument pointers, `argv`, `argc` and a return address are pushed on a stack of one page.  Addresses
are 32-bit words.  Whether a frame is found, is installed and the two blocks are allocated are
inputs; a frame comes with the bytes that it holds, because one that another page was evicted from
is not zeroed. -/

namespace Pintos

/-- The address of the page of the stack. -/
def stackPage : Nat := physBase - pgSize

/-- A string in kernel memory, which ends `2 ^ 30` bytes above `PHYS_BASE`. -/
structure CommandLine extends CString where
  fits : bytes.length < 2 ^ 30

/-- What `setup_stack` works on: `*esp`, user memory, the entries of `argvector` that were set, in
order, and the number of entries that it was allocated with. -/
structure UserStack where
  esp : Nat
  memory : Memory
  argvector : List Nat
  vectorSize : Nat

/-- What `setup_stack` gets: the bytes of a frame, if there is one, and whether it was installed and
the blocks were allocated. -/
structure StackResources where
  kernelPage : Option Memory
  installs : Bool
  copyAllocated : Bool
  vectorAllocated : Bool

abbrev StackRoutine := Routine Fault UserStack

namespace UserStack

/-- `*esp` goes down, and `bytes` are copied there if that is above the bottom of the page. -/
def pushed (s : UserStack) (bytes : List UInt8) : UserStack :=
  let esp := toWord (s.esp - bytes.length)
  { s with esp, memory := if stackPage < esp then s.memory.store esp bytes else s.memory }

def push (bytes : List UInt8) : StackRoutine Unit := modify fun s => s.pushed bytes

/-- The next entry of `argvector` is set. -/
def setArgvector (value : Nat) : StackRoutine Unit := do
  let s ← get
  if s.argvector.length < s.vectorSize then
    set { s with argvector := s.argvector ++ [value] }
  else throw (.undefined "argvector[j]")

def getArgvector (j : Nat) : StackRoutine Nat := do
  let s ← get
  match s.argvector[j]? with
  | some value => pure value
  | none => throw (.undefined "argvector[j]")

/-- The first loop over the tokens. -/
def countArguments : Nat → List UInt8 → Nat → StackRoutine Nat
  | 0, _, _ => throw .spin
  | fuel + 1, s, argumentcount =>
    match strtokR [space] s with
    | (none, _) => pure argumentcount
    | (some _, rest) =>
      if argumentcount < argMax then countArguments fuel rest (argumentcount + 1)
      else pure argumentcount

def pushArgument (tkn : List UInt8) : StackRoutine Unit := do
  push (tkn ++ [0])
  let s ← get
  setArgvector s.esp

/-- The second loop over the tokens. -/
def pushArguments : Nat → List UInt8 → StackRoutine Unit
  | 0, _ => throw .spin
  | fuel + 1, s =>
    match strtokR [space] s with
    | (none, _) => pure ()
    | (some tkn, rest) => do
      pushArgument tkn
      pushArguments fuel rest

/-- The word alignment. -/
def wordAlign : Nat → StackRoutine Unit
  | 0 => throw .spin
  | fuel + 1 => do
    let s ← get
    if s.esp % 4 ≠ 0 then
      push [0]
      wordAlign fuel
    else pure ()

def pushPointer (j : Nat) : StackRoutine Unit := do
  let value ← getArgvector j
  push (Memory.wordBytes value)

/-- The entries of `argvector`, from entry `j` down. -/
def pushPointers : Nat → StackRoutine Unit
  | 0 => pushPointer 0
  | j + 1 => do
    pushPointer (j + 1)
    pushPointers j

/-- What `setup_stack` pushes before the return address. -/
def pushImage (argumentfilenames : List UInt8) (argumentcount : Nat) : StackRoutine Unit := do
  pushArguments (argumentfilenames.length + 1) argumentfilenames
  setArgvector 0
  wordAlign 4
  pushPointers argumentcount
  let s ← get
  push (Memory.wordBytes s.esp)
  push (Memory.wordBytes argumentcount)

/-- `install_page`: the page of the stack holds the bytes of the frame. -/
def installed (s : UserStack) (kernelPage : Memory) : UserStack :=
  { s with
    esp := physBase
    memory := fun a =>
      if stackPage ≤ a ∧ a < physBase then kernelPage (a - stackPage) else s.memory a }

/-- `setup_stack` once the page is installed. -/
def pushAll (resources : StackResources) (names : List UInt8) : StackRoutine Bool := do
  let argumentcount ← countArguments (names.length + 1) names 0
  if resources.vectorAllocated then
    modify fun s => { s with argvector := [], vectorSize := argumentcount + 1 }
    pushImage names argumentcount
    push (Memory.wordBytes 0)
    pure true
  else pure false

def setupStack (resources : StackResources) (argumentfilenames : CommandLine) :
    StackRoutine Bool := do
  match resources.kernelPage with
  | none => pure false
  | some kernelPage =>
    if resources.installs then
      modify fun s => s.installed kernelPage
      if resources.copyAllocated then pushAll resources argumentfilenames.bytes
      else pure false
    else pure false

end UserStack

/-- The bytes of the tokens, the first one on top, each with its null byte. -/
def argumentBytes : List (List UInt8) → List UInt8
  | [] => []
  | token :: rest => argumentBytes rest ++ (token ++ [0])

/-- The padding below `size` bytes of tokens. -/
def padding (size : Nat) : Nat := (4 - size % 4) % 4

/-- The bytes that the stack of a command line takes. -/
def stackSize (tokens : List (List UInt8)) : Nat :=
  let size := (argumentBytes tokens).length
  size + padding size + 4 * (tokens.length + 1) + 12

/-- The stack at `esp` holds the tokens as the arguments of `main`. -/
structure ArgumentStack (tokens : List (List UInt8)) (esp argv : Nat) (m : Memory) : Prop where
  aligned : esp % 4 = 0 ∧ argv % 4 = 0
  inside : stackPage ≤ esp ∧ esp + 12 ≤ physBase
  insideArgv : stackPage ≤ argv ∧ argv + 4 * (tokens.length + 1) ≤ physBase
  returnAddress : m.word esp = 0
  argcWord : m.word (esp + 4) = tokens.length
  argvWord : m.word (esp + 8) = argv
  last : m.word (argv + 4 * tokens.length) = 0
  arguments : ∀ i, ∀ h : i < tokens.length, stackPage ≤ m.word (argv + 4 * i) ∧
    m.word (argv + 4 * i) + (tokens[i].length + 1) ≤ physBase ∧
    m.Holds (m.word (argv + 4 * i)) (tokens[i] ++ [0])

/-- What `setup_stack` of a command line is to do. -/
def SetsUpStack (argumentfilenames : CommandLine)
    (result : Except Fault (Bool × UserStack)) : Prop :=
  ∃ value s, result = .ok (value, s) ∧
    (value = true → ∃ argv, ArgumentStack (tokens argumentfilenames.bytes) s.esp argv s.memory) ∧
    (pgSize < stackSize (tokens argumentfilenames.bytes) → value = false)

namespace UserStack

variable {s : UserStack} {m0 : Memory} {bytes : List UInt8}

/-! ### The tokens -/

theorem countArguments_eq {fuel : Nat} {names : List UInt8} (hfuel : names.length < fuel)
    {count : Nat} (hcount : count ≤ argMax) (s : UserStack) :
    countArguments fuel names count s =
      .ok (min argMax (count + (tokens names).length), s) := by
  induction fuel generalizing names count with
  | zero => omega
  | succ fuel ih =>
    rw [countArguments]
    rcases strtokR_space names with ⟨hnone, hnil⟩ | ⟨token, rest, hsome, htokens, hle, hpos, -⟩
    · rw [hnone, hnil]
      show Except.ok (count, s) = .ok (min argMax (count + 0), s)
      rw [Nat.add_zero, Nat.min_eq_right hcount]
    · rw [hsome, htokens, List.length_cons]
      dsimp only
      by_cases hlt : count < argMax
      · rw [if_pos hlt, ih (by omega) hlt, Nat.succ_add_eq_add_succ]
      · rw [if_neg hlt, Nat.min_eq_left (by omega)]
        obtain rfl : count = argMax := by omega
        rfl

theorem pushArguments_eq {fuel : Nat} {names : List UInt8} (hfuel : names.length < fuel) :
    pushArguments fuel names = (tokens names).forM pushArgument := by
  induction fuel generalizing names with
  | zero => omega
  | succ fuel ih =>
    rw [pushArguments]
    rcases strtokR_space names with ⟨hnone, hnil⟩ | ⟨token, rest, hsome, htokens, hle, hpos, -⟩
    · rw [hnone, hnil]
      rfl
    · rw [hsome, htokens]
      show (pushArgument token >>= fun _ => pushArguments fuel rest) =
        (pushArgument token >>= fun _ => (tokens rest).forM pushArgument)
      rw [ih (by omega)]

/-- The tokens of a string are together no longer than it. -/
theorem length_argumentBytes_le (names : List UInt8) :
    (argumentBytes (tokens names)).length ≤ names.length + 1 := by
  induction h : names.length using Nat.strongRecOn generalizing names with
  | ind n ih =>
    subst h
    rcases strtokR_space names with ⟨-, hnil⟩ | ⟨token, rest, -, htokens, hle, hpos, hlt⟩
    · rw [hnil]
      exact Nat.zero_le _
    · rw [htokens, argumentBytes, List.length_append, List.length_append, List.length_singleton]
      by_cases hrest : rest = []
      · subst hrest
        simp only [tokens_nil, argumentBytes, List.length_nil] at *
        omega
      · have hshort := hlt hrest
        have := ih rest.length (by omega) rest rfl
        omega

/-! ### Pushes -/

/-- `bytes` were pushed on a stack in memory `m0`, and lie there if they fit in the page. -/
structure Image (m0 : Memory) (s : UserStack) (bytes : List UInt8) : Prop where
  esp : s.esp + bytes.length = physBase
  holds : bytes.length < pgSize → s.memory.Holds s.esp bytes
  below : ∀ a < s.esp, s.memory a = m0 a

theorem Image.esp_pushed (h : Image m0 s bytes) (new : List UInt8)
    (hroom : (new ++ bytes).length ≤ physBase) :
    (s.pushed new).esp + (new ++ bytes).length = physBase := by
  have hesp := h.esp
  rw [List.length_append] at hroom ⊢
  have hsub : toWord (s.esp - new.length) = s.esp - new.length := by
    unfold toWord physBase at *
    omega
  show toWord (s.esp - new.length) + _ = _
  rw [hsub]
  omega

theorem Image.pushed (h : Image m0 s bytes) (new : List UInt8)
    (hroom : (new ++ bytes).length ≤ physBase) :
    Image m0 (s.pushed new) (new ++ bytes) := by
  have hesp := h.esp
  have hesp' := h.esp_pushed new hroom
  have hbelow : (s.pushed new).esp + new.length = s.esp := by
    rw [List.length_append] at hesp'
    omega
  have hmemory : (s.pushed new).memory = if stackPage < (s.pushed new).esp then
      s.memory.store (s.pushed new).esp new else s.memory := rfl
  refine ⟨hesp', fun hfits => ?_, fun a ha => ?_⟩
  · have hguard : stackPage < (s.pushed new).esp := by
      unfold stackPage physBase pgSize at *
      omega
    rw [hmemory, if_pos hguard, Memory.holds_append, hbelow]
    rw [List.length_append] at hfits
    exact ⟨Memory.holds_store _ _ _, (h.holds (by omega)).store (.inr (by omega))⟩
  · rw [hmemory, ← h.below a (by omega)]
    split
    · rw [Memory.store_apply, if_neg (by omega)]
    · rfl

theorem push_apply (bytes : List UInt8) (s : UserStack) :
    push bytes s = .ok ((), s.pushed bytes) := rfl

theorem setArgvector_of_lt (h : s.argvector.length < s.vectorSize) (value : Nat) :
    setArgvector value s = .ok ((), { s with argvector := s.argvector ++ [value] }) := by
  rw [setArgvector, Routine.get_bind_apply, if_pos h]
  rfl

theorem setArgvector_of_le (h : s.vectorSize ≤ s.argvector.length) (value : Nat) :
    setArgvector value s = .error (.undefined "argvector[j]") := by
  rw [setArgvector, Routine.get_bind_apply, if_neg (by omega)]
  rfl

theorem pushArgument_of_lt (h : s.argvector.length < s.vectorSize) (tkn : List UInt8) :
    pushArgument tkn s = .ok ((), { s.pushed (tkn ++ [0]) with
      argvector := s.argvector ++ [(s.pushed (tkn ++ [0])).esp] }) := by
  rw [pushArgument, Routine.bind_of_ok (push_apply _ s), Routine.get_bind_apply]
  exact setArgvector_of_lt (s := s.pushed (tkn ++ [0])) h _

theorem pushArgument_of_le (h : s.vectorSize ≤ s.argvector.length) (tkn : List UInt8) :
    pushArgument tkn s = .error (.undefined "argvector[j]") := by
  rw [pushArgument, Routine.bind_of_ok (push_apply _ s), Routine.get_bind_apply]
  exact setArgvector_of_le (s := s.pushed (tkn ++ [0])) h _

/-- The addresses of the tokens, the first one ending at `top`. -/
def pointers : Nat → List (List UInt8) → List Nat
  | _, [] => []
  | top, token :: rest => (top - (token.length + 1)) :: pointers (top - (token.length + 1)) rest

@[simp] theorem length_pointers (top : Nat) (toks : List (List UInt8)) :
    (pointers top toks).length = toks.length := by
  induction toks generalizing top with
  | nil => rfl
  | cons token rest ih => rw [pointers, List.length_cons, List.length_cons, ih]

/-- The second loop pushes the tokens and notes where they are. -/
theorem Image.pushArguments (h : Image m0 s bytes) (toks : List (List UInt8))
    (hroom : (argumentBytes toks ++ bytes).length ≤ physBase)
    (hvector : s.argvector.length + toks.length ≤ s.vectorSize) :
    ∃ s', toks.forM pushArgument s = .ok ((), s') ∧ Image m0 s' (argumentBytes toks ++ bytes) ∧
      s'.argvector = s.argvector ++ pointers s.esp toks ∧ s'.vectorSize = s.vectorSize := by
  induction toks generalizing s bytes with
  | nil => exact ⟨s, rfl, h, (List.append_nil _).symm, rfl⟩
  | cons token rest ih =>
    rw [argumentBytes, List.append_assoc] at hroom ⊢
    rw [List.length_cons] at hvector
    have hroom' : (token ++ [0] ++ bytes).length ≤ physBase := by
      rw [List.length_append] at hroom
      omega
    have hpushed := h.pushed (token ++ [0]) hroom'
    have hesp : (s.pushed (token ++ [0])).esp = s.esp - (token.length + 1) := by
      have h0 := h.esp
      have h1 := hpushed.esp
      simp only [List.length_append, List.length_singleton] at h1
      omega
    have himage : Image m0 { s.pushed (token ++ [0]) with
        argvector := s.argvector ++ [(s.pushed (token ++ [0])).esp] } (token ++ [0] ++ bytes) :=
      ⟨hpushed.esp, hpushed.holds, hpushed.below⟩
    obtain ⟨s', hrun, himage', hargvector, hsize⟩ := ih himage hroom
      (by rw [List.length_append, List.length_singleton]; show _ ≤ s.vectorSize; omega)
    refine ⟨s', ?_, himage', ?_, hsize⟩
    · show (pushArgument token >>= fun _ => rest.forM pushArgument) s = _
      rw [Routine.bind_of_ok (pushArgument_of_lt (by omega) token), hrun]
    · rw [hargvector, pointers, List.append_assoc]
      show s.argvector ++ ([(s.pushed (token ++ [0])).esp] ++
        pointers (s.pushed (token ++ [0])).esp rest) = _
      rw [hesp]
      rfl

/-- More tokens than `argvector` has entries for, with the null pointer that ends it. -/
theorem pushArguments_overflow {toks : List (List UInt8)}
    (hvector : s.vectorSize ≤ s.argvector.length + toks.length) :
    (toks.forM pushArgument >>= fun _ => setArgvector 0) s =
      .error (.undefined "argvector[j]") := by
  induction toks generalizing s with
  | nil => exact setArgvector_of_le hvector 0
  | cons token rest ih =>
    rw [List.length_cons] at hvector
    show ((pushArgument token >>= fun _ => rest.forM pushArgument) >>= _) s = _
    rw [bind_assoc]
    by_cases hlt : s.argvector.length < s.vectorSize
    · rw [Routine.bind_of_ok (pushArgument_of_lt hlt token)]
      apply ih
      rw [List.length_append, List.length_singleton]
      show s.vectorSize ≤ _
      omega
    · rw [Routine.bind_of_error (pushArgument_of_le (by omega) token)]

/-- The alignment pushes zeros until `*esp` is a multiple of 4. -/
theorem Image.wordAlign {k : Nat} (h : Image m0 s bytes) (fuel : Nat) (hk : s.esp % 4 = k)
    (hfuel : k < fuel) (hroom : (List.replicate k 0 ++ bytes).length ≤ physBase) :
    ∃ s', UserStack.wordAlign fuel s = .ok ((), s') ∧ Image m0 s' (List.replicate k 0 ++ bytes) ∧
      s'.argvector = s.argvector := by
  induction fuel generalizing s k bytes with
  | zero => omega
  | succ fuel ih =>
    rw [UserStack.wordAlign, Routine.get_bind_apply]
    by_cases hzero : k = 0
    · subst hzero
      rw [if_neg (by omega)]
      exact ⟨s, rfl, h, rfl⟩
    · obtain ⟨j, rfl⟩ := Nat.exists_eq_succ_of_ne_zero hzero
      have hsplit : List.replicate (j + 1) (0 : UInt8) ++ bytes =
          List.replicate j 0 ++ ([0] ++ bytes) := by
        rw [List.replicate_succ', List.append_assoc]
      rw [hsplit] at hroom ⊢
      have hpushed := h.pushed [0] (by rw [List.length_append] at hroom; omega)
      have h0 := h.esp
      have h1 := hpushed.esp
      simp only [List.length_append, List.length_singleton] at h1
      obtain ⟨s', hrun, himage, hargvector⟩ := ih hpushed (k := j) (by omega) (by omega) hroom
      rw [if_pos (by omega), Routine.bind_of_ok (push_apply _ s)]
      exact ⟨s', hrun, himage, hargvector⟩

theorem pushPointer_apply {j : Nat} (hj : j < s.argvector.length) :
    pushPointer j s = .ok ((), s.pushed (Memory.wordBytes s.argvector[j])) := by
  have hget : getArgvector j s = .ok (s.argvector[j], s) := by
    rw [getArgvector, Routine.get_bind_apply, List.getElem?_eq_getElem hj]
    rfl
  rw [pushPointer, Routine.bind_of_ok hget, push_apply]

theorem flatMap_take_succ {l : List Nat} {j : Nat} (hj : j < l.length) :
    (l.take (j + 1)).flatMap Memory.wordBytes =
      (l.take j).flatMap Memory.wordBytes ++ Memory.wordBytes l[j] := by
  rw [List.take_add_one, List.getElem?_eq_getElem hj, List.flatMap_append, Option.toList_some,
    List.flatMap_singleton]

/-- The pointers go below what was pushed, entry 0 last. -/
theorem Image.pushPointers {j : Nat} (h : Image m0 s bytes) (hj : j < s.argvector.length)
    (hroom : ((s.argvector.take (j + 1)).flatMap Memory.wordBytes ++ bytes).length ≤ physBase) :
    ∃ s', UserStack.pushPointers j s = .ok ((), s') ∧
      Image m0 s' ((s.argvector.take (j + 1)).flatMap Memory.wordBytes ++ bytes) := by
  rw [flatMap_take_succ hj, List.append_assoc] at hroom ⊢
  have hpushed := h.pushed (Memory.wordBytes s.argvector[j])
    (by rw [List.length_append] at hroom; omega)
  induction j generalizing s bytes with
  | zero => exact ⟨_, pushPointer_apply hj, hpushed⟩
  | succ j ih =>
    have hj' : j < s.argvector.length := by omega
    rw [flatMap_take_succ hj', List.append_assoc] at hroom ⊢
    obtain ⟨s', hrun, himage⟩ := ih hpushed hj' hroom
      (hpushed.pushed _ (by rw [List.length_append] at hroom; exact Nat.le_of_add_left_le hroom))
    refine ⟨s', ?_, himage⟩
    rw [UserStack.pushPointers, Routine.bind_of_ok (pushPointer_apply hj), hrun]

/-- What lies below the tokens: the entries of `argvector`, with the alignment above them. -/
def pointerBytes (toks : List (List UInt8)) : List UInt8 :=
  ((pointers physBase toks ++ [0]).flatMap Memory.wordBytes) ++
    (List.replicate (padding (argumentBytes toks).length) 0 ++ argumentBytes toks)

/-- Where `argv` is. -/
def argvAddress (toks : List (List UInt8)) : Nat := physBase - (pointerBytes toks).length

/-- All that is pushed before the return address. -/
def imageBytes (toks : List (List UInt8)) : List UInt8 :=
  Memory.wordBytes toks.length ++ (Memory.wordBytes (argvAddress toks) ++ pointerBytes toks)

theorem length_pointerBytes (toks : List (List UInt8)) : (pointerBytes toks).length + 12 =
    stackSize toks := by
  have hwords : ∀ l : List Nat, (l.flatMap Memory.wordBytes).length = 4 * l.length := by
    intro l
    induction l with
    | nil => rfl
    | cons a l ih =>
      rw [List.flatMap_cons, List.length_append, ih, Memory.length_wordBytes, List.length_cons]
      omega
  unfold pointerBytes stackSize
  rw [List.length_append, hwords, List.length_append, List.length_append, length_pointers,
    List.length_replicate, List.length_singleton]
  dsimp only
  omega

theorem length_imageBytes (toks : List (List UInt8)) : (imageBytes toks).length + 4 =
    stackSize toks := by
  have h := length_pointerBytes toks
  unfold imageBytes
  rw [List.length_append, List.length_append, Memory.length_wordBytes, Memory.length_wordBytes]
  omega

/-- The stack once the arguments are pushed. -/
theorem pushImage_of_fits (names : List UInt8) (hesp : s.esp = physBase)
    (hempty : s.argvector = []) (hvector : s.vectorSize = (tokens names).length + 1)
    (hroom : stackSize (tokens names) ≤ physBase) :
    ∃ s', pushImage names (tokens names).length s = .ok ((), s') ∧
      Image s.memory s' (imageBytes (tokens names)) := by
  have hstart : Image s.memory s [] :=
    ⟨by rw [hesp]; rfl, fun _ => Memory.holds_nil _ _, fun _ _ => rfl⟩
  have hsize := length_pointerBytes (tokens names)
  rw [pushImage, pushArguments_eq (Nat.lt_succ_self _)]
  generalize tokens names = toks at *
  unfold pointerBytes at hsize
  simp only [List.length_append] at hsize
  obtain ⟨s1, hrun1, himage1, hargvector1, hsize1⟩ := hstart.pushArguments toks
    (by rw [List.append_nil]; omega) (by rw [hempty, hvector, List.length_nil]; omega)
  rw [List.append_nil] at himage1
  rw [hempty, List.nil_append, hesp] at hargvector1
  rw [Routine.bind_of_ok hrun1, Routine.bind_of_ok (setArgvector_of_lt
    (by rw [hargvector1, hsize1, hvector, length_pointers]; omega) 0), hargvector1]
  have himage2 : Image s.memory { s1 with argvector := pointers physBase toks ++ [0] }
      (argumentBytes toks) := ⟨himage1.esp, himage1.holds, himage1.below⟩
  generalize hs2 : ({ s1 with argvector := pointers physBase toks ++ [0] } : UserStack) = s2 at *
  have hargvector2 : s2.argvector = pointers physBase toks ++ [0] := by rw [← hs2]
  have halign : s2.esp % 4 = padding (argumentBytes toks).length := by
    have h0 := himage2.esp
    unfold padding physBase at *
    omega
  obtain ⟨s3, hrun3, himage3, hargvector3⟩ := himage2.wordAlign 4 halign
    (by omega) (by rw [List.length_append]; omega)
  rw [hargvector2] at hargvector3
  have htake : s3.argvector.take (toks.length + 1) = pointers physBase toks ++ [0] := by
    rw [hargvector3, List.take_of_length_le (by simp)]
  obtain ⟨s4, hrun4, himage4⟩ := himage3.pushPointers (j := toks.length)
    (by rw [hargvector3]; simp)
    (by rw [htake, List.length_append, List.length_append]; omega)
  rw [htake] at himage4
  change Image s.memory s4 (pointerBytes toks) at himage4
  have hesp4 : s4.esp = argvAddress toks := by
    have h0 := himage4.esp
    unfold argvAddress
    omega
  have hlength := length_pointerBytes toks
  have himage5 := himage4.pushed (Memory.wordBytes (argvAddress toks))
    (by rw [List.length_append, Memory.length_wordBytes]; omega)
  refine ⟨_, ?_, himage5.pushed (Memory.wordBytes toks.length) ?_⟩
  · rw [Routine.bind_of_ok hrun3, Routine.bind_of_ok hrun4, Routine.get_bind_apply, hesp4,
      Routine.bind_of_ok (push_apply _ s4), push_apply]
  · rw [List.length_append, List.length_append, Memory.length_wordBytes, Memory.length_wordBytes]
    omega

/-! ### What the image means -/

/-- The tokens lie where their pointers say. -/
theorem holds_pointers {m : Memory} {low : Nat} (top : Nat) {toks : List (List UInt8)}
    (h : m.Holds low (argumentBytes toks)) (htop : low + (argumentBytes toks).length = top)
    (i : Nat) (hi : i < toks.length) :
    ∃ p, (pointers top toks)[i]? = some p ∧ low ≤ p ∧ p + (toks[i].length + 1) ≤ top ∧
      m.Holds p (toks[i] ++ [0]) := by
  induction toks generalizing top i with
  | nil => nomatch hi
  | cons token rest ih =>
    rw [argumentBytes, Memory.holds_append] at h
    rw [argumentBytes, List.length_append, List.length_append, List.length_singleton] at htop
    have hp : top - (token.length + 1) = low + (argumentBytes rest).length := by omega
    rw [pointers, hp]
    cases i with
    | zero => exact ⟨_, rfl, by omega, by rw [List.getElem_cons_zero]; omega, h.2⟩
    | succ i =>
      obtain ⟨p, hget, hlow, hhigh, hholds⟩ := ih _ h.1 rfl i (by simpa using hi)
      exact ⟨p, hget, hlow, by rw [List.getElem_cons_succ]; omega, hholds⟩

/-- The words of a list lie one after another. -/
theorem word_flatMap {m : Memory} {a : Nat} {l : List Nat}
    (h : m.Holds a (l.flatMap Memory.wordBytes)) {i n : Nat} (hi : l[i]? = some n) (hn : n < 2 ^ 32) : m.word (a + 4 * i) = n := by
  induction l generalizing a i with
  | nil => nomatch hi
  | cons b l ih =>
    rw [List.flatMap_cons, Memory.holds_append] at h
    cases i with
    | zero =>
      cases hi
      exact Memory.word_of_holds h.1 hn
    | succ i =>
      have hword := ih h.2 hi
      rwa [Memory.length_wordBytes, Nat.add_assoc, Nat.add_comm 4, ← Nat.mul_succ] at hword

/-- The image is the stack that `main` expects. -/
theorem argumentStack_of_holds {m : Memory} {esp : Nat} {toks : List (List UInt8)}
    (hargc : toks.length ≤ argMax) (hbottom : stackPage ≤ esp)
    (hesp : esp + stackSize toks = physBase) (hreturn : m.word esp = 0)
    (h : m.Holds (esp + 4) (imageBytes toks)) : ArgumentStack toks esp (argvAddress toks) m := by
  have hsize := length_pointerBytes toks
  have hargv : argvAddress toks = esp + 12 := by
    unfold argvAddress
    omega
  unfold imageBytes at h
  rw [Memory.holds_append, Memory.holds_append, Memory.length_wordBytes,
    Memory.length_wordBytes] at h
  obtain ⟨hcount, hvector, hpointers⟩ := h
  unfold pointerBytes at hpointers
  rw [Memory.holds_append, Memory.holds_append] at hpointers
  obtain ⟨hwords, -, hbytes⟩ := hpointers
  rw [show esp + 4 + 4 + 4 = argvAddress toks by omega] at hwords hbytes
  have htop := hsize
  unfold pointerBytes at htop
  simp only [List.length_append] at htop
  have hwords' : stackSize toks % 4 = 0 ∧ 4 * (toks.length + 1) + 12 ≤ stackSize toks := by
    unfold stackSize padding
    dsimp only
    omega
  have harguments := holds_pointers physBase hbytes (by omega)
  refine ⟨⟨?_, ?_⟩, ⟨hbottom, by omega⟩, ⟨by omega, by omega⟩, hreturn,
    Memory.word_of_holds hcount ?_, ?_, word_flatMap hwords ?_ (by omega), fun i hi => ?_⟩
  · unfold physBase at hesp
    omega
  · unfold physBase at hesp
    omega
  · unfold argMax at hargc
    omega
  · refine Memory.word_of_holds (show m.Holds (esp + 8) _ from hvector) ?_
    unfold physBase at hesp
    omega
  · rw [List.getElem?_append_right (Nat.le_of_eq (length_pointers ..)), length_pointers,
      Nat.sub_self]
    rfl
  · obtain ⟨p, hget, hlow, hhigh, hholds⟩ := harguments i hi
    have hword : m.word (argvAddress toks + 4 * i) = p := by
      refine word_flatMap hwords ?_ ?_
      · rw [List.getElem?_append_left (by rw [length_pointers]; exact hi), hget]
      · unfold physBase at hhigh
        omega
    rw [hword]
    exact ⟨by omega, hhigh, hholds⟩

/-! ### The whole of `setup_stack` -/

variable {resources : StackResources} {kernelPage : Memory} {cmd : CommandLine}

theorem stackSize_le {names : List UInt8} (hfits : names.length < 2 ^ 30)
    (hcount : (tokens names).length ≤ argMax) : stackSize (tokens names) ≤ 2 ^ 31 := by
  have hbytes := length_argumentBytes_le names
  unfold stackSize padding argMax at *
  dsimp only
  omega

/-- The run from the installed page on, with every block allocated. -/
theorem pushAll_eq (hvector : resources.vectorAllocated = true) {names : List UInt8}
    (hcount : (tokens names).length ≤ argMax) (hfits : names.length < 2 ^ 30)
    (hesp : s.esp = physBase) : ∃ s', Image s.memory s' (imageBytes (tokens names)) ∧
      pushAll resources names s = .ok (true, s'.pushed (Memory.wordBytes 0)) := by
  have hcounted := countArguments_eq (Nat.lt_succ_self names.length) (Nat.zero_le argMax) s
  rw [Nat.zero_add, Nat.min_eq_right hcount] at hcounted
  obtain ⟨s', hrun, himage⟩ := pushImage_of_fits names
    (s := { s with argvector := [], vectorSize := (tokens names).length + 1 }) hesp rfl rfl
    (Nat.le_trans (stackSize_le hfits hcount) (by decide))
  refine ⟨s', himage, ?_⟩
  rw [pushAll, Routine.bind_of_ok hcounted, if_pos hvector, Routine.modify_bind_apply,
    Routine.bind_of_ok hrun]
  rfl

/-- There are more tokens than the first loop counts. -/
theorem pushAll_overflow (hvector : resources.vectorAllocated = true) {names : List UInt8}
    (hcount : argMax < (tokens names).length) :
    pushAll resources names s = .error (.undefined "argvector[j]") := by
  have hcounted := countArguments_eq (Nat.lt_succ_self names.length) (Nat.zero_le argMax) s
  rw [Nat.zero_add, Nat.min_eq_left (Nat.le_of_lt hcount)] at hcounted
  rw [pushAll, Routine.bind_of_ok hcounted, if_pos hvector, Routine.modify_bind_apply, pushImage,
    pushArguments_eq (Nat.lt_succ_self _)]
  apply Routine.bind_of_error
  rw [← bind_assoc]
  apply Routine.bind_of_error
  refine pushArguments_overflow ?_
  simp only [List.length_nil]
  omega

theorem pushAll_noVector (hvector : resources.vectorAllocated = false) {names : List UInt8} :
    pushAll resources names s = .ok (false, s) := by
  have hcounted := countArguments_eq (Nat.lt_succ_self names.length) (Nat.zero_le argMax) s
  rw [pushAll, Routine.bind_of_ok hcounted, if_neg (by rw [hvector]; nofun)]
  rfl

/-- The word at the bottom of the page is that of the frame as long as nothing was pushed there. -/
theorem word_installed (s : UserStack) (kernelPage : Memory) :
    (s.installed kernelPage).memory.word stackPage = kernelPage.word 0 := by
  rw [Memory.word, Memory.word]
  have hbyte : ∀ i < 4, (s.installed kernelPage).memory (stackPage + i) = kernelPage (0 + i) := by
    intro i hi
    show (if stackPage ≤ stackPage + i ∧ stackPage + i < physBase then _ else _) = _
    rw [if_pos (by unfold stackPage physBase pgSize; omega), Nat.add_sub_cancel_left,
      Nat.zero_add]
  have h0 := hbyte 0 (by omega)
  rw [Nat.add_zero, Nat.add_zero] at h0
  rw [h0, hbyte 1 (by omega), hbyte 2 (by omega), hbyte 3 (by omega)]

/-- The image is complete: the return address was pushed, or was there. -/
theorem argumentStack_iff {toks : List (List UInt8)} {s' : UserStack} (hargc : toks.length ≤ argMax)
    (himage : Image (s.installed kernelPage).memory s' (imageBytes toks))
    (hfits : stackSize toks ≤ pgSize) :
    (∃ argv, ArgumentStack toks (s'.pushed (Memory.wordBytes 0)).esp argv
      (s'.pushed (Memory.wordBytes 0)).memory) ↔
        stackSize toks < pgSize ∨ kernelPage.word 0 = 0 := by
  have hlength := length_imageBytes toks
  have hall : (Memory.wordBytes 0 ++ imageBytes toks).length = stackSize toks := by
    rw [List.length_append, Memory.length_wordBytes]
    omega
  have hroom : (Memory.wordBytes 0 ++ imageBytes toks).length ≤ physBase := by
    unfold pgSize physBase at *
    omega
  have hesp' := himage.esp_pushed _ hroom
  have hpushed := himage.pushed _ hroom
  have hesp := himage.esp
  rw [hall] at hesp'
  have hmemory : (s'.pushed (Memory.wordBytes 0)).memory =
      if stackPage < (s'.pushed (Memory.wordBytes 0)).esp then
        s'.memory.store (s'.pushed (Memory.wordBytes 0)).esp (Memory.wordBytes 0)
      else s'.memory := rfl
  have hbottom : stackPage ≤ (s'.pushed (Memory.wordBytes 0)).esp := by
    unfold stackPage
    omega
  by_cases hlt : stackSize toks < pgSize
  · have hholds := hpushed.holds (by rw [hall]; exact hlt)
    rw [Memory.holds_append] at hholds
    exact iff_of_true ⟨_, argumentStack_of_holds hargc hbottom hesp'
      (Memory.word_of_holds hholds.1 (by decide)) hholds.2⟩ (.inl hlt)
  · have hpage : (s'.pushed (Memory.wordBytes 0)).esp = stackPage := by
      unfold stackPage
      omega
    rw [hpage, if_neg (Nat.lt_irrefl _)] at hmemory
    have hbelow : s'.esp = stackPage + 4 := by
      omega
    have hword : (s'.pushed (Memory.wordBytes 0)).memory.word
        (s'.pushed (Memory.wordBytes 0)).esp = kernelPage.word 0 := by
      rw [hmemory, hpage, ← word_installed s kernelPage]
      exact Memory.word_congr fun i hi => himage.below _ (by omega)
    constructor
    · rintro ⟨argv, hstack⟩
      exact .inr (hword.symm.trans hstack.returnAddress)
    · rintro (hshort | hzero)
      · exact absurd hshort hlt
      · refine ⟨_, argumentStack_of_holds hargc hbottom hesp' (hword.trans hzero) ?_⟩
        rw [hmemory, hpage, ← hbelow]
        exact himage.holds (by omega)

theorem setupStack_some (hpage : resources.kernelPage = some kernelPage)
    (hinstalls : resources.installs = true) (hcopy : resources.copyAllocated = true) :
    setupStack resources cmd s = pushAll resources cmd.bytes (s.installed kernelPage) := by
  rw [setupStack, hpage]
  dsimp only
  rw [if_pos hinstalls, Routine.modify_bind_apply, if_pos hcopy]

/-- `setup_stack` of whose resources something is missing. -/
theorem setupStack_fails (cmd : CommandLine) (s : UserStack) (h : resources.kernelPage = none ∨ resources.installs = false ∨
    resources.copyAllocated = false ∨ resources.vectorAllocated = false) :
    ∃ s', setupStack resources cmd s = .ok (false, s') := by
  cases hpage : resources.kernelPage with
  | none => exact ⟨s, by rw [setupStack, hpage]; rfl⟩
  | some kernelPage =>
    cases hinstalls : resources.installs with
    | false => exact ⟨s, by rw [setupStack, hpage, hinstalls]; rfl⟩
    | true =>
      cases hcopy : resources.copyAllocated with
      | false => exact ⟨_, by rw [setupStack, hpage, hinstalls, hcopy]; rfl⟩
      | true =>
        rw [hpage, hinstalls, hcopy] at h
        have hvector : resources.vectorAllocated = false := by simpa using h
        exact ⟨_, (setupStack_some hpage hinstalls hcopy).trans (pushAll_noVector hvector)⟩

end UserStack

/-- Every resource is there, with the bytes `kernelPage` in the frame. -/
structure StackResources.Complete (resources : StackResources) (kernelPage : Memory) : Prop where
  kernelPage : resources.kernelPage = some kernelPage
  installs : resources.installs = true
  copyAllocated : resources.copyAllocated = true
  vectorAllocated : resources.vectorAllocated = true

/-- `setup_stack` does what it is to do exactly if a resource is missing, or the command line has at
most 100 tokens and its stack fits in the page, and where it fills the page the frame starts with
a zero word. -/
theorem setup_stack_iff (resources : StackResources) (cmd : CommandLine) (s : UserStack) :
    SetsUpStack cmd (UserStack.setupStack resources cmd s) ↔
      ∀ kernelPage, resources.Complete kernelPage → (tokens cmd.bytes).length ≤ argMax ∧
        (stackSize (tokens cmd.bytes) < pgSize ∨
          stackSize (tokens cmd.bytes) = pgSize ∧ kernelPage.word 0 = 0) := by
  constructor
  · rintro ⟨value, s', hrun, hstack, hlarge⟩ kernelPage ⟨hpage, hinstalls, hcopy, hvector⟩
    rw [UserStack.setupStack_some hpage hinstalls hcopy] at hrun
    by_cases hcount : (tokens cmd.bytes).length ≤ argMax
    · obtain ⟨s1, himage, hpushed⟩ := UserStack.pushAll_eq (s := s.installed kernelPage) hvector
        hcount cmd.fits rfl
      cases hpushed.symm.trans hrun
      have hfits : stackSize (tokens cmd.bytes) ≤ pgSize := by
        by_contra hlt
        exact absurd (hlarge (by omega)) nofun
      refine ⟨hcount, ?_⟩
      rcases (UserStack.argumentStack_iff hcount himage hfits).mp (hstack rfl) with hlt | hzero
      · exact .inl hlt
      · rcases Nat.lt_or_eq_of_le hfits with hlt | heq
        · exact .inl hlt
        · exact .inr ⟨heq, hzero⟩
    · rw [UserStack.pushAll_overflow hvector (by omega)] at hrun
      cases hrun
  · intro h
    by_cases hmissing : resources.kernelPage = none ∨ resources.installs = false ∨
      resources.copyAllocated = false ∨ resources.vectorAllocated = false
    · obtain ⟨s', hrun⟩ := UserStack.setupStack_fails cmd s hmissing
      exact ⟨false, s', hrun, nofun, fun _ => rfl⟩
    · simp only [not_or, Bool.not_eq_false] at hmissing
      obtain ⟨hsome, hinstalls, hcopy, hvector⟩ := hmissing
      obtain ⟨kernelPage, hpage⟩ := Option.ne_none_iff_exists'.mp hsome
      obtain ⟨hcount, hfits⟩ := h kernelPage ⟨hpage, hinstalls, hcopy, hvector⟩
      obtain ⟨s1, himage, hpushed⟩ := UserStack.pushAll_eq (s := s.installed kernelPage) hvector
        hcount cmd.fits rfl
      refine ⟨true, _, (UserStack.setupStack_some hpage hinstalls hcopy).trans hpushed,
        fun _ => ?_, fun hlarge => ?_⟩
      · refine (UserStack.argumentStack_iff hcount himage ?_).mpr ?_
        · omega
        · exact hfits.imp_right And.right
      · omega

/-- The command line `a a … a` with 101 tokens. -/
def manyArguments : CommandLine where
  bytes := (List.replicate 101 [0x61, space]).flatten
  noNull := by decide +kernel
  fits := by decide +kernel

/-- A zeroed frame, and every other resource. -/
def zeroedFrame : StackResources := ⟨some fun _ => 0, true, true, true⟩

/-- The second loop writes past the end of `argvector`. -/
theorem setup_stack_overflows (s : UserStack) :
    UserStack.setupStack zeroedFrame manyArguments s = .error (.undefined "argvector[j]") := by
  rw [UserStack.setupStack_some (show zeroedFrame.kernelPage = some fun _ => 0 from rfl) rfl rfl]
  exact UserStack.pushAll_overflow rfl (by decide +kernel)

theorem setup_stack_manyArguments :
    ¬ SetsUpStack manyArguments
      (UserStack.setupStack zeroedFrame manyArguments ⟨0, fun _ => 0, [], 0⟩) := by
  rintro ⟨value, s', hrun, -⟩
  rw [setup_stack_overflows] at hrun
  cases hrun

end Pintos
