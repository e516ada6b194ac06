import Pintos.Filesys.OpenFiles
import Pintos.Library.Weakest
import Mathlib.Data.List.Nodup

/-! The list of descriptors, which all processes share.  `Table` is the list as the links spell it;
a descriptor is found by its owner only, and a process that exits takes out its own, while it walks
the list backwards. -/

namespace Pintos

namespace OpenFiles

open Routine

/-! ### What leaves the descriptors alone -/

/-- The list of descriptors is the same; memory may have been handed out. -/
structure SameTable (s s' : State) : Prop where
  openFiles : s'.openFiles = s.openFiles
  fds : s'.fds = s.fds
  fdCount : s'.fdCount = s.fdCount
  exited : s'.exited = s.exited
  nextPtr : s.nextPtr ≤ s'.nextPtr

instance : IsPreorder State SameTable where
  refl _ := ⟨rfl, rfl, rfl, rfl, le_rfl⟩
  trans _ _ _ h h' := ⟨h'.openFiles.trans h.openFiles, h'.fds.trans h.fds,
    h'.fdCount.trans h.fdCount, h'.exited.trans h.exited, h.nextPtr.trans h'.nextPtr⟩

variable {calls : FreeMapCalls} {input : Nat → UInt8} {current : Nat}

theorem onFs_sameTable {α : Type} (m : FsRoutine α) : Keeps SameTable (onFs m) := by
  intro s a t hrun
  unfold onFs at hrun
  split at hrun
  · cases hrun
    exact ⟨rfl, rfl, rfl, rfl, le_rfl⟩
  · nomatch hrun

theorem getFile_sameTable (f : Nat) : Keeps SameTable (getFile f) := by
  refine Keeps.get.bind fun s => ?_
  split
  · exact Keeps.pure
  · exact Keeps.throw

theorem getDir_sameTable (d : Nat) : Keeps SameTable (getDir d) := by
  refine Keeps.get.bind fun s => ?_
  split
  · exact Keeps.pure
  · exact Keeps.throw

theorem getFd_sameTable (p : Nat) : Keeps SameTable (getFd p) := by
  refine Keeps.get.bind fun s => ?_
  split
  · exact Keeps.pure
  · exact Keeps.throw

theorem setFile_sameTable (f : Nat) (file : Option File) : Keeps SameTable (setFile f file) :=
  Keeps.modify fun _ => ⟨rfl, rfl, rfl, rfl, le_rfl⟩

theorem setDir_sameTable (d : Nat) (dir : Dir) : Keeps SameTable (setDir d dir) :=
  Keeps.modify fun _ => ⟨rfl, rfl, rfl, rfl, le_rfl⟩

theorem newPtr_sameTable : Keeps SameTable newPtr := by
  intro s a t hrun
  cases hrun
  exact ⟨rfl, rfl, rfl, rfl, Nat.le_succ _⟩

theorem fileOpen_sameTable (inode : Nat) : Keeps SameTable (fileOpen inode) :=
  newPtr_sameTable.bind fun _ => (setFile_sameTable _ _).bind fun _ => Keeps.pure

theorem fileReopen_sameTable (f : Nat) : Keeps SameTable (fileReopen f) :=
  (getFile_sameTable f).bind fun _ => (onFs_sameTable _).bind fun _ => fileOpen_sameTable _

theorem fileDenyWrite_sameTable (f : Nat) : Keeps SameTable (fileDenyWrite f) := by
  refine (getFile_sameTable f).bind fun file => Keeps.ite (fun _ => Keeps.pure) fun _ => ?_
  exact (setFile_sameTable _ _).bind fun _ => onFs_sameTable _

theorem fileAllowWrite_sameTable (f : Nat) : Keeps SameTable (fileAllowWrite f) := by
  refine (getFile_sameTable f).bind fun file => Keeps.ite (fun _ => ?_) fun _ => Keeps.pure
  exact (setFile_sameTable _ _).bind fun _ => onFs_sameTable _

theorem fileLength_sameTable (file : Option Nat) : Keeps SameTable (fileLength file) := by
  cases file with
  | none => exact Keeps.throw
  | some f => exact (getFile_sameTable f).bind fun _ => onFs_sameTable _

theorem fileSeek_sameTable (newPos : Int) (file : Option Nat) :
    Keeps SameTable (fileSeek newPos file) := by
  cases file with
  | none => exact Keeps.throw
  | some f =>
    refine Keeps.check fun _ => ?_
    exact (getFile_sameTable f).bind fun _ => setFile_sameTable _ _

theorem fileTell_sameTable (file : Option Nat) : Keeps SameTable (fileTell file) := by
  cases file with
  | none => exact Keeps.throw
  | some f => exact (getFile_sameTable f).bind fun _ => Keeps.pure

theorem fileClose_sameTable (file : Option Nat) : Keeps SameTable (fileClose calls file) := by
  cases file with
  | none => exact Keeps.pure
  | some f =>
    refine (fileAllowWrite_sameTable f).bind fun _ => (getFile_sameTable f).bind fun file => ?_
    exact (onFs_sameTable _).bind fun _ => setFile_sameTable _ _

theorem fileRead_sameTable (size : Int) (file : Option Nat) :
    Keeps SameTable (fileRead calls size file) := by
  cases file with
  | none => exact Keeps.throw
  | some f =>
    refine (getFile_sameTable f).bind fun file => (onFs_sameTable _).bind fun bytes => ?_
    exact (setFile_sameTable _ _).bind fun _ => Keeps.pure

theorem fileWrite_sameTable (buffer : List UInt8) (file : Option Nat) :
    Keeps SameTable (fileWrite calls buffer file) := by
  cases file with
  | none => exact Keeps.throw
  | some f =>
    refine (getFile_sameTable f).bind fun file => (onFs_sameTable _).bind fun bytesWritten => ?_
    exact (setFile_sameTable _ _).bind fun _ => Keeps.pure

theorem closeOpened_sameTable (fd : FileDescriptor) : Keeps SameTable (closeOpened calls fd) := by
  refine Keeps.ite (fun _ => ?_) fun _ => fileClose_sameTable _
  cases fd.openDir with
  | none => exact Keeps.throw
  | some d =>
    exact (getDir_sameTable d).bind fun dir => Keeps.modify fun _ => ⟨rfl, rfl, rfl, rfl, le_rfl⟩

theorem unmapFile_sameTable (f : Nat) (pages : List (Int × List UInt8)) :
    Keeps SameTable (unmapFile calls f pages) := by
  refine (Keeps.forM fun page _ => ?_).bind fun _ => fileClose_sameTable _
  exact (fileSeek_sameTable _ _).bind fun _ => (fileWrite_sameTable _ _).bind fun _ => Keeps.pure

theorem listPrev_sameTable (e : Elem) : Keeps SameTable (listPrev e) := by
  refine Keeps.get.bind fun s => ?_
  split
  · exact Keeps.pure
  · exact Keeps.throw

theorem getFileDescriptorFrom_sameTable (fdNum : Int) (fuel : Nat) (e : Elem) :
    Keeps SameTable (getFileDescriptorFrom current fdNum fuel e) := by
  induction fuel generalizing e with
  | zero => exact Keeps.throw
  | succ fuel ih =>
    refine (listPrev_sameTable e).bind fun e' => ?_
    cases e' with
    | head => exact Keeps.pure
    | tail => exact Keeps.throw
    | fd p =>
      refine (getFd_sameTable p).bind fun fd => ?_
      exact Keeps.ite (fun _ => Keeps.pure) fun _ => ih _

/-- A call that looks its descriptor up first. -/
theorem lookup_sameTable {α : Type} {fdNum : Int} {f : Option Nat → OpenRoutine α}
    (hnone : Keeps SameTable (f none)) (hsome : ∀ p, Keeps SameTable (f (some p))) :
    Keeps SameTable (getFileDescriptor current fdNum >>= f) := by
  have hget : Keeps SameTable (getFileDescriptor current fdNum) :=
    Keeps.get.bind fun s => getFileDescriptorFrom_sameTable fdNum _ _
  refine hget.bind fun r => ?_
  cases r with
  | none => exact hnone
  | some p => exact hsome p

theorem filelengthOpenFile_sameTable (fdNum : Int) :
    Keeps SameTable (filelengthOpenFile current fdNum) :=
  lookup_sameTable Keeps.pure fun p =>
    (getFd_sameTable p).bind fun _ => fileLength_sameTable _

theorem consoleLoop_sameTable (endPtr fuel start result : Nat) :
    Keeps SameTable (consoleLoop input current endPtr fuel start result) := by
  induction fuel generalizing start result with
  | zero => exact Keeps.throw
  | succ fuel ih =>
    refine Keeps.ite (fun _ => ?_) fun _ => Keeps.pure
    refine Keeps.get_bind fun s r t hrun => ?_
    rw [set_bind_apply] at hrun
    split_ifs at hrun with hc
    · have hrest := ih _ _ _ _ _ hrun
      exact ⟨hrest.openFiles, hrest.fds, hrest.fdCount, hrest.exited, hrest.nextPtr⟩
    · cases hrun
      exact ⟨rfl, rfl, rfl, rfl, le_rfl⟩

theorem readOpenFile_sameTable (fdNum : Int) (buffer length : Nat) :
    Keeps SameTable (readOpenFile calls input current fdNum buffer length) := by
  refine Keeps.ite (fun _ => ?_) fun _ => Keeps.ite (fun _ => Keeps.pure) fun _ => ?_
  · refine (consoleLoop_sameTable _ _ _ _).bind fun r => ?_
    exact (Keeps.modify fun _ => ⟨rfl, rfl, rfl, rfl, le_rfl⟩).bind fun _ => Keeps.pure
  · refine lookup_sameTable Keeps.pure fun p => (getFd_sameTable p).bind fun fd => ?_
    refine Keeps.ite (fun _ => Keeps.pure) fun _ => (fileRead_sameTable _ _).bind fun bytes => ?_
    exact (Keeps.modify fun _ => ⟨rfl, rfl, rfl, rfl, le_rfl⟩).bind fun _ => Keeps.pure

theorem writeOpenFile_sameTable (fdNum : Int) (buffer length : Nat) (valid : Bool) :
    Keeps SameTable (writeOpenFile calls current fdNum buffer length valid) := by
  refine Keeps.ite (fun _ => Keeps.pure) fun _ => Keeps.ite (fun _ => Keeps.pure) fun _ => ?_
  refine lookup_sameTable Keeps.pure fun p => (getFd_sameTable p).bind fun fd => ?_
  refine Keeps.ite (fun _ => Keeps.pure) fun _ => Keeps.get.bind fun s => ?_
  exact (fileWrite_sameTable _ _).bind fun _ => Keeps.pure

theorem seekOpenFile_sameTable (fdNum : Int) (position : Nat) :
    Keeps SameTable (seekOpenFile current fdNum position) :=
  lookup_sameTable Keeps.pure fun p => (getFd_sameTable p).bind fun _ => fileSeek_sameTable _ _

theorem tellOpenFile_sameTable (fdNum : Int) : Keeps SameTable (tellOpenFile current fdNum) :=
  lookup_sameTable Keeps.pure fun p => (getFd_sameTable p).bind fun _ => fileTell_sameTable _

theorem mapFile_sameTable (mapId : Int) (f : Nat) : Keeps SameTable (mapFile current mapId f) := by
  refine Keeps.ite (fun _ => ?_) fun _ => Keeps.pure
  exact (Keeps.modify fun _ => ⟨rfl, rfl, rfl, rfl, le_rfl⟩).bind fun _ => Keeps.pure

theorem memoryMapFile_sameTable (fdNum : Int) (startPage : Nat) (mapId : Int) :
    Keeps SameTable (memoryMapFile current fdNum startPage (mapFile current mapId)) := by
  refine lookup_sameTable Keeps.pure fun p => (getFd_sameTable p).bind fun fd => ?_
  refine Keeps.ite (fun _ => Keeps.pure) fun _ => ?_
  cases fd.openFile with
  | none => exact Keeps.throw
  | some f => exact (fileReopen_sameTable f).bind fun rf => mapFile_sameTable mapId rf

theorem dirReaddirFrom_sameTable (d fuel : Nat) : Keeps SameTable (dirReaddirFrom calls d fuel) := by
  induction fuel with
  | zero => exact Keeps.throw
  | succ fuel ih =>
    refine (getDir_sameTable d).bind fun dir => (onFs_sameTable _).bind fun e => ?_
    refine Keeps.ite (fun _ => (setDir_sameTable _ _).bind fun _ => ?_) fun _ => Keeps.pure
    exact Keeps.ite (fun _ => Keeps.pure) fun _ => ih

theorem readDirectory_sameTable (fdNum : Int) (valid : Bool) :
    Keeps SameTable (readDirectory calls current fdNum valid) := by
  refine lookup_sameTable Keeps.pure fun p => (getFd_sameTable p).bind fun fd => ?_
  refine Keeps.ite (fun _ => Keeps.pure) fun _ => ?_
  cases fd.openDir with
  | none => exact Keeps.throw
  | some d => exact dirReaddirFrom_sameTable d _

theorem fdInodeNumber_sameTable (fdNum : Int) : Keeps SameTable (fdInodeNumber current fdNum) := by
  refine lookup_sameTable Keeps.pure fun p => (getFd_sameTable p).bind fun fd => ?_
  split
  · exact (getFile_sameTable _).bind fun _ => Keeps.pure
  · exact (getDir_sameTable _).bind fun _ => Keeps.pure
  · exact Keeps.pure

theorem loadStep_sameTable (f : Nat) (step : LoadStep) : Keeps SameTable (step.exec calls f) := by
  cases step with
  | fileLength => exact (fileLength_sameTable _).map
  | fileSeek newPos => exact fileSeek_sameTable newPos (some f)
  | fileRead size => exact (fileRead_sameTable _ _).map

theorem load_sameTable (executable : Option Nat) (steps : List LoadStep) :
    Keeps SameTable (load calls current executable steps) := by
  cases executable with
  | none => exact Keeps.pure
  | some sector =>
    refine (onFs_sameTable _).bind fun _ => (fileOpen_sameTable sector).bind fun f => ?_
    refine (Keeps.modify fun _ => ⟨rfl, rfl, rfl, rfl, le_rfl⟩).bind fun _ => ?_
    refine (fileDenyWrite_sameTable f).bind fun _ => ?_
    exact (Keeps.forM fun step _ => loadStep_sameTable f step).bind fun _ => Keeps.pure

/-- The calls that put descriptors in the list or take them out. -/
def Call.changesTable : Call → Bool
  | .openFileOrDir _ | .closeOpenFileOrDir _ | .threadExit _ => true
  | _ => false

theorem exec_sameTable {call : Call} (h : call.changesTable = false) :
    Keeps SameTable (exec calls input (current, call)) := by
  refine Keeps.get.bind fun s => Keeps.ite (fun _ => Keeps.pure) fun _ => ?_
  cases call with
  | openFileOrDir | closeOpenFileOrDir | threadExit => nomatch h
  | filelengthOpenFile fdNum => exact filelengthOpenFile_sameTable fdNum
  | readOpenFile fdNum buffer length => exact readOpenFile_sameTable fdNum buffer length
  | writeOpenFile fdNum buffer length valid =>
    exact writeOpenFile_sameTable fdNum buffer length valid
  | seekOpenFile fdNum position => exact (seekOpenFile_sameTable fdNum position).map
  | tellOpenFile fdNum => exact tellOpenFile_sameTable fdNum
  | memoryMapFile fdNum startPage mapId => exact memoryMapFile_sameTable fdNum startPage mapId
  | readDirectory fdNum valid => exact (readDirectory_sameTable fdNum valid).map
  | fdInodeNumber fdNum => exact fdInodeNumber_sameTable fdNum
  | load executable steps => exact (load_sameTable executable steps).map
  | inodeOpen | inodeClose | inodeReadAt => exact (onFs_sameTable _).map

/-! ### Calls that returned -/

section

variable {s s' : State} {f p : Nat} {file : File}

theorem getFile_ok (h : getFile f s = .ok (file, s')) : s' = s ∧ s.files f = some file := by
  rw [getFile, get_bind_apply] at h
  cases hf : s.files f with
  | none =>
    rw [hf] at h
    nomatch h
  | some file' =>
    rw [hf] at h
    cases h
    exact ⟨rfl, rfl⟩

theorem getFd_ok {fd : FileDescriptor} (h : getFd p s = .ok (fd, s')) :
    s' = s ∧ s.fds p = some fd := by
  rw [getFd, get_bind_apply] at h
  cases hp : s.fds p with
  | none =>
    rw [hp] at h
    nomatch h
  | some fd' =>
    rw [hp] at h
    cases h
    exact ⟨rfl, rfl⟩

theorem onFs_ok {α : Type} {m : FsRoutine α} {a : α} (h : onFs m s = .ok (a, s')) :
    ∃ fs', m s.fs = .ok (a, fs') ∧ s' = { s with fs := fs' } := by
  unfold onFs at h
  split at h
  · rename_i a' fs' hok
    cases h
    exact ⟨fs', hok, rfl⟩
  · nomatch h

/-- `get_file_descriptor` only looks. -/
theorem getFileDescriptor_state (fdNum : Int) :
    Keeps Eq (getFileDescriptor current fdNum) := by
  have hlist : ∀ e, Keeps Eq (listPrev e) := fun e => Keeps.get.bind fun s => by
    split
    · exact Keeps.pure
    · exact Keeps.throw
  have hfd : ∀ p, Keeps Eq (getFd p) := fun p => Keeps.get.bind fun s => by
    split
    · exact Keeps.pure
    · exact Keeps.throw
  have hfrom : ∀ fuel e, Keeps Eq (getFileDescriptorFrom current fdNum fuel e) := by
    intro fuel
    induction fuel with
    | zero => exact fun _ => Keeps.throw
    | succ fuel ih =>
      refine fun e => (hlist e).bind fun e' => ?_
      cases e' with
      | head => exact Keeps.pure
      | tail => exact Keeps.throw
      | fd p => exact (hfd p).bind fun fd => Keeps.ite (fun _ => Keeps.pure) fun _ => ih _
  exact Keeps.get.bind fun s => hfrom _ _

end

/-! ### The list -/

/-- The descriptors at `l` are in the list, in this order. -/
structure State.Table (s : State) (l : List Nat) : Prop where
  spells : s.openFiles.Spells (Elem.head :: (l.map Elem.fd ++ [Elem.tail]))
  fds : ∀ p ∈ l, ∃ fd, s.fds p = some fd
  lt : ∀ p ∈ l, p < s.nextPtr

/-- The first element of the descriptors `l`, and what follows it. -/
def firstElem : List Nat → Elem
  | [] => .tail
  | p :: _ => .fd p

def restElems : List Nat → List Elem
  | [] => []
  | _ :: l => l.map Elem.fd ++ [Elem.tail]

theorem firstElem_restElems (l : List Nat) :
    l.map Elem.fd ++ [Elem.tail] = firstElem l :: restElems l := by
  cases l <;> rfl

/-- The descriptor at `p` has the number and the owner. -/
def State.isFd (s : State) (current : Nat) (fdNum : Int) (p : Nat) : Bool :=
  (s.fds p).any fun fd => fd.fdNum = fdNum ∧ fd.owner = current

/-- The descriptor at `p` has the owner. -/
def State.isOwned (s : State) (current p : Nat) : Bool :=
  (s.fds p).any fun fd => fd.owner = current

namespace State.Table

variable {s s' : State} {l xs ys : List Nat} {p : Nat}

theorem nodup (h : s.Table l) : l.Nodup := by
  have hnodup := h.spells.nodup
  rw [List.nodup_cons] at hnodup
  exact (List.nodup_append.mp hnodup.2).1.of_map

theorem length_le (h : s.Table l) : l.length ≤ s.nextPtr := by
  have hsubset : l ⊆ List.range s.nextPtr := fun p hp => List.mem_range.mpr (h.lt p hp)
  have hle := (List.subperm_of_subset h.nodup hsubset).length_le
  rwa [List.length_range] at hle

theorem sameTable (h : s.Table l) (hsame : SameTable s s') : s'.Table l where
  spells := by
    rw [hsame.openFiles]
    exact h.spells
  fds p hp := by
    rw [hsame.fds]
    exact h.fds p hp
  lt p hp := (h.lt p hp).trans_le hsame.nextPtr

/-- A descriptor between two parts of the list. -/
theorem split (h : s.Table (xs ++ p :: ys)) : s.openFiles.Spells
    ((Elem.head :: xs.map Elem.fd) ++ Elem.fd p :: firstElem ys :: restElems ys) := by
  have hspells := h.spells
  rwa [List.map_append, List.map_cons, List.append_assoc, List.cons_append, firstElem_restElems,
    ← List.cons_append] at hspells

theorem prev_eq (h : s.Table (xs ++ p :: ys)) : s.openFiles.prev (firstElem ys) = some (.fd p) :=
  h.split.before.2

theorem next_eq (h : s.Table (xs ++ p :: ys)) : s.openFiles.next (.fd p) = some (firstElem ys) :=
  h.split.before.1

theorem prev_first (h : s.Table ys) : s.openFiles.prev (firstElem ys) = some .head := by
  have hspells := h.spells
  rw [firstElem_restElems, ← List.nil_append (Elem.head :: _)] at hspells
  exact hspells.before.2

theorem next_head (h : s.Table ys) : s.openFiles.next .head = some (firstElem ys) := by
  have hspells := h.spells
  rw [firstElem_restElems, ← List.nil_append (Elem.head :: _)] at hspells
  exact hspells.before.1

end State.Table

theorem listPrev_of_some {s : State} {e e' : Elem} (h : s.openFiles.prev e = some e') :
    listPrev e s = .ok (e', s) := by
  rw [listPrev, get_bind_apply, h]
  rfl

theorem listNext_of_some {s : State} {e e' : Elem} (h : s.openFiles.next e = some e') :
    listNext e s = .ok (e', s) := by
  rw [listNext, get_bind_apply, h]
  rfl

theorem getFd_of_some {s : State} {p : Nat} {fd : FileDescriptor} (h : s.fds p = some fd) :
    getFd p s = .ok (fd, s) := by
  rw [getFd, get_bind_apply, h]
  rfl

/-! ### The search -/

section

variable {s s' : State} {l xs ys : List Nat} {fdNum : Int}

/-- The loop finds the last of the descriptors that it has not passed. -/
theorem getFileDescriptorFrom_eq {fuel : Nat} (h : s.Table (xs ++ ys)) (hfuel : xs.length < fuel) :
    getFileDescriptorFrom current fdNum fuel (firstElem ys) s =
      .ok (xs.reverse.find? (s.isFd current fdNum), s) := by
  induction xs using List.reverseRecOn generalizing ys fuel with
  | nil =>
    obtain ⟨fuel, rfl⟩ := Nat.exists_eq_succ_of_ne_zero (Nat.ne_of_gt hfuel)
    rw [List.nil_append] at h
    rw [getFileDescriptorFrom, bind_of_ok (listPrev_of_some h.prev_first)]
    rfl
  | append_singleton xs p ih =>
    rw [List.length_append, List.length_singleton] at hfuel
    obtain ⟨fuel, rfl⟩ := Nat.exists_eq_succ_of_ne_zero (Nat.ne_zero_of_lt hfuel)
    rw [List.append_assoc, List.singleton_append] at h
    obtain ⟨fd, hfd⟩ := h.fds p (by simp)
    rw [getFileDescriptorFrom, bind_of_ok (listPrev_of_some h.prev_eq)]
    dsimp only
    rw [bind_of_ok (getFd_of_some hfd), List.reverse_append, List.reverse_singleton,
      List.singleton_append]
    by_cases hmatch : fd.fdNum = fdNum ∧ fd.owner = current
    · rw [if_pos hmatch, List.find?_cons_of_pos (by simpa [State.isFd, hfd] using hmatch)]
      rfl
    · rw [if_neg hmatch, List.find?_cons_of_neg (by simpa [State.isFd, hfd] using hmatch)]
      have hrest : getFileDescriptorFrom current fdNum fuel (firstElem (p :: ys)) s = _ :=
        ih h (by omega)
      exact hrest

/-- `get_file_descriptor` finds the last descriptor with the number and the owner. -/
theorem getFileDescriptor_eq (h : s.Table l) (current : Nat) (fdNum : Int) :
    getFileDescriptor current fdNum s = .ok (l.reverse.find? (s.isFd current fdNum), s) := by
  have htable : s.Table (l ++ []) := by rwa [List.append_nil]
  exact getFileDescriptorFrom_eq htable (Nat.lt_succ_of_le h.length_le)

/-! ### Taking descriptors out -/

/-- A descriptor is taken out of the list and freed. -/
def State.remove (s : State) (p : Nat) : State :=
  { s with openFiles := s.openFiles.unlink (.fd p), fds := Function.update s.fds p none }

theorem State.Table.remove {p : Nat} (h : s.Table (xs ++ p :: ys)) :
    (s.remove p).Table (xs ++ ys) where
  spells := by
    obtain ⟨ws, a, hlast⟩ : ∃ ws a, Elem.head :: xs.map Elem.fd = ws ++ [a] := by
      rcases List.eq_nil_or_concat (Elem.head :: xs.map Elem.fd) with hnil | ⟨ws, a, hlast⟩
      · nomatch hnil
      · exact ⟨ws, a, by rw [hlast, List.concat_eq_append]⟩
    have hsplit := h.split
    rw [hlast, List.append_assoc, List.singleton_append] at hsplit
    have hunlink := hsplit.unlink
    rwa [← List.singleton_append, ← List.append_assoc, ← hlast, ← firstElem_restElems,
      List.cons_append, ← List.append_assoc, ← List.map_append] at hunlink
  fds q hq := by
    have hne : q ≠ p := by
      rintro rfl
      have hnodup := h.nodup
      rw [List.nodup_append, List.nodup_cons] at hnodup
      rcases List.mem_append.mp hq with hq | hq
      · exact hnodup.2.2 q hq q List.mem_cons_self rfl
      · exact hnodup.2.1.1 hq
    change ∃ fd, Function.update s.fds p none q = some fd
    rw [Function.update_of_ne hne]
    exact h.fds q (List.mem_append.mpr ((List.mem_append.mp hq).imp_right (List.mem_cons_of_mem _)))
  lt q hq :=
    h.lt q (List.mem_append.mpr ((List.mem_append.mp hq).imp_right (List.mem_cons_of_mem _)))

/-- `list_remove` and `free` of a descriptor. -/
theorem listRemove_freeFd {p : Nat} (h : s.Table (xs ++ p :: ys)) :
    (listRemove (.fd p) >>= fun _ => freeFd p) s = .ok ((), s.remove p) := by
  obtain ⟨q, hq⟩ : ∃ q, s.openFiles.prev (firstElem (p :: ys)) = some q := by
    obtain rfl | ⟨zs, z, rfl⟩ := List.eq_nil_or_concat xs
    · exact ⟨_, h.prev_first⟩
    · rw [List.concat_eq_append, List.append_assoc, List.singleton_append] at h
      exact ⟨_, h.prev_eq⟩
  rw [firstElem] at hq
  have hnext := h.next_eq
  rw [listRemove, bind_assoc, get_bind_apply]
  simp only [hq, hnext]
  rfl

/-- Of the descriptors `xs`, which come before `ys`, those of `current` are gone. -/
structure Swept (current : Nat) (xs ys : List Nat) (s s' : State) : Prop where
  table : s'.Table (xs.filter (fun p => !s.isOwned current p) ++ ys)
  fds : ∀ p ∈ xs.filter (fun p => !s.isOwned current p) ++ ys, s'.fds p = s.fds p
  fdCount : s'.fdCount = s.fdCount
  exited : s'.exited = s.exited

theorem closeAllFrom_swept {fuel : Nat} (h : s.Table (xs ++ ys))
    (hrun : closeAllFrom calls current fuel (firstElem ys) s = .ok ((), s')) :
    Swept current xs ys s s' := by
  induction xs using List.reverseRecOn generalizing s ys fuel with
  | nil =>
    cases fuel with
    | zero => nomatch hrun
    | succ fuel =>
      rw [List.nil_append] at h
      rw [closeAllFrom, bind_of_ok (listPrev_of_some h.prev_first)] at hrun
      cases hrun
      exact ⟨h, fun _ _ => rfl, rfl, rfl⟩
  | append_singleton xs p ih =>
    cases fuel with
    | zero => nomatch hrun
    | succ fuel =>
      rw [List.append_assoc, List.singleton_append] at h
      obtain ⟨fd, hfd⟩ := h.fds p (by simp)
      have hnodup := h.nodup
      rw [List.nodup_append, List.nodup_cons] at hnodup
      rw [closeAllFrom, bind_of_ok (listPrev_of_some h.prev_eq)] at hrun
      dsimp only at hrun
      rw [bind_of_ok (getFd_of_some hfd)] at hrun
      by_cases howner : fd.owner = current
      · -- the walk goes on from the element behind the one that is taken out
        rw [if_pos howner] at hrun
        obtain ⟨⟨⟩, s1, hclose, hrun⟩ := bind_ok.mp hrun
        have hsame := closeOpened_sameTable fd s () s1 hclose
        have h1 := h.sameTable hsame
        have hremove := bind_of_ok (listRemove_freeFd h1)
          fun _ => closeAllFrom calls current fuel (firstElem ys)
        rw [bind_assoc] at hremove
        rw [bind_of_ok (listNext_of_some h1.next_eq), hremove] at hrun
        have hswept := ih h1.remove hrun
        have hgone : s.isOwned current p = true := by simp [State.isOwned, hfd, howner]
        have hothers : ∀ q ∈ xs ++ ys, (s1.remove p).fds q = s.fds q := by
          intro q hq
          have hne : q ≠ p := by
            rintro rfl
            rcases List.mem_append.mp hq with hq | hq
            · exact hnodup.2.2 q hq q List.mem_cons_self rfl
            · exact hnodup.2.1.1 hq
          change Function.update s1.fds p none q = s.fds q
          rw [Function.update_of_ne hne, hsame.fds]
        have hfilter : (xs ++ [p]).filter (fun q => !s.isOwned current q) =
            xs.filter fun q => !(s1.remove p).isOwned current q := by
          rw [List.filter_append, List.filter_cons_of_neg (by simp [hgone]), List.filter_nil,
            List.append_nil]
          refine List.filter_congr fun q hq => ?_
          rw [State.isOwned, State.isOwned, hothers q (List.mem_append_left _ hq)]
        refine ⟨?_, fun q hq => ?_, hswept.fdCount.trans hsame.fdCount,
          hswept.exited.trans hsame.exited⟩
        · rw [hfilter]
          exact hswept.table
        · rw [hfilter] at hq
          rw [hswept.fds q hq, hothers q]
          exact List.mem_append.mpr ((List.mem_append.mp hq).imp_left fun h => (List.mem_filter.mp h).1)
      · rw [if_neg howner] at hrun
        have hrest : Swept current xs (p :: ys) s s' := ih h hrun
        have hstays : s.isOwned current p = false := by simp [State.isOwned, hfd, howner]
        have hfilter : (xs ++ [p]).filter (fun q => !s.isOwned current q) ++ ys =
            xs.filter (fun q => !s.isOwned current q) ++ p :: ys := by
          rw [List.filter_append, List.filter_cons_of_pos (by simp [hstays]), List.filter_nil,
            List.append_assoc, List.singleton_append]
        refine ⟨?_, ?_, hrest.fdCount, hrest.exited⟩
        · rw [hfilter]
          exact hrest.table
        · rw [hfilter]
          exact hrest.fds

/-- `close_all_files_and_dir` takes out the descriptors of the process. -/
theorem closeAllFilesAndDir_swept {pages : Nat → List (Int × List UInt8)} (h : s.Table l)
    (hrun : closeAllFilesAndDir calls current pages s = .ok ((), s')) : Swept current l [] s s' := by
  rw [closeAllFilesAndDir, get_bind_apply] at hrun
  obtain ⟨⟨⟩, s1, hsweep, hrest⟩ := bind_ok.mp hrun
  have htable : s.Table (l ++ []) := by rwa [List.append_nil]
  have hswept := closeAllFrom_swept htable hsweep
  have hkeeps : Keeps SameTable (do
      ((← get).mapped current).forM fun f => unmapFile calls f (pages f)
      modify fun s => { s with mapped := Function.update s.mapped current [] }) := by
    refine Keeps.get.bind fun s => (Keeps.forM fun f _ => unmapFile_sameTable f _).bind fun _ => ?_
    exact Keeps.modify fun _ => ⟨rfl, rfl, rfl, rfl, le_rfl⟩
  have hsame := hkeeps s1 () s' hrest
  refine ⟨hswept.table.sameTable hsame, fun p hp => ?_, hsame.fdCount.trans hswept.fdCount,
    hsame.exited.trans hswept.exited⟩
  rw [hsame.fds]
  exact hswept.fds p hp

end

end OpenFiles

end Pintos
