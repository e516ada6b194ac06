import Pintos.Filesys.DirectoryThreads

/-! Concurrent calls on one directory are atomic as long as every call's finding still holds when it
acts on it. -/

namespace Pintos

namespace DirWorld

variable {calls : DirCalls} {m0 : DirMap} {order order' front back : List Nat} {w w' : DirWorld}
  {c k : Nat} {pc : DirCallPc}

/-- What one round of `lookup` sees. -/
theorem probe_spec {d : Directory} (hnamed : d.Named) (name : DirName) (k : Nat) :
    probe d name.bytes k = none ∧ d.size ≤ k ∨
      (probe d name.bytes k = some none ∧ k < d.size ∧ ∀ v, d.slots k ≠ some (name.bytes, v)) ∨
        ∃ e v, probe d name.bytes k = some (some e) ∧ k < d.size ∧
          d.slots k = some (name.bytes, v) ∧ e.slot = some (name.bytes, v) ∧
            e.inodeSector = v.1 ∧ e.isDir = v.2 := by
  unfold probe
  dsimp only
  by_cases hk : k < d.size
  · right
    have hread := Directory.readFrom_inodeReadAt (e := fun _ => 0) hk
    have hmatch := DirEntry.matches_iff name.noNull name.le (hread.named hnamed hk)
    rw [if_pos (Directory.inodeReadAt_fst.mpr hk)]
    have hslot := hread.slot hk
    generalize (d.inodeReadAt (fun _ => 0) (dirEntrySize * k)).2 = e at hslot hmatch ⊢
    by_cases hfound : (e.inUse && strcmpEq name.bytes e 4) = true
    · rw [if_pos hfound]
      obtain ⟨v, hv⟩ := hmatch.mp hfound
      refine .inr ⟨e, v, rfl, hk, hslot ▸ hv, hv, ?_⟩
      unfold DirEntry.slot at hv
      split at hv
      · have heq : (e.inodeSector, e.isDir) = v := congrArg Prod.snd (Option.some.inj hv)
        exact ⟨congrArg Prod.fst heq, congrArg Prod.snd heq⟩
      · nomatch hv
    · rw [if_neg hfound]
      refine .inl ⟨rfl, hk, fun v hv => hfound (hmatch.mpr ⟨v, ?_⟩)⟩
      rw [hslot, hv]
  · rw [if_neg fun hfull => hk (Directory.inodeReadAt_fst.mp hfull)]
    exact .inl ⟨rfl, Nat.le_of_not_lt hk⟩

/-- No entry with the name of `c` may not be removed. -/
def Unblocked (calls : DirCalls) (w : DirWorld) (c : Nat) : Prop :=
  ∀ j v, w.dir.slots j = some ((calls.name c).bytes, v) → calls.Blocked v = false

/-- `lookup` has not missed the name of `c` in the slots before `k`, unless it was absent at some
point of the order. -/
def Missed (calls : DirCalls) (m0 : DirMap) (order : List Nat) (w : DirWorld) (c k : Nat) : Prop :=
  (∀ j < k, ∀ v, w.dir.slots j ≠ some ((calls.name c).bytes, v)) ∨
    ∃ m, Serial.Passes calls.apply m0 order m ∧ m (calls.name c).bytes = none

/-- What holds of a call by where it stands. -/
def CallOk (calls : DirCalls) (m0 : DirMap) (order : List Nat) (w : DirWorld) (c : Nat) : Prop :=
  match w.pc c with
  | .lockDir | .lookup _ => (calls.request c).added ≠ none
  | .freeSlot k _ | .write k _ => (calls.request c).added ≠ none ∧ k ≤ w.dir.size
  | .pathIsDir k => calls.request c = .remove ∧
    ∀ j < k, ∀ v, w.dir.slots j = some ((calls.name c).bytes, v) → calls.Blocked v = false
  | .pathLookup _ => calls.request c = .remove
  | .lockDirToRemove => calls.request c = .remove ∧ w.Unblocked calls c
  | .removeLookup k => calls.request c = .remove ∧ w.Unblocked calls c ∧
    w.Missed calls m0 order c k
  | .erase k e => calls.request c = .remove ∧ w.Unblocked calls c ∧ k < w.dir.size ∧
    ∃ v, e.slot = some ((calls.name c).bytes, v)
  | .start | .unlockDir _ | .unlockFiles _ | .returned _ => True

/-- The calls that are decided are explained by `order`, and each call is where it may be. -/
structure Inv (calls : DirCalls) (m0 : DirMap) (order : List Nat) (w : DirWorld) : Prop where
  nodup : order.Nodup
  mem : ∀ c, c ∈ order ↔ (w.pc c).result ≠ none
  explains : Serial.Explains calls.apply m0 order fun c => (w.pc c).result
  represents : w.dir.slots.Represents (Serial.after calls.apply m0 order)
  named : w.dir.Named
  calls : ∀ c, w.CallOk calls m0 order c

/-- What holds of a call stays when other calls add and remove entries. -/
theorem CallOk.frame (h : w.CallOk calls m0 order c) (hpc : w'.pc c = w.pc c)
    (hslots : ∀ j v, w'.dir.slots j = some ((calls.name c).bytes, v) →
      w.dir.slots j = some ((calls.name c).bytes, v) ∨ calls.Blocked v = false ∧
        ∃ m, Serial.Passes calls.apply m0 order' m ∧ m (calls.name c).bytes = none)
    (hsize : w.dir.size ≤ w'.dir.size)
    (hpasses : ∀ m, Serial.Passes calls.apply m0 order m → Serial.Passes calls.apply m0 order' m) :
    w'.CallOk calls m0 order' c := by
  have hunblocked : w.Unblocked calls c → w'.Unblocked calls c := by
    intro hold j v hslot
    rcases hslots j v hslot with hsame | hnew
    · exact hold j v hsame
    · exact hnew.1
  have hmissed : ∀ k, w.Missed calls m0 order c k → w'.Missed calls m0 order' c k := by
    rintro k (hnone | ⟨m, hm, habsent⟩)
    · by_cases hall : ∀ j < k, ∀ v, w'.dir.slots j ≠ some ((calls.name c).bytes, v)
      · exact .inl hall
      · simp only [not_forall, Classical.not_not] at hall
        obtain ⟨j, hj, v, hslot⟩ := hall
        rcases hslots j v hslot with hsame | hnew
        · exact absurd hsame (hnone j hj v)
        · exact .inr hnew.2
    · exact .inr ⟨m, hpasses m hm, habsent⟩
  unfold CallOk at h ⊢
  rw [hpc]
  cases hp : w.pc c with
  | lockDir | lookup k | pathLookup k =>
    rw [hp] at h
    exact h
  | freeSlot k e | write k e =>
    rw [hp] at h
    exact ⟨h.1, Nat.le_trans h.2 hsize⟩
  | pathIsDir k =>
    rw [hp] at h
    refine ⟨h.1, fun j hj v hslot => ?_⟩
    rcases hslots j v hslot with hsame | hnew
    · exact h.2 j hj v hsame
    · exact hnew.1
  | lockDirToRemove =>
    rw [hp] at h
    exact ⟨h.1, hunblocked h.2⟩
  | removeLookup k =>
    rw [hp] at h
    exact ⟨h.1, hunblocked h.2.1, hmissed k h.2.2⟩
  | erase k e =>
    rw [hp] at h
    exact ⟨h.1, hunblocked h.2.1, Nat.lt_of_lt_of_le h.2.2.1 hsize, h.2.2.2⟩
  | start | unlockDir r | unlockFiles r | returned r => trivial

@[simp] theorem setPc_pc_self (w : DirWorld) (c : Nat) (pc : DirCallPc) :
    (w.setPc c pc).pc c = pc :=
  Function.update_self ..

theorem callOk_of_result (h : (w.pc c).result ≠ none) : w.CallOk calls m0 order c := by
  unfold CallOk
  cases hp : w.pc c <;> rw [hp] at h <;> trivial

/-- A call goes on; the directory and what is decided stay. -/
theorem Inv.moves (h : Inv calls m0 order w) (hdir : w'.dir = w.dir)
    (hpc : w'.pc = Function.update w.pc c pc) (hresult : pc.result = (w.pc c).result)
    (hok : w'.CallOk calls m0 order c) : Inv calls m0 order w' := by
  have hresults : ∀ j, (w'.pc j).result = (w.pc j).result := by
    intro j
    rw [hpc]
    by_cases hj : j = c
    · rw [hj, Function.update_self, hresult]
    · rw [Function.update_of_ne hj]
  refine ⟨h.nodup, fun j => ?_, ?_, hdir ▸ h.represents, hdir ▸ h.named, fun j => ?_⟩
  · rw [hresults]
    exact h.mem j
  · simp only [hresults]
    exact h.explains
  · by_cases hj : j = c
    · exact hj ▸ hok
    · refine (h.calls j).frame (by rw [hpc, Function.update_of_ne hj]) (fun i v hslot => ?_)
        (Nat.le_of_eq (by rw [hdir])) fun m hm => hm
      exact .inl (hdir ▸ hslot)

/-- The result of a call is decided, and it changes nothing where the order puts it. -/
theorem Inv.decides (h : Inv calls m0 (front ++ back) w) (hdir : w'.dir = w.dir)
    (hpc : w'.pc = Function.update w.pc c pc) (hnone : (w.pc c).result = none) {r : Bool}
    (hresult : pc.result = some r)
    (happly : calls.apply c (Serial.after calls.apply m0 front) =
      (r, Serial.after calls.apply m0 front)) : Inv calls m0 (front ++ c :: back) w' := by
  have hnothing := congrArg Prod.snd happly
  have hc : c ∉ front ++ back := fun hmem => (h.mem c).mp hmem hnone
  have hself : (w'.pc c).result = some r := by rw [hpc, Function.update_self, hresult]
  have hother : ∀ j, j ≠ c → w'.pc j = w.pc j := fun j hj => by
    rw [hpc, Function.update_of_ne hj]
  have hperm : (front ++ c :: back).Perm (c :: (front ++ back)) := List.perm_middle
  refine ⟨hperm.nodup_iff.mpr (List.nodup_cons.mpr ⟨hc, h.nodup⟩), fun j => ?_, ?_, ?_,
    hdir ▸ h.named, fun j => ?_⟩
  · rw [hperm.mem_iff, List.mem_cons, h.mem]
    by_cases hj : j = c
    · rw [hj, hself]
      exact iff_of_true (.inl rfl) nofun
    · rw [hother j hj]
      exact or_iff_right hj
  · refine h.explains.insert (fun j hj => ?_) ?_ hnothing
    · rw [hother j fun heq => hc (heq ▸ hj)]
    · rw [happly]
      exact hself
  · rw [Serial.after_insert hnothing, hdir]
    exact h.represents
  · by_cases hj : j = c
    · exact callOk_of_result (by rw [hj, hself]; nofun)
    · refine (h.calls j).frame (hother j hj) (fun i v hslot => .inl (hdir ▸ hslot))
        (Nat.le_of_eq (by rw [hdir])) fun m hm => hm.insert hnothing

/-- A call writes, which decides it. -/
theorem Inv.writes (h : Inv calls m0 order w) (hpc : w'.pc = Function.update w.pc c pc)
    (hnone : (w.pc c).result = none) (hresult : pc.result = some true) {m : DirMap}
    (happly : calls.apply c (Serial.after calls.apply m0 order) = (true, m))
    (hrepresents : w'.dir.slots.Represents m) (hnamed : w'.dir.Named)
    (hsize : w.dir.size ≤ w'.dir.size)
    (hslots : ∀ i name v, w'.dir.slots i = some (name, v) → w.dir.slots i = some (name, v) ∨
      calls.Blocked v = false ∧ Serial.after calls.apply m0 order name = none) :
    Inv calls m0 (order ++ [c]) w' := by
  have hc : c ∉ order := fun hmem => (h.mem c).mp hmem hnone
  have hself : (w'.pc c).result = some true := by rw [hpc, Function.update_self, hresult]
  have hother : ∀ j, j ≠ c → w'.pc j = w.pc j := fun j hj => by
    rw [hpc, Function.update_of_ne hj]
  refine ⟨List.nodup_append.mpr ⟨h.nodup, List.nodup_singleton c, ?_⟩, fun j => ?_, ?_, ?_,
    hnamed, fun j => ?_⟩
  · rintro a ha b hb rfl
    exact hc (List.mem_singleton.mp hb ▸ ha)
  · rw [List.mem_append, List.mem_singleton, h.mem]
    by_cases hj : j = c
    · rw [hj, hself]
      exact iff_of_true (.inr rfl) nofun
    · rw [hother j hj]
      exact or_iff_left hj
  · refine h.explains.concat (fun j hj => ?_) ?_
    · rw [hother j fun heq => hc (heq ▸ hj)]
    · rw [happly]
      exact hself
  · rw [Serial.after_concat, happly]
    exact hrepresents
  · by_cases hj : j = c
    · exact callOk_of_result (by rw [hj, hself]; nofun)
    · refine (h.calls j).frame (hother j hj) (fun i v hslot => ?_) hsize fun m hm => hm.append _
      refine (hslots i _ v hslot).imp_right fun hnew => ⟨hnew.1, _, ?_, hnew.2⟩
      exact (Serial.passes_last m0 order).append _

/-! ### The operations -/

theorem apply_add {v : Nat × Bool} {m : DirMap} (hadded : (calls.request c).added = some v)
    (hroom : calls.hasRoom c = true) (habsent : m (calls.name c).bytes = none) :
    calls.apply c m = (true, Function.update m (calls.name c).bytes (some v)) := by
  unfold DirCalls.apply
  cases hrequest : calls.request c <;> rw [hrequest] at hadded
  · dsimp only
    rw [hadded, habsent, hroom]
    rfl
  · dsimp only
    rw [hadded, habsent, hroom]
    rfl
  · nomatch hadded

theorem apply_noRoom {m : DirMap} (hadded : (calls.request c).added ≠ none)
    (hroom : calls.hasRoom c = false) : calls.apply c m = (false, m) := by
  unfold DirCalls.apply
  cases hrequest : calls.request c <;> rw [hrequest] at hadded
  · dsimp only
    rw [hroom]
    split <;> trivial
  · dsimp only
    rw [hroom]
    split <;> trivial
  · exact absurd rfl hadded

theorem apply_present {m : DirMap} (hadded : (calls.request c).added ≠ none)
    (hpresent : m (calls.name c).bytes ≠ none) : calls.apply c m = (false, m) := by
  obtain ⟨v, hv⟩ := Option.ne_none_iff_exists'.mp hpresent
  unfold DirCalls.apply
  cases hrequest : calls.request c <;> rw [hrequest] at hadded
  · dsimp only
    rw [hv]
    split <;> trivial
  · dsimp only
    rw [hv]
    split <;> trivial
  · exact absurd rfl hadded

theorem apply_noSector {m : DirMap} (hadded : (calls.request c).added = none)
    (hrequest : calls.request c ≠ .remove) : calls.apply c m = (false, m) := by
  unfold DirCalls.apply
  cases hcase : calls.request c <;> rw [hcase] at hadded
  · dsimp only
    rw [hadded]
  · dsimp only
    rw [hadded]
  · exact absurd hcase hrequest

theorem apply_remove {v : Nat × Bool} {m : DirMap} (hrequest : calls.request c = .remove)
    (hpresent : m (calls.name c).bytes = some v) : calls.apply c m =
      if calls.Blocked v then (false, m)
      else (true, Function.update m (calls.name c).bytes none) := by
  unfold DirCalls.apply
  rw [hrequest]
  dsimp only
  rw [hpresent]

theorem apply_absent {m : DirMap} (hrequest : calls.request c = .remove)
    (habsent : m (calls.name c).bytes = none) : calls.apply c m = (false, m) := by
  unfold DirCalls.apply
  rw [hrequest]
  dsimp only
  rw [habsent]

theorem leaves_result (r : Bool) : (leaves calls c r).result = some r := by
  unfold leaves
  split <;> rfl

/-! ### The steps -/

/-- The result of a call is decided by what the directory holds now. -/
theorem Inv.decidesLast (h : Inv calls m0 order w) (hdir : w'.dir = w.dir)
    (hpc : w'.pc = Function.update w.pc c pc) (hnone : (w.pc c).result = none) {r : Bool}
    (hresult : pc.result = some r)
    (happly : calls.apply c (Serial.after calls.apply m0 order) =
      (r, Serial.after calls.apply m0 order)) : ∃ order', Inv calls m0 order' w' := by
  have h' : Inv calls m0 (order ++ []) w := by rwa [List.append_nil]
  exact ⟨_, h'.decides hdir hpc hnone hresult happly⟩

theorem Inv.finds (h : Inv calls m0 order w) {v : Nat × Bool}
    (hslot : w.dir.slots k = some ((calls.name c).bytes, v)) :
    Serial.after calls.apply m0 order (calls.name c).bytes = some v :=
  (h.represents.finds _ _).mpr ⟨k, hslot⟩

/-- The only entry with the name of `c` is the one that was found. -/
theorem Inv.unblocked (h : Inv calls m0 order w) {v : Nat × Bool}
    (hslot : w.dir.slots k = some ((calls.name c).bytes, v)) (hv : calls.Blocked v = false) :
    w.Unblocked calls c := by
  intro j v' hslot'
  obtain rfl := h.represents.distinct j k _ v' v hslot' hslot
  cases hslot.symm.trans hslot'
  exact hv

/-- `filesys_create` starts. -/
theorem Inv.allocates (h : Inv calls m0 order w) (hp : w.pc c = .start)
    (hrequest : calls.request c ≠ .remove) (hdir : w'.dir = w.dir)
    (hpc : w'.pc = Function.update w.pc c (allocated calls c)) :
    ∃ order', Inv calls m0 order' w' := by
  cases hadded : (calls.request c).added with
  | some v =>
    have hallocated : allocated calls c = .lockDir := by rw [allocated, hadded]
    rw [hallocated] at hpc
    refine ⟨order, h.moves hdir hpc (by rw [hp]; rfl) ?_⟩
    unfold CallOk
    rw [hpc, Function.update_self]
    dsimp only
    rw [hadded]
    nofun
  | none =>
    have hallocated : allocated calls c = leaves calls c false := by rw [allocated, hadded]
    rw [hallocated] at hpc
    exact h.decidesLast hdir hpc (by rw [hp]; rfl) (leaves_result false)
      (apply_noSector hadded hrequest)

theorem Inv.start (h : Inv calls m0 order w) (hp : w.pc c = .start)
    (hrun : exec calls c w = .ok ((), w')) : ∃ order', Inv calls m0 order' w' := by
  rw [exec, Routine.get_bind_apply] at hrun
  simp only [hp] at hrun
  cases hrequest : calls.request c with
  | createFile s =>
    rw [hrequest] at hrun
    cases hlock : w.filesLock with
    | none =>
      rw [hlock] at hrun
      cases hrun
      exact h.allocates hp (by rw [hrequest]; nofun) rfl rfl
    | some holder =>
      rw [hlock] at hrun
      cases hrun
  | createDirectory s =>
    rw [hrequest] at hrun
    cases hrun
    exact h.allocates hp (by rw [hrequest]; nofun) rfl rfl
  | remove =>
    rw [hrequest] at hrun
    cases hrun
    refine ⟨order, h.moves rfl rfl (by rw [hp]; rfl) ?_⟩
    unfold CallOk
    rw [setPc_pc_self]
    exact ⟨hrequest, nofun⟩

/-- `dir_add` looks for its name. -/
theorem Inv.lookup (h : Inv calls m0 order w) (hp : w.pc c = .lookup k)
    (hrun : exec calls c w = .ok ((), w')) : ∃ order', Inv calls m0 order' w' := by
  have hok := h.calls c
  unfold CallOk at hok
  rw [hp] at hok
  rw [exec, Routine.get_bind_apply] at hrun
  simp only [hp] at hrun
  rcases probe_spec h.named (calls.name c).toDirName k with
    ⟨hprobe, -⟩ | ⟨hprobe, -, -⟩ | ⟨e, v, hprobe, -, hslot, -, -, -⟩
  · rw [hprobe] at hrun
    cases hrun
    refine ⟨order, h.moves rfl rfl (by rw [hp]; rfl) ?_⟩
    unfold CallOk
    rw [setPc_pc_self]
    exact ⟨hok, Nat.zero_le _⟩
  · rw [hprobe] at hrun
    cases hrun
    refine ⟨order, h.moves rfl rfl (by rw [hp]; rfl) ?_⟩
    unfold CallOk
    rw [setPc_pc_self]
    exact hok
  · rw [hprobe] at hrun
    cases hrun
    refine h.decidesLast rfl rfl (by rw [hp]; rfl) rfl (apply_present hok ?_)
    rw [h.finds hslot]
    nofun

/-- `dir_add` looks for a free slot. -/
theorem Inv.freeSlot {e : DirEntry} (h : Inv calls m0 order w) (hp : w.pc c = .freeSlot k e)
    (hrun : exec calls c w = .ok ((), w')) : ∃ order', Inv calls m0 order' w' := by
  have hok := h.calls c
  unfold CallOk at hok
  rw [hp] at hok
  rw [exec, Routine.get_bind_apply] at hrun
  simp only [hp] at hrun
  by_cases hnext : (w.dir.inodeReadAt e (dirEntrySize * k)).1 = dirEntrySize ∧
      (w.dir.inodeReadAt e (dirEntrySize * k)).2.inUse = true
  · rw [if_pos hnext] at hrun
    cases hrun
    refine ⟨order, h.moves rfl rfl (by rw [hp]; rfl) ?_⟩
    unfold CallOk
    rw [setPc_pc_self]
    exact ⟨hok.1, Directory.inodeReadAt_fst.mp hnext.1⟩
  · rw [if_neg hnext] at hrun
    cases hrun
    refine ⟨order, h.moves rfl rfl (by rw [hp]; rfl) ?_⟩
    unfold CallOk
    rw [setPc_pc_self]
    exact hok

/-- `dir_add` writes its entry. -/
theorem Inv.write {e : DirEntry} (h : Inv calls m0 order w) (hp : w.pc c = .write k e)
    (hsettled : w.Settled calls c) (hrun : exec calls c w = .ok ((), w')) :
    ∃ order', Inv calls m0 order' w' := by
  have hok := h.calls c
  unfold CallOk at hok
  unfold Settled at hsettled
  rw [hp] at hok hsettled
  rw [exec, Routine.get_bind_apply] at hrun
  simp only [hp] at hrun
  cases hadded : (calls.request c).added with
  | none => exact absurd hadded hok.1
  | some v =>
    obtain ⟨sector, isDir⟩ := v
    simp only [hadded] at hrun
    cases hroom : calls.hasRoom c with
    | false =>
      rw [hroom, if_neg Bool.false_ne_true] at hrun
      split at hrun
      · cases hrun
        exact h.decidesLast rfl rfl (by rw [hp]; rfl) rfl (apply_noRoom hok.1 hroom)
      · cases hrun
    | true =>
    obtain ⟨hfree, habsent⟩ := hsettled hroom
    have hnone := h.represents.none_iff.mpr habsent
    rw [hroom, if_pos rfl] at hrun
    cases hrun
    have hsector : sector < 2 ^ 32 := by
      cases hrequest : calls.request c <;> rw [hrequest] at hadded
      · obtain ⟨s, -, hs⟩ := Option.map_eq_some_iff.mp hadded
        cases hs
        exact s.toNat_lt
      · obtain ⟨s, -, hs⟩ := Option.map_eq_some_iff.mp hadded
        cases hs
        exact s.toNat_lt
      · nomatch hadded
    have hslots := Directory.slots_inodeWriteAt hok.2
      (Directory.filled e (calls.name c).bytes sector isDir)
    rw [Directory.slot_filled e (calls.name c).toDirName hsector isDir] at hslots
    have hblocked : calls.Blocked (sector, isDir) = false := by
      have hfresh := calls.fresh c _ hadded
      simp [DirCalls.Blocked, hfresh]
    refine ⟨_, h.writes rfl (by rw [hp]; rfl) rfl (apply_add hadded hroom hnone) (m := _) ?_ ?_
      (Directory.size_le_inodeWriteAt _ _ _) fun i name v hslot => ?_⟩
    · show SlotTable.Represents (Directory.slots _) _
      rw [hslots]
      exact h.represents.insert hfree hnone _
    · refine h.named.write hok.2 fun name v hv => ?_
      rw [Directory.slot_filled e (calls.name c).toDirName hsector isDir] at hv
      cases hv
      exact (calls.name c).le
    · change Directory.slots _ i = _ at hslot
      rw [hslots] at hslot
      by_cases hik : i = k
      · rw [hik, Function.update_self] at hslot
        cases hslot
        exact .inr ⟨hblocked, hnone⟩
      · rw [Function.update_of_ne hik] at hslot
        exact .inl hslot

/-- `path_is_dir` looks for its name. -/
theorem Inv.pathIsDir (h : Inv calls m0 order w) (hp : w.pc c = .pathIsDir k)
    (hrun : exec calls c w = .ok ((), w')) : ∃ order', Inv calls m0 order' w' := by
  have hok := h.calls c
  unfold CallOk at hok
  rw [hp] at hok
  obtain ⟨hrequest, hbelow⟩ := hok
  rw [exec, Routine.get_bind_apply] at hrun
  simp only [hp] at hrun
  rcases probe_spec h.named (calls.name c).toDirName k with
    ⟨hprobe, hend⟩ | ⟨hprobe, -, hother⟩ | ⟨e, v, hprobe, -, hslot, -, -, hdir⟩
  · rw [hprobe] at hrun
    cases hrun
    refine ⟨order, h.moves rfl rfl (by rw [hp]; rfl) ?_⟩
    unfold CallOk
    rw [setPc_pc_self]
    refine ⟨hrequest, fun j v hslot => hbelow j ?_ v hslot⟩
    by_contra hle
    have hnone : w.dir.slots j = none := Directory.slots_of_le (by omega)
    cases hnone.symm.trans hslot
  · rw [hprobe] at hrun
    cases hrun
    refine ⟨order, h.moves rfl rfl (by rw [hp]; rfl) ?_⟩
    unfold CallOk
    rw [setPc_pc_self]
    refine ⟨hrequest, fun j hj v hslot => ?_⟩
    by_cases hjk : j = k
    · exact absurd (hjk ▸ hslot) (hother v)
    · exact hbelow j (by omega) v hslot
  · rw [hprobe] at hrun
    cases hrun
    refine ⟨order, h.moves rfl rfl ?_ ?_⟩
    · rw [hp]
      split <;> rfl
    · unfold CallOk
      rw [setPc_pc_self, hdir]
      cases hv : v.2 with
      | true => exact hrequest
      | false =>
        refine ⟨hrequest, h.unblocked hslot ?_⟩
        rw [DirCalls.Blocked, hv]
        rfl

/-- `dir_path_lookup` and the checks of `remove_file_or_dir`. -/
theorem Inv.pathLookup (h : Inv calls m0 order w) (hp : w.pc c = .pathLookup k)
    (hrun : exec calls c w = .ok ((), w')) : ∃ order', Inv calls m0 order' w' := by
  have hrequest := h.calls c
  unfold CallOk at hrequest
  rw [hp] at hrequest
  rw [exec, Routine.get_bind_apply] at hrun
  simp only [hp] at hrun
  rcases probe_spec h.named (calls.name c).toDirName k with
    ⟨hprobe, -⟩ | ⟨hprobe, -, -⟩ | ⟨e, v, hprobe, -, hslot, -, hsector, hdir⟩
  · rw [hprobe] at hrun
    cases hrun
  · rw [hprobe] at hrun
    cases hrun
    refine ⟨order, h.moves rfl rfl (by rw [hp]; rfl) ?_⟩
    unfold CallOk
    rw [setPc_pc_self]
    exact hrequest
  · rw [hprobe] at hrun
    dsimp only at hrun
    rw [hdir, hsector] at hrun
    by_cases hv : v.2 = true
    · rw [if_pos hv] at hrun
      by_cases hblocked : (calls.nonEmpty v.1 || calls.openOrCwd v.1) = true
      · rw [if_pos hblocked] at hrun
        cases hrun
        refine h.decidesLast rfl rfl (by rw [hp]; rfl) rfl ?_
        rw [apply_remove hrequest (h.finds hslot), if_pos]
        rw [DirCalls.Blocked, hv, hblocked]
        rfl
      · rw [if_neg hblocked] at hrun
        cases hrun
        refine ⟨order, h.moves rfl rfl (by rw [hp]; rfl) ?_⟩
        unfold CallOk
        rw [setPc_pc_self]
        refine ⟨hrequest, h.unblocked hslot ?_⟩
        rw [DirCalls.Blocked, hv, Bool.eq_false_iff.mpr hblocked]
        rfl
    · rw [if_neg hv] at hrun
      cases hrun

/-- `dir_remove` looks for its name. -/
theorem Inv.removeLookup (h : Inv calls m0 order w) (hp : w.pc c = .removeLookup k)
    (hrun : exec calls c w = .ok ((), w')) : ∃ order', Inv calls m0 order' w' := by
  have hok := h.calls c
  unfold CallOk at hok
  rw [hp] at hok
  obtain ⟨hrequest, hunblocked, hmissed⟩ := hok
  rw [exec, Routine.get_bind_apply] at hrun
  simp only [hp] at hrun
  rcases probe_spec h.named (calls.name c).toDirName k with
    ⟨hprobe, hend⟩ | ⟨hprobe, -, hother⟩ | ⟨e, v, hprobe, hk, hslot, hentry, hsector, hdir⟩
  · rw [hprobe] at hrun
    cases hrun
    have habsent : ∃ m, Serial.Passes calls.apply m0 order m ∧ m (calls.name c).bytes = none := by
      refine hmissed.elim (fun hnone => ?_) id
      refine ⟨_, Serial.passes_last m0 order, h.represents.none_iff.mpr fun j v hslot => ?_⟩
      by_cases hj : j < k
      · exact hnone j hj v hslot
      · rw [Directory.slots_of_le (by omega)] at hslot
        nomatch hslot
    -- the call comes where its name was absent
    obtain ⟨m, ⟨front, back, rfl, rfl⟩, hm⟩ := habsent
    exact ⟨_, h.decides rfl rfl (by rw [hp]; rfl) rfl (apply_absent hrequest hm)⟩
  · rw [hprobe] at hrun
    cases hrun
    refine ⟨order, h.moves rfl rfl (by rw [hp]; rfl) ?_⟩
    unfold CallOk
    rw [setPc_pc_self]
    refine ⟨hrequest, hunblocked, hmissed.imp_left fun hnone j hj v hslot => ?_⟩
    by_cases hjk : j = k
    · exact hother v (hjk ▸ hslot)
    · exact hnone j (by omega) v hslot
  · rw [hprobe] at hrun
    dsimp only at hrun
    have hv := hunblocked k v hslot
    have hempty : (v.2 && calls.nonEmpty v.1) = false := by
      rw [DirCalls.Blocked, Bool.and_or_distrib_left, Bool.or_eq_false_iff] at hv
      exact hv.1
    rw [hdir, hsector, if_neg (by rw [hempty]; nofun)] at hrun
    cases hrun
    refine ⟨order, h.moves rfl rfl (by rw [hp]; rfl) ?_⟩
    unfold CallOk
    rw [setPc_pc_self]
    exact ⟨hrequest, hunblocked, hk, v, hentry⟩

/-- `dir_remove` erases its entry. -/
theorem Inv.erase {e : DirEntry} (h : Inv calls m0 order w) (hp : w.pc c = .erase k e)
    (hsettled : w.Settled calls c) (hrun : exec calls c w = .ok ((), w')) :
    ∃ order', Inv calls m0 order' w' := by
  have hok := h.calls c
  unfold CallOk at hok
  unfold Settled at hsettled
  rw [hp] at hok hsettled
  obtain ⟨hrequest, hunblocked, hk, v, hentry⟩ := hok
  have hslot : w.dir.slots k = some ((calls.name c).bytes, v) := hsettled.trans hentry
  rw [exec, Routine.get_bind_apply] at hrun
  simp only [hp] at hrun
  cases hrun
  have hslots := Directory.slots_inodeWriteAt (Nat.le_of_lt hk) (e.store 68 [0])
  rw [Directory.slot_erased] at hslots
  have happly := apply_remove hrequest (h.finds hslot)
  rw [if_neg (by rw [hunblocked k v hslot]; nofun)] at happly
  refine ⟨_, h.writes rfl (by rw [hp]; rfl) rfl happly ?_ ?_
    (Directory.size_le_inodeWriteAt _ _ _) fun i name v' hi => ?_⟩
  · show SlotTable.Represents (Directory.slots _) _
    rw [hslots]
    exact h.represents.erase hslot
  · refine h.named.write (Nat.le_of_lt hk) fun name v' hv' => ?_
    rw [Directory.slot_erased] at hv'
    nomatch hv'
  · change Directory.slots _ i = _ at hi
    rw [hslots] at hi
    by_cases hik : i = k
    · rw [hik, Function.update_self] at hi
      nomatch hi
    · rw [Function.update_of_ne hik] at hi
      exact .inl hi

/-- Every step keeps the calls explained. -/
theorem Inv.step (h : Inv calls m0 order w) (hsettled : w.Settled calls c)
    (hrun : exec calls c w = .ok ((), w')) : ∃ order', Inv calls m0 order' w' := by
  cases hp : w.pc c with
  | start => exact h.start hp hrun
  | lookup k => exact h.lookup hp hrun
  | freeSlot k e => exact h.freeSlot hp hrun
  | write k e => exact h.write hp hsettled hrun
  | pathIsDir k => exact h.pathIsDir hp hrun
  | pathLookup k => exact h.pathLookup hp hrun
  | removeLookup k => exact h.removeLookup hp hrun
  | erase k e => exact h.erase hp hsettled hrun
  | lockDir =>
    have hok := h.calls c
    unfold CallOk at hok
    rw [hp] at hok
    rw [exec, Routine.get_bind_apply] at hrun
    simp only [hp] at hrun
    split at hrun
    · cases hrun
    · cases hrun
      refine ⟨order, h.moves rfl rfl (by rw [hp]; rfl) ?_⟩
      unfold CallOk
      rw [show (DirWorld.setPc _ c _).pc c = _ from setPc_pc_self ..]
      exact hok
  | lockDirToRemove =>
    have hok := h.calls c
    unfold CallOk at hok
    rw [hp] at hok
    rw [exec, Routine.get_bind_apply] at hrun
    simp only [hp] at hrun
    split at hrun
    · cases hrun
    · cases hrun
      refine ⟨order, h.moves rfl rfl (by rw [hp]; rfl) ?_⟩
      unfold CallOk
      rw [show (DirWorld.setPc _ c _).pc c = _ from setPc_pc_self ..]
      exact ⟨hok.1, hok.2, .inl nofun⟩
  | unlockDir r =>
    rw [exec, Routine.get_bind_apply] at hrun
    simp only [hp] at hrun
    cases hrun
    have hresult : (leaves calls c r).result = (w.pc c).result := by
      rw [hp, leaves_result]
      rfl
    refine ⟨order, h.moves rfl rfl hresult (callOk_of_result ?_)⟩
    rw [show (DirWorld.setPc _ c _).pc c = _ from setPc_pc_self .., leaves_result]
    nofun
  | unlockFiles r =>
    rw [exec, Routine.get_bind_apply] at hrun
    simp only [hp] at hrun
    cases hrun
    refine ⟨order, h.moves rfl rfl (by rw [hp]; rfl) (callOk_of_result ?_)⟩
    rw [show (DirWorld.setPc _ c _).pc c = _ from setPc_pc_self ..]
    nofun
  | returned r =>
    rw [exec, Routine.get_bind_apply] at hrun
    simp only [hp] at hrun
    cases hrun

theorem Inv.of_init {d : Directory} (hrepresents : d.slots.Represents m0) (hnamed : d.Named) :
    Inv calls m0 [] (init d) :=
  ⟨List.nodup_nil, fun _ => iff_of_false nofun fun h => h rfl, Serial.explains_nil _ _,
    hrepresents, hnamed, fun _ => trivial⟩

/-- What a run leads to as long as its steps are settled. -/
theorem Inv.visits {d : Directory} (hrepresents : d.slots.Represents m0) (hnamed : d.Named)
    {steps : List Nat} (hsettled : ∀ c m, Routine.Takes (exec calls) steps (init d) c m →
      m.Settled calls c) (hvisits : Routine.Visits (exec calls) steps (init d) w) :
    ∃ order, Inv calls m0 order w := by
  refine Routine.Visits.invariant (P := fun m => ∃ order, Inv calls m0 order m)
    (fun s c _ t hs hmay hrun => ?_) hsettled ⟨[], Inv.of_init hrepresents hnamed⟩ hvisits
  obtain ⟨order, hinv⟩ := hs
  exact hinv.step hmay hrun

end DirWorld

end Pintos
