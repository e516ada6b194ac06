import Pintos.Vm.EvictedBytes
import Pintos.Vm.WriteBack

/-! The pages of mapped files, and the bytes that the processes have written through them.  Such a byte
is in the frame of its page while the page is present, and the page is then dirty or the file has the
byte too; else it is in the file, if the thread that took the frame wrote the bytes of the owner. -/

namespace Pintos

/-! ### Where the pages are -/

namespace Vm

variable {s s' : Vm}

/-- A page of a mapped file is in its file, or loaded and mapped. -/
def Resident (s : Vm) : Prop :=
  ∀ p pg e, s.entry p pg = some e → e.type = .mmf → e.presence = .unloaded ∨
    e.presence = .present ∧ pg % pgSize = 0 ∧ (s.permission p pg).isSome

/-- A changed entry that is in its file, or loaded and mapped. -/
theorem Resident.sets {o v : Nat} {x : Option PtSupplEntry} (h : s.Resident)
    (hsets : s.SetsEntry o v x s')
    (hperm : ∀ p pg, pg % pgSize = 0 → s'.permission p pg = s.permission p pg)
    (hx : ∀ e, x = some e → e.type = .mmf → e.presence = .unloaded ∨
      e.presence = .present ∧ v % pgSize = 0 ∧ (s.permission o v).isSome) : s'.Resident := by
  intro p pg e he htype
  rw [hsets p pg] at he
  split at he
  · rename_i hsame
    obtain ⟨rfl, rfl⟩ := hsame
    rcases hx e he htype with hunloaded | ⟨hpresent, halign, hmapped⟩
    · exact .inl hunloaded
    · exact .inr ⟨hpresent, halign, by rwa [hperm p pg halign]⟩
  · rcases h p pg e he htype with hunloaded | ⟨hpresent, halign, hmapped⟩
    · exact .inl hunloaded
    · exact .inr ⟨hpresent, halign, by rwa [hperm p pg halign]⟩

theorem loadedEntry_present {e e' : PtSupplEntry} (h : loadedEntry e = some e') :
    e'.presence = .present := by
  rw [loadedEntry] at h
  split at h
  · cases h
  · cases h
    rfl

/-- The step lemma. -/
theorem Change.resident (hchange : s.Change s') (h : s.Resident) : s'.Resident := by
  cases hchange with
  | same hsame =>
    intro p pg e he htype
    rw [hsame.entry] at he
    rcases h p pg e he htype with hunloaded | ⟨hpresent, halign, hmapped⟩
    · exact .inl hunloaded
    · exact .inr ⟨hpresent, halign, by rwa [hsame.permission p pg halign]⟩
  | swapOut o v slot _ _ hentry hperm =>
    refine h.sets hentry hperm fun e he htype => ?_
    cases he
    cases htype
  | writeOut o v pt _ _ hentry hperm _ =>
    refine h.sets hentry hperm fun e he _ => ?_
    cases he
    exact .inl rfl
  | clear o v hout hp hperm _ =>
    intro p pg e he htype
    rw [Vm.entry, hp] at he
    rcases h p pg e he htype with hunloaded | ⟨hpresent, halign, hmapped⟩
    · exact .inl hunloaded
    · refine .inr ⟨hpresent, halign, ?_⟩
      rw [hperm p pg halign, if_neg]
      · exact hmapped
      · rintro ⟨rfl, rfl⟩
        exact hout e he hpresent
  | map o v w hp hperm _ =>
    intro p pg e he htype
    rw [Vm.entry, hp] at he
    rcases h p pg e he htype with hunloaded | ⟨hpresent, halign, hmapped⟩
    · exact .inl hunloaded
    · refine .inr ⟨hpresent, halign, ?_⟩
      rw [hperm p pg halign]
      split
      · rfl
      · exact hmapped
  | readIn o e _ _ halign hmapped hentry hperm _ =>
    exact h.sets hentry hperm fun e' he' _ => .inr ⟨loadedEntry_present he', halign, hmapped⟩
  | swapIn o e _ _ halign hmapped hentry hperm _ =>
    exact h.sets hentry hperm fun e' he' _ => .inr ⟨loadedEntry_present he', halign, hmapped⟩
  | add o e _ hpresence hentry hperm _ =>
    refine h.sets hentry hperm fun e' he' _ => ?_
    cases he'
    exact .inl hpresence
  | delete o e _ _ hentry hperm _ => exact h.sets hentry hperm (by simp)

theorem Changes.resident (h : s.Changes s') (hs : s.Resident) : s'.Resident := by
  induction h with
  | refl => exact hs
  | tail _ hlast ih => exact hlast.resident ih

theorem Resident.exit {cur : Nat} (h : s.Resident) (hrun : processExit cur s = .ok ((), s')) :
    s'.Resident := by
  obtain ⟨s1, hends, hprocess, -⟩ := processExit_ends cur s
  cases hrun.symm.trans hends
  intro p pg e he htype
  by_cases hp : p = cur
  · subst hp
    rw [Vm.entry, hprocess, Function.update_self] at he
    cases he
  · have hsame : s'.process p = s.process p := by rw [hprocess, Function.update_of_ne hp]
    rw [Vm.entry, hsame] at he
    rw [Vm.permission, hsame]
    exact h p pg e he htype

theorem Resident.exec {order : List FrameEntry → List FrameEntry} {bucket : PtSuppl → List Nat}
    {op : PagingOp} (h : s.Resident) (hrun : op.exec order bucket s = .ok ((), s')) :
    s'.Resident := by
  by_cases hexit : ∃ cur, op = .exit cur
  · obtain ⟨cur, rfl⟩ := hexit
    exact h.exit hrun
  · exact (PagingOp.exec_changes (fun cur hop => hexit ⟨cur, hop⟩) hrun).resident h

/-- The run lemma. -/
theorem Resident.of_visits {order : List FrameEntry → List FrameEntry}
    {bucket : PtSuppl → List Nat} {ops : List PagingOp} (h : s.Resident)
    (hvisits : Routine.Visits (PagingOp.exec order bucket) ops s s') : s'.Resident :=
  hvisits.invariant (P := Resident) (fun _ _ _ _ ht _ hrun => ht.exec hrun) (fun _ _ _ => trivial) h

end Vm

/-! ### What has been written -/

/-- For each page of each process the byte last written at each offset, since the page has had an
entry. -/
abbrev LastWritten := Nat → Nat → Fin 4096 → Option UInt8

/-- The byte that an operation writes at an offset of a page. -/
def PagingOp.writes (op : PagingOp) (s : Vm) (p v : Nat) (i : Fin 4096) : Option UInt8 :=
  match op with
  | .page (.access cur vaddr (some value)) =>
    if (s.mapped cur vaddr).isSome ∧ p = cur ∧ v = pgRoundDown vaddr ∧ i.val = vaddr % pgSize then
      some value
    else none
  | _ => none

namespace LastWritten

def nothing : LastWritten := fun _ _ _ => none

/-- What has been written once `op` has been executed in `s`. -/
def after (w : LastWritten) (s : Vm) (op : PagingOp) : LastWritten := fun p v i =>
  if (s.entry p v).isNone then none else (op.writes s p v i).or (w p v i)

end LastWritten

/-- Executes an operation, and records what it writes. -/
def PagingOp.execWritten (order : List FrameEntry → List FrameEntry) (bucket : PtSuppl → List Nat)
    (op : PagingOp) : Routine Fault (Vm × LastWritten) Unit := fun sw => do
  let (u, s') ← op.exec order bucket sw.1
  pure (u, s', sw.2.after sw.1 op)

variable {order : List FrameEntry → List FrameEntry} {bucket : PtSuppl → List Nat}
  {s s' s1 s0 : Vm} {w w' w0 : LastWritten} {op : PagingOp} {ops : List PagingOp}

theorem PagingOp.execWritten_ok : op.execWritten order bucket (s, w) = .ok ((), s', w') ↔
    op.exec order bucket s = .ok ((), s') ∧ w' = w.after s op := by
  rw [execWritten]
  cases hrun : op.exec order bucket s with
  | error e => simp [bind, Except.bind]
  | ok r =>
    obtain ⟨⟨⟩, t⟩ := r
    simp only [bind, Except.bind, pure, Except.pure, Except.ok.injEq, Prod.mk.injEq, true_and]
    constructor
    · rintro ⟨rfl, rfl⟩
      exact ⟨rfl, rfl⟩
    · rintro ⟨rfl, rfl⟩
      exact ⟨rfl, rfl⟩

/-- The record leaves the run as it is. -/
theorem PagingOp.execWritten_follows (sw : Vm × LastWritten) (t : Vm) (op : PagingOp) (u : Unit)
    (sw' : Vm × LastWritten) (hR : t = sw.1) (h : op.execWritten order bucket sw = .ok (u, sw')) :
    ∃ t', op.exec order bucket t = .ok (u, t') ∧ t' = sw'.1 := by
  subst hR
  exact ⟨sw'.1, (execWritten_ok.mp h).1, rfl⟩

theorem visits_of_written
    (h : Routine.Visits (PagingOp.execWritten order bucket) ops (s0, w0) (s, w)) :
    Routine.Visits (PagingOp.exec order bucket) ops s0 s := by
  obtain ⟨n, hn, rfl⟩ := Routine.Visits.follows PagingOp.execWritten_follows rfl h
  exact hn

theorem takes_of_written {t : Vm × LastWritten}
    (h : Routine.Takes (PagingOp.execWritten order bucket) ops (s0, w0) op t) :
    Routine.Takes (PagingOp.exec order bucket) ops s0 op t.1 := by
  obtain ⟨n, hn, rfl⟩ := Routine.Takes.follows PagingOp.execWritten_follows rfl h
  exact hn

/-- Every run has a record. -/
theorem written_of_visits (h : Routine.Visits (PagingOp.exec order bucket) ops s0 s)
    (w0 : LastWritten) :
    ∃ w, Routine.Visits (PagingOp.execWritten order bucket) ops (s0, w0) (s, w) := by
  have hstep : ∀ (s : Vm) (t : Vm × LastWritten) (op : PagingOp) (u : Unit) (s' : Vm), s = t.1 →
      op.exec order bucket s = .ok (u, s') →
        ∃ t', op.execWritten order bucket t = .ok (u, t') ∧ s' = t'.1 := by
    rintro _ t op u s' rfl hrun
    exact ⟨(s', t.2.after t.1 op), PagingOp.execWritten_ok.mpr ⟨hrun, rfl⟩, rfl⟩
  obtain ⟨n, hn, rfl⟩ := h.follows hstep (t := (s0, w0)) rfl
  exact ⟨n.2, hn⟩

/-! ### Where the bytes are -/

namespace Pagedir

theorem touch_isDirty {pd : Pagedir} {u v : Nat} {write : Bool}
    (h : pgRoundDown u = pgRoundDown v → write = false) :
    (pd.touch v write).isDirty u = pd.isDirty u := by
  rw [isDirty, isDirty, lookupPage, lookupPage, touch, modifyPte_pde]
  split
  · rw [modifyPte]
    split
    · by_cases hu : pgRoundDown u = pgRoundDown v
      · simp [hu, h hu]
      · simp [Function.update_of_ne hu]
    · rfl
  · rfl

theorem clearPage_isDirty (pd : Pagedir) (v u : Nat) : (pd.clearPage v).isDirty u = pd.isDirty u := by
  rw [isDirty, isDirty, lookupPage, lookupPage, clearPage, modifyPte_pde]
  split
  · rw [modifyPte]
    split
    · by_cases hu : pgRoundDown u = pgRoundDown v
      · simp [hu]
      · simp [Function.update_of_ne hu]
    · rfl
  · rfl

theorem isDirty_round (pd : Pagedir) (v : Nat) : pd.isDirty (pgRoundDown v) = pd.isDirty v := by
  have hpd : pdNo (pgRoundDown v) = pdNo v := by
    unfold pdNo pgRoundDown pgSize
    omega
  rw [isDirty, isDirty, lookupPage, lookupPage, hpd, pgRoundDown_of_aligned (pgRoundDown_aligned v)]

theorem touch_isDirty_self {pd : Pagedir} {v : Nat} (h : (pd.getPage v).isSome) :
    (pd.touch v true).isDirty v = true := by
  rw [getPage_eq] at h
  rw [isDirty, lookupPage, touch, modifyPte_pde]
  split at h
  · rename_i hpresent
    rw [if_pos hpresent.1, modifyPte, if_pos hpresent.1]
    simp
  · cases h

/-- A page that is written is dirty. -/
theorem touch_written {pd : Pagedir} {v page : Nat} (h : pd.getPage v = some page) :
    (pd.touch v true).getPage (pgRoundDown v) = some page ∧
      (pd.touch v true).isDirty (pgRoundDown v) = true := by
  constructor
  · rw [getPage_round, touch_getPage, h]
  · rw [isDirty_round]
    exact touch_isDirty_self (by rw [h]; rfl)

theorem setPage_isDirty {pd pd' : Pagedir} {freePages kernelPages upage kpage v : Nat}
    {writable : Bool} (hv : v % pgSize = 0) (hne : v ≠ upage) (hpresent : (pd.getPage v).isSome)
    (h : pd.setPage freePages upage kpage writable = .ok (some (kernelPages, pd'))) :
    pd'.isDirty v = pd.isDirty v := by
  rw [getPage_eq] at hpresent
  have hround := pgRoundDown_of_aligned hv
  simp only [setPage] at h
  split at h
  · cases h
  split at h
  · cases h
  split at h
  · split at h
    · cases h
    · cases h
      rw [isDirty, isDirty, lookupPage, lookupPage, hround]
      simp [Function.update_of_ne hne]
  · rename_i hpde
    split at h
    · cases h
    · cases h
      have hregion : pdNo v ≠ pdNo upage := by
        intro hsame
        rw [hsame, if_neg fun hp => hpde hp.1] at hpresent
        cases hpresent
      rw [isDirty, isDirty, lookupPage, lookupPage, hround]
      simp [Function.update_of_ne hne, hregion]

end Pagedir

namespace Vm

/-- Offset `i` of page `v` of process `p` belongs to the file part `info` of a mapping. -/
def MapsByte (s : Vm) (p v : Nat) (info : PtSupplFileInfo) (i : Fin 4096) : Prop :=
  (∃ e, s.entry p v = some e ∧ e.type = .mmf ∧ e.fileInfo = some info) ∧ i.val < info.readBytes

/-- The byte at offset `i` of page `v` of process `p` is `b`: in its frame, which is dirty unless the
file has the byte too, or in the file if the page has no frame. -/
def Holds (s : Vm) (p v : Nat) (info : PtSupplFileInfo) (i : Fin 4096) (b : UInt8) : Prop :=
  match s.mapped p v with
  | some page => s.memory page i = b ∧
      ((s.process p).pagedir.isDirty v = true ∨ (s.file info.file)[info.offset + i.val]? = some b)
  | none => (s.file info.file)[info.offset + i.val]? = some b

/-- The frame of page `v` of process `p` keeps its bytes and its dirty bit. -/
structure KeepsPage (s : Vm) (p v : Nat) (s' : Vm) : Prop where
  mapped : s'.mapped p v = s.mapped p v
  memory : ∀ page, s.mapped p v = some page → s'.memory page = s.memory page
  dirty : (s.mapped p v).isSome →
    (s'.process p).pagedir.isDirty v = (s.process p).pagedir.isDirty v

variable {p v cur frm : Nat} {info : PtSupplFileInfo} {i : Fin 4096} {b : UInt8}

theorem KeepsPage.refl (s : Vm) (p v : Nat) : s.KeepsPage p v s := ⟨rfl, fun _ _ => rfl, fun _ => rfl⟩

theorem KeepsPage.trans (h1 : s.KeepsPage p v s1) (h2 : s1.KeepsPage p v s') :
    s.KeepsPage p v s' where
  mapped := h2.mapped.trans h1.mapped
  memory page hpage := (h2.memory page (h1.mapped.trans hpage)).trans (h1.memory page hpage)
  dirty hsome := (h2.dirty (by rwa [h1.mapped])).trans (h1.dirty hsome)

/-- The byte stays where it is if the file keeps it. -/
theorem Holds.keeps (h : s.Holds p v info i b) (hpage : s.KeepsPage p v s')
    (hfile : (s.file info.file)[info.offset + i.val]? = some b →
      (s'.file info.file)[info.offset + i.val]? = some b) : s'.Holds p v info i b := by
  rw [Holds] at h ⊢
  rw [hpage.mapped]
  cases hmapped : s.mapped p v with
  | none =>
    rw [hmapped] at h
    exact hfile h
  | some page =>
    rw [hmapped] at h
    dsimp only at h ⊢
    rw [hpage.memory page hmapped, hpage.dirty (by rw [hmapped]; rfl)]
    exact ⟨h.1, h.2.imp_right hfile⟩

theorem KeepsPage.of_process (hprocess : s'.process = s.process)
    (hmemory : ∀ page, s.mapped p v = some page → s'.memory page = s.memory page) :
    s.KeepsPage p v s' := by
  refine ⟨?_, hmemory, fun _ => ?_⟩
  · rw [Vm.mapped, Vm.mapped, hprocess]
  · rw [hprocess]

theorem KeepsPage.setPtSuppl (s : Vm) (cur : Nat) (table : PtSuppl) (p v : Nat) :
    s.KeepsPage p v (s.setPtSuppl cur table) := by
  refine ⟨mapped_setPtSuppl s cur table p v, fun _ _ => rfl, fun _ => ?_⟩
  by_cases hp : p = cur
  · subst hp
    rw [setPtSuppl_process_self]
  · rw [setPtSuppl_process_ne s hp]

theorem KeepsPage.setMemory (hfrm : s.mapped p v ≠ some frm) (data : PageData) :
    s.KeepsPage p v (s.setMemory frm data) := by
  refine .of_process rfl fun page hpage => Function.update_of_ne ?_ _ _
  rintro rfl
  exact hfrm hpage

/-- The processor marks a page that is read, or another page. -/
theorem KeepsPage.touch {u : Nat} {write : Bool}
    (h : p = cur → pgRoundDown v = pgRoundDown u → write = false) :
    s.KeepsPage p v (s.setPagedir cur ((s.process cur).pagedir.touch u write)) := by
  refine ⟨?_, fun _ _ => rfl, fun _ => ?_⟩
  · rw [mapped_setPagedir]
    split
    · rename_i hp
      rw [Pagedir.touch_getPage, hp]
      rfl
    · rfl
  · by_cases hp : p = cur
    · rw [hp, setPagedir_process_self]
      exact Pagedir.touch_isDirty (h hp)
    · rw [setPagedir_process_ne s hp]

/-- No byte of a file is mapped by two pages. -/
def MapsOnce (s : Vm) : Prop :=
  ∀ p v info i q u inf j, s.MapsByte p v info i → s.MapsByte q u inf j → info.file = inf.file →
    info.offset + i.val = inf.offset + j.val → p = q ∧ v = u

/-- If the frame of a dirty page of a mapped file is to be taken, process `cur` has the bytes of the
owner at its address, or writes are denied to a file that has them. -/
def EvictsRight (s : Vm) (cur : Nat) : Prop :=
  ¬ s.HasFreePage → ∀ fe pt info, s.victim = some fe → s.DirtyMapped fe pt info →
    s.SeesOwnerBytes cur fe info

theorem SeesOwnerBytes.byte {fe : FrameEntry} (h : s.SeesOwnerBytes cur fe info)
    (hi : i.val < info.readBytes) (hsize : info.readBytes ≤ 4096) :
    if s.denyWrite info.file then
      (s.file info.file)[info.offset + i.val]? = some (s.memory fe.page i)
    else ∃ page, s.mapped cur fe.threadVaddr = some page ∧ s.memory page i = s.memory fe.page i := by
  rw [SeesOwnerBytes] at h
  by_cases hdenied : s.denyWrite info.file = true
  · rw [if_pos hdenied] at h ⊢
    have hread := congrArg (fun bytes => bytes[i.val]?) h
    rw [fileRead] at hread
    rwa [List.getElem?_take_of_lt hi, List.getElem?_drop, PageData.getElem?_copyOut _ hi hsize] at hread
  · rw [if_neg hdenied] at h ⊢
    obtain ⟨page, hpage, hsame⟩ := h
    have hbyte := congrArg (fun bytes => bytes[i.val]?) hsame
    rw [PageData.getElem?_copyOut _ hi hsize, PageData.getElem?_copyOut _ hi hsize] at hbyte
    exact ⟨page, hpage, Option.some.inj hbyte⟩

end Vm

/-! ### Finding a frame -/

section

variable {p v cur frm : Nat} {info inf : PtSupplFileInfo} {i : Fin 4096} {b : UInt8}
  {fe : FrameEntry}

/-- What an eviction stores is a byte of the page that it takes out. -/
theorem storedByte_mapped {pt : PtSupplEntry} {f o : Nat} {x : UInt8} (hinfos : s.InfosInv)
    (hpt : s.entry fe.owner fe.threadVaddr = some pt) (htype : pt.type = .mmf)
    (hinf : pt.fileInfo = some inf) (h : s.storedByte cur fe inf f o = some x) :
    f = inf.file ∧ ∃ j, s.MapsByte fe.owner fe.threadVaddr inf j ∧ o = inf.offset + j.val := by
  rw [Vm.storedByte] at h
  split at h
  · rename_i hall
    obtain ⟨-, hf, hle, hlt⟩ := hall
    have hfills := hinfos.fills hpt hinf
    unfold pgSize at hfills
    exact ⟨hf, ⟨o - inf.offset, by omega⟩, ⟨⟨pt, hpt, htype, hinf⟩, by dsimp only; omega⟩,
      by dsimp only; omega⟩
  · cases h

/-- The page that is taken out has its bytes in the file. -/
theorem Vm.PagedOut.saved (hout : s.PagedOut cur fe s1) (hinv : s.Sound)
    (hresident : s.mapped fe.owner fe.threadVaddr = some fe.page)
    (halign : fe.threadVaddr % pgSize = 0)
    (hright : ∀ pt info, s.DirtyMapped fe pt info → s.SeesOwnerBytes cur fe info)
    (hbyte : s.MapsByte fe.owner fe.threadVaddr info i)
    (h : s.Holds fe.owner fe.threadVaddr info i b) :
    (s1.file info.file)[info.offset + i.val]? = some b := by
  obtain ⟨⟨e, he, htype, hinfo⟩, hi⟩ := hbyte
  rw [Vm.Holds, hresident] at h
  obtain ⟨hmemory, hsafe⟩ := h
  cases hout with
  | swap slot hnone =>
    rw [he] at hnone
    cases hnone
  | file pt inf hpt hinf hentry hfile =>
    rw [he] at hpt
    cases hpt
    rw [hinfo] at hinf
    cases hinf
    have hfills := hinv.infos.fills he hinfo
    have hsize : info.readBytes ≤ 4096 := by
      unfold pgSize at hfills
      omega
    rw [hfile]
    cases hdirty : (s.process fe.owner).pagedir.isDirty fe.threadVaddr with
    | false =>
      rw [hdirty] at hsafe
      have hstored : s.storedByte cur fe info info.file (info.offset + i.val) = none := by
        rw [Vm.storedByte, Vm.writesBack, hdirty]
        simp
      rw [hstored, Option.none_or]
      exact hsafe.resolve_left Bool.false_ne_true
    | true =>
      have huser := hinv.frames.user _ _ _ hresident
      have hsees := (hright e info ⟨he, htype, hinfo, hresident, hdirty, halign, huser,
        by omega, hsize⟩).byte hi hsize
      have hreads : info.readBytes ≠ 0 := by omega
      split at hsees
      · rename_i hdenied
        have hstored : s.storedByte cur fe info info.file (info.offset + i.val) = none := by
          rw [Vm.storedByte, Vm.writesBack, hdenied]
          simp
        rw [hstored, Option.none_or, hsees, hmemory]
      · rename_i hallowed
        obtain ⟨page, hpage, hsame⟩ := hsees
        have hwrites : s.writesBack fe info = true := by
          simp [Vm.writesBack, hdirty, hreads, hallowed]
        rw [Vm.storedByte, if_pos ⟨hwrites, rfl, by omega, by omega⟩, Vm.pageContents, hpage]
        simp [hsame, hmemory]

/-- The file bytes of the other pages stay as they are. -/
theorem Vm.PagedOut.others (hout : s.PagedOut cur fe s1) (hinv : s.Sound) (hkeeps : s.KeepsInfos s1)
    (honce : s.MapsOnce) (hbyte : s.MapsByte p v info i)
    (hne : ¬ (p = fe.owner ∧ v = fe.threadVaddr)) :
    (s1.file info.file)[info.offset + i.val]? = (s.file info.file)[info.offset + i.val]? := by
  cases hout with
  | swap slot hnone hentry hpage hfile => rw [hfile]
  | file pt inf hpt hinf hentry hfile =>
    have htype : pt.type = .mmf := by
      have hafter := hentry fe.owner fe.threadVaddr
      rw [if_pos ⟨rfl, rfl⟩] at hafter
      obtain ⟨e0, he0, -, htype⟩ := hkeeps.entry hafter hinf
      rw [hpt] at he0
      cases he0
      exact htype
    rw [hfile]
    cases hstored : s.storedByte cur fe inf info.file (info.offset + i.val) with
    | none => rfl
    | some x =>
      obtain ⟨hf, j, hj, ho⟩ := storedByte_mapped hinv.infos hpt htype hinf hstored
      exact absurd (honce _ _ _ _ _ _ _ _ hbyte hj hf ho) hne

/-- A byte is kept while a frame is found for another page. -/
theorem FrameFound.holds (hfound : FrameFound s cur frm s1) (hinv : s.Sound)
    (hkeeps : s.KeepsInfos s1) (hfree : s1.mapped p v ≠ some frm)
    (hdirty : (s1.process p).pagedir.isDirty v = (s.process p).pagedir.isDirty v)
    (honce : s.MapsOnce) (hright : s.EvictsRight cur) (hv : v % pgSize = 0)
    (hbyte : s.MapsByte p v info i) (h : s.Holds p v info i b) : s1.Holds p v info i b := by
  cases hfound with
  | free _ _ hmapped hmemory _ hfile =>
    refine h.keeps ⟨hmapped p v, fun page hpage => hmemory page ?_, fun _ => hdirty⟩ (by rw [hfile]; exact id)
    rintro rfl
    exact hfree ((hmapped p v).trans hpage)
  | evicted fe hfull hvictim hresident _ hout hunmaps hmemory =>
    by_cases hsame : p = fe.owner ∧ v = fe.threadVaddr
    · obtain ⟨rfl, rfl⟩ := hsame
      have hsaved := hout.saved hinv hresident hv (fun pt inf => hright hfull fe pt inf hvictim) hbyte h
      rw [Vm.Holds, hunmaps, if_pos ⟨rfl, pgRoundDown_of_aligned hv⟩]
      exact hsaved
    · have hmapped : s1.mapped p v = s.mapped p v := by
        rw [hunmaps, if_neg]
        rintro ⟨hp, hround⟩
        rw [pgRoundDown_of_aligned hv] at hround
        exact hsame ⟨hp, hround⟩
      refine h.keeps ⟨hmapped, fun page _ => by rw [hmemory], fun _ => hdirty⟩ ?_
      rw [hout.others hinv hkeeps honce hbyte hsame]
      exact id

/-- A page directory whose dirty bits are those of process `cur`. -/
theorem Vm.isDirty_setPagedir {pd : Pagedir} (s : Vm) (cur p v : Nat)
    (h : pd.isDirty v = (s.process cur).pagedir.isDirty v) :
    ((s.setPagedir cur pd).process p).pagedir.isDirty v = (s.process p).pagedir.isDirty v := by
  by_cases hp : p = cur
  · rw [hp, Vm.setPagedir_process_self, h]
  · rw [Vm.setPagedir_process_ne s hp]

theorem Vm.isDirty_setPtSuppl (s : Vm) (cur : Nat) (table : PtSuppl) (p v : Nat) :
    ((s.setPtSuppl cur table).process p).pagedir.isDirty v = (s.process p).pagedir.isDirty v := by
  by_cases hp : p = cur
  · rw [hp, Vm.setPtSuppl_process_self]
  · rw [Vm.setPtSuppl_process_ne s hp]

/-- The dirty bit of a page outlives its eviction. -/
theorem pageOutEvictedFrame_dirty (h : pageOutEvictedFrame cur fe s = .ok ((), s')) (p v : Nat) :
    (s'.process p).pagedir.isDirty v = (s.process p).pagedir.isDirty v := by
  rw [pageOutEvictedFrame, Routine.get_bind_apply] at h
  cases hpt : (s.process fe.owner).ptSuppl.get fe.threadVaddr with
  | none =>
    rw [hpt] at h
    obtain ⟨slot, s1, hout, h⟩ := Routine.bind_ok.mp h
    cases slot with
    | none => cases h
    | some slot =>
      have hprocess := swapOut_process hout
      simp only [Routine.modify_bind_apply] at h
      obtain ⟨-, rfl⟩ := pagedirClearPage_ok h
      rw [Vm.isDirty_setPagedir _ _ _ _ (Pagedir.clearPage_isDirty _ _ _), Vm.isDirty_setPtSuppl,
        hprocess]
  | some pt =>
    rw [hpt] at h
    dsimp only at h
    split at h
    · cases hinfo : pt.fileInfo with
      | none =>
        rw [hinfo] at h
        cases h
      | some info =>
        rw [hinfo] at h
        obtain ⟨u, s1, hwrite, h⟩ := Routine.bind_ok.mp h
        simp only [Routine.modify_bind_apply] at h
        obtain ⟨-, rfl⟩ := pagedirClearPage_ok h
        rw [Vm.isDirty_setPagedir _ _ _ _ (Pagedir.clearPage_isDirty _ _ _), Vm.isDirty_setPtSuppl]
        rcases writeBackMmf_ok hwrite with ⟨-, rfl⟩ | ⟨-, hfile⟩
        · rfl
        · rcases fileWriteAt_ok hfile with ⟨-, rfl⟩ | ⟨-, page, -, rfl⟩
          · rfl
          · exact Vm.isDirty_setPagedir s _ _ _ (Pagedir.touch_isDirty fun _ => rfl)
    · cases h

theorem vmFrameAlloc_dirty {palZero : Bool} {vaddr : Nat}
    (h : vmFrameAlloc order cur palZero vaddr s = .ok (frm, s')) (p v : Nat) :
    (s'.process p).pagedir.isDirty v = (s.process p).pagedir.isDirty v := by
  rw [vmFrameAlloc, Routine.get_bind_apply] at h
  rcases hscan : s.userPool.scanAndFlip 0 1 false with _ | ⟨page, pool⟩
  · rw [hscan] at h
    dsimp only at h
    rw [evictAndGetFrame] at h
    obtain ⟨vict, s1, hselect, h⟩ := Routine.bind_ok.mp h
    obtain ⟨u, s2, hout, h⟩ := Routine.bind_ok.mp h
    cases h
    exact (pageOutEvictedFrame_dirty hout p v).trans (selectFrameToEvict_dirty hselect p v)
  · rw [hscan] at h
    cases h
    rfl

/-- A byte is kept while a frame is found for another page, and the frame is not that of its page. -/
theorem vmFrameAlloc_holds {palZero : Bool} {vaddr : Nat} (horder : ∀ fes, (order fes).Perm fes)
    (halign : vaddr % pgSize = 0) (hinv : s.Sound) (honce : s.MapsOnce) (hright : s.EvictsRight cur)
    (halloc : vmFrameAlloc order cur palZero vaddr s = .ok (frm, s1)) :
    (∀ p v, s1.mapped p v ≠ some frm) ∧ ∀ p v info i b, v % pgSize = 0 → s.MapsByte p v info i →
      s.Holds p v info i b → s1.Holds p v info i b := by
  have hheld := (vmFrameAlloc_frameInv horder halign hinv.frames halloc).1
  have hfree : ∀ p v, s1.mapped p v ≠ some frm := fun p v hv => (hheld.listed p v frm hv).1 rfl
  refine ⟨hfree, fun p v info i b hv hbyte h => ?_⟩
  exact (vmFrameAlloc_found hinv halloc).1.holds hinv (vmFrameAlloc_infos halloc) (hfree p v)
    (vmFrameAlloc_dirty halloc p v) honce hright hv hbyte h

/-! ### Loading a page -/

theorem vmFrameFree_keepsPage (hfrm : s.mapped p v ≠ some frm)
    (h : vmFrameFree frm s = .ok ((), s')) : s.KeepsPage p v s' ∧ s'.file = s.file := by
  cases h
  refine ⟨.of_process rfl fun page hpage => Function.update_of_ne ?_ _ _, rfl⟩
  rintro rfl
  exact hfrm hpage

theorem pagedirSetPage_keepsPage {upage : Nat} {writable ok : Bool} (hv : v % pgSize = 0)
    (hne : ok = true → ¬ (p = cur ∧ v = upage))
    (h : pagedirSetPage cur upage frm writable s = .ok (ok, s')) :
    s.KeepsPage p v s' ∧ s'.file = s.file := by
  rcases pagedirSetPage_ok h with ⟨-, rfl⟩ | ⟨rfl, kernelPages, pd, hpd, rfl⟩
  · exact ⟨.refl _ _ _, rfl⟩
  replace hne := hne rfl
  refine ⟨⟨?_, fun _ _ => rfl, fun hsome => ?_⟩, rfl⟩
  · rcases pagedirSetPage_maps h with ⟨hfalse, -⟩ | ⟨-, -, hmaps⟩
    · cases hfalse
    · rw [hmaps.mapped, if_neg]
      rintro ⟨hp, hround⟩
      rw [pgRoundDown_of_aligned hv] at hround
      exact hne ⟨hp, hround⟩
  · by_cases hp : p = cur
    · subst hp
      rw [Vm.setPagedir_process_self]
      exact Pagedir.setPage_isDirty hv (fun hsame => hne ⟨rfl, hsame⟩) hsome hpd
    · rw [Vm.setPagedir_process_ne _ hp]

theorem ptSupplFinish_keepsPage {e : PtSupplEntry} {pgdir ok : Bool}
    (hfrm : pgdir = false → s.mapped p v ≠ some frm)
    (h : ptSupplFinish cur frm e pgdir s = .ok (ok, s')) :
    s.KeepsPage p v s' ∧ s'.file = s.file := by
  rcases ptSupplFinish_ok h with ⟨-, -, hloaded⟩ | ⟨rfl, -, hgive⟩
  · cases hloaded
    exact ⟨.setPtSuppl _ _ _ _ _, rfl⟩
  · exact vmFrameFree_keepsPage (hfrm rfl) hgive

theorem ptSupplReadIn_keepsPage {e : PtSupplEntry} {ok : Bool} (hv : v % pgSize = 0)
    (hfrm : s.mapped p v ≠ some frm) (hne : ok = true → ¬ (p = cur ∧ v = e.vaddr))
    (h : ptSupplReadIn cur frm e inf s = .ok (ok, s')) :
    s.KeepsPage p v s' ∧ s'.file = s.file := by
  rw [ptSupplReadIn] at h
  obtain ⟨read, s1, hread, h⟩ := Routine.bind_ok.mp h
  obtain ⟨pgdir, s2, hset, hfinish⟩ := Routine.bind_ok.mp h
  obtain ⟨hmemory, hfile1⟩ : s.KeepsPage p v s1 ∧ s1.file = s.file := by
    cases hread
    exact ⟨.setMemory hfrm _, rfl⟩
  have hfrm1 : s1.mapped p v ≠ some frm := by rwa [hmemory.mapped]
  obtain rfl : ok = pgdir := by
    rcases ptSupplFinish_ok hfinish with ⟨rfl, rfl, -⟩ | ⟨rfl, rfl, -⟩
    · rfl
    · rfl
  have hmap : s1.KeepsPage p v s2 ∧ s2.file = s1.file := by
    split at hset
    · exact pagedirSetPage_keepsPage hv hne hset
    · cases hset
      exact ⟨.refl _ _ _, rfl⟩
  obtain ⟨hlast, hfile⟩ := ptSupplFinish_keepsPage (p := p) (v := v)
    (fun _ => by rwa [hmap.1.mapped]) hfinish
  exact ⟨(hmemory.trans hmap.1).trans hlast, (hfile.trans hmap.2).trans hfile1⟩

theorem swapInLoop_keepsPage {slot vaddr : Nat} {iters : List Nat} (hv : v % pgSize = 0)
    (halign : vaddr % pgSize = 0) (hne : ¬ (p = cur ∧ v = vaddr))
    (hfrm : ∀ page, s.mapped cur vaddr = some page → s.mapped p v ≠ some page)
    (h : swapInLoop cur slot vaddr iters s = .ok ((), s')) :
    s.KeepsPage p v s' ∧ s'.file = s.file := by
  induction iters generalizing s with
  | nil =>
    cases h
    exact ⟨.refl _ _ _, rfl⟩
  | cons iter iters ih =>
    rw [swapInLoop, List.forM_eq_forM, List.forM_cons] at h
    obtain ⟨u, s1, h1, h⟩ := Routine.bind_ok.mp h
    rw [Routine.get_bind_apply] at h1
    obtain ⟨data, s2, h2, h1⟩ := Routine.bind_ok.mp h1
    obtain rfl := Routine.lift_state h2
    cases hpage : (s2.process cur).pagedir.getPage vaddr with
    | none =>
      rw [hpage] at h1
      cases h1
    | some page =>
      rw [hpage] at h1
      cases h1
      have htouch : s2.KeepsPage p v
          (s2.setPagedir cur ((s2.process cur).pagedir.touch vaddr true)) := by
        refine .touch fun hp hround => ?_
        rw [pgRoundDown_of_aligned hv, pgRoundDown_of_aligned halign] at hround
        exact absurd ⟨hp, hround⟩ hne
      have hself : ∀ t : Vm, (t.setPagedir cur ((t.process cur).pagedir.touch vaddr true)).mapped
          cur vaddr = t.mapped cur vaddr := by
        intro t
        rw [Vm.mapped_setPagedir, if_pos rfl, Pagedir.touch_getPage, Vm.mapped]
      have hother := hfrm page hpage
      have hkeep := htouch.trans (.setMemory (by rwa [htouch.mapped])
        ((s2.memory page).setSector iter data))
      have hnext := hkeep.mapped
      obtain ⟨hlast, hfile⟩ := ih (fun page' hpage' hp => by
        exact hfrm page' ((hself s2).symm.trans hpage') (hnext.symm.trans hp)) h
      exact ⟨hkeep.trans hlast, hfile⟩

theorem ptSupplSwapIn_keepsPage {e : PtSupplEntry} {ok : Bool} (hv : v % pgSize = 0)
    (hfrm : s.mapped p v ≠ some frm) (hne : ¬ (p = cur ∧ v = e.vaddr))
    (h : ptSupplSwapIn cur frm e s = .ok (ok, s')) : s.KeepsPage p v s' ∧ s'.file = s.file := by
  rw [ptSupplSwapIn] at h
  obtain ⟨pgdir, s1, hset, hrest⟩ := Routine.bind_ok.mp h
  obtain ⟨hmap, hfile1⟩ := pagedirSetPage_keepsPage hv (fun _ => hne) hset
  have hfrm1 : s1.mapped p v ≠ some frm := by rwa [hmap.mapped]
  cases pgdir with
  | true =>
    obtain ⟨u, s2, hin, hfinish⟩ := Routine.bind_ok.mp hrest
    replace hfinish : ptSupplFinish cur frm e true s2 = .ok (ok, s') := hfinish
    rw [swapIn] at hin
    obtain ⟨u', s3, hloop, hflip⟩ := Routine.bind_ok.mp hin
    cases hflip
    have hmaps : e.vaddr % pgSize = 0 ∧ s.Maps cur e.vaddr frm s1 := by
      rcases pagedirSetPage_maps hset with ⟨hfalse, -⟩ | ⟨-, halign, hmaps⟩
      · cases hfalse
      · exact ⟨halign, hmaps⟩
    obtain ⟨hloops, hfile3⟩ := swapInLoop_keepsPage hv hmaps.1 hne (fun page hpage => by
      rw [hmaps.2.mapped, if_pos ⟨rfl, pgRoundDown_of_aligned hmaps.1⟩] at hpage
      cases hpage
      exact hfrm1) hloop
    obtain ⟨hlast, hfile⟩ := ptSupplFinish_keepsPage (p := p) (v := v)
      (by simp) hfinish
    have hslot : s3.KeepsPage p v { s3 with swapBm := s3.swapBm.flip e.swapSlot } :=
      .of_process rfl fun _ _ => rfl
    exact ⟨((hmap.trans hloops).trans hslot).trans hlast, (hfile.trans hfile3).trans hfile1⟩
  | false =>
    replace hrest : ptSupplFinish cur frm e false s1 = .ok (ok, s') := hrest
    obtain ⟨hlast, hfile⟩ := ptSupplFinish_keepsPage (p := p) (v := v) (fun _ => hfrm1) hrest
    exact ⟨hmap.trans hlast, hfile.trans hfile1⟩

/-- A page-in keeps the bytes written, in the page that it loads and in the others. -/
theorem ptSupplPageIn_holds {vaddr : Nat} {ok : Bool} (horder : ∀ fes, (order fes).Perm fes)
    (halign : vaddr % pgSize = 0) (hinv : s.Sound) (hresident : s.Resident) (honce : s.MapsOnce)
    (hright : s.EvictsRight cur) (hnone : s.mapped cur vaddr = none)
    (h : ptSupplPageIn order cur vaddr s = .ok (ok, s')) (hv : v % pgSize = 0)
    (hbyte : s.MapsByte p v info i) (hbefore : s.Holds p v info i b) : s'.Holds p v info i b := by
  obtain ⟨frm, s1, e, halloc, hentry, hbranch⟩ := ptSupplPageIn_found h
  have hvaddr : e.vaddr = vaddr := (s1.process cur).ptSuppl.vaddr_eq hentry
  rw [vmFrameAlloc_entry hinv.frames halign hnone halloc] at hentry
  obtain ⟨hfree, hfound⟩ := vmFrameAlloc_holds horder halign hinv honce hright halloc
  replace hbefore := hfound p v info i b hv hbyte hbefore
  by_cases hsame : p = cur ∧ v = vaddr
  · obtain ⟨rfl, rfl⟩ := hsame
    obtain ⟨⟨e', he', htype, hinfo⟩, hi⟩ := hbyte
    rw [hentry] at he'
    cases he'
    rcases hbranch with ⟨hpresence, -⟩ | ⟨inf, -, hinf, hread⟩
    · -- a page of a mapped file is not in swap
      rcases hresident p v e hentry htype with hunloaded | ⟨hpresent, -⟩
      · rw [hunloaded] at hpresence
        cases hpresence
      · rw [hpresent] at hpresence
        cases hpresence
    rw [hinfo] at hinf
    cases hinf
    cases ok with
    | false =>
      obtain ⟨hkeep, hfile⟩ := ptSupplReadIn_keepsPage hv (hfree p v) (by simp) hread
      exact hbefore.keeps hkeep (by rw [hfile]; exact id)
    | true =>
      have hnone1 : s1.mapped p v = none := by
        cases (vmFrameAlloc_found hinv halloc).1 with
        | free _ _ hmapped => rw [hmapped, hnone]
        | evicted fe _ _ _ _ _ hunmaps => rw [hunmaps, hnone, ite_self]
      rw [Vm.Holds, hnone1] at hbefore
      obtain ⟨hmapped, hmemory, hfile⟩ := ptSupplReadIn_contents hread
      rw [hvaddr] at hmapped
      rw [Vm.Holds, Vm.mapped, hmapped]
      refine ⟨?_, .inr (by rw [hfile]; exact hbefore)⟩
      rw [hmemory, Function.update_self, Vm.readPage_apply, Vm.fileByte, if_neg (by omega), if_pos hi,
        hbefore]
      rfl
  · rw [← hvaddr] at hsame
    obtain ⟨hkeep, hfile⟩ : s1.KeepsPage p v s' ∧ s'.file = s1.file := by
      rcases hbranch with ⟨-, hin⟩ | ⟨inf, -, -, hread⟩
      · exact ptSupplSwapIn_keepsPage hv (hfree p v) hsame hin
      · exact ptSupplReadIn_keepsPage hv (hfree p v) (fun _ => hsame) hread
    exact hbefore.keeps hkeep (by rw [hfile]; exact id)

/-- A page of zeros is mapped where there is no entry. -/
theorem installFrame_holds {upage : Nat} {mapped : Bool} {s2 : Vm} (hnone : s.entry cur upage = none)
    (hbyte : s.MapsByte p v info i) (hv : v % pgSize = 0) (hfrm : s1.mapped p v ≠ some frm)
    (hset : pagedirSetPage cur upage frm true s1 = .ok (mapped, s2))
    (hend : if mapped then s' = s2 else vmFrameFree frm s2 = .ok ((), s'))
    (h : s1.Holds p v info i b) : s'.Holds p v info i b := by
  have hne : ¬ (p = cur ∧ v = upage) := by
    rintro ⟨rfl, rfl⟩
    obtain ⟨⟨e, he, -⟩, -⟩ := hbyte
    rw [hnone] at he
    cases he
  obtain ⟨hkeep, hfile⟩ := pagedirSetPage_keepsPage hv (fun _ => hne) hset
  cases mapped with
  | true =>
    obtain rfl : s' = s2 := hend
    exact h.keeps hkeep (by rw [hfile]; exact id)
  | false =>
    obtain ⟨hlast, hfile'⟩ := vmFrameFree_keepsPage (by rwa [hkeep.mapped]) hend
    exact h.keeps (hkeep.trans hlast) (by rw [hfile', hfile]; exact id)

theorem ptSupplGrowStack_holds {front : Nat} (horder : ∀ fes, (order fes).Perm fes) (hinv : s.Sound)
    (honce : s.MapsOnce) (hright : s.EvictsRight cur) (hnone : s.entry cur (pgRoundDown front) = none)
    (h : ptSupplGrowStack order cur front s = .ok ((), s')) (hv : v % pgSize = 0)
    (hbyte : s.MapsByte p v info i) (hbefore : s.Holds p v info i b) : s'.Holds p v info i b := by
  rw [ptSupplGrowStack] at h
  obtain ⟨frm, s1, halloc, h⟩ := Routine.bind_ok.mp h
  obtain ⟨mapped, s2, hset, h⟩ := Routine.bind_ok.mp h
  obtain ⟨hfree, hfound⟩ :=
    vmFrameAlloc_holds horder (pgRoundDown_aligned front) hinv honce hright halloc
  refine installFrame_holds hnone hbyte hv (hfree p v) hset ?_ (hfound p v info i b hv hbyte hbefore)
  cases mapped with
  | true =>
    cases h
    rfl
  | false => exact h

theorem setupStackPage_holds {ok : Bool} (horder : ∀ fes, (order fes).Perm fes) (hinv : s.Sound)
    (honce : s.MapsOnce) (hright : s.EvictsRight cur)
    (hnone : s.entry cur (physBase - pgSize) = none)
    (h : setupStackPage order cur s = .ok (ok, s')) (hv : v % pgSize = 0)
    (hbyte : s.MapsByte p v info i) (hbefore : s.Holds p v info i b) : s'.Holds p v info i b := by
  rw [setupStackPage] at h
  obtain ⟨frm, s1, halloc, h⟩ := Routine.bind_ok.mp h
  obtain ⟨result, s2, hinstall, h⟩ := Routine.bind_ok.mp h
  obtain ⟨hfree, hfound⟩ := vmFrameAlloc_holds horder rfl hinv honce hright halloc
  replace hbefore := hfound p v info i b hv hbyte hbefore
  have hend : if result then s' = s2 else vmFrameFree frm s2 = .ok ((), s') := by
    cases result with
    | true =>
      cases h
      rfl
    | false =>
      obtain ⟨u, s3, hgive, h⟩ := Routine.bind_ok.mp h
      cases h
      exact hgive
  rw [installPage, Routine.get_bind_apply] at hinstall
  split at hinstall
  · exact installFrame_holds hnone hbyte hv (hfree p v) hinstall hend hbefore
  · cases hinstall
    obtain ⟨hkeep, hfile⟩ := vmFrameFree_keepsPage (hfree p v) hend
    exact hbefore.keeps hkeep (by rw [hfile]; exact id)

theorem pageFault_holds {faultAddr esp : Nat} {ok : Bool} (horder : ∀ fes, (order fes).Perm fes)
    (hinv : s.Sound) (hresident : s.Resident) (honce : s.MapsOnce) (hright : s.EvictsRight cur)
    (h : pageFault order cur faultAddr esp s = .ok (ok, s')) (hv : v % pgSize = 0)
    (hbyte : s.MapsByte p v info i) (hbefore : s.Holds p v info i b) : s'.Holds p v info i b := by
  rcases pageFault_found h with
    ⟨-, rfl, -⟩ | ⟨hnone, -, -, -, ⟨e, -, handled, hin, -⟩ | ⟨hentry, handled, hgrow⟩⟩
  · exact hbefore
  · refine ptSupplPageIn_holds horder (pgRoundDown_aligned faultAddr) hinv hresident honce hright ?_ hin
      hv hbyte hbefore
    rw [Vm.mapped, Pagedir.getPage_round, hnone]
  · rcases ptSupplCheckAndGrowStack_found hgrow with ⟨-, rfl⟩ | ⟨-, hgrow⟩
    · exact hbefore
    · exact ptSupplGrowStack_holds horder hinv honce hright hentry hgrow hv hbyte hbefore

/-! ### Accesses -/

/-- A frame backs one page. -/
theorem Vm.FrameInv.mapped_inj {q u page : Nat} (hinv : s.FramesAgree)
    (hp : s.mapped p v = some page) (hq : s.mapped q u = some page) :
    p = q ∧ pgRoundDown v = pgRoundDown u := by
  have hsame := hinv.unique (hinv.listed p v page hp).2 (hinv.listed q u page hq).2 rfl
  exact ⟨congrArg FrameEntry.owner hsame, congrArg FrameEntry.threadVaddr hsame⟩

/-- The byte that is written is in the frame of a dirty page. -/
theorem access_writes {vaddr : Nat} {value : UInt8} {ok : Bool} (hsome : (s.mapped cur vaddr).isSome)
    (hi : i.val = vaddr % pgSize) (h : access cur vaddr (some value) s = .ok (ok, s')) :
    s'.Holds cur (pgRoundDown vaddr) info i value := by
  obtain ⟨page, hpage⟩ := Option.isSome_iff_exists.mp hsome
  have hget : (s.process cur).pagedir.getPage vaddr = some page := hpage
  rw [access, Routine.get_bind_apply, hget] at h
  obtain ⟨hmapped, hdirty⟩ := Pagedir.touch_written hget
  cases h
  rw [Vm.Holds, Vm.mapped]
  simp [Vm.setMemory, hmapped, hdirty, hi]

/-- An access that does not write the byte leaves it where it is. -/
theorem access_holds {vaddr : Nat} {write : Option UInt8} {ok : Bool} (hinv : s.FramesAgree)
    (hv : v % pgSize = 0)
    (hnot : write.isSome → ¬ ((s.mapped cur vaddr).isSome ∧ p = cur ∧ v = pgRoundDown vaddr ∧
      i.val = vaddr % pgSize))
    (h : access cur vaddr write s = .ok (ok, s')) (hbefore : s.Holds p v info i b) :
    s'.Holds p v info i b := by
  rw [access, Routine.get_bind_apply] at h
  cases hget : (s.process cur).pagedir.getPage vaddr with
  | none =>
    rw [hget] at h
    cases h
    exact hbefore
  | some page =>
    rw [hget] at h
    cases write with
    | none =>
      cases h
      exact hbefore.keeps (.touch fun _ _ => rfl) id
    | some value =>
      cases h
      have hround := pgRoundDown_of_aligned hv
      by_cases hsame : p = cur ∧ v = pgRoundDown vaddr
      · obtain ⟨rfl, rfl⟩ := hsame
        have hother : ¬ i.val = vaddr % pgSize := fun hi =>
          hnot rfl ⟨by rw [Vm.mapped, hget]; rfl, rfl, rfl, hi⟩
        obtain ⟨hmapped, hdirty⟩ := Pagedir.touch_written hget
        rw [Vm.Holds, Vm.mapped, Pagedir.getPage_round, hget] at hbefore
        rw [Vm.Holds, Vm.mapped]
        have hbyte : (s.setPagedir p ((s.process p).pagedir.touch vaddr true)).memory page i = b :=
          hbefore.1
        simpa [Vm.setMemory, hmapped, hdirty, hother] using hbyte
      · have htouch : s.KeepsPage p v
            (s.setPagedir cur ((s.process cur).pagedir.touch vaddr true)) := by
          refine .touch fun hp hv' => ?_
          rw [hround] at hv'
          exact absurd ⟨hp, hv'⟩ hsame
        refine hbefore.keeps (htouch.trans (.setMemory ?_ _)) id
        rw [htouch.mapped]
        intro hmapped
        obtain ⟨hp, hv'⟩ := hinv.mapped_inj hmapped hget
        rw [hround] at hv'
        exact hsame ⟨hp, hv'⟩

/-! ### Mappings -/

theorem Vm.KeepsInfos.mapsByte (h : s.KeepsInfos s') (hbyte : s'.MapsByte p v info i) :
    s.MapsByte p v info i := by
  obtain ⟨⟨e, he, htype, hinfo⟩, hi⟩ := hbyte
  obtain ⟨e0, he0, hinfo0, htype0⟩ := h.entry he hinfo
  exact ⟨⟨e0, he0, htype0.trans htype, hinfo0⟩, hi⟩

theorem Vm.MapsOnce.keeps (h : s.MapsOnce) (hkeeps : s.KeepsInfos s') : s'.MapsOnce :=
  fun p v info i q u inf j hp hq => h p v info i q u inf j (hkeeps.mapsByte hp) (hkeeps.mapsByte hq)

/-- Entries have been added, and nothing else has happened. -/
structure Vm.OnlyAdds (s s' : Vm) : Prop where
  page : ∀ p v, s.KeepsPage p v s'
  file : s'.file = s.file
  entry : ∀ {p v e}, s.entry p v = some e → s'.entry p v = some e

theorem Vm.OnlyAdds.refl (s : Vm) : s.OnlyAdds s := ⟨.refl s, rfl, id⟩

theorem Vm.OnlyAdds.trans (h1 : s.OnlyAdds s1) (h2 : s1.OnlyAdds s') : s.OnlyAdds s' :=
  ⟨fun p v => (h1.page p v).trans (h2.page p v), h2.file.trans h1.file,
    fun he => h2.entry (h1.entry he)⟩

/-- The file part of a page that had an entry is the one it had. -/
theorem Vm.OnlyAdds.mapsByte (h : s.OnlyAdds s') (hsome : (s.entry p v).isSome)
    (hbyte : s'.MapsByte p v info i) : s.MapsByte p v info i := by
  obtain ⟨⟨e', he', hrest⟩, hi⟩ := hbyte
  obtain ⟨e, he⟩ := Option.isSome_iff_exists.mp hsome
  rw [h.entry he] at he'
  cases he'
  exact ⟨⟨_, he, hrest⟩, hi⟩

theorem Vm.OnlyAdds.holds (h : s.OnlyAdds s') (hbefore : s.Holds p v info i b) :
    s'.Holds p v info i b :=
  hbefore.keeps (h.page p v) (by rw [h.file]; exact id)

theorem ptSupplAdd_onlyAdds {e : PtSupplEntry} {ok : Bool} (h : ptSupplAdd cur e s = .ok (ok, s')) :
    s.OnlyAdds s' := by
  rw [ptSupplAdd, Routine.get_bind_apply] at h
  split at h
  · rename_i hnone
    cases h
    refine ⟨.setPtSuppl s cur _, rfl, fun {p v e'} he => ?_⟩
    rw [Vm.setsEntry_put, if_neg, he]
    rintro ⟨rfl, rfl⟩
    rw [Vm.entry] at he
    rw [he] at hnone
    cases hnone
  · cases h
    exact .refl _

theorem mmapLoop_onlyAdds {fe len pageAddress : Nat} {ofss : List Nat} {ok : Bool}
    (h : mmapLoop cur fe len ofss pageAddress s = .ok (ok, s')) : s.OnlyAdds s' := by
  induction ofss generalizing s pageAddress with
  | nil =>
    cases h
    exact .refl _
  | cons ofs ofss ih =>
    rw [mmapLoop, Routine.get_bind_apply] at h
    split at h
    · cases h
      exact .refl _
    · by_cases huser : physBase ≤ (pageAddress + ofs) % 2 ^ 32
      · rw [if_pos huser] at h
        cases h
      · rw [if_neg huser] at h
        beta_reduce at h
        split at h
        · cases h
          exact .refl _
        · obtain ⟨added, s1, hadd, h⟩ := Routine.bind_ok.mp h
          rw [ptSupplAddMmf, Routine.get_bind_apply] at hadd
          exact (ptSupplAdd_onlyAdds hadd).trans (ih h)

theorem ptSupplHandleMmap_onlyAdds {fe startPg : Nat} {r : Int}
    (h : ptSupplHandleMmap cur fe startPg s = .ok (r, s')) : s.OnlyAdds s' := by
  rw [ptSupplHandleMmap, Routine.get_bind_apply] at h
  split at h
  · cases h
    exact .refl _
  · obtain ⟨⟨⟩, s2, hcount, h⟩ := Routine.bind_ok.mp h
    cases hcount
    obtain ⟨ok, s3, hloop, h⟩ := Routine.bind_ok.mp h
    have hlast : s' = s3 := by
      split at h <;> cases h <;> rfl
    subst hlast
    have hcounted : s.OnlyAdds { s with lastMap := s.lastMap + 1 } :=
      ⟨fun p v => .of_process rfl fun _ _ => rfl, rfl, id⟩
    exact hcounted.trans (mmapLoop_onlyAdds hloop)

/-- What `munmap` writes is a byte of the page whose entry it has deleted. -/
theorem ptSupplFlushMmf_holds {e : PtSupplEntry} (hinfos : s.InfosInv) (honce : s.MapsOnce)
    (he : s.entry cur e.vaddr = some e) (htype : e.type = .mmf)
    (hbyte : s.MapsByte p v info i) (hne : ¬ (p = cur ∧ v = e.vaddr))
    (hkeep : s.KeepsPage p v s1) (hfile : s1.file = s.file)
    (h : ptSupplFlushMmf cur e s1 = .ok ((), s')) (hbefore : s.Holds p v info i b) :
    s'.Holds p v info i b := by
  have hbefore1 : s1.Holds p v info i b := hbefore.keeps hkeep (by rw [hfile]; exact id)
  rw [ptSupplFlushMmf] at h
  split at h
  · cases hinf : e.fileInfo with
    | none =>
      rw [hinf] at h
      cases h
    | some inf =>
      rw [hinf] at h
      rcases fileWriteAt_ok h with ⟨-, rfl⟩ | ⟨-, page, -, rfl⟩
      · exact hbefore1
      · have hpage : s1.KeepsPage p v
            (s1.setPagedir cur ((s1.process cur).pagedir.touch e.vaddr false)) := .touch fun _ _ => rfl
        refine hbefore1.keeps (hpage.trans (.of_process rfl fun _ _ => rfl)) fun hb => ?_
        show (Function.update s1.file inf.file _ info.file)[info.offset + i.val]? = some b
        have hfills := hinfos.fills he hinf
        unfold pgSize at hfills
        have hlen := PageData.length_copyOut (s1.memory page)
          (show inf.readBytes ≤ 4096 by omega)
        by_cases hf : info.file = inf.file
        · have hwithin := hinfos.within he hinf htype
          rw [hf, Function.update_self, getElem?_overwrite (by rw [hlen, hfile]; exact hwithin), hlen,
            if_neg, ← hf, hb]
          rintro ⟨hle, hlt⟩
          have hj : info.offset + i.val - inf.offset < 4096 := by omega
          refine hne (honce p v info i cur e.vaddr inf ⟨_, hj⟩ hbyte ⟨⟨e, he, htype, hinf⟩, ?_⟩ hf ?_)
          · dsimp only
            omega
          · dsimp only
            omega
        · rw [Function.update_of_ne hf, hb]
  · cases h
    exact hbefore1

/-- The loop of `munmap` keeps the bytes written through the pages of other mappings. -/
theorem unmapLoop_holds {mapId fuel : Nat} (hinfos : s.InfosInv) (honce : s.MapsOnce)
    (h : unmapLoop bucket cur mapId fuel s = .ok ((), s')) (hbyte : s'.MapsByte p v info i)
    (hbefore : s.Holds p v info i b) : s'.Holds p v info i b := by
  induction fuel generalizing s with
  | zero => cases h
  | succ fuel ih =>
    rw [unmapLoop, Routine.get_bind_apply] at h
    cases hfound : findMapping (bucket (s.process cur).ptSuppl) (s.process cur).ptSuppl mapId with
    | none =>
      rw [hfound] at h
      cases h
      exact hbefore
    | some delet =>
      rw [hfound] at h
      obtain ⟨hget, hin⟩ := findMapping_found hfound
      have htype := PtSupplEntry.type_of_inMapping hin
      obtain ⟨⟨⟩, s1, hset, h⟩ := Routine.bind_ok.mp h
      have hdelete : s.SetsEntry cur delet.vaddr none s1 := by
        cases hset
        exact Vm.setsEntry_delete s cur delet.vaddr
      obtain ⟨hkeep, hfile⟩ : s.KeepsPage p v s1 ∧ s1.file = s.file := by
        cases hset
        exact ⟨.setPtSuppl _ _ _ _ _, rfl⟩
      have hinfos1 : s.KeepsInfos s1 := .sets hdelete hfile (by simp)
      have hgone : s1.MapsByte p v info i → ¬ (p = cur ∧ v = delet.vaddr) := by
        rintro ⟨⟨e, he, -⟩, -⟩ hsame
        rw [hdelete, if_pos hsame] at he
        cases he
      split at h
      · obtain ⟨u, s2, hrun, h⟩ := Routine.bind_ok.mp h
        have hinfos2 := hinfos1.trans (ptSupplFlushMmf_infos hrun)
        have hbyte1 := (ptSupplFlushMmf_infos hrun).mapsByte ((unmapLoop_infos h).mapsByte hbyte)
        exact ih (hinfos2.keeps hinfos) (honce.keeps hinfos2) h
          (ptSupplFlushMmf_holds hinfos honce hget htype (hinfos1.mapsByte hbyte1) (hgone hbyte1) hkeep
            hfile hrun hbefore)
      · exact ih (hinfos1.keeps hinfos) (honce.keeps hinfos1) h
          (hbefore.keeps hkeep (by rw [hfile]; exact id))

/-! ### The end of a process -/

/-- `pagedir_destroy` leaves the frames alone that the page directory does not map. -/
theorem pagedirDestroy_memory {pd : Pagedir} {page : Nat} (data : PageData)
    (hnot : page ∉ pd.presentPages) :
    Routine.Runs (fun (s : Vm) d => s.memory page = d) (pagedirDestroy pd) data () data := by
  have hpages : Routine.Runs (fun (s : Vm) d => s.memory page = d)
      (modify fun s => { s with kernelPages := s.kernelPages + 1 } : VmRoutine Unit) data () data :=
    .of_modify fun s hs => hs
  rw [pagedirDestroy]
  refine (Routine.Runs.forM fun pde hpde => ?_).bind hpages
  split
  · rename_i htable
    refine (Routine.Runs.forM fun pte hpte => ?_).bind hpages
    dsimp only
    split
    · rename_i hpresent
      refine .of_modify fun s hs => ?_
      refine (Function.update_of_ne ?_ _ _).trans hs
      rintro rfl
      refine hnot ?_
      rw [Pagedir.presentPages, List.mem_flatMap]
      refine ⟨pde, hpde, ?_⟩
      rw [if_pos htable, List.mem_filterMap]
      exact ⟨pte, hpte, by rw [if_pos hpresent]⟩
    · exact .pure
  · exact .pure

theorem processExit_keepsPage (hinv : s.FramesAgree) (hp : p ≠ cur)
    (h : processExit cur s = .ok ((), s')) : s.KeepsPage p v s' ∧ s'.file = s.file := by
  obtain ⟨t, hends, hprocess, -, hfile⟩ := processExit_ends cur s
  cases h.symm.trans hends
  have hsame : s'.process p = s.process p := by rw [hprocess, Function.update_of_ne hp]
  refine ⟨⟨by rw [Vm.mapped, hsame]; rfl, fun page hpage => ?_, fun _ => by rw [hsame]⟩, hfile⟩
  have hnot : page ∉ (s.process cur).pagedir.presentPages := by
    rw [Pagedir.mem_presentPages]
    rintro ⟨u, -, -, hu⟩
    exact hp (hinv.mapped_inj hpage hu).1
  rw [processExit, Routine.get_bind_apply, Routine.modify_bind_apply] at h
  obtain ⟨s1, hdestroy, hmemory⟩ := pagedirDestroy_memory (s.memory page) hnot
    (s.setPagedir cur Pagedir.empty) rfl
  rw [Routine.bind_of_ok hdestroy] at h
  cases h
  exact hmemory

/-! ### Runs -/

/-- No byte of a file is mapped twice; where the operation finds a frame, the bytes of an evicted page
are written as the owner has them; and a stack is set up where nothing is mapped. -/
def PagingOp.KeepsWritten (op : PagingOp) (s : Vm) : Prop :=
  s.MapsOnce ∧ match op with
    | .page (.setupStack cur) => s.EvictsRight cur ∧ s.entry cur (physBase - pgSize) = none
    | .page (.pageFault cur _ _) => s.EvictsRight cur
    | _ => True

/-- The bytes last written through the pages of mapped files are where they are looked for. -/
structure Vm.Tracked (s : Vm) (w : LastWritten) : Prop where
  aligned : ∀ {p v i b}, w p v i = some b → v % pgSize = 0
  holds : ∀ {p v info i b}, s.MapsByte p v info i → w p v i = some b → s.Holds p v info i b

theorem PagingOp.writes_some (h : op.writes s p v i = some b) : ∃ cur vaddr,
    op = .page (.access cur vaddr (some b)) ∧ (s.mapped cur vaddr).isSome ∧ p = cur ∧
      v = pgRoundDown vaddr ∧ i.val = vaddr % pgSize := by
  unfold writes at h
  split at h
  · rename_i cur vaddr value
    split at h
    · rename_i hall
      cases h
      exact ⟨cur, vaddr, rfl, hall⟩
    · cases h
  · cases h

/-- A byte recorded after an operation was written by it, or recorded before it. -/
theorem LastWritten.of_after (h : w.after s op p v i = some b) : (s.entry p v).isSome ∧
    (op.writes s p v i = some b ∨ op.writes s p v i = none ∧ w p v i = some b) := by
  rw [after] at h
  split at h
  · cases h
  · rename_i hsome
    rw [← Option.isSome_eq_false_iff, Bool.not_eq_false] at hsome
    exact ⟨hsome, Option.or_eq_some_iff.mp h⟩

/-- An operation keeps every byte of a mapping that it does not write. -/
theorem PagingOp.exec_holds (horder : ∀ fes, (order fes).Perm fes) (hproper : op.Proper)
    (hinv : s.Sound) (hresident : s.Resident) (hright : op.KeepsWritten s)
    (h : op.exec order bucket s = .ok ((), s')) (hsome : (s.entry p v).isSome) (hv : v % pgSize = 0)
    (hnot : op.writes s p v i = none) (hbyte : s'.MapsByte p v info i) :
    s.MapsByte p v info i ∧ (s.Holds p v info i b → s'.Holds p v info i b) := by
  obtain ⟨honce, hright⟩ := hright
  cases op with
  | page op =>
    obtain ⟨ok, s1, h, hend⟩ := Routine.bind_ok.mp h
    cases hend
    cases op with
    | addLazy cur file offset pageAddr readBytes zeroBytes writable =>
      rw [VmOp.exec, ptSupplAddLazy, Routine.get_bind_apply] at h
      have hadds := ptSupplAdd_onlyAdds h
      exact ⟨hadds.mapsByte hsome hbyte, hadds.holds⟩
    | addMmf cur file offset pageAddr readBytes => exact absurd hproper id
    | setupStack cur =>
      have hbefore := (setupStackPage_infos h).mapsByte hbyte
      exact ⟨hbefore, setupStackPage_holds horder hinv honce hright.1 hright.2 h hv hbefore⟩
    | pageFault cur faultAddr esp =>
      have hbefore := (pageFault_infos h).mapsByte hbyte
      exact ⟨hbefore, pageFault_holds horder hinv hresident honce hright h hv hbefore⟩
    | access cur vaddr write =>
      refine ⟨(access_infos h).mapsByte hbyte, access_holds hinv.frames hv (fun hwrite => ?_) h⟩
      obtain ⟨value, rfl⟩ := Option.isSome_iff_exists.mp hwrite
      intro hall
      rw [writes, if_pos hall] at hnot
      cases hnot
  | mmap cur fe startPg =>
    obtain ⟨r, s1, h, hend⟩ := Routine.bind_ok.mp h
    cases hend
    have hadds := ptSupplHandleMmap_onlyAdds h
    exact ⟨hadds.mapsByte hsome hbyte, hadds.holds⟩
  | munmap cur mapId =>
    rw [PagingOp.exec, memoryUnmapFile, ptSupplHandleUnmap, Routine.get_bind_apply] at h
    exact ⟨(unmapLoop_infos h).mapsByte hbyte, unmapLoop_holds hinv.infos honce h hbyte⟩
  | exit cur =>
    have hbefore := (processExit_infos h).mapsByte hbyte
    by_cases hp : p = cur
    · obtain ⟨t, hends, hprocess, -⟩ := processExit_ends cur s
      cases h.symm.trans hends
      obtain ⟨⟨e, he, -⟩, -⟩ := hbyte
      rw [hp, Vm.entry, hprocess, Function.update_self] at he
      cases he
    · obtain ⟨hkeep, hfile⟩ := processExit_keepsPage hinv.frames hp h
      exact ⟨hbefore, fun hb => hb.keeps hkeep (by rw [hfile]; exact id)⟩

/-- The step lemma. -/
theorem Vm.Tracked.exec (htracked : s.Tracked w) (horder : ∀ fes, (order fes).Perm fes)
    (hproper : op.Proper) (hinv : s.Sound) (hresident : s.Resident) (hright : op.KeepsWritten s)
    (h : op.exec order bucket s = .ok ((), s')) : s'.Tracked (w.after s op) where
  aligned hb := by
    obtain ⟨-, hwrites | ⟨-, hb⟩⟩ := LastWritten.of_after hb
    · obtain ⟨cur, vaddr, -, -, -, rfl, -⟩ := PagingOp.writes_some hwrites
      exact pgRoundDown_aligned vaddr
    · exact htracked.aligned hb
  holds {p v info i b} hbyte hb := by
    obtain ⟨hsome, hwrites | ⟨hnot, hb⟩⟩ := LastWritten.of_after hb
    · obtain ⟨cur, vaddr, rfl, hmapped, rfl, rfl, hi⟩ := PagingOp.writes_some hwrites
      obtain ⟨ok, s1, h, hend⟩ := Routine.bind_ok.mp h
      cases hend
      exact access_writes hmapped hi h
    · obtain ⟨hbefore, hkeeps⟩ := PagingOp.exec_holds horder hproper hinv hresident hright h hsome
        (htracked.aligned hb) hnot hbyte
      exact hkeeps (htracked.holds hbefore hb)

/-- The run lemma. -/
theorem tracked_of_run (horder : ∀ fes, (order fes).Perm fes) (hboot : s0.Unused)
    (hproper : ∀ op ∈ ops, op.Proper)
    (hright : ∀ op t, Routine.Takes (PagingOp.exec order bucket) ops s0 op t → op.KeepsWritten t)
    (h : Routine.Visits (PagingOp.execWritten order bucket) ops (s0, .nothing) (s, w)) :
    s.Tracked w := by
  have hstart : s0.Resident := fun p pg e he => by
    rw [hboot.booted.entry] at he
    cases he
  have hstep : ∀ (sw : Vm × LastWritten) (op : PagingOp) u (sw' : Vm × LastWritten),
      (sw.1.Sound ∧ sw.1.Resident ∧ sw.1.Tracked sw.2) → op.Proper ∧ op.KeepsWritten sw.1 →
        op.execWritten order bucket sw = .ok (u, sw') →
          sw'.1.Sound ∧ sw'.1.Resident ∧ sw'.1.Tracked sw'.2 := by
    rintro ⟨t, x⟩ op u ⟨t', x'⟩ ⟨hsound, hresident, htracked⟩ ⟨hop, hkeeps⟩ hrun
    obtain ⟨hexec, rfl⟩ := PagingOp.execWritten_ok.mp hrun
    exact ⟨op.exec_sound horder hop hsound hexec, hresident.exec hexec,
      htracked.exec horder hop hsound hresident hkeeps hexec⟩
  refine (h.invariant hstep (fun op sw htakes => ⟨?_, hright op sw.1 (takes_of_written htakes)⟩)
    ⟨hboot.sound, hstart, ?_⟩).2.2
  · obtain ⟨before, after, as, rfl, -⟩ := htakes
    exact hproper op (List.mem_append_right _ List.mem_cons_self)
  · exact ⟨fun hb => (nomatch hb), fun _ hb => (nomatch hb)⟩

end

end Pintos
