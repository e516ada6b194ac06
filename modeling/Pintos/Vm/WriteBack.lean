import Pintos.Vm.PageContents

/-! The write of a dirty mapped page to its file when another process takes its frame.
`page_out_evicted_frame` passes the user address of the page to `file_write_at`, and the thread that
runs it reads that address in its own address space. -/

namespace Pintos

/-- Frame `fe` holds a page of a mapped file that its owner has written to. -/
structure Vm.DirtyMapped (s : Vm) (fe : FrameEntry) (pt : PtSupplEntry) (info : PtSupplFileInfo) :
    Prop where
  entry : s.entry fe.owner fe.threadVaddr = some pt
  type : pt.type = .mmf
  fileInfo : pt.fileInfo = some info
  resident : (s.process fe.owner).pagedir.getPage fe.threadVaddr = some fe.page
  dirty : (s.process fe.owner).pagedir.isDirty fe.threadVaddr = true
  aligned : fe.threadVaddr % pgSize = 0
  user : fe.threadVaddr < physBase
  readBytes : 0 < info.readBytes ∧ info.readBytes ≤ pgSize

/-- The file has the bytes that frame `fe` had in `s`, and a page-in by the owner reads them back as
long as the file keeps them. -/
structure OwnerBytesWritten (s : Vm) (fe : FrameEntry) (info : PtSupplFileInfo) (s' : Vm) :
    Prop where
  file : fileRead s' info.file info.offset info.readBytes =
    (s.memory fe.page).copyOut info.readBytes
  readBack : ∀ order t t', t.entry fe.owner fe.threadVaddr = s'.entry fe.owner fe.threadVaddr →
    ptSupplPageIn order fe.owner fe.threadVaddr t = .ok (true, t') →
    t'.file info.file = s'.file info.file →
    ∃ page, (t'.process fe.owner).pagedir.getPage fe.threadVaddr = some page ∧
      (t'.memory page).copyOut info.readBytes = (s.memory fe.page).copyOut info.readBytes

/-- Process `cur` has a page at the address of the frame's page that starts with the bytes of the
frame; or writes to the file are denied, and it has those bytes already. -/
def Vm.SeesOwnerBytes (s : Vm) (cur : Nat) (fe : FrameEntry) (info : PtSupplFileInfo) : Prop :=
  if s.denyWrite info.file then
    fileRead s info.file info.offset info.readBytes = (s.memory fe.page).copyOut info.readBytes
  else ∃ page, (s.process cur).pagedir.getPage fe.threadVaddr = some page ∧
    (s.memory page).copyOut info.readBytes = (s.memory fe.page).copyOut info.readBytes

variable {s s' s1 : Vm} {cur : Nat} {fe : FrameEntry} {pt : PtSupplEntry} {info : PtSupplFileInfo}

theorem pagedirClearPage_of_user {p upage : Nat} (halign : upage % pgSize = 0)
    (huser : upage < physBase) (s : Vm) : pagedirClearPage p upage s =
      .ok ((), s.setPagedir p ((s.process p).pagedir.clearPage upage)) := by
  rw [pagedirClearPage, if_neg (not_not.mpr halign)]
  simp only [if_neg (Nat.not_le.mpr huser)]
  rfl

/-- Once the file has been written, nothing stops the page-out of a dirty mapped page. -/
theorem Vm.DirtyMapped.pageOut_iff (h : s.DirtyMapped fe pt info) :
    pageOutEvictedFrame cur fe s = .ok ((), s') ↔
      ∃ s1, fileWriteAt cur info.file fe.threadVaddr info.readBytes info.offset s = .ok ((), s1) ∧
        s' = s1.takeOut fe.owner { pt with type := .mmf, presence := .unloaded } := by
  have hentry := h.entry
  have hvaddr := (s.process fe.owner).ptSuppl.vaddr_eq hentry
  rw [Vm.entry] at hentry
  rw [pageOutEvictedFrame, Routine.get_bind_apply, hentry]
  simp only [h.type, h.fileInfo, if_true]
  rw [Routine.bind_ok]
  have hwrite : writeBackMmf cur fe pt info s =
      fileWriteAt cur info.file fe.threadVaddr info.readBytes info.offset s := by
    rw [writeBackMmf, Routine.get_bind_apply, hvaddr, if_pos h.dirty]
  rw [hwrite]
  have hrest : ∀ t : Vm, (do
      modify fun s => s.setPtSuppl fe.owner ((s.process fe.owner).ptSuppl.put
        { pt with type := .mmf, presence := .unloaded })
      pagedirClearPage fe.owner pt.vaddr : VmRoutine Unit) t =
        .ok ((), t.takeOut fe.owner { pt with type := .mmf, presence := .unloaded }) := by
    intro t
    rw [Routine.modify_bind_apply,
      pagedirClearPage_of_user (by rw [hvaddr]; exact h.aligned) (by rw [hvaddr]; exact h.user)]
    rfl
  simp only [h.fileInfo] at hrest
  constructor
  · rintro ⟨⟨⟩, s1, hfile, hlast⟩
    cases (hrest s1).symm.trans hlast
    exact ⟨s1, hfile, rfl⟩
  · rintro ⟨s1, hfile, rfl⟩
    exact ⟨(), s1, hfile, hrest s1⟩

/-- What the write leaves in the file. -/
theorem fileWriteAt_bytes {file vaddr size offset : Nat} (hsize : 0 < size ∧ size ≤ pgSize)
    (h : fileWriteAt cur file vaddr size offset s = .ok ((), s1)) :
    if s.denyWrite file then s1 = s
    else ∃ page, (s.process cur).pagedir.getPage vaddr = some page ∧
      fileRead s1 file offset size = (s.memory page).copyOut size := by
  rcases fileWriteAt_ok h with ⟨hnothing, rfl⟩ | ⟨hwrites, page, hpage, rfl⟩
  · have hdenied : s1.denyWrite file = true := by
      rcases hnothing with hzero | hdenied
      · omega
      · exact hdenied
    rw [if_pos hdenied]
  · rw [if_neg fun hdenied => hwrites (.inr hdenied)]
    refine ⟨page, hpage, ?_⟩
    have hlen := PageData.length_copyOut (s.memory page) (show size ≤ 4096 from hsize.2)
    have hread := take_drop_overwrite (s.file file) ((s.memory page).copyOut size) offset
    rw [hlen] at hread
    simpa [fileRead] using hread

theorem fileWriteAt_runs {file vaddr size offset : Nat} (s : Vm)
    (hpage : s.denyWrite file = false →
      ∃ page, (s.process cur).pagedir.getPage vaddr = some page) :
    ∃ s1, fileWriteAt cur file vaddr size offset s = .ok ((), s1) := by
  rw [fileWriteAt, Routine.get_bind_apply]
  split
  · exact ⟨s, rfl⟩
  · rename_i hwrites
    have hallowed : s.denyWrite file = false := by
      by_contra hdenied
      exact hwrites (.inr (by simpa using hdenied))
    obtain ⟨page, hpage⟩ := hpage hallowed
    rw [Routine.bind_apply, userBytes, Routine.get_bind_apply, hpage]
    exact ⟨_, rfl⟩

/-- The owner's later page-in reads what the file holds. -/
theorem Vm.DirtyMapped.readBack (h : s.DirtyMapped fe pt info)
    (hfile : fileRead s1 info.file info.offset info.readBytes =
      (s.memory fe.page).copyOut info.readBytes)
    {order : List FrameEntry → List FrameEntry} {t t' : Vm}
    (hentry : t.entry fe.owner fe.threadVaddr =
      some { pt with type := .mmf, presence := .unloaded })
    (hrun : ptSupplPageIn order fe.owner fe.threadVaddr t = .ok (true, t'))
    (hsame : t'.file info.file = s1.file info.file) :
    ∃ page, (t'.process fe.owner).pagedir.getPage fe.threadVaddr = some page ∧
      (t'.memory page).copyOut info.readBytes = (s.memory fe.page).copyOut info.readBytes := by
  have hvaddr := (s.process fe.owner).ptSuppl.vaddr_eq h.entry
  obtain ⟨frm, t1, e, halloc, hentry1, hbranch⟩ := ptSupplPageIn_found hrun
  -- an eviction for the new frame leaves the entry as it is
  have he : e = { pt with type := .mmf, presence := .unloaded } := by
    cases vmFrameAlloc_ok (p := fe.owner) h.aligned halloc with
    | keeps hkeeps =>
      have hkept := hkeeps.entry.trans hentry
      rw [hentry1] at hkept
      exact Option.some.inj hkept
    | anonymous slot hframe hnone _ _ _ =>
      rw [hentry] at hnone
      cases hnone
    | mmf pt' hframe hpt htype hout _ =>
      rw [hentry] at hpt
      cases hpt
      rw [hentry1] at hout
      exact Option.some.inj hout
  subst he
  rcases hbranch with ⟨hpresence, -⟩ | ⟨inf, -, hinf, hread⟩
  · cases hpresence
  rw [h.fileInfo] at hinf
  cases hinf
  obtain ⟨hmapped, hmemory, hfiles⟩ := ptSupplReadIn_contents hread
  rw [hvaddr] at hmapped
  refine ⟨frm, hmapped, ?_⟩
  have hbytes : fileRead t1 info.file info.offset info.readBytes =
      (s.memory fe.page).copyOut info.readBytes := by
    rw [← hfile, fileRead, fileRead, ← hsame, hfiles]
  have hlen := PageData.length_copyOut (s.memory fe.page)
    (show info.readBytes ≤ 4096 from h.readBytes.2)
  have hcopied := PageData.copyOut_copyIn_clear (t1.memory frm)
    ((s.memory fe.page).copyOut info.readBytes) info.zeroBytes
    (by rw [hlen]; exact h.readBytes.2)
  rw [hlen] at hcopied
  rw [hmemory, Function.update_self, Vm.readPage, hbytes, hcopied]

/-- The eviction of a dirty mapped page by a thread of any process writes the owner's bytes exactly
when that process sees them at the same address. -/
theorem evicted_bytes_written_iff (cur : Nat) (h : s.DirtyMapped fe pt info) :
    (∃ s', pageOutEvictedFrame cur fe s = .ok ((), s') ∧ OwnerBytesWritten s fe info s') ↔
      s.SeesOwnerBytes cur fe info := by
  have hvaddr := (s.process fe.owner).ptSuppl.vaddr_eq h.entry
  constructor
  · rintro ⟨s', hrun, hwritten⟩
    obtain ⟨s1, hwrite, rfl⟩ := h.pageOut_iff.mp hrun
    have hfile : fileRead s1 info.file info.offset info.readBytes =
        (s.memory fe.page).copyOut info.readBytes := hwritten.file
    have hbytes := fileWriteAt_bytes h.readBytes hwrite
    rw [Vm.SeesOwnerBytes]
    split at hbytes
    · rw [if_pos ‹_›]
      rw [hbytes] at hfile
      exact hfile
    · rw [if_neg ‹_›]
      obtain ⟨page, hpage, hread⟩ := hbytes
      exact ⟨page, hpage, hread.symm.trans hfile⟩
  · intro hsees
    rw [Vm.SeesOwnerBytes] at hsees
    obtain ⟨s1, hwrite⟩ : ∃ s1,
        fileWriteAt cur info.file fe.threadVaddr info.readBytes info.offset s = .ok ((), s1) := by
      split at hsees
      · rename_i hdenied
        apply fileWriteAt_runs
        intro hallowed
        rw [hdenied] at hallowed
        cases hallowed
      · obtain ⟨page, hpage, -⟩ := hsees
        exact fileWriteAt_runs s fun _ => ⟨page, hpage⟩
    have hbytes := fileWriteAt_bytes h.readBytes hwrite
    have hfile : fileRead s1 info.file info.offset info.readBytes =
        (s.memory fe.page).copyOut info.readBytes := by
      split at hbytes
      · rename_i hdenied
        rw [if_pos hdenied] at hsees
        rw [hbytes]
        exact hsees
      · rename_i hallowed
        rw [if_neg hallowed] at hsees
        obtain ⟨page, hpage, hread⟩ := hbytes
        obtain ⟨page', hpage', hsame⟩ := hsees
        rw [hpage] at hpage'
        cases hpage'
        exact hread.trans hsame
    refine ⟨_, h.pageOut_iff.mpr ⟨s1, hwrite, rfl⟩, hfile, ?_⟩
    intro order t t' hentry hrun hsame
    refine h.readBack hfile ?_ hrun hsame
    have htaken := (s1.takeOut_self fe.owner
      (e := { pt with type := .mmf, presence := .unloaded }) (by rw [hvaddr]; exact h.aligned)).1
    rw [hentry, ← htaken, hvaddr]

theorem oneSlot_size : 8 < 2 ^ 32 := by decide

/-- Two processes with a page at 0x10000000: process 1 has mapped a file of one byte there and has
written 5 to it; process 0 has an anonymous page full of sevens. -/
def twoMapsVm : Vm where
  process p :=
    ⟨⟨fun pde => pde = 64, fun v =>
        if v = 0x10000000 then ⟨1 - p, true, true, true, true⟩ else Pagedir.zeroPte⟩,
      if p = 1 then
        PtSuppl.empty.put { ptSupplSetupFileInfo 1 0 0 0 0x10000000 1 4095 true .mmf with
          presence := .present }
      else PtSuppl.empty⟩
  frameHash := [⟨0, 1, 0x10000000⟩, ⟨1, 0, 0x10000000⟩]
  userPool := Bitmap.ofAll 2 true
  kernelPages := 1
  memory page := fun _ => if page = 0 then 5 else 7
  swapBm := Bitmap.ofAll 1 true
  swapDevice := ⟨8, oneSlot_size, fun _ => SectorData.zeros⟩
  file _ := [0]
  denyWrite _ := false
  lastMap := 0

theorem twoMapsVm_dirtyMapped : twoMapsVm.DirtyMapped ⟨0, 1, 0x10000000⟩
    { ptSupplSetupFileInfo 1 0 0 0 0x10000000 1 4095 true .mmf with presence := .present }
    ⟨0, 1, 0, 0, 1, 4095, true⟩ := by
  constructor <;> first | rfl | decide

theorem evicted_bytes_written_iff_twoMaps :
    (∃ s', pageOutEvictedFrame 1 ⟨0, 1, 0x10000000⟩ twoMapsVm = .ok ((), s') ∧
      OwnerBytesWritten twoMapsVm ⟨0, 1, 0x10000000⟩ ⟨0, 1, 0, 0, 1, 4095, true⟩ s') ↔
      twoMapsVm.SeesOwnerBytes 1 ⟨0, 1, 0x10000000⟩ ⟨0, 1, 0, 0, 1, 4095, true⟩ :=
  evicted_bytes_written_iff 1 twoMapsVm_dirtyMapped

/-- Process 0 evicts the frame of process 1 and writes its own bytes to the mapped file. -/
theorem evictor_bytes_written : ¬ ∃ s',
    pageOutEvictedFrame 0 ⟨0, 1, 0x10000000⟩ twoMapsVm = .ok ((), s') ∧
      OwnerBytesWritten twoMapsVm ⟨0, 1, 0x10000000⟩ ⟨0, 1, 0, 0, 1, 4095, true⟩ s' := by
  rintro ⟨s', hrun, hwritten⟩
  obtain ⟨s1, hwrite, rfl⟩ := twoMapsVm_dirtyMapped.pageOut_iff.mp hrun
  have hfile : fileRead s1 0 0 1 = (twoMapsVm.memory 0).copyOut 1 := hwritten.file
  have hbytes : ∃ page, (twoMapsVm.process 0).pagedir.getPage 0x10000000 = some page ∧
      fileRead s1 0 0 1 = (twoMapsVm.memory page).copyOut 1 :=
    fileWriteAt_bytes (by decide) hwrite
  obtain ⟨page, hpage, hread⟩ := hbytes
  have hsees : (twoMapsVm.process 0).pagedir.getPage 0x10000000 = some 1 := by decide
  rw [hsees] at hpage
  cases hpage
  have hsame := hfile.symm.trans hread
  have hdiffer : (twoMapsVm.memory 0).copyOut 1 ≠ (twoMapsVm.memory 1).copyOut 1 := by
    intro h
    have hlen := PageData.length_copyOut (twoMapsVm.memory 0) (show 1 ≤ 4096 by decide)
    have hfirst := List.getElem_of_eq h (i := 0) (by omega)
    rw [PageData.getElem_copyOut, PageData.getElem_copyOut] at hfirst
    exact absurd hfirst (show (5 : UInt8) ≠ 7 by decide)
  exact hdiffer hsame

end Pintos
