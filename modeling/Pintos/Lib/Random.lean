import Pintos.Devices.Block
import Mathlib.Dynamics.PeriodicPts.Lemmas
import Mathlib.Data.Finite.Prod
import Mathlib.Data.Fintype.Pi
import Mathlib.Logic.Equiv.Basic

/-! The random number generator (`lib/random.c`).  Its table is a permutation of the bytes, and no
two states have the same next one; so the bytes it gives come round again from the first one on. -/

namespace Pintos

/-- The variables of `random.c`. -/
structure Prng where
  s : UInt8 → UInt8
  si : UInt8
  sj : UInt8
  inited : Bool

namespace Prng

/-- The size of the table `s`. -/
def tableSize : Nat := 256

/-- Before any call. -/
def powerOn : Prng := ⟨fun _ => 0, 0, 0, false⟩

/-- `swap_byte` of two places of the table. -/
def swapByte (s : UInt8 → UInt8) (a b : UInt8) : UInt8 → UInt8 :=
  Function.update (Function.update s a (s b)) b (s a)

/-- `seedp[i % sizeof seed]`. -/
def seedByte (seed : UInt32) (i : Nat) : UInt8 :=
  (seed >>> (8 * (i % 4)).toUInt32).toUInt8

/-- The second loop of `random_init`, from round `i` on. -/
def initLoop (seed : UInt32) : (rounds i : Nat) → (s : UInt8 → UInt8) → (j : UInt8) → UInt8 → UInt8
  | 0, _, s, _ => s
  | rounds + 1, i, s, j =>
    let j := j + (s i.toUInt8 + seedByte seed i)
    initLoop seed rounds (i + 1) (swapByte s i.toUInt8 j) j

/-- `random_init`.  Its first loop leaves each byte in its own place. -/
def randomInit (seed : UInt32) : Prng where
  s := initLoop seed tableSize 0 (fun i => i) 0
  si := 0
  sj := 0
  inited := true

/-- One round of `random_bytes`. -/
def next (g : Prng) : Prng :=
  let si := g.si + 1
  let sj := g.sj + g.s si
  { g with s := swapByte g.s si sj, si, sj }

/-- The byte that a round leaves in the buffer. -/
def output (g : Prng) : UInt8 := g.s (g.s g.si + g.s g.sj)

/-- The loop of `random_bytes`. -/
def bytesLoop : (size : Nat) → Routine Fault Prng (List UInt8)
  | 0 => pure []
  | size + 1 => do
    modify next
    let g ← get
    let rest ← bytesLoop size
    pure (g.output :: rest)

/-- `random_bytes`, with what it leaves in the buffer. -/
def randomBytes (size : Nat) : Routine Fault Prng (List UInt8) := do
  modify fun g => if g.inited then g else randomInit 0
  bytesLoop size

/-- The calls; `random_ulong` gives the bytes of its result. -/
inductive Request where
  | init (seed : UInt32)
  | bytes (size : Nat)
  | ulong

def exec : Request → Routine Fault Prng (List UInt8)
  | .init seed => do
    set (randomInit seed)
    pure []
  | .bytes size => randomBytes size
  | .ulong => randomBytes 4

/-- The bytes that a request takes. -/
def Request.size : Request → Nat
  | .init _ => 0
  | .bytes size => size
  | .ulong => 4

/-- The bytes that a generator is going to give. -/
def stream (g : Prng) (k : Nat) : UInt8 := (next^[k + 1] g).output

variable {g g' : Prng} {s : UInt8 → UInt8} {a b : UInt8}

/-! ### The table -/

theorem swapByte_eq (s : UInt8 → UInt8) (a b : UInt8) : swapByte s a b = s ∘ Equiv.swap b a := by
  rw [Equiv.comp_swap_eq_update, swapByte]

theorem swapByte_bijective (h : Function.Bijective s) : Function.Bijective (swapByte s a b) := by
  rw [swapByte_eq]
  exact h.comp (Equiv.bijective _)

theorem swapByte_swapByte (s : UInt8 → UInt8) (a b : UInt8) :
    swapByte (swapByte s a b) a b = s := by
  rw [swapByte_eq, swapByte_eq]
  funext c
  simp

theorem initLoop_bijective (seed : UInt32) (rounds i : Nat) (j : UInt8)
    (h : Function.Bijective s) : Function.Bijective (initLoop seed rounds i s j) := by
  induction rounds generalizing i s j with
  | zero => exact h
  | succ rounds ih => exact ih (i + 1) _ (swapByte_bijective h)

/-- Once the generator is initialised, its table is a permutation. -/
def Good (g : Prng) : Prop := g.inited = true → Function.Bijective g.s

theorem good_powerOn : powerOn.Good := by
  intro h
  cases h

theorem good_randomInit (seed : UInt32) : (randomInit seed).Good := by
  intro _
  have h : ∀ rounds, Function.Bijective (initLoop seed rounds 0 (fun i => i) 0) := fun rounds =>
    initLoop_bijective seed rounds 0 0 Function.bijective_id
  unfold randomInit
  generalize tableSize = rounds
  exact h rounds

theorem Good.next (h : g.Good) : g.next.Good := fun hinited => swapByte_bijective (h hinited)

theorem Good.iterate (h : g.Good) (n : Nat) : (Prng.next^[n] g).Good := by
  induction n generalizing g with
  | zero => exact h
  | succ n ih => exact ih h.next

/-! ### Requests -/

/-- The state that a request finds. -/
def ready (g : Prng) : Prng := if g.inited then g else randomInit 0

theorem ready_of_inited (h : g.inited = true) : g.ready = g := if_pos h

theorem inited_iterate (g : Prng) (n : Nat) : (Prng.next^[n] g).inited = g.inited := by
  induction n generalizing g with
  | zero => rfl
  | succ n ih => exact ih g.next

theorem Good.ready (h : g.Good) : g.ready.Good := by
  rw [Prng.ready]
  split_ifs
  · exact h
  · exact good_randomInit 0

theorem bytesLoop_ok (n : Nat) (g : Prng) :
    bytesLoop n g = .ok ((List.range n).map g.stream, next^[n] g) := by
  induction n generalizing g with
  | zero => rfl
  | succ n ih =>
    rw [bytesLoop, Routine.modify_bind_apply, Routine.get_bind_apply,
      Routine.bind_of_ok (ih g.next), List.range_succ_eq_map, List.map_cons, List.map_map]
    rfl

theorem randomBytes_ok (n : Nat) (g : Prng) :
    randomBytes n g = .ok ((List.range n).map g.ready.stream, next^[n] g.ready) := by
  rw [randomBytes, Routine.modify_bind_apply]
  exact bytesLoop_ok n g.ready

/-- Requests that draw bytes. -/
def Request.Draws : Request → Prop
  | .init _ => False
  | _ => True

theorem exec_draws {r : Request} (h : r.Draws) (g : Prng) :
    exec r g = .ok ((List.range r.size).map g.ready.stream, next^[r.size] g.ready) := by
  cases r with
  | init seed => exact h.elim
  | bytes size => exact randomBytes_ok size g
  | ulong => exact randomBytes_ok 4 g

theorem good_exec {r : Request} {bytes : List UInt8} (h : g.Good)
    (hrun : exec r g = .ok (bytes, g')) : g'.Good := by
  cases r with
  | init seed =>
    cases hrun
    exact good_randomInit seed
  | bytes size =>
    have hok := (randomBytes_ok size g).symm.trans hrun
    cases hok
    exact h.ready.iterate size
  | ulong =>
    have hok := (randomBytes_ok 4 g).symm.trans hrun
    cases hok
    exact h.ready.iterate 4

theorem stream_iterate (g : Prng) (n k : Nat) : (next^[n] g).stream k = g.stream (n + k) := by
  rw [stream, stream, ← Function.iterate_add_apply]
  congr 2
  omega

/-- The run lemma: one request after the other goes on in the same stream. -/
theorem execAll_draws {rs : List Request} (h : ∀ r ∈ rs, r.Draws) (hg : g.inited = true) :
    ∃ answers, Routine.execAll exec rs g =
        .ok (answers, next^[(rs.map Request.size).sum] g) ∧
      answers.flatten = (List.range (rs.map Request.size).sum).map g.stream := by
  induction rs generalizing g with
  | nil => exact ⟨[], rfl, rfl⟩
  | cons r rs ih =>
    have hfirst := exec_draws (h r List.mem_cons_self) g
    rw [ready_of_inited hg] at hfirst
    obtain ⟨answers, hrest, hflatten⟩ := @ih (next^[r.size] g)
      (fun r' hr' => h r' (List.mem_cons_of_mem _ hr')) ((inited_iterate g r.size).trans hg)
    refine ⟨(List.range r.size).map g.stream :: answers,
      (Routine.execAll_cons_of_ok hfirst hrest).trans ?_, ?_⟩
    · rw [List.map_cons, List.sum_cons, Nat.add_comm r.size, Function.iterate_add_apply]
    · rw [List.flatten_cons, hflatten, List.map_cons, List.sum_cons, List.range_add,
        List.map_append, List.map_map]
      congr 1
      exact List.map_congr_left fun k _ => stream_iterate g r.size k

/-! ### Coming round -/

/-- No two states have the same next one. -/
theorem next_injective : Function.Injective next := by
  rintro ⟨s, si, sj, inited⟩ ⟨s', si', sj', inited'⟩ h
  obtain ⟨hs, hsi, hsj, hinited⟩ := Prng.mk.inj h
  obtain rfl : si = si' := (UInt8.add_left_inj 1).mp hsi
  rw [hsj] at hs
  have hsame : s = s' := by
    rw [← swapByte_swapByte s (si + 1) (sj' + s' (si + 1)), hs, swapByte_swapByte]
  cases hsame
  obtain rfl : sj = sj' := (UInt8.add_left_inj _).mp hsj
  cases hinited
  rfl

instance finite_byte : Finite UInt8 := Finite.of_injective UInt8.toFin fun _ _ h =>
  UInt8.toFin_inj.mp h

instance finite_prng : Finite Prng := by
  refine Finite.of_injective (fun g : Prng => (g.s, g.si, g.sj, g.inited)) fun g g' h => ?_
  cases g
  cases g'
  simp only [Prod.mk.injEq] at h
  obtain ⟨rfl, rfl, rfl, rfl⟩ := h
  rfl

end Prng

/-- In every state of a generator that was started by `random_init`, on request or by itself, the
table is a permutation of the bytes. -/
theorem random_table_permutation (requests : List Prng.Request) (g : Prng)
    (hvisits : Routine.Visits Prng.exec requests .powerOn g) (hinited : g.inited = true) :
    Function.Bijective g.s := by
  have hstep : ∀ (g : Prng) (r : Prng.Request) (bytes : List UInt8) (g' : Prng), g.Good → True →
      Prng.exec r g = .ok (bytes, g') → g'.Good :=
    fun g r bytes g' hg _ hrun => Prng.good_exec hg hrun
  have hgood : g.Good :=
    Routine.Visits.invariant hstep (fun _ _ _ => trivial) Prng.good_powerOn hvisits
  exact hgood hinited

theorem random_table_permutation_seeded : Function.Bijective (Prng.randomInit 7).s := by
  have hvisits : Routine.Visits Prng.exec [.init 7, .ulong] .powerOn (Prng.randomInit 7) :=
    ⟨[.init 7], [.ulong], [[]], rfl, rfl⟩
  exact random_table_permutation _ _ hvisits rfl

/-- However bytes are asked for, they are the next ones of one stream, and the stream comes round
again from its first byte. -/
theorem random_stream_periodic (g : Prng) (hinited : g.inited = true) :
    (∀ requests : List Prng.Request, (∀ r ∈ requests, r.Draws) →
      ∃ answers g', Routine.execAll Prng.exec requests g = .ok (answers, g') ∧
        answers.flatten = (List.range (requests.map Prng.Request.size).sum).map g.stream) ∧
    ∃ period, 0 < period ∧ ∀ k, g.stream (k + period) = g.stream k := by
  refine ⟨fun requests hdraws => ?_, ?_⟩
  · obtain ⟨answers, hrun, hflatten⟩ := Prng.execAll_draws hdraws hinited
    exact ⟨answers, _, hrun, hflatten⟩
  · obtain ⟨period, hpos, hperiod⟩ := Function.mem_periodicPts.mp
      (Prng.next_injective.mem_periodicPts g)
    refine ⟨period, hpos, fun k => ?_⟩
    have hreturn : Prng.next^[period] g = g := hperiod
    rw [Nat.add_comm, ← Prng.stream_iterate, hreturn]

theorem random_stream_periodic_seeded : ∃ period, 0 < period ∧
    ∀ k, (Prng.randomInit 7).stream (k + period) = (Prng.randomInit 7).stream k :=
  (random_stream_periodic (Prng.randomInit 7) rfl).2

end Pintos
