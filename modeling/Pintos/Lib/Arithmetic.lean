import Mathlib.Data.Nat.Log
import Mathlib.Data.UInt
import Mathlib.Tactic.Linarith
import Mathlib.Tactic.Ring

/-! 64-bit division from a processor that divides a 64-bit number by a 32-bit one
(`lib/arithmetic.c`).  A divisor of at most 32 bits takes two such divisions; for a wider one the
quotient is estimated from the top halves and is one too large at most.  The remainder functions
return 32-bit numbers, so they are right only for remainders that fit. -/

namespace Pintos

/-- `divl`; the processor traps if the divisor is zero or the quotient has more than 32 bits. -/
def divl (n : UInt64) (d : UInt32) : Option UInt32 :=
  if d = 0 ∨ 2 ^ 32 ≤ n.toNat / d.toNat then none else some (n / d.toUInt64).toUInt32

/-- One of the tests of `nlz` and the shift after it. -/
def nlzStep (limit : UInt32) (k : Nat) (s : Nat × UInt32) : Nat × UInt32 :=
  if s.2 ≤ limit then (s.1 + k, s.2 <<< UInt32.ofNat k) else s

def nlz (x : UInt32) : Nat :=
  let s := nlzStep 0x0000FFFF 16 (0, x)
  let s := nlzStep 0x00FFFFFF 8 s
  let s := nlzStep 0x0FFFFFFF 4 s
  let s := nlzStep 0x3FFFFFFF 2 s
  if s.2 ≤ 0x7FFFFFFF then s.1 + 1 else s.1

/-- `udiv64`; `none` if a division traps. -/
def udiv64 (n d : UInt64) : Option UInt64 := do
  if d >>> 32 = 0 then
    let b := (1 : UInt64) <<< 32
    let n1 := (n >>> 32).toUInt32
    let n0 := n.toUInt32
    let d0 := d.toUInt32
    if d0 = 0 then none
    let q ← divl (b * (n1 % d0).toUInt64 + n0.toUInt64) d0
    return q.toUInt64 + b * (n1 / d0).toUInt64
  else if n < d then return 0
  else
    let d1 := (d >>> 32).toUInt32
    let s := nlz d1
    let e ← divl (n >>> 1) ((d <<< UInt64.ofNat s) >>> 32).toUInt32
    let q := (e >>> UInt32.ofNat (31 - s)).toUInt64
    return if n - (q - 1) * d < d then q - 1 else q

def umod64 (n d : UInt64) : Option UInt32 := do
  return (n - d * (← udiv64 n d)).toUInt32

/-- The magnitude that `sdiv64` passes to `udiv64`. -/
def absU (n : Int64) : UInt64 := if 0 ≤ n then n.toUInt64 else -n.toUInt64

def sdiv64 (n d : Int64) : Option Int64 := do
  let qAbs ← udiv64 (absU n) (absU d)
  return if (n < 0) = (d < 0) then qAbs.toInt64 else -qAbs.toInt64

def smod64 (n d : Int64) : Option Int32 := do
  return (n - d * (← sdiv64 n d)).toInt32

/-- `__divdi3`. -/
def divdi3 (n d : Int64) : Option Int64 := sdiv64 n d

/-- `__moddi3`. -/
def moddi3 (n d : Int64) : Option Int64 := (smod64 n d).map Int32.toInt64

/-- `__udivdi3`. -/
def udivdi3 (n d : UInt64) : Option UInt64 := udiv64 n d

/-- `__umoddi3`. -/
def umoddi3 (n d : UInt64) : Option UInt64 := (umod64 n d).map UInt32.toUInt64

/-! ### Leading zeros -/

/-- `x` shifted by `s.1` bits is `s.2`, which is at least `low`. -/
structure Normalised (x : UInt32) (low : Nat) (s : Nat × UInt32) : Prop where
  shift : s.2.toNat = x.toNat * 2 ^ s.1
  low : low ≤ s.2.toNat

/-- A number of at most `32 - k` bits is shifted by `k` without loss. -/
theorem UInt32.toNat_shiftLeft_of_lt {x : UInt32} {k : Nat} (hk : k < 32)
    (hx : x.toNat < 2 ^ (32 - k)) : (x <<< UInt32.ofNat k).toNat = x.toNat * 2 ^ k := by
  have hbound : x.toNat * 2 ^ k < 2 ^ 32 := by
    calc x.toNat * 2 ^ k < 2 ^ (32 - k) * 2 ^ k :=
          Nat.mul_lt_mul_of_pos_right hx (Nat.two_pow_pos k)
      _ = 2 ^ 32 := by rw [← pow_add, Nat.sub_add_cancel hk.le]
  rw [UInt32.toNat_shiftLeft, UInt32.toNat_ofNat_of_lt' (by show k < 2 ^ 32; omega),
    Nat.mod_eq_of_lt hk, Nat.shiftLeft_eq, Nat.mod_eq_of_lt hbound]

theorem Normalised.step {x limit : UInt32} {low k : Nat} {s : Nat × UInt32}
    (h : Normalised x low s) (hk : k < 32) (hlimit : limit.toNat = 2 ^ (32 - k) - 1)
    (hlow : low * 2 ^ k ≤ 2 ^ (32 - k)) : Normalised x (low * 2 ^ k) (nlzStep limit k s) := by
  have hpos : 0 < 2 ^ (32 - k) := Nat.two_pow_pos _
  rw [nlzStep]
  split
  · rename_i hle
    have hsmall : s.2.toNat < 2 ^ (32 - k) := by
      have := UInt32.le_iff_toNat_le.mp hle
      omega
    have hshift := UInt32.toNat_shiftLeft_of_lt hk hsmall
    refine ⟨?_, ?_⟩
    · rw [hshift, h.shift, pow_add, mul_assoc]
    · rw [hshift]
      exact Nat.mul_le_mul_right _ h.low
  · rename_i hgt
    refine ⟨h.shift, hlow.trans ?_⟩
    rw [UInt32.le_iff_toNat_le] at hgt
    omega

/-- The leading zeros shift the highest bit to the top. -/
theorem nlz_spec {x : UInt32} (hx : x ≠ 0) :
    2 ^ 31 ≤ x.toNat * 2 ^ nlz x ∧ x.toNat * 2 ^ nlz x < 2 ^ 32 := by
  have hpos : 1 ≤ x.toNat := by
    rw [Nat.one_le_iff_ne_zero]
    exact fun h => hx (UInt32.toNat_inj.mp h)
  have h0 : Normalised x 1 (0, x) := ⟨by simp, hpos⟩
  have h1 : Normalised x _ (nlzStep 0x0000FFFF 16 _) := h0.step (by decide) rfl (by decide)
  have h2 : Normalised x _ (nlzStep 0x00FFFFFF 8 _) := h1.step (by decide) rfl (by decide)
  have h3 : Normalised x _ (nlzStep 0x0FFFFFFF 4 _) := h2.step (by decide) rfl (by decide)
  have h4 : Normalised x _ (nlzStep 0x3FFFFFFF 2 _) := h3.step (by decide) rfl (by decide)
  simp only [nlz]
  generalize nlzStep 0x3FFFFFFF 2 _ = s at h4
  obtain ⟨hshift, hlow⟩ := h4
  have hlt := s.2.toNat_lt
  by_cases hle : s.2 ≤ 0x7FFFFFFF
  · have htop : s.2.toNat ≤ 0x7FFFFFFF := UInt32.le_iff_toNat_le.mp hle
    have hnext : x.toNat * 2 ^ (s.1 + 1) = 2 * s.2.toNat := by
      rw [hshift]
      ring
    rw [if_pos hle, hnext]
    omega
  · have htop : ¬ s.2.toNat ≤ 0x7FFFFFFF := fun h => hle (UInt32.le_iff_toNat_le.mpr h)
    rw [if_neg hle, ← hshift]
    omega

/-- There are at most 31 of them. -/
theorem nlz_le {x : UInt32} (hx : x ≠ 0) : nlz x ≤ 31 := by
  have hpos : 1 ≤ x.toNat := by
    rw [Nat.one_le_iff_ne_zero]
    exact fun h => hx (UInt32.toNat_inj.mp h)
  by_contra hlarge
  have hpow : 2 ^ 32 ≤ 2 ^ nlz x := Nat.pow_le_pow_right (by decide) (by omega)
  have hmul : 2 ^ nlz x ≤ x.toNat * 2 ^ nlz x := Nat.le_mul_of_pos_left _ hpos
  have := (nlz_spec hx).2
  omega

/-! ### Quotients -/

theorem UInt64.toNat_mul_of_lt {x y : UInt64} (h : x.toNat * y.toNat < 2 ^ 64) :
    (x * y).toNat = x.toNat * y.toNat := by
  rw [UInt64.toNat_mul, Nat.mod_eq_of_lt h]

theorem UInt64.toNat_add_of_lt {x y : UInt64} (h : x.toNat + y.toNat < 2 ^ 64) :
    (x + y).toNat = x.toNat + y.toNat := by
  rw [UInt64.toNat_add, Nat.mod_eq_of_lt h]

/-- `divl` does not trap if the quotient fits. -/
theorem divl_fits {n : UInt64} {d : UInt32} (hd : d ≠ 0) (hq : n.toNat / d.toNat < 2 ^ 32) :
    ∃ q, divl n d = some q ∧ q.toNat = n.toNat / d.toNat := by
  refine ⟨(n / d.toUInt64).toUInt32, ?_, ?_⟩
  · rw [divl, if_neg]
    rintro (hzero | hwide)
    · exact hd hzero
    · omega
  · rw [UInt64.toNat_toUInt32, UInt64.toNat_div, UInt32.toNat_toUInt64, Nat.mod_eq_of_lt hq]

/-- The partial dividend of a remainder `r` and a low half `l` has a quotient of one half. -/
theorem partial_div_lt {b r l d : Nat} (hr : r < d) (hl : l < b) : (b * r + l) / d < b := by
  rw [Nat.div_lt_iff_lt_mul (by omega)]
  calc b * r + l < b * (r + 1) := by rw [mul_add]; omega
    _ ≤ b * d := Nat.mul_le_mul_left b hr

/-- Division of the high half, then of what is left with the low half. -/
theorem div_halves (b h l d : Nat) (hd : 0 < d) :
    (b * h + l) / d = (b * (h % d) + l) / d + b * (h / d) := by
  have hsplit : b * h + l = b * (h % d) + l + d * (b * (h / d)) := by
    calc b * h + l = b * (h % d + d * (h / d)) + l := by rw [Nat.mod_add_div]
      _ = b * (h % d) + l + d * (b * (h / d)) := by ring
  rw [hsplit, Nat.add_mul_div_left _ _ hd]

/-- The divisor cut to `v * p` underestimates it by less than `p`: the quotient is not too small
and one too large at most. -/
theorem cut_divisor {n d v p : Nat} (hn : n < 2 ^ 64) (hv : 2 ^ 31 ≤ v) (hp : p ∣ 2 ^ 33)
    (hle : v * p ≤ d) (hlt : d < v * p + p) :
    n / d ≤ n / (v * p) ∧ n / (v * p) ≤ n / d + 1 := by
  have hppos : 0 < p := Nat.pos_of_dvd_of_pos hp (by decide)
  have hcut : 0 < v * p := by positivity
  refine ⟨Nat.div_le_div_left hle hcut, ?_⟩
  obtain ⟨r, hr⟩ : ∃ r, d = v * p + r := ⟨d - v * p, by omega⟩
  have hdpos : 0 < d := by omega
  -- the true quotient is small, since the divisor is large
  have hquotient : (n / d + 1) * p ≤ 2 ^ 33 := by
    obtain ⟨c, hc⟩ := hp
    have hscaled : n / d * p * 2 ^ 31 < 2 ^ 64 := by
      calc n / d * p * 2 ^ 31 = n / d * (2 ^ 31 * p) := by ring
        _ ≤ n / d * d := Nat.mul_le_mul_left _ ((Nat.mul_le_mul_right p hv).trans hle)
        _ ≤ n := Nat.div_mul_le_self n d
        _ < 2 ^ 64 := hn
    have hbelow : p * (n / d) < p * c := by
      rw [← hc, Nat.mul_comm]
      omega
    calc (n / d + 1) * p ≤ c * p :=
          Nat.mul_le_mul_right p (Nat.lt_of_mul_lt_mul_left hbelow)
      _ = 2 ^ 33 := by rw [hc, Nat.mul_comm]
  -- so the part cut off adds up to less than one divisor
  have hrest : r * (n / d + 1) ≤ v * p := by
    apply Nat.le_of_mul_le_mul_right _ hppos
    have hsquare : r * 2 ^ 33 ≤ 2 ^ 31 * p * p := by nlinarith [sq_nonneg ((p : Int) - 2)]
    calc r * (n / d + 1) * p = r * ((n / d + 1) * p) := Nat.mul_assoc _ _ _
      _ ≤ r * 2 ^ 33 := Nat.mul_le_mul_left r hquotient
      _ ≤ 2 ^ 31 * p * p := hsquare
      _ ≤ v * p * p := by gcongr
  have hupper : n < v * p * (n / d + 2) := by
    have hfloor : n < d * (n / d + 1) := Nat.lt_mul_div_succ n hdpos
    calc n < d * (n / d + 1) := hfloor
      _ = v * p * (n / d + 1) + r * (n / d + 1) := by rw [hr]; ring
      _ ≤ v * p * (n / d + 1) + v * p := by omega
      _ = v * p * (n / d + 2) := by ring
  have := (Nat.div_lt_iff_lt_mul hcut).mpr (by rwa [Nat.mul_comm] at hupper)
  omega

/-- A divisor of at most 32 bits. -/
theorem udiv64_narrow {n d : UInt64} (hd : d ≠ 0) (hnarrow : d >>> 32 = 0) :
    udiv64 n d = some (n / d) := by
  have hsmall : d.toNat < 2 ^ 32 := by
    have := congrArg UInt64.toNat hnarrow
    simp [Nat.shiftRight_eq_div_pow] at this
    omega
  have hpos : 0 < d.toNat := by
    rw [Nat.pos_iff_ne_zero]
    exact fun h => hd (UInt64.toNat_inj.mp h)
  have hd0 : d.toUInt32.toNat = d.toNat := by
    rw [UInt64.toNat_toUInt32, Nat.mod_eq_of_lt hsmall]
  have hne : d.toUInt32 ≠ 0 := by
    intro h
    rw [h] at hd0
    exact hpos.ne hd0
  have hb : ((1 : UInt64) <<< 32).toNat = 2 ^ 32 := rfl
  have hhigh : ((n >>> 32).toUInt32).toNat = n.toNat / 2 ^ 32 := by
    rw [UInt64.toNat_toUInt32, UInt64.toNat_shiftRight, Nat.shiftRight_eq_div_pow]
    exact Nat.mod_eq_of_lt (Nat.div_lt_of_lt_mul n.toNat_lt)
  have hlow : n.toUInt32.toNat = n.toNat % 2 ^ 32 := UInt64.toNat_toUInt32 n
  have hrem : n.toNat / 2 ^ 32 % d.toNat < d.toNat := Nat.mod_lt _ hpos
  have hlowlt : n.toNat % 2 ^ 32 < 2 ^ 32 := Nat.mod_lt _ (by decide)
  -- what is left of the high half and the low half fit in 64 bits
  have hrest : ((1 : UInt64) <<< 32 * ((n >>> 32).toUInt32 % d.toUInt32).toUInt64).toNat
      = 2 ^ 32 * (n.toNat / 2 ^ 32 % d.toNat) := by
    rw [UInt64.toNat_mul_of_lt] <;>
      simp only [hb, UInt32.toNat_toUInt64, UInt32.toNat_mod, hhigh, hd0]
    omega
  have hpart : ((1 : UInt64) <<< 32 * ((n >>> 32).toUInt32 % d.toUInt32).toUInt64
      + n.toUInt32.toUInt64).toNat
      = 2 ^ 32 * (n.toNat / 2 ^ 32 % d.toNat) + n.toNat % 2 ^ 32 := by
    rw [UInt64.toNat_add_of_lt] <;> simp only [hrest, UInt32.toNat_toUInt64, hlow]
    omega
  obtain ⟨q, hq, hqval⟩ := divl_fits hne (n := (1 : UInt64) <<< 32 *
    ((n >>> 32).toUInt32 % d.toUInt32).toUInt64 + n.toUInt32.toUInt64) (by
      rw [hpart, hd0]
      exact partial_div_lt hrem hlowlt)
  have hsum : q.toNat + 2 ^ 32 * (n.toNat / 2 ^ 32 / d.toNat) = n.toNat / d.toNat := by
    rw [hqval, hpart, hd0, ← div_halves _ _ _ _ hpos, Nat.div_add_mod]
  have hbound : n.toNat / d.toNat < 2 ^ 64 := (Nat.div_le_self _ _).trans_lt n.toNat_lt
  have htop : ((1 : UInt64) <<< 32 * ((n >>> 32).toUInt32 / d.toUInt32).toUInt64).toNat
      = 2 ^ 32 * (n.toNat / 2 ^ 32 / d.toNat) := by
    rw [UInt64.toNat_mul_of_lt] <;>
      simp only [hb, UInt32.toNat_toUInt64, UInt32.toNat_div, hhigh, hd0]
    omega
  rw [udiv64, if_pos hnarrow]
  simp only [if_neg hne, hq, Option.bind_eq_bind, Option.bind_some, Option.pure_def]
  rw [Option.some.injEq, ← UInt64.toNat_inj, UInt64.toNat_div, ← hsum,
    UInt64.toNat_add_of_lt] <;> rw [htop, UInt32.toNat_toUInt64]
  omega

/-- The top half of a normalised divisor is the divisor without its low `k` bits. -/
theorem normalised_top {d s k : Nat} (hk : k + s = 32) (hle : 2 ^ 31 ≤ d / 2 ^ 32 * 2 ^ s)
    (hlt : d / 2 ^ 32 * 2 ^ s < 2 ^ 32) :
    d * 2 ^ s < 2 ^ 64 ∧ d * 2 ^ s / 2 ^ 32 = d / 2 ^ k ∧ 2 ^ 31 ≤ d / 2 ^ k := by
  have hpow : 2 ^ 32 = 2 ^ k * 2 ^ s := by rw [← pow_add, hk]
  refine ⟨?_, ?_, ?_⟩
  · have hhigh : d / 2 ^ 32 < 2 ^ k := by
      apply Nat.lt_of_mul_lt_mul_right (a := 2 ^ s)
      rwa [← hpow]
    have hd : d < 2 ^ k * 2 ^ 32 := (Nat.div_lt_iff_lt_mul (by decide)).mp hhigh
    calc d * 2 ^ s < 2 ^ k * 2 ^ 32 * 2 ^ s := Nat.mul_lt_mul_of_pos_right hd (Nat.two_pow_pos s)
      _ = 2 ^ k * 2 ^ s * 2 ^ 32 := by ring
      _ = 2 ^ 64 := by rw [← hpow]; norm_num
  · rw [hpow]
    exact Nat.mul_div_mul_right d (2 ^ k) (Nat.two_pow_pos s)
  · rw [Nat.le_div_iff_mul_le (Nat.two_pow_pos k)]
    calc 2 ^ 31 * 2 ^ k ≤ d / 2 ^ 32 * 2 ^ s * 2 ^ k := Nat.mul_le_mul_right _ hle
      _ = d / 2 ^ 32 * (2 ^ k * 2 ^ s) := by ring
      _ ≤ d := by rw [← hpow]; exact Nat.div_mul_le_self d (2 ^ 32)

/-- The correction: one less than an estimate that is right or one too large. -/
theorem corrected_quotient {n d q : UInt64} (hd : 0 < d.toNat) (hdn : d.toNat ≤ n.toNat)
    (hle : n.toNat / d.toNat ≤ q.toNat) (hlt : q.toNat ≤ n.toNat / d.toNat + 1) :
    (if n - (q - 1) * d < d then q - 1 else q) = n / d := by
  have hone : 1 ≤ n.toNat / d.toNat := Nat.div_pos hdn hd
  have honeq : (1 : UInt64).toNat ≤ q.toNat := hone.trans hle
  have hpred : (q - 1).toNat = q.toNat - 1 :=
    UInt64.toNat_sub_of_le _ _ (UInt64.le_iff_toNat_le.mpr honeq)
  have hfloor : d.toNat * (n.toNat / d.toNat) ≤ n.toNat := Nat.mul_div_le n.toNat d.toNat
  have hprod : (q.toNat - 1) * d.toNat ≤ n.toNat := by
    calc (q.toNat - 1) * d.toNat ≤ n.toNat / d.toNat * d.toNat :=
          Nat.mul_le_mul_right _ (by omega)
      _ ≤ n.toNat := Nat.div_mul_le_self _ _
  have hmul : ((q - 1) * d).toNat = (q.toNat - 1) * d.toNat := by
    rw [UInt64.toNat_mul_of_lt, hpred]
    rw [hpred]
    exact hprod.trans_lt n.toNat_lt
  have hsub : (n - (q - 1) * d).toNat = n.toNat - (q.toNat - 1) * d.toNat := by
    rw [UInt64.toNat_sub_of_le _ _ (UInt64.le_iff_toNat_le.mpr (hmul ▸ hprod)), hmul]
  have hmod : n.toNat - n.toNat / d.toNat * d.toNat < d.toNat := by
    rw [Nat.mul_comm, ← Nat.mod_eq_sub_mul_div]
    exact Nat.mod_lt _ hd
  rw [← UInt64.toNat_inj, UInt64.toNat_div]
  obtain heq | heq : q.toNat = n.toNat / d.toNat ∨ q.toNat - 1 = n.toNat / d.toNat := by omega
  · rw [if_neg, heq]
    rw [UInt64.lt_iff_toNat_lt, hsub, heq, Nat.sub_mul, Nat.mul_comm (n.toNat / d.toNat)]
    omega
  · rw [if_pos, hpred, heq]
    rw [UInt64.lt_iff_toNat_lt, hsub, heq]
    exact hmod

/-- A wider one. -/
theorem udiv64_wide {n d : UInt64} (hwide : d >>> 32 ≠ 0) (hle : d ≤ n) :
    udiv64 n d = some (n / d) := by
  have hd1 : ((d >>> 32).toUInt32).toNat = d.toNat / 2 ^ 32 := by
    rw [UInt64.toNat_toUInt32, UInt64.toNat_shiftRight, Nat.shiftRight_eq_div_pow]
    exact Nat.mod_eq_of_lt (Nat.div_lt_of_lt_mul d.toNat_lt)
  have hne : (d >>> 32).toUInt32 ≠ 0 := by
    intro h
    apply hwide
    rw [← UInt64.toNat_inj, UInt64.toNat_shiftRight, Nat.shiftRight_eq_div_pow]
    rw [h] at hd1
    exact hd1.symm
  have hbounds := nlz_spec hne
  have hs := nlz_le hne
  rw [hd1] at hbounds
  have hnotlt : ¬ n < d := UInt64.not_lt.mpr hle
  rw [udiv64, if_neg hwide, if_neg hnotlt]
  simp only [Option.bind_eq_bind, Option.pure_def]
  generalize nlz (d >>> 32).toUInt32 = s at hbounds hs
  obtain ⟨k, hk⟩ : ∃ k, k + 1 + s = 32 := ⟨31 - s, by omega⟩
  obtain ⟨hfits, htop, hv⟩ := normalised_top hk hbounds.1 hbounds.2
  have hv1 : (((d <<< UInt64.ofNat s) >>> 32).toUInt32).toNat = d.toNat / 2 ^ (k + 1) := by
    have hshift : (d <<< UInt64.ofNat s).toNat = d.toNat * 2 ^ s := by
      rw [UInt64.toNat_shiftLeft, UInt64.toNat_ofNat_of_lt' (by show s < 2 ^ 64; omega),
        Nat.mod_eq_of_lt (by omega : s < 64), Nat.shiftLeft_eq, Nat.mod_eq_of_lt hfits]
    rw [UInt64.toNat_toUInt32, UInt64.toNat_shiftRight, hshift, Nat.shiftRight_eq_div_pow]
    show d.toNat * 2 ^ s / 2 ^ 32 % 2 ^ 32 = _
    rw [htop, Nat.mod_eq_of_lt]
    rw [← htop]
    exact Nat.div_lt_of_lt_mul hfits
  have hhalf : (n >>> 1).toNat = n.toNat / 2 := by
    rw [UInt64.toNat_shiftRight, Nat.shiftRight_eq_div_pow]
    rfl
  have hv1ne : ((d <<< UInt64.ofNat s) >>> 32).toUInt32 ≠ 0 := by
    intro h
    rw [h] at hv1
    have : (0 : UInt32).toNat = 0 := rfl
    omega
  obtain ⟨e, he, heval⟩ := divl_fits hv1ne (n := n >>> 1) (by
    rw [hv1, hhalf, Nat.div_lt_iff_lt_mul (by omega)]
    have := n.toNat_lt
    omega)
  have hq : ((e >>> UInt32.ofNat (31 - s)).toUInt64).toNat
      = n.toNat / (d.toNat / 2 ^ (k + 1) * 2 ^ (k + 1)) := by
    have hshift : 31 - s = k := by omega
    rw [UInt32.toNat_toUInt64, UInt32.toNat_shiftRight, hshift,
      UInt32.toNat_ofNat_of_lt' (by show k < 2 ^ 32; omega), Nat.mod_eq_of_lt (by omega : k < 32),
      Nat.shiftRight_eq_div_pow, heval, hv1, hhalf, Nat.div_div_eq_div_mul,
      Nat.div_div_eq_div_mul]
    congr 1
    ring
  have hpos : 0 < 2 ^ (k + 1) := Nat.two_pow_pos _
  have hdle := UInt64.le_iff_toNat_le.mp hle
  have hdpos : 0 < d.toNat := by
    have := Nat.div_mul_le_self d.toNat (2 ^ (k + 1))
    have := Nat.mul_pos (by omega : 0 < d.toNat / 2 ^ (k + 1)) hpos
    omega
  obtain ⟨hlow, hhigh⟩ := cut_divisor n.toNat_lt hv (pow_dvd_pow 2 (by omega : k + 1 ≤ 33))
    (Nat.div_mul_le_self d.toNat (2 ^ (k + 1))) (by
      have := Nat.lt_div_mul_add (a := d.toNat) hpos
      exact this)
  rw [← hq] at hlow hhigh
  rw [he, Option.bind_some, corrected_quotient hdpos hdle hlow hhigh]

/-- The quotient is the floor quotient for every divisor but 0. -/
theorem udiv64_eq (n : UInt64) {d : UInt64} (hd : d ≠ 0) : udiv64 n d = some (n / d) := by
  by_cases hnarrow : d >>> 32 = 0
  · exact udiv64_narrow hd hnarrow
  · by_cases hlt : n < d
    · have hzero : n / d = 0 := by
        rw [← UInt64.toNat_inj, UInt64.toNat_div]
        exact Nat.div_eq_of_lt (UInt64.lt_iff_toNat_lt.mp hlt)
      rw [udiv64, if_neg hnarrow, if_pos hlt, hzero]
      rfl
    · exact udiv64_wide hnarrow (UInt64.not_lt.mp hlt)

/-! ### Signed quotients -/

theorem toInt_toInt64 (u : UInt64) : u.toInt64.toInt = (u.toNat : Int).bmod (2 ^ 64) :=
  BitVec.toInt_eq_toNat_bmod u.toBitVec

theorem absU_toNat (n : Int64) : (absU n).toNat = n.toInt.natAbs := by
  have hvalue : n.toInt = (n.toUInt64.toNat : Int).bmod (2 ^ 64) := toInt_toInt64 n.toUInt64
  have hlt := n.toUInt64.toNat_lt
  have hsign : 0 ≤ n ↔ 0 ≤ n.toInt := Int64.le_iff_toInt_le
  rw [absU]
  simp only [hsign]
  rw [Int.bmod_def] at hvalue
  split
  · omega
  · rw [UInt64.toNat_neg]
    show (2 ^ 64 - n.toUInt64.toNat) % 2 ^ 64 = n.toInt.natAbs
    omega

/-- The quotient of the magnitudes with the sign of the truncated quotient. -/
theorem tdiv_signs (n d : Int) :
    n.tdiv d = if (n < 0) = (d < 0) then ((n.natAbs / d.natAbs : Nat) : Int)
      else -((n.natAbs / d.natAbs : Nat) : Int) := by
  have hmagnitudes : ((n.natAbs / d.natAbs : Nat) : Int) = (n.natAbs : Int).tdiv d.natAbs :=
    Int.ofNat_tdiv _ _
  rw [hmagnitudes]
  by_cases hn : n < 0 <;> by_cases hd : d < 0
  · rw [if_pos (by simp [hn, hd]), ← Int.neg_tdiv_neg]
    congr 1 <;> omega
  · rw [if_neg (by simp [hn, hd]), ← Int.neg_tdiv]
    congr 1 <;> omega
  · rw [if_neg (by simp [hn, hd]), ← Int.tdiv_neg]
    congr 1 <;> omega
  · rw [if_pos (by simp [hn, hd])]
    congr 1 <;> omega

/-- A quotient in range survives the change to a signed type and the negation. -/
theorem signed_quotient {u : UInt64} (same : Prop) [Decidable same]
    (hlow : -2 ^ 63 ≤ if same then (u.toNat : Int) else -u.toNat)
    (hhigh : (if same then (u.toNat : Int) else -u.toNat) < 2 ^ 63) :
    (if same then u.toInt64 else -u.toInt64).toInt
      = if same then (u.toNat : Int) else -u.toNat := by
  split
  · rename_i hsame
    simp only [if_pos hsame] at hlow hhigh
    rw [toInt_toInt64]
    exact Int.bmod_eq_of_le (by simp) (by simpa using hhigh)
  · rename_i hsame
    simp only [if_neg hsame] at hlow hhigh
    rw [Int64.toInt_neg, toInt_toInt64, Int.bmod_neg_bmod]
    exact Int.bmod_eq_of_le (by simpa using hlow) (by simpa using hhigh)

/-- The truncated quotient is a 64-bit number unless the divisor is -1 and the dividend the least
one. -/
theorem tdiv_range {n d : Int} (hn : -2 ^ 63 ≤ n) (hn' : n < 2 ^ 63) (hd : d ≠ 0)
    (hover : ¬ (n = -2 ^ 63 ∧ d = -1)) : -2 ^ 63 ≤ n.tdiv d ∧ n.tdiv d < 2 ^ 63 := by
  have habs : (n.tdiv d).natAbs = n.natAbs / d.natAbs := Int.natAbs_tdiv n d
  by_cases hone : d.natAbs = 1
  · obtain rfl | rfl : d = 1 ∨ d = -1 := by omega
    · rw [Int.tdiv_one]
      exact ⟨hn, hn'⟩
    · rw [Int.tdiv_neg, Int.tdiv_one]
      omega
  · have hhalf : n.natAbs / d.natAbs ≤ n.natAbs / 2 :=
      Nat.div_le_div_left (by omega) (by decide)
    omega

theorem sdiv64_spec {n d : Int64} (hd : d ≠ 0) (hover : ¬ (n = Int64.minValue ∧ d = -1)) :
    ∃ q, sdiv64 n d = some q ∧ q.toInt = n.toInt.tdiv d.toInt := by
  have habs : absU d ≠ 0 := by
    intro h
    have hzero := absU_toNat d
    rw [h] at hzero
    apply hd
    rw [← Int64.toInt_inj]
    exact Int.natAbs_eq_zero.mp hzero.symm
  have hdz : d.toInt ≠ 0 := fun h => hd (Int64.toInt_inj.mp h)
  have hover' : ¬ (n.toInt = -2 ^ 63 ∧ d.toInt = -1) := by
    rintro ⟨hleast, hminus⟩
    exact hover ⟨Int64.toInt_inj.mp hleast, Int64.toInt_inj.mp hminus⟩
  obtain ⟨hlow, hhigh⟩ := tdiv_range (Int64.le_toInt n) (Int64.toInt_lt n) hdz hover'
  have hsign : ((n < 0) = (d < 0)) = ((n.toInt < 0) = (d.toInt < 0)) := by
    rw [Int64.lt_iff_toInt_lt, Int64.lt_iff_toInt_lt]
    rfl
  have hmagnitude : n.toInt.natAbs / d.toInt.natAbs = (absU n / absU d).toNat := by
    rw [UInt64.toNat_div, absU_toNat, absU_toNat]
  rw [tdiv_signs, hmagnitude] at hlow hhigh ⊢
  refine ⟨_, by rw [sdiv64, udiv64_eq _ habs]; rfl, ?_⟩
  rw [← signed_quotient _ hlow hhigh]
  simp only [hsign]

/-! ### Remainders -/

/-- The remainder loses what does not fit in 32 bits. -/
theorem umod64_spec (n : UInt64) {d : UInt64} (hd : d ≠ 0) :
    ∃ r, umod64 n d = some r ∧ r.toNat = n.toNat % d.toNat % 2 ^ 32 := by
  have hprod : d.toNat * (n.toNat / d.toNat) ≤ n.toNat := Nat.mul_div_le _ _
  have hmul : (d * (n / d)).toNat = d.toNat * (n.toNat / d.toNat) := by
    rw [UInt64.toNat_mul_of_lt, UInt64.toNat_div]
    rw [UInt64.toNat_div]
    exact hprod.trans_lt n.toNat_lt
  have hsub : (n - d * (n / d)).toNat = n.toNat % d.toNat := by
    rw [UInt64.toNat_sub_of_le _ _ (UInt64.le_iff_toNat_le.mpr (hmul ▸ hprod)), hmul,
      Nat.mod_eq_sub_mul_div]
  refine ⟨(n - d * (n / d)).toUInt32, ?_, ?_⟩
  · rw [umod64, udiv64_eq n hd]
    rfl
  · rw [UInt64.toNat_toUInt32, hsub]

/-- The signed remainder loses what does not fit in a signed number of 32 bits. -/
theorem smod64_spec {n d : Int64} (hd : d ≠ 0) (hover : ¬ (n = Int64.minValue ∧ d = -1)) :
    ∃ r, smod64 n d = some r ∧ r.toInt = (n.toInt.tmod d.toInt).bmod (2 ^ 32) := by
  obtain ⟨q, hq, hqval⟩ := sdiv64_spec hd hover
  have hrem : n.toInt - d.toInt * q.toInt = n.toInt.tmod d.toInt := by
    rw [hqval, Int.tmod_def]
  have hdz : d.toInt ≠ 0 := fun h => hd (Int64.toInt_inj.mp h)
  have hsmaller : (n.toInt.tmod d.toInt).natAbs < d.toInt.natAbs := by
    rw [Int.natAbs_tmod]
    exact Nat.mod_lt _ (Int.natAbs_pos.mpr hdz)
  have hexact : (n.toInt.tmod d.toInt).bmod (2 ^ 64) = n.toInt.tmod d.toInt := by
    have hlow := Int64.le_toInt d
    have hhigh := Int64.toInt_lt d
    exact Int.bmod_eq_of_le (by omega) (by omega)
  refine ⟨(n - d * q).toInt32, ?_, ?_⟩
  · rw [smod64, hq]
    rfl
  · rw [Int64.toInt_toInt32, Int64.toInt_sub, Int64.toInt_mul, Int.sub_bmod_bmod, hrem, hexact]

/-! ### The routines that the compiler calls -/

/-- The floor quotient and the remainder. -/
def UnsignedRight (n d : UInt64) : Prop :=
  ∃ q r, udivdi3 n d = some q ∧ umoddi3 n d = some r ∧
    n.toNat = d.toNat * q.toNat + r.toNat ∧ r.toNat < d.toNat

/-- The truncated quotient and the remainder with the sign of the dividend. -/
def SignedRight (n d : Int64) : Prop :=
  ∃ q r, divdi3 n d = some q ∧ moddi3 n d = some r ∧
    q.toInt = n.toInt.tdiv d.toInt ∧ r.toInt = n.toInt.tmod d.toInt

theorem unsignedRight_iff (n : UInt64) {d : UInt64} (hd : d ≠ 0) :
    UnsignedRight n d ↔ n.toNat % d.toNat < 2 ^ 32 := by
  obtain ⟨r, hr, hrval⟩ := umod64_spec n hd
  have hq : udivdi3 n d = some (n / d) := udiv64_eq n hd
  have hr64 : umoddi3 n d = some r.toUInt64 := by
    rw [umoddi3, hr]
    rfl
  have hpos : 0 < d.toNat := by
    rw [Nat.pos_iff_ne_zero]
    exact fun h => hd (UInt64.toNat_inj.mp h)
  have hdivmod := Nat.div_add_mod n.toNat d.toNat
  constructor
  · rintro ⟨q, r', hq', hr', heq, -⟩
    rw [hq, Option.some.injEq] at hq'
    rw [hr64, Option.some.injEq] at hr'
    subst hq' hr'
    rw [UInt64.toNat_div, UInt32.toNat_toUInt64] at heq
    have := r.toNat_lt
    omega
  · intro hfits
    rw [Nat.mod_eq_of_lt hfits] at hrval
    refine ⟨_, _, hq, hr64, ?_, ?_⟩
    · rw [UInt64.toNat_div, UInt32.toNat_toUInt64, hrval, hdivmod]
    · rw [UInt32.toNat_toUInt64, hrval]
      exact Nat.mod_lt _ hpos

theorem signedRight_iff {n d : Int64} (hd : d ≠ 0)
    (hover : ¬ (n = Int64.minValue ∧ d = -1)) :
    SignedRight n d ↔ -2 ^ 31 ≤ n.toInt.tmod d.toInt ∧ n.toInt.tmod d.toInt < 2 ^ 31 := by
  obtain ⟨q, hq, hqval⟩ := sdiv64_spec hd hover
  obtain ⟨r, hr, hrval⟩ := smod64_spec hd hover
  have hr64 : moddi3 n d = some r.toInt64 := by
    rw [moddi3, hr]
    rfl
  constructor
  · rintro ⟨_, r', -, hr', -, heq⟩
    rw [hr64, Option.some.injEq] at hr'
    subst hr'
    rw [Int32.toInt_toInt64] at heq
    rw [← heq]
    exact ⟨Int32.le_toInt r, Int32.toInt_lt r⟩
  · rintro ⟨hlow, hhigh⟩
    refine ⟨q, _, hq, hr64, hqval, ?_⟩
    rw [Int32.toInt_toInt64, hrval]
    exact Int.bmod_eq_of_le (by simpa using hlow) (by simpa using hhigh)

/-- The four routines are right exactly for the remainders that their 32-bit results hold. -/
theorem division_right_iff (n d : UInt64) (a e : Int64) (hd : d ≠ 0) (he : e ≠ 0)
    (hover : ¬ (a = Int64.minValue ∧ e = -1)) :
    UnsignedRight n d ∧ SignedRight a e ↔
      n.toNat % d.toNat < 2 ^ 32 ∧
        -2 ^ 31 ≤ a.toInt.tmod e.toInt ∧ a.toInt.tmod e.toInt < 2 ^ 31 := by
  rw [unsignedRight_iff n hd, signedRight_iff he hover]

/-- Both divisors take more than 32 bits. -/
theorem division_right_iff_wide :
    UnsignedRight 0xfedcba9876543210 0x123456789 ∧
      SignedRight (-0x7edcba9876543210) 0x400000001 :=
  (division_right_iff 0xfedcba9876543210 0x123456789 (-0x7edcba9876543210) 0x400000001
    (by decide) (by decide) (by decide)).mpr (by decide)

/-- The remainder of 2^32 by 2^33 does not fit. -/
theorem umoddi3_wide_remainder :
    ¬ (∀ n d : UInt64, ∀ a e : Int64, d ≠ 0 → e ≠ 0 → ¬ (a = Int64.minValue ∧ e = -1) →
      UnsignedRight n d ∧ SignedRight a e) := by
  intro hright
  obtain ⟨q, r, hq, hr, heq, -⟩ :=
    (hright 0x100000000 0x200000000 0 1 (by decide) (by decide) (by decide)).1
  have hq0 : udivdi3 0x100000000 0x200000000 = some 0 := by decide +kernel
  have hr0 : umoddi3 0x100000000 0x200000000 = some 0 := by decide +kernel
  rw [hq0, Option.some.injEq] at hq
  rw [hr0, Option.some.injEq] at hr
  subst hq hr
  exact absurd heq (by decide)

end Pintos
