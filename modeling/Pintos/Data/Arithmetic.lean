/-
`lib/arithmetic.c`: 64-bit division on a machine that divides 64 bits by
32.

# Reading the model

A word is a number, and what may not fit is cut to its width as the source
cuts it: `% 2 ^ w` for an unsigned word, `bmod (2 ^ w)` for a signed one.
`none` is a divide error: the divisor of `divl` is zero or its quotient
does not fit in 32 bits. Negating the smallest `int64_t`, which C leaves
open, gives that number again.

# The estimate

For a divisor of more than 32 bits the source drops its low bits, which
leaves a multiple `K * v` of a power of two with `v` of exactly 32 bits,
and divides by that instead: `divl` by `v`, the shifts by `K`. The
quotient is too large by at most one (`div_le_div_add_one`), since the
bits dropped are fewer than the ones kept: everything in the proof comes
down to `0 ≤ (K - 2) ^ 2`. It is not too small, so it is not zero and one
may be taken off it.
-/
import Mathlib.Tactic.Linarith
import Mathlib.Tactic.Ring

namespace Pintos.Arithmetic

-- ==== the code

/-- `divl`: the instruction divides the two halves it is given. -/
def divl (n d : Nat) : Option Nat :=
  let n1 := n / 2 ^ 32
  let n0 := n % 2 ^ 32
  let q := (n1 * 2 ^ 32 + n0) / d
  if d = 0 ∨ 2 ^ 32 ≤ q then none else some q

/-- A step of `nlz`, on the count and the word. -/
def nlzStep (limit k : Nat) (x : Nat × Nat) : Nat × Nat :=
  if x.2 ≤ limit then (x.1 + k, x.2 * 2 ^ k % 2 ^ 32) else x

/-- `nlz`; the word is not used after the last step. -/
def nlz (x : Nat) : Nat :=
  (nlzStep 0x7FFFFFFF 1 <| nlzStep 0x3FFFFFFF 2 <| nlzStep 0x0FFFFFFF 4 <|
    nlzStep 0x00FFFFFF 8 <| nlzStep 0x0000FFFF 16 (0, x)).1

/-- `udiv64`. -/
def udiv64 (n d : Nat) : Option Nat :=
  if d / 2 ^ 32 = 0 then
    let b := 2 ^ 32
    let n1 := n / 2 ^ 32
    let n0 := n % 2 ^ 32
    let d0 := d % 2 ^ 32
    (divl ((b * (n1 % d0) + n0) % 2 ^ 64) d0).map fun q => (q + b * (n1 / d0)) % 2 ^ 64
  else if n < d then some 0
  else
    let d1 := d / 2 ^ 32
    let s := nlz d1
    (divl (n / 2) (d * 2 ^ s % 2 ^ 64 / 2 ^ 32)).map fun q =>
      let q := q / 2 ^ (31 - s)
      let q' := (q + 2 ^ 64 - 1) % 2 ^ 64
      if (n + 2 ^ 64 - q' * d % 2 ^ 64) % 2 ^ 64 < d then q' else q

/-- `umod64`, which returns 32 bits. -/
def umod64 (n d : Nat) : Option Nat :=
  (udiv64 n d).map fun q => (n + 2 ^ 64 - d * q % 2 ^ 64) % 2 ^ 64 % 2 ^ 32

/-- The absolute value as `sdiv64` takes it. -/
def absOf (n : Int) : Nat :=
  if 0 ≤ n then (n % 2 ^ 64).toNat else (-(n % 2 ^ 64) % 2 ^ 64).toNat

/-- `sdiv64`. -/
def sdiv64 (n d : Int) : Option Int :=
  (udiv64 (absOf n) (absOf d)).map fun (q : Nat) =>
    let q := (q : Int).bmod (2 ^ 64)
    if decide (n < 0) = decide (d < 0) then q else (-q).bmod (2 ^ 64)

/-- `smod64`, which returns 32 bits. -/
def smod64 (n d : Int) : Option Int :=
  (sdiv64 n d).map fun q => ((n - (d * q).bmod (2 ^ 64)).bmod (2 ^ 64)).bmod (2 ^ 32)

/-- `__udivdi3`, `__umoddi3`, `__divdi3` and `__moddi3`. -/
def udivdi3 (n d : Nat) : Option Nat := udiv64 n d

def umoddi3 (n d : Nat) : Option Nat := umod64 n d

def divdi3 (n d : Int) : Option Int := sdiv64 n d

def moddi3 (n d : Int) : Option Int := smod64 n d

-- ==== the estimate

variable {n d : Nat}

/-- Dividing by `d` with its low bits dropped is off by at most one. -/
theorem div_le_div_add_one {K v : Nat} (hn : n < 4 * v ^ 2)
    (hlo : K * v ≤ d) (hhi : d < K * v + K) :
    n / (K * v) ≤ n / d + 1 := by
  obtain ⟨r, rfl⟩ := Nat.exists_eq_add_of_le hlo
  generalize hq : n / (K * v) = q
  have hqn : q * (K * v) ≤ n := hq ▸ Nat.div_mul_le_self n _
  rcases q with _ | q
  · exact Nat.zero_le _
  refine Nat.succ_le_succ ?_
  have hd : 0 < K * v + r := by
    by_contra h
    have : K * v = 0 := by omega
    simp [this] at hq
  rw [Nat.le_div_iff_mul_le hd]
  -- what the dropped bits add is at most one more divisor
  have hr : q * r ≤ K * v := by
    by_contra h
    have hv : 0 < v := by
      by_contra h0
      simp [show v = 0 by omega] at hn
    have hK : 0 < K := by omega
    have hsq : v ^ 2 * (K * K) < v ^ 2 * (4 * r) := by
      calc v ^ 2 * (K * K) = (K * v) * (K * v) := by ring
        _ < (q * r) * (K * v) :=
          Nat.mul_lt_mul_of_pos_right (Nat.lt_of_not_le h) (Nat.mul_pos hK hv)
        _ = (q * (K * v)) * r := by ring
        _ ≤ (4 * v ^ 2) * r := Nat.mul_le_mul_right r (by
          rw [Nat.succ_mul] at hqn
          omega)
        _ = v ^ 2 * (4 * r) := by ring
    nlinarith [sq_nonneg ((K : Int) - 2)]
  rw [mul_add]
  rw [Nat.succ_mul] at hqn
  omega

-- ==== leading zeros

/-- The word of `nlz` is the argument, shifted by the count. -/
structure Shifted (x₀ lo most : Nat) (x : Nat × Nat) : Prop where
  word : x₀ * 2 ^ x.1 = x.2
  low : lo ≤ x.2
  high : x.2 < 2 ^ 32
  count : x.1 ≤ most

theorem Shifted.step {x₀ lo most limit : Nat} {x : Nat × Nat} (h : Shifted x₀ lo most x) (k : Nat)
    (hlimit : limit + 1 = lo * 2 ^ k) (hfit : (limit + 1) * 2 ^ k ≤ 2 ^ 32) :
    Shifted x₀ (limit + 1) (most + k) (nlzStep limit k x) := by
  unfold nlzStep
  split
  next hle =>
    have hlt : x.2 * 2 ^ k < 2 ^ 32 := lt_of_lt_of_le
      (Nat.mul_lt_mul_of_pos_right (Nat.lt_succ_of_le hle) (by positivity)) hfit
    have hword : x.2 * 2 ^ k % 2 ^ 32 = x.2 * 2 ^ k := Nat.mod_eq_of_lt hlt
    refine ⟨?_, ?_, ?_, Nat.add_le_add_right h.count k⟩ <;> dsimp only
    · rw [hword, ← h.word, Nat.pow_add, mul_assoc]
    · rw [hword, hlimit]
      exact Nat.mul_le_mul_right _ h.low
    · exact lt_of_eq_of_lt hword hlt
  next hgt => exact ⟨h.word, Nat.lt_of_not_le hgt, h.high, Nat.le_add_right_of_le h.count⟩

theorem nlz_spec {x : Nat} (hx : x ≠ 0) (hlt : x < 2 ^ 32) : nlz x ≤ 31 ∧
    2 ^ 31 ≤ x * 2 ^ nlz x ∧ x * 2 ^ nlz x < 2 ^ 32 := by
  have h0 : Shifted x 1 0 (0, x) := ⟨mul_one _, Nat.pos_of_ne_zero hx, hlt, le_rfl⟩
  have h1 : Shifted _ (0xFFFF + 1) _ _ := h0.step 16 rfl (by decide)
  have h2 : Shifted _ (0xFFFFFF + 1) _ _ := h1.step 8 rfl (by decide)
  have h3 : Shifted _ (0xFFFFFFF + 1) _ _ := h2.step 4 rfl (by decide)
  have h4 : Shifted _ (0x3FFFFFFF + 1) _ _ := h3.step 2 rfl (by decide)
  have h5 : Shifted _ (0x7FFFFFFF + 1) _ _ := h4.step 1 rfl (by decide)
  have hword : x * 2 ^ nlz x = _ := h5.word
  rw [hword]
  exact ⟨h5.count, h5.low, h5.high⟩

/-- What the source computes for a divisor `d` of more than 32 bits whose
upper word has `s` leading zeros. -/
theorem estimate {s : Nat} (hn : n < 2 ^ 64) (hs : s ≤ 31)
    (hlo : 2 ^ 31 ≤ d / 2 ^ 32 * 2 ^ s) (hhi : d / 2 ^ 32 * 2 ^ s < 2 ^ 32) :
    d * 2 ^ s < 2 ^ 64 ∧ 2 ^ 31 ≤ d * 2 ^ s / 2 ^ 32 ∧
      n / 2 / (d * 2 ^ s / 2 ^ 32) < 2 ^ 32 ∧
      n / d ≤ n / 2 / (d * 2 ^ s / 2 ^ 32) / 2 ^ (31 - s) ∧
      n / 2 / (d * 2 ^ s / 2 ^ 32) / 2 ^ (31 - s) ≤ n / d + 1 := by
  have hpow : 2 ^ (32 - s) * 2 ^ s = 2 ^ 32 := by rw [← Nat.pow_add, Nat.sub_add_cancel (by omega)]
  have hK : 2 * 2 ^ (31 - s) = 2 ^ (32 - s) := by
    rw [← Nat.pow_succ', Nat.succ_eq_add_one, show 31 - s + 1 = 32 - s by omega]
  have hv : d * 2 ^ s / 2 ^ 32 = d / 2 ^ (32 - s) := by
    rw [← hpow]
    exact Nat.mul_div_mul_right _ _ (by positivity)
  have hlow : 2 ^ 31 ≤ d * 2 ^ s / 2 ^ 32 := by
    refine le_trans hlo ((Nat.le_div_iff_mul_le (by decide)).mpr ?_)
    rw [Nat.mul_right_comm]
    exact Nat.mul_le_mul_right _ (Nat.div_mul_le_self d _)
  have hlt : d * 2 ^ s < 2 ^ 64 := by
    have hd1 : d / 2 ^ 32 < 2 ^ (32 - s) :=
      Nat.lt_of_mul_lt_mul_right (lt_of_lt_of_eq hhi hpow.symm)
    have hd : d < 2 ^ (32 - s) * 2 ^ 32 := (Nat.div_lt_iff_lt_mul (by decide)).mp hd1
    calc d * 2 ^ s < 2 ^ (32 - s) * 2 ^ 32 * 2 ^ s := Nat.mul_lt_mul_of_pos_right hd (by positivity)
      _ = 2 ^ 64 := by rw [Nat.mul_right_comm, hpow, ← Nat.pow_add]
  refine ⟨hlt, hlow, ?_, ?_⟩
  · rw [Nat.div_lt_iff_lt_mul (by omega)]
    omega
  · -- the two shifts and the division are one division
    generalize hgv : d * 2 ^ s / 2 ^ 32 = v at hv hlow
    have hlo' : 2 ^ (32 - s) * v ≤ d := by
      rw [hv, mul_comm]
      exact Nat.div_mul_le_self d _
    have hhi' : d < 2 ^ (32 - s) * v + 2 ^ (32 - s) := by
      rw [hv]
      exact Nat.lt_mul_div_succ d (by positivity)
    have hq : n / 2 / v / 2 ^ (31 - s) = n / (2 ^ (32 - s) * v) := by
      rw [Nat.div_div_eq_div_mul, Nat.div_div_eq_div_mul, ← hK]
      congr 1
      ring
    rw [hq]
    refine ⟨Nat.div_le_div_left hlo' (Nat.mul_pos (by positivity) (by omega)),
      div_le_div_add_one ?_ hlo' hhi'⟩
    nlinarith

-- ==== quotients

theorem divl_eq (hd : d ≠ 0) (hq : n / d < 2 ^ 32) : divl n d = some (n / d) := by
  unfold divl
  simp only [Nat.div_add_mod']
  exact if_neg (not_or.mpr ⟨hd, not_le.mpr hq⟩)

/-- Schoolbook division by one digit. -/
theorem div_two_digits (b n1 n0 : Nat) (hd : 0 < d) :
    (b * (n1 % d) + n0) / d + b * (n1 / d) = (b * n1 + n0) / d := by
  rw [← Nat.add_mul_div_left _ _ hd]
  congr 1
  have hn1 := Nat.mod_add_div n1 d
  calc b * (n1 % d) + n0 + d * (b * (n1 / d)) = b * (n1 % d + d * (n1 / d)) + n0 := by ring
    _ = b * n1 + n0 := by rw [hn1]

/-- A divisor of one word. -/
theorem udiv64_small (hn : n < 2 ^ 64) (hd : 0 < d)
    (hsmall : d < 2 ^ 32) : udiv64 n d = some (n / d) := by
  have hmod := Nat.mod_lt (n / 2 ^ 32) hd
  -- the remainder of the upper word is below the divisor: no trap
  have hfit : (2 ^ 32 * (n / 2 ^ 32 % d) + n % 2 ^ 32) / d < 2 ^ 32 := by
    rw [Nat.div_lt_iff_lt_mul hd]
    omega
  have hquot := div_two_digits (2 ^ 32) (n / 2 ^ 32) (n % 2 ^ 32) hd
  rw [Nat.div_add_mod] at hquot
  have hle := Nat.div_le_self n d
  unfold udiv64
  rw [if_pos (Nat.div_eq_of_lt hsmall)]
  dsimp only
  rw [Nat.mod_eq_of_lt hsmall, Nat.mod_eq_of_lt (by omega), divl_eq (by omega) hfit,
    Option.map_some, hquot, Nat.mod_eq_of_lt (by omega)]

/-- The last line of `udiv64`, for a quotient too large by at most one. -/
theorem corrected {q : Nat} (hn : n < 2 ^ 64) (hd : 0 < d) (hle : d ≤ n) (hge : n / d ≤ q)
    (hone : q ≤ n / d + 1) : (if (n + 2 ^ 64 - (q + 2 ^ 64 - 1) % 2 ^ 64 * d % 2 ^ 64) % 2 ^ 64 < d
      then (q + 2 ^ 64 - 1) % 2 ^ 64 else q) = n / d := by
  have hpos : 1 ≤ n / d := Nat.div_pos hle hd
  have hmost := Nat.div_le_self n d
  have hq : (q + 2 ^ 64 - 1) % 2 ^ 64 = q - 1 := by omega
  have hmul : (q - 1) * d ≤ n := (Nat.le_div_iff_mul_le hd).mp (by omega)
  have hsucc : q * d = (q - 1) * d + d := by
    rw [← Nat.succ_mul, Nat.succ_eq_add_one, Nat.sub_add_cancel (by omega)]
  have hmore : q ≤ n / d ↔ q * d ≤ n := Nat.le_div_iff_mul_le hd
  rw [hq]
  split <;> omega

/-- A divisor of two words. -/
theorem udiv64_large (hn : n < 2 ^ 64) (hd : d < 2 ^ 64)
    (hlarge : 2 ^ 32 ≤ d) : udiv64 n d = some (n / d) := by
  have hd1 : d / 2 ^ 32 ≠ 0 := by omega
  unfold udiv64
  rw [if_neg hd1]
  split
  next hlt => rw [Nat.div_eq_of_lt hlt]
  rename_i hlt
  obtain ⟨hs, hlo, hhi⟩ := nlz_spec hd1 (by omega)
  obtain ⟨hfit, hv, hq, hge, hone⟩ := estimate hn hs hlo hhi
  dsimp only
  rw [Nat.mod_eq_of_lt hfit, divl_eq (by omega) hq, Option.map_some,
    corrected hn (by omega) (Nat.le_of_not_lt hlt) hge hone]

theorem udiv64_exact (hn : n < 2 ^ 64) (hd : d < 2 ^ 64)
    (hne : d ≠ 0) : udiv64 n d = some (n / d) := by
  by_cases hsmall : d < 2 ^ 32
  · exact udiv64_small hn (Nat.pos_of_ne_zero hne) hsmall
  · exact udiv64_large hn hd (Nat.le_of_not_lt hsmall)

/-- An `int64_t`. -/
def Signed64 (n : Int) : Prop := -2 ^ 63 ≤ n ∧ n < 2 ^ 63

instance (n : Int) : Decidable (Signed64 n) := inferInstanceAs (Decidable (_ ∧ _))

theorem absOf_eq {n : Int} (hn : Signed64 n) : absOf n = n.natAbs := by
  unfold absOf Signed64 at *
  split <;> omega

/-- Truncating division by the absolute values and the signs. -/
theorem tdiv_eq_abs (n d : Int) : n.tdiv d =
    if decide (n < 0) = decide (d < 0) then ((n.natAbs / d.natAbs : Nat) : Int)
    else -((n.natAbs / d.natAbs : Nat) : Int) := by
  have hnat : ∀ m : Nat, ¬(m : Int) < 0 := fun m => by omega
  cases n <;> cases d <;> simp [Int.tdiv, hnat]

theorem sdiv64_exact {n d : Int} (hn : Signed64 n) (hd : Signed64 d) (hne : d ≠ 0)
    (hfit : ¬(n = -2 ^ 63 ∧ d = -1)) : sdiv64 n d = some (n.tdiv d) := by
  have hle := Nat.div_le_self n.natAbs d.natAbs
  have hpos := Int.natCast_nonneg (n.natAbs / d.natAbs)
  have habs : n.natAbs ≤ 2 ^ 63 ∧ d.natAbs < 2 ^ 64 := by
    unfold Signed64 at hn hd
    omega
  unfold sdiv64
  rw [absOf_eq hn, absOf_eq hd, udiv64_exact (by omega) (by omega) (by omega),
    tdiv_eq_abs, Option.map_some]
  split
  next hsign =>
    -- only the excluded pair has the quotient 2 ^ 63
    have hlt : n.natAbs / d.natAbs < 2 ^ 63 := by
      by_cases hone : d.natAbs = 1
      · rw [decide_eq_decide] at hsign
        unfold Signed64 at hn
        omega
      · have := Nat.div_le_div_left (a := n.natAbs) (show 2 ≤ d.natAbs by omega) (by decide)
        omega
    rw [Int.bmod_eq_of_le (by omega) (by omega)]
  next => rw [Int.bmod_neg_bmod, Int.bmod_eq_of_le (by omega) (by omega)]

/-- The quotients are exact, and no `divl` traps. -/
theorem division_exact {n d : Nat} {m e : Int} (hn : n < 2 ^ 64) (hd : d < 2 ^ 64) (hd0 : d ≠ 0)
    (hm : Signed64 m) (he : Signed64 e) (he0 : e ≠ 0) (hfit : ¬(m = -2 ^ 63 ∧ e = -1)) :
    udivdi3 n d = some (n / d) ∧ divdi3 m e = some (m.tdiv e) :=
  ⟨udiv64_exact hn hd hd0, sdiv64_exact hm he he0 hfit⟩

theorem division_exact_one :
    udivdi3 0xFFFFFFFFFFFFFFFF 0x1FFFFFFFF = some 2147483648 ∧ divdi3 (-7) 2 = some (-3) :=
  division_exact (by decide) (by decide) (by decide) (by decide) (by decide) (by decide) (by decide)

-- ==== remainders

/-- What `__umoddi3` returns is the remainder, cut to 32 bits. -/
theorem umoddi3_eq (hn : n < 2 ^ 64) (hd : d < 2 ^ 64)
    (hne : d ≠ 0) : umoddi3 n d = some (n % d % 2 ^ 32) := by
  have hdiv := Nat.div_add_mod n d
  unfold umoddi3 umod64
  rw [udiv64_exact hn hd hne, Option.map_some]
  congr 1
  omega

/-- What `__moddi3` returns is the remainder, cut to 32 bits. -/
theorem moddi3_eq {n d : Int} (hn : Signed64 n) (hd : Signed64 d) (hne : d ≠ 0)
    (hfit : ¬(n = -2 ^ 63 ∧ d = -1)) : moddi3 n d = some ((n.tmod d).bmod (2 ^ 32)) := by
  have h64 : (n.tmod d).bmod (2 ^ 64) = n.tmod d := by
    have habs := Int.natAbs_tmod n d
    have hlt := Nat.mod_lt n.natAbs (Int.natAbs_pos.mpr hne)
    unfold Signed64 at hn hd
    exact Int.bmod_eq_of_le (by omega) (by omega)
  unfold moddi3 smod64
  rw [sdiv64_exact hn hd hne hfit, Option.map_some, Int.sub_bmod_bmod, ← Int.tmod_def, h64]

/-- The remainders are exact if and only if they fit the 32 bits that they
are returned in. -/
theorem remainder_exact {n d : Nat} {m e : Int} (hn : n < 2 ^ 64) (hd : d < 2 ^ 64) (hd0 : d ≠ 0)
    (hm : Signed64 m) (he : Signed64 e) (he0 : e ≠ 0) (hfit : ¬(m = -2 ^ 63 ∧ e = -1)) :
    ((∃ q r, udivdi3 n d = some q ∧ umoddi3 n d = some r ∧ r = n % d ∧ n = d * q + r) ↔
      n % d < 2 ^ 32) ∧
    ((∃ q r, divdi3 m e = some q ∧ moddi3 m e = some r ∧ r = m - e * q ∧
      r.natAbs < e.natAbs ∧ (0 ≤ m → 0 ≤ r) ∧ (m ≤ 0 → r ≤ 0)) ↔
      -2 ^ 31 ≤ m.tmod e ∧ m.tmod e < 2 ^ 31) := by
  have humod := umoddi3_eq hn hd hd0
  have hmod := moddi3_eq hm he he0 hfit
  have hdiv : divdi3 m e = some (m.tdiv e) := sdiv64_exact hm he he0 hfit
  refine ⟨⟨?_, fun hr => ?_⟩, ⟨?_, fun hr => ?_⟩⟩
  · rintro ⟨q, r, -, hr, rfl, -⟩
    rw [humod, Option.some_inj] at hr
    omega
  · rw [Nat.mod_eq_of_lt hr] at humod
    exact ⟨n / d, n % d, udiv64_exact hn hd hd0, humod, rfl, (Nat.div_add_mod n d).symm⟩
  · rintro ⟨q, r, hq, hr, hqr, -⟩
    rw [hdiv, Option.some_inj] at hq
    rw [hmod, Option.some_inj] at hr
    rw [← hq, ← Int.tmod_def] at hqr
    have hcut := Int.bmod_def (m.tmod e) (2 ^ 32)
    omega
  · rw [Int.bmod_eq_of_le (by omega) (by omega)] at hmod
    refine ⟨m.tdiv e, m.tmod e, hdiv, hmod, Int.tmod_def m e, ?_, Int.tmod_nonneg e, ?_⟩
    · rw [Int.natAbs_tmod]
      exact Nat.mod_lt _ (Int.natAbs_pos.mpr he0)
    · intro h
      have hneg := Int.tmod_nonneg e (Int.neg_nonneg_of_nonpos h)
      rw [Int.neg_tmod] at hneg
      omega

/-- A divisor of 33 bits with a remainder that fits, and a negative dividend. -/
theorem remainder_exact_small : (∃ q r, udivdi3 0x10000000A 0x100000003 = some q ∧
      umoddi3 0x10000000A 0x100000003 = some r ∧ r = 7 ∧
      0x10000000A = 0x100000003 * q + r) ∧
    ∃ q r, divdi3 (-7) 2 = some q ∧ moddi3 (-7) 2 = some r ∧ r = -7 - 2 * q ∧
      r.natAbs < 2 ∧ ((0 : Int) ≤ -7 → 0 ≤ r) ∧ ((-7 : Int) ≤ 0 → r ≤ 0) := by
  obtain ⟨hu, hs⟩ := remainder_exact (n := 0x10000000A) (d := 0x100000003) (m := -7) (e := 2)
    (by decide) (by decide) (by decide) (by decide) (by decide) (by decide) (by decide)
  exact ⟨hu.mpr (by decide), hs.mpr (by decide)⟩

/-- The remainder 2 ^ 32 of 2 ^ 32 by 2 ^ 32 + 1 comes out as zero, and the
remainder 2 ^ 31 of 2 ^ 31 by 2 ^ 31 + 1 as negative. -/
theorem remainder_truncated :
    umoddi3 0x100000000 0x100000001 = some 0 ∧
      moddi3 0x80000000 0x80000001 = some (-0x80000000) := by
  decide +kernel

end Pintos.Arithmetic
