import Pallas.Math.Logarithm
import Pallas.Math.Operators

/-!
# The accuracy of the exponential

`ref_exp` divides a positive argument by the number of units it reaches into, sums the series of the quotient, which is
at most one, until a term is below `EPS`, and raises the sum to the power of that number. The terms are those of
`ref_exp_cmp`. What the sum lacks is at most three units of the 24th decimal, and the power loses that much with every
factor; what the quotient, the products and the power round away are units of the 34th. A negative argument is inverted.
-/

namespace Pallas.Math
open Finset

/-- It panics where `ref_exp` does. -/
def Decimal.exp (self : Decimal) : Outcome Empty Decimal := do
  let (data, _) ← refExp self.data
  .ok { Decimal.new self.precision with data := data }

/-! ### The sum -/

namespace TaylorState
open ExpState
variable {x epsilon : ℤ}

/-- `last_x` after some passes. -/
def lastTerm (x : ℤ) : ℕ → ℤ
  | 0 => ONE
  | k + 1 => term x k

/-- The variables after some passes. -/
def after (x : ℤ) (k : ℕ) : TaylorState := ⟨PRECISION + ∑ i ∈ range k, term x i, (k + 1) * PRECISION, lastTerm x k, k⟩

theorem start_eq (x : ℤ) : (⟨ONE, ONE, ONE, 0⟩ : TaylorState) = after x 0 := by simp [after, lastTerm, ONE]

theorem nextX_eq (hx : 0 ≤ x) (k : ℕ) : Math.div (scale (x * lastTerm x k)) ((k + 1) * PRECISION) = term x k := by
  have hpos := PRECISION_pos
  cases k with
  | zero =>
    rw [lastTerm, ONE_eq, scale_eq (mul_nonneg hx hpos.le), Int.mul_ediv_cancel _ hpos.ne', Math.div,
      divFloor_eq (mul_nonneg hx hpos.le) (by simpa using hpos)]
    simp [term, hpos.ne']
  | succ k =>
    have hterm := term_nonneg hx k
    have hscaled : 0 ≤ term x k * x / PRECISION := Int.ediv_nonneg (mul_nonneg hterm hx) hpos.le
    rw [lastTerm, mul_comm x, scale_eq (mul_nonneg hterm hx), Math.div,
      divFloor_eq (mul_nonneg hscaled hpos.le) (by positivity), Int.mul_ediv_mul_of_pos_left _ _ hpos, term]
    push_cast
    ring_nf

theorem loop_succ (hx : 0 ≤ x) (left k : ℕ) :
    mpExpTaylorLoop x epsilon (left + 1) (after x k) =
      if term x k < |epsilon| then after x k else mpExpTaylorLoop x epsilon left (after x (k + 1)) := by
  have hnext : Math.div (scale (x * (after x k).lastX)) (after x k).divisor = term x k := nextX_eq hx k
  have hafter : (⟨(after x k).rop + term x k, (after x k).divisor + ONE, term x k, (after x k).n + 1⟩ : TaylorState) =
      after x (k + 1) := by
    simp only [after, sum_range_succ, ONE_eq, lastTerm, mk.injEq, and_true]
    push_cast
    constructor <;> ring
  rw [mpExpTaylorLoop, hnext, abs_of_nonneg (term_nonneg hx k), hafter]

theorem loop_eq (epsilon : ℤ) (hx : 0 ≤ x) (left k : ℕ) :
    ∃ i, mpExpTaylorLoop x epsilon left (after x k) = after x i ∧ (∀ j, k ≤ j → j < i → |epsilon| ≤ term x j) ∧
      (term x i < |epsilon| ∨ i = k + left) := by
  induction left generalizing k with
  | zero => exact ⟨k, rfl, fun j hkj hjk => absurd hjk (not_lt.2 hkj), .inr rfl⟩
  | succ left ih =>
    rw [loop_succ hx]
    split
    · rename_i hsmall
      exact ⟨k, rfl, fun j hkj hjk => absurd hjk (not_lt.2 hkj), .inl hsmall⟩
    · rename_i hlarge
      obtain ⟨i, heq, hbefore, hstop⟩ := ih (k + 1)
      refine ⟨i, heq, fun j hkj hji => ?_, hstop.imp_right fun h => by omega⟩
      rcases hkj.eq_or_lt with rfl | hlt
      · exact not_lt.1 hlarge
      · exact hbefore j hlt hji

end TaylorState

section Taylor
open ExpState
variable {x : ℤ}

theorem le_arg_iff {r : ℝ} : r ≤ arg x ↔ r * PRECISION ≤ x := le_div_iff₀ (Int.cast_pos.2 PRECISION_pos)

theorem arg_le_iff {r : ℝ} : arg x ≤ r ↔ x ≤ r * PRECISION := div_le_iff₀ (Int.cast_pos.2 PRECISION_pos)

theorem arg_le_one (hle : x ≤ PRECISION) : arg x ≤ 1 := by
  rw [arg_le_iff, one_mul]
  exact Int.cast_le.2 hle

theorem abs_EPS : |EPS| = 10 ^ 10 := by norm_num [EPS]

/-- 25! is above 10²⁴. -/
theorem term_lt_EPS (hx : 0 ≤ x) (hle : x ≤ PRECISION) : term x 24 < |EPS| := by
  have hpow : arg x ^ 25 ≤ 1 := pow_le_one₀ (arg_nonneg hx) (arg_le_one hle)
  have hfull : fullTerm x 24 < 10 ^ 10 := by
    rw [fullTerm, PRECISION_cast, ← mul_div_assoc, div_lt_iff₀ (by positivity)]
    norm_num [Nat.factorial]
    linarith
  have hterm : (term x 24 : ℝ) < 10 ^ 10 := (term_le_fullTerm hx 24).trans_lt hfull
  rw [abs_EPS]
  exact_mod_cast hterm

theorem exp_le_sum_term (hx : 0 ≤ x) (hle : x ≤ PRECISION) {i : ℕ} (hi : i ≤ 24) (hsmall : term x i < |EPS|) :
    PRECISION * Real.exp (arg x) ≤ PRECISION + ∑ j ∈ range i, (term x j : ℝ) + 3 * 10 ^ 10 := by
  have hpos : (0 : ℝ) < PRECISION := Int.cast_pos.2 PRECISION_pos
  have hexp : Real.exp (arg x) ≤ 2.7182818286 :=
    (Real.exp_le_exp.2 (arg_le_one hle)).trans Real.exp_one_lt_d9.le
  have hterm : (term x i : ℝ) ≤ 10 ^ 10 := by
    rw [abs_EPS] at hsmall
    exact_mod_cast hsmall.le
  have hrounded : ∑ j ∈ range i, fullTerm x j ≤ ∑ j ∈ range i, (term x j : ℝ) + 24 * 2.7182818286 := by
    calc ∑ j ∈ range i, fullTerm x j ≤ ∑ j ∈ range i, ((term x j : ℝ) + 2.7182818286) :=
          sum_le_sum fun j _ => (fullTerm_le hx j).trans (by gcongr)
      _ = ∑ j ∈ range i, (term x j : ℝ) + i * 2.7182818286 := by
          rw [sum_add_distrib, sum_const, card_range, nsmul_eq_mul]
      _ ≤ ∑ j ∈ range i, (term x j : ℝ) + 24 * 2.7182818286 := by
          gcongr
          exact_mod_cast hi
  have hrest : fullTerm x i * Real.exp (arg x) ≤ (10 ^ 10 + 2.7182818286) * 2.7182818286 := by
    have hfull : fullTerm x i ≤ 10 ^ 10 + 2.7182818286 := (fullTerm_le hx i).trans (by linarith)
    have hpositive := Real.exp_pos (arg x)
    gcongr
  calc PRECISION * Real.exp (arg x)
      ≤ PRECISION * (expSum (arg x) (i + 1) + arg x ^ (i + 1) / (i + 1).factorial * Real.exp (arg x)) := by
        gcongr
        exact exp_le_expSum (arg_nonneg hx) (i + 1)
    _ = PRECISION + ∑ j ∈ range i, fullTerm x j + fullTerm x i * Real.exp (arg x) := by
        rw [sum_fullTerm, fullTerm]
        ring
    _ ≤ PRECISION + ∑ j ∈ range i, (term x j : ℝ) + 3 * 10 ^ 10 := by linarith

/-- The sum for an argument of at most one: what it lacks is below three units of the 24th decimal. -/
theorem mpExpTaylor_spec (hx : 0 ≤ x) (hle : x ≤ PRECISION) :
    (mpExpTaylor 1000 x EPS).2 ≤ 24 ∧ ONE ≤ (mpExpTaylor 1000 x EPS).1 ∧
      arg (mpExpTaylor 1000 x EPS).1 ≤ Real.exp (arg x) ∧
      Real.exp (arg x) - 3 * (10 ^ 24)⁻¹ ≤ arg (mpExpTaylor 1000 x EPS).1 := by
  have hpos : (0 : ℝ) < PRECISION := Int.cast_pos.2 PRECISION_pos
  obtain ⟨i, heq, hbefore, hstop⟩ := TaylorState.loop_eq EPS hx 999 0
  have hi : i ≤ 24 := by
    by_contra! hlt
    exact absurd (term_lt_EPS hx hle) (not_lt.2 (hbefore 24 (Nat.zero_le _) hlt))
  have hsmall : term x i < |EPS| := hstop.resolve_right (by omega)
  have hresult : mpExpTaylor 1000 x EPS = (PRECISION + ∑ j ∈ range i, term x j, i) := by
    rw [mpExpTaylor, TaylorState.start_eq x, heq]
    rfl
  have harg : arg (PRECISION + ∑ j ∈ range i, term x j) = (PRECISION + ∑ j ∈ range i, (term x j : ℝ)) / PRECISION := by
    rw [arg]
    push_cast
    rfl
  rw [hresult]
  refine ⟨hi, ?_, ?_, ?_⟩
  · rw [ONE_eq]
    exact le_add_of_nonneg_right (sum_nonneg fun j _ => term_nonneg hx j)
  · rw [harg, div_le_iff₀ hpos, mul_comm]
    calc (PRECISION : ℝ) + ∑ j ∈ range i, (term x j : ℝ) ≤ PRECISION + ∑ j ∈ range i, fullTerm x j := by
          gcongr with j
          exact term_le_fullTerm hx j
      _ = PRECISION * expSum (arg x) (i + 1) := sum_fullTerm x i
      _ ≤ PRECISION * Real.exp (arg x) := by
        gcongr
        exact expSum_le_exp (arg_nonneg hx) _
  · have hlacks := exp_le_sum_term hx hle hi hsmall
    have hunit : (3 * (10 ^ 24)⁻¹ : ℝ) * PRECISION = 3 * 10 ^ 10 := by
      rw [PRECISION_cast]
      norm_num
    rw [harg, le_div_iff₀ hpos, sub_mul, hunit, mul_comm]
    linarith

end Taylor

/-! ### The power -/

section Power
open ExpState
variable {x y z : ℤ} {n : ℕ}

/-- What is left of a number of at least one when a unit of the last place is taken away. -/
noncomputable def unitLost : ℝ := 1 - 1 / PRECISION

theorem unitLost_eq : unitLost = 1 - (10 ^ 34)⁻¹ := by rw [unitLost, PRECISION_cast, one_div]

theorem unitLost_nonneg : 0 ≤ unitLost := by norm_num [unitLost_eq]

theorem unitLost_le_one : unitLost ≤ 1 := by norm_num [unitLost_eq]

theorem one_le_arg (hx : ONE ≤ x) : 1 ≤ arg x := by
  rw [ONE_eq] at hx
  rw [le_arg_iff, one_mul]
  exact Int.cast_le.2 hx

theorem scale_mul_bounds (hy : ONE ≤ y) (hz : ONE ≤ z) :
    arg y * arg z * unitLost ≤ arg (scale (y * z)) ∧ arg (scale (y * z)) ≤ arg y * arg z := by
  have hprod : 1 ≤ arg y * arg z := one_le_mul_of_one_le_of_one_le (one_le_arg hy) (one_le_arg hz)
  have hnonneg : 0 ≤ y * z := by
    have hone : 0 ≤ ONE := by decide +kernel
    exact mul_nonneg (hone.trans hy) (hone.trans hz)
  obtain ⟨hlow, hhigh⟩ := ediv_bounds (y * z) PRECISION_pos
  have hfull : ((y * z : ℤ) : ℝ) / PRECISION = arg y * arg z * PRECISION := by
    simp only [arg]
    push_cast
    field_simp
  rw [hfull] at hlow hhigh
  rw [scale_eq hnonneg]
  constructor
  · rw [le_arg_iff]
    refine le_trans ?_ hlow
    have hunit : unitLost * PRECISION = PRECISION - 1 := by
      rw [unitLost_eq, PRECISION_cast]
      norm_num
    rw [mul_assoc, hunit, mul_sub, mul_one]
    linarith
  · rw [arg_le_iff]
    exact hhigh

/-- Each of the products loses a unit of the last place, and there are fewer than two for each factor. -/
theorem ipow_bounds (hx : ONE ≤ x) (n : ℕ) :
    arg x ^ n * unitLost ^ (2 * n - 1) ≤ arg (ipow_ x n) ∧ arg (ipow_ x n) ≤ arg x ^ n := by
  have harg : 0 ≤ arg x := zero_le_one.trans (one_le_arg hx)
  have hunit := unitLost_nonneg
  have hless := unitLost_le_one
  fun_induction ipow_ x n with
  | case1 =>
    have hone : arg ONE = 1 := by norm_num [arg, ONE, PRECISION]
    simp [hone]
  | case2 n hn heven res ih =>
    have hres : ONE ≤ res := ONE_le_ipow_ hx _
    have hpositive : 0 ≤ arg res := zero_le_one.trans (one_le_arg hres)
    obtain ⟨hlow, hhigh⟩ := scale_mul_bounds hres hres
    have hn2 : n = n / 2 + n / 2 := by omega
    constructor
    · calc arg x ^ n * unitLost ^ (2 * n - 1)
          = arg x ^ (n / 2) * unitLost ^ (2 * (n / 2) - 1) * (arg x ^ (n / 2) * unitLost ^ (2 * (n / 2) - 1)) *
            unitLost := by
            have hexponent : 2 * n - 1 = 2 * (n / 2) - 1 + (2 * (n / 2) - 1) + 1 := by omega
            rw [hexponent, pow_succ, pow_add]
            nth_rewrite 1 [hn2]
            rw [pow_add]
            ring
        _ ≤ arg res * arg res * unitLost := by gcongr <;> exact ih.1
        _ ≤ arg (scale (res * res)) := hlow
    · calc arg (scale (res * res)) ≤ arg res * arg res := hhigh
        _ ≤ arg x ^ (n / 2) * arg x ^ (n / 2) := by gcongr <;> exact ih.2
        _ = arg x ^ n := by rw [← pow_add, ← hn2]
  | case3 n hn hodd res ih =>
    have hres : ONE ≤ res := ONE_le_ipow_ hx _
    obtain ⟨hlow, hhigh⟩ := scale_mul_bounds hres hx
    have hn1 : n = n - 1 + 1 := by omega
    constructor
    · calc arg x ^ n * unitLost ^ (2 * n - 1)
          ≤ arg x ^ (n - 1) * arg x * (unitLost ^ (2 * (n - 1) - 1) * unitLost) := by
            rw [← pow_succ, ← pow_succ, ← hn1]
            gcongr ?_ * ?_
            exact pow_le_pow_of_le_one hunit hless (by omega)
        _ = arg x ^ (n - 1) * unitLost ^ (2 * (n - 1) - 1) * arg x * unitLost := by ring
        _ ≤ arg res * arg x * unitLost := by
            gcongr
            exact ih.1
        _ ≤ arg (scale (res * x)) := hlow
    · calc arg (scale (res * x)) ≤ arg res * arg x := hhigh
        _ ≤ arg x ^ (n - 1) * arg x := by
            gcongr
            exact ih.2
        _ = arg x ^ n := by rw [← pow_succ, ← hn1]

end Power

/-! ### The exponential of a positive argument -/

section Positive
open ExpState
variable {x : ℤ}

theorem divRoundCeil_eq (hx : 0 < x) : divRoundCeil x PRECISION = ⌈arg x⌉ := by
  have hpos := PRECISION_pos
  have hreal : (0 : ℝ) < PRECISION := Int.cast_pos.2 hpos
  have hdecomp := Int.mul_ediv_add_emod x PRECISION
  have hquotient : 0 ≤ x / PRECISION := Int.ediv_nonneg hx.le hpos.le
  have hmod := Int.emod_nonneg x hpos.ne'
  have hlt := Int.emod_lt_of_pos x hpos
  have hceil : ∀ q : ℤ, (q - 1) * PRECISION < x → x ≤ q * PRECISION → q = ⌈arg x⌉ := fun q hlow hhigh => by
    symm
    rw [Int.ceil_eq_iff, arg_le_iff, arg, lt_div_iff₀ hreal]
    constructor
    · exact_mod_cast hlow
    · exact_mod_cast hhigh
  simp only [divRoundCeil, Int.tdiv_eq_ediv_of_nonneg hx.le, Int.tmod_eq_emod_of_nonneg hx.le, negative,
    decide_eq_true_eq, not_lt.2 hquotient, not_false_eq_true, true_and]
  split
  · rename_i hne
    refine hceil _ ?_ ?_ <;> nlinarith [lt_of_le_of_ne hmod (Ne.symm hne)]
  · rename_i hzero
    push Not at hzero
    refine hceil _ ?_ ?_ <;> nlinarith

theorem one_le_ceil (hx : 0 < x) : 1 ≤ ⌈arg x⌉ := by
  have hpos : 0 < arg x := div_pos (Int.cast_pos.2 hx) (Int.cast_pos.2 PRECISION_pos)
  exact Int.one_le_ceil_iff.2 hpos

/-- The quotient is at most one, and its multiple falls short of the argument by little. -/
theorem quotient_bounds (hx : 0 < x) {n : ℕ} (hn : (n : ℤ) = ⌈arg x⌉) :
    0 ≤ x.tdiv n ∧ x.tdiv n ≤ PRECISION ∧ n * arg (x.tdiv n) ≤ arg x ∧ arg x / n - (10 ^ 34)⁻¹ ≤ arg (x.tdiv n) := by
  have hpos : (0 : ℝ) < PRECISION := Int.cast_pos.2 PRECISION_pos
  have hone := one_le_ceil hx
  have hnpos : (0 : ℤ) < n := by omega
  have hnreal : (0 : ℝ) < n := by exact_mod_cast hnpos
  obtain ⟨hlow, hhigh⟩ := ediv_bounds x hnpos
  rw [Int.cast_natCast] at hlow hhigh
  rw [Int.tdiv_eq_ediv_of_nonneg hx.le]
  refine ⟨Int.ediv_nonneg hx.le hnpos.le, ?_, ?_, ?_⟩
  · have hle : (x : ℝ) ≤ PRECISION * n := by
      have hceil := Int.le_ceil (arg x)
      rw [← hn, arg, div_le_iff₀ hpos, Int.cast_natCast, mul_comm] at hceil
      exact hceil
    refine Int.ediv_le_of_le_mul hnpos ?_
    exact_mod_cast hle
  · rw [arg, arg, ← mul_div_assoc]
    gcongr
    rwa [le_div_iff₀ hnreal, mul_comm] at hhigh
  · have hunit : ((10 : ℝ) ^ 34)⁻¹ = 1 / PRECISION := by rw [PRECISION_cast, one_div]
    rw [hunit, arg, arg, div_right_comm, ← sub_div]
    gcongr

/-- The share of an exponential that is certainly computed: four times `EPS` are lost for each unit. -/
noncomputable def kept (n : ℤ) : ℝ := 1 - (4 * EPS * n : ℤ) / PRECISION

theorem kept_eq (n : ℤ) : kept n = 1 - 4 * (10 ^ 24)⁻¹ * n := by
  rw [kept, PRECISION_cast, EPS]
  push_cast
  ring

/-- What a factor keeps: the sum, the quotient, and two products. -/
theorem kept_le_pow (n : ℕ) :
    kept n ≤ ((1 - 3 * (10 ^ 24)⁻¹) * unitLost) ^ n * unitLost ^ (2 * n - 1) := by
  have hunit := unitLost_nonneg
  calc kept n = 1 + n * (-(4 * (10 ^ 24)⁻¹)) := by
        rw [kept_eq]
        push_cast
        ring
    _ ≤ (1 + -(4 * (10 ^ 24)⁻¹)) ^ n := one_add_mul_le_pow (by norm_num) n
    _ ≤ ((1 - 3 * (10 ^ 24)⁻¹) * unitLost * unitLost ^ 2) ^ n := by
        have hfactor : 1 + -(4 * (10 ^ 24)⁻¹) ≤ (1 - 3 * (10 ^ 24)⁻¹) * unitLost * unitLost ^ 2 := by norm_num [unitLost_eq]
        have hnonneg : (0 : ℝ) ≤ 1 + -(4 * (10 ^ 24)⁻¹) := by norm_num
        gcongr
    _ = ((1 - 3 * (10 ^ 24)⁻¹) * unitLost) ^ n * unitLost ^ (2 * n) := by rw [mul_pow, ← pow_mul]
    _ ≤ ((1 - 3 * (10 ^ 24)⁻¹) * unitLost) ^ n * unitLost ^ (2 * n - 1) := by
        have hnonneg : 0 ≤ (1 - 3 * (10 ^ 24)⁻¹) * unitLost := mul_nonneg (by norm_num) hunit
        have hexponent : 2 * n - 1 ≤ 2 * n := Nat.sub_le _ 1
        exact mul_le_mul_of_nonneg_left (pow_le_pow_of_le_one hunit unitLost_le_one hexponent) (pow_nonneg hnonneg n)

/-- `ref_exp` of a positive argument. -/
structure RefExpSound (x : ℤ) (result : ℤ × ℕ) : Prop where
  one_le : ONE ≤ result.1
  le_exp : arg result.1 ≤ Real.exp (arg x)
  exp_le : kept ⌈arg x⌉ * Real.exp (arg x) ≤ arg result.1
  passes : result.2 ≤ 24

theorem refExp_of_pos (hx : 0 < x) :
    ∃ result, RefExpSound x result ∧
      refExp x = if MachineInt.Fits Int64 ⌈arg x⌉ then .ok result else .panic := by
  obtain ⟨n, hn⟩ := Int.eq_ofNat_of_zero_le (zero_le_one.trans (one_le_ceil hx))
  rw [refExp, if_neg hx.ne', if_neg (not_lt.2 hx.le), divRoundCeil_eq hx, hn]
  obtain ⟨hnonneg, hle, hmultiple, hquotient⟩ := quotient_bounds hx hn.symm
  obtain ⟨hpasses, hone, hsum, hlacks⟩ := mpExpTaylor_spec hnonneg hle
  dsimp only
  generalize mpExpTaylor 1000 (x.tdiv n) EPS = sum at *
  obtain ⟨rop, iterations⟩ := sum
  dsimp only at hpasses hone hsum hlacks
  refine ⟨(ipow rop n, iterations), ?_, rfl⟩
  have hpower : ipow rop n = ipow_ rop n := by rw [ipow, if_neg (by omega), Int.toNat_natCast]
  have hroparg : 0 ≤ arg rop := zero_le_one.trans (one_le_arg hone)
  have hnpos : (0 : ℝ) < n := by
    have hceil := one_le_ceil hx
    exact_mod_cast (by omega : 0 < n)
  obtain ⟨hlow, hhigh⟩ := ipow_bounds hone n
  constructor
  · rw [hpower]
    exact ONE_le_ipow_ hone n
  · rw [hpower]
    calc arg (ipow_ rop n) ≤ arg rop ^ n := hhigh
      _ ≤ Real.exp (arg (x.tdiv n)) ^ n := by gcongr
      _ = Real.exp (n * arg (x.tdiv n)) := (Real.exp_nat_mul _ n).symm
      _ ≤ Real.exp (arg x) := Real.exp_le_exp.2 hmultiple
  · have hfactor : (1 - 3 * (10 ^ 24)⁻¹) * unitLost * Real.exp (arg x / n) ≤ arg rop := by
      have hexp := Real.one_le_exp (arg_nonneg hnonneg)
      have hsmall : unitLost ≤ Real.exp (-(10 ^ 34)⁻¹) := by
        have hle := Real.add_one_le_exp (-((10 : ℝ) ^ 34)⁻¹)
        rw [unitLost_eq]
        linarith
      calc (1 - 3 * (10 ^ 24)⁻¹) * unitLost * Real.exp (arg x / n)
          ≤ (1 - 3 * (10 ^ 24)⁻¹) * Real.exp (-(10 ^ 34)⁻¹) * Real.exp (arg x / n) := by
            gcongr
        _ = (1 - 3 * (10 ^ 24)⁻¹) * Real.exp (arg x / n - (10 ^ 34)⁻¹) := by
            rw [mul_assoc, ← Real.exp_add]
            ring_nf
        _ ≤ (1 - 3 * (10 ^ 24)⁻¹) * Real.exp (arg (x.tdiv n)) := by
            gcongr
        _ ≤ arg rop := by linarith
    have hfactornonneg : 0 ≤ (1 - 3 * (10 ^ 24)⁻¹) * unitLost * Real.exp (arg x / n) :=
      mul_nonneg (mul_nonneg (by norm_num) unitLost_nonneg) (Real.exp_nonneg _)
    rw [hpower]
    calc kept ⌈arg x⌉ * Real.exp (arg x)
        ≤ ((1 - 3 * (10 ^ 24)⁻¹) * unitLost) ^ n * unitLost ^ (2 * n - 1) * Real.exp (arg x) := by
          rw [hn]
          gcongr
          exact kept_le_pow n
      _ = ((1 - 3 * (10 ^ 24)⁻¹) * unitLost * Real.exp (arg x / n)) ^ n * unitLost ^ (2 * n - 1) := by
          rw [mul_pow _ (Real.exp _), ← Real.exp_nat_mul, mul_div_cancel₀ _ hnpos.ne']
          ring
      _ ≤ arg rop ^ n * unitLost ^ (2 * n - 1) := by
          have hunit := unitLost_nonneg
          gcongr
      _ ≤ arg (ipow_ rop n) := hlow
  · exact hpasses

end Positive

/-! ### The exponential of a number -/

/-- How many units the argument reaches into. -/
noncomputable def Decimal.units (x : Decimal) : ℤ := ⌈|x.value|⌉

/-- The result is never above the exponential of a number from zero on, and below it by at most four units of the 24th
decimal for each unit of the argument; for a negative number the bounds are those of the inverse. -/
structure ExpAccurate (x y : Decimal) : Prop where
  precision : y.precision = 34
  le_exp : 0 ≤ x.data → y.value ≤ Real.exp x.value
  exp_le : 0 ≤ x.data → kept x.units * Real.exp x.value ≤ y.value
  exp_lt : x.data < 0 → Real.exp x.value - (10 ^ 34)⁻¹ < y.value
  le_exp_neg : x.data < 0 → kept x.units * y.value ≤ Real.exp x.value

section Exp
open ExpState
variable {x y : Decimal}

theorem value_eq_arg (h : x.precision = 34) : x.value = arg x.data := by
  rw [Decimal.value, x.multiplier_eq, h]
  rfl

theorem arg_neg (x : ℤ) : arg (-x) = -arg x := by
  rw [arg, arg]
  push_cast
  exact neg_div _ _

theorem units_of_neg (h : x.precision = 34) (hneg : x.data < 0) : x.units = ⌈arg (-x.data)⌉ := by
  have hle : arg x.data ≤ 0 := div_nonpos_of_nonpos_of_nonneg (Int.cast_nonpos.2 hneg.le)
    (Int.cast_nonneg PRECISION_pos.le)
  rw [Decimal.units, value_eq_arg h, abs_of_nonpos hle, arg_neg]

theorem units_of_nonneg (h : x.precision = 34) (hx : 0 ≤ x.data) : x.units = ⌈arg x.data⌉ := by
  rw [Decimal.units, value_eq_arg h, abs_of_nonneg (arg_nonneg hx)]

theorem inverse_bounds {x : ℤ} {result : ℤ × ℕ} (h : RefExpSound (-x) result) :
    Real.exp (arg x) - (10 ^ 34)⁻¹ < arg (div ONE result.1) ∧
      kept ⌈arg (-x)⌉ * arg (div ONE result.1) ≤ Real.exp (arg x) := by
  have hpos := PRECISION_pos
  have hreal : (0 : ℝ) < PRECISION := Int.cast_pos.2 hpos
  have hresult : 0 < result.1 := lt_of_lt_of_le (by decide +kernel) h.one_le
  have hresultreal : (0 : ℝ) < result.1 := Int.cast_pos.2 hresult
  have harg : 0 < arg result.1 := div_pos hresultreal hreal
  have hquotient : ((PRECISION * PRECISION : ℤ) : ℝ) / result.1 = (arg result.1)⁻¹ * PRECISION := by
    rw [arg]
    push_cast
    field_simp
  have hexp : Real.exp (arg x) = (Real.exp (arg (-x)))⁻¹ := by rw [arg_neg, Real.exp_neg, inv_inv]
  obtain ⟨-, hhigh⟩ := ediv_bounds (PRECISION * PRECISION) hresult
  have hlow : (PRECISION * PRECISION : ℝ) / result.1 < (PRECISION * PRECISION / result.1 : ℤ) + 1 := by
    rw [div_lt_iff₀ hresultreal]
    exact_mod_cast Int.lt_ediv_add_one_mul_self (PRECISION * PRECISION) hresult
  rw [div_ONE hresult]
  constructor
  · have hunit : ((10 : ℝ) ^ 34)⁻¹ = 1 / PRECISION := by rw [PRECISION_cast, one_div]
    have hinv : Real.exp (arg x) ≤ (arg result.1)⁻¹ := by
      rw [hexp]
      exact inv_anti₀ harg h.le_exp
    have hsum : arg (PRECISION * PRECISION / result.1) + 1 / PRECISION =
        ((PRECISION * PRECISION / result.1 : ℤ) + 1 : ℝ) / PRECISION := (add_div _ _ _).symm
    rw [hunit, sub_lt_iff_lt_add, hsum, lt_div_iff₀ hreal]
    calc Real.exp (arg x) * PRECISION ≤ (arg result.1)⁻¹ * PRECISION := by gcongr
      _ = (PRECISION * PRECISION : ℝ) / result.1 := by
        rw [← hquotient]
        push_cast
        rfl
      _ < (PRECISION * PRECISION / result.1 : ℤ) + 1 := hlow
  · have hle : arg (PRECISION * PRECISION / result.1) ≤ (arg result.1)⁻¹ := by
      rw [arg_le_iff, ← hquotient]
      exact hhigh
    have hnonneg : 0 ≤ arg (PRECISION * PRECISION / result.1) :=
      arg_nonneg (Int.ediv_nonneg (mul_pos hpos hpos).le hresult.le)
    rcases le_or_gt (kept ⌈arg (-x)⌉) 0 with hneg | hkept
    · exact (mul_nonpos_of_nonpos_of_nonneg hneg hnonneg).trans (Real.exp_nonneg _)
    · calc kept ⌈arg (-x)⌉ * arg (PRECISION * PRECISION / result.1) ≤ kept ⌈arg (-x)⌉ * (arg result.1)⁻¹ := by gcongr
        _ ≤ Real.exp (arg x) := by
          rw [hexp, ← div_eq_mul_inv, div_le_iff₀ harg, ← div_eq_inv_mul, le_div_iff₀ (Real.exp_pos _)]
          exact h.exp_le

/-- What `exp` makes of what `ref_exp` returns. -/
def ofResult (x : Decimal) (data : ℤ) : Decimal := { Decimal.new x.precision with data := data }

theorem value_ofResult (h : x.precision = 34) (data : ℤ) : (ofResult x data).value = arg data := value_eq_arg h

theorem accurate_of_pos (h : x.precision = 34) (hpos : 0 < x.data) {result : ℤ × ℕ}
    (hsound : RefExpSound x.data result) : ExpAccurate x (ofResult x result.1) := by
  refine ⟨h, fun _ => ?_, fun _ => ?_, fun hlt => absurd hlt (by omega), fun hlt => absurd hlt (by omega)⟩
  · rw [value_ofResult h, value_eq_arg h]
    exact hsound.le_exp
  · rw [value_ofResult h, value_eq_arg h, units_of_nonneg h hpos.le]
    exact hsound.exp_le

theorem accurate_of_neg (h : x.precision = 34) (hneg : x.data < 0) {result : ℤ × ℕ}
    (hsound : RefExpSound (-x.data) result) : ExpAccurate x (ofResult x (div ONE result.1)) := by
  obtain ⟨hlow, hhigh⟩ := inverse_bounds hsound
  refine ⟨h, fun hge => absurd hneg (not_lt.2 hge), fun hge => absurd hneg (not_lt.2 hge), fun _ => ?_, fun _ => ?_⟩
  · rw [value_ofResult h, value_eq_arg h]
    exact hlow
  · rw [value_ofResult h, value_eq_arg h, units_of_neg h hneg]
    exact hhigh

theorem accurate_of_zero (h : x.precision = 34) (hzero : x.data = 0) : ExpAccurate x (ofResult x ONE) := by
  have hunits : x.units = 0 := by simp [Decimal.units, value_eq_arg h, hzero, arg]
  have hexp : Real.exp x.value = 1 := by simp [value_eq_arg h, hzero, arg]
  have hone : arg ONE = 1 := by norm_num [arg, ONE, PRECISION]
  refine ⟨h, fun _ => ?_, fun _ => ?_, fun hlt => absurd hlt (by omega), fun hlt => absurd hlt (by omega)⟩
  · rw [value_ofResult h, hone, hexp]
  · rw [value_ofResult h, hone, hexp, hunits, kept_eq]
    norm_num

/-- `ref_exp` fails only where the number of units does not fit. -/
theorem refExp_eq (h : x.precision = 34) :
    ∃ result : ℤ × ℕ, refExp x.data = (if MachineInt.Fits Int64 x.units then .ok result else .panic) ∧
      ExpAccurate x (ofResult x result.1) ∧ result.2 ≤ 24 := by
  rcases lt_trichotomy x.data 0 with hneg | hzero | hpos
  · obtain ⟨result, hsound, heq⟩ := refExp_of_pos (neg_pos.2 hneg)
    refine ⟨(div ONE result.1, result.2), ?_, accurate_of_neg h hneg hsound, hsound.passes⟩
    rw [refExp, if_neg hneg.ne, if_pos hneg, heq, units_of_neg h hneg]
    split <;> rfl
  · have hfits : MachineInt.Fits Int64 x.units := by
      have hunits : x.units = 0 := by simp [Decimal.units, value_eq_arg h, hzero, arg]
      rw [hunits]
      decide
    refine ⟨(ONE, 0), ?_, accurate_of_zero h hzero, Nat.zero_le _⟩
    rw [refExp, if_pos hzero, if_pos hfits]
  · obtain ⟨result, hsound, heq⟩ := refExp_of_pos hpos
    refine ⟨result, ?_, accurate_of_pos h hpos hsound, hsound.passes⟩
    rw [heq, units_of_nonneg h hpos.le]

theorem exp_accurate (x : Decimal) (h : x.precision = 34) :
    (x.exp = .panic ↔ ¬ MachineInt.Fits Int64 x.units) ∧ (∀ y, x.exp = .ok y → ExpAccurate x y) ∧
      ∀ result, refExp x.data = .ok result → result.2 ≤ 24 := by
  obtain ⟨result, heq, haccurate, hpasses⟩ := refExp_eq h
  rw [Decimal.exp, heq]
  split
  · rename_i hfits
    refine ⟨by simp [hfits], ?_, ?_⟩
    · rintro y hy
      obtain rfl := Outcome.ok.inj hy
      exact haccurate
    · rintro r hr
      obtain rfl := Outcome.ok.inj hr
      exact hpasses
  · rename_i hfits
    refine ⟨by simp [hfits], ?_, ?_⟩
    · intro y hy
      cases hy
    · intro r hr
      cases hr

/-- One: the constant `E` agrees with the base of the natural logarithm in 23 decimals. -/
theorem exp_accurate_one : ExpAccurate ⟨34, _, ONE, rfl⟩ ⟨34, _, E, rfl⟩ := by
  have href : refExp ONE = .ok (27182818284590452353602874043083282, 24) := by decide +kernel
  refine (exp_accurate ⟨34, _, ONE, rfl⟩ rfl).2.1 _ ?_
  simp only [Decimal.exp, href, E_eq]
  rfl

end Exp

end Pallas.Math
