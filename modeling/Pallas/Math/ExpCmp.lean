import Pallas.Lib.ExpSeries
import Pallas.Math.Decimal

/-!
# Comparing with an exponential

After `k` passes the sum of `ref_exp_cmp` holds the first `k + 1` terms of the series, rounded down, and `error` is the
next one. The terms never exceed those of the series, so a number below the sum is below the exponential: LT is exact.
Every term falls short of its own by at most a partial sum of the series (`defect_le`), hence by at most the bound; what
the sum and the estimate of the rest lack together is at most `bound * (k + bound)` units of the last place.

Both verdicts are comparisons with numbers that do not depend on the number compared, which makes them monotone in it.
-/

namespace Pallas.Math
open Finset

theorem PRECISION_pos : 0 < PRECISION := by norm_num [PRECISION]

theorem divFloor_eq {n d : ℤ} (hn : 0 ≤ n) (hd : 0 < d) : divFloor n d = n / d := by
  have hsigns : negative n = negative d := by
    rw [negative, negative, decide_eq_decide]
    omega
  simp only [divFloor, hsigns, ne_eq, not_true_eq_false, and_false, if_false]
  exact Int.tdiv_eq_ediv_of_nonneg hn

theorem scale_eq {n : ℤ} (hn : 0 ≤ n) : scale n = n / PRECISION := by
  simp only [scale, not_lt.2 hn, false_and, if_false]
  exact Int.tdiv_eq_ediv_of_nonneg hn

namespace ExpState

/-- The terms from the second on, as they are rounded. -/
def term (x : ℤ) : ℕ → ℤ
  | 0 => x
  | k + 1 => term x k * x / PRECISION / (k + 2)

/-- The state after some passes. -/
def after (x : ℤ) (k : ℕ) : ExpState := ⟨PRECISION + ∑ i ∈ range k, term x i, k, (k + 1) * PRECISION, term x k⟩

section After
variable {x : ℤ}

theorem term_nonneg (hx : 0 ≤ x) (k : ℕ) : 0 ≤ term x k := by
  induction k with
  | zero => exact hx
  | succ k ih => exact Int.ediv_nonneg (Int.ediv_nonneg (mul_nonneg ih hx) PRECISION_pos.le) (by positivity)

theorem start_eq (x : ℤ) : start x = after x 0 := by simp [start, after, ONE, term]

theorem advance_after (hx : 0 ≤ x) (k : ℕ) : (after x k).advance x = after x (k + 1) := by
  have hpos := PRECISION_pos
  have hterm := term_nonneg hx k
  have hscaled : 0 ≤ term x k * x / PRECISION := Int.ediv_nonneg (mul_nonneg hterm hx) hpos.le
  have hdivisor : ((k : ℤ) + 1) * PRECISION + ONE = (k + 2) * PRECISION := by
    rw [ONE]
    ring
  have herror : div (scale (term x k * x)) (((k : ℤ) + 1) * PRECISION + ONE) = term x (k + 1) := by
    rw [hdivisor, scale_eq (mul_nonneg hterm hx), div, divFloor_eq (by positivity) (by positivity),
      Int.mul_ediv_mul_of_pos_left _ _ hpos]
    rfl
  simp only [advance, after, herror, sum_range_succ, Nat.cast_add, Nat.cast_one, mk.injEq, true_and, and_true]
  refine ⟨by ring, ?_⟩
  rw [ONE]
  ring

end After

/-! ### The terms against those of the series -/

section Terms
variable {x : ℤ}

/-- The argument as a real number. -/
noncomputable def arg (x : ℤ) : ℝ := x / PRECISION

/-- A term of the series in units of the last place. -/
noncomputable def fullTerm (x : ℤ) (k : ℕ) : ℝ := PRECISION * (arg x ^ (k + 1) / (k + 1).factorial)

theorem arg_nonneg (hx : 0 ≤ x) : 0 ≤ arg x :=
  div_nonneg (Int.cast_nonneg hx) (Int.cast_nonneg PRECISION_pos.le)

theorem fullTerm_zero (x : ℤ) : fullTerm x 0 = x := by
  have hpos : (PRECISION : ℝ) ≠ 0 := Int.cast_ne_zero.2 PRECISION_pos.ne'
  simp [fullTerm, arg, mul_div_cancel₀ _ hpos]

theorem fullTerm_succ (x : ℤ) (k : ℕ) : fullTerm x (k + 1) = fullTerm x k * arg x / (k + 2) := by
  simp only [fullTerm, Nat.factorial_succ (k + 1)]
  push_cast
  field_simp
  ring

theorem ediv_bounds (a : ℤ) {b : ℤ} (hb : 0 < b) : (a : ℝ) / b - 1 ≤ (a / b : ℤ) ∧ ((a / b : ℤ) : ℝ) ≤ a / b := by
  have hpos : (0 : ℝ) < b := Int.cast_pos.2 hb
  have hsum : ((b * (a / b) + a % b : ℤ) : ℝ) = a := by rw [Int.mul_ediv_add_emod]
  have hlow : (0 : ℝ) ≤ (a % b : ℤ) := Int.cast_nonneg (Int.emod_nonneg _ hb.ne')
  have hhigh : ((a % b : ℤ) : ℝ) ≤ b := Int.cast_le.2 (Int.emod_lt_of_pos _ hb).le
  push_cast at hsum
  constructor
  · rw [sub_le_iff_le_add, div_le_iff₀ hpos]
    linarith
  · rw [le_div_iff₀ hpos]
    linarith

theorem term_succ_bounds (x : ℤ) (k : ℕ) :
    term x k * arg x / (k + 2) - 1 ≤ term x (k + 1) ∧ (term x (k + 1) : ℝ) ≤ term x k * arg x / (k + 2) := by
  have hdiv : term x (k + 1) = term x k * x / (PRECISION * (k + 2)) := Int.ediv_ediv_of_nonneg PRECISION_pos.le
  have hpos : 0 < PRECISION * ((k : ℤ) + 2) := mul_pos PRECISION_pos (by positivity)
  have heq : ((term x k * x : ℤ) : ℝ) / (PRECISION * ((k : ℤ) + 2) : ℤ) = term x k * arg x / (k + 2) := by
    rw [arg]
    push_cast
    field_simp
  rw [hdiv, ← heq]
  exact ediv_bounds _ hpos

theorem term_le_fullTerm (hx : 0 ≤ x) (k : ℕ) : (term x k : ℝ) ≤ fullTerm x k := by
  have harg := arg_nonneg hx
  induction k with
  | zero => exact (fullTerm_zero x).ge
  | succ k ih =>
    rw [fullTerm_succ]
    refine (term_succ_bounds x k).2.trans ?_
    gcongr

theorem fullTerm_le (hx : 0 ≤ x) (k : ℕ) : fullTerm x k ≤ term x k + Real.exp (arg x) := by
  have harg := arg_nonneg hx
  have hdefect := @defect_le (arg x) harg (fullTerm x) (fun k => (term x k : ℝ)) (fullTerm_zero x).le (fullTerm_succ x)
    (fun k => (term_succ_bounds x k).1) k
  linarith [expSum_le_exp harg k]

theorem sum_fullTerm (x : ℤ) (k : ℕ) :
    PRECISION + ∑ i ∈ range k, fullTerm x i = PRECISION * expSum (arg x) (k + 1) := by
  rw [expSum, sum_range_succ', mul_add, mul_sum, add_comm]
  simp [fullTerm]

end Terms

/-! ### The verdicts -/

section Verdicts
variable {x bound compare compare' : ℤ} {s s' : ExpState}

theorem errorTerm_nonneg (s : ExpState) (bound : ℤ) : 0 ≤ s.errorTerm bound := abs_nonneg _

theorem verdict_GT : s.verdict bound compare = some .GT ↔ s.rop + s.errorTerm bound ≤ compare := by
  unfold verdict
  split
  · simp [*]
  · split <;> simp [*]

theorem verdict_LT : s.verdict bound compare = some .LT ↔ compare < s.rop - s.errorTerm bound := by
  have hnonneg := errorTerm_nonneg s bound
  unfold verdict
  split
  · simp only [Option.some.injEq, reduceCtorEq, false_iff]
    omega
  · split <;> simp [*]

theorem verdict_ne_UNKNOWN : s.verdict bound compare ≠ some .UNKNOWN := by
  unfold verdict
  split
  · simp
  · split <;> simp

/-- Below the sum, a number is below the exponential. -/
theorem lt_exp_of_verdict (hx : 0 ≤ x) (k : ℕ) (h : (after x k).verdict bound compare = some .LT) :
    (compare : ℝ) < PRECISION * Real.exp (arg x) := by
  have hpos : (0 : ℝ) < PRECISION := Int.cast_pos.2 PRECISION_pos
  have hlt : compare < (after x k).rop := by
    have hnonneg := errorTerm_nonneg (after x k) bound
    have hverdict := verdict_LT.1 h
    omega
  calc (compare : ℝ) < ((after x k).rop : ℤ) := Int.cast_lt.2 hlt
    _ = PRECISION + ∑ i ∈ range k, (term x i : ℝ) := by simp [after]
    _ ≤ PRECISION + ∑ i ∈ range k, fullTerm x i := by
      gcongr with i
      exact term_le_fullTerm hx i
    _ = PRECISION * expSum (arg x) (k + 1) := sum_fullTerm x k
    _ ≤ PRECISION * Real.exp (arg x) := by
      gcongr
      exact expSum_le_exp (arg_nonneg hx) _

/-- From the sum and the estimate of the rest on, it misses the exponential by little. -/
theorem exp_le_of_verdict (hx : 0 ≤ x) (hbound : Real.exp (arg x) ≤ bound) (k : ℕ)
    (h : (after x k).verdict bound compare = some .GT) :
    PRECISION * Real.exp (arg x) ≤ compare + bound * (k + bound) := by
  have hpos : (0 : ℝ) < PRECISION := Int.cast_pos.2 PRECISION_pos
  have hone : (1 : ℝ) ≤ bound := (Real.one_le_exp (arg_nonneg hx)).trans hbound
  have hterm : (0 : ℝ) ≤ term x k := Int.cast_nonneg (term_nonneg hx k)
  have hrest : ((after x k).errorTerm bound : ℝ) = term x k * bound := by
    rw [errorTerm]
    push_cast
    exact abs_of_nonneg (by simp only [after]; positivity)
  have hverdict : ((after x k).rop : ℝ) + term x k * bound ≤ compare := by
    rw [← hrest]
    exact_mod_cast verdict_GT.1 h
  have hsum : ∑ i ∈ range k, fullTerm x i ≤ ∑ i ∈ range k, (term x i : ℝ) + k * bound := by
    calc ∑ i ∈ range k, fullTerm x i ≤ ∑ i ∈ range k, ((term x i : ℝ) + bound) :=
          sum_le_sum fun i _ => (fullTerm_le hx i).trans (by gcongr)
      _ = ∑ i ∈ range k, (term x i : ℝ) + k * bound := by
          rw [sum_add_distrib, sum_const, card_range, nsmul_eq_mul]
  calc PRECISION * Real.exp (arg x)
      ≤ PRECISION * (expSum (arg x) (k + 1) + arg x ^ (k + 1) / (k + 1).factorial * Real.exp (arg x)) := by
        gcongr
        exact exp_le_expSum (arg_nonneg hx) (k + 1)
    _ = PRECISION + ∑ i ∈ range k, fullTerm x i + fullTerm x k * Real.exp (arg x) := by
        rw [sum_fullTerm, fullTerm]
        ring
    _ ≤ PRECISION + (∑ i ∈ range k, (term x i : ℝ) + k * bound) + (term x k + bound) * bound := by
        have hfull : fullTerm x k ≤ term x k + bound := (fullTerm_le hx k).trans (by gcongr)
        have hexp := Real.exp_pos (arg x)
        gcongr
    _ = ((after x k).rop + term x k * bound) + bound * (k + bound) := by
        simp only [after]
        push_cast
        ring
    _ ≤ compare + bound * (k + bound) := by gcongr

end Verdicts

end ExpState

/-! ### The loop -/

section Loop
open ExpState
variable {x bound compare compare' : ℤ} {s : ExpState} {left : ℕ}

theorem loop_verdict (hx : 0 ≤ x) (k : ℕ) :
    ∃ i ≤ k + left, (refExpCmpLoop x bound compare left (after x k)).1 = after x i ∧
    ((refExpCmpLoop x bound compare left (after x k)).2 = .UNKNOWN ∨
      (after x i).verdict bound compare = some (refExpCmpLoop x bound compare left (after x k)).2) := by
  induction left generalizing k with
  | zero => exact ⟨k, le_rfl, rfl, .inl rfl⟩
  | succ left ih =>
    rw [refExpCmpLoop, advance_after hx]
    cases h : (after x (k + 1)).verdict bound compare with
    | some estimate => exact ⟨k + 1, by omega, rfl, .inr h⟩
    | none =>
      obtain ⟨i, hi, hrest⟩ := ih (k + 1)
      exact ⟨i, by omega, hrest⟩

theorem loop_mono (hle : compare ≤ compare') :
    ((refExpCmpLoop x bound compare left s).2 = .GT → (refExpCmpLoop x bound compare' left s).2 = .GT) ∧
      ((refExpCmpLoop x bound compare' left s).2 = .LT → (refExpCmpLoop x bound compare left s).2 = .LT) := by
  induction left generalizing s with
  | zero => exact ⟨nofun, nofun⟩
  | succ left ih =>
    simp only [refExpCmpLoop]
    set t := s.advance x
    have hGT : t.verdict bound compare = some .GT → t.verdict bound compare' = some .GT := fun h =>
      verdict_GT.2 ((verdict_GT.1 h).trans hle)
    have hLT : t.verdict bound compare' = some .LT → t.verdict bound compare = some .LT := fun h =>
      verdict_LT.2 (hle.trans_lt (verdict_LT.1 h))
    rcases h' : t.verdict bound compare' with _ | _ | _ | _
    · rcases h : t.verdict bound compare with _ | _ | _ | _
      · exact ih
      · cases h'.symm.trans (hGT h)
      · exact ⟨nofun, fun _ => rfl⟩
      · exact absurd h verdict_ne_UNKNOWN
    · exact ⟨fun _ => rfl, nofun⟩
    · rw [hLT h']
      exact ⟨nofun, fun _ => rfl⟩
    · exact absurd h' verdict_ne_UNKNOWN

end Loop

/-! ### The comparison -/

/-- What a comparison says, for numbers of the default precision. -/
structure ExpCmpSound (x : Decimal) (maxN : ℕ) (bound : ℤ) (compare : Decimal) : Prop where
  below : (x.expCmp maxN bound compare).estimation = .LT → compare.value < Real.exp x.value
  above : (x.expCmp maxN bound compare).estimation = .GT →
    Real.exp x.value - 2 * bound * ((x.expCmp maxN bound compare).iterations + bound) * (10 ^ 34)⁻¹ ≤ compare.value
  passes : (x.expCmp maxN bound compare).iterations ≤ maxN
  upward : ∀ other : Decimal, compare.data ≤ other.data →
    (x.expCmp maxN bound compare).estimation = .GT → (x.expCmp maxN bound other).estimation = .GT
  downward : ∀ other : Decimal, other.data ≤ compare.data →
    (x.expCmp maxN bound compare).estimation = .LT → (x.expCmp maxN bound other).estimation = .LT

theorem expCmp_sound (x : Decimal) (hprecision : x.precision = 34) (hx : 0 ≤ x.data) (maxN : ℕ) (bound : ℤ)
    (hbound : Real.exp x.value ≤ bound) (compare : Decimal) (hcompare : compare.precision = 34) :
    ExpCmpSound x maxN bound compare := by
  have hpos : (0 : ℝ) < PRECISION := Int.cast_pos.2 PRECISION_pos
  have hvalue : x.value = ExpState.arg x.data := by
    rw [Decimal.value, x.multiplier_eq, hprecision]
    rfl
  have hcompareValue : compare.value = compare.data / PRECISION := by
    rw [Decimal.value, compare.multiplier_eq, hcompare]
    rfl
  have hunit : ((10 : ℝ) ^ 34)⁻¹ = 1 / PRECISION := by norm_num [PRECISION]
  have hone : (1 : ℝ) ≤ bound := by
    rw [hvalue] at hbound
    exact (Real.one_le_exp (ExpState.arg_nonneg hx)).trans hbound
  obtain ⟨i, hi, hstate, hverdict⟩ := @loop_verdict x.data bound compare.data maxN hx 0
  rw [← ExpState.start_eq] at hstate hverdict
  have hiterations : (x.expCmp maxN bound compare).iterations = i := congrArg ExpState.n hstate
  have hestimation : ∀ e ≠ .UNKNOWN, (x.expCmp maxN bound compare).estimation = e →
      (ExpState.after x.data i).verdict bound compare.data = some e := by
    rintro e hne rfl
    exact hverdict.resolve_left hne
  refine ⟨fun h => ?_, fun h => ?_, by omega, fun other hle => (loop_mono hle).1, fun other hle => (loop_mono hle).2⟩
  · have hlt := ExpState.lt_exp_of_verdict hx i (hestimation _ (by simp) h)
    rw [hcompareValue, hvalue, div_lt_iff₀ hpos, mul_comm]
    exact hlt
  · rw [hvalue] at hbound
    have hle := ExpState.exp_le_of_verdict hx hbound i (hestimation _ (by simp) h)
    rw [hcompareValue, hvalue, hiterations, hunit, sub_le_iff_le_add, mul_one_div, ← add_div,
      le_div_iff₀ hpos, mul_comm]
    have hslack : (0 : ℝ) ≤ bound * (i + bound) := by positivity
    linarith

/-- 2 is below `e`. -/
theorem expCmp_sound_two : ExpCmpSound ⟨34, _, 10 ^ 34, rfl⟩ 1000 3 ⟨34, _, 2 * 10 ^ 34, rfl⟩ := by
  refine expCmp_sound _ rfl (by norm_num) _ _ ?_ _ rfl
  have he := Real.exp_one_lt_d9
  norm_num [Decimal.value]
  linarith

end Pallas.Math
