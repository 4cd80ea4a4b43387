import Pallas.Math.Decimal

/-!
# Dropping the fraction of a fixed-point number

Each of `floor`, `ceil`, `trunc` and `round` takes the remainder of a division that rounds towards zero, and corrects it
by one whole (`parts`). `round` compares it with half a whole, which is zero where there are no decimals: there every
number counts as a tie.
-/

namespace Pallas.Math

/-- The nearest integer, the one farther from zero where two are as near. -/
structure RoundsAway (r : ℝ) (n : ℤ) : Prop where
  nearest : ∀ m : ℤ, |r - n| ≤ |r - m|
  away : ∀ m : ℤ, |r - m| = |r - n| → |m| ≤ |n|

theorem RoundsAway.of_le {r : ℝ} {n : ℤ} (h : |r - n| ≤ 1 / 2) (htie : |r - n| = 1 / 2 → |r| ≤ |n|) : RoundsAway r n := by
  have hfar : ∀ m : ℤ, m ≠ n → 1 ≤ |r - m| + |r - n| := by
    intro m hm
    have hone : (1 : ℝ) ≤ |(n : ℝ) - m| := by exact_mod_cast Int.one_le_abs (sub_ne_zero.2 hm.symm)
    have htri := abs_sub_le (n : ℝ) r m
    rw [abs_sub_comm (n : ℝ) r] at htri
    linarith
  refine ⟨fun m => ?_, fun m hm => ?_⟩
  · by_cases hmn : m = n
    · rw [hmn]
    · have := hfar m hmn
      linarith
  · by_cases hmn : m = n
    · rw [hmn]
    · have hsum := hfar m hmn
      have hhalf : |r - n| = 1 / 2 := by linarith
      have hr := htie hhalf
      rw [hhalf] at hm
      -- the other nearest integer is on the far side of `r`
      rcases abs_eq (by norm_num : (0 : ℝ) ≤ 1 / 2) |>.1 hhalf with hn | hn <;>
        rcases abs_eq (by norm_num : (0 : ℝ) ≤ 1 / 2) |>.1 hm with hm | hm
      · exact absurd (by exact_mod_cast (by linarith : (m : ℝ) = n)) hmn
      · obtain rfl : m = n + 1 := by exact_mod_cast (by linarith : (m : ℝ) = n + 1)
        have hneg : n < 0 := by
          by_contra hnn
          have hnn' : (0 : ℝ) ≤ n := by exact_mod_cast not_lt.1 hnn
          rw [Int.cast_abs, abs_of_nonneg hnn', abs_of_nonneg (by linarith)] at hr
          linarith
        rw [abs_of_neg hneg, abs_of_nonpos (by omega)]
        omega
      · obtain rfl : m = n - 1 := by exact_mod_cast (by linarith : (m : ℝ) = n - 1)
        have hpos : 0 < n := by
          by_contra hnn
          have hnn' : (n : ℝ) ≤ 0 := by exact_mod_cast not_lt.1 hnn
          rw [Int.cast_abs, abs_of_nonpos hnn', abs_of_nonpos (by linarith)] at hr
          linarith
        rw [abs_of_pos hpos, abs_of_nonneg (by omega)]
        omega
      · exact absurd (by exact_mod_cast (by linarith : (m : ℝ) = n)) hmn

namespace Decimal

/-- An integer at a precision. -/
def ofInt (precision : ℕ) (n : ℤ) : Decimal := { new precision with data := n * 10 ^ precision }

/-- What the four functions should return for a number, and what they should do to their own results. -/
structure DropsFraction (x : Decimal) : Prop where
  floor : ∃ n, x.floor = ofInt x.precision n ∧ IsGreatest {m : ℤ | (m : ℝ) ≤ x.value} n
  ceil : ∃ n, x.ceil = ofInt x.precision n ∧ IsLeast {m : ℤ | x.value ≤ m} n
  trunc : ∃ n, x.trunc = ofInt x.precision n ∧
    (0 ≤ x.value → IsGreatest {m : ℤ | (m : ℝ) ≤ x.value} n) ∧ (x.value ≤ 0 → IsLeast {m : ℤ | x.value ≤ m} n)
  round : ∃ n, x.round = ofInt x.precision n ∧ RoundsAway x.value n
  idempotent : x.floor.floor = x.floor ∧ x.ceil.ceil = x.ceil ∧ x.trunc.trunc = x.trunc ∧ x.round.round = x.round
  integer : (∃ n, x = ofInt x.precision n) → x.floor = x ∧ x.ceil = x ∧ x.trunc = x ∧ x.round = x

section
variable (x : Decimal)

/-- The whole part towards zero, and the rest with the sign of the number. -/
theorem parts : ∃ q, x.data = q * 10 ^ x.precision + x.data.tmod (10 ^ x.precision) ∧
    |x.data.tmod (10 ^ x.precision)| < 10 ^ x.precision ∧ (0 ≤ x.data → 0 ≤ x.data.tmod (10 ^ x.precision)) ∧
    (x.data < 0 → x.data.tmod (10 ^ x.precision) ≤ 0) := by
  have hpos : (0 : ℤ) < 10 ^ x.precision := by positivity
  refine ⟨x.data.tdiv (10 ^ x.precision), ?_, ?_, Int.tmod_nonneg _, fun hneg => ?_⟩
  · rw [add_comm, Int.tmod_add_tdiv_mul]
  · exact abs_lt.2 ⟨Int.lt_tmod_of_pos _ hpos, Int.tmod_lt_of_pos _ hpos⟩
  · have h := Int.tmod_nonneg (a := -x.data) (10 ^ x.precision) (by omega)
    rw [Int.neg_tmod] at h
    omega

variable {x}

theorem eq_ofInt {y : Decimal} {n : ℤ} (hprecision : y.precision = x.precision) (hdata : y.data = n * 10 ^ x.precision) :
    y = ofInt x.precision n := by
  obtain ⟨p, m, d, hm⟩ := y
  obtain rfl : p = x.precision := hprecision
  obtain rfl : d = n * 10 ^ x.precision := hdata
  obtain rfl : m = 10 ^ x.precision := hm
  rfl

theorem le_value_iff {m : ℤ} : (m : ℝ) ≤ x.value ↔ m * 10 ^ x.precision ≤ x.data := by
  have hpos : (0 : ℝ) < 10 ^ x.precision := by positivity
  rw [value, x.multiplier_eq, Int.cast_pow, Int.cast_ofNat, le_div_iff₀ hpos]
  norm_cast

theorem value_le_iff {m : ℤ} : x.value ≤ m ↔ x.data ≤ m * 10 ^ x.precision := by
  have hpos : (0 : ℝ) < 10 ^ x.precision := by positivity
  rw [value, x.multiplier_eq, Int.cast_pow, Int.cast_ofNat, div_le_iff₀ hpos]
  norm_cast

theorem isGreatest_of {n : ℤ} (hlow : n * 10 ^ x.precision ≤ x.data) (hhigh : x.data < (n + 1) * 10 ^ x.precision) :
    IsGreatest {m : ℤ | (m : ℝ) ≤ x.value} n := by
  refine ⟨le_value_iff.2 hlow, fun m hm => ?_⟩
  have hlt := lt_of_mul_lt_mul_right ((le_value_iff.1 hm).trans_lt hhigh) (by positivity)
  exact Int.lt_add_one_iff.1 hlt

theorem isLeast_of {n : ℤ} (hlow : (n - 1) * 10 ^ x.precision < x.data) (hhigh : x.data ≤ n * 10 ^ x.precision) :
    IsLeast {m : ℤ | x.value ≤ m} n := by
  refine ⟨value_le_iff.2 hhigh, fun m hm => ?_⟩
  have hlt := lt_of_mul_lt_mul_right (hlow.trans_le (value_le_iff.1 hm)) (by positivity)
  exact Int.sub_one_lt_iff.1 hlt

theorem floor_spec (x : Decimal) :
    ∃ n, x.floor = ofInt x.precision n ∧ IsGreatest {m : ℤ | (m : ℝ) ≤ x.value} n := by
  obtain ⟨q, hdata, habs, hpos, hneg⟩ := parts x
  rw [abs_lt] at habs
  by_cases hlow : x.data < 0 ∧ x.data.tmod (10 ^ x.precision) ≠ 0
  · refine ⟨q - 1, eq_ofInt rfl ?_, isGreatest_of ?_ ?_⟩
    · simp only [floor, negative, x.multiplier_eq, decide_eq_true_eq, if_pos hlow]
      linarith
    · linarith
    · have := lt_of_le_of_ne (hneg hlow.1) hlow.2
      linarith
  · have hrest : 0 ≤ x.data.tmod (10 ^ x.precision) := by
      rcases lt_or_ge x.data 0 with h | h
      · exact (not_not.1 fun hne => hlow ⟨h, hne⟩).ge
      · exact hpos h
    refine ⟨q, eq_ofInt rfl ?_, isGreatest_of ?_ ?_⟩
    · simp only [floor, negative, x.multiplier_eq, decide_eq_true_eq, if_neg hlow]
      linarith
    · linarith
    · linarith

theorem ceil_spec (x : Decimal) : ∃ n, x.ceil = ofInt x.precision n ∧ IsLeast {m : ℤ | x.value ≤ m} n := by
  obtain ⟨q, hdata, habs, hpos, hneg⟩ := parts x
  rw [abs_lt] at habs
  by_cases hhigh : ¬ x.data < 0 ∧ x.data.tmod (10 ^ x.precision) ≠ 0
  · refine ⟨q + 1, eq_ofInt rfl ?_, isLeast_of ?_ ?_⟩
    · simp only [ceil, negative, x.multiplier_eq, decide_eq_true_eq, if_pos hhigh]
      linarith
    · have := lt_of_le_of_ne (hpos (not_lt.1 hhigh.1)) hhigh.2.symm
      linarith
    · linarith
  · have hrest : x.data.tmod (10 ^ x.precision) ≤ 0 := by
      rcases lt_or_ge x.data 0 with h | h
      · exact hneg h
      · exact (not_not.1 fun hne => hhigh ⟨not_lt.2 h, hne⟩).le
    refine ⟨q, eq_ofInt rfl ?_, isLeast_of ?_ ?_⟩
    · simp only [ceil, negative, x.multiplier_eq, decide_eq_true_eq, if_neg hhigh]
      linarith
    · linarith
    · linarith

theorem trunc_spec (x : Decimal) : ∃ n, x.trunc = ofInt x.precision n ∧
    (0 ≤ x.value → IsGreatest {m : ℤ | (m : ℝ) ≤ x.value} n) ∧ (x.value ≤ 0 → IsLeast {m : ℤ | x.value ≤ m} n) := by
  obtain ⟨q, hdata, habs, hpos, hneg⟩ := parts x
  rw [abs_lt] at habs
  have hsign : 0 ≤ x.value ↔ 0 ≤ x.data := by simpa using le_value_iff (x := x) (m := 0)
  have hsign' : x.value ≤ 0 ↔ x.data ≤ 0 := by simpa using value_le_iff (x := x) (m := 0)
  refine ⟨q, eq_ofInt rfl ?_, fun h => isGreatest_of ?_ ?_, fun h => ?_⟩
  · simp only [trunc, x.multiplier_eq]
    linarith
  · have := hpos (hsign.1 h)
    linarith
  · linarith
  · have hrest : x.data.tmod (10 ^ x.precision) ≤ 0 := by
      rcases (hsign'.1 h).lt_or_eq with hlt | hzero
      · exact hneg hlt
      · rw [hzero, Int.zero_tmod]
    exact isLeast_of (by linarith) (by linarith)

theorem half_eq (h : x.precision ≠ 0) : ((10 : ℤ) ^ x.precision).tdiv 2 * 2 = 10 ^ x.precision :=
  Int.tdiv_mul_cancel ((by norm_num : (2 : ℤ) ∣ 10).trans (dvd_pow_self 10 h))

theorem roundsAway_of {n : ℤ} (h : |x.data - n * 10 ^ x.precision| * 2 ≤ 10 ^ x.precision)
    (htie : |x.data - n * 10 ^ x.precision| * 2 = 10 ^ x.precision → |x.data| ≤ |n| * 10 ^ x.precision) :
    RoundsAway x.value n := by
  have hpos : (0 : ℝ) < 10 ^ x.precision := by positivity
  have hvalue : x.value * 10 ^ x.precision = x.data := by
    rw [value, x.multiplier_eq, Int.cast_pow, Int.cast_ofNat, div_mul_cancel₀ _ hpos.ne']
  have hdist : |x.value - n| * 10 ^ x.precision = (|x.data - n * 10 ^ x.precision| : ℤ) := by
    push_cast
    rw [← abs_of_pos hpos, ← abs_mul, sub_mul, abs_of_pos hpos, hvalue]
  refine RoundsAway.of_le ?_ fun heq => ?_
  · have hcast : ((|x.data - n * 10 ^ x.precision| : ℤ) : ℝ) * 2 ≤ 10 ^ x.precision := by exact_mod_cast h
    rw [← hdist] at hcast
    nlinarith
  · have hcast : ((|x.data - n * 10 ^ x.precision| : ℤ) : ℝ) * 2 = 10 ^ x.precision := by
      rw [← hdist, heq]
      ring
    have hle : ((|x.data| : ℤ) : ℝ) ≤ (|n| : ℤ) * 10 ^ x.precision := by exact_mod_cast htie (by exact_mod_cast hcast)
    push_cast at hle
    rw [← hvalue, abs_mul, abs_of_pos hpos] at hle
    exact_mod_cast le_of_mul_le_mul_right hle hpos

theorem round_spec (h : x.precision ≠ 0) : ∃ n, x.round = ofInt x.precision n ∧ RoundsAway x.value n := by
  obtain ⟨q, hdata, habs, hpos, hneg⟩ := parts x
  have hhalf := half_eq h
  have hwhole : (0 : ℤ) < 10 ^ x.precision := by positivity
  rw [abs_lt] at habs
  by_cases hlarge : |x.data.tmod (10 ^ x.precision)| ≥ ((10 : ℤ) ^ x.precision).tdiv 2
  · rcases lt_or_ge x.data 0 with hsign | hsign
    · have hrest := hneg hsign
      rw [abs_of_nonpos hrest] at hlarge
      have hdist : x.data - (q - 1) * 10 ^ x.precision = 10 ^ x.precision + x.data.tmod (10 ^ x.precision) := by linarith
      refine ⟨q - 1, eq_ofInt rfl ?_, roundsAway_of ?_ fun _ => ?_⟩
      · simp only [round, negative, x.multiplier_eq, abs_of_nonpos hrest, if_pos hlarge, hsign, decide_true, if_true]
        linarith
      · rw [hdist, abs_of_pos (by linarith)]
        linarith
      · rw [← abs_of_pos hwhole, ← abs_mul, abs_of_neg hsign, abs_of_neg (by linarith)]
        linarith
    · have hrest := hpos hsign
      rw [abs_of_nonneg hrest] at hlarge
      have hdist : x.data - (q + 1) * 10 ^ x.precision = x.data.tmod (10 ^ x.precision) - 10 ^ x.precision := by linarith
      refine ⟨q + 1, eq_ofInt rfl ?_, roundsAway_of ?_ fun _ => ?_⟩
      · simp only [round, negative, x.multiplier_eq, abs_of_nonneg hrest, if_pos hlarge, not_lt.2 hsign, decide_false,
          Bool.false_eq_true, if_false]
        linarith
      · rw [hdist, abs_of_neg (by linarith)]
        linarith
      · rw [← abs_of_pos hwhole, ← abs_mul, abs_of_nonneg hsign, abs_of_nonneg (by linarith)]
        linarith
  · have hdist : x.data - q * 10 ^ x.precision = x.data.tmod (10 ^ x.precision) := by linarith
    refine ⟨q, eq_ofInt rfl ?_, roundsAway_of ?_ fun htie => ?_⟩
    · simp only [round, x.multiplier_eq, if_neg hlarge]
      linarith
    · rw [hdist]
      linarith
    · rw [hdist] at htie
      linarith

end

section
variable (p : ℕ) (n : ℤ)

theorem tmod_ofInt : (ofInt p n).data.tmod (ofInt p n).precisionMultiplier = 0 := Int.mul_tmod_left n _

@[simp] theorem floor_ofInt : (ofInt p n).floor = ofInt p n := by
  simp [floor, tmod_ofInt]

@[simp] theorem ceil_ofInt : (ofInt p n).ceil = ofInt p n := by
  simp [ceil, tmod_ofInt]

@[simp] theorem trunc_ofInt : (ofInt p n).trunc = ofInt p n := by
  simp [trunc, tmod_ofInt]

variable {p} in
theorem round_ofInt (h : p ≠ 0) : (ofInt p n).round = ofInt p n := by
  have hhalf := half_eq (x := ofInt p n) h
  have hpos : (0 : ℤ) < 10 ^ (ofInt p n).precision := by positivity
  have hlarge : ¬ |(0 : ℤ)| ≥ (ofInt p n).precisionMultiplier.tdiv 2 := by
    rw [(ofInt p n).multiplier_eq, abs_zero]
    linarith
  simp only [round, tmod_ofInt, if_neg hlarge, sub_zero]

theorem round_ofInt_zero : ((ofInt 0 n).round).data ≠ n := by
  simp only [round, ofInt, new, negative]
  norm_num
  refine ⟨by decide, ?_⟩
  split <;> omega

end

/-- All four are right exactly where there are decimals. -/
theorem dropsFraction_iff (x : Decimal) : DropsFraction x ↔ x.precision ≠ 0 := by
  constructor
  · intro h hzero
    have hx : x = ofInt x.precision x.data := eq_ofInt rfl (by rw [hzero, pow_zero, mul_one])
    have hround := (h.integer ⟨x.data, hx⟩).2.2.2
    rw [hzero] at hx
    have hne := round_ofInt_zero x.data
    rw [← hx, hround] at hne
    exact hne rfl
  · intro h
    obtain ⟨f, hf, hfloor⟩ := floor_spec x
    obtain ⟨c, hc, hceil⟩ := ceil_spec x
    obtain ⟨t, ht, htrunc⟩ := trunc_spec x
    obtain ⟨r, hr, hround⟩ := round_spec h
    refine ⟨⟨f, hf, hfloor⟩, ⟨c, hc, hceil⟩, ⟨t, ht, htrunc⟩, ⟨r, hr, hround⟩, ?_, ?_⟩
    · rw [hf, hc, ht, hr, floor_ofInt, ceil_ofInt, trunc_ofInt, round_ofInt r h]
      exact ⟨rfl, rfl, rfl, rfl⟩
    · rintro ⟨n, hn⟩
      rw [hn, floor_ofInt, ceil_ofInt, trunc_ofInt, round_ofInt n h]
      exact ⟨rfl, rfl, rfl, rfl⟩

/-- Five without decimals is rounded to six. -/
theorem five_rounds_to_six : ¬ ∀ x : Decimal, DropsFraction x :=
  fun h => (dropsFraction_iff ⟨0, 1, 5, rfl⟩).1 (h _) rfl

end Decimal
end Pallas.Math
