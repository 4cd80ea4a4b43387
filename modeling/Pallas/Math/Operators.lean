import Pallas.Math.ExpCmp

/-!
# Products and quotients of fixed-point numbers

The operators take the precision from their operand, but `scale` and `div` always work with 34 decimals. The data they
compute is still a floor: of the product, or of the quotient, at the other precision. Where the two precisions differ the
two floors agree only for numbers that are less than one unit of the finer one (`floor_mul_pow_eq_iff`).
-/

namespace Pallas.Math

section Floors

/-- Digits are lost unless all of them are zero, or all of them are nines below zero. -/
theorem floor_mul_pow_eq_iff_of_lt {r : ℝ} {m n : ℕ} (h : m < n) :
    ⌊r * 10 ^ m⌋ = ⌊r * 10 ^ n⌋ ↔ -1 ≤ r * 10 ^ n ∧ r * 10 ^ n < 1 := by
  obtain ⟨k, rfl⟩ := Nat.exists_eq_add_of_lt h
  have hfactor : r * 10 ^ (m + k + 1) = r * 10 ^ m * 10 ^ (k + 1) := by ring
  have hten : (10 : ℝ) ≤ 10 ^ (k + 1) := le_self_pow₀ (by norm_num) (Nat.succ_ne_zero k)
  rw [hfactor]
  generalize r * 10 ^ m = x at *
  generalize (10 : ℝ) ^ (k + 1) = c at *
  constructor
  · intro hfloor
    have hlow := Int.floor_le (x * c)
    have hhigh := Int.lt_floor_add_one (x * c)
    have hlow' := Int.floor_le x
    have hhigh' := Int.lt_floor_add_one x
    rw [hfloor] at hlow' hhigh'
    generalize ⌊x * c⌋ = q at *
    -- ten times a number from `q` to `q + 1` is itself from `q` to `q + 1`
    have hq : q = 0 ∨ q = -1 := by
      by_contra hne
      rcases lt_or_ge q 0 with hneg | hpos
      · have hq2 : q + 1 ≤ -1 := by omega
        have hq2' : (q : ℝ) + 1 ≤ -1 := by exact_mod_cast hq2
        nlinarith
      · have hq2 : 1 ≤ q := by omega
        have hq2' : (1 : ℝ) ≤ q := by exact_mod_cast hq2
        nlinarith
    rcases hq with rfl | rfl
    · norm_num at hlow hhigh
      exact ⟨by linarith, hhigh⟩
    · norm_num at hlow hhigh
      exact ⟨hlow, by linarith⟩
  · rintro ⟨hlow, hhigh⟩
    rcases lt_or_ge x 0 with hneg | hpos
    · have hx : ⌊x⌋ = -1 := Int.floor_eq_iff.2 ⟨by push_cast; nlinarith, by push_cast; linarith⟩
      rw [hx]
      exact (Int.floor_eq_iff.2 ⟨by push_cast; linarith, by push_cast; nlinarith⟩).symm
    · have hx : ⌊x⌋ = 0 := Int.floor_eq_iff.2 ⟨by push_cast; linarith, by push_cast; nlinarith⟩
      rw [hx]
      exact (Int.floor_eq_iff.2 ⟨by push_cast; positivity, by push_cast; linarith⟩).symm

theorem floor_mul_pow_eq_iff {r : ℝ} {m n : ℕ} :
    ⌊r * 10 ^ m⌋ = ⌊r * 10 ^ n⌋ ↔ m = n ∨ (-1 ≤ r * 10 ^ max m n ∧ r * 10 ^ max m n < 1) := by
  rcases lt_trichotomy m n with h | rfl | h
  · rw [max_eq_right h.le, floor_mul_pow_eq_iff_of_lt h, or_iff_right h.ne]
  · simp
  · rw [max_eq_left h.le, eq_comm, floor_mul_pow_eq_iff_of_lt h, or_iff_right h.ne']

theorem divFloor_eq_fdiv (n : ℤ) {d : ℤ} (hd : d ≠ 0) : divFloor n d = n.fdiv d := by
  rw [Int.fdiv_eq_tdiv, divFloor]
  by_cases hdvd : d ∣ n
  · rw [Int.tmod_eq_zero_of_dvd hdvd]
    simp [hdvd]
  · have hmod : n.tmod d ≠ 0 := fun h => hdvd (Int.dvd_of_tmod_eq_zero h)
    rcases lt_or_gt_of_ne hd with hneg | hpos
    · by_cases hn : n < 0
      · simp [hdvd, negative, hneg, hn, not_le.2 hneg, not_le.2 hn, Int.sign_eq_neg_one_of_neg hneg]
      · simp [hdvd, hmod, negative, hneg, hn, not_le.2 hneg, not_lt.1 hn]
    · by_cases hn : n < 0
      · simp [hdvd, hmod, negative, not_lt.2 hpos.le, hn, hpos.le, not_le.2 hn, Int.sign_eq_one_of_pos hpos]
      · simp [hdvd, negative, not_lt.2 hpos.le, hn, hpos.le, not_lt.1 hn]

theorem fdiv_eq_floor (n d : ℤ) : n.fdiv d = ⌊(n : ℝ) / d⌋ := by
  have hpos : ∀ (n : ℤ) (d : ℕ), n.fdiv d = ⌊(n : ℝ) / (d : ℤ)⌋ := by
    intro n d
    rw [Int.fdiv_eq_ediv_of_nonneg n (Int.natCast_nonneg d), ← Rat.floor_intCast_div_natCast, ← Rat.floor_cast (α := ℝ)]
    simp
  rcases le_total 0 d with hd | hd
  · lift d to ℕ using hd
    exact hpos n d
  · obtain ⟨k, rfl⟩ := Int.exists_eq_neg_ofNat hd
    have h := hpos (-n) k
    simp only [Int.cast_neg, neg_div, div_neg] at h ⊢
    rw [← h, ← Int.neg_fdiv_neg, neg_neg]

theorem divFloor_floor (n : ℤ) {d : ℤ} (hd : d ≠ 0) : divFloor n d = ⌊(n : ℝ) / d⌋ := by
  rw [divFloor_eq_fdiv n hd, fdiv_eq_floor]

theorem PRECISION_cast : (PRECISION : ℝ) = 10 ^ 34 := by norm_num [PRECISION]

theorem scale_floor (n : ℤ) : scale n = ⌊(n : ℝ) / PRECISION⌋ := by
  have hpos : negative PRECISION = false := decide_eq_false (not_lt.2 PRECISION_pos.le)
  have hscale : scale n = divFloor n PRECISION := by
    simp only [scale, divFloor, hpos]
    simp [negative, and_comm]
  rw [hscale, divFloor_floor n PRECISION_pos.ne']

end Floors

namespace Decimal

/-- A real number rounded down to so many decimals. -/
noncomputable def ofFloor (precision : ℕ) (r : ℝ) : Decimal := { new precision with data := ⌊r * 10 ^ precision⌋ }

/-- What products and quotients of two numbers should be, whichever operator computes them. -/
structure FloorOperators (x y : Decimal) : Prop where
  mul : x.mul y = ofFloor x.precision (x.value * y.value)
  div : y.data ≠ 0 → x.div y = ofFloor x.precision (x.value / y.value)
  mul_agree : x.mulRef y = x.mul y ∧ x.mulAssign y = x.mul y ∧ x.mulAssignRef y = x.mul y
  div_agree : x.divRef y = x.div y ∧ x.divAssign y = x.div y ∧ x.divAssignRef y = x.div y

/-- The product and the quotient are less than one unit of the finer of the two precisions. -/
def LessThanUnit (x y : Decimal) : Prop :=
  (-10 ^ min x.precision 34 ≤ x.data * y.data ∧ x.data * y.data < 10 ^ min x.precision 34) ∧
    (y.data ≠ 0 → -1 ≤ (x.data * 10 ^ max x.precision 34 / y.data : ℝ) ∧
      (x.data * 10 ^ max x.precision 34 / y.data : ℝ) < 1)

section
variable {x y : Decimal}

@[ext]
theorem ext' (hprecision : x.precision = y.precision) (hdata : x.data = y.data) : x = y := by
  obtain ⟨p, m, d, hm⟩ := x
  obtain ⟨q, n, e, hn⟩ := y
  obtain rfl : p = q := hprecision
  obtain rfl : d = e := hdata
  obtain rfl : m = n := hm.trans hn.symm
  rfl

theorem value_eq (x : Decimal) : x.value = x.data / 10 ^ x.precision := by
  rw [value, x.multiplier_eq]
  push_cast
  rfl

theorem mul_eq_iff (h : x.precision = y.precision) :
    x.mul y = ofFloor x.precision (x.value * y.value) ↔
      x.precision = 34 ∨
        (-10 ^ min x.precision 34 ≤ x.data * y.data ∧ x.data * y.data < 10 ^ min x.precision 34) := by
  have hten : ∀ n : ℕ, (10 : ℝ) ^ n ≠ 0 := fun n => pow_ne_zero n (by norm_num)
  set r : ℝ := x.data * y.data / (10 ^ x.precision * 10 ^ 34) with hr
  have hcode : scale (x.data * y.data) = ⌊r * 10 ^ x.precision⌋ := by
    rw [scale_floor, hr, PRECISION_cast]
    congr 1
    push_cast
    field_simp
  have hexact : ⌊x.value * y.value * 10 ^ x.precision⌋ = ⌊r * 10 ^ 34⌋ := by
    rw [value_eq, value_eq, ← h, hr]
    field_simp
  have hunit : r * 10 ^ max x.precision 34 = (x.data * y.data : ℤ) / (10 ^ min x.precision 34 : ℤ) := by
    have hpow : (10 : ℝ) ^ x.precision * 10 ^ 34 = 10 ^ max x.precision 34 * 10 ^ min x.precision 34 := by
      rw [← pow_add, ← pow_add, max_add_min]
    rw [hr, hpow]
    push_cast
    field_simp
  have hpos : (0 : ℝ) < (10 ^ min x.precision 34 : ℤ) := by positivity
  calc x.mul y = ofFloor x.precision (x.value * y.value)
      ↔ scale (x.data * y.data) = ⌊x.value * y.value * 10 ^ x.precision⌋ :=
        ⟨congrArg Decimal.data, fun hdata => ext' rfl hdata⟩
    _ ↔ x.precision = 34 ∨ (-1 ≤ r * 10 ^ max x.precision 34 ∧ r * 10 ^ max x.precision 34 < 1) := by
        rw [hcode, hexact, floor_mul_pow_eq_iff]
    _ ↔ _ := by
        rw [hunit, le_div_iff₀ hpos, div_lt_iff₀ hpos]
        norm_cast
        simp

theorem div_eq_iff (h : x.precision = y.precision) (hy : y.data ≠ 0) :
    x.div y = ofFloor x.precision (x.value / y.value) ↔
      x.precision = 34 ∨ (-1 ≤ (x.data * 10 ^ max x.precision 34 / y.data : ℝ) ∧
        (x.data * 10 ^ max x.precision 34 / y.data : ℝ) < 1) := by
  have hten : ∀ n : ℕ, (10 : ℝ) ^ n ≠ 0 := fun n => pow_ne_zero n (by norm_num)
  have hy' : (y.data : ℝ) ≠ 0 := Int.cast_ne_zero.2 hy
  have hcode : Math.div x.data y.data = ⌊(x.data / y.data : ℝ) * 10 ^ 34⌋ := by
    rw [Math.div, divFloor_floor _ hy, Int.cast_mul, PRECISION_cast, mul_div_right_comm]
  have hexact : x.value / y.value * 10 ^ x.precision = (x.data / y.data : ℝ) * 10 ^ x.precision := by
    rw [value_eq, value_eq, ← h, div_div_div_cancel_right₀ (hten _)]
  calc x.div y = ofFloor x.precision (x.value / y.value)
      ↔ Math.div x.data y.data = ⌊x.value / y.value * 10 ^ x.precision⌋ :=
        ⟨congrArg Decimal.data, fun hdata => ext' rfl hdata⟩
    _ ↔ _ := by
        rw [hcode, hexact, floor_mul_pow_eq_iff, max_comm, mul_div_right_comm]
        exact or_congr_left eq_comm

/-- The operators round the exact results down exactly where the precision is that of the crate, or where there is
nothing to round. -/
theorem floorOperators_iff (h : x.precision = y.precision) :
    FloorOperators x y ↔ x.precision = 34 ∨ LessThanUnit x y := by
  have hassign : ∀ d : ℤ, ({ x with data := d } : Decimal) = { new x.precision with data := d } := fun d =>
    ext' rfl rfl
  constructor
  · intro hops
    by_cases h34 : x.precision = 34
    · exact .inl h34
    · refine .inr ⟨((mul_eq_iff h).1 hops.mul).resolve_left h34, fun hy => ?_⟩
      exact ((div_eq_iff h hy).1 (hops.div hy)).resolve_left h34
  · intro hcond
    refine ⟨(mul_eq_iff h).2 (hcond.imp_right And.left), fun hy => (div_eq_iff h hy).2 (hcond.imp_right fun hu => hu.2 hy),
      ⟨rfl, hassign _, hassign _⟩, ⟨rfl, hassign _, hassign _⟩⟩

end

/-- Products and quotients at the precision of the crate. -/
theorem floorOperators_default : FloorOperators ⟨34, _, -15 * 10 ^ 33, rfl⟩ ⟨34, _, 7, rfl⟩ :=
  (floorOperators_iff (x := ⟨34, _, -15 * 10 ^ 33, rfl⟩) (y := ⟨34, _, 7, rfl⟩) rfl).2 (.inl rfl)

/-- One and a half squared is nothing at three decimals. -/
theorem three_decimals_lost : ¬ ∀ x y : Decimal, x.precision = y.precision → FloorOperators x y := by
  intro h
  rcases (floorOperators_iff rfl).1 (h ⟨3, 1000, 1500, rfl⟩ ⟨3, 1000, 1500, rfl⟩ rfl) with h34 | ⟨⟨-, hlt⟩, -⟩
  · cases h34
  · norm_num at hlt

end Decimal

end Pallas.Math
