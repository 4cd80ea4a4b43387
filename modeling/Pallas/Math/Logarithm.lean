import Pallas.Lib.Machine
import Pallas.Math.ExpCmp

/-!
# The integer part of a logarithm

`find_e` looks for the power of `E` below a number. It squares `1 / E` and `E` until the two enclose the number, and
then halves the exponents between; but the powers of the second loop are computed by `ipow`, which rounds along another
path. Above one the two paths are the same. Below, the square of `1 / E` and the square of that are one unit less than
`ipow` has them, and a number that is one of these two is enclosed by no pair of powers: the result is one too high, and
`ref_ln` hands a negative argument to its continued fraction. There is no third number of this kind.

`IBig` is `ℤ`. So are the exponents, which are `i64`: they double with each pass, and they fit up to a number of `2 ^ 62`
digits. The loop of squarings ends because the number is positive, which is an argument here and a test in `ref_ln`.
-/

namespace Pallas.Math

/-! ### The exponential, and `E` -/

def EPS : ℤ := 10 ^ (34 - 24)

def divRoundCeil (x y : ℤ) : ℤ :=
  let q := x.tdiv y
  let r := x.tmod y
  if ¬ negative q ∧ r ≠ 0 then q + 1 else q

/-- The variables of the loop of `mp_exp_taylor`. -/
structure TaylorState where
  rop : ℤ
  divisor : ℤ
  lastX : ℤ
  n : ℕ

/-- `while n < max_n - 1`: at most `left` passes are left. -/
def mpExpTaylorLoop (x epsilon : ℤ) : (left : ℕ) → TaylorState → TaylorState
  | 0, s => s
  | left + 1, s =>
    let nextX := div (scale (x * s.lastX)) s.divisor
    if |nextX| < |epsilon| then s
    else mpExpTaylorLoop x epsilon left ⟨s.rop + nextX, s.divisor + ONE, nextX, s.n + 1⟩

def mpExpTaylor (maxN : ℕ) (x epsilon : ℤ) : ℤ × ℕ :=
  let s := mpExpTaylorLoop x epsilon (maxN - 1) ⟨ONE, ONE, ONE, 0⟩
  (s.rop, s.n)

def ipow_ (x : ℤ) (n : ℕ) : ℤ :=
  if n = 0 then ONE
  else if n % 2 = 0 then
    let res := ipow_ x (n / 2)
    scale (res * res)
  else
    let res := ipow_ x (n - 1)
    scale (res * x)

def ipow (x n : ℤ) : ℤ := if n < 0 then div ONE (ipow_ x (-n).toNat) else ipow_ x n.toNat

/-- `ref_exp`, with the number of passes. It panics where the exponent it splits off does not fit. -/
def refExp (x : ℤ) : Outcome Empty (ℤ × ℕ) :=
  if x = 0 then .ok (ONE, 0)
  else if x < 0 then do
    let (temp, iterations) ← refExp (-x)
    .ok (div ONE temp, iterations)
  else
    let nExponent := divRoundCeil x PRECISION
    let (rop, iterations) := mpExpTaylor 1000 (x.tdiv nExponent) EPS
    if MachineInt.Fits Int64 nExponent then .ok (ipow rop nExponent, iterations) else .panic
termination_by if x < 0 then 1 else 0
decreasing_by
  rename_i _ hneg
  rw [if_pos hneg, if_neg (by omega)]
  exact Nat.one_pos

def E : ℤ := match refExp ONE with
  | .ok (e, _) => e
  | _ => 0

theorem E_eq : E = 27182818284590452353602874043083282 := by decide +kernel

/-! ### `find_e` and `ref_ln` -/

section Squarings
variable {y : ℤ}

theorem scale_sq_nonneg (y : ℤ) : 0 ≤ scale (y * y) := by
  rw [scale_eq (mul_self_nonneg y)]
  exact Int.ediv_nonneg (mul_self_nonneg y) PRECISION_pos.le

/-- Squaring at least halves what is at most a half. -/
theorem two_mul_scale_sq_le (h0 : 0 ≤ y) (h : 2 * y ≤ ONE) : 2 * scale (y * y) ≤ y := by
  have hdiv := Int.ediv_mul_le (y * y) PRECISION_pos.ne'
  rw [ONE, one_mul] at h
  rw [scale_eq (mul_self_nonneg y)]
  by_contra! hlt
  nlinarith [PRECISION_pos]

theorem two_mul_le_scale_sq (h : 2 * ONE ≤ y) : 2 * y ≤ scale (y * y) := by
  rw [ONE, one_mul] at h
  rw [scale_eq (mul_self_nonneg y), Int.le_ediv_iff_mul_le PRECISION_pos]
  nlinarith [PRECISION_pos]

end Squarings

/-- The variables of the first loop of `find_e`: two powers, one at most a half and one at least two, and the exponents
they stand for. -/
structure Bracket where
  x_ : ℤ
  x__ : ℤ
  l : ℤ
  u : ℤ
  nonneg : 0 ≤ x_
  le_half : 2 * x_ ≤ ONE
  two_le : 2 * ONE ≤ x__
  l_neg : l < 0
  u_pos : 0 < u

namespace Bracket

def start : Bracket :=
  ⟨div ONE E, E, -1, 1, by decide +kernel, by decide +kernel, by decide +kernel, by decide, by decide⟩

def squared (b : Bracket) : Bracket where
  x_ := scale (b.x_ * b.x_)
  x__ := scale (b.x__ * b.x__)
  l := b.l * 2
  u := b.u * 2
  nonneg := scale_sq_nonneg b.x_
  le_half := by linarith [two_mul_scale_sq_le b.nonneg b.le_half, b.le_half, b.nonneg]
  two_le := by linarith [two_mul_le_scale_sq b.two_le, b.two_le, PRECISION_pos, show ONE = PRECISION from one_mul _]
  l_neg := by linarith [b.l_neg]
  u_pos := by linarith [b.u_pos]

@[simp] theorem squared_lower (b : Bracket) : b.squared.x_ = scale (b.x_ * b.x_) := rfl

@[simp] theorem squared_upper (b : Bracket) : b.squared.x__ = scale (b.x__ * b.x__) := rfl

@[simp] theorem squared_l (b : Bracket) : b.squared.l = b.l * 2 := rfl

@[simp] theorem squared_u (b : Bracket) : b.squared.u = b.u * 2 := rfl

/-- The loop goes on. -/
def Misses (b : Bracket) (x : ℤ) : Prop := b.x_ > x ∨ b.x__ < x

instance (b : Bracket) (x : ℤ) : Decidable (b.Misses x) := inferInstanceAs (Decidable (_ ∨ _))

/-- How far the two powers still are from enclosing. -/
def gap (b : Bracket) (x : ℤ) : ℕ := b.x_.toNat + (x - b.x__).toNat

theorem gap_squared_lt {b : Bracket} {x : ℤ} (hx : 0 < x) (h : b.Misses x) : b.squared.gap x < b.gap x := by
  have hlower := two_mul_scale_sq_le b.nonneg b.le_half
  have hupper := two_mul_le_scale_sq b.two_le
  have hlow := b.nonneg
  have hhigh : 0 < b.x__ := by linarith [b.two_le, PRECISION_pos, show ONE = PRECISION from one_mul _]
  simp only [gap, squared_lower, squared_upper]
  rcases h with h | h <;> omega

end Bracket

def bracket (x : ℤ) (hx : 0 < x) (b : Bracket) : Bracket := if b.Misses x then bracket x hx b.squared else b
termination_by b.gap x
decreasing_by exact Bracket.gap_squared_lt hx ‹_›

/-- The second loop of `find_e`. -/
def bisect (x l u : ℤ) (h : l < u) : ℤ :=
  if hend : l + 1 = u then l
  else
    let mid := l + (u - l) / 2
    if x < ipow E mid then bisect x l mid (by omega) else bisect x mid u (by omega)
termination_by (u - l).toNat

def findE (x : ℤ) (hx : 0 < x) : ℤ :=
  let b := bracket x hx .start
  bisect x b.l b.u (b.l_neg.trans b.u_pos)

/-- The variables of the loop of `mp_ln_n`; there is no last convergent on the first pass. -/
structure LnState where
  n : ℕ
  currA : ℤ
  b : ℤ
  anM2 : ℤ
  bnM2 : ℤ
  anM1 : ℤ
  bnM1 : ℤ
  last : Option ℤ

/-- `while n <= max_n + 1`: at most `left` passes are left. -/
def mpLnLoop (x epsilon : ℤ) : (left : ℕ) → LnState → (convergent : ℤ) → ℤ
  | 0, _, convergent => convergent
  | left + 1, s, _ =>
    let a := x * (s.currA * s.currA)
    let a_ := scale (s.b * s.anM1) + scale (a * s.anM2)
    let b_ := scale (s.b * s.bnM1) + scale (a * s.bnM2)
    let convergent := div a_ b_
    if s.last.any (|convergent - ·| < |epsilon|) then convergent
    else
      let currA := if s.n > 1 ∧ s.n % 2 = 1 then s.currA + 1 else s.currA
      mpLnLoop x epsilon left ⟨s.n + 1, currA, s.b + ONE, s.anM1, s.bnM1, a_, b_, some convergent⟩ convergent

def mpLnN (maxN : ℕ) (x epsilon : ℤ) : ℤ :=
  mpLnLoop x epsilon (maxN + 1) ⟨1, 1, ONE, ONE, 0, 0, ONE, none⟩ 0

/-- What `ref_ln` hands to the continued fraction. -/
def lnArgument (x : ℤ) (hx : 0 < x) : ℤ := div x (ipow E (findE x hx)) - ONE

/-- `ref_ln`; nothing where it returns false. -/
def refLn (x : ℤ) : Option ℤ :=
  if hx : x ≤ 0 then none
  else some (findE x (not_le.1 hx) * PRECISION + mpLnN 1000 (lnArgument x (not_le.1 hx)) EPS)

/-! ### The powers of `E` -/

section Powers
variable {x y : ℤ} {n : ℕ}

theorem ONE_eq : ONE = PRECISION := one_mul _

theorem le_scale_mul (hx : 0 ≤ x) (hy : ONE ≤ y) : x ≤ scale (x * y) := by
  rw [ONE_eq] at hy
  rw [scale_eq (mul_nonneg hx (PRECISION_pos.le.trans hy)), Int.le_ediv_iff_mul_le PRECISION_pos]
  exact mul_le_mul_of_nonneg_left hy hx

theorem ONE_le_ipow_ (hx : ONE ≤ x) (n : ℕ) : ONE ≤ ipow_ x n := by
  have hpos : 0 ≤ ONE := by decide +kernel
  fun_induction ipow_ x n with
  | case1 => exact le_rfl
  | case2 n _ _ res ih => exact ih.trans (le_scale_mul (hpos.trans ih) ih)
  | case3 n _ _ res ih => exact ih.trans (le_scale_mul (hpos.trans ih) hx)

theorem ipow_double (x : ℤ) (hn : n ≠ 0) : ipow_ x (n * 2) = scale (ipow_ x n * ipow_ x n) := by
  rw [ipow_, if_neg (by omega), if_pos (by omega), Nat.mul_div_cancel n two_pos]

theorem div_ONE (hy : 0 < y) : div ONE y = PRECISION * PRECISION / y := by
  rw [div, ONE_eq, divFloor_eq (mul_pos PRECISION_pos PRECISION_pos).le hy]

theorem ONE_le_E : ONE ≤ E := by decide +kernel

/-- From here on the inverse rounds to one or to nothing. -/
theorem lt_two_mul_ipow_E (hn : 78 ≤ n) : PRECISION * PRECISION < 2 * ipow_ E n := by
  have hbase : ∀ n < 156, 78 ≤ n → PRECISION * PRECISION < 2 * ipow_ E n := by decide +kernel
  induction n using Nat.strong_induction_on with
  | _ n ih =>
    rcases lt_or_ge n 156 with hlt | hge
    · exact hbase n hlt hn
    have hpos : ∀ m, 0 ≤ ipow_ E m := fun m => le_trans (by decide +kernel) (ONE_le_ipow_ ONE_le_E m)
    rw [ipow_, if_neg (by omega)]
    dsimp only
    split
    · have hhalf := ih (n / 2) (by omega) (by omega)
      have hle := le_scale_mul (hpos (n / 2)) (ONE_le_ipow_ ONE_le_E (n / 2))
      omega
    · have hpred := ih (n - 1) (by omega) (by omega)
      have hle := le_scale_mul (hpos (n - 1)) ONE_le_E
      omega

theorem ipow_E_le_one {n : ℤ} (hn : n ≤ -78) : ipow E n ≤ 1 := by
  have hlt := lt_two_mul_ipow_E (n := (-n).toNat) (by omega)
  have hpos : 0 < ipow_ E (-n).toNat := lt_of_lt_of_le (by decide +kernel) (ONE_le_ipow_ ONE_le_E _)
  rw [ipow, if_pos (by omega), div_ONE hpos]
  exact Int.lt_add_one_iff.1 ((Int.ediv_lt_iff_lt_mul hpos).2 hlt)

theorem ipow_E_pos {n : ℤ} (hn : -78 ≤ n) : 0 < ipow E n := by
  have hbase : ∀ m < 79, 0 < div ONE (ipow_ E m) := by decide +kernel
  unfold ipow
  split
  · exact hbase _ (by omega)
  · exact lt_of_lt_of_le (by decide +kernel) (ONE_le_ipow_ ONE_le_E _)

end Powers

/-! ### The squarings -/

/-- The two numbers that the first loop takes for powers of `E`. -/
def Unenclosed (x : ℤ) : Prop := x = 1353352832366126918939995016483660 ∨ x = 183156388887341802937180230802058

instance (x : ℤ) : Decidable (Unenclosed x) := inferInstanceAs (Decidable (_ ∨ _))

namespace Bracket

/-- The variables after some passes of the first loop. -/
def after (k : ℕ) : Bracket := squared^[k] start

theorem after_succ (k : ℕ) : after (k + 1) = (after k).squared := Function.iterate_succ_apply' ..

theorem after_l (k : ℕ) : (after k).l = -2 ^ k := by
  induction k with
  | zero => rfl
  | succ k ih =>
    rw [after_succ, squared_l, ih, pow_succ]
    ring

theorem after_u (k : ℕ) : (after k).u = 2 ^ k := by
  induction k with
  | zero => rfl
  | succ k ih => rw [after_succ, squared_u, ih, pow_succ]

/-- Above one, the loop computes what `ipow` does. -/
theorem after_upper (k : ℕ) : (after k).x__ = ipow E (2 ^ k) := by
  have hpow : ∀ k : ℕ, ipow E (2 ^ k) = ipow_ E (2 ^ k) := fun k => by
    rw [ipow, if_neg (not_lt.2 (by positivity))]
    congr 1
  rw [hpow]
  induction k with
  | zero => decide +kernel
  | succ k ih => rw [after_succ, squared_upper, ih, pow_succ, ipow_double _ (by positivity)]

/-- After one and two passes the lower power is one unit short. -/
theorem unenclosed_iff {x : ℤ} : Unenclosed x ↔ ∃ k, (k = 1 ∨ k = 2) ∧ x = (after k).x_ := by
  have hone : (after 1).x_ = 1353352832366126918939995016483660 := by decide +kernel
  have htwo : (after 2).x_ = 183156388887341802937180230802058 := by decide +kernel
  simp [Unenclosed, hone, htwo]

/-- Below one, the loop computes what `ipow` does but for these two and what both have rounded away. -/
theorem ipow_le_of_le {x : ℤ} (hx : 0 < x) (hne : ¬ Unenclosed x) {k : ℕ} (hle : (after k).x_ ≤ x) :
    ipow E (-2 ^ k) ≤ x := by
  have hsame : ∀ k < 7, k ≠ 1 → k ≠ 2 → ipow E (-2 ^ k) = (after k).x_ := by decide +kernel
  have hshort : ∀ k, k = 1 ∨ k = 2 → ipow E (-2 ^ k) = (after k).x_ + 1 := by
    rintro k (rfl | rfl) <;> decide +kernel
  by_cases hk : k = 1 ∨ k = 2
  · have hlt : (after k).x_ < x := lt_of_le_of_ne hle fun heq => hne (unenclosed_iff.2 ⟨k, hk, heq.symm⟩)
    rw [hshort k hk]
    exact hlt
  rcases lt_or_ge k 7 with hlt | hge
  · rw [hsame k hlt (fun h => hk (.inl h)) (fun h => hk (.inr h))]
    exact hle
  · have hpow : (2 : ℤ) ^ 7 ≤ 2 ^ k := pow_le_pow_right₀ (by norm_num) hge
    exact (ipow_E_le_one (by linarith)).trans hx

end Bracket

/-! ### The two loops -/

section Loops
variable {x l u : ℤ}

/-- The first loop stops at the first pair that encloses the number. -/
theorem bracket_eq (hx : 0 < x) (b : Bracket) :
    ∃ k, bracket x hx b = Bracket.squared^[k] b ∧ ¬ (Bracket.squared^[k] b).Misses x := by
  fun_induction bracket x hx b with
  | case1 b hmisses ih =>
    obtain ⟨k, heq, hstop⟩ := ih
    exact ⟨k + 1, heq, hstop⟩
  | case2 b hstop => exact ⟨0, rfl, hstop⟩

/-- The second loop keeps a lower and an upper power. -/
theorem bisect_brackets (h : l < u) (hl : ipow E l ≤ x) (hu : x ≤ ipow E u) :
    ipow E (bisect x l u h) ≤ x ∧ x ≤ ipow E (bisect x l u h + 1) := by
  fun_induction bisect x l u h with
  | case1 l h => exact ⟨hl, hu⟩
  | case2 l u h hend mid hlt ih => exact ih hl hlt.le
  | case3 l u h hend mid hge ih => exact ih (not_lt.1 hge) hu

/-- It never goes down to where the powers are nothing. -/
theorem le_bisect (hx : 0 < x) (h : l < u) (hu : -78 < u) : -78 ≤ bisect x l u h := by
  fun_induction bisect x l u h with
  | case1 l h => omega
  | case2 l u h hend mid hlt ih =>
    refine ih (not_le.1 fun hle => ?_)
    have hone := ipow_E_le_one hle
    omega
  | case3 l u h hend mid hge ih => exact ih hu

theorem le_findE (hx : 0 < x) : -78 ≤ findE x hx := by
  have hpos := (bracket x hx .start).u_pos
  exact le_bisect hx _ (by omega)

/-- A number that is not one of the two lies between the power that is found and the next. -/
theorem findE_brackets (hx : 0 < x) (hne : ¬ Unenclosed x) :
    ipow E (findE x hx) ≤ x ∧ x ≤ ipow E (findE x hx + 1) := by
  obtain ⟨k, heq, hstop⟩ := bracket_eq hx .start
  simp only [Bracket.Misses, not_or, gt_iff_lt, not_lt] at hstop
  refine bisect_brackets _ ?_ ?_
  · rw [heq]
    exact (Bracket.after_l k).symm ▸ Bracket.ipow_le_of_le hx hne hstop.1
  · rw [heq]
    exact (Bracket.after_u k).symm ▸ Bracket.after_upper k ▸ hstop.2

/-- For the two numbers the result is one too high. -/
theorem lt_ipow_findE (hx : 0 < x) (h : Unenclosed x) :
    ipow E (findE x hx - 1) ≤ x ∧ x < ipow E (findE x hx) := by
  revert hx
  rcases h with rfl | rfl <;> decide +kernel

theorem lnArgument_nonneg_iff (hx : 0 < x) : 0 ≤ lnArgument x hx ↔ ipow E (findE x hx) ≤ x := by
  have hpos := ipow_E_pos (le_findE hx)
  rw [lnArgument, div, divFloor_eq (mul_pos hx PRECISION_pos).le hpos, ONE_eq, sub_nonneg,
    Int.le_ediv_iff_mul_le hpos, mul_comm, mul_le_mul_iff_left₀ PRECISION_pos]

end Loops

theorem findE_brackets_iff {x : ℤ} (hx : 0 < x) :
    (ipow E (findE x hx) ≤ x ∧ x ≤ ipow E (findE x hx + 1) ↔ ¬ Unenclosed x) ∧
      (0 ≤ lnArgument x hx ↔ ¬ Unenclosed x) := by
  have hlow : ipow E (findE x hx) ≤ x → ¬ Unenclosed x := fun hle h =>
    absurd (lt_ipow_findE hx h).2 (not_lt.2 hle)
  constructor
  · exact ⟨fun h => hlow h.1, findE_brackets hx⟩
  · rw [lnArgument_nonneg_iff hx]
    exact ⟨hlow, fun h => (findE_brackets hx h).1⟩

/-- One. -/
theorem findE_ONE :
    ∃ hx : 0 < ONE, (ipow E (findE ONE hx) ≤ ONE ∧ ONE ≤ ipow E (findE ONE hx + 1)) ∧ 0 ≤ lnArgument ONE hx :=
  have hx : 0 < ONE := by decide +kernel
  have hne : ¬ Unenclosed ONE := by decide +kernel
  ⟨hx, (findE_brackets_iff hx).1.2 hne, (findE_brackets_iff hx).2.2 hne⟩

/-- The square of the inverse of `E`: the exponent is one too high. -/
theorem findE_inverse_square :
    ∃ hx : 0 < 1353352832366126918939995016483660,
      ¬ (ipow E (findE 1353352832366126918939995016483660 hx) ≤ 1353352832366126918939995016483660 ∧
        1353352832366126918939995016483660 ≤ ipow E (findE 1353352832366126918939995016483660 hx + 1)) ∧
      ¬ 0 ≤ lnArgument 1353352832366126918939995016483660 hx := by decide +kernel

end Pallas.Math
