import Mathlib

/-!
# Fixed-point numbers (`pallas-math/src/math_dashu.rs`)

A `Decimal` is an integer over a power of ten. Of the functions on them these are the multiplications and divisions, the
four ways to drop the fraction, and the comparison of a number with an exponential, `exp_cmp`: the Taylor sum is
accumulated in fixed point, every term is computed from the one before with floors, and after each term an estimate of
the rest decides whether the comparison is settled.

`IBig` is `ℤ`, and `div_rem` of it rounds towards zero. It panics on a zero divisor, where the quotient is zero here.
-/

namespace Pallas.Math

def defaultPrecision : ℕ := 34

structure Decimal where
  precision : ℕ
  precisionMultiplier : ℤ
  data : ℤ
  multiplier_eq : precisionMultiplier = 10 ^ precision

inductive ExpOrdering where
  | GT
  | LT
  | UNKNOWN
  deriving DecidableEq

structure ExpCmpOrdering where
  iterations : ℕ
  estimation : ExpOrdering
  approx : Decimal

namespace Decimal

def new (precision : ℕ) : Decimal := ⟨precision, 10 ^ precision, 0, rfl⟩

/-- The number that is meant. -/
noncomputable def value (x : Decimal) : ℝ := x.data / x.precisionMultiplier

end Decimal

/-- `PRECISION`, the multiplier of the default precision; also `ONE`. -/
def PRECISION : ℤ := 10 ^ 34

def ONE : ℤ := 1 * PRECISION

/-- `IBig::sign() == Sign::Negative`. -/
def negative (x : ℤ) : Bool := x < 0

def divFloor (numerator denominator : ℤ) : ℤ :=
  let quotient := numerator.tdiv denominator
  let remainder := numerator.tmod denominator
  if remainder ≠ 0 ∧ negative numerator ≠ negative denominator then quotient - 1 else quotient

def div (x y : ℤ) : ℤ := divFloor (x * PRECISION) y

def scale (rop : ℤ) : ℤ :=
  let a := rop.tdiv PRECISION
  let temp := rop.tmod PRECISION
  if rop < 0 ∧ temp ≠ 0 then a - 1 else a

namespace Decimal

/-! ### Operators -/

/-- `Mul for Decimal`. -/
def mul (self rhs : Decimal) : Decimal := { new self.precision with data := scale (self.data * rhs.data) }

/-- `Mul<&Decimal> for &Decimal`. -/
def mulRef (self rhs : Decimal) : Decimal := { new self.precision with data := scale (self.data * rhs.data) }

/-- `MulAssign for Decimal`. -/
def mulAssign (self rhs : Decimal) : Decimal := { self with data := scale (self.data * rhs.data) }

/-- `MulAssign<&Decimal> for &mut Decimal`. -/
def mulAssignRef (self rhs : Decimal) : Decimal := { self with data := scale (self.data * rhs.data) }

/-- `Div for Decimal`. -/
def div (self rhs : Decimal) : Decimal := { new self.precision with data := Math.div self.data rhs.data }

/-- `Div<&Decimal> for &Decimal`. -/
def divRef (self rhs : Decimal) : Decimal := { new self.precision with data := Math.div self.data rhs.data }

/-- `DivAssign for Decimal`. -/
def divAssign (self rhs : Decimal) : Decimal := { self with data := Math.div self.data rhs.data }

/-- `DivAssign<&Decimal> for &mut Decimal`. -/
def divAssignRef (self rhs : Decimal) : Decimal := { self with data := Math.div self.data rhs.data }

/-! ### Dropping the fraction -/

def round (self : Decimal) : Decimal :=
  let half := self.precisionMultiplier.tdiv 2
  let remainder := self.data.tmod self.precisionMultiplier
  { self with data :=
      if |remainder| ≥ half then
        if negative self.data then self.data - (self.precisionMultiplier + remainder)
        else self.data + (self.precisionMultiplier - remainder)
      else self.data - remainder }

def floor (self : Decimal) : Decimal :=
  let remainder := self.data.tmod self.precisionMultiplier
  let lowered := if negative self.data ∧ remainder ≠ 0 then self.data - self.precisionMultiplier else self.data
  { self with data := lowered - remainder }

def ceil (self : Decimal) : Decimal :=
  let remainder := self.data.tmod self.precisionMultiplier
  let raised := if ¬ negative self.data ∧ remainder ≠ 0 then self.data + self.precisionMultiplier else self.data
  { self with data := raised - remainder }

def trunc (self : Decimal) : Decimal :=
  { self with data := self.data - self.data.tmod self.precisionMultiplier }

example : (round ⟨3, 1000, -1500, rfl⟩).data = -2000 := by decide

end Decimal

/-- The variables of the loop of `ref_exp_cmp`: the sum, the number of passes, the divisor and the last term. -/
structure ExpState where
  rop : ℤ
  n : ℕ
  divisor : ℤ
  error : ℤ

namespace ExpState

def start (x : ℤ) : ExpState := ⟨ONE, 0, ONE, x⟩

/-- The term that is added becomes the sum, the next one replaces it. -/
def advance (s : ExpState) (x : ℤ) : ExpState :=
  let nextX := s.error
  let divisor := s.divisor + ONE
  let error := div (scale (s.error * x)) divisor
  ⟨s.rop + nextX, s.n + 1, divisor, error⟩

/-- What the rest may still amount to. -/
def errorTerm (s : ExpState) (bound : ℤ) : ℤ := |s.error * bound|

/-- The verdict after a pass, if there is one. -/
def verdict (s : ExpState) (bound compare : ℤ) : Option ExpOrdering :=
  if s.rop + s.errorTerm bound ≤ compare then some .GT
  else if compare < s.rop - s.errorTerm bound then some .LT
  else none

end ExpState

/-- `while n < max_n`: at most `left` passes are left. -/
def refExpCmpLoop (x bound compare : ℤ) : (left : ℕ) → ExpState → ExpState × ExpOrdering
  | 0, s => (s, .UNKNOWN)
  | left + 1, s =>
    let s := s.advance x
    match s.verdict bound compare with
    | some estimate => (s, estimate)
    | none => refExpCmpLoop x bound compare left s

def refExpCmp (maxN : ℕ) (x bound compare : ℤ) : ExpCmpOrdering :=
  let (s, estimate) := refExpCmpLoop x bound compare maxN (.start x)
  ⟨s.n, estimate, { Decimal.new defaultPrecision with data := s.rop }⟩

def Decimal.expCmp (self : Decimal) (maxN : ℕ) (boundSelf : ℤ) (compare : Decimal) : ExpCmpOrdering :=
  refExpCmp maxN self.data boundSelf compare.data

example : ((⟨34, _, 0, rfl⟩ : Decimal).expCmp 0 3 ⟨34, _, 10 ^ 34, rfl⟩).estimation = .UNKNOWN := rfl

end Pallas.Math
