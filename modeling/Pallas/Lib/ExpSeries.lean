import Mathlib

/-!
# The exponential series with rounded terms

The partial sums of the exponential series of a non-negative number lie below its limit, by at most the next term times
the limit. If every term is computed from the one before with an error below 1, the errors of the terms stay below a
partial sum as well (`defect_le`), however many terms there are.
-/

open Finset

noncomputable section

/-- The sum of the first `n` terms of the exponential series. -/
def expSum (x : ℝ) (n : ℕ) : ℝ := ∑ i ∈ range n, x ^ i / i.factorial

variable {x : ℝ}

theorem expSum_le_exp (hx : 0 ≤ x) (n : ℕ) : expSum x n ≤ Real.exp x := Real.sum_le_exp_of_nonneg hx n

theorem expSum_add_le (hx : 0 ≤ x) (n k : ℕ) : expSum x (n + k) ≤ expSum x n + x ^ n / n.factorial * expSum x k := by
  rw [expSum, sum_range_add, ← expSum, expSum, expSum, mul_sum]
  gcongr with i
  have hfact : (n.factorial * i.factorial : ℝ) ≤ (n + i).factorial := by
    exact_mod_cast Nat.le_of_dvd (n + i).factorial_pos (Nat.factorial_mul_factorial_dvd_factorial_add n i)
  calc x ^ (n + i) / (n + i).factorial
      ≤ x ^ (n + i) / (n.factorial * i.factorial) := by gcongr
    _ = x ^ n / n.factorial * (x ^ i / i.factorial) := by rw [pow_add]; ring

theorem exp_le_expSum (hx : 0 ≤ x) (n : ℕ) : Real.exp x ≤ expSum x n + x ^ n / n.factorial * Real.exp x := by
  have hsum : HasSum (fun i => x ^ i / i.factorial) (Real.exp x) := by
    rw [Real.exp_eq_exp_ℝ]
    exact NormedSpace.expSeries_div_hasSum_exp x
  refine le_of_tendsto hsum.tendsto_sum_nat (Filter.eventually_atTop.2 ⟨n, fun k hk => ?_⟩)
  obtain ⟨k, rfl⟩ := Nat.exists_eq_add_of_le hk
  calc expSum x (n + k) ≤ expSum x n + x ^ n / n.factorial * expSum x k := expSum_add_le hx n k
    _ ≤ expSum x n + x ^ n / n.factorial * Real.exp x := by
      gcongr
      exact expSum_le_exp hx k

theorem defect_le (hx : 0 ≤ x) {full rounded : ℕ → ℝ} (hzero : full 0 ≤ rounded 0)
    (hfull : ∀ k, full (k + 1) = full k * x / (k + 2)) (hrounded : ∀ k, rounded k * x / (k + 2) - 1 ≤ rounded (k + 1))
    (k : ℕ) : full k - rounded k ≤ expSum x k := by
  induction k with
  | zero => simpa [expSum] using hzero
  | succ k ih =>
    have hterm : ∀ i ∈ range k, x ^ i / i.factorial * x / (k + 2) ≤ x ^ (i + 1) / (i + 1).factorial := by
      intro i hi
      have hik : (i + 1 : ℝ) ≤ k + 2 := by
        have hlt := mem_range.1 hi
        exact_mod_cast (show i + 1 ≤ k + 2 by omega)
      calc x ^ i / i.factorial * x / (k + 2) = x ^ (i + 1) / (i.factorial * (k + 2)) := by
            rw [pow_succ]
            field_simp
        _ ≤ x ^ (i + 1) / (i.factorial * (i + 1)) := by gcongr
        _ = x ^ (i + 1) / (i + 1).factorial := by
            rw [Nat.factorial_succ]
            push_cast
            ring
    have hshift : expSum x k * x / (k + 2) + 1 ≤ expSum x (k + 1) := by
      rw [expSum, expSum, sum_range_succ', sum_mul, sum_div]
      simp only [pow_zero, Nat.factorial_zero, Nat.cast_one, div_one]
      exact add_le_add_left (sum_le_sum hterm) 1
    calc full (k + 1) - rounded (k + 1)
        ≤ full k * x / (k + 2) - (rounded k * x / (k + 2) - 1) := by
          rw [hfull]
          exact sub_le_sub_left (hrounded k) _
      _ = (full k - rounded k) * x / (k + 2) + 1 := by ring
      _ ≤ expSum x k * x / (k + 2) + 1 := by gcongr
      _ ≤ expSum x (k + 1) := hshift

end
