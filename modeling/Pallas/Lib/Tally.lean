import Mathlib.Algebra.Order.BigOperators.Group.Finset
import Mathlib.Algebra.Module.Basic
import Mathlib.Data.Finmap
import Mathlib.Data.Int.ModEq

/-!
# Totals over lists with repeated entries, in arithmetic modulo a power of two

A loop over a list counts an entry as often as the list has it, while a specification that speaks
about a set counts it once. `countedAgain` is the difference. A sum of machine integers is known only
modulo the number of values of the type; two totals that agree modulo `n` differ by `n` times the
difference of their carries.
-/

namespace Tally

section Repeats
variable {α M : Type*} [DecidableEq α] [AddCommMonoid M]

/-- The total over the distinct entries of a list. -/
def distinct (f : α → M) (xs : List α) : M := ∑ x ∈ xs.toFinset, f x

/-- What the occurrences of the entries after their first add up to. -/
def countedAgain (f : α → M) (xs : List α) : M := ∑ x ∈ xs.toFinset, (xs.count x - 1) • f x

theorem sum_eq_distinct_add_countedAgain (f : α → M) (xs : List α) :
    (xs.map f).sum = distinct f xs + countedAgain f xs := by
  rw [Finset.sum_list_map_count, distinct, countedAgain, ← Finset.sum_add_distrib]
  refine Finset.sum_congr rfl fun x hx => ?_
  have hpos : 1 ≤ xs.count x := List.count_pos_iff.2 (List.mem_toFinset.1 hx)
  rw [← succ_nsmul', Nat.sub_add_cancel hpos]

theorem countedAgain_of_nodup (f : α → M) {xs : List α} (h : xs.Nodup) : countedAgain f xs = 0 := by
  refine Finset.sum_eq_zero fun x hx => ?_
  rw [List.count_eq_one_of_mem h (List.mem_toFinset.1 hx), Nat.sub_self, zero_nsmul]

theorem distinct_add_eq_iff {G : Type*} [AddCommGroup G] {f : α → G} {xs : List α} {rest out : G} :
    distinct f xs + rest = out ↔ countedAgain f xs = (xs.map f).sum + rest - out := by
  rw [sum_eq_distinct_add_countedAgain, eq_sub_iff_add_eq, add_right_comm,
    add_comm (countedAgain f xs), add_left_inj, eq_comm]

theorem countedAgain_eq_zero_iff {f : α → ℤ} {xs : List α} (hpos : ∀ x ∈ xs, 0 < f x) :
    countedAgain f xs = 0 ↔ xs.Nodup := by
  refine ⟨fun h => ?_, countedAgain_of_nodup f⟩
  have hnonneg : ∀ x ∈ xs.toFinset, 0 ≤ (xs.count x - 1) • f x := fun x hx =>
    nsmul_nonneg (hpos x (List.mem_toFinset.1 hx)).le _
  rw [List.nodup_iff_count_le_one]
  intro x
  by_cases hx : x ∈ xs
  · have hterm := (Finset.sum_eq_zero_iff_of_nonneg hnonneg).1 h x (List.mem_toFinset.2 hx)
    rcases smul_eq_zero.1 hterm with h0 | h0
    · omega
    · exact absurd h0 (hpos x hx).ne'
  · rw [List.count_eq_zero_of_not_mem hx]
    exact Nat.zero_le _

end Repeats

section Tables
variable {K V : Type*} {M : Type*} [DecidableEq K] [AddCommMonoid M]
variable {m : Finmap fun _ : K => V} {k : K} {v : V}

/-- The total over the values of a table. -/
def overTable (f : V → M) (m : Finmap fun _ : K => V) : M := ∑ k ∈ m.keys, (m.lookup k).elim 0 f

theorem keys_insert : (m.insert k v).keys = insert k m.keys := by
  ext k'
  rw [Finmap.mem_keys, Finmap.mem_insert, Finset.mem_insert, Finmap.mem_keys]

theorem sum_lookup_insert (f : V → M) {s : Finset K} (hk : k ∉ s) :
    ∑ k' ∈ s, ((m.insert k v).lookup k').elim 0 f = ∑ k' ∈ s, (m.lookup k').elim 0 f := by
  refine Finset.sum_congr rfl fun k' hk' => ?_
  rw [Finmap.lookup_insert_of_ne _ (ne_of_mem_of_not_mem hk' hk)]

theorem overTable_insert (f : V → M) (h : m.lookup k = none) :
    overTable f (m.insert k v) = f v + overTable f m := by
  have hk : k ∉ m.keys := by
    rw [Finmap.mem_keys]
    exact Finmap.lookup_eq_none.1 h
  rw [overTable, keys_insert, Finset.sum_insert hk, Finmap.lookup_insert, sum_lookup_insert f hk]
  rfl

theorem add_swap_ends (a b c : M) : a + b + c = c + b + a := by
  rw [add_comm a b, add_right_comm, add_comm b c]

theorem overTable_replace (f : V → M) (v' : V) (h : m.lookup k = some v) :
    overTable f (m.insert k v') + f v = overTable f m + f v' := by
  have hk : k ∈ m.keys := Finmap.mem_keys.2 (Finmap.mem_of_lookup_eq_some h)
  rw [overTable, keys_insert, Finset.insert_eq_of_mem hk, overTable, ← Finset.add_sum_erase _ _ hk,
    ← Finset.add_sum_erase _ (fun k' => (m.lookup k').elim 0 f) hk, Finmap.lookup_insert, h,
    sum_lookup_insert f (Finset.notMem_erase k _)]
  exact add_swap_ends _ _ _

end Tables

/-- What two totals that agree modulo `n` differ by. -/
theorem sub_eq_carries {n x y : ℤ} (h : x ≡ y [ZMOD n]) : x - y = n * (x / n - y / n) := by
  have hx := Int.mul_ediv_add_emod x n
  have hy := Int.mul_ediv_add_emod y n
  rw [Int.ModEq] at h
  rw [mul_sub]
  omega

end Tally
