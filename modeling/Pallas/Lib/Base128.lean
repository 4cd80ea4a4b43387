import Pallas.Lib.Cbor

/-!
# Numbers of seven bits a byte

A run is a number of bytes with the high bit set, and one with it clear. Its low bits are the digits of a number to the base
128, from the highest on (`bigValue`) or from the lowest on (`littleValue`).
-/

namespace Base128

/-- Bytes with the high bit set, and one with it clear. -/
inductive IsRun : Bytes → Prop
  | last {byte : UInt8} (h : byte.toNat < 128) : IsRun [byte]
  | more {byte : UInt8} {run : Bytes} (h : ¬ byte.toNat < 128) (hrun : IsRun run) : IsRun (byte :: run)

/-- The number whose digits these are after those of `acc`, the highest first. -/
def bigValue (acc : ℕ) (bs : Bytes) : ℕ := bs.foldl (fun acc byte => acc * 128 + byte.toNat % 128) acc

/-- The number whose digits these are, the lowest first. -/
def littleValue : Bytes → ℕ
  | [] => 0
  | byte :: bs => byte.toNat % 128 + 128 * littleValue bs

theorem toNat_lowBits (byte : UInt8) : (byte &&& 127).toNat = byte.toNat % 128 := by
  rw [UInt8.toNat_and]
  exact Nat.and_two_pow_sub_one_eq_mod byte.toNat 7

theorem highBit_clear_iff {byte : UInt8} : byte &&& 128 = 0 ↔ byte.toNat < 128 := by
  have hlt := byte.toNat_lt
  have hbit : (byte &&& 128).toNat = (byte.toNat.testBit 7).toNat * 2 ^ 7 := by
    rw [UInt8.toNat_and]
    exact Nat.and_two_pow byte.toNat 7
  have htop : byte.toNat.testBit 7 = decide (byte.toNat / 128 % 2 = 1) := Nat.testBit_eq_decide_div_mod_eq
  rw [← UInt8.toNat_inj, hbit, htop]
  by_cases hhigh : byte.toNat < 128
  · have hzero : byte.toNat / 128 % 2 = 0 := by omega
    simp [hhigh, hzero]
  · have hone : byte.toNat / 128 % 2 = 1 := by omega
    simp [hhigh, hone]

section run
variable {run : Bytes}

theorem IsRun.ne_nil (h : IsRun run) : run ≠ [] := by
  cases h <;> exact List.cons_ne_nil _ _

theorem le_bigValue (acc : ℕ) (bs : Bytes) : acc ≤ bigValue acc bs := by
  induction bs generalizing acc with
  | nil => exact le_rfl
  | cons byte bs ih =>
    have hle := ih (acc * 128 + byte.toNat % 128)
    rw [bigValue, List.foldl_cons, ← bigValue]
    omega

theorem bigValue_dropLast_le (acc : ℕ) (h : run ≠ []) : bigValue acc run.dropLast ≤ bigValue acc run := by
  have happend : bigValue acc (run.dropLast ++ [run.getLast h]) =
      bigValue (bigValue acc run.dropLast) [run.getLast h] :=
    List.foldl_append
  rw [List.dropLast_append_getLast] at happend
  rw [happend]
  exact le_bigValue _ _

end run

end Base128
