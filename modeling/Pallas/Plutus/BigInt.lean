import Pallas.Primitives
import Pallas.Lib.BigEndian

/-!
# The order of big integers (`pallas-primitives/src/plutus_data.rs`)

`Ord for BigInt` compares signs and then magnitudes without their leading zeros. It takes the bytes of a `BigNInt`
for the absolute value of a negative number, so it is the order of the signed magnitudes (`cmp_eq_compare`): the
bytes of magnitude `n` under tag 3 count as `-n`, where CBOR has `-1 - n`. Against another `BigNInt` that makes no
difference, and against an integer that is neither of the two (`Apart`) neither.
-/

namespace Pallas
open Cbor

namespace BigInt

/-- A `minicbor::data::Int` has a sign and a 64-bit argument. -/
def InRange : BigInt → Prop
  | int z => -2 ^ 64 ≤ z ∧ z < 2 ^ 64
  | bigUInt _ => True
  | bigNInt _ => True

/-- `to_bytes`: the sign, and the magnitude without leading zeros; `i128::to_be_bytes` gives sixteen bytes. -/
def toBytes : BigInt → Bool × Bytes
  | int z => (z < 0, stripZeros (bigEndian 16 z.natAbs))
  | bigUInt bs => (false, stripZeros bs)
  | bigNInt bs => (true, stripZeros bs)

/-- `Ord for BigInt`. -/
def cmp (a b : BigInt) : Ordering :=
  let (leftIsNegative, left) := toBytes a
  let (rightIsNegative, right) := toBytes b
  if left.isEmpty ∧ right.isEmpty then .eq
  else if leftIsNegative ∧ ¬ rightIsNegative then .lt
  else if ¬ leftIsNegative ∧ rightIsNegative then .gt
  else if leftIsNegative ∧ rightIsNegative then (compareMagnitudes left right).swap
  else compareMagnitudes left right

/-- The integer that CBOR has for it: tag 3 over the number `n` is `-1 - n`. -/
def denote : BigInt → ℤ
  | int z => z
  | bigUInt bs => ofBigEndian bs
  | bigNInt bs => -1 - ofBigEndian bs

/-- The integer as `cmp` takes it. -/
def signedMagnitude : BigInt → ℤ
  | int z => z
  | bigUInt bs => ofBigEndian bs
  | bigNInt bs => -ofBigEndian bs

/-- The sign and the stripped magnitude stand for the integer. -/
structure Stands (s : Bool × Bytes) (z : ℤ) : Prop where
  stripped : Stripped s.2
  value : z = if s.1 then -(ofBigEndian s.2 : ℤ) else ofBigEndian s.2

theorem stands_toBytes {a : BigInt} (h : a.InRange) : Stands a.toBytes a.signedMagnitude := by
  refine ⟨?_, ?_⟩
  · cases a <;> exact stripped_stripZeros _
  · cases a with
    | int z =>
      obtain ⟨hlow, hhigh⟩ := h
      have habs : z.natAbs < 256 ^ 16 := by omega
      rw [signedMagnitude, toBytes, ofBigEndian_stripZeros, ofBigEndian_bigEndian habs]
      by_cases hneg : z < 0
      · simp only [hneg, decide_true, if_true]
        omega
      · simp only [hneg, decide_false, Bool.false_eq_true, if_false]
        omega
    | bigUInt bs => rw [signedMagnitude, toBytes, ofBigEndian_stripZeros]; rfl
    | bigNInt bs => rw [signedMagnitude, toBytes, ofBigEndian_stripZeros]; rfl

theorem compare_cast (m n : ℕ) : compare (m : ℤ) (n : ℤ) = compare m n := by
  simp only [Int.compare_eq_ite_lt, Nat.compare_eq_ite_lt, Nat.cast_lt]

theorem compare_neg (m n : ℕ) : compare (-(m : ℤ)) (-(n : ℤ)) = (compare m n).swap := by
  rw [Nat.compare_swap]
  simp only [Int.compare_eq_ite_lt, Nat.compare_eq_ite_lt, neg_lt_neg_iff, Nat.cast_lt]

theorem Stands.isEmpty_iff {s : Bool × Bytes} {z : ℤ} (h : Stands s z) : s.2.isEmpty = true ↔ z = 0 := by
  obtain ⟨hstripped, hvalue⟩ := h
  rw [List.isEmpty_iff, hstripped.eq_nil_iff, hvalue]
  split
  · omega
  · omega

theorem cmp_eq_compare {a b : BigInt} (ha : a.InRange) (hb : b.InRange) :
    a.cmp b = compare a.signedMagnitude b.signedMagnitude := by
  have hleft := stands_toBytes ha
  have hright := stands_toBytes hb
  have hempty := hleft.isEmpty_iff
  have hempty' := hright.isEmpty_iff
  unfold cmp
  obtain ⟨hstripped, hvalue⟩ := hleft
  obtain ⟨hstripped', hvalue'⟩ := hright
  generalize a.toBytes = s at hstripped hvalue hempty ⊢
  generalize b.toBytes = t at hstripped' hvalue' hempty' ⊢
  obtain ⟨neg, left⟩ := s
  obtain ⟨neg', right⟩ := t
  dsimp only at hstripped hstripped' hvalue hvalue' hempty hempty' ⊢
  by_cases hzero : a.signedMagnitude = 0 ∧ b.signedMagnitude = 0
  · rw [if_pos ⟨hempty.2 hzero.1, hempty'.2 hzero.2⟩, hzero.1, hzero.2]
    rfl
  · rw [if_neg fun h => hzero ⟨hempty.1 h.1, hempty'.1 h.2⟩]
    have hmagnitudes := compareMagnitudes_eq hstripped hstripped'
    cases neg with
    | true =>
      cases neg' with
      | true =>
        simp only [if_true] at hvalue hvalue'
        rw [if_neg (by simp), if_neg (by simp), if_pos (by simp), hmagnitudes, hvalue, hvalue', compare_neg]
      | false =>
        simp only [if_true, Bool.false_eq_true, if_false] at hvalue hvalue'
        rw [if_pos (by simp), Int.compare_eq_lt.2 (by omega)]
    | false =>
      cases neg' with
      | true =>
        simp only [if_true, Bool.false_eq_true, if_false] at hvalue hvalue'
        rw [if_neg (by simp), if_pos (by simp), Int.compare_eq_gt.2 (by omega)]
      | false =>
        simp only [Bool.false_eq_true, if_false] at hvalue hvalue'
        rw [if_neg (by simp), if_neg (by simp), if_neg (by simp), hmagnitudes, hvalue, hvalue', compare_cast]

/-! ### Against the integers that are meant -/

/-- The integer is neither of the two that a `BigNInt` of this magnitude can be taken for. -/
def Clear (bs : Bytes) (z : ℤ) : Prop := z ≠ -ofBigEndian bs ∧ z ≠ -1 - ofBigEndian bs

/-- Where one of the two is a `BigNInt` and the other is not, the other one is clear of it. -/
def Apart : BigInt → BigInt → Prop
  | bigNInt _, bigNInt _ => True
  | bigNInt bs, b => Clear bs b.denote
  | a, bigNInt bs => Clear bs a.denote
  | _, _ => True

theorem compare_eq_compare {x y x' y' : ℤ} : compare x y = compare x' y' ↔ (x < y ↔ x' < y') ∧ (y < x ↔ y' < x') := by
  constructor
  · intro h
    rw [← Int.compare_eq_lt, ← Int.compare_eq_lt, ← Int.compare_eq_gt, ← Int.compare_eq_gt, h]
    exact ⟨Iff.rfl, Iff.rfl⟩
  · rintro ⟨hlt, hgt⟩
    simp only [Int.compare_eq_ite_lt, hlt, hgt]

/-- Both parts of the order at once: how two integers compare, and whether they are equal. -/
theorem compare_shift {bs : Bytes} {z : ℤ} :
    (compare (-(ofBigEndian bs : ℤ)) z = compare (-1 - (ofBigEndian bs : ℤ)) z ↔ Clear bs z) ∧
    ((-(ofBigEndian bs : ℤ) = z ↔ -1 - (ofBigEndian bs : ℤ) = z) ↔ Clear bs z) := by
  rw [compare_eq_compare, Clear]
  omega

theorem compare_shift' {bs : Bytes} {z : ℤ} :
    (compare z (-(ofBigEndian bs : ℤ)) = compare z (-1 - (ofBigEndian bs : ℤ)) ↔ Clear bs z) ∧
    ((z = -(ofBigEndian bs : ℤ) ↔ z = -1 - (ofBigEndian bs : ℤ)) ↔ Clear bs z) := by
  rw [compare_eq_compare, Clear]
  omega

theorem signedMagnitude_iff_apart (a b : BigInt) :
    (compare a.signedMagnitude b.signedMagnitude = compare a.denote b.denote ↔ Apart a b) ∧
    ((a.signedMagnitude = b.signedMagnitude ↔ a.denote = b.denote) ↔ Apart a b) := by
  cases a with
  | bigNInt bs =>
    cases b with
    | bigNInt bs' =>
      simp only [signedMagnitude, denote, Apart, iff_true]
      rw [compare_eq_compare]
      omega
    | int z => exact compare_shift
    | bigUInt bs' => exact compare_shift
  | int z =>
    cases b with
    | bigNInt bs => exact compare_shift'
    | int z' => simp [signedMagnitude, denote, Apart]
    | bigUInt bs => simp [signedMagnitude, denote, Apart]
  | bigUInt bs' =>
    cases b with
    | bigNInt bs => exact compare_shift'
    | int z' => simp [signedMagnitude, denote, Apart]
    | bigUInt bs => simp [signedMagnitude, denote, Apart]

/-- `cmp` compares the integers that are meant, and `==` says whether they are equal, exactly where the two are
apart. -/
theorem cmp_iff_apart {a b : BigInt} (ha : a.InRange) (hb : b.InRange) :
    (a.cmp b = compare a.denote b.denote ↔ Apart a b) ∧ ((a.cmp b = .eq ↔ a.denote = b.denote) ↔ Apart a b) := by
  have happart := signedMagnitude_iff_apart a b
  have hcmp := cmp_eq_compare ha hb
  refine ⟨hcmp ▸ happart.1, ?_⟩
  rw [hcmp, Int.compare_eq_eq]
  exact happart.2

/-- `-1` as a bignum and as an integer: the one counts as zero. -/
theorem cmp_not_denote : ¬ ∀ a b : BigInt, a.InRange → b.InRange →
    a.cmp b = compare a.denote b.denote ∧ (a.cmp b = .eq ↔ a.denote = b.denote) := by
  intro hclaim
  have hcmp := (hclaim (bigNInt [0]) (int (-1)) trivial (by unfold InRange; omega)).1
  exact absurd hcmp (by decide)

theorem cmp_iff_apart_zero : ((bigNInt [0]).cmp (int 0) = compare (bigNInt [0]).denote (int 0).denote ↔
      Apart (bigNInt [0]) (int 0)) ∧
    (((bigNInt [0]).cmp (int 0) = .eq ↔ (bigNInt [0]).denote = (int 0).denote) ↔ Apart (bigNInt [0]) (int 0)) :=
  cmp_iff_apart trivial (by unfold InRange; omega)

end BigInt
end Pallas
