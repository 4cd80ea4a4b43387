import Pallas.Lib.CborItem

/-!
# Big-endian numbers in byte strings

`Cbor.ofBigEndian` is the number a byte string stands for. Leading zeros do not change it, and between strings
without leading zeros the order of the numbers is the order by length and then by bytes (`compareMagnitudes_eq`).
-/

namespace Cbor

/-- A string without its leading zeros. -/
def stripZeros (s : Bytes) : Bytes := s.dropWhile fun b => b = 0

/-- Longer numbers are larger; numbers of one length compare by their bytes. -/
def compareMagnitudes (left right : Bytes) : Ordering :=
  match compare left.length right.length with
  | .eq => compare left right
  | ordering => ordering

theorem ofBigEndian_bigEndian {k n : ℕ} (h : n < 256 ^ k) : ofBigEndian (bigEndian k n) = n := by
  rw [ofBigEndian, foldl_bigEndian, zero_mul, zero_add, Nat.mod_eq_of_lt h]

theorem ofBigEndian_cons (b : UInt8) (s : Bytes) : ofBigEndian (b :: s) = b.toNat * 256 ^ s.length + ofBigEndian s := by
  induction s using List.reverseRecOn with
  | nil => simp [ofBigEndian]
  | append_singleton s c ih =>
    rw [← List.cons_append, ofBigEndian_append, ih, ofBigEndian_append, List.length_append,
      List.length_singleton, pow_succ]
    ring

theorem ofBigEndian_inj {s t : Bytes} (hlen : s.length = t.length) (h : ofBigEndian s = ofBigEndian t) : s = t := by
  induction s generalizing t with
  | nil => exact (List.length_eq_zero_iff.1 hlen.symm).symm
  | cons b s ih =>
    cases t with
    | nil => cases hlen
    | cons c t =>
      have hlen' : s.length = t.length := Nat.succ.inj hlen
      have hs := ofBigEndian_lt s
      have ht := ofBigEndian_lt t
      rw [ofBigEndian_cons, ofBigEndian_cons, hlen', mul_comm, mul_comm c.toNat] at h
      rw [hlen'] at hs
      have hhigh := congrArg (· / 256 ^ t.length) h
      have hpos : 0 < 256 ^ t.length := Nat.pow_pos (by omega)
      simp only [Nat.mul_add_div hpos, Nat.div_eq_of_lt hs, Nat.div_eq_of_lt ht, add_zero] at hhigh
      obtain rfl : b = c := UInt8.toNat_inj.1 hhigh
      rw [ih hlen' (Nat.add_left_cancel h)]

theorem bigEndian_ofBigEndian (s : Bytes) : bigEndian s.length (ofBigEndian s) = s :=
  ofBigEndian_inj (length_bigEndian _ _) (ofBigEndian_bigEndian (ofBigEndian_lt s))

theorem ofBigEndian_stripZeros (s : Bytes) : ofBigEndian (stripZeros s) = ofBigEndian s := by
  induction s with
  | nil => rfl
  | cons b s ih =>
    by_cases hb : b = 0
    · subst hb
      have hstrip : stripZeros (0 :: s) = stripZeros s := rfl
      have hzero : (0 : UInt8).toNat = 0 := rfl
      rw [hstrip, ih, ofBigEndian_cons, hzero, zero_mul, zero_add]
    · rw [stripZeros, List.dropWhile_cons_of_neg (by simpa using hb)]

/-- No leading zero. -/
def Stripped (s : Bytes) : Prop := s.head? ≠ some 0

theorem stripped_stripZeros (s : Bytes) : Stripped (stripZeros s) := by
  induction s with
  | nil => simp [Stripped, stripZeros]
  | cons b s ih =>
    by_cases hb : b = 0
    · subst hb
      exact ih
    · rw [stripZeros, List.dropWhile_cons_of_neg (by simpa using hb), Stripped, List.head?_cons]
      simpa using hb

theorem Stripped.le_ofBigEndian {s : Bytes} (h : Stripped s) (hs : s ≠ []) : 256 ^ (s.length - 1) ≤ ofBigEndian s := by
  cases s with
  | nil => exact absurd rfl hs
  | cons b s =>
    have hb : 1 ≤ b.toNat := by
      have hne : b ≠ 0 := by
        rintro rfl
        exact h rfl
      have hnat : b.toNat ≠ 0 := fun hzero => hne (UInt8.toNat_inj.1 hzero)
      omega
    rw [ofBigEndian_cons, List.length_cons, Nat.add_sub_cancel]
    calc 256 ^ s.length = 1 * 256 ^ s.length := (one_mul _).symm
      _ ≤ b.toNat * 256 ^ s.length := Nat.mul_le_mul_right _ hb
      _ ≤ b.toNat * 256 ^ s.length + ofBigEndian s := Nat.le_add_right _ _

theorem Stripped.eq_nil_iff {s : Bytes} (h : Stripped s) : s = [] ↔ ofBigEndian s = 0 := by
  constructor
  · rintro rfl
    rfl
  · intro hzero
    by_contra hs
    have hle := h.le_ofBigEndian hs
    have hpos : 0 < 256 ^ (s.length - 1) := Nat.pow_pos (by omega)
    omega

theorem Stripped.lt_of_length_lt {s t : Bytes} (ht : Stripped t) (h : s.length < t.length) :
    ofBigEndian s < ofBigEndian t := by
  have hne : t ≠ [] := by
    rintro rfl
    simp at h
  calc ofBigEndian s < 256 ^ s.length := ofBigEndian_lt s
    _ ≤ 256 ^ (t.length - 1) := Nat.pow_le_pow_right (by omega) (by omega)
    _ ≤ ofBigEndian t := ht.le_ofBigEndian hne

theorem compare_toNat (a b : UInt8) : compare a b = compare a.toNat b.toNat := by
  rcases lt_trichotomy a.toNat b.toNat with h | h | h
  · rw [Nat.compare_eq_lt.2 h]
    exact Std.compare_eq_lt.2 h
  · obtain rfl := UInt8.toNat_inj.1 h
    rw [Nat.compare_eq_eq.2 rfl]
    exact Std.ReflCmp.compare_self
  · rw [Nat.compare_eq_gt.2 h]
    exact Std.compare_eq_gt.2 h

theorem compare_of_length_eq {s t : Bytes} (h : s.length = t.length) :
    compare s t = compare (ofBigEndian s) (ofBigEndian t) := by
  induction s generalizing t with
  | nil =>
    obtain rfl : t = [] := List.length_eq_zero_iff.1 h.symm
    rfl
  | cons b s ih =>
    cases t with
    | nil => cases h
    | cons c t =>
      have hlen : s.length = t.length := by simpa using h
      have hs := ofBigEndian_lt s
      have ht := ofBigEndian_lt t
      rw [List.compare_cons_cons, compare_toNat, ih hlen, ofBigEndian_cons, ofBigEndian_cons]
      rw [hlen] at hs ⊢
      rcases lt_trichotomy b.toNat c.toNat with hbc | hbc | hbc
      · have hmul : (b.toNat + 1) * 256 ^ t.length ≤ c.toNat * 256 ^ t.length := Nat.mul_le_mul_right _ hbc
        rw [add_mul, one_mul] at hmul
        have hlt : b.toNat * 256 ^ t.length + ofBigEndian s < c.toNat * 256 ^ t.length + ofBigEndian t := by omega
        rw [Nat.compare_eq_lt.2 hbc, Nat.compare_eq_lt.2 hlt]
        rfl
      · rw [hbc, Nat.compare_eq_eq.2 rfl, Ordering.eq_then]
        simp only [Nat.compare_eq_ite_lt, Nat.add_lt_add_iff_left]
      · have hmul : (c.toNat + 1) * 256 ^ t.length ≤ b.toNat * 256 ^ t.length := Nat.mul_le_mul_right _ hbc
        rw [add_mul, one_mul] at hmul
        have hlt : c.toNat * 256 ^ t.length + ofBigEndian t < b.toNat * 256 ^ t.length + ofBigEndian s := by omega
        rw [Nat.compare_eq_gt.2 hbc, Nat.compare_eq_gt.2 hlt]
        rfl

/-- Without leading zeros, length and then bytes decide as the numbers do. -/
theorem compareMagnitudes_eq {s t : Bytes} (hs : Stripped s) (ht : Stripped t) :
    compareMagnitudes s t = compare (ofBigEndian s) (ofBigEndian t) := by
  unfold compareMagnitudes
  rcases lt_trichotomy s.length t.length with h | h | h
  · rw [Nat.compare_eq_lt.2 h, Nat.compare_eq_lt.2 (ht.lt_of_length_lt h)]
  · rw [Nat.compare_eq_eq.2 h]
    exact compare_of_length_eq h
  · rw [Nat.compare_eq_gt.2 h, Nat.compare_eq_gt.2 (hs.lt_of_length_lt h)]

end Cbor
