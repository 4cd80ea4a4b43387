import Pallas.Lib.Cbor

/-!
# Bit strings

Bytes as bit strings, most significant bit first. `ofNat n x` is the string of the `n` low bits of `x`; a string of
bits is cut and joined by the shifts of the numbers it stands for (`ofNat_shiftLeft_or`, `ofNat_add`).

`groups` writes a number in groups of seven bits, least significant first, with a continuation bit in front of each.
-/

/-- A string of bits. -/
abbrev Bits := List Bool

namespace Bits

/-- The `n` low bits of a number, most significant first. -/
def ofNat : ℕ → ℕ → Bits
  | 0, _ => []
  | n + 1, x => x.testBit n :: ofNat n x

@[simp] theorem length_ofNat (n x : ℕ) : (ofNat n x).length = n := by
  induction n with
  | zero => rfl
  | succ n ih => rw [ofNat, List.length_cons, ih]

theorem getElem?_ofNat (n x i : ℕ) : (ofNat n x)[i]? = if i < n then some (x.testBit (n - 1 - i)) else none := by
  induction n generalizing i with
  | zero => simp [ofNat]
  | succ n ih =>
    cases i with
    | zero => simp [ofNat]
    | succ i =>
      rw [ofNat, List.getElem?_cons_succ, ih]
      have hi : n + 1 - 1 - (i + 1) = n - 1 - i := by omega
      simp only [Nat.succ_lt_succ_iff, hi]

theorem ofNat_congr {n x y : ℕ} (h : ∀ i < n, x.testBit i = y.testBit i) : ofNat n x = ofNat n y := by
  induction n with
  | zero => rfl
  | succ n ih => rw [ofNat, ofNat, h n (by omega), ih fun i hi => h i (by omega)]

theorem ofNat_inj {n x y : ℕ} (hx : x < 2 ^ n) (hy : y < 2 ^ n) (h : ofNat n x = ofNat n y) : x = y := by
  apply Nat.eq_of_testBit_eq
  intro i
  rcases Nat.lt_or_ge i n with hi | hi
  · have hbit := congrArg (fun w => w[n - 1 - i]?) h
    simp only [getElem?_ofNat] at hbit
    rw [if_pos (by omega), if_pos (by omega), show n - 1 - (n - 1 - i) = i by omega] at hbit
    exact Option.some.inj hbit
  · have hle : 2 ^ n ≤ 2 ^ i := Nat.pow_le_pow_right (by omega) hi
    rw [Nat.testBit_lt_two_pow (hx.trans_le hle), Nat.testBit_lt_two_pow (hy.trans_le hle)]

/-- A longer string splits at any place. -/
theorem ofNat_add (m n x : ℕ) : ofNat (m + n) x = ofNat m (x >>> n) ++ ofNat n x := by
  induction m with
  | zero => simp [ofNat]
  | succ m ih =>
    rw [Nat.succ_add, ofNat, ih, ofNat, List.cons_append, Nat.testBit_shiftRight, Nat.add_comm n m]

theorem ofNat_shiftLeft_or (m : ℕ) {n x v : ℕ} (hv : v < 2 ^ n) :
    ofNat (m + n) (x <<< n ||| v) = ofNat m x ++ ofNat n v := by
  rw [ofNat_add]
  have hhigh : (x <<< n ||| v) >>> n = x := by
    apply Nat.eq_of_testBit_eq
    intro i
    have hle : 2 ^ n ≤ 2 ^ (n + i) := Nat.pow_le_pow_right (by omega) (by omega)
    have hvi : v.testBit (n + i) = false := Nat.testBit_lt_two_pow (hv.trans_le hle)
    simp [hvi]
  have hlow : ofNat n (x <<< n ||| v) = ofNat n v := by
    apply ofNat_congr
    intro i hi
    simp [Nat.not_le.2 hi]
  rw [hhigh, hlow]

theorem shiftLeft_or_lt {m n x v : ℕ} (hx : x < 2 ^ m) (hv : v < 2 ^ n) : x <<< n ||| v < 2 ^ (m + n) :=
  Nat.or_lt_two_pow (Nat.shiftLeft_lt hx) (hv.trans_le (Nat.pow_le_pow_right (by omega) (by omega)))

theorem exists_ofNat (w : Bits) : ∃ v < 2 ^ w.length, w = ofNat w.length v := by
  induction w with
  | nil => exact ⟨0, by decide, rfl⟩
  | cons b w ih =>
    obtain ⟨v, hv, hw⟩ := ih
    refine ⟨b.toNat <<< w.length ||| v, ?_, ?_⟩
    · rw [List.length_cons, Nat.add_comm]
      exact shiftLeft_or_lt (by cases b <;> decide) hv
    · rw [List.length_cons, Nat.add_comm, ofNat_shiftLeft_or 1 hv, ← hw]
      cases b <;> rfl

/-! ### Bytes -/

/-- The bits of a byte string. -/
def ofBytes (s : Bytes) : Bits := s.flatMap fun b => ofNat 8 b.toNat

@[simp] theorem ofBytes_nil : ofBytes [] = [] := rfl

@[simp] theorem ofBytes_cons (b : UInt8) (s : Bytes) : ofBytes (b :: s) = ofNat 8 b.toNat ++ ofBytes s := rfl

@[simp] theorem ofBytes_append (s t : Bytes) : ofBytes (s ++ t) = ofBytes s ++ ofBytes t := List.flatMap_append

@[simp] theorem length_ofBytes (s : Bytes) : (ofBytes s).length = 8 * s.length := by
  induction s with
  | nil => rfl
  | cons b s ih =>
    rw [ofBytes_cons, List.length_append, length_ofNat, ih, List.length_cons]
    omega

theorem getElem?_ofBytes (s : Bytes) (i : ℕ) :
    (ofBytes s)[i]? = s[i / 8]?.map fun b => b.toNat.testBit (7 - i % 8) := by
  induction s generalizing i with
  | nil => simp
  | cons b s ih =>
    rw [ofBytes_cons, List.getElem?_append, length_ofNat]
    split
    · have hdiv : i / 8 = 0 := by omega
      have hmod : i % 8 = i := by omega
      rw [getElem?_ofNat, if_pos (by assumption), hdiv, hmod]
      rfl
    · have hdiv : i / 8 = (i - 8) / 8 + 1 := by omega
      have hmod : i % 8 = (i - 8) % 8 := by omega
      rw [ih, hdiv, hmod, List.getElem?_cons_succ]

theorem ofBytes_take (s : Bytes) (k : ℕ) : ofBytes (s.take k) = (ofBytes s).take (8 * k) := by
  induction s generalizing k with
  | nil => simp
  | cons b s ih =>
    cases k with
    | zero => rfl
    | succ k =>
      have hk : 8 * (k + 1) = (ofNat 8 b.toNat).length + 8 * k := by rw [length_ofNat]; omega
      rw [List.take_succ_cons, ofBytes_cons, ofBytes_cons, ih, hk, List.take_length_add_append]

theorem ofBytes_drop (s : Bytes) (k : ℕ) : ofBytes (s.drop k) = (ofBytes s).drop (8 * k) := by
  induction s generalizing k with
  | nil => simp
  | cons b s ih =>
    cases k with
    | zero => rfl
    | succ k =>
      have hk : 8 * (k + 1) = (ofNat 8 b.toNat).length + 8 * k := by rw [length_ofNat]; omega
      rw [List.drop_succ_cons, ofBytes_cons, ih, hk, List.drop_length_add_append]

theorem ofBytes_inj {s t : Bytes} (h : ofBytes s = ofBytes t) : s = t := by
  induction s generalizing t with
  | nil =>
    have hlen := congrArg List.length h
    rw [length_ofBytes, length_ofBytes] at hlen
    exact (List.length_eq_zero_iff.1 (by simpa using hlen.symm)).symm
  | cons b s ih =>
    cases t with
    | nil => simp [ofNat] at h
    | cons c t =>
      rw [ofBytes_cons, ofBytes_cons] at h
      obtain ⟨hb, hs⟩ := List.append_inj h (by simp)
      rw [UInt8.toNat_inj.1 (ofNat_inj b.toNat_lt c.toNat_lt hb), ih hs]

theorem eq_append_of_ofBytes {s w : Bytes} {t : Bits} (h : ofBytes s = ofBytes w ++ t) :
    s = w ++ s.drop w.length ∧ t = ofBytes (s.drop w.length) := by
  have hw : s.take w.length = w := by
    apply ofBytes_inj
    rw [ofBytes_take, h, ← length_ofBytes, List.take_left]
  refine ⟨?_, ?_⟩
  · conv_lhs => rw [← List.take_append_drop w.length s, hw]
  · rw [ofBytes_drop, h, ← length_ofBytes, List.drop_left]

/-! ### Groups of seven bits -/

/-- A number in groups of seven bits, the least significant first; every group but the last has its top bit set. -/
def groups (d : ℕ) : Bytes :=
  if d >>> 7 = 0 then [UInt8.ofNat (d &&& 127)] else UInt8.ofNat (d &&& 127 ||| 128) :: groups (d >>> 7)
termination_by d
decreasing_by
  rw [Nat.shiftRight_eq_div_pow] at *
  omega

theorem groups_of_eq {d : ℕ} (h : d >>> 7 = 0) : groups d = [UInt8.ofNat (d &&& 127)] := by
  rw [groups, if_pos h]

theorem groups_of_ne {d : ℕ} (h : d >>> 7 ≠ 0) : groups d = UInt8.ofNat (d &&& 127 ||| 128) :: groups (d >>> 7) := by
  rw [groups, if_neg h]

theorem and_127_lt (d : ℕ) : d &&& 127 < 128 := by
  rw [show (127 : ℕ) = 2 ^ 7 - 1 from rfl, Nat.and_two_pow_sub_one_eq_mod]
  omega

/-- A group and what is above it make up the number. -/
theorem and_127_or (d : ℕ) : d &&& 127 ||| d >>> 7 <<< 7 = d := by
  apply Nat.eq_of_testBit_eq
  intro i
  rw [show (127 : ℕ) = 2 ^ 7 - 1 from rfl, Nat.and_two_pow_sub_one_eq_mod]
  simp only [Nat.testBit_or, Nat.testBit_mod_two_pow, Nat.testBit_shiftLeft, Nat.testBit_shiftRight]
  rcases Nat.lt_or_ge i 7 with hi | hi
  · simp [hi]
  · simp [hi, Nat.not_lt.2 hi]

end Bits
