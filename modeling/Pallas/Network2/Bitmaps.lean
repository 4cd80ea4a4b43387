import Pallas.Lib.Machine
import Pallas.Codec.ValuesReference
import Pallas.Network2.Codecs

/-!
# Selections of transactions (`leiosfetch.rs`)

A `Bitmaps` selects transactions of an endorser block: window `w` has a bit for each of the transactions from `64 * w` on,
the first of them the most significant one. `Marks` says which set of transactions a list of windows selects, and no two
lists select the same set (`Marks.unique`). `from_indices` sets one bit after the other, `all` fills one window after the
other; what each step does to the set is enough to compare them.

`all` counts its windows in a `u16` and counts on behind the last one, so it overflows where the last window that there
is has to be filled.
-/

namespace Pallas.Network2.Leiosfetch
open Cbor

/-- The transactions that the wire format can address. -/
def addressable : ℕ := 64 * 65536

namespace Bitmaps

/-- The top bits of a window. -/
def topBits (bits : ℕ) : UInt64 := if bits = 64 then -1 else ~~~((1 <<< UInt64.ofNat (64 - bits)) - 1)

/-- The loop of `all`; `increment` is `window += 1` in the build at hand. -/
def allLoop (increment : UInt16 → Outcome Empty UInt16) (remaining : ℕ) (window : UInt16)
    (m : List (UInt16 × UInt64)) : Outcome Empty Bitmaps :=
  if 0 < remaining then
    let bits := min remaining 64
    let m := Entries.insert window (topBits bits) m
    increment window >>= fun window => allLoop increment (remaining - bits) window m
  else .ok ⟨m⟩
termination_by remaining

def all (pr : Profile) (count : ℕ) : Outcome Empty Bitmaps := allLoop (MachineInt.add pr · 1) count 0 []

/-- `*m.entry(window).or_insert(0) |= 1u64 << bit` for one index. -/
def select (m : List (UInt16 × UInt64)) (offset : ℕ) : List (UInt16 × UInt64) :=
  let window := UInt16.ofNat (offset / 64)
  let bit := 63 - offset % 64
  Entries.insert window ((m.lookup window).getD 0 ||| 1 <<< UInt64.ofNat bit) m

def fromIndices (indices : List ℕ) : Bitmaps := ⟨indices.foldl select []⟩

/-- The windows select the transactions of which `P` holds: the windows that have any, and in them their bits. -/
structure Marks (m : List (UInt16 × UInt64)) (P : ℕ → Prop) : Prop where
  sorted : Entries.Sorted m
  used : ∀ w mask, (w, mask) ∈ m → ∃ i, P i ∧ i / 64 = w.toNat
  bits : ∀ w mask, (w, mask) ∈ m → ∀ j < 64, mask.toNat.testBit (63 - j) = true ↔ P (64 * w.toNat + j)
  there : ∀ i, P i → ∃ w mask, (w, mask) ∈ m ∧ w.toNat = i / 64

/-! ### Bits of a window -/

theorem toNat_topBits {bits : ℕ} (hpos : 0 < bits) (hle : bits ≤ 64) :
    (topBits bits).toNat = 2 ^ 64 - (2 ^ (64 - bits) - 1 + 1) := by
  interval_cases bits <;> decide +kernel

theorem testBit_topBits {bits j : ℕ} (hpos : 0 < bits) (hle : bits ≤ 64) (hj : j < 64) :
    (topBits bits).toNat.testBit (63 - j) = true ↔ j < bits := by
  have hlt : 2 ^ (64 - bits) - 1 < 2 ^ 64 := by
    have hpow : 2 ^ (64 - bits) ≤ 2 ^ 64 := Nat.pow_le_pow_right (by omega) (by omega)
    have hone := Nat.one_le_two_pow (n := 64 - bits)
    omega
  rw [toNat_topBits hpos hle, Nat.testBit_two_pow_sub_succ hlt, Nat.testBit_two_pow_sub_one]
  simp
  omega

theorem testBit_setBit {mask : UInt64} {i j : ℕ} (hi : i < 64) (hj : j < 64) :
    (mask ||| 1 <<< UInt64.ofNat (63 - i)).toNat.testBit (63 - j) = true ↔
      mask.toNat.testBit (63 - j) = true ∨ j = i := by
  have hone : (1 <<< UInt64.ofNat (63 - i) : UInt64).toNat = 2 ^ (63 - i) := by
    interval_cases i <;> decide +kernel
  rw [UInt64.toNat_or, hone, Nat.testBit_or, Bool.or_eq_true, Nat.testBit_two_pow, decide_eq_true_iff]
  exact or_congr_right (by omega)

theorem eq_of_bits {a b : UInt64} (h : ∀ j < 64, a.toNat.testBit (63 - j) = true ↔ b.toNat.testBit (63 - j) = true) :
    a = b := by
  refine UInt64.toNat_inj.1 (Nat.eq_of_testBit_eq fun k => ?_)
  rcases Nat.lt_or_ge k 64 with hk | hk
  · have hbit := h (63 - k) (by omega)
    rw [show 63 - (63 - k) = k by omega] at hbit
    exact Bool.eq_iff_iff.2 hbit
  · have hle : 2 ^ 64 ≤ 2 ^ k := Nat.pow_le_pow_right (by omega) hk
    rw [Nat.testBit_lt_two_pow (a.toNat_lt.trans_le hle), Nat.testBit_lt_two_pow (b.toNat_lt.trans_le hle)]

theorem toNat_window {i : ℕ} (hi : i < addressable) : (UInt16.ofNat (i / 64)).toNat = i / 64 := by
  unfold addressable at hi
  rw [UInt16.toNat_ofNat_of_lt']
  exact Nat.div_lt_of_lt_mul hi

/-! ### Sets of transactions -/

namespace Marks
variable {m m' : List (UInt16 × UInt64)} {P Q : ℕ → Prop}

theorem congr (h : Marks m P) (hPQ : ∀ i, P i ↔ Q i) : Marks m Q := by
  obtain rfl : P = Q := funext fun i => propext (hPQ i)
  exact h

theorem empty : Marks [] fun _ => False := ⟨.nil, nofun, nofun, nofun⟩

theorem subset (h : Marks m P) (h' : Marks m' P) {e : UInt16 × UInt64} (he : e ∈ m) : e ∈ m' := by
  obtain ⟨w, mask⟩ := e
  obtain ⟨i, hi, hwindow⟩ := h.used w mask he
  obtain ⟨w', mask', he', hwindow'⟩ := h'.there i hi
  obtain rfl : w' = w := UInt16.toNat_inj.1 (hwindow'.trans hwindow)
  obtain rfl : mask = mask' :=
    eq_of_bits fun j hj => (h.bits w' mask he j hj).trans (h'.bits w' mask' he' j hj).symm
  exact he'

theorem unique (h : Marks m P) (h' : Marks m' P) : m = m' :=
  h.sorted.ext h'.sorted fun _ => ⟨h.subset h', h'.subset h⟩

/-- One more transaction. -/
theorem select (h : Marks m P) {i : ℕ} (hi : i < addressable) : Marks (select m i) fun k => P k ∨ k = i := by
  have hw := toNat_window hi
  have hmask : ∀ j < 64, ((m.lookup (UInt16.ofNat (i / 64))).getD 0).toNat.testBit (63 - j) = true ↔
      P (64 * (i / 64) + j) := by
    intro j hj
    rcases hlookup : m.lookup (UInt16.ofNat (i / 64)) with _ | mask
    · have hnone : ¬ P (64 * (i / 64) + j) := by
        intro hP
        obtain ⟨w, mask, he, hwindow⟩ := h.there _ hP
        obtain rfl : w = UInt16.ofNat (i / 64) := UInt16.toNat_inj.1 (by omega)
        rw [h.sorted.lookup_eq_some.2 he] at hlookup
        cases hlookup
      simp [hnone]
    · have hbits := h.bits _ _ (h.sorted.lookup_eq_some.1 hlookup) j hj
      rwa [hw] at hbits
  refine ⟨h.sorted.insert, fun w mask he => ?_, fun w mask he j hj => ?_, fun k hk => ?_⟩
  · rcases (Entries.mem_insert h.sorted).1 he with heq | ⟨he, -⟩
    · obtain ⟨rfl, -⟩ := Prod.mk.inj heq
      exact ⟨i, .inr rfl, hw.symm⟩
    · obtain ⟨k, hk, hwindow⟩ := h.used w mask he
      exact ⟨k, .inl hk, hwindow⟩
  · rcases (Entries.mem_insert h.sorted).1 he with heq | ⟨he, hne⟩
    · obtain ⟨rfl, rfl⟩ := Prod.mk.inj heq
      rw [testBit_setBit (Nat.mod_lt i (by omega)) hj, hmask j hj, hw]
      exact or_congr_right (by omega)
    · rw [h.bits w mask he j hj, or_iff_left]
      intro heq
      exact hne (UInt16.toNat_inj.1 (by rw [hw]; dsimp only; omega))
  · rcases hk with hk | rfl
    · obtain ⟨w, mask, he, hwindow⟩ := h.there k hk
      by_cases hsame : w = UInt16.ofNat (i / 64)
      · exact ⟨w, _, (Entries.mem_insert h.sorted).2 (.inl (by rw [hsame])), hwindow⟩
      · exact ⟨w, mask, (Entries.mem_insert h.sorted).2 (.inr ⟨he, hsame⟩), hwindow⟩
    · exact ⟨_, _, (Entries.mem_insert h.sorted).2 (.inl rfl), hw⟩

/-- The next window. -/
theorem fill {w : UInt16} {bits : ℕ} (h : Marks m (· < 64 * w.toNat)) (hpos : 0 < bits) (hle : bits ≤ 64) :
    Marks (Entries.insert w (topBits bits) m) (· < 64 * w.toNat + bits) := by
  have hbefore : ∀ w' mask, (w', mask) ∈ m → w'.toNat < w.toNat := by
    intro w' mask he
    obtain ⟨i, hi, hwindow⟩ := h.used w' mask he
    omega
  refine ⟨h.sorted.insert, fun w' mask he => ?_, fun w' mask he j hj => ?_, fun i hi => ?_⟩
  · rcases (Entries.mem_insert h.sorted).1 he with heq | ⟨he, -⟩
    · obtain ⟨rfl, -⟩ := Prod.mk.inj heq
      exact ⟨64 * w'.toNat, by omega, by omega⟩
    · obtain ⟨i, hi, hwindow⟩ := h.used w' mask he
      exact ⟨i, by omega, hwindow⟩
  · rcases (Entries.mem_insert h.sorted).1 he with heq | ⟨he, -⟩
    · obtain ⟨rfl, rfl⟩ := Prod.mk.inj heq
      rw [testBit_topBits hpos hle hj]
      omega
    · have hlt := hbefore w' mask he
      rw [h.bits w' mask he j hj]
      omega
  · by_cases hlast : i < 64 * w.toNat
    · obtain ⟨w', mask, he, hwindow⟩ := h.there i hlast
      have hlt := hbefore w' mask he
      have hne : w' ≠ w := fun heq => by rw [heq] at hlt; omega
      exact ⟨w', mask, (Entries.mem_insert h.sorted).2 (.inr ⟨he, hne⟩), hwindow⟩
    · exact ⟨w, _, (Entries.mem_insert h.sorted).2 (.inl rfl), by omega⟩

end Marks

theorem foldl_select_marks {indices : List ℕ} {m : List (UInt16 × UInt64)} {P : ℕ → Prop} (h : Marks m P)
    (hindices : ∀ i ∈ indices, i < addressable) : Marks (indices.foldl select m) fun k => P k ∨ k ∈ indices := by
  induction indices generalizing m P with
  | nil => exact h.congr fun k => by simp
  | cons i indices ih =>
    have hrest := ih (h.select (hindices i List.mem_cons_self)) fun k hk => hindices k (List.mem_cons_of_mem i hk)
    exact hrest.congr fun k => by rw [List.mem_cons, or_assoc]

/-- `from_indices` sets the bits of the indices, in any order and number. -/
theorem fromIndices_marks {indices : List ℕ} (h : ∀ i ∈ indices, i < addressable) :
    Marks (fromIndices indices).windows (· ∈ indices) :=
  (foldl_select_marks .empty h).congr fun k => by simp

/-! ### All transactions -/

section Increment
variable {increment : UInt16 → Outcome Empty UInt16} {m : List (UInt16 × UInt64)} {w : UInt16} {remaining : ℕ}

theorem allLoop_marks (hadd : ∀ w, w.toNat < 65535 → increment w = .ok (UInt16.ofNat (w.toNat + 1)))
    (h : Marks m (· < 64 * w.toNat)) (hle : 64 * w.toNat + remaining ≤ 64 * 65535) :
    ∃ b, allLoop increment remaining w m = .ok b ∧ Marks b.windows (· < 64 * w.toNat + remaining) := by
  induction remaining using Nat.strong_induction_on generalizing w m with
  | _ remaining ih =>
    rw [allLoop]
    split_ifs with hpos
    · have hfill := h.fill (by omega) (min_le_right remaining 64)
      have hnext : (UInt16.ofNat (w.toNat + 1)).toNat = w.toNat + 1 :=
        UInt16.toNat_ofNat_of_lt' (by show _ < 65536; omega)
      rw [hadd w (by omega), Outcome.ok_bind]
      rcases Nat.lt_or_ge remaining 64 with hlast | hmore
      · -- the last window is not full
        rw [min_eq_left hlast.le] at hfill ⊢
        refine ⟨_, ?_, hfill⟩
        rw [Nat.sub_self, allLoop, if_neg (by omega)]
      · rw [min_eq_right hmore] at hfill ⊢
        obtain ⟨b, hb, hmarks⟩ := ih (remaining - 64) (by omega) (w := UInt16.ofNat (w.toNat + 1))
          (hfill.congr fun k => by rw [hnext]; omega) (by omega)
        exact ⟨b, hb, hmarks.congr fun k => by rw [hnext]; omega⟩
    · exact ⟨_, rfl, h.congr fun k => by omega⟩

theorem allLoop_panic (hadd : ∀ w, w.toNat < 65535 → increment w = .ok (UInt16.ofNat (w.toNat + 1)))
    (hpanic : ∀ w, w.toNat = 65535 → increment w = .panic) (h : 64 * 65535 < 64 * w.toNat + remaining) :
    allLoop increment remaining w m = .panic := by
  induction remaining using Nat.strong_induction_on generalizing w m with
  | _ remaining ih =>
    have hlt := w.toNat_lt
    rw [allLoop, if_pos (by omega)]
    rcases Nat.lt_or_ge w.toNat 65535 with hmore | hlast
    · have hnext : (UInt16.ofNat (w.toNat + 1)).toNat = w.toNat + 1 :=
        UInt16.toNat_ofNat_of_lt' (by show _ < 65536; omega)
      rw [hadd w hmore]
      exact ih _ (by omega) (by omega)
    · rw [hpanic w (by omega)]
      rfl

end Increment

theorem add_one (pr : Profile) (w : UInt16) (h : w.toNat < 65535) :
    (MachineInt.add pr w 1 : Outcome Empty UInt16) = .ok (UInt16.ofNat (w.toNat + 1)) := by
  have hfits : MachineInt.Fits UInt16 (MachineInt.toInt w + MachineInt.toInt (1 : UInt16)) := by
    show (0 : ℤ) ≤ w.toNat + 1 ∧ (w.toNat : ℤ) + 1 ≤ 2 ^ 16 - 1
    omega
  rw [MachineInt.add, MachineInt.exact_of_fits hfits]
  show Outcome.ok (UInt16.ofNat (((w.toNat : ℤ) + 1) % 2 ^ 16).toNat) = _
  congr 2
  omega

theorem add_one_panic (w : UInt16) (h : w.toNat = 65535) :
    (MachineInt.add .debug w 1 : Outcome Empty UInt16) = .panic := by
  refine MachineInt.exact_eq_panic.2 ⟨rfl, fun hfits => ?_⟩
  have hhi : (w.toNat : ℤ) + 1 ≤ 2 ^ 16 - 1 := hfits.2
  omega

theorem all_panic {n : ℕ} (h : 64 * 65535 < n) : all .debug n = .panic :=
  allLoop_panic (add_one .debug) add_one_panic (by simpa using h)

/-- `all` is `from_indices` of the range, up to the last window but one. -/
theorem all_eq {pr : Profile} {n : ℕ} (h : n ≤ 64 * 65535) : all pr n = .ok (fromIndices (List.range n)) := by
  have hstart : Marks [] (· < 64 * (0 : UInt16).toNat) := Marks.empty.congr fun k => by simp
  have hfits : 64 * (0 : UInt16).toNat + n ≤ 64 * 65535 := by simpa using h
  obtain ⟨⟨windows⟩, hb, hmarks⟩ := allLoop_marks (add_one pr) hstart hfits
  have hrange : ∀ i ∈ List.range n, i < addressable := by
    intro i hi
    rw [List.mem_range] at hi
    unfold addressable
    omega
  have hwindows : windows = (fromIndices (List.range n)).windows :=
    (hmarks.congr fun k => by simp).unique ((fromIndices_marks hrange).congr fun k => List.mem_range)
  rw [all, hb, hwindows]

/-! ### On the wire -/

section Codec
variable {ε : Type} {m : MinicborValues ε} (hm : m.Lawful)

theorem length_windows {b : Bitmaps} (h : Entries.Sorted b.windows) : b.windows.length ≤ 65536 := by
  have hnodup : (b.windows.map fun e => e.1.toNat).Nodup := by
    have hkeys := h.nodup_keys.map (f := UInt16.toNat) fun _ _ => UInt16.toNat_inj.1
    rwa [List.map_map] at hkeys
  have hsub : (b.windows.map fun e => e.1.toNat) ⊆ List.range 65536 := by
    intro k hk
    obtain ⟨e, -, rfl⟩ := List.mem_map.1 hk
    exact List.mem_range.2 e.1.toNat_lt
  simpa using (hnodup.subperm hsub).length_le

theorem length_uint_le (n : ℕ) : (uint n).length ≤ 9 := by
  unfold uint head
  split_ifs <;> simp [length_bigEndian]

theorem length_encode {b : Bitmaps} (h : Entries.Sorted b.windows) : b.encode.length < 2 ^ 64 := by
  have hwindows : ∀ es : List (UInt16 × UInt64),
      (es.flatMap fun e => uint e.1.toNat ++ uint e.2.toNat).length ≤ 18 * es.length := by
    intro es
    induction es with
    | nil => exact le_rfl
    | cons e es ih =>
      have hkey := length_uint_le e.1.toNat
      have hvalue := length_uint_le e.2.toNat
      simp only [List.flatMap_cons, List.length_append, List.length_cons]
      omega
  have hall := hwindows b.windows
  have hlength := length_windows h
  have hparts : b.encode.length = 1 + (b.windows.flatMap fun e => uint e.1.toNat ++ uint e.2.toNat).length + 1 := by
    simp only [encode, List.length_append]
    rfl
  omega

include hm in
theorem decode_takes {b : Bitmaps} (h : Entries.Sorted b.windows) : (Bitmaps.decode m).Takes b.encode b := by
  have hentry : ∀ e ∈ b.windows, (entry m.u16 m.u64).Inverts (uint e.1.toNat ++ uint e.2.toNat) e := fun e _ =>
    (hm.u16_takes e.1).inverts.bind ((hm.u64_takes e.2).inverts.last rfl)
  have hfirst : ∀ e ∈ b.windows, Begins (uint e.1.toNat ++ uint e.2.toNat) := fun e _ =>
    (begins_head (by omega) (e.1.toNat_lt.trans (by norm_num))).append _
  have hentries := hm.mapIter_inverts_indef hentry hfirst (length_encode h)
  refine Reader.Takes.last hentries ?_
  show pure ⟨Entries.collect b.windows⟩ = pure b
  rw [Entries.collect_of_sorted h]

end Codec

/-! ### The three together -/

/-- `from_indices` selects the indices and decoding inverts encoding; `all` is `from_indices` of the range without an
overflow exactly where it does not fill the last window. -/
theorem all_fromIndices_iff {ε : Type} {m : MinicborValues ε} (hm : m.Lawful) :
    (∀ indices : List ℕ, (∀ i ∈ indices, i < addressable) → Marks (fromIndices indices).windows (· ∈ indices)) ∧
    (∀ indices indices' : List ℕ, (∀ i ∈ indices, i < addressable) → (∀ i, i ∈ indices ↔ i ∈ indices') →
      fromIndices indices = fromIndices indices') ∧
    (∀ n ≤ addressable, (∀ pr, all pr n = .ok (fromIndices (List.range n))) ↔ n ≤ 64 * 65535) ∧
    ∀ b : Bitmaps, Entries.Sorted b.windows → (Bitmaps.decode m).Takes b.encode b := by
  refine ⟨fun indices => fromIndices_marks, fun indices indices' h hsame => ?_, fun n _ => ⟨fun hall => ?_, fun h pr =>
    all_eq h⟩, fun b => decode_takes hm⟩
  · have hmarks := (fromIndices_marks h).unique
      ((fromIndices_marks fun i hi => h i ((hsame i).2 hi)).congr fun i => (hsame i).symm)
    exact congrArg Bitmaps.mk hmarks
  · by_contra hlarge
    have hpanic : all .debug n = .panic := all_panic (not_le.1 hlarge)
    cases hpanic.symm.trans (hall .debug)

/-- The first 65 transactions: a full window, and one bit of the next. -/
theorem all_fromIndices_65 : (∀ pr, all pr 65 = .ok (fromIndices (List.range 65))) ∧
    Marks (fromIndices [65, 0, 65]).windows (· ∈ [65, 0, 65]) ∧
    (Bitmaps.decode MinicborValues.reference).Takes (fromIndices [0, 65]).encode (fromIndices [0, 65]) := by
  obtain ⟨hindices, -, hall, hcodec⟩ := all_fromIndices_iff MinicborValues.reference_lawful
  exact ⟨(hall 65 (by decide)).2 (by decide), hindices _ (by decide), hcodec _ (by decide +kernel)⟩

/-- All the transactions that there can be. -/
theorem all_overflows : ¬ ∀ n ≤ addressable, ∀ pr, all pr n = .ok (fromIndices (List.range n)) := by
  intro h
  have hpanic : all .debug addressable = .panic := all_panic (by decide)
  cases hpanic.symm.trans (h addressable le_rfl .debug)

end Bitmaps
end Pallas.Network2.Leiosfetch
