import Pallas.Flat.RoundTrip

/-!
# Where the decoder panics

The readers that go through `bit` and `bits8` look at the end of the buffer first. Three things are left to the
language: `bool` indexes the buffer without a look, a field of no bits is shifted by the whole width of a byte, and a
word goes on shifting for as long as the continuation bit is set. `Kind.Safe` says for each operation where it starts
clear of these; a sequence of operations returns values and errors only exactly if each of them starts so.
-/

namespace Pallas.Flat
open Bits Decoder

/-! ### Readers that never panic -/

/-- What the decoder has left to read. -/
abbrev left (d : Decoder) : ℕ := d.rest.length

theorem bit_cases {d : Decoder} (hd : d.Valid) :
    (∃ b t, d.rest = b :: t ∧ bit d = (.ok b, d.advance 1)) ∨
      (d.rest = [] ∧ bit d = (.error (.error .endOfBuffer), d)) := by
  cases h : d.rest with
  | nil => exact .inr ⟨rfl, bit_nil h hd.usedBits_lt⟩
  | cons b t => exact .inl ⟨b, t, rfl, bit_cons h hd.usedBits_lt⟩

theorem left_advance (d : Decoder) (n : ℕ) : left (d.advance n) = left d - n := by
  rw [left, rest_advance, List.length_drop]

theorem total_bit : Proc.Total Valid left bit := .of_runs fun d hd => by
  rcases bit_cases hd with ⟨b, t, hrest, hread⟩ | ⟨hrest, hread⟩
  · have hleft : 1 ≤ left d := by rw [left, hrest]; exact Nat.succ_pos _
    rw [hread, left_advance]
    exact ⟨hd.advance hleft, Nat.sub_le _ _, nofun⟩
  · rw [hread]
    exact ⟨hd, le_rfl, fun f hf => ⟨_, (Except.error.inj hf).symm⟩⟩

theorem total_zero : Proc.Total Valid left zero := total_bit.bind fun _ => .pure _

theorem bits8_cases {d : Decoder} (hd : d.Valid) {n : ℕ} (hn : n ≠ 0) :
    (∃ v, n ≤ left d ∧ v < 2 ^ n ∧ d.rest = ofNat n v ++ d.rest.drop n ∧
      bits8 n d = (.ok (UInt8.ofNat v), d.advance n)) ∨
      ∃ e, (8 < n ∨ left d < n) ∧ bits8 n d = (.error (.error e), d) := by
  rcases Nat.lt_or_ge 8 n with hbig | hn8
  · exact .inr ⟨.incorrectNumBits, .inl hbig, by rw [bits8, if_pos hbig]; rfl⟩
  rcases Nat.lt_or_ge (left d) n with hshort | hleft
  · exact .inr ⟨_, .inr hshort, bits8_short hn8 hshort⟩
  · obtain ⟨v, hv, hw⟩ := exists_ofNat (d.rest.take n)
    rw [List.length_take, Nat.min_eq_left hleft] at hv hw
    have hrest : d.rest = ofNat n v ++ d.rest.drop n := by rw [← hw, List.take_append_drop]
    exact .inl ⟨v, hleft, hv, hrest, bits8_ok hrest hv (Nat.pos_of_ne_zero hn) hn8 hd.usedBits_lt⟩

theorem total_bits8 {n : ℕ} (hn : n ≠ 0) : Proc.Total Valid left (bits8 n) := .of_runs fun d hd => by
  rcases bits8_cases hd hn with ⟨v, hleft, -, -, hread⟩ | ⟨e, -, hread⟩
  · rw [hread, left_advance]
    exact ⟨hd.advance hleft, Nat.sub_le _ _, nofun⟩
  · rw [hread]
    exact ⟨hd, le_rfl, fun f hf => ⟨_, (Except.error.inj hf).symm⟩⟩

/-- A field of no bits is shifted out of its byte, or read behind the end of the buffer. -/
theorem bits8_zero {d : Decoder} (hd : d.Valid) : bits8 0 d = (.error .panic, d) := by
  rw [bits8, if_neg (by decide), Proc.bind_ok (ensureBits_ok (Nat.zero_le _) hd.offset_le), Proc.get_bind]
  cases hbyte : d.buffer[d.pos]? with
  | none =>
    have hindex : index d.pos d = (.error .panic, d) := by
      rw [index, Proc.get_bind, hbyte]
      rfl
    rw [Proc.bind_error hindex]
  | some byte =>
    rw [Proc.bind_ok (index_apply hbyte), Proc.bind_ok (shl_apply hd.usedBits_lt)]
    rfl

/-- What is left of the buffer is fuel enough for a loop that reads something in each pass. -/
theorem steady_passes {α β : Type} {body : α → DecodeM (α ⊕ β)} (hbody : ∀ a, Proc.Steady Valid left (body a))
    (hdec : ∀ a d a' d', d.Valid → body a d = (.ok (.inl a'), d') → left d' < left d) (a : α) :
    Proc.Steady Valid left (passes body a) := by
  have hrun : ∀ d : Decoder, d.Valid → (passes body a d).2.Valid ∧ left (passes body a d).2 ≤ left d ∧
      (passes body a d).1 ≠ .error .outOfFuel := fun d hd =>
    Proc.Steady.loop hbody hdec d hd (by rw [bitsLeft_eq]; exact Nat.lt_succ_self _)
  exact ⟨fun d hd => (hrun d hd).1, fun d hd => (hrun d hd).2.1, fun d hd => (hrun d hd).2.2⟩

theorem total_passes {α β : Type} {body : α → DecodeM (α ⊕ β)} (hbody : ∀ a, Proc.Total Valid left (body a))
    (hdec : ∀ a d a' d', d.Valid → body a d = (.ok (.inl a'), d') → left d' < left d) (a : α) :
    Proc.Total Valid left (passes body a) :=
  ⟨steady_passes (fun a => (hbody a).toSteady) hdec a, fun d hd =>
    Proc.Total.loop_noPanic hbody hdec hd (by rw [bitsLeft_eq]; exact Nat.lt_succ_self _)⟩

theorem bit_lt {d d' : Decoder} {b : Bool} (hd : d.Valid) (h : bit d = (.ok b, d')) : left d' < left d := by
  rcases bit_cases hd with ⟨c, t, hrest, hread⟩ | ⟨-, hread⟩
  · rw [hread] at h
    cases h
    rw [left_advance, left, hrest, List.length_cons]
    omega
  · rw [hread] at h
    cases h

theorem bits8_lt {d d' : Decoder} {n : ℕ} {x : UInt8} (hd : d.Valid) (hn : n ≠ 0) (h : bits8 n d = (.ok x, d')) :
    left d' < left d := by
  rcases bits8_cases hd hn with ⟨v, hleft, -, -, hread⟩ | ⟨e, -, hread⟩
  · rw [hread] at h
    cases h
    rw [left_advance]
    omega
  · rw [hread] at h
    cases h

/-- A sequence whose first part reads something reads something. -/
theorem bind_lt {α β : Type} {p : DecodeM α} {f : α → DecodeM β} {d d' : Decoder} {b : β} (hd : d.Valid)
    (hp : Proc.Steady Valid left p) (hf : ∀ a, Proc.Steady Valid left (f a))
    (hlt : ∀ a d', p d = (.ok a, d') → left d' < left d) (h : (p >>= f) d = (.ok b, d')) : left d' < left d := by
  obtain ⟨a, d₁, hfirst, hlast⟩ := Proc.bind_eq_ok.1 h
  have hvalid := hp.keeps d hd
  rw [hfirst] at hvalid
  have hle := (hf a).shrinks d₁ hvalid
  rw [hlast] at hle
  exact lt_of_le_of_lt hle (hlt a d₁ hfirst)

theorem total_filler : Proc.Total Valid left filler := by
  apply total_passes (fun _ => total_zero.bind fun _ => .pure _)
  intro _ d _ d' hd h
  refine bind_lt hd total_zero.toSteady (fun _ => .pure _) ?_ h
  intro b d₁ hzero
  exact bind_lt hd total_bit.toSteady (fun _ => .pure _) (fun _ _ => bit_lt hd) hzero

theorem total_bigWord : Proc.Total Valid left bigWord := by
  apply total_passes (fun _ => (total_bits8 (by decide)).bind fun _ => .pure _)
  intro _ d _ d' hd h
  exact bind_lt hd (total_bits8 (by decide)).toSteady (fun _ => .pure _) (fun _ _ => bits8_lt hd (by decide)) h

/-! ### Byte arrays -/

/-- At a byte boundary of the buffer, or at its end. -/
structure Aligned (d : Decoder) : Prop where
  usedBits_eq : d.usedBits = 0
  pos_le : d.pos ≤ d.buffer.length

theorem Aligned.valid {d : Decoder} (h : Aligned d) : d.Valid := by
  have hused := h.usedBits_eq
  have hpos := h.pos_le
  refine ⟨by omega, ?_⟩
  unfold offset
  omega

theorem Aligned.left_eq {d : Decoder} (h : Aligned d) : left d = 8 * (d.buffer.length - d.pos) := by
  have hused := h.usedBits_eq
  rw [left, length_rest, offset]
  omega

theorem takeByte_ok {d : Decoder} (h : d.pos < d.buffer.length) :
    takeByte d = (.ok d.buffer[d.pos], { d with pos := d.pos + 1 }) := by
  rw [takeByte, Proc.get_bind, Proc.bind_ok (index_apply (List.getElem?_eq_getElem h))]
  rfl

theorem blockPass_cases {d : Decoder} (hd : Aligned d) (acc : UInt8 × Bytes) :
    blockPass acc d = (.ok (.inr acc.2), d) ∨ (∃ e, blockPass acc d = (.error (.error e), d)) ∨
      ∃ acc' n, 0 < n ∧ d.pos + n ≤ d.buffer.length ∧
        blockPass acc d = (.ok (.inl acc'), { d with pos := d.pos + n }) := by
  obtain ⟨blkLen, blkArray⟩ := acc
  by_cases hzero : blkLen = 0
  · exact .inl (by rw [blockPass, if_neg (by simpa using hzero)]; rfl)
  · refine .inr ?_
    rw [blockPass, if_pos hzero]
    by_cases hroom : blkLen.toNat + 1 ≤ d.buffer.length - d.pos
    · refine .inr ?_
      have hpos : d.pos + blkLen.toNat < d.buffer.length := by omega
      have hensure : ensureBytes (blkLen.toNat + 1) d = (.ok (), d) := by
        rw [ensureBytes, Proc.get_bind, if_neg (by omega)]
        rfl
      have hslice : slice blkLen.toNat d = (.ok ((d.buffer.drop d.pos).take blkLen.toNat), d) := by
        rw [slice, Proc.get_bind, if_pos hpos.le]
        rfl
      have hnext := takeByte_ok (d := { d with pos := d.pos + blkLen.toNat }) hpos
      rw [Proc.bind_ok hensure, Proc.bind_ok hslice, Proc.modify_bind, Proc.bind_ok hnext]
      exact ⟨_, blkLen.toNat + 1, Nat.succ_pos _, hpos, rfl⟩
    · have hensure : ensureBytes (blkLen.toNat + 1) d = (.error (.error (.notEnoughBytes (blkLen.toNat + 1))), d) := by
        rw [ensureBytes, Proc.get_bind, if_pos (by have := hd.pos_le; omega)]
        rfl
      exact .inl ⟨_, Proc.bind_error hensure⟩

theorem total_blockPass (acc : UInt8 × Bytes) : Proc.Total Aligned left (blockPass acc) := .of_runs fun d hd => by
  rcases blockPass_cases hd acc with h | ⟨e, h⟩ | ⟨acc', n, hn, hle, h⟩
  · rw [h]
    exact ⟨hd, le_rfl, nofun⟩
  · rw [h]
    exact ⟨hd, le_rfl, fun f hf => ⟨_, (Except.error.inj hf).symm⟩⟩
  · have hd' : Aligned { d with pos := d.pos + n } := ⟨hd.usedBits_eq, hle⟩
    rw [h]
    refine ⟨hd', ?_, nofun⟩
    rw [hd.left_eq, hd'.left_eq]
    show 8 * (d.buffer.length - (d.pos + n)) ≤ _
    omega

theorem blockPass_lt {acc acc' : UInt8 × Bytes} {d d' : Decoder} (hd : Aligned d)
    (h : blockPass acc d = (.ok (.inl acc'), d')) :
    left d' < left d := by
  rcases blockPass_cases hd acc with hr | ⟨e, hr⟩ | ⟨acc'', n, hn, hle, hr⟩
  · rw [hr] at h
    cases h
  · rw [hr] at h
    cases h
  · have hd' : Aligned { d with pos := d.pos + n } := ⟨hd.usedBits_eq, hle⟩
    rw [hr] at h
    cases h
    rw [hd.left_eq, hd'.left_eq]
    show 8 * (d.buffer.length - (d.pos + n)) < _
    omega

theorem total_byteArray : Proc.Total Valid left byteArray := .of_runs fun d hd => by
  rw [byteArray, Proc.get_bind]
  by_cases hused : d.usedBits = 0
  · rw [if_neg (by simpa using hused)]
    have hle := hd.offset_le
    unfold offset at hle
    by_cases hroom : d.pos < d.buffer.length
    · have hensure : ensureBytes 1 d = (.ok (), d) := by
        rw [ensureBytes, Proc.get_bind, if_neg (by omega)]
        rfl
      rw [Proc.bind_ok hensure, Proc.bind_ok (takeByte_ok hroom), Decoder.passes, Proc.get_bind]
      have hd' : Aligned { d with pos := d.pos + 1 } := ⟨hused, hroom⟩
      have haligned : Aligned d := ⟨hused, hroom.le⟩
      generalize d.buffer[d.pos] = b
      have hfuel : left { d with pos := d.pos + 1 } < bitsLeft { d with pos := d.pos + 1 } + 1 := by
        rw [bitsLeft_eq]
        exact Nat.lt_succ_self _
      obtain ⟨hgood, hshrinks, hno⟩ := Proc.Steady.loop (a := (b, [])) (fun a => (total_blockPass a).toSteady)
        (fun _ _ _ _ hd h => blockPass_lt hd h) _ hd' hfuel
      have hpanic := Proc.Total.loop_noPanic (a := (b, [])) total_blockPass
        (fun _ _ _ _ hd h => blockPass_lt hd h) hd' hfuel
      refine ⟨hgood.valid, hshrinks.trans ?_, ?_⟩
      · rw [haligned.left_eq, hd'.left_eq]
        show 8 * (d.buffer.length - (d.pos + 1)) ≤ _
        omega
      · intro f hf
        cases f with
        | error e => exact ⟨e, rfl⟩
        | panic => exact absurd hf hpanic
        | outOfFuel => exact absurd hf hno
    · have hensure : ensureBytes 1 d = (.error (.error (.notEnoughBytes 1)), d) := by
        rw [ensureBytes, Proc.get_bind, if_pos (by omega)]
        rfl
      rw [Proc.bind_error hensure]
      exact ⟨hd, le_rfl, fun f hf => ⟨_, (Except.error.inj hf).symm⟩⟩
  · rw [if_pos hused]
    exact ⟨hd, le_rfl, fun f hf => ⟨_, (Except.error.inj hf).symm⟩⟩

theorem total_bytes : Proc.Total Valid left bytes := total_filler.bind fun _ => total_byteArray

theorem total_utf8 : Proc.Total Valid left Decoder.utf8 := total_bytes.bind fun s => by
  cases String.fromUTF8? ⟨s.toArray⟩ with
  | some s => exact .pure s
  | none => exact .throw _

/-! ### Words -/

/-- Ten bytes with the continuation bit set, and an eleventh byte. -/
def LongRun (d : Decoder) : Prop := 88 ≤ left d ∧ ∀ i < 10, d.rest[8 * i]? = some true

theorem steady_wordPass (acc : UInt64 × ℕ) : Proc.Steady Valid left (wordPass acc) := by
  refine (total_bits8 (by decide)).toSteady.bind fun word8 => ?_
  dsimp only
  split
  · exact .panic
  · exact .pure _

theorem wordPass_lt {acc : UInt64 × ℕ} {r : (UInt64 × ℕ) ⊕ UInt64} {d d' : Decoder} (hd : d.Valid)
    (h : wordPass acc d = (.ok r, d')) : left d' < left d := by
  refine bind_lt hd (total_bits8 (by decide)).toSteady (fun word8 => ?_) (fun _ _ => bits8_lt hd (by decide)) h
  dsimp only
  split
  · exact .panic
  · exact .pure _

theorem top_bit {v : ℕ} (hv : v < 2 ^ 8) : UInt8.ofNat v &&& 128 > 0 ↔ v.testBit 7 = true := by
  have hmask := and_mask (UInt8.ofNat v) (u := 0) (by decide)
  rw [UInt8.toNat_ofNat_of_lt' hv] at hmask
  have hzero : (128 : UInt8) >>> UInt8.ofNat 0 = 128 := by decide
  rw [hzero] at hmask
  rw [gt_iff_lt, UInt8.lt_iff_toNat_lt, hmask]
  cases v.testBit 7 <;> decide

/-- A pass of `word` reads a byte; it panics if the shift has run out, and goes on if the top bit is set. -/
theorem wordPass_cases {d : Decoder} (hd : d.Valid) (acc : UInt64) (shl : ℕ) :
    (∃ e, left d < 8 ∧ wordPass (acc, shl) d = (.error (.error e), d)) ∨
      (8 ≤ left d ∧ 64 ≤ shl ∧ (wordPass (acc, shl) d).1 = .error .panic) ∨
      (8 ≤ left d ∧ shl < 64 ∧ d.rest[0]? = some true ∧
        ∃ acc', wordPass (acc, shl) d = (.ok (.inl (acc', shl + 7)), d.advance 8)) ∨
      (8 ≤ left d ∧ shl < 64 ∧ d.rest[0]? = some false ∧ ∃ b, wordPass (acc, shl) d = (.ok (.inr b), d.advance 8)) := by
  rcases bits8_cases hd (n := 8) (by decide) with ⟨v, hleft, hv, hrest, hread⟩ | ⟨e, hshort, hread⟩
  · have hfirst : d.rest[0]? = some (v.testBit 7) := by
      rw [hrest]
      rfl
    have hpass : wordPass (acc, shl) d = _ := Proc.bind_ok hread
    refine .inr ?_
    rcases Nat.lt_or_ge shl 64 with hshl | hshl
    · refine .inr ?_
      rw [if_neg (Nat.not_le.2 hshl)] at hpass
      cases htop : v.testBit 7 with
      | true =>
        rw [htop] at hfirst
        rw [if_pos ((top_bit hv).2 htop)] at hpass
        exact .inl ⟨hleft, hshl, hfirst, _, hpass⟩
      | false =>
        rw [htop] at hfirst
        rw [if_neg (by rw [top_bit hv, htop]; decide)] at hpass
        exact .inr ⟨hleft, hshl, hfirst, _, hpass⟩
    · rw [if_pos hshl] at hpass
      exact .inl ⟨hleft, hshl, by rw [hpass]; rfl⟩
  · exact .inl ⟨e, hshort.resolve_left (by decide), Proc.bind_error hread⟩

theorem wordPass_passes {x y : (UInt64 × ℕ) × Decoder} (h : Proc.Passes wordPass x y) (hx : x.2.Valid) :
    ∃ j acc', y = ((acc', x.1.2 + 7 * j), x.2.advance (8 * j)) ∧ ∀ i < j, x.2.rest[8 * i]? = some true := by
  induction h with
  | @refl x =>
    obtain ⟨⟨acc, shl⟩, d⟩ := x
    exact ⟨0, acc, by rw [advance_zero hx.usedBits_lt]; rfl, nofun⟩
  | @step a a' d d' y hpass _ ih =>
    obtain ⟨acc, shl⟩ := a
    rcases wordPass_cases hx acc shl with ⟨e, -, hr⟩ | ⟨-, -, hr⟩ | ⟨hleft, -, hfirst, acc₁, hr⟩ | ⟨-, -, -, b, hr⟩
    · rw [hr] at hpass
      cases hpass
    · rw [hpass] at hr
      cases hr
    · rw [hr] at hpass
      cases hpass
      obtain ⟨j, acc', rfl, hrun⟩ := ih (hx.advance hleft)
      refine ⟨j + 1, acc', ?_, ?_⟩
      · rw [advance_advance, Nat.add_assoc, Nat.mul_succ, Nat.mul_succ, Nat.add_comm (7 * j), Nat.add_comm (8 * j)]
      · intro i hi
        cases i with
        | zero => exact hfirst
        | succ i =>
          have hbit := hrun i (by omega)
          rwa [rest_advance, List.getElem?_drop, show 8 + 8 * i = 8 * (i + 1) by omega] at hbit
    · rw [hr] at hpass
      cases hpass

theorem passes_wordPass {d : Decoder} (hd : d.Valid) {j : ℕ} (hj : j ≤ 10) (hleft : 8 * j ≤ left d)
    (hrun : ∀ i < j, d.rest[8 * i]? = some true) :
    ∃ acc, Proc.Passes wordPass ((0, 0), d) ((acc, 7 * j), d.advance (8 * j)) := by
  induction j with
  | zero => exact ⟨0, by rw [Nat.mul_zero, advance_zero hd.usedBits_lt]; exact .refl⟩
  | succ j ih =>
    obtain ⟨acc, hpass⟩ := ih (by omega) (by omega) fun i hi => hrun i (by omega)
    have hbit := hrun j (Nat.lt_succ_self j)
    have hroom : 8 ≤ left (d.advance (8 * j)) := by rw [left_advance]; omega
    have hfirst : (d.advance (8 * j)).rest[0]? = some true := by rwa [rest_advance, List.getElem?_drop, Nat.add_zero]
    rcases wordPass_cases (hd.advance (n := 8 * j) (by unfold left at hleft; omega)) acc (7 * j) with
      ⟨e, hshort, -⟩ | ⟨-, hshl, -⟩ | ⟨-, -, -, acc', hr⟩ | ⟨-, -, hstop, -⟩
    · omega
    · omega
    · rw [advance_advance] at hr
      exact ⟨acc', hpass.snoc hr⟩
    · rw [hfirst] at hstop
      cases hstop

theorem word_panics_iff {d : Decoder} (hd : d.Valid) : (word d).1 = .error .panic ↔ LongRun d := by
  have hfuel : left d < d.bitsLeft + 1 := by rw [bitsLeft_eq]; exact Nat.lt_succ_self _
  rw [word, Decoder.passes, Proc.get_bind, Proc.loop_panics_iff steady_wordPass
    (fun _ _ _ _ hd h => wordPass_lt hd h) hd hfuel]
  constructor
  · rintro ⟨a, t, hpass, hpanic⟩
    have ht : t.Valid := hpass.keeps steady_wordPass hd
    obtain ⟨j, acc, heq, hrun⟩ := wordPass_passes hpass hd
    obtain ⟨rfl, rfl⟩ := Prod.mk.inj heq
    rcases wordPass_cases ht acc (0 + 7 * j) with ⟨e, -, hr⟩ | ⟨hroom, hshl, -⟩ | ⟨-, -, -, acc', hr⟩ | ⟨-, -, -, b, hr⟩
    · rw [hr] at hpanic
      cases hpanic
    · replace hroom : 8 ≤ left (d.advance (8 * j)) := hroom
      rw [left_advance] at hroom
      exact ⟨by omega, fun i hi => hrun i (by omega)⟩
    · rw [hr] at hpanic
      cases hpanic
    · rw [hr] at hpanic
      cases hpanic
  · rintro ⟨hleft, hrun⟩
    obtain ⟨acc, hpass⟩ := passes_wordPass hd le_rfl (by omega) hrun
    refine ⟨_, _, hpass, ?_⟩
    have ht : (d.advance (8 * 10)).Valid := hd.advance (by unfold left at hleft; omega)
    rcases wordPass_cases ht acc (7 * 10) with ⟨e, hshort, -⟩ | ⟨-, -, hr⟩ | ⟨-, hshl, -⟩ | ⟨-, hshl, -⟩
    · rw [left_advance] at hshort
      omega
    · exact hr
    · omega
    · omega

theorem steady_word : Proc.Steady Valid left word :=
  steady_passes steady_wordPass (fun _ _ _ _ hd h => wordPass_lt hd h) (0, 0)

theorem steady_char : Proc.Steady Valid left char := by
  refine steady_word.bind fun w => ?_
  dsimp only
  split
  · exact .pure _
  · exact .throw _

theorem char_panics_iff {d : Decoder} (hd : d.Valid) : (char d).1 = .error .panic ↔ LongRun d := by
  rw [← word_panics_iff hd, char]
  rcases Proc.bind_cases word _ d with ⟨w, d', hword, hbind⟩ | ⟨e, d', hword, hbind⟩
  · rw [hbind, hword]
    dsimp only
    split
    · simp
    · simp
  · rw [hbind, hword]
    simp

/-! ### Lists -/

/-- Where a list that starts at `d` reads its items: behind each set bit. -/
inductive ItemAt {α : Type} (item : DecodeM α) : Decoder → Decoder → Prop where
  | first {d d' : Decoder} (h : bit d = (.ok true, d')) : ItemAt item d d'
  | later {d d₁ d₂ d' : Decoder} {x : α} (h : bit d = (.ok true, d₁)) (hitem : item d₁ = (.ok x, d₂))
      (rest : ItemAt item d₂ d') : ItemAt item d d'

section Lists
variable {α β : Type} {push : β → α → β} {item : DecodeM α}

theorem steady_listPass (hitem : Proc.Steady Valid left item) (xs : β) :
    Proc.Steady Valid left (listPass push item xs) := by
  refine total_bit.toSteady.bind fun b => ?_
  cases b with
  | true => exact hitem.bind fun _ => .pure _
  | false => exact .pure _

theorem listPass_lt (hitem : Proc.Steady Valid left item) {xs : β} {r : β ⊕ β} {d d' : Decoder} (hd : d.Valid)
    (h : listPass push item xs d = (.ok r, d')) : left d' < left d := by
  refine bind_lt hd total_bit.toSteady (fun b => ?_) (fun _ _ => bit_lt hd) h
  cases b with
  | true => exact hitem.bind fun _ => .pure _
  | false => exact .pure _

theorem steady_list (hitem : Proc.Steady Valid left item) (xs : β) :
    Proc.Steady Valid left (passes (listPass push item) xs) :=
  steady_passes (steady_listPass hitem) (fun _ _ _ _ hd h => listPass_lt hitem hd h) xs

theorem listPass_item {xs : β} {d d' : Decoder} (h : bit d = (.ok true, d')) :
    listPass push item xs d = (item >>= fun x => pure (.inl (push xs x))) d' := Proc.bind_ok h

theorem listPass_panics_iff {xs : β} {d : Decoder} (hd : d.Valid) : (listPass push item xs d).1 = .error .panic ↔
    ∃ d', bit d = (.ok true, d') ∧ (item d').1 = .error .panic := by
  rcases bit_cases hd with ⟨b, t, -, hread⟩ | ⟨-, hread⟩
  · cases b with
    | true =>
      rw [listPass_item hread]
      rcases Proc.bind_cases item (fun x => pure (.inl (push xs x) : β ⊕ β)) (d.advance 1) with
        ⟨x, d', hi, hb⟩ | ⟨e, d', hi, hb⟩
      · rw [hb]
        simp [hread, hi]
      · rw [hb]
        simp [hread, hi]
    | false =>
      have hstop : listPass push item xs d = (.ok (.inr xs), d.advance 1) := Proc.bind_ok hread
      simp [hstop, hread]
  · have hfail : listPass push item xs d = (.error (.error .endOfBuffer), d) := Proc.bind_error hread
    simp [hfail, hread]

theorem listPass_inl {xs ys : β} {d d' : Decoder} (h : listPass push item xs d = (.ok (.inl ys), d')) :
    ∃ d₁ x, bit d = (.ok true, d₁) ∧ item d₁ = (.ok x, d') := by
  obtain ⟨b, d₁, hbit, hrest⟩ := Proc.bind_eq_ok.1 h
  cases b with
  | true =>
    obtain ⟨x, d₂, hitem, hpure⟩ := Proc.bind_eq_ok.1 hrest
    cases hpure
    exact ⟨d₁, x, hbit, hitem⟩
  | false => cases hrest

theorem itemAt_of_passes {x y : β × Decoder} (h : Proc.Passes (listPass push item) x y) {d' : Decoder}
    (hbit : bit y.2 = (.ok true, d')) : ItemAt item x.2 d' := by
  induction h with
  | refl => exact .first hbit
  | step hpass _ ih =>
    obtain ⟨d₁, v, hfirst, hitem⟩ := listPass_inl hpass
    exact .later hfirst hitem (ih hbit)

theorem passes_of_itemAt {d d' : Decoder} (h : ItemAt item d d') (xs : β) :
    ∃ ys t, Proc.Passes (listPass push item) (xs, d) (ys, t) ∧ bit t = (.ok true, d') := by
  induction h generalizing xs with
  | first hbit => exact ⟨xs, _, .refl, hbit⟩
  | @later d d₁ d₂ d' x hbit hitem _ ih =>
    have hpass : listPass push item xs d = (.ok (.inl (push xs x)), d₂) := by
      rw [listPass_item hbit, Proc.bind_ok hitem]
      rfl
    obtain ⟨ys, t, hlater, ht⟩ := ih (push xs x)
    exact ⟨ys, t, .step hpass hlater, ht⟩

theorem list_panics_iff (hitem : Proc.Steady Valid left item) (xs : β) {d : Decoder} (hd : d.Valid) :
    (passes (listPass push item) xs d).1 = .error .panic ↔ ∃ d', ItemAt item d d' ∧ (item d').1 = .error .panic := by
  have hsteady : ∀ xs, Proc.Steady Valid left (listPass push item xs) := steady_listPass hitem
  have hfuel : left d < d.bitsLeft + 1 := by rw [bitsLeft_eq]; exact Nat.lt_succ_self _
  rw [Decoder.passes, Proc.get_bind, Proc.loop_panics_iff hsteady (fun _ _ _ _ hd h => listPass_lt hitem hd h) hd hfuel]
  constructor
  · rintro ⟨ys, t, hpass, hpanic⟩
    obtain ⟨d', hbit, hi⟩ := (listPass_panics_iff (hpass.keeps hsteady hd)).1 hpanic
    exact ⟨d', itemAt_of_passes hpass hbit, hi⟩
  · rintro ⟨d', hat, hi⟩
    obtain ⟨ys, t, hpass, hbit⟩ := @passes_of_itemAt α β push item d d' hat xs
    exact ⟨ys, t, hpass, (listPass_panics_iff (hpass.keeps hsteady hd)).2 ⟨d', hbit, hi⟩⟩

theorem ItemAt.valid (hitem : Proc.Steady Valid left item) {d d' : Decoder} (h : ItemAt item d d') (hd : d.Valid) :
    d'.Valid := by
  induction h with
  | first hbit =>
    have hvalid := total_bit.keeps _ hd
    rwa [hbit] at hvalid
  | later hbit hread _ ih =>
    have hvalid := total_bit.keeps _ hd
    rw [hbit] at hvalid
    have hvalid' := hitem.keeps _ hvalid
    rw [hread] at hvalid'
    exact ih hvalid'

end Lists

/-! ### Operations and sequences of them -/

/-- Where the operation can start without a panic: a `bool` before the end of the buffer, a field of at least one bit,
a word in front of no long run. A list asks this of each of its items. -/
def Kind.Safe : Kind → Decoder → Prop
  | .bool, d => d.pos < d.buffer.length
  | .bits n, _ => n ≠ 0
  | .word, d => ¬ LongRun d
  | .integer, d => ¬ LongRun d
  | .char, d => ¬ LongRun d
  | .string, d => ∀ d', ItemAt Decoder.char d d' → ¬ LongRun d'
  | .list item, d => ∀ d', ItemAt item.decode d d' → item.Safe d'
  | _, _ => True

theorem bool_panics_iff {d : Decoder} (hd : d.Valid) : (bool d).1 = .error .panic ↔ ¬ d.pos < d.buffer.length := by
  rw [pos_lt_iff hd.usedBits_lt, not_not]
  cases hrest : d.rest with
  | nil => simp [bool_nil hrest hd.usedBits_lt]
  | cons b t => simp [bool_cons hrest hd.usedBits_lt]

theorem steady_bool : Proc.Steady Valid left bool := by
  have hrun : ∀ d : Decoder, d.Valid →
      (bool d).2.Valid ∧ left (bool d).2 ≤ left d ∧ (bool d).1 ≠ .error .outOfFuel := by
    intro d hd
    cases hrest : d.rest with
    | nil =>
      rw [bool_nil hrest hd.usedBits_lt]
      exact ⟨hd, le_rfl, nofun⟩
    | cons b t =>
      have hleft : 1 ≤ left d := by rw [left, hrest]; exact Nat.succ_pos _
      rw [bool_cons hrest hd.usedBits_lt, left_advance]
      exact ⟨hd.advance hleft, Nat.sub_le _ _, nofun⟩
  exact ⟨fun d hd => (hrun d hd).1, fun d hd => (hrun d hd).2.1, fun d hd => (hrun d hd).2.2⟩

theorem steady_bits8 (n : ℕ) : Proc.Steady Valid left (bits8 n) := by
  rcases Nat.eq_zero_or_pos n with rfl | hpos
  · refine ⟨fun d hd => ?_, fun d hd => ?_, fun d hd => ?_⟩
    · rw [bits8_zero hd]
      exact hd
    · rw [bits8_zero hd]
    · rw [bits8_zero hd]
      nofun
  · exact (total_bits8 hpos.ne').toSteady

theorem Kind.steady (k : Kind) : Proc.Steady Valid left k.decode := by
  induction k with
  | bool => exact steady_bool
  | u8 => exact steady_bits8 8
  | bits n => exact steady_bits8 n
  | word => exact steady_word
  | integer => exact steady_word.bind fun _ => .pure _
  | bigInteger => exact total_bigWord.toSteady.bind fun _ => .pure _
  | char => exact steady_char
  | string => exact steady_list steady_char ""
  | utf8 => exact total_utf8.toSteady
  | bytes => exact total_bytes.toSteady
  | filler => exact total_filler.toSteady
  | list item ih => exact steady_list ih []

theorem Kind.panics_iff (k : Kind) {d : Decoder} (hd : d.Valid) : (k.decode d).1 = .error .panic ↔ ¬ k.Safe d := by
  induction k generalizing d with
  | bool => exact bool_panics_iff hd
  | u8 => exact iff_of_false ((total_bits8 (by decide)).noPanic d hd) (not_not.2 trivial)
  | bits n =>
    rcases Nat.eq_zero_or_pos n with rfl | hpos
    · exact iff_of_true (by rw [Kind.decode, bits8_zero hd]) (not_not.2 rfl)
    · exact iff_of_false ((total_bits8 hpos.ne').noPanic d hd) (not_not.2 hpos.ne')
  | word => exact (word_panics_iff hd).trans not_not.symm
  | integer => exact (Proc.map_panics.trans (word_panics_iff hd)).trans not_not.symm
  | bigInteger => exact iff_of_false ((total_bigWord.bind fun _ => .pure _).noPanic d hd) (not_not.2 trivial)
  | char => exact (char_panics_iff hd).trans not_not.symm
  | string =>
    rw [Kind.decode, Decoder.string, list_panics_iff steady_char "" hd, Kind.Safe]
    push Not
    exact exists_congr fun d' => and_congr_right fun hat => char_panics_iff (hat.valid steady_char hd)
  | utf8 => exact iff_of_false (total_utf8.noPanic d hd) (not_not.2 trivial)
  | bytes => exact iff_of_false (total_bytes.noPanic d hd) (not_not.2 trivial)
  | filler => exact iff_of_false (total_filler.noPanic d hd) (not_not.2 trivial)
  | list item ih =>
    rw [Kind.decode, Decoder.decodeListWith, list_panics_iff item.steady [] hd, Kind.Safe]
    push Not
    exact exists_congr fun d' => and_congr_right fun hat => ih (hat.valid item.steady hd)

/-- A value or an error of the decoder. -/
def Returns {α : Type} (r : Except (Fault DecodeError) α) : Prop := (∃ a, r = .ok a) ∨ ∃ e, r = .error (.error e)

/-- Each operation, started where the one before it ended, returns. -/
def EachReturns : List Kind → Decoder → Prop
  | [], _ => True
  | k :: ks, d => Returns (k.decode d).1 ∧ EachReturns ks (k.decode d).2

/-- Each operation, started where the one before it ended, starts safely. -/
def EachSafe : List Kind → Decoder → Prop
  | [], _ => True
  | k :: ks, d => k.Safe d ∧ EachSafe ks (k.decode d).2

theorem Kind.returns_iff (k : Kind) {d : Decoder} (hd : d.Valid) : Returns (k.decode d).1 ↔ k.Safe d := by
  have hpanics := k.panics_iff hd
  have hfuel := k.steady.fueled d hd
  cases hr : (k.decode d).1 with
  | ok a =>
    rw [hr] at hpanics
    exact iff_of_true (.inl ⟨a, rfl⟩) (by simpa using hpanics)
  | error f =>
    rw [hr] at hpanics hfuel
    cases f with
    | error e => exact iff_of_true (.inr ⟨e, rfl⟩) (by simpa using hpanics)
    | panic => exact iff_of_false (by simp [Returns]) (hpanics.1 rfl)
    | outOfFuel => exact absurd rfl hfuel

theorem eachReturns_iff_of_valid (ops : List Kind) {d : Decoder} (hd : d.Valid) :
    EachReturns ops d ↔ EachSafe ops d := by
  induction ops generalizing d with
  | nil => exact Iff.rfl
  | cons k ks ih => exact and_congr (k.returns_iff hd) (ih (k.steady.keeps d hd))

/-- Any sequence of operations on any bytes returns throughout exactly if each operation starts safely. -/
theorem eachReturns_iff (bytes : Bytes) (ops : List Kind) : EachReturns ops (.new bytes) ↔ EachSafe ops (.new bytes) :=
  eachReturns_iff_of_valid ops (.new bytes)

/-- A `bool` behind the last byte. -/
theorem not_eachReturns : ¬ ∀ (bytes : Bytes) (ops : List Kind), EachReturns ops (.new bytes) := by
  intro h
  have hreturns := (h [] [.bool]).1
  rw [Kind.decode, bool_nil rfl (by decide)] at hreturns
  simp [Returns] at hreturns

end Pallas.Flat
