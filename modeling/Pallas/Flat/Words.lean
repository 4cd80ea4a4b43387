import Pallas.Lib.Base128
import Pallas.Lib.Machine
import Pallas.Flat.Panics

/-!
# The numbers of words

`word` shifts each group to its place in a `usize` and never asks whether it fits there. A debug build panics when the shift
is as wide as the word; a release build takes it modulo the width (`wordIn` has both). So a number below `2 ^ 64` is read,
and a larger one is not refused: bits of its tenth group fall off, and the later ones land on the first again. `char` keeps
the low 32 bits of the word, and looks only at these.
-/

namespace Pallas.Flat
open Bits Decoder Base128

namespace Decoder

/-- `(word7 as usize) << shl`. -/
def shiftGroup (pr : Profile) (word7 : UInt8) (shl : ℕ) : DecodeM UInt64 :=
  if 64 ≤ shl then match pr with
    | .debug => Proc.panic
    | .release => pure (word7.toUInt64 <<< UInt64.ofNat (shl % 64))
  else pure (word7.toUInt64 <<< UInt64.ofNat shl)

/-- One pass of `word`, in either build. -/
def wordPassIn (pr : Profile) (acc : UInt64 × ℕ) : DecodeM ((UInt64 × ℕ) ⊕ UInt64) := do
  let (finalWord, shl) := acc
  let word8 ← bits8 8
  let word7 := word8 &&& 127
  let shifted ← shiftGroup pr word7 shl
  let finalWord := finalWord ||| shifted
  return if word8 &&& 128 > 0 then .inl (finalWord, shl + 7) else .inr finalWord

def wordIn (pr : Profile) : DecodeM UInt64 := passes (wordPassIn pr) (0, 0)

def charIn (pr : Profile) : DecodeM Char := do
  let character := (← wordIn pr).toUInt32
  if h : character.isValidChar then return ⟨character, h⟩ else Proc.throw (.decodeChar character)

end Decoder

/-! ### What the loop gathers -/

/-- The groups of a run or-ed together, each shifted by seven more than the last, modulo the width. -/
def gathered (acc : UInt64) (shl : ℕ) : Bytes → UInt64
  | [] => acc
  | byte :: run => gathered (acc ||| (byte &&& 127).toUInt64 <<< UInt64.ofNat (shl % 64)) (shl + 7) run

section gathered
variable {d d' : Decoder} {run : Bytes} {t : Bits} {acc w : UInt64} {shl fuel : ℕ} {pr : Profile}

theorem toNat_group {byte : UInt8} (h : byte.toNat % 128 * 2 ^ shl < 2 ^ 64) (hshl : shl < 64) :
    ((byte &&& 127).toUInt64 <<< UInt64.ofNat (shl % 64)).toNat = byte.toNat % 128 * 2 ^ shl := by
  rw [Nat.mod_eq_of_lt hshl, UInt64.toNat_shiftLeft, UInt64.toNat_ofNat_of_lt' (hshl.trans (by decide)),
    Nat.mod_eq_of_lt hshl, UInt8.toNat_toUInt64, toNat_lowBits, Nat.shiftLeft_eq, Nat.mod_eq_of_lt h]

theorem toNat_gathered (hacc : acc.toNat < 2 ^ shl) (h : acc.toNat + littleValue run * 2 ^ shl < 2 ^ 64) :
    (gathered acc shl run).toNat = acc.toNat + littleValue run * 2 ^ shl := by
  induction run generalizing acc shl with
  | nil => simp [gathered, littleValue]
  | cons byte run ih =>
    have hsplit : littleValue (byte :: run) * 2 ^ shl =
        byte.toNat % 128 * 2 ^ shl + littleValue run * 2 ^ (shl + 7) := by
      rw [littleValue, pow_add]
      ring
    rw [hsplit, ← Nat.add_assoc] at h ⊢
    have hgroup : (acc ||| (byte &&& 127).toUInt64 <<< UInt64.ofNat (shl % 64)).toNat =
        acc.toNat + byte.toNat % 128 * 2 ^ shl := by
      rcases Nat.lt_or_ge shl 64 with hshl | hshl
      · rw [UInt64.toNat_or, toNat_group (by omega) hshl, Nat.or_comm, Nat.mul_comm, Nat.add_comm]
        exact (Nat.two_pow_add_eq_or_of_lt hacc _).symm
      · -- nothing is left above the width of the word
        have hwide : 2 ^ 64 ≤ 2 ^ shl := Nat.pow_le_pow_right (by decide) hshl
        have hzero : byte.toNat % 128 = 0 := by
          by_contra hne
          have hone : 1 * 2 ^ shl ≤ byte.toNat % 128 * 2 ^ shl := Nat.mul_le_mul_right _ (Nat.pos_of_ne_zero hne)
          omega
        have hbyte : byte &&& 127 = 0 := UInt8.toNat_inj.1 (by rw [toNat_lowBits, hzero]; rfl)
        rw [hbyte, hzero, Nat.zero_mul, Nat.add_zero]
        simp
    have hlt : byte.toNat % 128 < 128 := Nat.mod_lt _ (by decide)
    have hbound : acc.toNat + byte.toNat % 128 * 2 ^ shl < 2 ^ (shl + 7) := by
      have hle : byte.toNat % 128 * 2 ^ shl ≤ 127 * 2 ^ shl := Nat.mul_le_mul_right _ (by omega)
      rw [pow_add]
      omega
    rw [gathered, ih (by rw [hgroup]; exact hbound) (by rw [hgroup]; exact h), hgroup]

/-! ### What the loop reads -/

theorem highBit_set_iff {byte : UInt8} : byte &&& 128 > 0 ↔ ¬ byte.toNat < 128 := by
  rw [← highBit_clear_iff, gt_iff_lt, UInt8.pos_iff_ne_zero]

theorem wordPassIn_byte {byte : UInt8} (acc : UInt64) (h : d.rest = ofNat 8 byte.toNat ++ t) (hused : d.usedBits < 8)
    (hfits : pr = .release ∨ shl < 64) : wordPassIn pr (acc, shl) d =
      (.ok (if byte &&& 128 > 0 then .inl (acc ||| (byte &&& 127).toUInt64 <<< UInt64.ofNat (shl % 64), shl + 7)
        else .inr (acc ||| (byte &&& 127).toUInt64 <<< UInt64.ofNat (shl % 64))), d.advance 8) := by
  have hshift : shiftGroup pr (byte &&& 127) shl = pure ((byte &&& 127).toUInt64 <<< UInt64.ofNat (shl % 64)) := by
    unfold shiftGroup
    rcases Nat.lt_or_ge shl 64 with hshl | hshl
    · rw [if_neg (Nat.not_le.2 hshl), Nat.mod_eq_of_lt hshl]
    · obtain rfl := hfits.resolve_right (Nat.not_lt.2 hshl)
      exact if_pos hshl
  rw [wordPassIn, Proc.bind_ok (byte_ok h hused)]
  dsimp only
  rw [hshift]
  rfl

theorem wordPassIn_panics {byte : UInt8} (acc : UInt64) (h : d.rest = ofNat 8 byte.toNat ++ t)
    (hused : d.usedBits < 8) (hshl : 64 ≤ shl) :
    (wordPassIn .debug (acc, shl) d).1 = .error .panic := by
  have hshift : shiftGroup .debug (byte &&& 127) shl = Proc.panic := if_pos hshl
  rw [wordPassIn, Proc.bind_ok (byte_ok h hused)]
  dsimp only
  rw [hshift]
  rfl

theorem rest_byte {byte : UInt8} (h : d.rest = ofBytes (byte :: run) ++ t) :
    d.rest = ofNat 8 byte.toNat ++ (ofBytes run ++ t) ∧ (d.advance 8).rest = ofBytes run ++ t := by
  have hrest : d.rest = ofNat 8 byte.toNat ++ (ofBytes run ++ t) := by rw [h, ofBytes_cons, List.append_assoc]
  exact ⟨hrest, by rw [rest_advance, hrest, List.drop_left' (length_ofNat _ _)]⟩

theorem left_byte {byte : UInt8} (h : d.rest = ofNat 8 byte.toNat ++ t) : left (d.advance 8) + 8 = left d := by
  have hlen := congrArg List.length h
  rw [List.length_append, length_ofNat] at hlen
  rw [left_advance]
  unfold left
  omega

theorem loop_run (hrun : IsRun run) (h : d.rest = ofBytes run ++ t) (hused : d.usedBits < 8) (hfuel : left d < fuel)
    (hfits : pr = .release ∨ shl + 7 * run.length < 71) :
    (Proc.loop (wordPassIn pr) fuel (acc, shl) d).1 = .ok (gathered acc shl run) := by
  induction hrun generalizing d acc shl fuel with
  | @last byte hbyte =>
    obtain ⟨fuel, rfl⟩ : ∃ f, fuel = f + 1 := ⟨fuel - 1, by omega⟩
    rw [List.length_singleton] at hfits
    have hshl : pr = .release ∨ shl < 64 := hfits.imp_right fun h => by omega
    have hpass := wordPassIn_byte acc (rest_byte h).1 hused hshl
    rw [if_neg (by rw [highBit_set_iff]; exact not_not_intro hbyte)] at hpass
    rw [Proc.loop_stop hpass]
    rfl
  | @more byte run hbyte hrun ih =>
    obtain ⟨fuel, rfl⟩ : ∃ f, fuel = f + 1 := ⟨fuel - 1, by omega⟩
    have hpos := List.length_pos_iff.2 hrun.ne_nil
    rw [List.length_cons] at hfits
    have hshl : pr = .release ∨ shl < 64 := hfits.imp_right fun h => by omega
    have hnext : pr = .release ∨ shl + 7 + 7 * run.length < 71 := hfits.imp_right fun h => by omega
    have hpass := wordPassIn_byte acc (rest_byte h).1 hused hshl
    rw [if_pos (highBit_set_iff.2 hbyte)] at hpass
    have hleft := left_byte (rest_byte h).1
    rw [Proc.loop_next hpass, ih (rest_byte h).2 usedBits_advance (by omega) hnext]
    rfl

theorem loop_run_panics (hrun : IsRun run) (h : d.rest = ofBytes run ++ t) (hused : d.usedBits < 8)
    (hfuel : left d < fuel)
    (hlong : 71 ≤ shl + 7 * run.length) : (Proc.loop (wordPassIn .debug) fuel (acc, shl) d).1 = .error .panic := by
  induction hrun generalizing d acc shl fuel with
  | @last byte hbyte =>
    obtain ⟨fuel, rfl⟩ : ∃ f, fuel = f + 1 := ⟨fuel - 1, by omega⟩
    rw [List.length_singleton] at hlong
    have hshl : 64 ≤ shl := by omega
    have hpass := wordPassIn_panics acc (rest_byte h).1 hused hshl
    rw [Proc.loop_error (Prod.ext hpass rfl)]
  | @more byte run hbyte hrun ih =>
    obtain ⟨fuel, rfl⟩ : ∃ f, fuel = f + 1 := ⟨fuel - 1, by omega⟩
    rw [List.length_cons] at hlong
    rcases Nat.lt_or_ge shl 64 with hshl | hshl
    · have hfits : Profile.debug = .release ∨ shl < 64 := .inr hshl
      have hpass := wordPassIn_byte acc (rest_byte h).1 hused hfits
      rw [if_pos (highBit_set_iff.2 hbyte)] at hpass
      have hleft := left_byte (rest_byte h).1
      rw [Proc.loop_next hpass]
      exact ih (rest_byte h).2 usedBits_advance (by omega) (by omega)
    · have hpass := wordPassIn_panics acc (rest_byte h).1 hused hshl
      rw [Proc.loop_error (Prod.ext hpass rfl)]

theorem run_of_loop (hd : d.Valid) (h : (Proc.loop (wordPassIn pr) fuel (acc, shl) d).1 = .ok w) :
    ∃ run t, IsRun run ∧ d.rest = ofBytes run ++ t := by
  induction fuel generalizing d acc shl with
  | zero => cases h
  | succ fuel ih =>
    rcases bits8_cases hd (n := 8) (by decide) with ⟨v, hleft, hv, hrest, hread⟩ | ⟨e, -, hread⟩
    · have hbyte : (UInt8.ofNat v).toNat = v := UInt8.toNat_ofNat_of_lt' hv
      have hrest' : d.rest = ofNat 8 (UInt8.ofNat v).toNat ++ d.rest.drop 8 := by rwa [hbyte]
      by_cases hlast : (UInt8.ofNat v).toNat < 128
      · exact ⟨[UInt8.ofNat v], d.rest.drop 8,
          .last hlast, by rw [ofBytes_cons, ofBytes_nil, List.append_nil]; exact hrest'⟩
      · by_cases hfits : pr = .release ∨ shl < 64
        · have hpass := wordPassIn_byte acc hrest' hd.usedBits_lt hfits
          rw [if_pos (highBit_set_iff.2 hlast)] at hpass
          rw [Proc.loop_next hpass] at h
          obtain ⟨run, t, hrun, ht⟩ := ih (hd.advance hleft) h
          refine ⟨UInt8.ofNat v :: run, t, .more hlast hrun, ?_⟩
          rw [ofBytes_cons, List.append_assoc, ← ht, rest_advance]
          exact hrest'
        · obtain ⟨hpr, hshl⟩ := not_or.1 hfits
          obtain rfl : pr = .debug := by
            cases pr with
            | debug => rfl
            | release => exact absurd rfl hpr
          have hpass := wordPassIn_panics acc hrest' hd.usedBits_lt (Nat.not_lt.1 hshl)
          rw [Proc.loop_error (Prod.ext hpass rfl)] at h
          cases h
    · have hpass : wordPassIn pr (acc, shl) d = (.error (.error e), d) := Proc.bind_error hread
      rw [Proc.loop_error hpass] at h
      cases h

end gathered

/-! ### Exactness -/

section exact
variable {d : Decoder} {run : Bytes} {pr : Profile}

/-- These groups are in front of the decoder, the last of them without a continuation bit. -/
def Ahead (d : Decoder) (run : Bytes) : Prop := IsRun run ∧ ∃ t, d.rest = ofBytes run ++ t

/-- What is read is the number of the groups, and a number that does not fit is an error. -/
structure ReadsNumber {α : Type} (p : DecodeM α) (val : α → ℕ) (fits : ℕ → Prop) (d : Decoder) : Prop where
  exact : ∀ a, (p d).1 = .ok a → ∃ run, Ahead d run ∧ val a = littleValue run
  refuses : ∀ run, Ahead d run → ¬ fits (littleValue run) → ∃ e, (p d).1 = .error (.error e)

theorem wordIn_run (hd : d.Valid) (h : Ahead d run) (hfits : pr = .release ∨ run.length ≤ 10) :
    (wordIn pr d).1 = .ok (gathered 0 0 run) := by
  obtain ⟨hrun, t, ht⟩ := h
  rw [wordIn, Decoder.passes, Proc.get_bind]
  exact loop_run hrun ht hd.usedBits_lt (by rw [bitsLeft_eq]; exact Nat.lt_succ_self _) (hfits.imp_right fun h => by omega)

theorem wordIn_run_panics (hd : d.Valid) (h : Ahead d run) (hlong : 10 < run.length) :
    (wordIn .debug d).1 = .error .panic := by
  obtain ⟨hrun, t, ht⟩ := h
  rw [wordIn, Decoder.passes, Proc.get_bind]
  exact loop_run_panics hrun ht hd.usedBits_lt (by rw [bitsLeft_eq]; exact Nat.lt_succ_self _) (by omega)

theorem ahead_of_wordIn (hd : d.Valid) {w : UInt64} (h : (wordIn pr d).1 = .ok w) : ∃ run, Ahead d run := by
  rw [wordIn, Decoder.passes, Proc.get_bind] at h
  obtain ⟨run, t, hrun, ht⟩ := run_of_loop hd h
  exact ⟨run, hrun, t, ht⟩

theorem gathered_fits (h : littleValue run < 2 ^ 64) : (gathered 0 0 run).toNat = littleValue run := by
  have hgathered : (gathered 0 0 run).toNat = (0 : UInt64).toNat + littleValue run * 2 ^ 0 :=
    toNat_gathered (by decide) (by simpa using h)
  simpa using hgathered

theorem wordIn_fits (hd : d.Valid) (h : Ahead d run) (hfits : littleValue run < 2 ^ 64) {w : UInt64}
    (hw : (wordIn pr d).1 = .ok w) : w.toNat = littleValue run := by
  by_cases hread : pr = .release ∨ run.length ≤ 10
  · rw [wordIn_run hd h hread] at hw
    rw [← Except.ok.inj hw, gathered_fits hfits]
  · obtain ⟨hpr, hlong⟩ := not_or.1 hread
    cases pr with
    | debug =>
      rw [wordIn_run_panics hd h (Nat.not_le.1 hlong)] at hw
      cases hw
    | release => exact absurd rfl hpr

/-- `char` looks at the low 32 bits of the word. -/
theorem charIn_of_word {w : UInt64} (h : (wordIn pr d).1 = .ok w) :
    (∃ hvalid : w.toUInt32.isValidChar, (charIn pr d).1 = .ok ⟨w.toUInt32, hvalid⟩) ∨
      ¬ w.toUInt32.isValidChar ∧ (charIn pr d).1 = .error (.error (.decodeChar w.toUInt32)) := by
  have hword : wordIn pr d = (.ok w, (wordIn pr d).2) := Prod.ext h rfl
  by_cases hvalid : w.toUInt32.isValidChar
  · refine .inl ⟨hvalid, ?_⟩
    rw [charIn, Proc.bind_ok hword]
    simp only [dif_pos hvalid]
    rfl
  · refine .inr ⟨hvalid, ?_⟩
    rw [charIn, Proc.bind_ok hword]
    simp only [dif_neg hvalid]
    rfl

theorem charIn_panics (h : (wordIn pr d).1 = .error .panic) : (charIn pr d).1 = .error .panic := by
  have hword : wordIn pr d = (.error .panic, (wordIn pr d).2) := Prod.ext h rfl
  rw [charIn, Proc.bind_error hword]

theorem wordIn_of_charIn {c : Char} (h : (charIn pr d).1 = .ok c) : ∃ w, (wordIn pr d).1 = .ok w := by
  have hchar : charIn pr d = (.ok c, (charIn pr d).2) := Prod.ext h rfl
  obtain ⟨w, d', hw, -⟩ := Proc.bind_eq_ok.1 hchar
  exact ⟨w, congrArg Prod.fst hw⟩

theorem lt_of_isValidChar {n : ℕ} (h : n.isValidChar) : n < 2 ^ 32 := by
  rcases h with h | ⟨-, h⟩
  · omega
  · omega

theorem toNat_toUInt32 {w : UInt64} (hw : w.toNat = littleValue run) : w.toUInt32.toNat = littleValue run % 2 ^ 32 := by
  rw [UInt64.toNat_toUInt32, hw]

/-- Where the number fits a word, `word` is exact. -/
theorem wordIn_exact_iff (hd : d.Valid) :
    (∀ pr, ReadsNumber (wordIn pr) UInt64.toNat (· < 2 ^ 64) d) ↔ ∀ run, Ahead d run → littleValue run < 2 ^ 64 := by
  constructor
  · intro h run hrun
    by_contra hbig
    obtain ⟨e, he⟩ := (h .release).refuses run hrun hbig
    rw [wordIn_run hd hrun (.inl rfl)] at he
    cases he
  · intro h pr
    refine ⟨fun w hw => ?_, fun run hrun hbig => absurd (h run hrun) hbig⟩
    obtain ⟨run, hrun⟩ := ahead_of_wordIn hd hw
    exact ⟨run, hrun, wordIn_fits hd hrun (h run hrun) hw⟩

/-- `word` and `char` are exact, in both builds, exactly where the number of the groups is that of a character, or fits a
word, is not that of a character in its low 32 bits, and comes in ten groups at most. -/
theorem words_exact_iff (hd : d.Valid) :
    (∀ pr, ReadsNumber (wordIn pr) UInt64.toNat (· < 2 ^ 64) d ∧ ReadsNumber (charIn pr) Char.toNat Nat.isValidChar d) ↔
      ∀ run, Ahead d run → (littleValue run).isValidChar ∨
        littleValue run < 2 ^ 64 ∧ ¬ (littleValue run % 2 ^ 32).isValidChar ∧ run.length ≤ 10 := by
  constructor
  · intro h run hrun
    have hfits := (wordIn_exact_iff hd).1 (fun pr => (h pr).1) run hrun
    refine or_iff_not_imp_left.2 fun hvalid => ⟨hfits, ?_, ?_⟩
    · obtain ⟨e, he⟩ := (h .release).2.refuses run hrun hvalid
      have hlow : (gathered 0 0 run).toUInt32.toNat = littleValue run % 2 ^ 32 := toNat_toUInt32 (gathered_fits hfits)
      have hw : (wordIn .release d).1 = .ok (gathered 0 0 run) := wordIn_run hd hrun (.inl rfl)
      rcases charIn_of_word hw with ⟨hlowValid, hok⟩ | ⟨hinvalid, -⟩
      · rw [hok] at he
        cases he
      · rwa [← hlow]
    · by_contra hlong
      obtain ⟨e, he⟩ := (h .debug).2.refuses run hrun hvalid
      rw [charIn_panics (wordIn_run_panics hd hrun (Nat.not_le.1 hlong))] at he
      cases he
  · intro h pr
    have hfits : ∀ run, Ahead d run → littleValue run < 2 ^ 64 := fun run hrun => by
      rcases h run hrun with hvalid | ⟨hfits, -, -⟩
      · exact (lt_of_isValidChar hvalid).trans (by decide)
      · exact hfits
    refine ⟨(wordIn_exact_iff hd).2 hfits pr, ?_, ?_⟩
    · intro c hc
      obtain ⟨w, hw⟩ := wordIn_of_charIn hc
      obtain ⟨run, hrun⟩ := ahead_of_wordIn hd hw
      have hvalue := toNat_toUInt32 (wordIn_fits hd hrun (hfits run hrun) hw)
      refine ⟨run, hrun, ?_⟩
      rcases charIn_of_word hw with ⟨hlowValid, hok⟩ | ⟨-, herr⟩
      · obtain rfl := Except.ok.inj (hok.symm.trans hc)
        rcases h run hrun with hvalid | ⟨-, hlow, -⟩
        · rw [Nat.mod_eq_of_lt (lt_of_isValidChar hvalid)] at hvalue
          exact hvalue
        · have hlowValid' : w.toUInt32.toNat.isValidChar := hlowValid
          rw [hvalue] at hlowValid'
          exact absurd hlowValid' hlow
      · rw [herr] at hc
        cases hc
    · intro run hrun hinvalid
      obtain ⟨-, hlow, hshort⟩ := (h run hrun).resolve_left hinvalid
      have hw : (wordIn pr d).1 = .ok (gathered 0 0 run) := wordIn_run hd hrun (.inr hshort)
      have hvalue := toNat_toUInt32 (gathered_fits (hfits run hrun))
      rcases charIn_of_word hw with ⟨hlowValid, -⟩ | ⟨-, herr⟩
      · have hlowValid' : (gathered 0 0 run).toUInt32.toNat.isValidChar := hlowValid
        rw [hvalue] at hlowValid'
        exact absurd hlowValid' hlow
      · exact ⟨_, herr⟩

end exact

theorem words_exact_iff_letter :
    (∀ pr, ReadsNumber (wordIn pr) UInt64.toNat (· < 2 ^ 64) (.new [0xc1, 0x01]) ∧
        ReadsNumber (charIn pr) Char.toNat Nat.isValidChar (.new [0xc1, 0x01])) ↔
      ∀ run, Ahead (.new [0xc1, 0x01]) run → (littleValue run).isValidChar ∨
        littleValue run < 2 ^ 64 ∧ ¬ (littleValue run % 2 ^ 32).isValidChar ∧ run.length ≤ 10 :=
  words_exact_iff (.new [0xc1, 0x01])

/-- Ten groups that stand for `2 ^ 64`: the word is zero. -/
theorem large_word_read_as_zero :
    let d : Decoder := .new [0x80, 0x80, 0x80, 0x80, 0x80, 0x80, 0x80, 0x80, 0x80, 0x02]
    (∀ pr, (wordIn pr d).1 = .ok 0) ∧ ∀ pr, ¬ ReadsNumber (wordIn pr) UInt64.toNat (· < 2 ^ 64) d := by
  intro d
  have hrun : Ahead d [0x80, 0x80, 0x80, 0x80, 0x80, 0x80, 0x80, 0x80, 0x80, 0x02] := by
    refine ⟨?_, [], rfl⟩
    repeat refine .more (by decide) ?_
    exact .last (by decide)
  have hzero : ∀ pr, (wordIn pr d).1 = .ok 0 := fun pr => wordIn_run (.new _) hrun (.inr (by decide))
  refine ⟨hzero, fun pr h => ?_⟩
  obtain ⟨e, he⟩ := h.refuses _ hrun (by decide)
  rw [hzero] at he
  cases he

end Pallas.Flat
