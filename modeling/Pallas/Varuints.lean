import Pallas.AddressBytes
import Pallas.Lib.Base128
import Pallas.Lib.Outcome

/-!
# Reading varuints (`pallas-addresses/src/varuint.rs`)

One loop reads a varuint for both modes. The strict mode refuses a value above `u64::MAX`, and bytes that are not those
`write` gives for the value; so three strict reads and nothing left is the image of `to_vec` (`parseStrict_iff`). The other
mode takes a value above `u64::MAX` for `u64::MAX`, but ends the read at the byte where it saw this, so that the bytes of the
varuint that follow are read as the next one (`parse_runs_iff`).
-/

namespace Pallas
open Base128

/-! ### The loop -/

namespace Varuint

inductive Error where
  | varUintOverflow
  | unexpectedEof
  deriving DecidableEq

inductive StrictError where
  | varUintOverflow
  | unexpectedEof
  | nonCanonical
  deriving DecidableEq

inductive ReadModeError where
  | legacy (e : Error)
  | strict (e : StrictError)
  deriving DecidableEq

/-- How a pass of the loop ends: with another one, or with the call. -/
inductive Pass where
  | again (output : BitVec 128)
  | done (r : Outcome ReadModeError UInt64)

/-- `output = (output << 7) | (byte & 0x7F) as u128`. -/
def shiftIn (output : BitVec 128) (byte : UInt8) : BitVec 128 := output <<< 7 ||| (byte &&& 0x7F).toBitVec.setWidth 128

/-- One pass of the loop of `read_inner`, after the byte was read: `consumed` is the slice from the start up to it. -/
def readPass (strict : Bool) (consumed : Bytes) (output : BitVec 128) (byte : UInt8) : Pass :=
  let output := shiftIn output byte
  if output > BitVec.setWidth 128 (BitVec.allOnes 64) then
    if strict then .done (.err (.strict .varUintOverflow)) else .done (.ok (UInt64.ofBitVec (BitVec.allOnes 64)))
  else if byte &&& 0x80 = 0 then
    let output := UInt64.ofBitVec (output.setWidth 64)
    if strict ∧ consumed ≠ varuintWrite output then .done (.err (.strict .nonCanonical)) else .done (.ok output)
  else .again output

/-- `read_inner`: the bytes read since the start, the number so far, and the bytes that the cursor is in front of. -/
def readInner (strict : Bool) (consumed : Bytes) (output : BitVec 128) : Bytes → Outcome ReadModeError (UInt64 × Bytes)
  | [] => .err (if strict then .strict .unexpectedEof else .legacy .unexpectedEof)
  | byte :: rest =>
    match readPass strict (consumed ++ [byte]) output byte with
    | .again output => readInner strict (consumed ++ [byte]) output rest
    | .done r => r >>= fun n => .ok (n, rest)

def read (cursor : Bytes) : Outcome Error (UInt64 × Bytes) :=
  match readInner false [] 0 cursor with
  | .ok r => .ok r
  | .err (.legacy e) => .err e
  | .err (.strict .varUintOverflow) => .err .varUintOverflow
  | .err (.strict .unexpectedEof) => .err .unexpectedEof
  | .err (.strict .nonCanonical) => .panic
  | .panic => .panic

def readStrict (cursor : Bytes) : Outcome StrictError (UInt64 × Bytes) :=
  match readInner true [] 0 cursor with
  | .ok r => .ok r
  | .err (.legacy .varUintOverflow) => .err .varUintOverflow
  | .err (.legacy .unexpectedEof) => .err .unexpectedEof
  | .err (.strict e) => .err e
  | .panic => .panic

/-- The head of the loop, in a read of these bytes, with this number so far. -/
inductive LoopHead (strict : Bool) : Bytes → BitVec 128 → Prop
  | start : LoopHead strict [] 0
  | again {consumed : Bytes} {output output' : BitVec 128} {byte : UInt8} : LoopHead strict consumed output →
      readPass strict (consumed ++ [byte]) output byte = .again output' → LoopHead strict (consumed ++ [byte]) output'

end Varuint

inductive PointerStrictError where
  | varUintError (e : Varuint.StrictError)
  | trailingBytes
  deriving DecidableEq

/-- `varuint::read_strict(&mut cursor).map_err(PointerStrictError::VarUintError)`. -/
def readComponent (cursor : Bytes) : Outcome PointerStrictError (UInt64 × Bytes) :=
  match Varuint.readStrict cursor with
  | .ok r => .ok r
  | .err e => .err (.varUintError e)
  | .panic => .panic

def Pointer.parseStrict (bytes : Bytes) : Outcome PointerStrictError Pointer := do
  let (a, cursor) ← readComponent bytes
  let (b, cursor) ← readComponent cursor
  let (c, cursor) ← readComponent cursor
  if bytes.length - cursor.length ≠ bytes.length then .err .trailingBytes else .ok ⟨a, b, c⟩

/-- `Pointer::parse`, with the error that `Pointer.parse` leaves out. -/
def Pointer.parseLegacy (bytes : Bytes) : Outcome Varuint.Error Pointer := do
  let (a, cursor) ← Varuint.read bytes
  let (b, cursor) ← Varuint.read cursor
  let (c, _) ← Varuint.read cursor
  .ok ⟨a, b, c⟩

/-! ### The accumulator -/

namespace Varuint
variable {strict : Bool} {consumed bs rest : Bytes} {output output' : BitVec 128} {byte : UInt8}

theorem toNat_digit (byte : UInt8) : ((byte &&& 0x7F).toBitVec.setWidth 128).toNat = byte.toNat % 128 := by
  rw [BitVec.toNat_setWidth, UInt8.toNat_toBitVec, toNat_lowBits]
  omega

/-- Below `2 ^ 64` no bit is shifted out. -/
theorem toNat_shiftLeft (h : output.toNat < 2 ^ 64) : (output <<< 7).toNat = output.toNat * 128 := by
  rw [BitVec.toNat_shiftLeft, Nat.shiftLeft_eq]
  omega

theorem toNat_shiftIn (h : output.toNat < 2 ^ 64) :
    (shiftIn output byte).toNat = output.toNat * 128 + byte.toNat % 128 := by
  have hlow : byte.toNat % 128 < 2 ^ 7 := Nat.mod_lt _ (by omega)
  rw [shiftIn, BitVec.toNat_or, toNat_shiftLeft h, toNat_digit, Nat.mul_comm]
  exact (Nat.two_pow_add_eq_or_of_lt hlow _).symm

theorem gt_max_iff : output > BitVec.setWidth 128 (BitVec.allOnes 64) ↔ 2 ^ 64 - 1 < output.toNat := by
  rw [gt_iff_lt, BitVec.lt_def]
  rfl

/-- The loop goes round again only with a number that a `u64` holds. -/
theorem readPass_again (h : readPass strict consumed output byte = .again output') :
    output' = shiftIn output byte ∧ output'.toNat < 2 ^ 64 ∧ ¬ byte.toNat < 128 := by
  simp only [readPass, gt_max_iff, highBit_clear_iff] at h
  split_ifs at h with hover hstrict hlast hbytes
  obtain rfl := Pass.again.inj h
  exact ⟨rfl, by omega, hlast⟩

theorem LoopHead.toNat_lt (h : LoopHead strict consumed output) : output.toNat < 2 ^ 64 := by
  cases h with
  | start => exact Nat.two_pow_pos 64
  | again _ hpass => exact (readPass_again hpass).2.1

theorem setWidth_toNat {n : ℕ} (h : output.toNat = n) : UInt64.ofBitVec (output.setWidth 64) = UInt64.ofNat n := by
  rw [← h]
  exact UInt64.toNat_inj.1 (by simp)

/-- The mode that is not strict, on numbers. -/
theorem readInner_eq_varuintRead (acc : ℕ) (hacc : output.toNat = acc) (hlt : acc < 2 ^ 64) :
    readInner false consumed output bs = (varuintRead acc bs).elim (.err (.legacy .unexpectedEof)) .ok := by
  induction bs generalizing consumed output acc with
  | nil => rfl
  | cons byte bs ih =>
    have hshift : (shiftIn output byte).toNat = acc * 128 + byte.toNat % 128 := by
      rw [toNat_shiftIn (by omega), hacc]
    rw [readInner, varuintRead]
    simp only [readPass, gt_max_iff, highBit_clear_iff, hshift]
    by_cases hover : 2 ^ 64 - 1 < acc * 128 + byte.toNat % 128
    · simp only [hover, if_true, if_neg Bool.false_ne_true]
      rfl
    · by_cases hlast : byte.toNat < 128
      · simp only [hover, hlast, if_true, if_false, Bool.false_eq_true, false_and, setWidth_toNat hshift]
        rfl
      · simp only [hover, hlast, if_false]
        exact ih _ hshift (by omega)

/-- `read` is `varuintRead`, which leaves its only error out. -/
theorem read_eq (bs : Bytes) : read bs = (varuintRead 0 bs).elim (.err .unexpectedEof) .ok := by
  have hinner : readInner false [] 0 bs = (varuintRead 0 bs).elim (.err (.legacy .unexpectedEof)) .ok :=
    readInner_eq_varuintRead 0 rfl (Nat.two_pow_pos 64)
  rw [read, hinner]
  cases varuintRead 0 bs <;> rfl

theorem read_eq_ok {r : UInt64 × Bytes} : read bs = .ok r ↔ varuintRead 0 bs = some r := by
  rw [read_eq]
  cases varuintRead 0 bs <;> simp

/-! ### Strict reads -/

/-- What the strict mode reads are the bytes that `write` gives. -/
theorem readInner_strict {num : UInt64} (h : readInner true consumed output bs = .ok (num, rest)) :
    ∃ used, bs = used ++ rest ∧ consumed ++ used = varuintWrite num := by
  induction bs generalizing consumed output with
  | nil => cases h
  | cons byte bs ih =>
    rw [readInner] at h
    cases hpass : readPass true (consumed ++ [byte]) output byte with
    | again output' =>
      rw [hpass] at h
      obtain ⟨used, rfl, hused⟩ := ih h
      exact ⟨byte :: used, rfl, by rw [← hused, List.append_assoc, List.singleton_append]⟩
    | done r =>
      rw [hpass] at h
      obtain ⟨n, rfl, hn⟩ := Outcome.bind_eq_ok.1 h
      obtain ⟨rfl, rfl⟩ := Prod.mk.inj (Outcome.ok.inj hn)
      simp only [readPass] at hpass
      split_ifs at hpass with hover hlast hbytes
      · cases hpass
      · cases hpass
      · obtain rfl := Outcome.ok.inj (Pass.done.inj hpass)
        exact ⟨[byte], rfl, by simpa using hbytes⟩

theorem readInner_digits {n : ℕ} (hn : n < 2 ^ 64) (bs : Bytes) :
    readInner strict consumed 0 ((varuintDigits n).reverse ++ bs) =
      readInner strict (consumed ++ (varuintDigits n).reverse) (BitVec.ofNat 128 n) bs := by
  induction n using Nat.strong_induction_on generalizing bs with
  | _ n ih =>
    rw [varuintDigits]
    split
    · next hpos =>
      have hbyte : (UInt8.ofNat (n % 128 + 128)).toNat = n % 128 + 128 := by
        rw [UInt8.toNat_ofNat']
        omega
      have hbefore : (BitVec.ofNat 128 (n / 128)).toNat = n / 128 := Nat.mod_eq_of_lt (by omega)
      have hshift : (shiftIn (BitVec.ofNat 128 (n / 128)) (UInt8.ofNat (n % 128 + 128))).toNat = n := by
        rw [toNat_shiftIn (by omega), hbefore, hbyte]
        omega
      have hafter : shiftIn (BitVec.ofNat 128 (n / 128)) (UInt8.ofNat (n % 128 + 128)) = BitVec.ofNat 128 n := by
        refine BitVec.toNat_inj.1 ?_
        rw [hshift, BitVec.toNat_ofNat, Nat.mod_eq_of_lt (by omega)]
      have hpass : readPass strict (consumed ++ (varuintDigits (n / 128)).reverse ++ [UInt8.ofNat (n % 128 + 128)])
          (BitVec.ofNat 128 (n / 128)) (UInt8.ofNat (n % 128 + 128)) = .again (BitVec.ofNat 128 n) := by
        simp only [readPass, gt_max_iff, highBit_clear_iff]
        rw [if_neg (by omega), if_neg (by omega), hafter]
      rw [List.reverse_cons, List.append_assoc,
        ih (n / 128) (by omega) (by omega), List.singleton_append, readInner, hpass,
        ← List.append_assoc]
    · next hzero =>
      obtain rfl : n = 0 := by omega
      rw [List.reverse_nil, List.nil_append, List.append_nil]
      rfl

/-- What `write` gives is read back in either mode. -/
theorem readInner_write (num : UInt64) (rest : Bytes) :
    readInner strict [] 0 (varuintWrite num ++ rest) = .ok (num, rest) := by
  have hlt := num.toNat_lt
  have hbyte : (UInt8.ofNat (num.toNat % 128)).toNat = num.toNat % 128 := by
    rw [UInt8.toNat_ofNat']
    omega
  have hbefore : (BitVec.ofNat 128 (num.toNat / 128)).toNat = num.toNat / 128 := Nat.mod_eq_of_lt (by omega)
  have hshift : (shiftIn (BitVec.ofNat 128 (num.toNat / 128)) (UInt8.ofNat (num.toNat % 128))).toNat = num.toNat := by
    rw [toNat_shiftIn (by omega), hbefore, hbyte]
    omega
  have hpass : readPass strict (varuintWrite num) (BitVec.ofNat 128 (num.toNat / 128)) (UInt8.ofNat (num.toNat % 128)) =
      .done (.ok num) := by
    simp only [readPass, gt_max_iff, highBit_clear_iff]
    rw [if_neg (by omega), if_pos (by omega), setWidth_toNat hshift, UInt64.ofNat_toNat, if_neg fun h => h.2 rfl]
  have hwrite : varuintWrite num = (varuintDigits (num.toNat / 128)).reverse ++ [UInt8.ofNat (num.toNat % 128)] := by
    rw [varuintWrite, List.reverse_cons]
  rw [hwrite] at hpass ⊢
  rw [List.append_assoc, readInner_digits (by omega), List.nil_append, List.singleton_append, readInner, hpass]
  rfl

theorem readStrict_eq_ok {num : UInt64} : readStrict bs = .ok (num, rest) ↔ bs = varuintWrite num ++ rest := by
  constructor
  · intro h
    rw [readStrict] at h
    split at h
    · next hr =>
      rw [Outcome.ok.inj h] at hr
      obtain ⟨used, rfl, hused⟩ := readInner_strict hr
      rw [← hused, List.nil_append]
    all_goals cases h
  · rintro rfl
    rw [readStrict, readInner_write]

theorem read_of_readStrict {num : UInt64} (h : readStrict bs = .ok (num, rest)) : read bs = .ok (num, rest) := by
  obtain rfl := readStrict_eq_ok.1 h
  rw [read, readInner_write]

end Varuint

/-! ### Pointers -/

theorem readComponent_eq_ok {bs rest : Bytes} {num : UInt64} :
    readComponent bs = .ok (num, rest) ↔ bs = varuintWrite num ++ rest := by
  rw [← Varuint.readStrict_eq_ok, readComponent]
  cases Varuint.readStrict bs <;> simp

/-- The strict parser accepts the image of `to_vec`, and nothing else. -/
theorem Pointer.parseStrict_eq_ok {b : Bytes} {p : Pointer} : Pointer.parseStrict b = .ok p ↔ b = p.toVec := by
  simp only [Pointer.parseStrict, Outcome.bind_eq_ok, Prod.exists, readComponent_eq_ok]
  constructor
  · rintro ⟨slot, afterSlot, rfl, txIdx, afterTxIdx, rfl, certIdx, left, rfl, h⟩
    split_ifs at h with hleft
    obtain rfl := Outcome.ok.inj h
    have hnil : left = [] := by
      rw [← List.length_eq_zero_iff]
      have hpos := varuintWrite_ne_nil slot
      simp only [List.length_append, ne_eq, Decidable.not_not] at hleft
      omega
    rw [Pointer.toVec, hnil, List.append_nil, List.append_assoc]
  · rintro rfl
    refine ⟨p.slot, _, List.append_assoc _ _ _, p.txIdx, _, rfl, p.certIdx, [], (List.append_nil _).symm, ?_⟩
    rw [if_neg fun h => h (Nat.sub_zero _)]

theorem Pointer.parseLegacy_eq_ok {b : Bytes} {p : Pointer} :
    Pointer.parseLegacy b = .ok p ↔ ∃ afterSlot afterTxIdx left, Varuint.read b = .ok (p.slot, afterSlot) ∧
      Varuint.read afterSlot = .ok (p.txIdx, afterTxIdx) ∧ Varuint.read afterTxIdx = .ok (p.certIdx, left) := by
  simp only [Pointer.parseLegacy, Outcome.bind_eq_ok, Prod.exists]
  constructor
  · rintro ⟨slot, afterSlot, hslot, txIdx, afterTxIdx, htxIdx, certIdx, left, hcertIdx, h⟩
    obtain rfl := Outcome.ok.inj h
    exact ⟨afterSlot, afterTxIdx, left, hslot, htxIdx, hcertIdx⟩
  · rintro ⟨afterSlot, afterTxIdx, left, hslot, htxIdx, hcertIdx⟩
    exact ⟨p.slot, afterSlot, hslot, p.txIdx, afterTxIdx, htxIdx, p.certIdx, left, hcertIdx, rfl⟩

/-- Strict parsing is the inverse of `to_vec`, agrees with the other mode, and never shifts a bit out of the accumulator. -/
theorem Pointer.parseStrict_iff (b : Bytes) (p : Pointer) (slot txIdx certIdx : UInt64) :
    (Pointer.parseStrict b = .ok p ↔ b = p.toVec) ∧
    (Pointer.parseStrict b = .ok p → Pointer.parseLegacy b = .ok p) ∧
    Pointer.parseStrict (Pointer.mk slot txIdx certIdx).toVec = .ok ⟨slot, txIdx, certIdx⟩ ∧
    ∀ (strict : Bool) (consumed : Bytes) (output : BitVec 128), Varuint.LoopHead strict consumed output →
      (output <<< 7).toNat = output.toNat * 2 ^ 7 := by
  refine ⟨Pointer.parseStrict_eq_ok, fun h => ?_, Pointer.parseStrict_eq_ok.2 rfl, fun strict consumed output hhead =>
    Varuint.toNat_shiftLeft hhead.toNat_lt⟩
  simp only [Pointer.parseStrict, Outcome.bind_eq_ok, Prod.exists] at h
  obtain ⟨slot, afterSlot, hslot, txIdx, afterTxIdx, htxIdx, certIdx, left, hcertIdx, h⟩ := h
  split_ifs at h
  obtain rfl := Outcome.ok.inj h
  have hread : ∀ {bs rest : Bytes} {num : UInt64}, readComponent bs = .ok (num, rest) →
      Varuint.read bs = .ok (num, rest) :=
    fun hc => Varuint.read_of_readStrict (Varuint.readStrict_eq_ok.2 (readComponent_eq_ok.1 hc))
  exact Pointer.parseLegacy_eq_ok.2 ⟨afterSlot, afterTxIdx, left, hread hslot, hread htxIdx, hread hcertIdx⟩

/-! ### Runs of bytes -/

section runs
variable {rest run first second third : Bytes} {acc : ℕ}

/-- A number as a component, `u64::MAX` where it is above that. -/
def saturated (n : ℕ) : UInt64 := UInt64.ofNat (min n (2 ^ 64 - 1))

/-- A run is read to its end where its bytes before the last are worth no more than `u64::MAX`. -/
theorem varuintRead_run (hrun : IsRun run) (h : bigValue acc run.dropLast ≤ 2 ^ 64 - 1) :
    varuintRead acc (run ++ rest) = some (saturated (bigValue acc run), rest) := by
  induction hrun generalizing acc with
  | @last byte hbyte =>
    rw [List.singleton_append, varuintRead, saturated, bigValue, List.foldl_cons, List.foldl_nil]
    split_ifs with hover
    · rw [Nat.min_eq_right (by omega)]
    · rw [Nat.min_eq_left (by omega)]
  | @more byte run hbyte hrun ih =>
    rw [List.dropLast_cons_of_ne_nil hrun.ne_nil] at h
    have hle := le_bigValue (acc * 128 + byte.toNat % 128) run.dropLast
    have hrest : bigValue (acc * 128 + byte.toNat % 128) run.dropLast ≤ 2 ^ 64 - 1 := h
    rw [List.cons_append, varuintRead, if_neg (by omega), if_neg hbyte, ih hrest]
    rfl

theorem varuintRead_cut (rest : Bytes) (hrun : IsRun run) (h : ¬ bigValue acc run.dropLast ≤ 2 ^ 64 - 1)
    (hacc : acc ≤ 2 ^ 64 - 1) :
    ∃ left, varuintRead acc (run ++ rest) = some (UInt64.ofNat (2 ^ 64 - 1), left) ∧ rest.length < left.length := by
  induction hrun generalizing acc with
  | @last byte hbyte => exact absurd hacc h
  | @more byte run hbyte hrun ih =>
    rw [List.dropLast_cons_of_ne_nil hrun.ne_nil] at h
    rw [List.cons_append, varuintRead]
    by_cases hover : acc * 128 + byte.toNat % 128 > 2 ^ 64 - 1
    · refine ⟨run ++ rest, if_pos hover, ?_⟩
      have hpos := List.length_pos_iff.2 hrun.ne_nil
      rw [List.length_append]
      omega
    · rw [if_neg hover, if_neg hbyte]
      exact ih h (by omega)

/-- The three components of a pointer are the numbers of the three runs, each read from its own run. -/
def ReadFromRuns (first second third rest : Bytes) : Prop :=
  Pointer.parseLegacy (first ++ (second ++ (third ++ rest))) =
      .ok ⟨saturated (bigValue 0 first), saturated (bigValue 0 second), saturated (bigValue 0 third)⟩ ∧
    Varuint.read (first ++ (second ++ (third ++ rest))) =
      .ok (saturated (bigValue 0 first), second ++ (third ++ rest)) ∧
    Varuint.read (second ++ (third ++ rest)) = .ok (saturated (bigValue 0 second), third ++ rest)

/-- A run is read to its end exactly where no byte before its last takes the number above `u64::MAX`. -/
theorem read_run_iff (hrun : IsRun run) :
    Varuint.read (run ++ rest) = .ok (saturated (bigValue 0 run), rest) ↔ bigValue 0 run.dropLast ≤ 2 ^ 64 - 1 := by
  rw [Varuint.read_eq_ok]
  refine ⟨fun h => ?_, varuintRead_run hrun⟩
  by_contra hcut
  obtain ⟨left, hleft, hlt⟩ := varuintRead_cut rest hrun hcut (Nat.zero_le _)
  have hsame : left = rest := congrArg Prod.snd (Option.some.inj (hleft.symm.trans h))
  rw [hsame] at hlt
  exact lt_irrefl _ hlt

theorem read_run (rest : Bytes) (hrun : IsRun run) :
    ∃ left, Varuint.read (run ++ rest) = .ok (saturated (bigValue 0 run), left) := by
  by_cases h : bigValue 0 run.dropLast ≤ 2 ^ 64 - 1
  · exact ⟨rest, (read_run_iff hrun).2 h⟩
  · obtain ⟨left, hleft, -⟩ := varuintRead_cut rest hrun h (Nat.zero_le _)
    refine ⟨left, Varuint.read_eq_ok.2 ?_⟩
    have hle := bigValue_dropLast_le 0 hrun.ne_nil
    have hover : 2 ^ 64 - 1 ≤ bigValue 0 run := by omega
    rw [hleft, saturated, Nat.min_eq_right hover]

/-- A pointer of three runs, and whatever follows, has the numbers of the runs exactly where the first and the second are
each worth no more than `u64::MAX` before their last byte. -/
theorem parse_runs_iff (hfirst : IsRun first) (hsecond : IsRun second) (hthird : IsRun third) :
    ReadFromRuns first second third rest ↔
      bigValue 0 first.dropLast ≤ 2 ^ 64 - 1 ∧ bigValue 0 second.dropLast ≤ 2 ^ 64 - 1 := by
  rw [ReadFromRuns, read_run_iff hfirst, read_run_iff hsecond]
  refine ⟨And.right, fun h => ⟨?_, h⟩⟩
  obtain ⟨left, hleft⟩ := read_run rest hthird
  exact Pointer.parseLegacy_eq_ok.2 ⟨_, _, left, (read_run_iff hfirst).2 h.1, (read_run_iff hsecond).2 h.2, hleft⟩

theorem parse_runs_iff_small : ReadFromRuns [0x81, 0x00] [0x02] [0x03] [] ↔
    bigValue 0 [0x81] ≤ 2 ^ 64 - 1 ∧ bigValue 0 [] ≤ 2 ^ 64 - 1 :=
  parse_runs_iff (.more (by decide) (.last (by decide))) (.last (by decide)) (.last (by decide))

/-- A slot of `2 ^ 71`, in eleven bytes: the last of them is read as the transaction's index, and the index as the
certificate's. -/
theorem oversized_slot_shifts :
    let slot : Bytes := [0x82, 0x80, 0x80, 0x80, 0x80, 0x80, 0x80, 0x80, 0x80, 0x80, 0x00]
    IsRun slot ∧ Pointer.parseLegacy (slot ++ [0x01] ++ [0x02]) = .ok ⟨18446744073709551615, 0, 1⟩ ∧
      ¬ ReadFromRuns slot [0x01] [0x02] [] := by
  intro slot
  have hrun : IsRun slot := by
    repeat refine .more (by decide) ?_
    exact .last (by decide)
  have hparse : Pointer.parseLegacy (slot ++ [0x01] ++ [0x02]) = .ok ⟨18446744073709551615, 0, 1⟩ := rfl
  refine ⟨hrun, hparse, fun h => ?_⟩
  have hthree := h.1
  cases hparse.symm.trans hthree

end runs

end Pallas
