import Pallas.Lib.Proc
import Pallas.Flat.Image

/-!
# The flat decoder

`Decoder` reads the values back from a buffer. Its methods are procedures on the reading position, which they keep when
they fail; an index out of the buffer and a shift of a byte by eight or more are panics, as the source leaves them to
the language. The differences of `ensure_bytes` and `ensure_bits` are taken in `ℤ`: a buffer in memory is too short
for their `isize` arithmetic to overflow.
-/

namespace Pallas.Flat

inductive DecodeError where
  | endOfBuffer
  | bufferNotByteAligned
  | incorrectNumBits
  | notEnoughBytes (requiredBytes : ℕ)
  | notEnoughBits (requiredBits : ℕ)
  | decodeUtf8
  | decodeChar (character : UInt32)
  deriving DecidableEq

structure Decoder where
  buffer : Bytes
  usedBits : ℕ
  pos : ℕ
  deriving DecidableEq

abbrev DecodeM := Proc Decoder DecodeError

/-- `ZigZag for usize` -/
def unzigzag (n : UInt64) : Int64 := (n >>> 1).toInt64 ^^^ -(n &&& 1).toInt64

/-- `ZigZag for BigUint` -/
def unzigzagBig (n : ℕ) : ℤ := Int.xor (n >>> 1 : ℕ) (-(n &&& 1 : ℕ))

namespace Decoder

def new (bytes : Bytes) : Decoder := { buffer := bytes, pos := 0, usedBits := 0 }

/-- `self.buffer[i]` -/
def index (i : ℕ) : DecodeM UInt8 := do
  let d ← Proc.get
  match d.buffer[i]? with
  | some byte => pure byte
  | none => Proc.panic

/-- `x << k` on `u8`, with its overflow check -/
def shl (x : UInt8) (k : ℕ) : DecodeM UInt8 := if k < 8 then pure (x <<< UInt8.ofNat k) else Proc.panic

/-- `x >> k` on `u8`, with its overflow check -/
def shr (x : UInt8) (k : ℕ) : DecodeM UInt8 := if k < 8 then pure (x >>> UInt8.ofNat k) else Proc.panic

def incrementBufferByBit (d : Decoder) : Decoder :=
  if d.usedBits = 7 then { d with pos := d.pos + 1, usedBits := 0 } else { d with usedBits := d.usedBits + 1 }

def dropBits (numBits : ℕ) (d : Decoder) : Decoder :=
  let allUsedBits := numBits + d.usedBits
  { d with usedBits := allUsedBits % 8, pos := d.pos + allUsedBits / 8 }

def ensureBytes (requiredBytes : ℕ) : DecodeM Unit := do
  let d ← Proc.get
  if (requiredBytes : ℤ) > d.buffer.length - d.pos then Proc.throw (.notEnoughBytes requiredBytes) else pure ()

def ensureBits (requiredBits : ℕ) : DecodeM Unit := do
  let d ← Proc.get
  if (requiredBits : ℤ) > (d.buffer.length - d.pos) * 8 - d.usedBits then Proc.throw (.notEnoughBits requiredBits)
  else pure ()

/-- The bit at the position, which `bool` reads without a look at the end of the buffer. -/
def bool : DecodeM Bool := do
  let d ← Proc.get
  let currentByte ← index d.pos
  let mask ← shr 128 d.usedBits
  Proc.modify incrementBufferByBit
  return currentByte &&& mask != 0

def bit : DecodeM Bool := do
  let d ← Proc.get
  if d.pos ≥ d.buffer.length then Proc.throw .endOfBuffer
  else
    let currentByte ← index d.pos
    let mask ← shr 128 d.usedBits
    Proc.modify incrementBufferByBit
    return currentByte &&& mask > 0

def zero : DecodeM Bool := do
  let currentBit ← bit
  return !currentBit

def bits8 (numBits : ℕ) : DecodeM UInt8 :=
  if numBits > 8 then Proc.throw .incorrectNumBits
  else do
    ensureBits numBits
    let d ← Proc.get
    let unusedBits := 8 - d.usedBits
    let leadingZeroes := 8 - numBits
    let r ← shr (← shl (← index d.pos) d.usedBits) leadingZeroes
    let x ←
      if numBits > unusedBits then do
        let next ← shr (← index (d.pos + 1)) (unusedBits + leadingZeroes)
        pure (r ||| next)
      else pure r
    Proc.modify (dropBits numBits)
    return x

def u8 : DecodeM UInt8 := bits8 8

def bitsLeft (d : Decoder) : ℕ := 8 * d.buffer.length - (8 * d.pos + d.usedBits)

/-- A loop of the source. Each of its passes reads something, so the bits that are left are fuel enough. -/
def passes {α β : Type} (body : α → DecodeM (α ⊕ β)) (a : α) : DecodeM β := do
  let d ← Proc.get
  Proc.loop body (d.bitsLeft + 1) a

def fillerPass : DecodeM (Unit ⊕ Unit) := do return if ← zero then .inl () else .inr ()

def filler : DecodeM Unit := passes (fun _ => fillerPass) ()

/-- One pass of `word`: a shift by the width of `usize` or more is a panic. -/
def wordPass (acc : UInt64 × ℕ) : DecodeM ((UInt64 × ℕ) ⊕ UInt64) := do
  let (finalWord, shl) := acc
  let word8 ← bits8 8
  let word7 := word8 &&& 127
  if 64 ≤ shl then Proc.panic
  else
    let finalWord := finalWord ||| word7.toUInt64 <<< UInt64.ofNat shl
    return if word8 &&& 128 > 0 then .inl (finalWord, shl + 7) else .inr finalWord

def word : DecodeM UInt64 := passes wordPass (0, 0)

/-- One pass of `big_word`. Its shift counts bits of the buffer in a `u128`, which has room for them. -/
def bigWordPass (acc : ℕ × ℕ) : DecodeM ((ℕ × ℕ) ⊕ ℕ) := do
  let (finalWord, shl) := acc
  let word8 ← bits8 8
  let word7 := word8 &&& 127
  let finalWord := finalWord ||| word7.toNat <<< shl
  return if word8 &&& 128 > 0 then .inl (finalWord, shl + 7) else .inr finalWord

def bigWord : DecodeM ℕ := passes bigWordPass (0, 0)

def integer : DecodeM Int64 := do return unzigzag (← word)

def bigInteger : DecodeM ℤ := do return unzigzagBig (← bigWord)

def char : DecodeM Char := do
  let character := (← word).toUInt32
  if h : character.isValidChar then return ⟨character, h⟩ else Proc.throw (.decodeChar character)

/-- One pass of a loop that reads an item behind each set bit. -/
def listPass {α β : Type} (push : β → α → β) (item : DecodeM α) (xs : β) : DecodeM (β ⊕ β) := do
  if ← bit then return .inl (push xs (← item)) else return .inr xs

def string : DecodeM String := passes (listPass String.push char) ""

def decodeListWith {α : Type} (decoderFunc : DecodeM α) : DecodeM (List α) :=
  passes (listPass (fun xs x => xs ++ [x]) decoderFunc) []

/-- `&self.buffer[self.pos..self.pos + len]` -/
def slice (len : ℕ) : DecodeM Bytes := do
  let d ← Proc.get
  if d.pos + len ≤ d.buffer.length then return (d.buffer.drop d.pos).take len else Proc.panic

/-- `self.buffer[self.pos]; self.pos += 1` -/
def takeByte : DecodeM UInt8 := do
  let d ← Proc.get
  let byte ← index d.pos
  Proc.modify fun d => { d with pos := d.pos + 1 }
  return byte

def blockPass (acc : UInt8 × Bytes) : DecodeM ((UInt8 × Bytes) ⊕ Bytes) := do
  let (blkLen, blkArray) := acc
  if blkLen ≠ 0 then
    ensureBytes (blkLen.toNat + 1)
    let decodedArray ← slice blkLen.toNat
    Proc.modify fun d => { d with pos := d.pos + blkLen.toNat }
    let blkLen ← takeByte
    return .inl (blkLen, blkArray ++ decodedArray)
  else return .inr blkArray

def byteArray : DecodeM Bytes := do
  let d ← Proc.get
  if d.usedBits ≠ 0 then Proc.throw .bufferNotByteAligned
  else
    ensureBytes 1
    let blkLen ← takeByte
    passes blockPass (blkLen, [])

def bytes : DecodeM Bytes := do
  filler
  byteArray

def utf8 : DecodeM String := do
  let s ← bytes
  match String.fromUTF8? ⟨s.toArray⟩ with
  | some s => pure s
  | none => Proc.throw .decodeUtf8

end Decoder

/-- The decoder's method for a kind of value. -/
def Kind.decode : (k : Kind) → DecodeM k.Val
  | .bool => Decoder.bool
  | .u8 => Decoder.u8
  | .bits n => Decoder.bits8 n
  | .word => Decoder.word
  | .integer => Decoder.integer
  | .bigInteger => Decoder.bigInteger
  | .char => Decoder.char
  | .string => Decoder.string
  | .utf8 => Decoder.utf8
  | .bytes => Decoder.bytes
  | .filler => Decoder.filler
  | .list item => Decoder.decodeListWith item.decode

/-! ### The reading position -/

namespace Decoder
open Bits
variable {d : Decoder} {t : Bits} {b : Bool} {n : ℕ}

def offset (d : Decoder) : ℕ := 8 * d.pos + d.usedBits

/-- The bits that have not been read. -/
def rest (d : Decoder) : Bits := (ofBytes d.buffer).drop d.offset

/-- The decoder `n` bits further on. -/
def advance (d : Decoder) (n : ℕ) : Decoder := { d with pos := (d.offset + n) / 8, usedBits := (d.offset + n) % 8 }

@[simp] theorem buffer_advance : (d.advance n).buffer = d.buffer := rfl

@[simp] theorem offset_advance : (d.advance n).offset = d.offset + n := by
  unfold advance offset
  dsimp only
  omega

@[simp] theorem rest_advance : (d.advance n).rest = d.rest.drop n := by
  rw [rest, offset_advance, buffer_advance, rest, List.drop_drop]

theorem advance_zero (h : d.usedBits < 8) : d.advance 0 = d := by
  have hpos : (8 * d.pos + d.usedBits + 0) / 8 = d.pos := by omega
  have hmod : (8 * d.pos + d.usedBits + 0) % 8 = d.usedBits := by omega
  rw [advance, offset, hpos, hmod]

theorem advance_advance (m n : ℕ) : (d.advance m).advance n = d.advance (m + n) := by
  have hoff : (d.advance m).offset + n = d.offset + (m + n) := by rw [offset_advance, Nat.add_assoc]
  rw [advance, hoff]
  rfl

theorem usedBits_advance : (d.advance n).usedBits < 8 := Nat.mod_lt _ (by decide)

theorem length_rest : d.rest.length = 8 * d.buffer.length - d.offset := by
  rw [rest, List.length_drop, length_ofBytes]

theorem bitsLeft_eq : d.bitsLeft = d.rest.length := by
  rw [length_rest]
  rfl

theorem getElem?_rest (i : ℕ) :
    d.rest[i]? = d.buffer[(d.offset + i) / 8]?.map fun byte => byte.toNat.testBit (7 - (d.offset + i) % 8) := by
  rw [rest, List.getElem?_drop, getElem?_ofBytes]

/-- The position is in the buffer or at its end. -/
structure Valid (d : Decoder) : Prop where
  usedBits_lt : d.usedBits < 8
  offset_le : d.offset ≤ 8 * d.buffer.length

theorem Valid.new (bytes : Bytes) : (new bytes).Valid := ⟨Nat.zero_lt_succ 7, Nat.zero_le _⟩

theorem Valid.advance (hd : d.Valid) (h : n ≤ d.rest.length) : (d.advance n).Valid := by
  have hle := hd.offset_le
  rw [length_rest] at h
  refine ⟨usedBits_advance, ?_⟩
  rw [offset_advance, buffer_advance]
  omega

@[simp] theorem rest_new (bytes : Bytes) : (new bytes).rest = ofBytes bytes := rfl

theorem incrementBufferByBit_eq (h : d.usedBits < 8) : d.incrementBufferByBit = d.advance 1 := by
  unfold incrementBufferByBit advance offset
  split
  · next h7 =>
    have hpos : d.pos + 1 = (8 * d.pos + d.usedBits + 1) / 8 := by omega
    have hused : 0 = (8 * d.pos + d.usedBits + 1) % 8 := by omega
    rw [hpos, hused]
  · have hpos : d.pos = (8 * d.pos + d.usedBits + 1) / 8 := by omega
    have hused : d.usedBits + 1 = (8 * d.pos + d.usedBits + 1) % 8 := by omega
    rw [← hpos, ← hused]

theorem dropBits_eq : d.dropBits n = d.advance n := by
  unfold dropBits advance offset
  have hpos : d.pos + (n + d.usedBits) / 8 = (8 * d.pos + d.usedBits + n) / 8 := by omega
  have hused : (n + d.usedBits) % 8 = (8 * d.pos + d.usedBits + n) % 8 := by omega
  rw [← hpos, ← hused]

/-! ### Reading bits -/

theorem and_mask (byte : UInt8) {u : ℕ} (hu : u < 8) :
    (byte &&& 128 >>> UInt8.ofNat u).toNat = (byte.toNat.testBit (7 - u)).toNat * 2 ^ (7 - u) := by
  have hmask : ∀ u < 8, ((128 : UInt8) >>> UInt8.ofNat u).toNat = 2 ^ (7 - u) := by decide
  rw [UInt8.toNat_and, hmask u hu, Nat.and_two_pow]

theorem pos_lt_iff (h : d.usedBits < 8) : d.pos < d.buffer.length ↔ d.rest ≠ [] := by
  rw [← List.length_pos_iff, length_rest]
  unfold offset
  omega

theorem byte_of_rest (h : d.rest = b :: t) (hused : d.usedBits < 8) :
    ∃ byte, d.buffer[d.pos]? = some byte ∧ byte.toNat.testBit (7 - d.usedBits) = b := by
  have hfirst := getElem?_rest (d := d) 0
  have hpos : (d.offset + 0) / 8 = d.pos := by unfold offset; omega
  have hmod : (d.offset + 0) % 8 = d.usedBits := by unfold offset; omega
  rw [h, hpos, hmod] at hfirst
  cases hbyte : d.buffer[d.pos]? with
  | none =>
    rw [hbyte] at hfirst
    cases hfirst
  | some byte =>
    rw [hbyte] at hfirst
    exact ⟨byte, rfl, (Option.some.inj hfirst).symm⟩

theorem index_apply {i : ℕ} {byte : UInt8} (h : d.buffer[i]? = some byte) : index i d = (.ok byte, d) := by
  rw [index, Proc.get_bind, h]
  rfl

theorem bool_cons (h : d.rest = b :: t) (hused : d.usedBits < 8) : bool d = (.ok b, d.advance 1) := by
  obtain ⟨byte, hbyte, hbit⟩ := byte_of_rest h hused
  have hvalue : (byte &&& 128 >>> UInt8.ofNat d.usedBits != 0) = b := by
    have hmask := and_mask byte hused
    rw [hbit] at hmask
    have hzero : (byte &&& 128 >>> UInt8.ofNat d.usedBits) = 0 ↔ b.toNat * 2 ^ (7 - d.usedBits) = 0 := by
      rw [← UInt8.toNat_inj, hmask]
      rfl
    cases b <;> simp_all
  rw [bool, Proc.get_bind, Proc.bind_ok (index_apply hbyte), shr, if_pos hused]
  simp only [Proc.pure_bind', Proc.modify_bind, Proc.pure_apply, incrementBufferByBit_eq hused, hvalue]

theorem bool_nil (h : d.rest = []) (hused : d.usedBits < 8) : bool d = (.error .panic, d) := by
  have hpos : ¬ d.pos < d.buffer.length := by rw [pos_lt_iff hused, h]; simp
  have hindex : index d.pos d = (.error .panic, d) := by
    rw [index, Proc.get_bind, List.getElem?_eq_none (Nat.not_lt.1 hpos)]
    rfl
  rw [bool, Proc.get_bind, Proc.bind_error hindex]

/-- Inside the buffer `bit` and `bool` are the same. -/
theorem bit_cons (h : d.rest = b :: t) (hused : d.usedBits < 8) : bit d = (.ok b, d.advance 1) := by
  have hpos : d.pos < d.buffer.length := by rw [pos_lt_iff hused, h]; simp
  have hsame : bit d = bool d := by
    rw [bit, bool, Proc.get_bind, Proc.get_bind, if_neg (Nat.not_le.2 hpos)]
    simp only [UInt8.pos_iff_ne_zero, bne, decide_not]
    rfl
  rw [hsame, bool_cons h hused]

theorem bit_nil (h : d.rest = []) (hused : d.usedBits < 8) : bit d = (.error (.error .endOfBuffer), d) := by
  have hpos : ¬ d.pos < d.buffer.length := by rw [pos_lt_iff hused, h]; simp
  rw [bit, Proc.get_bind, if_pos (Nat.not_lt.1 hpos)]
  rfl

/-! ### Reading a field of bits -/

theorem byteAt_of_rest {v : ℕ} (h : d.rest = ofNat n v ++ t) {j : ℕ} (hj : j < n) :
    ∃ byte, d.buffer[(d.offset + j) / 8]? = some byte ∧
      byte.toNat.testBit (7 - (d.offset + j) % 8) = v.testBit (n - 1 - j) := by
  have hbit := getElem?_rest (d := d) j
  rw [h, List.getElem?_append_left (by rwa [length_ofNat]), getElem?_ofNat, if_pos hj] at hbit
  cases hbyte : d.buffer[(d.offset + j) / 8]? with
  | none =>
    rw [hbyte] at hbit
    cases hbit
  | some byte =>
    rw [hbyte] at hbit
    exact ⟨byte, rfl, (Option.some.inj hbit).symm⟩

theorem ensureBits_ok (h : n ≤ d.rest.length) (hle : d.offset ≤ 8 * d.buffer.length) :
    ensureBits n d = (.ok (), d) := by
  rw [length_rest] at h
  have hno : ¬ (n : ℤ) > (d.buffer.length - d.pos) * 8 - d.usedBits := by
    unfold offset at *
    omega
  rw [ensureBits, Proc.get_bind, if_neg hno]
  rfl

theorem ensureBits_error (h : d.rest.length < n) : ensureBits n d = (.error (.error (.notEnoughBits n)), d) := by
  rw [length_rest] at h
  have hyes : (n : ℤ) > (d.buffer.length - d.pos) * 8 - d.usedBits := by
    unfold offset at *
    omega
  rw [ensureBits, Proc.get_bind, if_pos hyes]
  rfl

theorem shl_apply {x : UInt8} {k : ℕ} (hk : k < 8) : shl x k d = (.ok (x <<< UInt8.ofNat k), d) := by
  rw [shl, if_pos hk]
  rfl

theorem shr_apply {x : UInt8} {k : ℕ} (hk : k < 8) : shr x k d = (.ok (x >>> UInt8.ofNat k), d) := by
  rw [shr, if_pos hk]
  rfl

theorem field_within {a : UInt8} {u v : ℕ} (hv : v < 2 ^ n) (hpos : 1 ≤ n) (hroom : u + n ≤ 8)
    (hbits : ∀ j < n, a.toNat.testBit (7 - (u + j)) = v.testBit (n - 1 - j)) :
    a <<< UInt8.ofNat u >>> UInt8.ofNat (8 - n) = UInt8.ofNat v := by
  have hv8 : v < 2 ^ 8 := hv.trans_le (Nat.pow_le_pow_right (by decide) (by omega))
  rw [← UInt8.toNat_inj, UInt8.toNat_ofNat_of_lt' hv8, Written.toNat_shiftRight (by omega),
    Written.toNat_shiftLeft (by omega)]
  apply Nat.eq_of_testBit_eq
  intro k
  rw [Nat.testBit_shiftRight, Nat.testBit_mod_two_pow, Nat.testBit_shiftLeft]
  rcases Nat.lt_or_ge k n with hk | hk
  · have hbit := hbits (n - 1 - k) (by omega)
    have hindex : 7 - (u + (n - 1 - k)) = 8 - n + k - u := by omega
    have hback : n - 1 - (n - 1 - k) = k := by omega
    rw [hindex, hback] at hbit
    simp [hbit, show 8 - n + k < 8 by omega, show u ≤ 8 - n + k by omega]
  · have hzero : v.testBit k = false := Nat.testBit_lt_two_pow (hv.trans_le (Nat.pow_le_pow_right (by decide) hk))
    simp [hzero, show ¬ 8 - n + k < 8 by omega]

/-- The bits of a value that runs over into the next byte. -/
theorem field_across {a b : UInt8} {u v : ℕ} (hv : v < 2 ^ n) (hu : u < 8) (hn : n ≤ 8) (hover : 8 < u + n)
    (hhigh : ∀ j, u + j < 8 → a.toNat.testBit (7 - (u + j)) = v.testBit (n - 1 - j))
    (hlow : ∀ j < n, 8 ≤ u + j → b.toNat.testBit (15 - (u + j)) = v.testBit (n - 1 - j)) :
    a <<< UInt8.ofNat u >>> UInt8.ofNat (8 - n) ||| b >>> UInt8.ofNat (8 - u + (8 - n)) = UInt8.ofNat v := by
  have hv8 : v < 2 ^ 8 := hv.trans_le (Nat.pow_le_pow_right (by decide) hn)
  rw [← UInt8.toNat_inj, UInt8.toNat_ofNat_of_lt' hv8, UInt8.toNat_or, Written.toNat_shiftRight (by omega),
    Written.toNat_shiftLeft hu, Written.toNat_shiftRight (by omega)]
  apply Nat.eq_of_testBit_eq
  intro k
  rw [Nat.testBit_or, Nat.testBit_shiftRight, Nat.testBit_mod_two_pow, Nat.testBit_shiftLeft, Nat.testBit_shiftRight]
  have hb8 : ∀ i, 8 ≤ i → b.toNat.testBit i = false := fun i hi =>
    Nat.testBit_lt_two_pow (b.toNat_lt.trans_le (Nat.pow_le_pow_right (by decide) hi))
  rcases Nat.lt_or_ge k n with hk | hk
  · have hback : n - 1 - (n - 1 - k) = k := by omega
    rcases Nat.lt_or_ge (u + (n - 1 - k)) 8 with hj | hj
    · have hbit := hhigh (n - 1 - k) hj
      have hindex : 7 - (u + (n - 1 - k)) = 8 - n + k - u := by omega
      rw [hindex, hback] at hbit
      simp [hbit, hb8 (8 - u + (8 - n) + k) (by omega), show 8 - n + k < 8 by omega, show u ≤ 8 - n + k by omega]
    · have hbit := hlow (n - 1 - k) (by omega) hj
      have hindex : 15 - (u + (n - 1 - k)) = 8 - u + (8 - n) + k := by omega
      rw [hindex, hback] at hbit
      simp [hbit, show ¬ u ≤ 8 - n + k by omega]
  · have hzero : v.testBit k = false := Nat.testBit_lt_two_pow (hv.trans_le (Nat.pow_le_pow_right (by decide) hk))
    simp [hzero, show ¬ 8 - n + k < 8 by omega, hb8 (8 - u + (8 - n) + k) (by omega)]

theorem bits8_ok {v : ℕ} (h : d.rest = ofNat n v ++ t) (hv : v < 2 ^ n) (hpos : 1 ≤ n) (hn : n ≤ 8)
    (hused : d.usedBits < 8) :
    bits8 n d = (.ok (UInt8.ofNat v), d.advance n) := by
  have hlen : n ≤ d.rest.length := by rw [h, List.length_append, length_ofNat]; omega
  have hle : d.offset ≤ 8 * d.buffer.length := by rw [length_rest] at hlen; omega
  have hoffset : d.offset = 8 * d.pos + d.usedBits := rfl
  obtain ⟨a, ha, hfirst⟩ := byteAt_of_rest h hpos
  rw [show (d.offset + 0) / 8 = d.pos by omega] at ha
  -- the bits that lie in the byte under the position
  have hhigh : ∀ j < n, d.usedBits + j < 8 → a.toNat.testBit (7 - (d.usedBits + j)) = v.testBit (n - 1 - j) := by
    intro j hj hin
    obtain ⟨byte, hbyte, hbit⟩ := byteAt_of_rest h hj
    rw [show (d.offset + j) / 8 = d.pos by omega, ha] at hbyte
    obtain rfl := Option.some.inj hbyte
    rwa [show (d.offset + j) % 8 = d.usedBits + j by omega] at hbit
  rw [bits8, if_neg (Nat.not_lt.2 hn), Proc.bind_ok (ensureBits_ok hlen hle), Proc.get_bind,
    Proc.bind_ok (index_apply ha), Proc.bind_ok (shl_apply hused), Proc.bind_ok (shr_apply (by omega))]
  by_cases hover : n > 8 - d.usedBits
  · obtain ⟨b, hb, hlast⟩ := byteAt_of_rest h (j := n - 1) (by omega)
    rw [show (d.offset + (n - 1)) / 8 = d.pos + 1 by omega] at hb
    have hlow : ∀ j < n, 8 ≤ d.usedBits + j → b.toNat.testBit (15 - (d.usedBits + j)) = v.testBit (n - 1 - j) := by
      intro j hj hout
      obtain ⟨byte, hbyte, hbit⟩ := byteAt_of_rest h hj
      rw [show (d.offset + j) / 8 = d.pos + 1 by omega, hb] at hbyte
      obtain rfl := Option.some.inj hbyte
      rwa [show 7 - (d.offset + j) % 8 = 15 - (d.usedBits + j) by omega] at hbit
    have hvalue := field_across hv hused hn (by omega) (fun j hj => hhigh j (by omega) hj) hlow
    rw [if_pos hover, Proc.bind_ok (index_apply hb), Proc.bind_ok (shr_apply (by omega)), hvalue]
    simp only [Proc.pure_bind', Proc.modify_bind, Proc.pure_apply, dropBits_eq]
  · have hvalue := field_within hv hpos (by omega) fun j hj => hhigh j hj (by omega)
    rw [if_neg hover, hvalue]
    simp only [Proc.pure_bind', Proc.modify_bind, Proc.pure_apply, dropBits_eq]

theorem bits8_short (hn : n ≤ 8) (h : d.rest.length < n) : bits8 n d = (.error (.error (.notEnoughBits n)), d) := by
  rw [bits8, if_neg (Nat.not_lt.2 hn), Proc.bind_error (ensureBits_error h)]

theorem byte_ok {byte : UInt8} (h : d.rest = ofNat 8 byte.toNat ++ t) (hused : d.usedBits < 8) :
    bits8 8 d = (.ok byte, d.advance 8) := by
  have hread := bits8_ok h byte.toNat_lt (by decide) le_rfl hused
  rwa [UInt8.ofNat_toNat] at hread

end Decoder

end Pallas.Flat
