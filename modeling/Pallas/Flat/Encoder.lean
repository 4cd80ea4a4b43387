import Pallas.Lib.Bits

/-!
# The flat encoder

`Encoder` packs values into bytes, bit by bit. It keeps the bits that do not fill a byte yet at the top of
`currentByte`; `Written e w` says that what it has been given so far is the bit string `w`. Each operation appends
the bits of its value, wherever in a byte it starts.
-/

namespace Pallas.Flat

inductive EncodeError where
  | bufferNotByteAligned
  deriving DecidableEq

structure Encoder where
  buffer : Bytes
  usedBits : ℕ
  currentByte : UInt8
  deriving DecidableEq

namespace Encoder

def new : Encoder := { buffer := [], usedBits := 0, currentByte := 0 }

def nextWord (e : Encoder) : Encoder := { buffer := e.buffer ++ [e.currentByte], usedBits := 0, currentByte := 0 }

def zero (e : Encoder) : Encoder :=
  if e.usedBits = 7 then e.nextWord else { e with usedBits := e.usedBits + 1 }

def one (e : Encoder) : Encoder :=
  if e.usedBits = 7 then { e with currentByte := e.currentByte ||| 1 }.nextWord
  else { e with currentByte := e.currentByte ||| 128 >>> UInt8.ofNat e.usedBits, usedBits := e.usedBits + 1 }

def byteUnaligned (e : Encoder) (x : UInt8) : Encoder :=
  { e with
    buffer := e.buffer ++ [e.currentByte ||| x >>> UInt8.ofNat e.usedBits]
    currentByte := x <<< UInt8.ofNat (8 - e.usedBits) }

def u8 (e : Encoder) (x : UInt8) : Encoder :=
  if e.usedBits = 0 then { e with currentByte := x }.nextWord else e.byteUnaligned x

def bool (e : Encoder) (x : Bool) : Encoder := if x then e.one else e.zero

def filler (e : Encoder) : Encoder := { e with currentByte := e.currentByte ||| 1 }.nextWord

/-- `arr.chunks(255)` -/
def chunks (arr : Bytes) : List Bytes :=
  if arr = [] then [] else arr.take 255 :: chunks (arr.drop 255)
termination_by arr.length
decreasing_by
  have hpos := List.length_pos_of_ne_nil (by assumption)
  rw [List.length_drop]
  omega

/-- What `write_blk` pushes for one chunk. -/
def block (chunk : Bytes) : Bytes := UInt8.ofNat chunk.length :: chunk

def writeBlk (e : Encoder) (arr : Bytes) : Encoder :=
  { e with buffer := (chunks arr).foldl (fun buffer chunk => buffer ++ block chunk) e.buffer ++ [0] }

def byteArray (e : Encoder) (arr : Bytes) : Except EncodeError Encoder :=
  if e.usedBits ≠ 0 then .error .bufferNotByteAligned else .ok (e.writeBlk arr)

def bytes (e : Encoder) (x : Bytes) : Except EncodeError Encoder := e.filler.byteArray x

def utf8 (e : Encoder) (s : String) : Except EncodeError Encoder := e.bytes s.toUTF8.data.toList

/-- The widths 1 and 2 are written bit by bit; anything else is shifted into place and may spill into a new byte. -/
def bits (e : Encoder) (numBits : ℕ) (val : UInt8) : Encoder :=
  if numBits = 1 ∧ val = 0 then e.zero
  else if numBits = 1 ∧ val = 1 then e.one
  else if numBits = 2 ∧ val = 0 then e.zero.zero
  else if numBits = 2 ∧ val = 1 then e.zero.one
  else if numBits = 2 ∧ val = 2 then e.one.zero
  else if numBits = 2 ∧ val = 3 then e.one.one
  else
    let usedBits := e.usedBits + numBits
    if usedBits = 8 then { e with currentByte := e.currentByte ||| val }.nextWord
    else if usedBits < 8 then
      { e with usedBits, currentByte := e.currentByte ||| val <<< UInt8.ofNat (8 - usedBits) }
    else
      let used := usedBits - 8
      { { e with currentByte := e.currentByte ||| val >>> UInt8.ofNat used }.nextWord with
        currentByte := val <<< UInt8.ofNat (8 - used)
        usedBits := used }

/-- The loop of `word` and of `big_word`, which differ in the width of `d` only. -/
def words (e : Encoder) (d : ℕ) : Encoder :=
  if d >>> 7 = 0 then e.bits 8 (UInt8.ofNat (d &&& 127))
  else words (e.bits 8 (UInt8.ofNat (d &&& 127 ||| 128))) (d >>> 7)
termination_by d
decreasing_by
  rw [Nat.shiftRight_eq_div_pow] at *
  omega

def word (e : Encoder) (c : UInt64) : Encoder := e.words c.toNat

def bigWord (e : Encoder) (c : ℕ) : Encoder := e.words c

end Encoder

/-- `ZigZag for isize`; the source computes in `i128`. -/
def zigzag (i : Int64) : UInt64 :=
  let wide := i.toBitVec.signExtend 128
  ⟨((wide <<< 1) ^^^ wide.sshiftRight 63).setWidth 64⟩

/-- `ZigZag for BigInt` -/
def zigzagBig (i : ℤ) : ℕ := if 0 ≤ i then (i <<< (1 : ℕ)).toNat else (-(i <<< (1 : ℕ)) - 1).toNat

namespace Encoder

def integer (e : Encoder) (i : Int64) : Encoder := e.word (zigzag i)

def bigInteger (e : Encoder) (i : ℤ) : Encoder := e.bigWord (zigzagBig i)

def char (e : Encoder) (c : Char) : Encoder := e.word c.val.toUInt64

def string (e : Encoder) (s : String) : Encoder := (s.toList.foldl (fun e c => e.one.char c) e).zero

def encodeListWith {α : Type} (e : Encoder) (list : List α) (encoderFunc : α → Encoder → Except EncodeError Encoder) :
    Except EncodeError Encoder := do
  let e ← list.foldlM (fun e item => encoderFunc item e.one) e
  return e.zero

end Encoder

/-! ### Kinds of values -/

/-- The kinds of values the codec reads and writes. -/
inductive Kind where
  | bool
  | u8
  | bits (n : ℕ)
  | word
  | integer
  | bigInteger
  | char
  | string
  | utf8
  | bytes
  | filler
  | list (item : Kind)
  deriving DecidableEq

namespace Kind

abbrev Val : Kind → Type
  | .bool => Bool
  | .u8 => UInt8
  | .bits _ => UInt8
  | .word => UInt64
  | .integer => Int64
  | .bigInteger => ℤ
  | .char => Char
  | .string => String
  | .utf8 => String
  | .bytes => Bytes
  | .filler => Unit
  | .list item => List item.Val

def encode : (k : Kind) → k.Val → Encoder → Except EncodeError Encoder
  | .bool, x, e => .ok (e.bool x)
  | .u8, x, e => .ok (e.u8 x)
  | .bits n, x, e => .ok (e.bits n x)
  | .word, x, e => .ok (e.word x)
  | .integer, x, e => .ok (e.integer x)
  | .bigInteger, x, e => .ok (e.bigInteger x)
  | .char, x, e => .ok (e.char x)
  | .string, x, e => .ok (e.string x)
  | .utf8, x, e => e.utf8 x
  | .bytes, x, e => e.bytes x
  | .filler, _, e => .ok e.filler
  | .list item, xs, e => e.encodeListWith xs item.encode

/-- The values of the kind: a bit field is one to eight bits wide and holds a value of that width. -/
def Holds : (k : Kind) → k.Val → Prop
  | .bits n, x => 1 ≤ n ∧ n ≤ 8 ∧ x.toNat < 2 ^ n
  | .list item, xs => ∀ x ∈ xs, item.Holds x
  | _, _ => True

end Kind

end Pallas.Flat
