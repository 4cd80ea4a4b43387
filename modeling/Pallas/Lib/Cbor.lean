import Pallas.Lib.Outcome

/-!
# CBOR, as `minicbor` writes and reads it

The writing half is the item heads (shortest form) and the few item shapes the ledger encoders are
built from. The reading half is a decoder on the bytes that are left: `none` is any decoding error.
It accepts what `minicbor` accepts, so a length or an integer may come in a longer form than needed,
and bytes after the decoded item are left alone.
-/

/-- A byte string. -/
abbrev Bytes := List UInt8

namespace Cbor

/-! ### Writing -/

/-- The low `k` bytes of `n`, most significant first. -/
def bigEndian : (k n : Nat) → Bytes
  | 0, _ => []
  | k + 1, n => UInt8.ofNat (n / 256 ^ k) :: bigEndian k n

/-- The head of an item: major type and argument, in the shortest form. -/
def head (major n : Nat) : Bytes :=
  if n < 24 then [UInt8.ofNat (32 * major + n)]
  else if n < 2 ^ 8 then UInt8.ofNat (32 * major + 24) :: bigEndian 1 n
  else if n < 2 ^ 16 then UInt8.ofNat (32 * major + 25) :: bigEndian 2 n
  else if n < 2 ^ 32 then UInt8.ofNat (32 * major + 26) :: bigEndian 4 n
  else UInt8.ofNat (32 * major + 27) :: bigEndian 8 n

def uint (n : Nat) : Bytes := head 0 n

/-- A signed integer: `n` itself, or `-1 - n` under major type 1. -/
def int (z : ℤ) : Bytes := if 0 ≤ z then head 0 z.toNat else head 1 (-1 - z).toNat

def bytes (bs : Bytes) : Bytes := head 2 bs.length ++ bs

def array (n : Nat) : Bytes := head 4 n

def map (n : Nat) : Bytes := head 5 n

def tag (n : Nat) : Bytes := head 6 n

def bool (b : Bool) : Bytes := [if b then 0xf5 else 0xf4]

def null : Bytes := [0xf6]

def beginBytes : Bytes := [0x5f]

def beginArray : Bytes := [0x9f]

def beginMap : Bytes := [0xbf]

def endIndef : Bytes := [0xff]

/-! ### Reading -/

/-- A decoder: reads an item from the front of the bytes that are left. -/
def Decoder (α : Type) := Bytes → Option (α × Bytes)

namespace Decoder
variable {α β : Type}

instance : Monad Decoder where
  pure a := fun bs => some (a, bs)
  bind d f := fun bs => match d bs with
    | some (a, rest) => f a rest
    | none => none

/-- A decoding error. -/
def fail : Decoder α := fun _ => none

/-- One byte. -/
def byte : Decoder UInt8
  | [] => none
  | b :: bs => some (b, bs)

/-- The next byte, without consuming it. -/
def peek : Decoder UInt8
  | [] => none
  | b :: bs => some (b, b :: bs)

/-- `n` bytes. -/
def take (n : Nat) : Decoder Bytes := fun bs => if n ≤ bs.length then some (bs.take n, bs.drop n) else none

/-- `n` bytes read as a big-endian number. -/
def number (n : Nat) : Decoder Nat := do
  let bs ← take n
  pure (bs.foldl (fun acc b => 256 * acc + b.toNat) 0)

/-- The argument of a head, from its low five bits. -/
def argument (info : Nat) : Decoder Nat :=
  if info < 24 then pure info
  else if info = 24 then number 1
  else if info = 25 then number 2
  else if info = 26 then number 4
  else if info = 27 then number 8
  else fail

/-- A head of the given major type, with a definite argument (`none` for an indefinite length). -/
def header (major : Nat) : Decoder (Option Nat) := do
  let b ← byte
  if b.toNat / 32 ≠ major then fail
  else if b.toNat % 32 = 31 then pure none
  else some <$> argument (b.toNat % 32)

/-- An unsigned integer below `bound`. -/
def uintBelow (bound : Nat) : Decoder Nat := do
  match ← header 0 with
  | some n => if n < bound then pure n else fail
  | none => fail

def u8 : Decoder Nat := uintBelow (2 ^ 8)

def u32 : Decoder Nat := uintBelow (2 ^ 32)

/-- A byte string of definite length. -/
def bytes : Decoder Bytes := do
  match ← header 2 with
  | some n => take n
  | none => fail

/-- A tag; the number is returned, and not checked. -/
def tag : Decoder Nat := do
  match ← header 6 with
  | some n => pure n
  | none => fail

/-- The chunks of an indefinite byte string, up to the break. -/
def chunks : (fuel : Nat) → Decoder Bytes
  | 0 => fail
  | fuel + 1 => do
    if (← peek) = 0xff then
      let _ ← byte
      pure []
    else
      let c ← bytes
      let cs ← chunks fuel
      pure (c ++ cs)

/-- A byte string of definite or indefinite length. -/
def bytesDefOrIndef : Decoder Bytes := fun bs => match bs with
  | 0x5f :: rest => chunks (rest.length + 1) rest
  | _ => bytes bs

/-- Skips items: `pending` holds, innermost first, how many items each open container still wants
(`none` for a container that ends with a break). -/
def skipItems : (fuel : Nat) → (pending : List (Option Nat)) → Decoder Unit
  | _, [] => pure ()
  | 0, _ => fail
  | fuel + 1, some 0 :: pending => skipItems fuel pending
  | fuel + 1, frame :: pending => do
    let b ← byte
    let info := b.toNat % 32
    let frame' := frame.map (· - 1)
    match b.toNat / 32 with
    | 2 | 3 =>
      if info = 31 then skipItems fuel (none :: frame' :: pending)
      else
        let n ← argument info
        let _ ← take n
        skipItems fuel (frame' :: pending)
    | 4 =>
      if info = 31 then skipItems fuel (none :: frame' :: pending)
      else
        let n ← argument info
        skipItems fuel (some n :: frame' :: pending)
    | 5 =>
      if info = 31 then skipItems fuel (none :: frame' :: pending)
      else
        let n ← argument info
        skipItems fuel (some (2 * n) :: frame' :: pending)
    | 6 =>
      let _ ← argument info
      skipItems fuel (some 1 :: frame' :: pending)
    | 7 =>
      if info = 31 then
        if frame = none then skipItems fuel pending else fail
      else
        let _ ← argument info
        skipItems fuel (frame' :: pending)
    | _ =>
      let _ ← argument info
      skipItems fuel (frame' :: pending)

/-- Skips one item. -/
def skip : Decoder Unit := fun bs => skipItems (2 * bs.length + 2) [some 1] bs

/-- `n` items by one decoder. -/
def replicate (d : Decoder α) : Nat → Decoder (List α)
  | 0 => pure []
  | n + 1 => do
    let a ← d
    let as ← replicate d n
    pure (a :: as)

end Decoder
end Cbor
