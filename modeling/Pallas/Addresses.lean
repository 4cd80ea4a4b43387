import Pallas.Primitives

/-!
# Addresses (`pallas-addresses/src/lib.rs`, `varuint.rs`, `byron.rs`)

`Address.fromBytes` dispatches on the high nibble of the header byte. The eight Shelley layouts are
one parser with the constructors of the two credentials as parameters, as the macro of the source
has it; the payload may be longer than the layout needs, and what follows is ignored. A Byron address
is CBOR inside CBOR: the outer pair of payload bytes and checksum (which is read and not compared),
and the payload itself, decoded on demand.

Decoding errors are collapsed to `none`: the validators never look at which error it was.
-/

namespace Pallas

/-! ### Shelley and stake addresses -/

inductive Network where
  | testnet
  | mainnet
  | other (id : UInt8)
  deriving DecidableEq

namespace Network

def value : Network → UInt8
  | testnet => 0
  | mainnet => 1
  | other id => id

end Network

structure Pointer where
  slot : UInt64
  txIdx : UInt64
  certIdx : UInt64
  deriving DecidableEq

inductive ShelleyPaymentPart where
  | key (h : Hash 28)
  | script (h : Hash 28)
  deriving DecidableEq

inductive ShelleyDelegationPart where
  | key (h : Hash 28)
  | script (h : Hash 28)
  | pointer (p : Pointer)
  | null
  deriving DecidableEq

structure ShelleyAddress where
  network : Network
  payment : ShelleyPaymentPart
  delegation : ShelleyDelegationPart
  deriving DecidableEq

inductive StakePayload where
  | stake (h : Hash 28)
  | script (h : Hash 28)
  deriving DecidableEq

structure StakeAddress where
  network : Network
  payload : StakePayload
  deriving DecidableEq

/-- `varuint::read`: seven bits a byte, most significant first. A value above `u64::MAX` ends the
read with `u64::MAX`, whatever the continuation bit says. -/
def varuintRead (acc : Nat) : Bytes → Option (UInt64 × Bytes)
  | [] => none
  | b :: rest =>
    let acc := acc * 128 + b.toNat % 128
    if acc > 2 ^ 64 - 1 then some (UInt64.ofNat (2 ^ 64 - 1), rest)
    else if b.toNat < 128 then some (UInt64.ofNat acc, rest)
    else varuintRead acc rest

def Pointer.parse (bs : Bytes) : Option Pointer := do
  let (a, bs) ← varuintRead 0 bs
  let (b, bs) ← varuintRead 0 bs
  let (c, _) ← varuintRead 0 bs
  pure ⟨a, b, c⟩

/-- `parse_network`: the low nibble of the header. -/
def parseNetwork (header : UInt8) : Network :=
  match header.toNat % 16 with
  | 0 => .testnet
  | 1 => .mainnet
  | n => .other (UInt8.ofNat n)

/-! ### Byron addresses -/

inductive AddrType where
  | pubKey
  | script
  | redeem
  | other (n : UInt32)
  deriving DecidableEq

inductive AddrDistr where
  | singleKeyDistribution (id : Hash 28)
  | bootstrapEraDistribution
  deriving DecidableEq

inductive AddrAttrProperty where
  | addrDistr (d : AddrDistr)
  | derivationPath (bs : Bytes)
  | networkTag (bs : Bytes)
  deriving DecidableEq

inductive SpendingData where
  | pubKey (bs : Bytes)
  | script (bs : Bytes)
  | redeem (bs : Bytes)
  deriving DecidableEq

structure AddressPayload where
  root : Hash 28
  attributes : List AddrAttrProperty
  addrtype : AddrType
  deriving DecidableEq

/-- `ByronAddress`: the undecoded payload, and the checksum that came with it. -/
structure ByronAddress where
  payload : Bytes
  crc : UInt32
  deriving DecidableEq

namespace Decode
open Cbor Cbor.Decoder

/-- `Decode for Hash<N>`. -/
def hash (n : Nat) : Decoder (Hash n) := do
  let bs ← bytesDefOrIndef
  if bs.length = n then pure (Hash.ofBytes n bs) else fail

/-- `Decode for AddrType`. -/
def addrType : Decoder AddrType := do
  match ← u32 with
  | 0 => pure .pubKey
  | 1 => pure .script
  | 2 => pure .redeem
  | n => pure (.other (UInt32.ofNat n))

/-- `Decode for AddrDistr`. -/
def addrDistr : Decoder AddrDistr := do
  let _ ← header 4
  match ← u32 with
  | 0 => .singleKeyDistribution <$> hash 28
  | 1 => pure .bootstrapEraDistribution
  | _ => fail

/-- `Decode for AddrAttrProperty`. -/
def addrAttrProperty : Decoder AddrAttrProperty := do
  match ← u8 with
  | 0 => .addrDistr <$> addrDistr
  | 1 => .derivationPath <$> bytes
  | 2 => .networkTag <$> bytes
  | _ => fail

/-- `Decode for OrderPreservingProperties`: an indefinite map counts as empty. -/
def addrAttrs : Decoder (List AddrAttrProperty) := do
  let len ← header 5
  replicate addrAttrProperty (len.getD 0)

/-- The end of a derived array decoder: skip the fields beyond those known, or find the break. -/
def arrayEnd (known : Nat) : Option Nat → Decoder Unit
  | some n => do
    let _ ← replicate skip (n - known)
    pure ()
  | none => fun bs => skipItems (2 * bs.length + 2) [none] bs

/-- The derived `Decode for AddressPayload`: an array with at least the three fields. -/
def addressPayload : Decoder AddressPayload := do
  let len ← header 4
  if len.getD 3 < 3 then fail
  else
    let root ← hash 28
    let attributes ← addrAttrs
    let addrtype ← addrType
    arrayEnd 3 len
    pure ⟨root, attributes, addrtype⟩

/-- The derived `Decode for ByronAddress`; the tag number of the payload is not checked. -/
def byronAddress : Decoder ByronAddress := do
  let len ← header 4
  if len.getD 2 < 2 then fail
  else
    let _ ← tag
    let payload ← bytes
    let crc ← u32
    arrayEnd 2 len
    pure ⟨payload, UInt32.ofNat crc⟩

end Decode

def ByronAddress.decode (a : ByronAddress) : Option AddressPayload :=
  (Decode.addressPayload a.payload).map Prod.fst

/-- `Encode for AddrType`. -/
def AddrType.encode : AddrType → Bytes
  | pubKey => Cbor.uint 0
  | script => Cbor.uint 1
  | redeem => Cbor.uint 2
  | other n => Cbor.uint n.toNat

/-- `Encode for AddrDistr`. -/
def AddrDistr.encode : AddrDistr → Bytes
  | singleKeyDistribution id => Cbor.array 2 ++ Cbor.uint 0 ++ Hash.encode id
  | bootstrapEraDistribution => Cbor.array 1 ++ Cbor.uint 1

/-- `Encode for AddrAttrProperty`. -/
def AddrAttrProperty.encode : AddrAttrProperty → Bytes
  | addrDistr d => Cbor.uint 0 ++ d.encode
  | derivationPath bs => Cbor.uint 1 ++ Cbor.bytes bs
  | networkTag bs => Cbor.uint 2 ++ Cbor.bytes bs

/-- The derived `Encode for SpendingData` (flat). -/
def SpendingData.encode : SpendingData → Bytes
  | pubKey bs => Cbor.array 2 ++ Cbor.uint 0 ++ Cbor.bytes bs
  | script bs => Cbor.array 2 ++ Cbor.uint 1 ++ Cbor.bytes bs
  | redeem bs => Cbor.array 2 ++ Cbor.uint 2 ++ Cbor.bytes bs

/-- The bytes `AddressPayload::hash_address_id` hashes. -/
def addressIdPreimage (addrtype : AddrType) (spending : SpendingData) (attrs : List AddrAttrProperty) :
    Bytes :=
  Cbor.array 3 ++ addrtype.encode ++ spending.encode ++ Cbor.map attrs.length ++
    attrs.flatMap AddrAttrProperty.encode

/-! ### Addresses of any kind -/

inductive Address where
  | byron (a : ByronAddress)
  | shelley (a : ShelleyAddress)
  | stake (a : StakeAddress)
  deriving DecidableEq

namespace Address

/-- `parse_shelley_fn!` with two credentials. -/
def parseBase (payment : Hash 28 → ShelleyPaymentPart) (delegation : Hash 28 → ShelleyDelegationPart)
    (header : UInt8) (payload : Bytes) : Option Address :=
  if payload.length < 56 then none
  else some (.shelley ⟨parseNetwork header, payment (Hash.ofBytes 28 (payload.take 28)),
    delegation (Hash.ofBytes 28 ((payload.drop 28).take 28))⟩)

/-- `parse_shelley_fn!` with a pointer. -/
def parsePointer (payment : Hash 28 → ShelleyPaymentPart) (header : UInt8) (payload : Bytes) :
    Option Address :=
  if payload.length < 29 then none
  else (Pointer.parse (payload.drop 28)).map fun p =>
    .shelley ⟨parseNetwork header, payment (Hash.ofBytes 28 (payload.take 28)), .pointer p⟩

/-- `parse_shelley_fn!` without a delegation part. -/
def parseEnterprise (payment : Hash 28 → ShelleyPaymentPart) (header : UInt8) (payload : Bytes) :
    Option Address :=
  if payload.length < 28 then none
  else some (.shelley ⟨parseNetwork header, payment (Hash.ofBytes 28 (payload.take 28)), .null⟩)

/-- `parse_stake_fn!`. -/
def parseStake (kind : Hash 28 → StakePayload) (header : UInt8) (payload : Bytes) : Option Address :=
  if payload.length < 28 then none
  else some (.stake ⟨parseNetwork header, kind (Hash.ofBytes 28 (payload.take 28))⟩)

def fromBytes : Bytes → Option Address
  | [] => none
  | header :: payload =>
    match header.toNat / 16 with
    | 0 => parseBase .key .key header payload
    | 1 => parseBase .script .key header payload
    | 2 => parseBase .key .script header payload
    | 3 => parseBase .script .script header payload
    | 4 => parsePointer .key header payload
    | 5 => parsePointer .script header payload
    | 6 => parseEnterprise .key header payload
    | 7 => parseEnterprise .script header payload
    | 8 => (Decode.byronAddress (header :: payload)).map fun p => .byron p.1
    | 14 => parseStake .stake header payload
    | 15 => parseStake .script header payload
    | _ => none

end Address
end Pallas
