import Pallas.Lib.Cbor
import Pallas.Lib.Machine
import Pallas.Lib.FinMap

/-!
# Ledger primitives (`pallas-primitives/src/lib.rs`, `native_script.rs`, `plutus_data.rs`)

The types every era shares: hashes, coins, multi-asset bundles, credentials, native scripts, Plutus
data, with the encoders whose output the validators hash or measure. A value that was decoded keeps
its bytes (`KeepRaw`), and everything that is hashed is hashed from them.

Machine integers keep their width: `Coin` is a `UInt64`, a minted quantity an `Int64`. The two
refinements of them differ in what their decoder enforces: `NonZeroInt` rejects zero, while
`PositiveCoin` decodes as the plain `u64` it wraps, so a decoded bundle may hold zero of an asset.
-/

namespace Pallas
open Std

/-! ### Hashes and byte strings -/

/-- An `n`-byte digest. The numeric order is the lexicographic order of the bytes. -/
abbrev Hash (n : Nat) := BitVec (8 * n)

/-- The order of the hashes that key the maps of a bundle. -/
instance instTransOrdHash : TransOrd (Hash 28) := inferInstance

namespace Hash
variable {n : Nat}

/-- The bytes of a digest, most significant first. -/
def toBytes (h : Hash n) : Bytes := Cbor.bigEndian n h.toNat

/-- The digest with the given bytes. -/
def ofBytes (n : Nat) (bs : Bytes) : Hash n :=
  BitVec.ofNat (8 * n) (bs.foldl (fun acc b => 256 * acc + b.toNat) 0)

/-- A hash is a CBOR byte string. -/
def encode (h : Hash n) : Bytes := Cbor.bytes (toBytes h)

end Hash

abbrev AddrKeyhash := Hash 28
abbrev ScriptHash := Hash 28
abbrev PolicyId := Hash 28
abbrev PoolKeyhash := Hash 28
abbrev VrfKeyhash := Hash 32
abbrev DatumHash := Hash 32
abbrev AssetName := Bytes
abbrev RewardAccount := Bytes
abbrev Genesishash := Bytes
abbrev GenesisDelegateHash := Bytes
abbrev Coin := UInt64
abbrev Epoch := UInt64
abbrev Slot := UInt64
abbrev TransactionIndex := UInt32

/-- A value together with the bytes it was decoded from. -/
structure KeepRaw (α : Type) where
  rawCbor : Bytes
  inner : α
  raw_ne : rawCbor ≠ []

/-! ### Coins and multi-asset bundles -/

/-- `PositiveCoin`: a transparent wrapper of `u64` whose `TryFrom` rejects zero. Its decoder does not. -/
structure PositiveCoin where
  val : UInt64
  deriving DecidableEq

def PositiveCoin.tryFrom (n : UInt64) : Option PositiveCoin := if n = 0 then none else some ⟨n⟩

/-- `NonZeroInt`: its decoder and its `TryFrom` reject zero. -/
abbrev NonZeroInt := { z : Int64 // z ≠ 0 }

/-- `Multiasset<A>`. -/
abbrev Multiasset (A : Type) := FinMap PolicyId (FinMap AssetName A)

/-- The shape shared by the `Value` of the Alonzo and of the Conway modules. -/
inductive GenValue (A : Type) where
  | coin (n : Coin)
  | multiasset (n : Coin) (assets : Multiasset A)

abbrev Value := GenValue Coin

/-- `conway::Value`. -/
abbrev ConwayValue := GenValue PositiveCoin

namespace GenValue
variable {A : Type}

/-- `codec_by_datatype!`: a bare integer, or a pair of the integer and the bundle. -/
def encode (amount : A → Bytes) : GenValue A → Bytes
  | coin n => Cbor.uint n.toNat
  | multiasset n assets =>
    Cbor.array 2 ++ Cbor.uint n.toNat ++ Cbor.map assets.size ++
      assets.toList.flatMap fun (policy, names) =>
        Hash.encode policy ++ Cbor.map names.size ++
          names.toList.flatMap fun (name, a) => Cbor.bytes name ++ amount a

end GenValue

/-- `Encode for alonzo::Value`. -/
def Value.encode (v : Value) : Bytes := GenValue.encode (fun a => Cbor.uint a.toNat) v

/-- `Encode for conway::Value`. -/
def ConwayValue.encode (v : ConwayValue) : Bytes := GenValue.encode (fun a => Cbor.uint a.val.toNat) v

/-! ### Transaction parts -/

structure TransactionInput where
  transactionId : Hash 32
  index : UInt64
  deriving DecidableEq

inductive NetworkId where
  | testnet
  | mainnet
  deriving DecidableEq

/-- `u8::from(network_id)`. -/
def NetworkId.toU8 : NetworkId → UInt8
  | testnet => 0
  | mainnet => 1

structure ExUnits where
  mem : UInt64
  steps : UInt64
  deriving DecidableEq

/-- `StakeCredential`, with the script variant first as in the source. -/
inductive StakeCredential where
  | scriptHash (h : ScriptHash)
  | addrKeyhash (h : AddrKeyhash)
  deriving DecidableEq

structure RationalNumber where
  numerator : UInt64
  denominator : UInt64
  deriving DecidableEq

structure VKeyWitness where
  vkey : Bytes
  signature : Bytes
  deriving DecidableEq

/-- `PlutusScript<VERSION>`: the raw bytes of a script. -/
structure PlutusScript (version : Nat) where
  bytes : Bytes
  deriving DecidableEq

/-! ### Native scripts -/

inductive NativeScript where
  | scriptPubkey (h : AddrKeyhash)
  | scriptAll (xs : List NativeScript)
  | scriptAny (xs : List NativeScript)
  | scriptNOfK (n : Int64) (xs : List NativeScript)
  | invalidBefore (slot : UInt64)
  | invalidHereafter (slot : UInt64)

namespace NativeScript

mutual

/-- `write_header` of each node, in the order of the walk. -/
def encode : NativeScript → Bytes
  | scriptPubkey h => Cbor.array 2 ++ Cbor.uint 0 ++ Hash.encode h
  | scriptAll xs => Cbor.array 2 ++ Cbor.uint 1 ++ Cbor.array xs.length ++ encodeAll xs
  | scriptAny xs => Cbor.array 2 ++ Cbor.uint 2 ++ Cbor.array xs.length ++ encodeAll xs
  | scriptNOfK n xs =>
    Cbor.array 3 ++ Cbor.uint 3 ++ Cbor.int n.toInt ++ Cbor.array xs.length ++ encodeAll xs
  | invalidBefore slot => Cbor.array 2 ++ Cbor.uint 4 ++ Cbor.uint slot.toNat
  | invalidHereafter slot => Cbor.array 2 ++ Cbor.uint 5 ++ Cbor.uint slot.toNat

/-- The child scripts, one after the other. -/
def encodeAll : List NativeScript → Bytes
  | [] => []
  | x :: xs => encode x ++ encodeAll xs

end

end NativeScript

/-! ### Plutus data -/

/-- `BigInt`; `int` holds any integer CBOR writes with a 64-bit argument. -/
inductive BigInt where
  | int (z : ℤ)
  | bigUInt (bs : Bytes)
  | bigNInt (bs : Bytes)
  deriving DecidableEq

/-- `PlutusData`; the flag of a container says whether it was written with a definite length. -/
inductive PlutusData where
  | constr (tag : UInt64) (anyConstructor : Option UInt64) (definite : Bool) (fields : List PlutusData)
  | map (definite : Bool) (entries : List (PlutusData × PlutusData))
  | array (definite : Bool) (items : List PlutusData)
  | bigInt (z : BigInt)
  | boundedBytes (bs : Bytes)

/-- `bs.chunks(64)`, each written as a byte string. -/
def encodeChunks : (fuel : Nat) → Bytes → Bytes
  | 0, _ => []
  | _ + 1, [] => []
  | fuel + 1, bs => Cbor.bytes (bs.take 64) ++ encodeChunks fuel (bs.drop 64)

/-- `Encode for BoundedBytes`: longer strings are written in chunks of 64 bytes. -/
def encodeBoundedBytes (bs : Bytes) : Bytes :=
  if bs.length ≤ 64 then Cbor.bytes bs
  else Cbor.beginBytes ++ encodeChunks bs.length bs ++ Cbor.endIndef

/-- `Encode for BigInt`. -/
def BigInt.encode : BigInt → Bytes
  | int z => Cbor.int z
  | bigUInt bs => Cbor.tag 2 ++ encodeBoundedBytes bs
  | bigNInt bs => Cbor.tag 3 ++ encodeBoundedBytes bs

/-- The header of an array and, when it is indefinite, its end. -/
def encodeArray (definite : Bool) (n : Nat) (items : Bytes) : Bytes :=
  if definite then Cbor.array n ++ items else Cbor.beginArray ++ items ++ Cbor.endIndef

/-- The header of a map and, when it is indefinite, its end. -/
def encodeMap (definite : Bool) (n : Nat) (entries : Bytes) : Bytes :=
  if definite then Cbor.map n ++ entries else Cbor.beginMap ++ entries ++ Cbor.endIndef

namespace PlutusData

mutual

/-- `Encode for PlutusData`. -/
def encode : PlutusData → Bytes
  | constr tag anyConstructor definite fields =>
    Cbor.tag tag.toNat ++
      (if tag = 102 then Cbor.array 2 ++ Cbor.uint (anyConstructor.getD 0).toNat else []) ++
      encodeArray definite fields.length (encodeAll fields)
  | map definite entries => encodeMap definite entries.length (encodeEntries entries)
  | array definite items => encodeArray definite items.length (encodeAll items)
  | bigInt z => z.encode
  | boundedBytes bs => encodeBoundedBytes bs

/-- Items, one after the other. -/
def encodeAll : List PlutusData → Bytes
  | [] => []
  | x :: xs => encode x ++ encodeAll xs

/-- Keys and values, one after the other. -/
def encodeEntries : List (PlutusData × PlutusData) → Bytes
  | [] => []
  | (k, v) :: es => encode k ++ encode v ++ encodeEntries es

end

end PlutusData
end Pallas
