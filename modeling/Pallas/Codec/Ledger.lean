import Pallas.Codec.Containers
import Pallas.Codec.Derived
import Pallas.Codec.KeepRaw
import Pallas.Phase2.Ledger

/-!
# Hand-written ledger codecs (`pallas-primitives/src/lib.rs`, `pallas-primitives/src/dijkstra/model.rs`)

The codecs of the ledger types that are not derived. A value is told from a bundle by the type of its first byte, a set keeps the arm it
was read from, and a pool registration of Dijkstra has a slot that may be absent, null or filled. What they hold is read and written by
the codecs of `LedgerParts`.
-/

namespace Pallas
open Cbor Cbor.Decoder Std

/-- What these decoders call, beside the containers and the errors of the native scripts. -/
structure MinicborLedger (ε : Type) extends MinicborContainers ε, MinicborScript ε where
  /-- `Display for Type`. -/
  display : CborType → String
  /-- A position as it is printed, by the bytes that follow it. -/
  showPosition : Bytes → String

/-- What `minicbor` documents of them. -/
structure MinicborLedger.Lawful {ε : Type} (m : MinicborLedger ε) : Prop extends toContainers :
    m.toMinicborContainers.Lawful,
    toScript : m.toMinicborScript.Lawful where
  datatype_bool : ∀ bs, m.datatype bs = .ok .bool ↔ ∃ b rest, bs = Cbor.bool b ++ rest
  /-- Only for an integer is more than the first byte looked at. -/
  datatype_first : ∀ b tail tail' t, m.datatype (b :: tail) = .ok t → t.isInt = false → m.datatype (b :: tail') = .ok t

/-- The errors of the decoders that are derived. -/
def MinicborLedger.derive {ε : Type} (m : MinicborLedger ε) : MinicborDerive ε where
  toMinicborValues := m.toMinicborValues
  missingValue i := m.missingValue (.ofNat i)
  unknownVariant z := m.unknownVariant (.ofInt z)

/-! ### The types -/

structure Conway.Anchor where
  url : String
  contentHash : Hash 32
  deriving DecidableEq

namespace Dijkstra

/-- Which arm of `set<a0>` a value was read from. -/
inductive SetArm where
  | tagged
  | bare
  deriving DecidableEq

/-- The set types, of at least so many items. -/
structure TagSet (minimum : ℕ) (α : Type) where
  arm : SetArm
  items : List α
  enough : minimum ≤ items.length

/-- `Set<T>`. -/
abbrev Set (α : Type) := TagSet 0 α

/-- `NonEmptySet<T>`. -/
abbrev NonEmptySet (α : Type) := TagSet 1 α

structure BlsKey where
  blsPubkey : Bytes
  blsPossessionProof : Bytes
  deriving DecidableEq

/-- `Certificate`. The slot of the `bls_key` is absent, null or filled. -/
inductive Certificate where
  | stakeDelegation (stc : StakeCredential) (pool : PoolKeyhash)
  | poolRegistration (operator : PoolKeyhash) (vrfKeyhash : VrfKeyhash) (blsKey : Option (Nullable BlsKey)) (pledge cost : Coin)
      (margin : RationalNumber) (rewardAccount : RewardAccount) (poolOwners : Set AddrKeyhash)
        (relays : List Alonzo.Relay)
      (poolMetadata : Option Alonzo.PoolMetadata)
  | poolRetirement (pool : PoolKeyhash) (epoch : Epoch)
  | reg (stc : StakeCredential) (deposit : Coin)
  | unReg (stc : StakeCredential) (deposit : Coin)
  | voteDeleg (stc : StakeCredential) (drep : Conway.DRep)
  | stakeVoteDeleg (stc : StakeCredential) (pool : PoolKeyhash) (drep : Conway.DRep)
  | stakeRegDeleg (stc : StakeCredential) (pool : PoolKeyhash) (deposit : Coin)
  | voteRegDeleg (stc : StakeCredential) (drep : Conway.DRep) (deposit : Coin)
  | stakeVoteRegDeleg (stc : StakeCredential) (pool : PoolKeyhash) (drep : Conway.DRep) (deposit : Coin)
  | authCommitteeHot (cold hot : StakeCredential)
  | resignCommitteeCold (cold : StakeCredential) (anchor : Option Conway.Anchor)
  | regDRepCert (drep : StakeCredential) (deposit : Coin) (anchor : Option Conway.Anchor)
  | unRegDRepCert (drep : StakeCredential) (deposit : Coin)
  | updateDRepCert (drep : StakeCredential) (anchor : Option Conway.Anchor)

inductive Guards where
  | addrKeyhashes (guards : NonEmptySet AddrKeyhash)
  | credentials (guards : NonEmptySet StakeCredential)

inductive AccountBalanceInterval where
  | lowerBound (lower : Coin)
  | bounded (lower upper : Coin)
  | upperBound (upper : Coin)
  | exact (coin : Coin)
  deriving DecidableEq

/-- `AuxiliaryData`, of whatever the three forms hold. -/
inductive AuxiliaryData (σ μ π : Type) where
  | shelley (x : σ)
  | shelleyMa (x : μ)
  | postAlonzo (x : π)

structure MempoolTransaction (β ω δ : Type) where
  transactionBody : Keep.KeepRaw β
  transactionWitnessSet : Keep.KeepRaw ω
  isValidSupplied : Bool
  auxiliaryData : Nullable (Keep.KeepRaw δ)

end Dijkstra

open Dijkstra (TagSet BlsKey Certificate Guards AccountBalanceInterval MempoolTransaction)

/-- The codecs of what the types hold. Of these the codecs of a margin and of relays are hand-written as well. -/
structure LedgerParts (ε α β ω δ : Type) where
  item : Codec ε α
  alonzoAssets : Codec ε (Multiasset Coin)
  conwayAssets : Codec ε (Multiasset PositiveCoin)
  stakeCredential : Codec ε StakeCredential
  drep : Codec ε Conway.DRep
  blsKey : Codec ε BlsKey
  margin : Codec ε RationalNumber
  relays : Codec ε (List Alonzo.Relay)
  poolMetadata : Codec ε (Option Alonzo.PoolMetadata)
  anchor : Codec ε (Option Conway.Anchor)
  body : Codec ε β
  witnessSet : Codec ε ω
  auxiliaryData : Codec ε δ

/-! ### The codecs -/

namespace Codec
variable {ε α β γ δ τ : Type} (m : MinicborLedger ε)

section Elements

def u32 : Codec ε UInt32 := ⟨m.u32, fun n => Cbor.uint n.toNat⟩

def u64 : Codec ε UInt64 := ⟨m.u64, fun n => Cbor.uint n.toNat⟩

def hash (n : ℕ) : Codec ε (Hash n) := ⟨NativeScript.decodeHash m.toMinicborScript n, Hash.encode⟩

/-- `Bytes`. -/
def byteString : Codec ε Bytes := ⟨decodeBytesDefOrIndef m.toMinicbor, Cbor.bytes⟩

/-- `decode_text_def_or_indef`, written as it is. -/
def text : Codec ε String := ⟨decodeTextDefOrIndef m.toMinicborText, encodeText⟩

/-- `Option<T>`. -/
def option (item : Codec ε α) : Codec ε (Option α) where
  decode := Derived.optional m.derive item.decode
  encode
    | some a => item.encode a
    | none => Cbor.null

/-- `Vec<T>`. -/
def vec (item : Codec ε α) :
    Codec ε (List α) := ⟨m.arrayIter item.decode, fun xs => Cbor.array xs.length ++ xs.flatMap item.encode⟩

/-- `KeepRaw<T>`. -/
def keepRaw (inner : Codec ε α) :
    Codec ε (Keep.KeepRaw α) := ⟨Keep.KeepRaw.decode inner.decode, Keep.KeepRaw.encode inner.encode⟩

end Elements

section Fields

/-- Two elements of an array, one after the other. -/
def fields₂ (x : Reader ε α) (y : Reader ε β) (make : α → β → τ) : Reader ε τ := do
  let a ← x
  let b ← y
  pure (make a b)

def fields₃ (x : Reader ε α) (y : Reader ε β) (z : Reader ε γ) (make : α → β → γ → τ) : Reader ε τ := do
  let a ← x
  fields₂ y z (make a)

def fields₄ (x : Reader ε α) (y : Reader ε β) (z : Reader ε γ) (w : Reader ε δ)
    (make : α → β → γ → δ → τ) : Reader ε τ := do
  let a ← x
  fields₃ y z w (make a)

end Fields

/-- `codec_by_datatype!` for `Value`. -/
def value {A : Type} (assets : Codec ε (Multiasset A)) : Codec ε (GenValue A) where
  decode := do
    match ← m.peekType with
    | .array => do
      let _ ← m.array
      fields₂ m.u64 assets.decode .multiasset
    | .u8 | .u16 | .u32 | .u64 => .coin <$> m.u64
    | _ => Reader.throw (m.message "Unknown cbor data type for this macro-defined enum.")
  encode
    | .coin n => (u64 m).encode n
    | .multiasset n multi => Cbor.array 2 ++ ((u64 m).encode n ++ assets.encode multi)

/-- `codec_by_datatype!` for `AuxiliaryData`. -/
def auxiliaryData {σ μ π : Type} (shelley : Codec ε σ) (shelleyMa : Codec ε μ) (postAlonzo : Codec ε π) :
    Codec ε (Dijkstra.AuxiliaryData σ μ π) where
  decode := do
    match ← m.peekType with
    | .map | .mapIndef => .shelley <$> shelley.decode
    | .array | .arrayIndef => .shelleyMa <$> shelleyMa.decode
    | .tag => .postAlonzo <$> postAlonzo.decode
    | _ => Reader.throw (m.message "Unknown cbor data type for this macro-defined enum.")
  encode
    | .shelley x => shelley.encode x
    | .shelleyMa x => shelleyMa.encode x
    | .postAlonzo x => postAlonzo.encode x

/-- `RationalNumber`: neither the tag nor the length is looked at. -/
def rationalNumber : Codec ε RationalNumber where
  decode := do
    let _ ← m.tag
    let _ ← m.array
    fields₂ m.u64 m.u64 .mk
  encode r := Cbor.tag 30 ++ (Cbor.array 2 ++ ((u64 m).encode r.numerator ++ (u64 m).encode r.denominator))

/-- The fields of a relay, by its variant. -/
def relayFields : (variant : ℕ) → Reader ε Alonzo.Relay
  | 0 => fields₃ (option m (u32 m)).decode (option m (byteString m)).decode (option m (byteString m)).decode .singleHostAddr
  | 1 => fields₂ (option m (u32 m)).decode (text m).decode .singleHostName
  | 2 => .multiHostName <$> (text m).decode
  | _ => Reader.throw (m.message "invalid variant id for Relay")

def relay : Codec ε Alonzo.Relay where
  decode := do
    let _ ← m.array
    let variant ← m.u16
    relayFields m variant.toNat
  encode
    | .singleHostAddr a b c => Cbor.array 4 ++ (Cbor.uint 0 ++ ((option m (u32 m)).encode a ++
        ((option m (byteString m)).encode b ++ (option m (byteString m)).encode c)))
    | .singleHostName a b => Cbor.array 3 ++ (Cbor.uint 1 ++ ((option m (u32 m)).encode a ++ (text m).encode b))
    | .multiHostName a => Cbor.array 2 ++ (Cbor.uint 2 ++ (text m).encode a)

section Sets
variable (rule : String) (minimum : ℕ) (item : Codec ε α)

/-- The arm that the next bytes carry. -/
def setArm : Reader ε Dijkstra.SetArm := do
  if (← m.peekType) = .tag then
    let found ← m.tag
    if found ≠ tagSet then Reader.throw (m.message ("unrecognised tag on " ++ rule ++ ": " ++ m.debugTag found))
    else pure .tagged
  else pure .bare

def atLeast (arm : Dijkstra.SetArm) (items : List α) : Reader ε (TagSet minimum α) :=
  if enough : minimum ≤ items.length then pure ⟨arm, items, enough⟩
  else Reader.throw (m.message s!"too few elements for {rule}: {items.length} of at least {minimum}")

/-- `tag_preserving_set!`. -/
def tagPreservingSet : Codec ε (TagSet minimum α) where
  decode := do
    let arm ← setArm m rule
    let items ← m.arrayIter item.decode
    atLeast m rule minimum arm items
  encode set := (if set.arm = .tagged then Cbor.tag tagSet.toNat else []) ++ (vec m item).encode set.items

end Sets

/-- `dijkstra::Set<T>`. -/
def dijkstraSet (item : Codec ε α) : Codec ε (Dijkstra.Set α) := tagPreservingSet m "a set" 0 item

/-- `dijkstra::NonEmptySet<T>`. -/
def dijkstraNonEmptySet (item : Codec ε α) : Codec ε (Dijkstra.NonEmptySet α) := tagPreservingSet m "a nonempty set" 1 item

section Certificate
variable {α β ω δ : Type} (parts : LedgerParts ε α β ω δ)

/-- The slot of the `bls_key`: a coin there means that it was left out. -/
def blsKeySlot : Codec ε (Option (Nullable BlsKey)) where
  decode := do
    match ← m.peekType with
    | .array | .arrayIndef => (fun k => some (.some k)) <$> parts.blsKey.decode
    | .null => do
      let _ ← m.null
      pure (some .null)
    | _ => pure none
  encode
    | some (.some k) => parts.blsKey.encode k
    | some _ => Cbor.null
    | none => []

/-- The fields behind the slot. -/
def poolFields (operator : PoolKeyhash) (vrfKeyhash : VrfKeyhash) (blsKey : Option (Nullable BlsKey)) :
    Reader ε Certificate := do
  let pledge ← m.u64
  let cost ← m.u64
  let margin ← parts.margin.decode
  fields₄ (byteString m).decode (dijkstraSet m (hash m 28)).decode parts.relays.decode parts.poolMetadata.decode
    (.poolRegistration operator vrfKeyhash blsKey pledge cost margin)

def poolRegistration : Reader ε Certificate := do
  let operator ← (hash m 28).decode
  let vrfKeyhash ← (hash m 32).decode
  let blsKey ← (blsKeySlot m parts).decode
  poolFields m parts operator vrfKeyhash blsKey

/-- The fields of a certificate, by its variant. -/
def certificateFields : (variant : ℕ) → Reader ε Certificate
  | 2 => fields₂ parts.stakeCredential.decode (hash m 28).decode .stakeDelegation
  | 3 => poolRegistration m parts
  | 4 => fields₂ (hash m 28).decode m.u64 .poolRetirement
  | 7 => fields₂ parts.stakeCredential.decode m.u64 .reg
  | 8 => fields₂ parts.stakeCredential.decode m.u64 .unReg
  | 9 => fields₂ parts.stakeCredential.decode parts.drep.decode .voteDeleg
  | 10 => fields₃ parts.stakeCredential.decode (hash m 28).decode parts.drep.decode .stakeVoteDeleg
  | 11 => fields₃ parts.stakeCredential.decode (hash m 28).decode m.u64 .stakeRegDeleg
  | 12 => fields₃ parts.stakeCredential.decode parts.drep.decode m.u64 .voteRegDeleg
  | 13 => fields₄ parts.stakeCredential.decode (hash m 28).decode parts.drep.decode m.u64 .stakeVoteRegDeleg
  | 14 => fields₂ parts.stakeCredential.decode parts.stakeCredential.decode .authCommitteeHot
  | 15 => fields₂ parts.stakeCredential.decode parts.anchor.decode .resignCommitteeCold
  | 16 => fields₃ parts.stakeCredential.decode m.u64 parts.anchor.decode .regDRepCert
  | 17 => fields₂ parts.stakeCredential.decode m.u64 .unRegDRepCert
  | 18 => fields₂ parts.stakeCredential.decode parts.anchor.decode .updateDRepCert
  | 0 => Reader.throw (m.message "certificate variant 0 was removed in Dijkstra")
  | 1 => Reader.throw (m.message "certificate variant 1 was removed in Dijkstra")
  | variant => Reader.throw (m.message s!"unknown certificate variant {variant}")

/-- `Encode for Certificate`. -/
def encodeCertificate : Certificate → Bytes
  | .stakeDelegation a b => Cbor.array 3 ++ (Cbor.uint 2 ++ (parts.stakeCredential.encode a ++ (hash m 28).encode b))
  | .poolRegistration operator vrfKeyhash blsKey pledge cost margin rewardAccount poolOwners relays poolMetadata =>
    Cbor.array (if blsKey.isSome then 11 else 10) ++
      (Cbor.uint 3 ++ ((hash m 28).encode operator ++ ((hash m 32).encode vrfKeyhash ++
      ((blsKeySlot m parts).encode blsKey ++
        ((u64 m).encode pledge ++ ((u64 m).encode cost ++ (parts.margin.encode margin ++
      ((byteString m).encode rewardAccount ++ ((dijkstraSet m (hash m 28)).encode poolOwners ++
      (parts.relays.encode relays ++ parts.poolMetadata.encode poolMetadata))))))))))
  | .poolRetirement a b => Cbor.array 3 ++ (Cbor.uint 4 ++ ((hash m 28).encode a ++ (u64 m).encode b))
  | .reg a b => Cbor.array 3 ++ (Cbor.uint 7 ++ (parts.stakeCredential.encode a ++ (u64 m).encode b))
  | .unReg a b => Cbor.array 3 ++ (Cbor.uint 8 ++ (parts.stakeCredential.encode a ++ (u64 m).encode b))
  | .voteDeleg a b => Cbor.array 3 ++ (Cbor.uint 9 ++ (parts.stakeCredential.encode a ++ parts.drep.encode b))
  | .stakeVoteDeleg a b c =>
    Cbor.array 4 ++ (Cbor.uint 10 ++ (parts.stakeCredential.encode a ++ ((hash m 28).encode b ++ parts.drep.encode c)))
  | .stakeRegDeleg a b c =>
    Cbor.array 4 ++ (Cbor.uint 11 ++ (parts.stakeCredential.encode a ++ ((hash m 28).encode b ++ (u64 m).encode c)))
  | .voteRegDeleg a b c =>
    Cbor.array 4 ++ (Cbor.uint 12 ++ (parts.stakeCredential.encode a ++ (parts.drep.encode b ++ (u64 m).encode c)))
  | .stakeVoteRegDeleg a b c d => Cbor.array 5 ++ (Cbor.uint 13 ++
      (parts.stakeCredential.encode a ++ ((hash m 28).encode b ++ (parts.drep.encode c ++ (u64 m).encode d))))
  | .authCommitteeHot a b => Cbor.array 3 ++ (Cbor.uint 14 ++ (parts.stakeCredential.encode a ++ parts.stakeCredential.encode b))
  | .resignCommitteeCold a b => Cbor.array 3 ++ (Cbor.uint 15 ++ (parts.stakeCredential.encode a ++ parts.anchor.encode b))
  | .regDRepCert a b c =>
    Cbor.array 4 ++ (Cbor.uint 16 ++ (parts.stakeCredential.encode a ++ ((u64 m).encode b ++ parts.anchor.encode c)))
  | .unRegDRepCert a b => Cbor.array 3 ++ (Cbor.uint 17 ++ (parts.stakeCredential.encode a ++ (u64 m).encode b))
  | .updateDRepCert a b => Cbor.array 3 ++ (Cbor.uint 18 ++ (parts.stakeCredential.encode a ++ parts.anchor.encode b))

def certificate : Codec ε Certificate where
  decode := do
    let _ ← m.array
    let variant ← m.u16
    certificateFields m parts variant.toNat
  encode := encodeCertificate m parts

end Certificate

section Guards

def emptyGuards : ε := m.message "guards must carry at least one element"

/-- Moves the second decoder over a tag. -/
def passTag : Reader ε Unit := do
  if (← m.peekType) = .tag then
    let _ ← m.tag
    pure ()
  else pure ()

/-- The type of the first element, behind the tag and the array. -/
def guardsElement : Reader ε CborType := do
  passTag m
  let len ← m.array
  if len = some 0 then Reader.throw (emptyGuards m)
  else m.peekType

/-- `Guards`: a second decoder looks for the type of the elements. -/
def guards (credential : Codec ε StakeCredential) : Codec ε Guards where
  decode := do
    match ← (guardsElement m).probe with
    | .break => Reader.throw (emptyGuards m)
    | .array | .arrayIndef => .credentials <$> (dijkstraNonEmptySet m credential).decode
    | .bytes | .bytesIndef => .addrKeyhashes <$> (dijkstraNonEmptySet m (hash m 28)).decode
    | other => do
      let position ← Minicbor.position
      Reader.throw (m.message ("invalid guards element type " ++ m.display other ++ " at position " ++ m.showPosition position))
  encode
    | .addrKeyhashes x => (dijkstraNonEmptySet m (hash m 28)).encode x
    | .credentials x => (dijkstraNonEmptySet m credential).encode x

end Guards

section Interval

/-- A bound, or null where there is none. -/
def bound : Codec ε (Option Coin) where
  decode := do
    match ← m.peekType with
    | .null => do
      let _ ← m.null
      pure none
    | _ => some <$> m.u64
  encode
    | some n => (u64 m).encode n
    | none => Cbor.null

/-- The two lengths that are let through. -/
def intervalLength : Option UInt64 → Reader ε Unit
  | none => pure ()
  | some found =>
    if found = 2 then pure ()
    else Reader.throw (m.message s!"account_balance_interval takes two elements, found {found}")

/-- The break of an array without a length. -/
def intervalEnd (len : Option UInt64) : Reader ε Unit := do
  if len = none then
    if (← m.peekType) ≠ .break then
      Reader.throw (m.message "account_balance_interval takes two elements, found more")
    else m.skip
  else pure ()

def interval : (lower upper : Option Coin) → Reader ε AccountBalanceInterval
  | some l, none => pure (.lowerBound l)
  | some l, some u => pure (.bounded l u)
  | none, some u => pure (.upperBound u)
  | none, none => Reader.throw (m.message "account_balance_interval with neither a lower nor an upper bound")

def accountBalanceInterval : Codec ε AccountBalanceInterval where
  decode := do
    match ← m.peekType with
    | .array | .arrayIndef => do
      let len ← m.array
      intervalLength m len
      let lower ← (bound m).decode
      let upper ← (bound m).decode
      intervalEnd m len
      interval m lower upper
    | _ => .exact <$> m.u64
  encode
    | .lowerBound l => Cbor.array 2 ++ ((u64 m).encode l ++ Cbor.null)
    | .bounded l u => Cbor.array 2 ++ ((u64 m).encode l ++ (u64 m).encode u)
    | .upperBound u => Cbor.array 2 ++ (Cbor.null ++ (u64 m).encode u)
    | .exact c => (u64 m).encode c

end Interval

section Mempool
variable {α β ω δ : Type} (parts : LedgerParts ε α β ω δ)

/-- Whether `is_valid` is given; it may only be `true`. -/
def isValidSupplied : Reader ε Bool := do
  match ← m.peekType with
  | .bool => do
    if ← m.bool then pure true
    else Reader.throw (m.message "value `false` not allowed for `is_valid`")
  | _ => pure false

/-- A length that is given has to fit. -/
def mempoolLength (supplied : Bool) : Option UInt64 → Reader ε Unit
  | none => pure ()
  | some len =>
    let expected : UInt64 := if supplied then 4 else 3
    if len ≠ expected then Reader.throw (m.message s!"expected a {expected} element transaction, found {len}")
    else pure ()

def mempoolTransaction : Codec ε (MempoolTransaction β ω δ) where
  decode := do
    let len ← m.array
    let body ← (keepRaw parts.body).decode
    let witnessSet ← (keepRaw parts.witnessSet).decode
    let supplied ← isValidSupplied m
    mempoolLength m supplied len
    let auxiliaryData ← (nullable m.toMinicborContainers (keepRaw parts.auxiliaryData)).decode
    pure ⟨body, witnessSet, supplied, auxiliaryData⟩
  encode tx := Cbor.array (if tx.isValidSupplied then 4 else 3) ++ ((keepRaw parts.body).encode tx.transactionBody ++
    ((keepRaw parts.witnessSet).encode tx.transactionWitnessSet ++
      ((if tx.isValidSupplied then Cbor.bool true else []) ++
    (nullable m.toMinicborContainers (keepRaw parts.auxiliaryData)).encode tx.auxiliaryData)))

end Mempool
end Codec

/-- The types that have these codecs. -/
inductive Handwritten where
  | alonzoValue
  | conwayValue
  | rationalNumber
  | relay
  | certificate
  | guards
  | accountBalanceInterval
  | set
  | nonEmptySet
  | mempoolTransaction
  deriving DecidableEq

namespace Handwritten

def Value (α β ω δ : Type) : Handwritten → Type
  | alonzoValue => Pallas.Value
  | conwayValue => ConwayValue
  | rationalNumber => RationalNumber
  | relay => Alonzo.Relay
  | certificate => Certificate
  | guards => Guards
  | accountBalanceInterval => AccountBalanceInterval
  | set => Dijkstra.Set α
  | nonEmptySet => Dijkstra.NonEmptySet α
  | mempoolTransaction => MempoolTransaction β ω δ

def codec {ε α β ω δ : Type} (m : MinicborLedger ε) (parts : LedgerParts ε α β ω δ) :
    (k : Handwritten) → Codec ε (k.Value α β ω δ)
  | alonzoValue => .value m parts.alonzoAssets
  | conwayValue => .value m parts.conwayAssets
  | rationalNumber => .rationalNumber m
  | relay => .relay m
  | certificate => .certificate m parts
  | guards => .guards m parts.stakeCredential
  | accountBalanceInterval => .accountBalanceInterval m
  | set => .dijkstraSet m parts.item
  | nonEmptySet => .dijkstraNonEmptySet m parts.item
  | mempoolTransaction => .mempoolTransaction m parts

end Handwritten

/-! ### At the decoder by the standard -/

namespace MinicborLedger
open Minicbor

def reference : MinicborLedger String where
  toMinicborContainers := MinicborContainers.reference
  i64 := MinicborScript.reference.i64
  unknownVariant := MinicborScript.reference.unknownVariant
  missingValue := MinicborScript.reference.missingValue
  errorAt := MinicborScript.reference.errorAt
  display := debugType
  showPosition bs := toString bs.length ++ " bytes from the end"

theorem typeOfHead_bool {b : UInt8} {wide : Bool} {info major : ℕ} (hmajor : major < 8) :
    typeOfHead b wide info major = .bool → major = 7 ∧ (info = 20 ∨ info = 21) := by
  match major with
  | 0 | 1 | 2 | 3 | 4 | 5 | 6 | 7 =>
    simp only [typeOfHead, intType, sizedType, simpleType]
    repeat' split
    all_goals simp
    try omega
  | n + 8 => omega

theorem typeOfHead_narrow {b : UInt8} {wide wide' : Bool} {info major : ℕ}
    (h : (typeOfHead b wide info major).isInt = false) :
    typeOfHead b wide' info major = typeOfHead b wide info major := by
  match major with
  | 0 | 2 | 3 | 4 | 5 | 6 | _ + 7 => rfl
  | 1 =>
    have hlarge : 28 ≤ info := by
      by_contra hlt
      simp only [typeOfHead, intType] at h
      repeat' split at h
      all_goals first
        | omega
        | cases h
    have h24 : ¬ info ≤ 24 := by omega
    have h25 : info ≠ 25 := by omega
    have h26 : info ≠ 26 := by omega
    have h27 : info ≠ 27 := by omega
    simp [typeOfHead, intType, h24, h25, h26, h27]

theorem reference_lawful : reference.Lawful where
  toContainers := MinicborContainers.reference_lawful
  i64 := MinicborScript.reference_lawful.i64
  datatype_bool bs := by
    constructor
    · intro h
      obtain ⟨b, tail, wide, rfl, ht⟩ := typeOf_eq_ok h
      have hb : b.toNat < 256 := b.toNat_lt
      obtain ⟨hmajor, hinfo | hinfo⟩ := typeOfHead_bool (by omega) ht
      · obtain rfl : b = 0xf4 := UInt8.toNat_inj.1 (by rw [show (0xf4 : UInt8).toNat = 244 from rfl]; omega)
        exact ⟨false, tail, rfl⟩
      · obtain rfl : b = 0xf5 := UInt8.toNat_inj.1 (by rw [show (0xf5 : UInt8).toNat = 245 from rfl]; omega)
        exact ⟨true, tail, rfl⟩
    · rintro ⟨b, rest, rfl⟩
      cases b <;> rfl
  datatype_first b tail tail' t h hint := by
    obtain ht : typeOfHead b (wideArgument tail) (b.toNat % 32) (b.toNat / 32) = t := Except.ok.inj h
    show Except.ok (typeOfHead b (wideArgument tail') (b.toNat % 32) (b.toNat / 32)) = .ok t
    rw [typeOfHead_narrow (ht ▸ hint), ht]

end MinicborLedger
end Pallas
