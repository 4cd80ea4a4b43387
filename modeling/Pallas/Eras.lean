import Pallas.Addresses

/-!
# Transactions of each era, and outputs of any era
(`pallas-primitives/src/{byron,alonzo,babbage,conway}/model.rs`, `pallas-traverse/src/{lib,input,output,value}.rs`)

The record fields are those the validators read, plus the withdrawals of a Shelley-to-Alonzo body,
which they do not. `Vec`, `Set` and `NonEmptySet` are all lists: none of the three removes repeated
entries when it is decoded, and `NonEmptySet` decodes an empty array.

A UTxO map is a function from inputs to outputs; the validators only ever look keys up.
-/

namespace Pallas
open Std

/-- `Nullable<T>`. -/
inductive Nullable (α : Type) where
  | some (a : α)
  | null
  | undefined

namespace Nullable
variable {α : Type}

/-- `Option::from(nullable)`. -/
def toOption : Nullable α → Option α
  | some a => Option.some a
  | null => none
  | undefined => none

end Nullable

/-- The auxiliary data of a transaction: only its bytes are looked at. -/
structure AuxiliaryData where
  rawCbor : Bytes

inductive Era where
  | byron
  | shelley
  | allegra
  | mary
  | alonzo
  | babbage
  | conway
  deriving DecidableEq

/-! ### Byron -/

namespace Byron

inductive TxIn where
  | variant0 (txId : Hash 32) (index : UInt32)
  | other (tag : UInt8) (bytes : Bytes)
  deriving DecidableEq

structure TxOut where
  address : ByronAddress
  amount : UInt64
  deriving DecidableEq

structure Tx where
  inputs : List TxIn
  outputs : List TxOut

inductive Twit where
  | pkWitness (pubKey signature : Bytes)
  | scriptWitness
  | redeemWitness (pubKey signature : Bytes)
  | other (tag : UInt8)

structure TxPayload where
  transaction : KeepRaw Tx
  witness : KeepRaw (List Twit)

end Byron

/-! ### Shelley, Allegra, Mary, Alonzo -/

namespace Alonzo

structure TransactionOutput where
  address : Bytes
  amount : Value
  datumHash : Option DatumHash

inductive InstantaneousRewardSource where
  | reserves
  | treasury
  deriving DecidableEq

/-- A stake credential orders as its variant, then its hash. -/
def stakeCredentialKey : StakeCredential → List ℕ
  | .scriptHash h => [0, h.toNat]
  | .addrKeyhash h => [1, h.toNat]

theorem stakeCredentialKey_injective : Function.Injective stakeCredentialKey := by
  rintro (a | a) (b | b) h
  all_goals simp only [stakeCredentialKey, List.cons.injEq, zero_ne_one, one_ne_zero, false_and,
    true_and, and_true] at h
  all_goals rw [BitVec.eq_of_toNat_eq h]

instance : Ord StakeCredential := FinMap.ordOn stakeCredentialKey
instance : TransOrd StakeCredential := FinMap.transOrd_ordOn stakeCredentialKey
instance : LawfulEqOrd StakeCredential := FinMap.lawfulEqOrd_ordOn stakeCredentialKey_injective

inductive InstantaneousRewardTarget where
  | stakeCredentials (credits : FinMap StakeCredential Int64)
  | otherAccountingPot (n : Coin)

structure MoveInstantaneousReward where
  source : InstantaneousRewardSource
  target : InstantaneousRewardTarget

inductive Relay where
  | singleHostAddr (port : Option UInt32) (ipv4 ipv6 : Option Bytes)
  | singleHostName (port : Option UInt32) (dnsName : String)
  | multiHostName (dnsName : String)
  deriving DecidableEq

structure PoolMetadata where
  url : String
  hash : Bytes
  deriving DecidableEq

/-- The pool parameters of a registration certificate, kept by the pool state as they are. -/
structure PoolParam where
  vrfKeyhash : VrfKeyhash
  pledge : Coin
  cost : Coin
  margin : RationalNumber
  rewardAccount : RewardAccount
  poolOwners : List AddrKeyhash
  relays : List Relay
  poolMetadata : Option PoolMetadata
  deriving DecidableEq

inductive Certificate where
  | stakeRegistration (stc : StakeCredential)
  | stakeDeregistration (stc : StakeCredential)
  | stakeDelegation (stc : StakeCredential) (pool : PoolKeyhash)
  | poolRegistration (operator : PoolKeyhash) (params : PoolParam)
  | poolRetirement (pool : PoolKeyhash) (epoch : Epoch)
  | genesisKeyDelegation (gkh : Genesishash) (dkh : GenesisDelegateHash) (vrf : VrfKeyhash)
  | moveInstantaneousRewardsCert (mir : MoveInstantaneousReward)

structure TransactionBody where
  inputs : List TransactionInput
  outputs : List TransactionOutput
  fee : UInt64
  ttl : Option UInt64 := none
  certificates : Option (List Certificate) := none
  withdrawals : Option (FinMap RewardAccount Coin) := none
  auxiliaryDataHash : Option (Hash 32) := none
  validityIntervalStart : Option UInt64 := none
  mint : Option (Multiasset Int64) := none
  scriptDataHash : Option (Hash 32) := none
  collateral : Option (List TransactionInput) := none
  requiredSigners : Option (List AddrKeyhash) := none
  networkId : Option NetworkId := none

inductive RedeemerTag where
  | spend
  | mint
  | cert
  | reward
  deriving DecidableEq

structure RedeemerPointer where
  tag : RedeemerTag
  index : UInt32
  deriving DecidableEq

structure Redeemer where
  tag : RedeemerTag
  index : UInt32
  data : PlutusData
  exUnits : ExUnits

structure WitnessSet where
  vkeywitness : Option (List VKeyWitness) := none
  nativeScript : Option (List (KeepRaw NativeScript)) := none
  plutusScript : Option (List (PlutusScript 1)) := none
  plutusData : Option (List (KeepRaw PlutusData)) := none
  redeemer : Option (List Redeemer) := none

structure Tx where
  transactionBody : KeepRaw TransactionBody
  transactionWitnessSet : KeepRaw WitnessSet
  success : Bool
  auxiliaryData : Nullable AuxiliaryData

end Alonzo

/-! ### Babbage -/

namespace Babbage

inductive DatumOption where
  | hash (h : DatumHash)
  | data (d : KeepRaw PlutusData)

inductive ScriptRef where
  | nativeScript (s : KeepRaw NativeScript)
  | plutusV1Script (s : PlutusScript 1)
  | plutusV2Script (s : PlutusScript 2)

structure GenPostAlonzoTransactionOutput (V S : Type) where
  address : Bytes
  value : V
  datumOption : Option DatumOption
  scriptRef : Option S

inductive GenTransactionOutput (T : Type) where
  | legacy (o : Alonzo.TransactionOutput)
  | postAlonzo (o : T)

abbrev PostAlonzoTransactionOutput := GenPostAlonzoTransactionOutput Value ScriptRef

abbrev TransactionOutput := GenTransactionOutput PostAlonzoTransactionOutput

structure TransactionBody where
  inputs : List TransactionInput
  outputs : List TransactionOutput
  fee : UInt64
  ttl : Option UInt64 := none
  auxiliaryDataHash : Option Bytes := none
  validityIntervalStart : Option UInt64 := none
  mint : Option (Multiasset Int64) := none
  scriptDataHash : Option (Hash 32) := none
  collateral : Option (List TransactionInput) := none
  requiredSigners : Option (List AddrKeyhash) := none
  networkId : Option NetworkId := none
  collateralReturn : Option TransactionOutput := none
  totalCollateral : Option Coin := none
  referenceInputs : Option (List TransactionInput) := none

structure WitnessSet where
  vkeywitness : Option (List VKeyWitness) := none
  nativeScript : Option (List (KeepRaw NativeScript)) := none
  plutusV1Script : Option (List (PlutusScript 1)) := none
  plutusData : Option (List (KeepRaw PlutusData)) := none
  redeemer : Option (List Alonzo.Redeemer) := none
  plutusV2Script : Option (List (PlutusScript 2)) := none

structure Tx where
  transactionBody : KeepRaw TransactionBody
  transactionWitnessSet : KeepRaw WitnessSet
  success : Bool
  auxiliaryData : Nullable AuxiliaryData

end Babbage

/-! ### Conway -/

namespace Conway
open Babbage (DatumOption GenPostAlonzoTransactionOutput GenTransactionOutput)

inductive ScriptRef where
  | nativeScript (s : KeepRaw NativeScript)
  | plutusV1Script (s : PlutusScript 1)
  | plutusV2Script (s : PlutusScript 2)
  | plutusV3Script (s : PlutusScript 3)

abbrev PostAlonzoTransactionOutput := GenPostAlonzoTransactionOutput ConwayValue ScriptRef

abbrev TransactionOutput := GenTransactionOutput PostAlonzoTransactionOutput

abbrev Mint := Multiasset NonZeroInt

structure TransactionBody where
  inputs : List TransactionInput
  outputs : List TransactionOutput
  fee : Coin
  ttl : Option UInt64 := none
  withdrawals : Option (FinMap RewardAccount Coin) := none
  auxiliaryDataHash : Option (Hash 32) := none
  validityIntervalStart : Option UInt64 := none
  mint : Option Mint := none
  scriptDataHash : Option (Hash 32) := none
  collateral : Option (List TransactionInput) := none
  requiredSigners : Option (List AddrKeyhash) := none
  networkId : Option NetworkId := none
  collateralReturn : Option TransactionOutput := none
  totalCollateral : Option Coin := none
  referenceInputs : Option (List TransactionInput) := none

inductive RedeemerTag where
  | spend
  | mint
  | cert
  | reward
  | vote
  | propose
  deriving DecidableEq

/-- The index of a tag's variant. -/
def RedeemerTag.index : RedeemerTag → Nat
  | spend => 0
  | mint => 1
  | cert => 2
  | reward => 3
  | vote => 4
  | propose => 5

structure RedeemersKey where
  tag : RedeemerTag
  index : UInt32
  deriving DecidableEq

/-- Redeemer keys order by tag, then by index. -/
def redeemersKeyKey (k : RedeemersKey) : List ℕ := [k.tag.index, k.index.toNat]

theorem redeemersKeyKey_injective : Function.Injective redeemersKeyKey := by
  rintro ⟨t, i⟩ ⟨u, j⟩ h
  simp only [redeemersKeyKey, List.cons.injEq, and_true] at h
  obtain ⟨ht, hi⟩ := h
  have hij : i = j := UInt32.toNat_inj.1 hi
  subst hij
  cases t <;> cases u <;> simp_all [RedeemerTag.index]

instance : Ord RedeemersKey := FinMap.ordOn redeemersKeyKey
instance : TransOrd RedeemersKey := FinMap.transOrd_ordOn redeemersKeyKey
instance : LawfulEqOrd RedeemersKey := FinMap.lawfulEqOrd_ordOn redeemersKeyKey_injective

structure Redeemer where
  tag : RedeemerTag
  index : UInt32
  data : PlutusData
  exUnits : ExUnits

structure RedeemersValue where
  data : PlutusData
  exUnits : ExUnits

inductive Redeemers where
  | list (rs : List Redeemer)
  | map (rs : FinMap RedeemersKey RedeemersValue)

structure WitnessSet where
  vkeywitness : Option (List VKeyWitness) := none
  nativeScript : Option (List (KeepRaw NativeScript)) := none
  plutusV1Script : Option (List (PlutusScript 1)) := none
  plutusData : Option (KeepRaw (List (KeepRaw PlutusData))) := none
  redeemer : Option (KeepRaw Redeemers) := none
  plutusV2Script : Option (List (PlutusScript 2)) := none
  plutusV3Script : Option (List (PlutusScript 3)) := none

structure Tx where
  transactionBody : KeepRaw TransactionBody
  transactionWitnessSet : KeepRaw WitnessSet
  success : Bool
  auxiliaryData : Nullable AuxiliaryData

end Conway

/-! ### Inputs and outputs of any era -/

inductive MultiEraInput where
  | byron (i : Byron.TxIn)
  | alonzoCompatible (i : TransactionInput)
  deriving DecidableEq

inductive MultiEraValue where
  | byron (n : UInt64)
  | alonzoCompatible (v : Value)
  | conway (v : ConwayValue)

inductive MultiEraOutput where
  | alonzoCompatible (o : Alonzo.TransactionOutput) (era : Era)
  | babbage (o : Babbage.TransactionOutput)
  | conway (o : Conway.TransactionOutput)
  | byron (o : Byron.TxOut)

inductive MultiEraTx where
  | alonzoCompatible (tx : Alonzo.Tx) (era : Era)
  | babbage (tx : Babbage.Tx)
  | byron (tx : Byron.TxPayload)
  | conway (tx : Conway.Tx)

abbrev UTxOs := MultiEraInput → Option MultiEraOutput

namespace MultiEraOutput

def asAlonzo : MultiEraOutput → Option Alonzo.TransactionOutput
  | alonzoCompatible o _ => some o
  | _ => none

def asBabbage : MultiEraOutput → Option Babbage.TransactionOutput
  | babbage o => some o
  | _ => none

def asByron : MultiEraOutput → Option Byron.TxOut
  | byron o => some o
  | _ => none

def asConway : MultiEraOutput → Option Conway.TransactionOutput
  | conway o => some o
  | _ => none

def datum : MultiEraOutput → Option Babbage.DatumOption
  | alonzoCompatible o _ => o.datumHash.map .hash
  | babbage (.legacy o) => o.datumHash.map .hash
  | babbage (.postAlonzo o) => o.datumOption
  | byron _ => none
  | conway (.legacy o) => o.datumHash.map .hash
  | conway (.postAlonzo o) => o.datumOption

def address : MultiEraOutput → Option Address
  | alonzoCompatible o _ => Address.fromBytes o.address
  | babbage (.legacy o) => Address.fromBytes o.address
  | babbage (.postAlonzo o) => Address.fromBytes o.address
  | byron o => some (.byron o.address)
  | conway (.legacy o) => Address.fromBytes o.address
  | conway (.postAlonzo o) => Address.fromBytes o.address

def value : MultiEraOutput → MultiEraValue
  | byron o => .byron o.amount
  | alonzoCompatible o _ => .alonzoCompatible o.amount
  | babbage (.legacy o) => .alonzoCompatible o.amount
  | babbage (.postAlonzo o) => .alonzoCompatible o.value
  | conway (.legacy o) => .alonzoCompatible o.amount
  | conway (.postAlonzo o) => .conway o.value

end MultiEraOutput

namespace MultiEraValue

/-- The assets of one policy that `into_conway` keeps: those of a non-zero quantity. -/
def positiveAssets (assets : FinMap AssetName Coin) : FinMap AssetName PositiveCoin :=
  assets.filterMap fun _ n => PositiveCoin.tryFrom n

/-- `MultiEraValue::into_conway`: drops zero quantities, then policies that are left empty, then the
bundle when nothing is left. -/
def intoConway : MultiEraValue → ConwayValue
  | byron n => .coin n
  | alonzoCompatible (.coin n) => .coin n
  | alonzoCompatible (.multiasset n assets) =>
    let kept : Multiasset PositiveCoin := assets.filterMap fun _ names =>
      let names := positiveAssets names
      if names.isEmpty then none else some names
    if kept.isEmpty then .coin n else .multiasset n kept
  | conway v => v

end MultiEraValue
end Pallas
