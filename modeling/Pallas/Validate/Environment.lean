import Pallas.Eras

/-!
# Errors, protocol parameters and certificate state (`pallas-validate/src/utils/`)

The error enumerations, the parameters of each era (the fields the validators read), the environment
of a call, and the delegation and pool state that Shelley certificates update. The hash functions and
signature verification come from outside the repository's own code: they are the fields of `Crypto`,
and nothing below assumes anything about them.
-/

namespace Pallas
open Std

/-- The cryptographic primitives, as opaque functions. -/
structure Crypto where
  /-- `Hasher::<224>::hash`. -/
  blake2b224 : Bytes → Hash 28
  /-- `Hasher::<256>::hash`. -/
  blake2b256 : Bytes → Hash 32
  /-- `cryptoxide::hashing::sha3_256`. -/
  sha3 : Bytes → Bytes
  /-- `PublicKey::verify`, on a 32-byte key, a message and a 64-byte signature. -/
  verify : (key msg sig : Bytes) → Bool

/-- Primitives given by tables of known answers, to run the validators on concrete transactions. -/
def Crypto.ofTables (blake2b224 : List (Bytes × Hash 28)) (blake2b256 : List (Bytes × Hash 32))
    (sha3 : List (Bytes × Bytes)) (signatures : List (Bytes × Bytes × Bytes)) : Crypto where
  blake2b224 bs := (blake2b224.lookup bs).getD 0
  blake2b256 bs := (blake2b256.lookup bs).getD 0
  sha3 bs := (sha3.lookup bs).getD []
  verify key msg sig := signatures.contains (key, msg, sig)

/-- A public key. -/
def sampleVkey : Bytes := Cbor.bigEndian 32 0x03a107bff3ce10be1d70dd18e74bc09967e4d6309ba50d5f1ddc8664125531b8

/-- Its hash. -/
def sampleKeyHash : AddrKeyhash := 0x27e38d0e19e3434e33fbd001d3fe04b5b76763f88acd625e0d770b43

/-- Its address on the main network, without a stake part. -/
def sampleAddress : Bytes := 0x61 :: Hash.toBytes sampleKeyHash

/-- The bytes of a body, in any era from Alonzo on: one input, one output of 9.8 ada to that address, and a
fee of 0.2 ada. -/
def transferBytes : Bytes :=
  Cbor.bigEndian 40 0xa3008182582000000000000000000000000000000000000000000000000000000000000000000001 ++
    Cbor.bigEndian 40 0x8182581d6127e38d0e19e3434e33fbd001d3fe04b5b76763f88acd625e0d770b431a00958940021a ++
    Cbor.bigEndian 4 0x00030d40

/-- The hash of the bytes. -/
def transferHash : Hash 32 := 0xfbf13250a4e7ecfd0bff888b146de22de78b82e0bcb7959bbf448fcd0b59b8bf

/-- The signature of the hash by that key. -/
def transferSignature : Bytes :=
  Cbor.bigEndian 40 0x7af785c13e2e5070f7358bba51d1138810841815f60e95724191b0891433b3d26a97eedb59eafc00 ++
    Cbor.bigEndian 24 0xc2369104f6248ede79d019426029e1c4543bbc1085e77706

/-- The primitives on the key and on the body. -/
def transferCrypto : Crypto :=
  .ofTables [(sampleVkey, sampleKeyHash)] [(transferBytes, transferHash)] []
    [(sampleVkey, Hash.toBytes transferHash, transferSignature)]

/-- The output of the body. -/
def transferOutput : Alonzo.TransactionOutput := ⟨sampleAddress, .coin 9800000, none⟩

/-- The body with the given witnesses, as an Alonzo transaction. -/
def Alonzo.transferTx (wits : KeepRaw Alonzo.WitnessSet) : Alonzo.Tx :=
  ⟨⟨transferBytes, { inputs := [⟨0, 0⟩], outputs := [transferOutput], fee := 200000 }, by decide⟩, wits, true, .null⟩

/-- The same as a Babbage transaction. -/
def Babbage.transferTx (wits : KeepRaw Babbage.WitnessSet) : Babbage.Tx :=
  ⟨⟨transferBytes, { inputs := [⟨0, 0⟩], outputs := [.legacy transferOutput], fee := 200000 }, by decide⟩, wits,
    true, .null⟩

/-- The same as a Conway transaction. -/
def Conway.transferTx (wits : KeepRaw Conway.WitnessSet) : Conway.Tx :=
  ⟨⟨transferBytes, { inputs := [⟨0, 0⟩], outputs := [.legacy transferOutput], fee := 200000 }, by decide⟩, wits,
    true, .null⟩

/-- A UTxO map with one output, at the input `⟨0, 0⟩`. -/
def singleUtxo (output : MultiEraOutput) : UTxOs := fun i =>
  if i = .alonzoCompatible ⟨0, 0⟩ then some output else none

/-! ### Errors (`validation.rs`) -/

inductive ByronError where
  | txInsEmpty
  | txOutsEmpty
  | inputNotInUTxO
  | outputWithoutLovelace
  | unknownTxSize
  | unableToComputeFees
  | feesBelowMin
  | maxTxSizeExceeded
  | unableToProcessWitness
  | missingWitness
  | wrongSignature
  deriving DecidableEq

inductive ShelleyMAError where
  | txInsEmpty
  | inputNotInUTxO
  | ttlExceeded
  | alonzoCompNotShelley
  | unknownTxSize
  | maxTxSizeExceeded
  | valueNotShelley
  | minLovelaceUnreached
  | preservationOfValue
  | negativeValue
  | feesBelowMin
  | wrongEraOutput
  | addressDecoding
  | wrongNetworkID
  | metadataHash
  | missingVKWitness
  | missingScriptWitness
  | wrongSignature
  | mintingLacksPolicy
  | keyAlreadyRegistered
  | keyNotRegistered
  | pointerInUse
  | rewardsNotNull
  | poolAlreadyRegistered
  | poolNotRegistered
  | poolCostBelowMin
  | duplicateGenesisDelegate
  | duplicateGenesisVRF
  | genesisKeyNotInMapping
  | insufficientForInstantaneousRewards
  | mirCertificateTooLateinEpoch
  | scriptDenial
  deriving DecidableEq

inductive AlonzoError where
  | unknownTxSize
  | txInsEmpty
  | inputNotInUTxO
  | collateralNotInUTxO
  | blockExceedsValInt
  | blockPrecedesValInt
  | valIntUpperBoundMissing
  | feeBelowMin
  | collateralMissing
  | tooManyCollaterals
  | collateralNotVKeyLocked
  | addressDecoding
  | collateralMinLovelace
  | nonLovelaceCollateral
  | negativeValue
  | preservationOfValue
  | minLovelaceUnreached
  | maxValSizeExceeded
  | outputWrongNetworkID
  | txWrongNetworkID
  | redeemerMissing
  | txExUnitsExceeded
  | maxTxSizeExceeded
  | vkWitnessMissing
  | vkWrongSignature
  | reqSignerMissing
  | reqSignerWrongSig
  | scriptWitnessMissing
  | mintingLacksPolicy
  | inputDecoding
  | unneededNativeScript
  | unneededPlutusScript
  | unneededRedeemer
  | datumMissing
  | unneededDatum
  | metadataHash
  | scriptIntegrityHash
  deriving DecidableEq

inductive PostAlonzoError where
  | unknownTxSize
  | txInsEmpty
  | inputNotInUTxO
  | collateralNotInUTxO
  | referenceInputNotInUTxO
  | blockPrecedesValInt
  | blockExceedsValInt
  | feeBelowMin
  | collateralMissing
  | tooManyCollaterals
  | inputDecoding
  | collateralNotVKeyLocked
  | collateralMinLovelace
  | nonLovelaceCollateral
  | collateralWrongAssets
  | negativeValue
  | collateralAnnotationErr
  | preservationOfValue
  | minLovelaceUnreached
  | maxValSizeExceeded
  | addressDecoding
  | outputWrongNetworkID
  | txWrongNetworkID
  | txExUnitsExceeded
  | redeemerMissing
  | unneededRedeemer
  | maxTxSizeExceeded
  | mintingLacksPolicy (policy : PolicyId)
  | metadataHash
  | datumMissing
  | unneededDatum
  | scriptWitnessMissing
  | unneededNativeScript
  | unneededPlutusV1Script
  | unneededPlutusV2Script
  | unneededPlutusV3Script
  | reqSignerMissing
  | reqSignerWrongSig
  | vkWitnessMissing
  | vkWrongSignature
  | unsupportedPlutusLanguage
  | scriptIntegrityHash
  deriving DecidableEq

inductive ValidationError where
  | txAndProtParamsDiffer
  | pParamsByronDoesntNeedAccountState
  | envMissingAccountState
  | unknownProtParams
  | byron (e : ByronError)
  | shelleyMA (e : ShelleyMAError)
  | alonzo (e : AlonzoError)
  | postAlonzo (e : PostAlonzoError)
  deriving DecidableEq

/-- `ValidationResult`, which a call may also fail to return. -/
abbrev ValidationResult := Outcome ValidationError Unit

/-! ### Protocol parameters (`environment.rs`) -/

structure ByronProtParams where
  maxTxSize : UInt64
  summand : UInt64
  multiplier : UInt64

structure ShelleyProtParams where
  minfeeA : UInt32
  minfeeB : UInt32
  maxTransactionSize : UInt32
  keyDeposit : Coin
  poolDeposit : Coin
  minUtxoValue : Coin
  minPoolCost : Coin
  maximumEpoch : Epoch

/-- The parameters that Alonzo and Babbage transactions are checked against. -/
structure AlonzoProtParams where
  minfeeA : UInt32
  minfeeB : UInt32
  maxTransactionSize : UInt32
  adaPerUtxoByte : Coin
  maxTxExUnits : ExUnits
  maxValueSize : UInt32
  collateralPercentage : UInt32
  maxCollateralInputs : UInt32

abbrev BabbageProtParams := AlonzoProtParams

abbrev CostModel := List Int64

structure ConwayCostModels where
  plutusV1 : Option CostModel
  plutusV2 : Option CostModel
  plutusV3 : Option CostModel

structure ConwayProtParams extends AlonzoProtParams where
  costModelsForScriptLanguages : ConwayCostModels

inductive MultiEraProtocolParameters where
  | byron (pps : ByronProtParams)
  | shelley (pps : ShelleyProtParams)
  | alonzo (pps : AlonzoProtParams)
  | babbage (pps : BabbageProtParams)
  | conway (pps : ConwayProtParams)

structure AccountState where
  treasury : Coin
  reserves : Coin

structure Environment where
  protParams : MultiEraProtocolParameters
  protMagic : UInt32
  blockSlot : UInt64
  networkId : UInt8
  acnt : Option AccountState

/-! ### Certificate state (`utils.rs`) -/

structure CertPointer where
  slot : Slot
  txIx : TransactionIndex
  certIx : UInt32
  deriving DecidableEq

/-- The components of a pointer, as the key it is ordered by. -/
def certPointerKey (p : CertPointer) : List ℕ := [p.slot.toNat, p.txIx.toNat, p.certIx.toNat]

theorem certPointerKey_injective : Function.Injective certPointerKey := by
  rintro ⟨s, t, c⟩ ⟨s', t', c'⟩ h
  simp only [certPointerKey, List.cons.injEq, and_true] at h
  rw [UInt64.toNat_inj.1 h.1, UInt32.toNat_inj.1 h.2.1, UInt32.toNat_inj.1 h.2.2]

instance : Ord CertPointer := FinMap.ordOn certPointerKey
instance : TransOrd CertPointer := FinMap.transOrd_ordOn certPointerKey
instance : LawfulEqOrd CertPointer := FinMap.lawfulEqOrd_ordOn certPointerKey_injective

/-- The key of a future genesis delegation: the slot it takes effect at, and the genesis key. -/
structure FutGenesisKey where
  slot : Slot
  genesishash : Genesishash
  deriving DecidableEq

/-- The components of the key, as what it is ordered by. -/
def futGenesisKeyKey (k : FutGenesisKey) : List ℕ := k.slot.toNat :: k.genesishash.map UInt8.toNat

theorem futGenesisKeyKey_injective : Function.Injective futGenesisKeyKey := by
  rintro ⟨s, g⟩ ⟨s', g'⟩ h
  simp only [futGenesisKeyKey, List.cons.injEq] at h
  rw [UInt64.toNat_inj.1 h.1, List.map_injective_iff.2 (fun _ _ => UInt8.toNat_inj.1) h.2]

instance : Ord FutGenesisKey := FinMap.ordOn futGenesisKeyKey
instance : TransOrd FutGenesisKey := FinMap.transOrd_ordOn futGenesisKeyKey
instance : LawfulEqOrd FutGenesisKey := FinMap.lawfulEqOrd_ordOn futGenesisKeyKey_injective

structure DState where
  rewards : FinMap StakeCredential Coin
  delegations : FinMap StakeCredential PoolKeyhash
  ptrs : FinMap CertPointer StakeCredential
  futGenDelegs : FinMap FutGenesisKey (GenesisDelegateHash × VrfKeyhash)
  genDelegs : FinMap Genesishash (GenesisDelegateHash × VrfKeyhash)
  instRewards : FinMap StakeCredential Coin × FinMap StakeCredential Coin
  deriving DecidableEq

structure PState where
  poolParams : FinMap PoolKeyhash Alonzo.PoolParam
  futPoolParams : FinMap PoolKeyhash Alonzo.PoolParam
  retiring : FinMap PoolKeyhash Epoch
  deriving DecidableEq

structure CertState where
  pstate : PState
  dstate : DState
  deriving DecidableEq

/-- No stake keys and no pools. -/
def emptyCertState : CertState := ⟨⟨∅, ∅, ∅⟩, ⟨∅, ∅, ∅, ∅, ∅, (∅, ∅)⟩⟩

end Pallas
