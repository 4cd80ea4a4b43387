import Pallas.Lib.HashTable
import Pallas.NativeScript.Decode
import Pallas.TxBuilder.Encode

/-!
# Staging a transaction (`pallas-txbuilder/src/transaction/{mod,model}.rs`, `src/lib.rs`)

A staging transaction is filled in by a chain of calls, each of which takes it and gives it back (`Call`, `step`); an
output is put together in the same way before it is handed over (`OutputCall`). Two of the calls may end with an error: an
asset name may be too long. Others may panic: removing an output that is not there, and adding up quantities beyond their
integer type, which wraps around instead where overflow is not checked.

The tables keep their entries in some order that nothing here depends on, and two staging transactions are equal if they
differ in such orders only (`Same`). Addresses are kept as the bytes that `to_vec` gives.
-/

namespace Pallas
namespace TxBuilder

inductive TxBuilderError where
  | malformedScript
  | malformedDatum
  | malformedDatumHash
  | redeemerTargetMissing
  | invalidNetworkId
  | corruptedTxBytes
  | malformedKey
  | assetNameTooLong
  | unsupportedEra
  deriving DecidableEq

/-- What the builder is compiled with: the checks of arithmetic, the hashes, the decoder, and the derived decoder of auxiliary
data, which gives it as the bytes it is written out as. -/
structure Platform (ε : Type) where
  profile : Profile
  crypto : Crypto
  minicbor : MinicborScript ε
  lawful : minicbor.Lawful
  decodeAuxiliaryData : Bytes → Option AuxiliaryData

inductive TransactionStatus where
  | staging
  | built
  deriving DecidableEq

structure Input where
  txHash : Hash 32
  txoIndex : UInt64
  deriving DecidableEq

inductive ScriptKind where
  | native
  | plutusV1
  | plutusV2
  | plutusV3
  deriving DecidableEq

structure Script where
  kind : ScriptKind
  bytes : Bytes
  deriving DecidableEq

inductive DatumKind where
  | hash
  | inline
  deriving DecidableEq

structure Datum where
  kind : DatumKind
  bytes : Bytes
  deriving DecidableEq

/-- `OutputAssets`, `MintAssets`: quantities by policy and name. -/
abbrev Assets (A : Type) := HashTable PolicyId (HashTable AssetName A)

structure Output where
  address : Bytes
  lovelace : UInt64
  assets : Option (Assets UInt64) := none
  datum : Option Datum := none
  script : Option Script := none

inductive RedeemerPurpose where
  | spend (input : Input)
  | mint (policy : PolicyId)
  deriving DecidableEq

abbrev LanguageViews := FinMap UInt8 CostModel

structure StagingTransaction where
  version : String := ""
  status : TransactionStatus := .staging
  inputs : Option (List Input) := none
  referenceInputs : Option (List Input) := none
  outputs : Option (List Output) := none
  fee : Option UInt64 := none
  mint : Option (Assets Int64) := none
  validFromSlot : Option UInt64 := none
  invalidFromSlot : Option UInt64 := none
  networkId : Option UInt8 := none
  collateralInputs : Option (List Input) := none
  collateralOutput : Option Output := none
  disclosedSigners : Option (List (Hash 28)) := none
  scripts : Option (HashTable ScriptHash Script) := none
  datums : Option (HashTable DatumHash Bytes) := none
  redeemers : Option (HashTable RedeemerPurpose (Bytes × Option ExUnits)) := none
  scriptDataHash : Option (Hash 32) := none
  signatureAmountOverride : Option UInt8 := none
  changeAddress : Option Bytes := none
  languageViews : Option LanguageViews := none
  auxiliaryData : Option AuxiliaryData := none

section Source
variable {ε : Type} (p : Platform ε)

/-- `assets.entry(policy).and_modify(..).or_insert_with(..)`: the amount is added to what is held of the asset. -/
def accumulate {A : Type} [MachineInt A] (pr : Profile) (assets : Assets A) (policy : PolicyId) (name : AssetName)
    (amount : A) : Outcome TxBuilderError (Assets A) :=
  match assets.lookup policy with
  | none => .ok (assets.insert policy (AList.insert name amount ∅))
  | some names => match names.lookup name with
    | none => .ok (assets.insert policy (names.insert name amount))
    | some held => do
      let sum ← MachineInt.add pr held amount
      .ok (assets.insert policy (names.insert name sum))

namespace Output

def addAsset (self : Output) (policy : PolicyId) (name : AssetName) (amount : UInt64) : Outcome TxBuilderError Output :=
  if 32 < name.length then .err .assetNameTooLong
  else do
    let assets ← accumulate p.profile (self.assets.getD ∅) policy name amount
    .ok { self with assets := some assets }

def setInlineDatum (self : Output) (plutusData : Bytes) : Output := { self with datum := some ⟨.inline, plutusData⟩ }

def setDatumHash (self : Output) (datumHash : Hash 32) :
    Output := { self with datum := some ⟨.hash, datumHash.toBytes⟩ }

def setInlineScript (self : Output) (language : ScriptKind) (bytes : Bytes) : Output :=
  { self with script := some ⟨language, bytes⟩ }

end Output

/-- A call on an output. -/
inductive OutputCall where
  | addAsset (policy : PolicyId) (name : AssetName) (amount : UInt64)
  | setInlineDatum (plutusData : Bytes)
  | setDatumHash (datumHash : Hash 32)
  | setInlineScript (language : ScriptKind) (bytes : Bytes)

def Output.step (o : Output) : OutputCall → Outcome TxBuilderError Output
  | .addAsset policy name amount => o.addAsset p policy name amount
  | .setInlineDatum plutusData => .ok (o.setInlineDatum plutusData)
  | .setDatumHash datumHash => .ok (o.setDatumHash datumHash)
  | .setInlineScript language bytes => .ok (o.setInlineScript language bytes)

namespace StagingTransaction
variable (self : StagingTransaction)

def new : StagingTransaction := { version := "v1" }

/-- `Vec::push` on a field that is created when it is not there. -/
def push {α : Type} (xs : Option (List α)) (x : α) : Option (List α) := some (xs.getD [] ++ [x])

/-- `xs.retain(|y| *y != x)`. -/
def retain {α : Type} [DecidableEq α] (xs : Option (List α)) (x : α) : Option (List α) :=
  some ((xs.getD []).filter fun y => decide (y ≠ x))

def removeOutput (index : ℕ) : Outcome TxBuilderError StagingTransaction :=
  let txouts := self.outputs.getD []
  if index < txouts.length then .ok { self with outputs := some (txouts.eraseIdx index) } else .panic

def mintAsset (policy : Hash 28) (name : Bytes) (amount : Int64) : Outcome TxBuilderError StagingTransaction :=
  if 32 < name.length then .err .assetNameTooLong
  else do
    let mint ← accumulate p.profile (self.mint.getD ∅) policy name amount
    .ok { self with mint := some mint }

def removeMintAsset (policy : Hash 28) (name : Bytes) : StagingTransaction :=
  match self.mint with
  | none => self
  | some mint => { self with mint := some <| match mint.lookup policy with
    | none => mint
    | some assets =>
      let assets := assets.erase name
      if assets.entries.isEmpty then mint.erase policy else mint.insert policy assets }

/-- The tag in front of a script that is hashed. -/
def hashTag : ScriptKind → UInt8
  | .native => 0
  | .plutusV1 => 1
  | .plutusV2 => 2
  | .plutusV3 => 3

def script (language : ScriptKind) (bytes : Bytes) : StagingTransaction :=
  { self with
    scripts := some
      ((self.scripts.getD ∅).insert (p.crypto.blake2b224 (hashTag language :: bytes)) ⟨language, bytes⟩) }

def removeScriptByHash (scriptHash : Hash 28) : StagingTransaction :=
  { self with scripts := some ((self.scripts.getD ∅).erase scriptHash) }

/-- `Hasher::<256>::hash_cbor(&datum)`: the bytes are encoded as a vector, an array of integers. -/
def datumKey (datum : Bytes) : DatumHash := p.crypto.blake2b256 (encodeVec (datum.map fun b => Cbor.uint b.toNat))

def datum (datum : Bytes) : StagingTransaction :=
  { self with datums := some ((self.datums.getD ∅).insert (datumKey p datum) datum) }

def removeDatum (datum : Bytes) : StagingTransaction :=
  { self with datums := some ((self.datums.getD ∅).erase (datumKey p datum)) }

def removeDatumByHash (datumHash : Hash 32) : StagingTransaction :=
  { self with datums := some ((self.datums.getD ∅).erase datumHash) }

/-- The key of a language in the views; native scripts have none. -/
def viewKey : ScriptKind → Option UInt8
  | .plutusV1 => some 0
  | .plutusV2 => some 1
  | .plutusV3 => some 2
  | .native => none

def addLanguage (plutusVersion : ScriptKind) (costModel : CostModel) : StagingTransaction :=
  match viewKey plutusVersion with
  | none => self
  | some version => { self with languageViews := some ((self.languageViews.getD ∅).insert version costModel) }

/-- `rdmrs.insert(purpose, (plutus_data, ex_units))`. -/
def addRedeemer (purpose : RedeemerPurpose) (plutusData : Bytes) (exUnits : Option ExUnits) : StagingTransaction :=
  { self with redeemers := some ((self.redeemers.getD ∅).insert purpose (plutusData, exUnits)) }

def removeRedeemer (purpose : RedeemerPurpose) : StagingTransaction :=
  { self with redeemers := some ((self.redeemers.getD ∅).erase purpose) }

/-- Bytes that do not decode are ignored. -/
def addAuxiliaryData (data : Bytes) : StagingTransaction :=
  match p.decodeAuxiliaryData data with
  | some aux => { self with auxiliaryData := some aux }
  | none => self

end StagingTransaction

/-- A call on a staging transaction. An output may come with any contents, and calls on it may precede. -/
inductive Call where
  | input (input : Input)
  | removeInput (input : Input)
  | referenceInput (input : Input)
  | removeReferenceInput (input : Input)
  | output (output : Output) (calls : List OutputCall)
  | removeOutput (index : ℕ)
  | fee (fee : UInt64)
  | clearFee
  | mintAsset (policy : Hash 28) (name : Bytes) (amount : Int64)
  | removeMintAsset (policy : Hash 28) (name : Bytes)
  | validFromSlot (slot : UInt64)
  | clearValidFromSlot
  | invalidFromSlot (slot : UInt64)
  | clearInvalidFromSlot
  | networkId (id : UInt8)
  | clearNetworkId
  | collateralInput (input : Input)
  | removeCollateralInput (input : Input)
  | collateralOutput (output : Output) (calls : List OutputCall)
  | clearCollateralOutput
  | disclosedSigner (pubKeyHash : Hash 28)
  | removeDisclosedSigner (pubKeyHash : Hash 28)
  | script (language : ScriptKind) (bytes : Bytes)
  | removeScriptByHash (scriptHash : Hash 28)
  | datum (datum : Bytes)
  | removeDatum (datum : Bytes)
  | removeDatumByHash (datumHash : Hash 32)
  | languageViews (views : LanguageViews)
  | addLanguage (plutusVersion : ScriptKind) (costModel : CostModel)
  | addSpendRedeemer (input : Input) (plutusData : Bytes) (exUnits : Option ExUnits)
  | removeSpendRedeemer (input : Input)
  | addMintRedeemer (policy : Hash 28) (plutusData : Bytes) (exUnits : Option ExUnits)
  | removeMintRedeemer (policy : Hash 28)
  | signatureAmountOverride (amount : UInt8)
  | clearSignatureAmountOverride
  | changeAddress (address : Bytes)
  | clearChangeAddress
  | addAuxiliaryData (data : Bytes)
  | clearAuxiliaryData

open StagingTransaction in
/-- One call. -/
def step (s : StagingTransaction) : Call → Outcome TxBuilderError StagingTransaction
  | .input input => .ok { s with inputs := push s.inputs input }
  | .removeInput input => .ok { s with inputs := retain s.inputs input }
  | .referenceInput input => .ok { s with referenceInputs := push s.referenceInputs input }
  | .removeReferenceInput input => .ok { s with referenceInputs := retain s.referenceInputs input }
  | .output output calls => do
    let output ← Outcome.fold (Output.step p) output calls
    .ok { s with outputs := push s.outputs output }
  | .removeOutput index => s.removeOutput index
  | .fee fee => .ok { s with fee := some fee }
  | .clearFee => .ok { s with fee := none }
  | .mintAsset policy name amount => s.mintAsset p policy name amount
  | .removeMintAsset policy name => .ok (s.removeMintAsset policy name)
  | .validFromSlot slot => .ok { s with validFromSlot := some slot }
  | .clearValidFromSlot => .ok { s with validFromSlot := none }
  | .invalidFromSlot slot => .ok { s with invalidFromSlot := some slot }
  | .clearInvalidFromSlot => .ok { s with invalidFromSlot := none }
  | .networkId id => .ok { s with networkId := some id }
  | .clearNetworkId => .ok { s with networkId := none }
  | .collateralInput input => .ok { s with collateralInputs := push s.collateralInputs input }
  | .removeCollateralInput input => .ok { s with collateralInputs := retain s.collateralInputs input }
  | .collateralOutput output calls => do
    let output ← Outcome.fold (Output.step p) output calls
    .ok { s with collateralOutput := some output }
  | .clearCollateralOutput => .ok { s with collateralOutput := none }
  | .disclosedSigner pubKeyHash => .ok { s with disclosedSigners := push s.disclosedSigners pubKeyHash }
  | .removeDisclosedSigner pubKeyHash => .ok { s with disclosedSigners := retain s.disclosedSigners pubKeyHash }
  | .script language bytes => .ok (s.script p language bytes)
  | .removeScriptByHash scriptHash => .ok (s.removeScriptByHash scriptHash)
  | .datum datum => .ok (s.datum p datum)
  | .removeDatum datum => .ok (s.removeDatum p datum)
  | .removeDatumByHash datumHash => .ok (s.removeDatumByHash datumHash)
  | .languageViews views => .ok { s with languageViews := some views }
  | .addLanguage plutusVersion costModel => .ok (s.addLanguage plutusVersion costModel)
  | .addSpendRedeemer input plutusData exUnits => .ok (s.addRedeemer (.spend input) plutusData exUnits)
  | .removeSpendRedeemer input => .ok (s.removeRedeemer (.spend input))
  | .addMintRedeemer policy plutusData exUnits => .ok (s.addRedeemer (.mint policy) plutusData exUnits)
  | .removeMintRedeemer policy => .ok (s.removeRedeemer (.mint policy))
  | .signatureAmountOverride amount => .ok { s with signatureAmountOverride := some amount }
  | .clearSignatureAmountOverride => .ok { s with signatureAmountOverride := none }
  | .changeAddress address => .ok { s with changeAddress := some address }
  | .clearChangeAddress => .ok { s with changeAddress := none }
  | .addAuxiliaryData data => .ok (s.addAuxiliaryData p data)
  | .clearAuxiliaryData => .ok { s with auxiliaryData := none }

/-- A chain of calls on a new staging transaction; a call that returns an error ends it. -/
def run (calls : List Call) : Outcome TxBuilderError StagingTransaction := Outcome.fold (step p) .new calls

end Source

/-! ### Staging transactions that are equal -/

/-- Equal quantities, by policy and name. -/
def Assets.Alike {A : Type} (a b : Assets A) : Prop := HashTable.Alike (HashTable.Alike Eq) a b

/-- Equal outputs. -/
structure Output.Same (o o' : Output) : Prop where
  address : o.address = o'.address
  lovelace : o.lovelace = o'.lovelace
  assets : Option.Rel Assets.Alike o.assets o'.assets
  datum : o.datum = o'.datum
  script : o.script = o'.script

/-- `PartialEq for StagingTransaction`. -/
structure StagingTransaction.Same (s t : StagingTransaction) : Prop where
  version : s.version = t.version
  status : s.status = t.status
  inputs : s.inputs = t.inputs
  referenceInputs : s.referenceInputs = t.referenceInputs
  outputs : Option.Rel (List.Forall₂ Output.Same) s.outputs t.outputs
  fee : s.fee = t.fee
  mint : Option.Rel Assets.Alike s.mint t.mint
  validFromSlot : s.validFromSlot = t.validFromSlot
  invalidFromSlot : s.invalidFromSlot = t.invalidFromSlot
  networkId : s.networkId = t.networkId
  collateralInputs : s.collateralInputs = t.collateralInputs
  collateralOutput : Option.Rel Output.Same s.collateralOutput t.collateralOutput
  disclosedSigners : s.disclosedSigners = t.disclosedSigners
  scripts : Option.Rel (HashTable.Alike Eq) s.scripts t.scripts
  datums : Option.Rel (HashTable.Alike Eq) s.datums t.datums
  redeemers : Option.Rel (HashTable.Alike Eq) s.redeemers t.redeemers
  scriptDataHash : s.scriptDataHash = t.scriptDataHash
  signatureAmountOverride : s.signatureAmountOverride = t.signatureAmountOverride
  changeAddress : s.changeAddress = t.changeAddress
  languageViews : s.languageViews = t.languageViews
  auxiliaryData : s.auxiliaryData = t.auxiliaryData

end TxBuilder
end Pallas
