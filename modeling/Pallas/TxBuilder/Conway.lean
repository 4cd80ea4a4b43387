import Pallas.TxBuilder.Staging

/-!
# Building a Conway transaction (`pallas-txbuilder/src/conway.rs`, `pallas-primitives/src/conway/script_data.rs`)

`buildConwayRaw` turns a staging transaction into the bytes of a transaction and the hash of its body, with the fields as they
are staged. Amounts are kept in tables, and are moved into ordered maps on the way; scripts, datums and redeemers are in tables
too, and are written in the order of an iteration. `buildTx` is all of it but the encoding.
-/

namespace Pallas

/-- `NonZeroInt::try_from`. -/
def nonZeroIntTryFrom (z : Int64) : Option NonZeroInt := if h : z ≠ 0 then some ⟨z, h⟩ else none

def NetworkId.tryFrom (i : UInt8) : Option NetworkId :=
  if i = 0 then some .testnet else if i = 1 then some .mainnet else none

/-- `NonEmptySet::from_vec`. -/
def nonEmptySet {α : Type} (xs : List α) : Option (List α) := if xs.isEmpty then none else some xs

namespace TxBuilder
open Conway

/-! ### The data behind the script data hash -/

/-- One entry of the encoded language views; the one of PlutusV1 is wrapped in byte strings. -/
def encodeLanguageView (view : UInt8 × CostModel) : Bytes :=
  if view.1 = 0 then Cbor.bytes (Cbor.uint 0) ++
    Cbor.bytes (Cbor.beginArray ++ view.2.flatMap (fun v => Cbor.int v.toInt) ++ Cbor.endIndef)
  else Cbor.uint view.1.toNat ++ encodeVec (view.2.map fun v => Cbor.int v.toInt)

/-- `Encode for LanguageViews`: PlutusV1 goes last. -/
def encodeLanguageViews (views : LanguageViews) : Bytes :=
  Cbor.map views.size ++ ((views.toList.filter fun v => v.1 ≠ 0) ++ views.toList.filter fun v => v.1 =
    0).flatMap encodeLanguageView

structure ScriptData where
  redeemers : Option Redeemers
  datums : Option (KeepRaw (List (KeepRaw PlutusData)))
  languageViews : Option LanguageViews

namespace ScriptData

/-- What `ScriptData::hash` hashes. -/
def preimage (self : ScriptData) : Bytes :=
  self.redeemers.elim [0xa0] encodeRedeemers ++ self.datums.elim [] KeepRaw.rawCbor ++
    self.languageViews.elim [0xa0] encodeLanguageViews

def hash (c : Crypto) (self : ScriptData) : Hash 32 := c.blake2b256 self.preimage

def buildFor (witness : WitnessSet) (languageViewsOpt : Option LanguageViews) : Option ScriptData :=
  let redeemers := witness.redeemer.map KeepRaw.inner
  let datums := witness.plutusData
  if redeemers.isNone ∧ datums.isNone then none
  else
    let languageViews := if redeemers.isSome ∧ languageViewsOpt.isSome then languageViewsOpt else none
    some ⟨redeemers, datums, languageViews⟩

end ScriptData

inductive BuilderEra where
  | babbage
  | conway
  deriving DecidableEq

structure BuiltTransaction where
  version : String
  era : BuilderEra
  status : TransactionStatus
  txHash : Hash 32
  txBytes : Bytes
  signatures : Option (HashTable (Hash 32) (Hash 64))

def Input.toTransactionInput (x : Input) : TransactionInput := ⟨x.txHash, x.txoIndex⟩

/-- The order of `sort_unstable_by_key(|x| (x.transaction_id, x.index))`. -/
def inputLe (x y : TransactionInput) : Prop :=
  x.transactionId < y.transactionId ∨ x.transactionId = y.transactionId ∧ x.index ≤ y.index

instance : DecidableRel inputLe := fun _ _ => inferInstanceAs (Decidable (_ ∨ _))

section Source
variable {ε : Type} (p : Platform ε)

/-- `decode_fragment`, with the error that the builder reports for any other. -/
def decodeFragment {T : Type} (e : TxBuilderError) : Decoded Unit ε T → Outcome TxBuilderError T
  | (.ok (x, _), _) => .ok x
  | (.error (.error _), _) => .err e
  | (.error _, _) => .panic

def decodePlutusData (bytes : Bytes) : Outcome TxBuilderError PlutusData :=
  decodeFragment .malformedDatum (PlutusData.decode p.lawful.toLawful () bytes)

def decodeNativeScript (bytes : Bytes) : Outcome TxBuilderError NativeScript :=
  decodeFragment .malformedScript (NativeScript.decode p.lawful () bytes)

namespace Output
variable (self : Output)

/-- The assets of an output: `PositiveCoin::try_from(*x).unwrap()` for each. -/
def buildAssets : Option (Multiasset PositiveCoin) :=
  (self.assets.getD ∅).collect fun names => names.collect PositiveCoin.tryFrom

def buildValue (assets : Multiasset PositiveCoin) : ConwayValue :=
  if assets.isEmpty then .coin self.lovelace else .multiasset self.lovelace assets

def buildDatumOption : Outcome TxBuilderError (Option Babbage.DatumOption) :=
  match self.datum with
  | none => .ok none
  | some ⟨.hash, bytes⟩ =>
    if bytes.length = 32 then .ok (some (.hash (Hash.ofBytes 32 bytes))) else .err .malformedDatumHash
  | some ⟨.inline, bytes⟩ => do
    let pd ← decodePlutusData p bytes
    .ok (some (.data pd.fresh))

def buildScriptRef : Outcome TxBuilderError (Option ScriptRef) :=
  match self.script with
  | none => .ok none
  | some ⟨.native, bytes⟩ => do
    let script ← decodeNativeScript p bytes
    .ok (some (.nativeScript script.fresh))
  | some ⟨.plutusV1, bytes⟩ => .ok (some (.plutusV1Script ⟨bytes⟩))
  | some ⟨.plutusV2, bytes⟩ => .ok (some (.plutusV2Script ⟨bytes⟩))
  | some ⟨.plutusV3, bytes⟩ => .ok (some (.plutusV3Script ⟨bytes⟩))

def buildBabbageRaw : Outcome TxBuilderError TransactionOutput := do
  let assets ← Outcome.unwrap self.buildAssets
  let datumOption ← self.buildDatumOption p
  let scriptRef ← self.buildScriptRef p
  .ok (.postAlonzo ⟨self.address, self.buildValue assets, datumOption, scriptRef⟩)

end Output

/-- `NonZeroInt::try_from(*x).unwrap()` for each minted quantity. -/
def buildMint (mint : Option (Assets Int64)) : Option Mint :=
  (mint.getD ∅).collect fun names => names.collect nonZeroIntTryFrom

/-- The network id, if there is one. -/
def buildNetworkId : Option UInt8 → Outcome TxBuilderError (Option NetworkId)
  | none => .ok none
  | some nid => match NetworkId.tryFrom nid with
    | none => .err .invalidNetworkId
    | some networkId => .ok (some networkId)

def buildCollateralReturn : Option Output → Outcome TxBuilderError (Option TransactionOutput)
  | none => .ok none
  | some output => do
    let output ← output.buildBabbageRaw p
    .ok (some output)

/-- The scripts that were put in the witness set, by language. -/
structure Scripts where
  native : List NativeScript := []
  plutusV1 : List Bytes := []
  plutusV2 : List Bytes := []
  plutusV3 : List Bytes := []

/-- One pass of the loop over the scripts. -/
def Scripts.push (self : Scripts) (script : Script) : Outcome TxBuilderError Scripts :=
  match script.kind with
  | .native => do
    let s ← decodeNativeScript p script.bytes
    .ok { self with native := self.native ++ [s] }
  | .plutusV1 => .ok { self with plutusV1 := self.plutusV1 ++ [script.bytes] }
  | .plutusV2 => .ok { self with plutusV2 := self.plutusV2 ++ [script.bytes] }
  | .plutusV3 => .ok { self with plutusV3 := self.plutusV3 ++ [script.bytes] }

/-- `position(..).ok_or(RedeemerTargetMissing)? as u32`. -/
def positionOf {α : Type} [DecidableEq α] (xs : List α) (x : α) : Outcome TxBuilderError UInt32 := do
  let i ← Outcome.ofOption .redeemerTargetMissing (xs.findIdx? (· == x))
  .ok (UInt32.ofNat i)

/-- `purpose`, as a tag and an index into the sorted inputs or policies. -/
def pointerOf (inputs : List TransactionInput) (mintPolicies : List PolicyId) :
    RedeemerPurpose → Outcome TxBuilderError RedeemersKey
  | .spend txin => do
    let index ← positionOf inputs txin.toTransactionInput
    .ok ⟨.spend, index⟩
  | .mint pid => do
    let index ← positionOf mintPolicies pid
    .ok ⟨.mint, index⟩

/-- One pass of the loop over the redeemers. Without a budget there is nothing but a `todo!`. -/
def buildRedeemer (inputs : List TransactionInput) (mintPolicies : List PolicyId)
    (rdmr : (_ : RedeemerPurpose) × (Bytes × Option ExUnits)) : Outcome TxBuilderError Redeemer := do
  let exUnits ← Outcome.unwrap rdmr.2.2
  let data ← decodePlutusData p rdmr.2.1
  let pointer ← pointerOf inputs mintPolicies rdmr.1
  .ok ⟨pointer.tag, pointer.index, data, exUnits⟩

/-- The inputs of the body: sorted, and as often as they were staged. -/
def buildInputs (inputs : Option (List Input)) : List TransactionInput :=
  ((inputs.getD []).map Input.toTransactionInput).insertionSort inputLe

/-- An optional set of inputs. -/
def buildInputSet (inputs : Option (List Input)) : Option (List TransactionInput) :=
  nonEmptySet ((inputs.getD []).map Input.toTransactionInput)

def buildDatums (plutusData : List PlutusData) : Option (KeepRaw (List (KeepRaw PlutusData))) :=
  (nonEmptySet (plutusData.map PlutusData.fresh)).map fun datums =>
    .fresh encodeDatums datums (encodeSet_ne_nil _)

def buildRedeemers (redeemers : List Redeemer) : Option (KeepRaw Redeemers) :=
  if redeemers.isEmpty then none else some (Redeemers.fresh (.list redeemers))

def buildWitnessSet (scripts : Scripts) (plutusData : List PlutusData) (redeemers : List Redeemer) : WitnessSet where
  vkeywitness := none
  nativeScript := nonEmptySet (scripts.native.map NativeScript.fresh)
  plutusV1Script := nonEmptySet (scripts.plutusV1.map fun bs => ⟨bs⟩)
  plutusData := buildDatums plutusData
  redeemer := buildRedeemers redeemers
  plutusV2Script := nonEmptySet (scripts.plutusV2.map fun bs => ⟨bs⟩)
  plutusV3Script := nonEmptySet (scripts.plutusV3.map fun bs => ⟨bs⟩)

/-- The hash of the redeemers, in a list that may be empty, the datums and the staged language views. -/
def buildScriptDataHash (languageViews : Option LanguageViews) (plutusData : List PlutusData)
    (redeemers : List Redeemer) :
    Option (Hash 32) :=
  languageViews.map fun views => ScriptData.hash p.crypto ⟨some (.list redeemers), buildDatums plutusData, some views⟩

/-- The transaction of the parts that were built. -/
def assemble (s : StagingTransaction) (outputs : List TransactionOutput) (mint : Mint) (networkId : Option NetworkId)
    (collateralReturn : Option TransactionOutput) (scripts : Scripts) (plutusData : List PlutusData)
    (redeemers : List Redeemer) : Tx where
  transactionBody := TransactionBody.fresh {
    inputs := buildInputs s.inputs
    outputs := outputs
    ttl := s.invalidFromSlot
    validityIntervalStart := s.validFromSlot
    fee := s.fee.getD 0
    mint := if mint.isEmpty then none else some mint
    scriptDataHash := buildScriptDataHash p s.languageViews plutusData redeemers
    collateral := buildInputSet s.collateralInputs
    requiredSigners := nonEmptySet (s.disclosedSigners.getD [])
    networkId := networkId
    collateralReturn := collateralReturn
    referenceInputs := buildInputSet s.referenceInputs
    auxiliaryDataHash := s.auxiliaryData.map fun ad => p.crypto.blake2b256 ad.rawCbor }
  transactionWitnessSet := WitnessSet.fresh (buildWitnessSet scripts plutusData redeemers)
  success := true
  auxiliaryData := s.auxiliaryData.elim .null .some

/-- The scripts of the table, by language. -/
def buildScripts (scripts : Option (HashTable ScriptHash Script)) : Outcome TxBuilderError Scripts :=
  Outcome.fold (Scripts.push p) {} ((scripts.getD ∅).entries.map Sigma.snd)

/-- The datums of the table. -/
def decodeDatums (datums : Option (HashTable DatumHash Bytes)) : Outcome TxBuilderError (List PlutusData) :=
  (datums.getD ∅).entries.mapM fun x => decodePlutusData p x.2

/-- `build_conway_raw`, up to the transaction. -/
def buildTx (s : StagingTransaction) : Outcome TxBuilderError Tx := do
  let inputs := buildInputs s.inputs
  let outputs ← (s.outputs.getD []).mapM fun o => o.buildBabbageRaw p
  let mint ← Outcome.unwrap (buildMint s.mint)
  let networkId ← buildNetworkId s.networkId
  let collateralReturn ← buildCollateralReturn p s.collateralOutput
  let scripts ← buildScripts p s.scripts
  let plutusData ← decodeDatums p s.datums
  let redeemers ← (s.redeemers.getD ∅).entries.mapM (buildRedeemer p inputs mint.keys)
  .ok (assemble p s outputs mint networkId collateralReturn scripts plutusData redeemers)

def buildConwayRaw (s : StagingTransaction) : Outcome TxBuilderError BuiltTransaction := do
  let tx ← buildTx p s
  .ok {
    version := s.version
    era := .conway
    status := .built
    txHash := p.crypto.blake2b256 tx.transactionBody.rawCbor
    txBytes := encodeTx tx
    signatures := none }

end Source
end TxBuilder
end Pallas
