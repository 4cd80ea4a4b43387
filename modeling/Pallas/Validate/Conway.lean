import Pallas.Validate.Checks
import Pallas.Validate.ScriptData

/-!
# Conway-era transaction validation (`pallas-validate/src/phase1/conway.rs`)

The checks in the order of the source, ending in `validateConwayTx`. Inputs may be outputs of any
era; where the source only reads Conway outputs (`as_conway`), outputs of other eras count as
absent.
-/

namespace Pallas.Conway
open Std
open Babbage (DatumOption GenTransactionOutput)

/-! ### Values of outputs -/

/-- The conversion of a legacy output's amount: `PositiveCoin::try_from(..).unwrap()` on every
quantity, so a zero quantity panics. -/
def legacyValue : Value → Outcome ValidationError ConwayValue
  | .coin n => .ok (.coin n)
  | .multiasset n assets => do
    let ma ← assets.mapM fun names => names.mapM fun amount => .unwrap (PositiveCoin.tryFrom amount)
    .ok (.multiasset n ma)

/-- The value of an output of the transaction itself. -/
def outputValue : TransactionOutput → Outcome ValidationError ConwayValue
  | .legacy o => legacyValue o.amount
  | .postAlonzo o => .ok o.value

/-- The address bytes of a Conway output. -/
def outputAddress : TransactionOutput → Bytes
  | .legacy o => o.address
  | .postAlonzo o => o.address

def valFromMultiEraOutput (output : MultiEraOutput) : ConwayValue := output.value.intoConway

/-! ### Fee and collateral -/

def checkAllInsInUtxos (body : TransactionBody) (utxos : UTxOs) : ValidationResult := do
  checkInsInUtxos (.postAlonzo .inputNotInUTxO) body.inputs utxos
  checkInsInUtxos (.postAlonzo .collateralNotInUTxO) (body.collateral.getD []) utxos
  checkInsInUtxos (.postAlonzo .referenceInputNotInUTxO) (body.referenceInputs.getD []) utxos

def checkTxValidityInterval (body : TransactionBody) (slot : UInt64) : ValidationResult := do
  checkLowerBound (.postAlonzo .blockPrecedesValInt) body.validityIntervalStart slot
  checkUpperBound (.postAlonzo .blockExceedsValInt) body.ttl slot

def presenceOfPlutusScripts (mtx : Tx) : Bool :=
  let wits := mtx.transactionWitnessSet.inner
  !(wits.plutusV1Script.getD []).isEmpty || !(wits.plutusV2Script.getD []).isEmpty ||
    !(wits.plutusV3Script.getD []).isEmpty

/-- One further collateral of `check_collaterals_assets`. -/
def addCollateral (pr : Profile) (utxos : UTxOs) (acc : ConwayValue) (collateral : TransactionInput) :
    Outcome ValidationError ConwayValue :=
  match utxos (.alonzoCompatible collateral) with
  | some output => conwayAddValues pr acc (valFromMultiEraOutput output) (.postAlonzo .negativeValue)
  | none => .err (.postAlonzo .collateralNotInUTxO)

/-- The sum of the collaterals in `check_collaterals_assets`; `collaterals.first().unwrap()`. -/
def collateralInput (pr : Profile) (utxos : UTxOs) :
    List TransactionInput → Outcome ValidationError ConwayValue
  | [] => .panic
  | first :: rest => do
    let output ← Outcome.ofOption (.postAlonzo .collateralNotInUTxO) (utxos (.alonzoCompatible first))
    Outcome.fold (addCollateral pr utxos) (valFromMultiEraOutput output) rest

def checkCollateralsAssets (pr : Profile) (body : TransactionBody) (utxos : UTxOs) (pps : ConwayProtParams) :
    ValidationResult :=
  match body.collateral with
  | some collaterals => do
    let collInput ← collateralInput pr utxos collaterals
    let collReturn ← match body.collateralReturn with
      | some output => outputValue output
      | none => .ok (.coin 0)
    let paid ← conwayLovelaceDiffOrFail collInput collReturn (.postAlonzo .nonLovelaceCollateral)
    let feePercentage : UInt64 ← MachineInt.mul pr body.fee pps.collateralPercentage.toUInt64
    let paid100 : UInt64 ← MachineInt.mul pr paid 100
    check (.postAlonzo .collateralMinLovelace) (feePercentage ≤ paid100)
    match body.totalCollateral with
    | some annotated => check (.postAlonzo .collateralAnnotationErr) (paid == annotated)
    | none => .ok ()
  | none => .err (.postAlonzo .collateralMissing)

theorem asConway_eq_some {o : MultiEraOutput} {x : TransactionOutput} : o.asConway = some x ↔ o = .conway x := by
  cases o <;> simp [MultiEraOutput.asConway]

/-- What `as_conway` gives of an output's address. -/
def conwayAddress (output : MultiEraOutput) : Option Bytes := output.asConway.map outputAddress

def checkCollaterals (pr : Profile) (body : TransactionBody) (utxos : UTxOs) (pps : ConwayProtParams) :
    ValidationResult := do
  let collaterals ← Outcome.ofOption (.postAlonzo .collateralMissing) body.collateral
  checkCollateralsNumber (.postAlonzo .collateralMissing) (.postAlonzo .tooManyCollaterals) collaterals
    pps.maxCollateralInputs
  checkCollateralsAddress (.postAlonzo .collateralNotVKeyLocked) (.postAlonzo .inputDecoding)
    (.postAlonzo .collateralNotInUTxO) conwayAddress collaterals utxos
  checkCollateralsAssets pr body utxos pps

def checkFee (pr : Profile) (body : TransactionBody) (size : UInt32) (mtx : Tx) (utxos : UTxOs)
    (pps : ConwayProtParams) : ValidationResult := do
  checkMinFee pr (.postAlonzo .feeBelowMin) body.fee pps.minfeeA pps.minfeeB size
  if presenceOfPlutusScripts mtx then checkCollaterals pr body utxos pps else .ok ()

/-! ### Preservation of value -/

/-- One further input of `get_consumed`. -/
def addInput (pr : Profile) (utxos : UTxOs) (res : ConwayValue) (input : TransactionInput) :
    Outcome ValidationError ConwayValue := do
  let output ← Outcome.ofOption (.postAlonzo .inputNotInUTxO) (utxos (.alonzoCompatible input))
  conwayAddValues pr res (valFromMultiEraOutput output) (.postAlonzo .negativeValue)

/-- `get_consumed`: starts from the first input's value and adds the others. -/
def getConsumed (pr : Profile) (body : TransactionBody) (utxos : UTxOs) :
    Outcome ValidationError ConwayValue :=
  match body.inputs with
  | [] => .err (.postAlonzo .txInsEmpty)
  | first :: rest => do
    let output ← Outcome.ofOption (.postAlonzo .inputNotInUTxO) (utxos (.alonzoCompatible first))
    Outcome.fold (addInput pr utxos) (valFromMultiEraOutput output) rest

/-- One further output of `get_produced`. -/
def addOutput (pr : Profile) (res : ConwayValue) (output : TransactionOutput) :
    Outcome ValidationError ConwayValue := do
  let val ← outputValue output
  conwayAddValues pr res val (.postAlonzo .negativeValue)

/-- `get_produced`: starts from the first output's value and adds the others. -/
def getProduced (pr : Profile) (body : TransactionBody) : Outcome ValidationError ConwayValue :=
  match body.outputs with
  | [] => .err (.postAlonzo .txInsEmpty)
  | first :: rest => do
    let res ← outputValue first
    Outcome.fold (addOutput pr) res rest

def checkPreservationOfValue (pr : Profile) (body : TransactionBody) (utxos : UTxOs) : ValidationResult := do
  let input ← getConsumed pr body utxos
  let produced ← getProduced pr body
  let output ← conwayAddValues pr produced (.coin body.fee) (.postAlonzo .negativeValue)
  let input ← conwayAddMint pr input body.mint (.postAlonzo .negativeValue)
  check (.postAlonzo .preservationOfValue) (conwayValuesAreEqual input output)

/-! ### Outputs, network, size, execution units -/

def computeMinLovelace (pr : Profile) (val : ConwayValue) (pps : ConwayProtParams) :
    Outcome ValidationError UInt64 := do
  let size : UInt64 ← MachineInt.add pr (conwayGetValSizeInWords val) 160
  MachineInt.mul pr pps.adaPerUtxoByte size

def checkMinLovelace (pr : Profile) (body : TransactionBody) (pps : ConwayProtParams) : ValidationResult :=
  Outcome.forEach (fun output => do
    let val ← outputValue output
    let min ← computeMinLovelace pr val pps
    check (.postAlonzo .minLovelaceUnreached) (min ≤ val.lovelace)) body.outputs

def checkOutputValSize (body : TransactionBody) (pps : ConwayProtParams) : ValidationResult :=
  Outcome.forEach (fun output => do
    let val ← outputValue output
    check (.postAlonzo .maxValSizeExceeded) (conwayGetValSizeInWords val ≤ pps.maxValueSize.toUInt64))
    body.outputs

def checkNetworkId (body : TransactionBody) (networkId : UInt8) : ValidationResult := do
  checkTxOutsNetworkId (.postAlonzo .addressDecoding) (.postAlonzo .outputWrongNetworkID)
    (body.outputs.map outputAddress) networkId
  checkTxNetworkId (.postAlonzo .txWrongNetworkID) body.networkId networkId

def checkTxSize (size : UInt32) (pps : ConwayProtParams) : ValidationResult :=
  check (.postAlonzo .maxTxSizeExceeded) (size ≤ pps.maxTransactionSize)

/-- `check_tx_ex_units`. The closures that would add up the units are given to `Iterator::map`, which
is lazy, and the iterators are dropped: no closure runs, and both sums stay zero. -/
def checkTxExUnits (mtx : Tx) (pps : ConwayProtParams) : ValidationResult :=
  if presenceOfPlutusScripts mtx then
    match mtx.transactionWitnessSet.inner.redeemer with
    | some _ =>
      let mem : UInt64 := 0
      let steps : UInt64 := 0
      if mem > pps.maxTxExUnits.mem ∨ steps > pps.maxTxExUnits.steps then .err (.postAlonzo .txExUnitsExceeded)
      else .ok ()
    | none => .err (.postAlonzo .redeemerMissing)
  else .ok ()

/-! ### Scripts -/

section Crypto
variable (c : Crypto)

/-- The scripts that a reference input's output carries. -/
def referenceScript (refInput : TransactionInput) (utxos : UTxOs) : Option ScriptRef :=
  match (utxos (.alonzoCompatible refInput)).bind MultiEraOutput.asConway with
  | some (.postAlonzo o) => o.scriptRef
  | _ => none

/-- The hash of a reference script: a native script is hashed from the bytes it came in. -/
def scriptRefHash : ScriptRef → PolicyId
  | .nativeScript s => c.blake2b224 (0 :: s.rawCbor)
  | .plutusV1Script s => c.blake2b224 (1 :: s.bytes)
  | .plutusV2Script s => c.blake2b224 (2 :: s.bytes)
  | .plutusV3Script s => c.blake2b224 (3 :: s.bytes)

def getScriptHashFromReferenceInput (refInput : TransactionInput) (utxos : UTxOs) : Option PolicyId :=
  (referenceScript refInput utxos).map (scriptRefHash c)

def getReferenceScriptHashes (body : TransactionBody) (utxos : UTxOs) : List PolicyId :=
  (body.referenceInputs.getD []).filterMap fun i => getScriptHashFromReferenceInput c i utxos

def getScriptHashFromInput (input : TransactionInput) (utxos : UTxOs) : Option ScriptHash :=
  match (utxos (.alonzoCompatible input)).bind conwayAddress with
  | some address => match getPaymentPart address with
    | some (.script h) => some h
    | _ => none
  | none => none

/-- The hashes of the native scripts of the witness set. -/
def nativeScriptHashes (wits : WitnessSet) : List PolicyId :=
  (wits.nativeScript.getD []).map fun s => computeNativeScriptHash c s.inner

/-- The hashes of the Plutus scripts of the witness set, by version. -/
def plutusScriptHashes (wits : WitnessSet) : List (List PolicyId) :=
  [(wits.plutusV1Script.getD []).map (computePlutusV1ScriptHash c),
    (wits.plutusV2Script.getD []).map (computePlutusV2ScriptHash c),
    (wits.plutusV3Script.getD []).map (computePlutusV3ScriptHash c)]

def checkMinting (body : TransactionBody) (mtx : Tx) (utxos : UTxOs) : ValidationResult :=
  match body.mint with
  | some minted =>
    let wits := mtx.transactionWitnessSet.inner
    let all := nativeScriptHashes c wits ++ (plutusScriptHashes c wits).flatten ++
      getReferenceScriptHashes c body utxos
    Outcome.forEach (fun policy => check (.postAlonzo (.mintingLacksPolicy policy)) (all.contains policy))
      minted.keys
  | none => .ok ()

/-- `check_needed_scripts`; the last two lists share an error in the source. -/
def checkNeeded (body : TransactionBody) (utxos : UTxOs) (wits : WitnessSet) : ValidationResult :=
  checkNeededScripts (.postAlonzo .scriptWitnessMissing) (fun policy => .postAlonzo (.mintingLacksPolicy policy))
    [.postAlonzo .unneededNativeScript, .postAlonzo .unneededPlutusV1Script,
      .postAlonzo .unneededPlutusV2Script, .postAlonzo .unneededPlutusV2Script]
    (nativeScriptHashes c wits :: plutusScriptHashes c wits) (getReferenceScriptHashes c body utxos)
    (body.inputs.filterMap fun i => getScriptHashFromInput i utxos)
    ((body.mint.map ExtTreeMap.keys).getD [])

/-! ### Datums -/

def getDatumHash : TransactionOutput → Option (Hash 32)
  | .legacy o => o.datumHash
  | .postAlonzo o => match o.datumOption with
    | some (.hash h) => some h
    | _ => none

/-- The datum hash an input asks for: that of an output of any era, unless the datum is inline. -/
def inputDatumHash (utxos : UTxOs) (input : TransactionInput) : Outcome ValidationError (Option (Hash 32)) := do
  let output ← Outcome.ofOption (.postAlonzo .inputNotInUTxO) (utxos (.alonzoCompatible input))
  match output.datum with
  | some (.hash h) => .ok (some h)
  | _ => .ok none

/-- The datum hashes `find_datum` looks through: outputs, collateral return, reference inputs. -/
def knownDatumHashes (body : TransactionBody) (utxos : UTxOs) : List (Hash 32) :=
  body.outputs.filterMap getDatumHash ++ (body.collateralReturn.bind getDatumHash).toList ++
    (body.referenceInputs.getD []).filterMap fun i =>
      ((utxos (.alonzoCompatible i)).bind MultiEraOutput.asConway).bind getDatumHash

def checkDatums (body : TransactionBody) (utxos : UTxOs)
    (plutusData : Option (KeepRaw (List (KeepRaw PlutusData)))) : ValidationResult := do
  let hashes := ((plutusData.map KeepRaw.inner).getD []).map fun d => (false, c.blake2b256 d.rawCbor)
  let hashes ← checkInputDatums (.postAlonzo .datumMissing) (inputDatumHash utxos) body.inputs hashes
  checkRemainingDatums (.postAlonzo .unneededDatum) (knownDatumHashes body utxos) hashes

/-! ### Redeemers -/

/-- `sort_reward_accounts`, as the order it sorts by. -/
def rewardAccountLe (a b : StakeAddress) : Bool :=
  if a.network ≠ b.network then a.network.value ≤ b.network.value
  else match a.payload, b.payload with
    | .script _, .stake _ => true
    | .stake _, .script _ => false
    | .script ha, .script hb => ha ≤ hb
    | .stake ha, .stake hb => ha ≤ hb

/-- The reward accounts of the withdrawals, parsed and sorted. -/
def withdrawalAddresses (withdrawals : FinMap RewardAccount Coin) : Outcome ValidationError (List StakeAddress) := do
  let parsed ← Outcome.fold (fun (acc : List StakeAddress) bytes => match Address.fromBytes bytes with
    | some (.stake addr) => .ok (acc ++ [addr])
    | _ => .err (.postAlonzo .inputDecoding)) [] withdrawals.keys
  .ok (parsed.insertionSort fun a b => rewardAccountLe a b = true)

/-- A script reward account whose script passes the test. -/
def isPlutusReward (isPhase2Script : PolicyId → Bool) (addr : StakeAddress) : Bool :=
  match addr.payload with
  | .script h => isPhase2Script h
  | .stake _ => false

def mkPlutusScriptRedeemerPointers (isPhase2Script : PolicyId → Bool) (body : TransactionBody) (utxos : UTxOs) :
    Outcome ValidationError (List RedeemersKey) := do
  let spends := (indicesOf (fun i => match getScriptHashFromInput i utxos with
    | some h => isPhase2Script h
    | none => false) (sortInputs body.inputs)).map (RedeemersKey.mk .spend)
  let mints := (indicesOf isPhase2Script ((body.mint.map ExtTreeMap.keys).getD [])).map (RedeemersKey.mk .mint)
  let rewards ← match body.withdrawals with
    | some withdrawals => withdrawalAddresses withdrawals
    | none => .ok []
  .ok (spends ++ mints ++ (indicesOf (isPlutusReward isPhase2Script) rewards).map (RedeemersKey.mk .reward))

/-- The keys of the redeemers, in either form. -/
def redeemerKeys : Option (KeepRaw Redeemers) → List RedeemersKey
  | some ⟨_, .list rs, _⟩ => rs.map fun r => ⟨r.tag, r.index⟩
  | some ⟨_, .map rs, _⟩ => rs.keys
  | none => []

def checkRedeemers (body : TransactionBody) (wits : WitnessSet) (utxos : UTxOs) : ValidationResult := do
  let phase2 := (plutusScriptHashes c wits).flatten ++ getReferenceScriptHashes c body utxos
  let pointers ← mkPlutusScriptRedeemerPointers phase2.contains body utxos
  redeemerPointersCoincide (.postAlonzo .unneededRedeemer) (.postAlonzo .redeemerMissing)
    (redeemerKeys wits.redeemer) pointers

/-! ### Witness set -/

/-- The errors of the walks over the key witnesses. -/
def vkErrors : VkErrors :=
  ⟨.postAlonzo .vkWitnessMissing, .postAlonzo .vkWrongSignature, .postAlonzo .inputDecoding,
    .postAlonzo .inputNotInUTxO⟩

/-- The bytes of the address of an output of any era but Byron. -/
def vkeyAddress : MultiEraOutput → Option Bytes
  | .conway o => some (outputAddress o)
  | .alonzoCompatible o _ => some o.address
  | .babbage (.legacy o) => some o.address
  | .babbage (.postAlonzo o) => some o.address
  | .byron _ => none

/-- The bytes the key witnesses sign: the hash of the body's bytes. -/
def txHash (mtx : Tx) : Bytes := Hash.toBytes (c.blake2b256 mtx.transactionBody.rawCbor)

/-- `check_vkey_input_wits`: an input or collateral at a Byron address is an error. -/
def checkVkeyInputWits (mtx : Tx) (wits : Option (List VKeyWitness)) (utxos : UTxOs) : ValidationResult :=
  Pallas.checkVkeyInputWits c vkErrors vkeyAddress (.err (.postAlonzo .inputDecoding))
    mtx.transactionBody.inner.inputs mtx.transactionBody.inner.collateral wits (txHash c mtx) utxos

/-- `check_witness_set`; a missing list of key witnesses counts as an empty one. -/
def checkWitnessSet (mtx : Tx) (utxos : UTxOs) : ValidationResult := do
  let body := mtx.transactionBody.inner
  let wits := mtx.transactionWitnessSet.inner
  let vkeyWits := some (wits.vkeywitness.getD [])
  checkNeeded c body utxos wits
  checkDatums c body utxos wits.plutusData
  checkRedeemers c body wits utxos
  checkRequiredSigners c (.postAlonzo .reqSignerMissing) (.postAlonzo .reqSignerWrongSig)
    body.requiredSigners vkeyWits (txHash c mtx)
  checkVkeyInputWits c mtx vkeyWits utxos

end Crypto

/-! ### Languages and script integrity -/

inductive Language where
  | plutusV1
  | plutusV2
  | plutusV3
  deriving DecidableEq

/-- The index of a language, `lang as u8`. -/
def Language.index : Language → Nat
  | plutusV1 => 0
  | plutusV2 => 1
  | plutusV3 => 2

/-- The cost model of a language, when the parameters have one. -/
def costModel (pps : ConwayProtParams) : Language → Option CostModel
  | .plutusV1 => pps.costModelsForScriptLanguages.plutusV1
  | .plutusV2 => pps.costModelsForScriptLanguages.plutusV2
  | .plutusV3 => pps.costModelsForScriptLanguages.plutusV3

def availableLangs (pps : ConwayProtParams) : List Language :=
  [.plutusV1, .plutusV2, .plutusV3].filter fun l => (costModel pps l).isSome

def computeAllOutputs (mtx : Tx) (utxos : UTxOs) : List TransactionOutput :=
  let body := mtx.transactionBody.inner
  (body.inputs ++ body.referenceInputs.getD []).filterMap
    (fun i => (utxos (.alonzoCompatible i)).bind MultiEraOutput.asConway) ++ body.outputs

/-- One output of `any_datums_or_script_refs`. -/
def hasDatumOrScriptRef : TransactionOutput → Bool
  | .legacy _ => false
  | .postAlonzo o => o.scriptRef.isSome || match o.datumOption with
    | some (.data _) => true
    | _ => false

def allowedTxLangs (mtx : Tx) (utxos : UTxOs) : List Language :=
  let all := computeAllOutputs mtx utxos
  if all.any fun o => isByronAddress (outputAddress o) then []
  else if all.any hasDatumOrScriptRef || !(mtx.transactionBody.inner.referenceInputs.getD []).isEmpty then
    [.plutusV2, .plutusV3]
  else [.plutusV1, .plutusV2, .plutusV3]

/-- The language of a reference script, if it is a Plutus script. -/
def scriptRefLanguage : ScriptRef → Option Language
  | .nativeScript _ => none
  | .plutusV1Script _ => some .plutusV1
  | .plutusV2Script _ => some .plutusV2
  | .plutusV3Script _ => some .plutusV3

def txLanguages (mtx : Tx) (utxos : UTxOs) : List Language :=
  let wits := mtx.transactionWitnessSet.inner
  let inWits : Language → Bool
    | .plutusV1 => !(wits.plutusV1Script.getD []).isEmpty
    | .plutusV2 => !(wits.plutusV2Script.getD []).isEmpty
    | .plutusV3 => !(wits.plutusV3Script.getD []).isEmpty
  let refs := (mtx.transactionBody.inner.referenceInputs.getD []).filterMap fun i =>
    (referenceScript i utxos).bind scriptRefLanguage
  [.plutusV1, .plutusV2, .plutusV3].filter fun l => inWits l || refs.contains l

def checkLanguages (mtx : Tx) (utxos : UTxOs) (pps : ConwayProtParams) : ValidationResult :=
  Outcome.forEach (fun lang => check (.postAlonzo .unsupportedPlutusLanguage)
    ((availableLangs pps).contains lang || (allowedTxLangs mtx utxos).contains lang)) (txLanguages mtx utxos)

/-- `cost_model_for_tx`: a missing cost model fails. -/
def costModelForTx (langs : List Language) (pps : ConwayProtParams) : Option (List (Language × CostModel)) :=
  langs.mapM fun l => (costModel pps l).map fun m => (l, m)

/-- One entry of the encoded language views; the first version is wrapped in byte strings. -/
def encodeLanguageView : Language × CostModel → Bytes
  | (.plutusV1, m) => Cbor.bytes (Cbor.uint 0) ++
      Cbor.bytes (Cbor.beginArray ++ m.flatMap (fun v => Cbor.int v.toInt) ++ Cbor.endIndef)
  | (l, m) => Cbor.uint l.index ++ Cbor.array m.length ++ m.flatMap fun v => Cbor.int v.toInt

/-- `Encode for LanguageViews`: the first version goes last. -/
def encodeLanguageViews (views : List (Language × CostModel)) : Bytes :=
  Cbor.map views.length ++
    ((views.filter fun v => v.1 ≠ .plutusV1) ++ views.filter fun v => v.1 = .plutusV1).flatMap encodeLanguageView

/-- `Encode for Redeemers`. -/
def encodeRedeemers : Redeemers → Bytes
  | .list rs => Cbor.array rs.length ++ rs.flatMap fun r =>
      Cbor.array 4 ++ Cbor.uint r.tag.index ++ Cbor.uint r.index.toNat ++ r.data.encode ++ encodeExUnits r.exUnits
  | .map rs => Cbor.map rs.size ++ rs.toList.flatMap fun (k, v) =>
      Cbor.array 2 ++ Cbor.uint k.tag.index ++ Cbor.uint k.index.toNat ++
        Cbor.array 2 ++ v.data.encode ++ encodeExUnits v.exUnits

/-- `ScriptData::build_for` and `ScriptData::hash`: the redeemers written out again, the bytes of the
datums, and the language views (only when there are redeemers). -/
def scriptDataHash (c : Crypto) (wits : WitnessSet) (views : List (Language × CostModel)) : Option (Hash 32) :=
  match wits.redeemer, wits.plutusData with
  | none, none => none
  | some redeemers, datums => some (c.blake2b256 (encodeRedeemers redeemers.inner ++
      (datums.map KeepRaw.rawCbor).getD [] ++ encodeLanguageViews views))
  | none, some datums => some (c.blake2b256 (0xa0 :: datums.rawCbor ++ [0xa0]))

def checkScriptDataHash (c : Crypto) (body : TransactionBody) (mtx : Tx) (utxos : UTxOs)
    (pps : ConwayProtParams) : ValidationResult :=
  let langs := txLanguages mtx utxos
  match body.scriptDataHash with
  | none => check (.postAlonzo .scriptIntegrityHash) langs.isEmpty
  | some provided => do
    let views ← Outcome.ofOption (.postAlonzo .scriptIntegrityHash) (costModelForTx langs pps)
    let expected ← Outcome.ofOption (.postAlonzo .scriptIntegrityHash)
      (scriptDataHash c mtx.transactionWitnessSet.inner views)
    check (.postAlonzo .scriptIntegrityHash) (provided == expected)

/-! ### The validator -/

def validateConwayTx (pr : Profile) (c : Crypto) (mtx : Tx) (utxos : UTxOs) (pps : ConwayProtParams)
    (slot : UInt64) (networkId : UInt8) : ValidationResult := do
  let body := mtx.transactionBody.inner
  let size ← Outcome.ofOption (.postAlonzo .unknownTxSize) (getConwayTxSize mtx)
  check (.postAlonzo .txInsEmpty) (!body.inputs.isEmpty)
  checkAllInsInUtxos body utxos
  checkTxValidityInterval body slot
  checkFee pr body size mtx utxos pps
  checkPreservationOfValue pr body utxos
  checkMinLovelace pr body pps
  checkOutputValSize body pps
  checkNetworkId body networkId
  checkTxSize size pps
  checkTxExUnits mtx pps
  checkMinting c body mtx utxos
  checkWitnessSet c mtx utxos
  checkLanguages mtx utxos pps
  checkAuxiliaryData c (.postAlonzo .metadataHash) (body.auxiliaryDataHash.map Hash.toBytes) mtx.auxiliaryData
  checkScriptDataHash c body mtx utxos pps

end Pallas.Conway
