import Pallas.Validate.Checks
import Pallas.Validate.ScriptData

/-!
# Babbage-era transaction validation (`pallas-validate/src/phase1/babbage.rs`)

The checks in the order of the source, ending in `validateBabbageTx`. Values are read from outputs of
any era up to Babbage, everything else only from Babbage outputs (`as_babbage`).
-/

namespace Pallas.Babbage
open Std
open Alonzo (RedeemerPointer Redeemer encodeRedeemers)

/-! ### Inputs, interval, fee, collateral -/

/-- The value of an output of the transaction itself. -/
def outputValue : TransactionOutput → Value
  | .legacy o => o.amount
  | .postAlonzo o => o.value

/-- The address bytes of a Babbage output. -/
def outputAddress : TransactionOutput → Bytes
  | .legacy o => o.address
  | .postAlonzo o => o.address

/-- `val_from_multi_era_output`: a Conway output runs into the `unimplemented!()`. -/
def valFromMultiEraOutput : MultiEraOutput → Outcome ValidationError Value
  | .byron o => .ok (.coin o.amount)
  | .alonzoCompatible o _ => .ok o.amount
  | .babbage o => .ok (outputValue o)
  | .conway _ => .panic

def checkAllInsInUtxos (body : TransactionBody) (utxos : UTxOs) : ValidationResult := do
  checkInsInUtxos (.postAlonzo .inputNotInUTxO) body.inputs utxos
  checkInsInUtxos (.postAlonzo .collateralNotInUTxO) (body.collateral.getD []) utxos
  checkInsInUtxos (.postAlonzo .referenceInputNotInUTxO) (body.referenceInputs.getD []) utxos

def checkTxValidityInterval (body : TransactionBody) (slot : UInt64) : ValidationResult := do
  checkLowerBound (.postAlonzo .blockPrecedesValInt) body.validityIntervalStart slot
  checkUpperBound (.postAlonzo .blockExceedsValInt) body.ttl slot

def presenceOfPlutusScripts (mtx : Tx) : Bool :=
  let wits := mtx.transactionWitnessSet.inner
  !(wits.plutusV1Script.getD []).isEmpty || !(wits.plutusV2Script.getD []).isEmpty

/-- One collateral of `check_collaterals_assets`. -/
def addCollateral (pr : Profile) (utxos : UTxOs) (acc : Value) (collateral : TransactionInput) :
    Outcome ValidationError Value :=
  match utxos (.alonzoCompatible collateral) with
  | some output => do
    let val ← valFromMultiEraOutput output
    addValues pr acc val (.postAlonzo .negativeValue)
  | none => .err (.postAlonzo .collateralNotInUTxO)

def checkCollateralsAssets (pr : Profile) (body : TransactionBody) (utxos : UTxOs) (pps : BabbageProtParams) :
    ValidationResult :=
  match body.collateral with
  | some collaterals => do
    let collInput ← Outcome.fold (addCollateral pr utxos) emptyValue collaterals
    let collReturn : Value := match body.collateralReturn with
      | some output => outputValue output
      | none => .coin 0
    let paid ← lovelaceDiffOrFail collInput collReturn (.postAlonzo .nonLovelaceCollateral)
    let feePercentage : UInt64 ← MachineInt.mul pr body.fee pps.collateralPercentage.toUInt64
    let paid100 : UInt64 ← MachineInt.mul pr paid 100
    check (.postAlonzo .collateralMinLovelace) (feePercentage ≤ paid100)
    match body.totalCollateral with
    | some annotated => check (.postAlonzo .collateralAnnotationErr) (paid == annotated)
    | none => .ok ()
  | none => .err (.postAlonzo .collateralMissing)

/-- What `as_babbage` gives of an output's address. -/
def babbageAddress (output : MultiEraOutput) : Option Bytes := output.asBabbage.map outputAddress

def checkCollaterals (pr : Profile) (body : TransactionBody) (utxos : UTxOs) (pps : BabbageProtParams) :
    ValidationResult := do
  let collaterals ← Outcome.ofOption (.postAlonzo .collateralMissing) body.collateral
  checkCollateralsNumber (.postAlonzo .collateralMissing) (.postAlonzo .tooManyCollaterals) collaterals
    pps.maxCollateralInputs
  checkCollateralsAddress (.postAlonzo .collateralNotVKeyLocked) (.postAlonzo .inputDecoding)
    (.postAlonzo .collateralNotInUTxO) babbageAddress collaterals utxos
  checkCollateralsAssets pr body utxos pps

def checkFee (pr : Profile) (body : TransactionBody) (size : UInt32) (mtx : Tx) (utxos : UTxOs)
    (pps : BabbageProtParams) : ValidationResult := do
  checkMinFee pr (.postAlonzo .feeBelowMin) body.fee pps.minfeeA pps.minfeeB size
  if presenceOfPlutusScripts mtx then checkCollaterals pr body utxos pps else .ok ()

/-! ### Preservation of value -/

/-- One input of `get_consumed`. -/
def addInput (pr : Profile) (utxos : UTxOs) (res : Value) (input : TransactionInput) :
    Outcome ValidationError Value := do
  let output ← Outcome.ofOption (.postAlonzo .inputNotInUTxO) (utxos (.alonzoCompatible input))
  let val ← valFromMultiEraOutput output
  addValues pr res val (.postAlonzo .negativeValue)

def getConsumed (pr : Profile) (body : TransactionBody) (utxos : UTxOs) : Outcome ValidationError Value :=
  Outcome.fold (addInput pr utxos) emptyValue body.inputs

def getProduced (pr : Profile) (body : TransactionBody) : Outcome ValidationError Value :=
  Outcome.fold (fun res o => addValues pr res (outputValue o) (.postAlonzo .negativeValue))
    emptyValue body.outputs

def checkPreservationOfValue (pr : Profile) (body : TransactionBody) (utxos : UTxOs) : ValidationResult := do
  let input ← getConsumed pr body utxos
  let produced ← getProduced pr body
  let output ← addValues pr produced (.coin body.fee) (.postAlonzo .negativeValue)
  let input ← addMint pr input body.mint (.postAlonzo .negativeValue)
  check (.postAlonzo .preservationOfValue) (valuesAreEqual input output)

/-! ### Outputs, network, size, execution units -/

def computeMinLovelace (pr : Profile) (val : Value) (pps : BabbageProtParams) :
    Outcome ValidationError UInt64 := do
  let size : UInt64 ← MachineInt.add pr (getValSizeInWords val) 160
  MachineInt.mul pr pps.adaPerUtxoByte size

def checkMinLovelace (pr : Profile) (body : TransactionBody) (pps : BabbageProtParams) : ValidationResult :=
  Outcome.forEach (fun output => do
    let min ← computeMinLovelace pr (outputValue output) pps
    check (.postAlonzo .minLovelaceUnreached) (min ≤ (outputValue output).lovelace)) body.outputs

def checkOutputValSize (body : TransactionBody) (pps : BabbageProtParams) : ValidationResult :=
  Outcome.forEach (fun output => check (.postAlonzo .maxValSizeExceeded)
    (getValSizeInWords (outputValue output) ≤ pps.maxValueSize.toUInt64)) body.outputs

def checkNetworkId (body : TransactionBody) (networkId : UInt8) : ValidationResult := do
  checkTxOutsNetworkId (.postAlonzo .addressDecoding) (.postAlonzo .outputWrongNetworkID)
    (body.outputs.map outputAddress) networkId
  checkTxNetworkId (.postAlonzo .txWrongNetworkID) body.networkId networkId

def checkTxSize (size : UInt32) (pps : BabbageProtParams) : ValidationResult :=
  check (.postAlonzo .maxTxSizeExceeded) (size ≤ pps.maxTransactionSize)

def checkTxExUnits (pr : Profile) (mtx : Tx) (pps : BabbageProtParams) : ValidationResult :=
  if presenceOfPlutusScripts mtx then
    match mtx.transactionWitnessSet.inner.redeemer with
    | some redeemers =>
      checkExUnitsSum pr (.postAlonzo .txExUnitsExceeded) (redeemers.map Redeemer.exUnits) pps.maxTxExUnits
    | none => .err (.postAlonzo .redeemerMissing)
  else .ok ()

/-! ### Scripts -/

section Crypto
variable (c : Crypto)

/-- The script that a reference input's output carries. -/
def referenceScript (refInput : TransactionInput) (utxos : UTxOs) : Option ScriptRef :=
  match (utxos (.alonzoCompatible refInput)).bind MultiEraOutput.asBabbage with
  | some (.postAlonzo o) => o.scriptRef
  | _ => none

/-- The hash of a reference script: a native script is hashed from the bytes it came in. -/
def scriptRefHash : ScriptRef → PolicyId
  | .nativeScript s => c.blake2b224 (0 :: s.rawCbor)
  | .plutusV1Script s => c.blake2b224 (1 :: s.bytes)
  | .plutusV2Script s => c.blake2b224 (2 :: s.bytes)

def getScriptHashFromReferenceInput (refInput : TransactionInput) (utxos : UTxOs) : Option PolicyId :=
  (referenceScript refInput utxos).map (scriptRefHash c)

def getReferenceScriptHashes (body : TransactionBody) (utxos : UTxOs) : List PolicyId :=
  (body.referenceInputs.getD []).filterMap fun i => getScriptHashFromReferenceInput c i utxos

def getScriptHashFromInput (input : TransactionInput) (utxos : UTxOs) : Option ScriptHash :=
  match (utxos (.alonzoCompatible input)).bind babbageAddress with
  | some address => match getPaymentPart address with
    | some (.script h) => some h
    | _ => none
  | none => none

/-- The hashes of the native scripts of the witness set. -/
def nativeScriptHashes (wits : WitnessSet) : List PolicyId :=
  (wits.nativeScript.getD []).map fun s => computeNativeScriptHash c s.inner

/-- The hashes of the Plutus scripts of the witness set, by version. -/
def plutusScriptHashes (wits : WitnessSet) : List (List PolicyId) :=
  [(wits.plutusV1Script.getD []).map (computePlutusV1ScriptHash c),
    (wits.plutusV2Script.getD []).map (computePlutusV2ScriptHash c)]

def checkMinting (body : TransactionBody) (mtx : Tx) (utxos : UTxOs) : ValidationResult :=
  match body.mint with
  | some minted =>
    let wits := mtx.transactionWitnessSet.inner
    let all := nativeScriptHashes c wits ++ (plutusScriptHashes c wits).flatten ++
      getReferenceScriptHashes c body utxos
    Outcome.forEach (fun policy => check (.postAlonzo (.mintingLacksPolicy policy)) (all.contains policy))
      minted.keys
  | none => .ok ()

/-- `check_needed_scripts`. -/
def checkNeeded (body : TransactionBody) (utxos : UTxOs) (wits : WitnessSet) : ValidationResult :=
  checkNeededScripts (.postAlonzo .scriptWitnessMissing) (fun policy => .postAlonzo (.mintingLacksPolicy policy))
    [.postAlonzo .unneededNativeScript, .postAlonzo .unneededPlutusV1Script,
      .postAlonzo .unneededPlutusV2Script]
    (nativeScriptHashes c wits :: plutusScriptHashes c wits) (getReferenceScriptHashes c body utxos)
    (body.inputs.filterMap fun i => getScriptHashFromInput i utxos)
    ((body.mint.map ExtTreeMap.keys).getD [])

/-! ### Datums -/

def getDatumHash : TransactionOutput → Option (Hash 32)
  | .legacy o => o.datumHash
  | .postAlonzo o => match o.datumOption with
    | some (.hash h) => some h
    | _ => none

/-- The datum hash an input asks for; an output `as_babbage` does not read is an error. -/
def inputDatumHash (utxos : UTxOs) (input : TransactionInput) : Outcome ValidationError (Option (Hash 32)) := do
  let output ← Outcome.ofOption (.postAlonzo .inputNotInUTxO)
    ((utxos (.alonzoCompatible input)).bind MultiEraOutput.asBabbage)
  .ok (getDatumHash output)

/-- The datum hashes `find_datum` looks through: outputs, collateral return, reference inputs. -/
def knownDatumHashes (body : TransactionBody) (utxos : UTxOs) : List (Hash 32) :=
  body.outputs.filterMap getDatumHash ++ (body.collateralReturn.bind getDatumHash).toList ++
    (body.referenceInputs.getD []).filterMap fun i =>
      ((utxos (.alonzoCompatible i)).bind MultiEraOutput.asBabbage).bind getDatumHash

def checkDatums (body : TransactionBody) (utxos : UTxOs) (plutusData : Option (List (KeepRaw PlutusData))) :
    ValidationResult := do
  let hashes := (plutusData.getD []).map fun d => (false, c.blake2b256 d.rawCbor)
  let hashes ← checkInputDatums (.postAlonzo .datumMissing) (inputDatumHash utxos) body.inputs hashes
  checkRemainingDatums (.postAlonzo .unneededDatum) (knownDatumHashes body utxos) hashes

/-! ### Redeemers and key witnesses -/

/-- `mk_plutus_script_redeemer_pointers`: every script input counts, also one a native script locks. -/
def mkPlutusScriptRedeemerPointers (isPhase2Script : PolicyId → Bool) (body : TransactionBody) (utxos : UTxOs) :
    List RedeemerPointer :=
  (indicesOf (fun i => (getScriptHashFromInput i utxos).isSome) (sortInputs body.inputs)).map
      (RedeemerPointer.mk .spend) ++
    (indicesOf isPhase2Script ((body.mint.map ExtTreeMap.keys).getD [])).map (RedeemerPointer.mk .mint)

def checkRedeemers (body : TransactionBody) (wits : WitnessSet) (utxos : UTxOs) : ValidationResult :=
  let phase2 := (plutusScriptHashes c wits).flatten ++ getReferenceScriptHashes c body utxos
  redeemerPointersCoincide (.postAlonzo .unneededRedeemer) (.postAlonzo .redeemerMissing)
    ((wits.redeemer.getD []).map fun r => RedeemerPointer.mk r.tag r.index)
    (mkPlutusScriptRedeemerPointers phase2.contains body utxos)

/-- The errors of the walks over the key witnesses. -/
def vkErrors : VkErrors :=
  ⟨.postAlonzo .vkWitnessMissing, .postAlonzo .vkWrongSignature, .postAlonzo .inputDecoding,
    .postAlonzo .inputNotInUTxO⟩

/-- The bytes the key witnesses sign: the hash of the body's bytes. -/
def txHash (mtx : Tx) : Bytes := Hash.toBytes (c.blake2b256 mtx.transactionBody.rawCbor)

/-- `check_vkey_input_wits`: an output that `as_babbage` does not read is passed over. -/
def checkVkeyInputWits (mtx : Tx) (wits : Option (List VKeyWitness)) (utxos : UTxOs) : ValidationResult :=
  Pallas.checkVkeyInputWits c vkErrors babbageAddress (.ok ()) mtx.transactionBody.inner.inputs
    mtx.transactionBody.inner.collateral wits (txHash c mtx) utxos

def checkWitnessSet (mtx : Tx) (utxos : UTxOs) : ValidationResult := do
  let body := mtx.transactionBody.inner
  let wits := mtx.transactionWitnessSet.inner
  checkNeeded c body utxos wits
  checkDatums c body utxos wits.plutusData
  checkRedeemers c body wits utxos
  checkRequiredSigners c (.postAlonzo .reqSignerMissing) (.postAlonzo .reqSignerWrongSig)
    body.requiredSigners wits.vkeywitness (txHash c mtx)
  checkVkeyInputWits c mtx wits.vkeywitness utxos

end Crypto

/-! ### Languages and script integrity -/

/-- The slot from which a network has PlutusV2. -/
def plutusV2Slot (networkMagic : UInt32) (networkId : UInt8) : UInt64 :=
  if networkMagic = 1 ∧ networkId = 0 then 3974409
  else if networkMagic = 2 ∧ networkId = 0 then 777610
  else 72748820

def blockLangs (networkMagic : UInt32) (networkId : UInt8) (slot : UInt64) : List Language :=
  if plutusV2Slot networkMagic networkId ≤ slot then [.plutusV1, .plutusV2] else [.plutusV1]

def computeAllOutputs (mtx : Tx) (utxos : UTxOs) : List TransactionOutput :=
  let body := mtx.transactionBody.inner
  (body.inputs ++ body.referenceInputs.getD []).filterMap
    (fun i => (utxos (.alonzoCompatible i)).bind MultiEraOutput.asBabbage) ++ body.outputs

/-- One output of `any_datums_or_script_refs`. -/
def hasDatumOrScriptRef : TransactionOutput → Bool
  | .legacy _ => false
  | .postAlonzo o => o.scriptRef.isSome || match o.datumOption with
    | some (.data _) => true
    | _ => false

def allowedLangs (mtx : Tx) (utxos : UTxOs) : List Language :=
  let all := computeAllOutputs mtx utxos
  if all.any fun o => isByronAddress (outputAddress o) then []
  else if all.any hasDatumOrScriptRef || !(mtx.transactionBody.inner.referenceInputs.getD []).isEmpty then
    [.plutusV2]
  else [.plutusV1, .plutusV2]

def availableLangs (mtx : Tx) (utxos : UTxOs) (networkMagic : UInt32) (networkId : UInt8) (slot : UInt64) :
    List Language :=
  (blockLangs networkMagic networkId slot).filter (allowedLangs mtx utxos).contains

/-- The language of a reference script, if it is a Plutus script. -/
def scriptRefLanguage : ScriptRef → Option Language
  | .nativeScript _ => none
  | .plutusV1Script _ => some .plutusV1
  | .plutusV2Script _ => some .plutusV2

def txLanguages (mtx : Tx) (utxos : UTxOs) : List Language :=
  let wits := mtx.transactionWitnessSet.inner
  let inWits : Language → Bool
    | .plutusV1 => !(wits.plutusV1Script.getD []).isEmpty
    | .plutusV2 => !(wits.plutusV2Script.getD []).isEmpty
  let refs := (mtx.transactionBody.inner.referenceInputs.getD []).filterMap fun i =>
    (referenceScript i utxos).bind scriptRefLanguage
  [.plutusV1, .plutusV2].filter fun l => inWits l || refs.contains l

def checkLanguages (mtx : Tx) (utxos : UTxOs) (networkMagic : UInt32) (networkId : UInt8) (slot : UInt64) :
    ValidationResult :=
  Outcome.forEach (fun lang => check (.postAlonzo .unsupportedPlutusLanguage)
    ((availableLangs mtx utxos networkMagic networkId slot).contains lang)) (txLanguages mtx utxos)

/-- One hash of `compute_script_integrity_hash`: the datums go in as an array of the given length form,
and only when there are any. -/
def computeScriptIntegrityHash (c : Crypto) (definite : Bool) (plutusData : List PlutusData)
    (redeemers : List Redeemer) (costModel : Bytes) : Hash 32 :=
  c.blake2b256 (encodeRedeemers redeemers ++
    (if plutusData.isEmpty then []
      else encodeArray definite plutusData.length (plutusData.flatMap PlutusData.encode)) ++ costModel)

def checkScriptDataHash (c : Crypto) (mtx : Tx) (utxos : UTxOs) (networkMagic : UInt32) (networkId : UInt8)
    (slot : UInt64) : ValidationResult :=
  let wits := mtx.transactionWitnessSet.inner
  match mtx.transactionBody.inner.scriptDataHash with
  | some hash => match wits.plutusData, wits.redeemer with
    | some plutusData, some redeemers =>
      let data := plutusData.map KeepRaw.inner
      let costModel := babbageCostModelCbor (txLanguages mtx utxos) networkMagic networkId slot
      check (.postAlonzo .scriptIntegrityHash)
        (hash == computeScriptIntegrityHash c false data redeemers costModel ||
          hash == computeScriptIntegrityHash c true data redeemers costModel)
    | _, _ => .err (.postAlonzo .scriptIntegrityHash)
  | none => check (.postAlonzo .scriptIntegrityHash)
      ((wits.plutusData.getD []).isEmpty && (wits.redeemer.getD []).isEmpty)

/-! ### The validator -/

/-- `validate_babbage_tx`; `check_well_formedness` accepts everything. -/
def validateBabbageTx (pr : Profile) (c : Crypto) (mtx : Tx) (utxos : UTxOs) (pps : BabbageProtParams)
    (slot : UInt64) (networkMagic : UInt32) (networkId : UInt8) : ValidationResult := do
  let body := mtx.transactionBody.inner
  let size ← Outcome.ofOption (.postAlonzo .unknownTxSize) (getBabbageTxSize mtx)
  check (.postAlonzo .txInsEmpty) (!body.inputs.isEmpty)
  checkAllInsInUtxos body utxos
  checkTxValidityInterval body slot
  checkFee pr body size mtx utxos pps
  checkPreservationOfValue pr body utxos
  checkMinLovelace pr body pps
  checkOutputValSize body pps
  checkNetworkId body networkId
  checkTxSize size pps
  checkTxExUnits pr mtx pps
  checkMinting c body mtx utxos
  checkWitnessSet c mtx utxos
  checkLanguages mtx utxos networkMagic networkId slot
  checkAuxiliaryData c (.postAlonzo .metadataHash) body.auxiliaryDataHash mtx.auxiliaryData
  checkScriptDataHash c mtx utxos networkMagic networkId slot

end Pallas.Babbage
