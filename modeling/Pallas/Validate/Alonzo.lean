import Pallas.Validate.Checks
import Pallas.Validate.ScriptData

/-!
# Alonzo-era transaction validation (`pallas-validate/src/phase1/alonzo.rs`)

The checks in the order of the source, ending in `validateAlonzoTx`. The values of inputs are read
from Alonzo-compatible and Byron outputs; scripts, datums and signatures only from the former.
-/

namespace Pallas.Alonzo
open Std

/-! ### Inputs, interval, fee, collateral -/

def checkInsAndCollateralInUtxos (body : TransactionBody) (utxos : UTxOs) : ValidationResult := do
  checkInsInUtxos (.alonzo .inputNotInUTxO) body.inputs utxos
  checkInsInUtxos (.alonzo .collateralNotInUTxO) (body.collateral.getD []) utxos

def checkTxValidityInterval (body : TransactionBody) (slot : UInt64) : ValidationResult := do
  checkLowerBound (.alonzo .blockPrecedesValInt) body.validityIntervalStart slot
  checkUpperBound (.alonzo .blockExceedsValInt) body.ttl slot

def presenceOfPlutusScripts (mtx : Tx) : Bool :=
  !(mtx.transactionWitnessSet.inner.plutusScript.getD []).isEmpty

/-- `check_collaterals_number`: unlike its later copies, it narrows the number before comparing it
with zero. -/
def checkCollateralsNumber (collaterals : List TransactionInput) (pps : AlonzoProtParams) : ValidationResult :=
  let number := asU32 collaterals.length
  if number = 0 then .err (.alonzo .collateralMissing)
  else check (.alonzo .tooManyCollaterals) (number ≤ pps.maxCollateralInputs)

/-- One collateral of `check_collaterals_assets`: each must by itself reach the percentage. -/
def checkCollateralAssets (pr : Profile) (feePercentage : UInt64) (utxos : UTxOs)
    (collateral : TransactionInput) : ValidationResult := do
  let output ← Outcome.ofOption (.alonzo .collateralNotInUTxO) (utxos (.alonzoCompatible collateral))
  match output.asAlonzo with
  | some o => do
    let n100 : UInt64 ← MachineInt.mul pr o.amount.lovelace 100
    check (.alonzo .collateralMinLovelace) (feePercentage ≤ n100)
    match o.amount with
    | .multiasset _ assets => check (.alonzo .nonLovelaceCollateral) assets.isEmpty
    | .coin _ => .ok ()
  | none => .ok ()

def checkCollateralsAssets (pr : Profile) (body : TransactionBody) (utxos : UTxOs) (pps : AlonzoProtParams) :
    ValidationResult := do
  let feePercentage : UInt64 ← MachineInt.mul pr body.fee pps.collateralPercentage.toUInt64
  match body.collateral with
  | some collaterals => Outcome.forEach (checkCollateralAssets pr feePercentage utxos) collaterals
  | none => .err (.alonzo .collateralMissing)

/-- What `as_alonzo` gives of an output's address. -/
def alonzoAddress (output : MultiEraOutput) : Option Bytes := output.asAlonzo.map TransactionOutput.address

def checkCollaterals (pr : Profile) (body : TransactionBody) (utxos : UTxOs) (pps : AlonzoProtParams) :
    ValidationResult := do
  let collaterals ← Outcome.ofOption (.alonzo .collateralMissing) body.collateral
  checkCollateralsNumber collaterals pps
  checkCollateralsAddress (.alonzo .collateralNotVKeyLocked) (.alonzo .inputDecoding)
    (.alonzo .collateralNotInUTxO) alonzoAddress collaterals utxos
  checkCollateralsAssets pr body utxos pps

def checkFee (pr : Profile) (body : TransactionBody) (size : UInt32) (mtx : Tx) (utxos : UTxOs)
    (pps : AlonzoProtParams) : ValidationResult := do
  checkMinFee pr (.alonzo .feeBelowMin) body.fee pps.minfeeA pps.minfeeB size
  if presenceOfPlutusScripts mtx then checkCollaterals pr body utxos pps else .ok ()

/-! ### Preservation of value -/

/-- The value of a spent output, when the source can read it. -/
def inputValue (output : MultiEraOutput) : Option Value :=
  match output.asAlonzo with
  | some o => some o.amount
  | none => output.asByron.map fun o => .coin o.amount

/-- One input of `get_consumed`. -/
def addInput (pr : Profile) (utxos : UTxOs) (res : Value) (input : TransactionInput) :
    Outcome ValidationError Value := do
  let output ← Outcome.ofOption (.alonzo .inputNotInUTxO) (utxos (.alonzoCompatible input))
  let val ← Outcome.ofOption (.alonzo .inputNotInUTxO) (inputValue output)
  addValues pr res val (.alonzo .negativeValue)

def getConsumed (pr : Profile) (body : TransactionBody) (utxos : UTxOs) : Outcome ValidationError Value :=
  Outcome.fold (addInput pr utxos) emptyValue body.inputs

def getProduced (pr : Profile) (body : TransactionBody) : Outcome ValidationError Value :=
  Outcome.fold (fun res (o : TransactionOutput) => addValues pr res o.amount (.alonzo .negativeValue))
    emptyValue body.outputs

def checkPreservationOfValue (pr : Profile) (body : TransactionBody) (utxos : UTxOs) : ValidationResult := do
  let input ← getConsumed pr body utxos
  let produced ← getProduced pr body
  let output ← addValues pr produced (.coin body.fee) (.alonzo .negativeValue)
  let input ← addMint pr input body.mint (.alonzo .negativeValue)
  check (.alonzo .preservationOfValue) (valuesAreEqual input output)

/-! ### Outputs, network, size, execution units -/

def computeMinLovelace (pr : Profile) (output : TransactionOutput) (pps : AlonzoProtParams) :
    Outcome ValidationError UInt64 := do
  let size : UInt64 ← MachineInt.add pr (getValSizeInWords output.amount)
    (if output.datumHash.isSome then 37 else 27)
  MachineInt.mul pr pps.adaPerUtxoByte size

def checkMinLovelace (pr : Profile) (body : TransactionBody) (pps : AlonzoProtParams) : ValidationResult :=
  Outcome.forEach (fun (output : TransactionOutput) => do
    let min ← computeMinLovelace pr output pps
    check (.alonzo .minLovelaceUnreached) (min ≤ output.amount.lovelace)) body.outputs

def checkOutputValSize (body : TransactionBody) (pps : AlonzoProtParams) : ValidationResult :=
  Outcome.forEach (fun (output : TransactionOutput) => check (.alonzo .maxValSizeExceeded)
    (getValSizeInWords output.amount ≤ pps.maxValueSize.toUInt64)) body.outputs

def checkNetworkId (body : TransactionBody) (networkId : UInt8) : ValidationResult := do
  checkTxOutsNetworkId (.alonzo .addressDecoding) (.alonzo .outputWrongNetworkID)
    (body.outputs.map TransactionOutput.address) networkId
  checkTxNetworkId (.alonzo .txWrongNetworkID) body.networkId networkId

def checkTxSize (size : UInt32) (pps : AlonzoProtParams) : ValidationResult :=
  check (.alonzo .maxTxSizeExceeded) (size ≤ pps.maxTransactionSize)

def checkTxExUnits (pr : Profile) (mtx : Tx) (pps : AlonzoProtParams) : ValidationResult :=
  if presenceOfPlutusScripts mtx then
    match mtx.transactionWitnessSet.inner.redeemer with
    | some redeemers =>
      checkExUnitsSum pr (.alonzo .txExUnitsExceeded) (redeemers.map Redeemer.exUnits) pps.maxTxExUnits
    | none => .err (.alonzo .redeemerMissing)
  else .ok ()

/-! ### Witness set -/

section Crypto
variable (c : Crypto)

def getScriptHashFromInput (input : TransactionInput) (utxos : UTxOs) : Option ScriptHash :=
  match (utxos (.alonzoCompatible input)).bind alonzoAddress with
  | some address => match getPaymentPart address with
    | some (.script h) => some h
    | _ => none
  | none => none

/-- The hashes of the native scripts of the witness set. -/
def nativeScriptHashes (wits : WitnessSet) : List PolicyId :=
  (wits.nativeScript.getD []).map fun s => computeNativeScriptHash c s.inner

/-- The hashes of the Plutus scripts of the witness set. -/
def plutusScriptHashes (wits : WitnessSet) : List PolicyId :=
  (wits.plutusScript.getD []).map (computePlutusV1ScriptHash c)

/-- `check_needed_scripts_are_included`; there are no reference scripts yet. -/
def checkNeededScriptsAreIncluded (body : TransactionBody) (utxos : UTxOs) (wits : WitnessSet) :
    ValidationResult :=
  checkNeededScripts (.alonzo .scriptWitnessMissing) (fun _ => .alonzo .mintingLacksPolicy)
    [.alonzo .unneededNativeScript, .alonzo .unneededPlutusScript]
    [nativeScriptHashes c wits, plutusScriptHashes c wits] []
    (body.inputs.filterMap fun i => getScriptHashFromInput i utxos)
    ((body.mint.map ExtTreeMap.keys).getD [])

/-- The datum hash an input asks for; an output `as_alonzo` does not read is an error. -/
def inputDatumHash (utxos : UTxOs) (input : TransactionInput) : Outcome ValidationError (Option (Hash 32)) := do
  let output ← Outcome.ofOption (.alonzo .inputNotInUTxO)
    ((utxos (.alonzoCompatible input)).bind MultiEraOutput.asAlonzo)
  .ok output.datumHash

def checkDatums (body : TransactionBody) (utxos : UTxOs) (plutusData : Option (List (KeepRaw PlutusData))) :
    ValidationResult := do
  let hashes := (plutusData.getD []).map fun d => (false, c.blake2b256 d.rawCbor)
  let hashes ← checkInputDatums (.alonzo .datumMissing) (inputDatumHash utxos) body.inputs hashes
  checkRemainingDatums (.alonzo .unneededDatum) (body.outputs.filterMap TransactionOutput.datumHash) hashes

/-- `mk_plutus_script_redeemer_pointers`: an entry for each Plutus script with the hash. -/
def mkPlutusScriptRedeemerPointers (body : TransactionBody) (wits : WitnessSet) (utxos : UTxOs) :
    List RedeemerPointer :=
  match wits.plutusScript with
  | some scripts =>
    let hashes := scripts.map (computePlutusV1ScriptHash c)
    (sortInputs body.inputs).zipIdx.flatMap (fun (input, index) =>
        match getScriptHashFromInput input utxos with
        | some h => (hashes.filter (h == ·)).map fun _ => ⟨.spend, asU32 index⟩
        | none => []) ++
      ((body.mint.map ExtTreeMap.keys).getD []).zipIdx.flatMap fun (policy, index) =>
        (hashes.filter (policy == ·)).map fun _ => ⟨.mint, asU32 index⟩
  | none => []

def checkRedeemers (body : TransactionBody) (wits : WitnessSet) (utxos : UTxOs) : ValidationResult :=
  redeemerPointersCoincide (.alonzo .unneededRedeemer) (.alonzo .redeemerMissing)
    ((wits.redeemer.getD []).map fun r => RedeemerPointer.mk r.tag r.index)
    (mkPlutusScriptRedeemerPointers c body wits utxos)

/-- The errors of the walks over the key witnesses. -/
def vkErrors : VkErrors :=
  ⟨.alonzo .vkWitnessMissing, .alonzo .vkWrongSignature, .alonzo .inputDecoding, .alonzo .inputNotInUTxO⟩

/-- The bytes the key witnesses sign: the hash of the body's bytes. -/
def txHash (mtx : Tx) : Bytes := Hash.toBytes (c.blake2b256 mtx.transactionBody.rawCbor)

/-- `check_vkey_input_wits`: an output that `as_alonzo` does not read is passed over. -/
def checkVkeyInputWits (mtx : Tx) (wits : Option (List VKeyWitness)) (utxos : UTxOs) : ValidationResult :=
  Pallas.checkVkeyInputWits c vkErrors alonzoAddress (.ok ()) mtx.transactionBody.inner.inputs
    mtx.transactionBody.inner.collateral wits (txHash c mtx) utxos

def checkWitnessSet (mtx : Tx) (utxos : UTxOs) : ValidationResult := do
  let body := mtx.transactionBody.inner
  let wits := mtx.transactionWitnessSet.inner
  checkNeededScriptsAreIncluded c body utxos wits
  checkDatums c body utxos wits.plutusData
  checkRedeemers c body wits utxos
  checkRequiredSigners c (.alonzo .reqSignerMissing) (.alonzo .reqSignerWrongSig) body.requiredSigners
    wits.vkeywitness (txHash c mtx)
  checkVkeyInputWits c mtx wits.vkeywitness utxos

/-! ### Metadata, script integrity, minting -/

def computeScriptIntegrityHash (plutusData : List PlutusData) (redeemers : List Redeemer) : Hash 32 :=
  c.blake2b256 (encodeRedeemers redeemers ++ Cbor.beginArray ++ plutusData.flatMap PlutusData.encode ++
    Cbor.endIndef ++ alonzoCostModelCbor)

def checkScriptDataHash (body : TransactionBody) (wits : WitnessSet) : ValidationResult :=
  match body.scriptDataHash with
  | some hash => match wits.plutusData, wits.redeemer with
    | some plutusData, some redeemers => check (.alonzo .scriptIntegrityHash)
        (hash == computeScriptIntegrityHash c (plutusData.map KeepRaw.inner) redeemers)
    | _, _ => .err (.alonzo .scriptIntegrityHash)
  | none => check (.alonzo .scriptIntegrityHash)
      ((wits.plutusData.getD []).isEmpty && (wits.redeemer.getD []).isEmpty)

def checkMinting (body : TransactionBody) (wits : WitnessSet) : ValidationResult :=
  match body.mint with
  | some minted => Outcome.forEach (fun policy => check (.alonzo .mintingLacksPolicy)
      ((nativeScriptHashes c wits).contains policy || (plutusScriptHashes c wits).contains policy)) minted.keys
  | none => .ok ()

end Crypto

/-! ### The validator -/

/-- `validate_alonzo_tx`; `check_languages` accepts everything. -/
def validateAlonzoTx (pr : Profile) (c : Crypto) (mtx : Tx) (utxos : UTxOs) (pps : AlonzoProtParams)
    (slot : UInt64) (networkId : UInt8) : ValidationResult := do
  let body := mtx.transactionBody.inner
  let wits := mtx.transactionWitnessSet.inner
  let size := getAlonzoCompTxSize mtx
  check (.alonzo .txInsEmpty) (!body.inputs.isEmpty)
  checkInsAndCollateralInUtxos body utxos
  checkTxValidityInterval body slot
  checkFee pr body size mtx utxos pps
  checkPreservationOfValue pr body utxos
  checkMinLovelace pr body pps
  checkOutputValSize body pps
  checkNetworkId body networkId
  checkTxSize size pps
  checkTxExUnits pr mtx pps
  checkWitnessSet c mtx utxos
  checkAuxiliaryData c (.alonzo .metadataHash) (body.auxiliaryDataHash.map Hash.toBytes) mtx.auxiliaryData
  checkScriptDataHash c body wits
  checkMinting c body wits

end Pallas.Alonzo
