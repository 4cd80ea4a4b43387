import Pallas.Phase2.Ledger
import Pallas.Plutus.Order
import Pallas.Validate.Redeemers
import Pallas.Lib.Loops

/-!
# Script contexts (`pallas-validate/src/phase2/script_context.rs`)

`TxInfo` is what a script of one of the three Plutus versions sees of the transaction; `into_script_context` picks the purpose
of a redeemer from it. `find_script` looks the redeemer's script up on its own, from the transaction. Both count the items of the
transaction in the lists that the `get_*_info` functions make.
-/

namespace Pallas
open Std Conway
open Babbage (DatumOption)

namespace Phase2

structure ResolvedInput where
  input : TransactionInput
  output : TransactionOutput

structure TxInInfo where
  outRef : TransactionInput
  resolved : TransactionOutput

/-- The errors of phase 2; those that hold a hash hold it in hexadecimal. -/
inductive Error where
  | badWithdrawalAddress
  | flatDecode
  | nativeScriptPhaseTwo
  | extraneousRedeemer
  | resolvedInputNotFound (input : TransactionInput)
  | nonScriptWithdrawal
  | nonScriptStakeCredential
  | noGuardrailScriptForProcedure
  | wrongEra
  | decodeError
  | byronAddressNotAllowed
  | inlineDatumNotAllowed
  | scriptAndInputRefNotAllowed
  | noPaymentCredential
  | missingRequiredDatum (hash : DatumHash)
  | missingRequiredScript (hash : ScriptHash)
  | missingRequiredInlineDatumOrHash
  | unsupportedCertificateType
  | missingScriptForRedeemer
  | slotTooFarInThePast (oldestAllowed : UInt64)
  | scriptContextBuildError
  deriving DecidableEq

/-- `ScriptInfo<T>`. -/
inductive ScriptInfo (T : Type) where
  | minting (policy : PolicyId)
  | spending (outRef : TransactionInput) (datum : T)
  | rewarding (credential : StakeCredential)
  | certifying (index : ℕ) (certificate : Certificate)
  | voting (voter : Voter)
  | proposing (index : ℕ) (procedure : ProposalProcedure)

abbrev ScriptPurpose := ScriptInfo Unit

def ScriptInfo.intoScriptInfo {T : Type} (purpose : ScriptPurpose) (datum : T) : ScriptInfo T :=
  match purpose with
  | .minting policy => .minting policy
  | .spending outRef _ => .spending outRef datum
  | .rewarding credential => .rewarding credential
  | .certifying index certificate => .certifying index certificate
  | .voting voter => .voting voter
  | .proposing index procedure => .proposing index procedure

inductive ScriptVersion where
  | native (s : NativeScript)
  | v1 (s : PlutusScript 1)
  | v2 (s : PlutusScript 2)
  | v3 (s : PlutusScript 3)

structure DataLookupTable where
  datum : FinMap DatumHash PlutusData
  scripts : FinMap ScriptHash ScriptVersion

structure TimeRange where
  lowerBound : Option UInt64
  upperBound : Option UInt64
  deriving DecidableEq

structure SlotConfig where
  slotLength : UInt64
  zeroSlot : UInt64
  zeroTime : UInt64
  deriving DecidableEq

structure TxInfoV1 where
  inputs : List TxInInfo
  outputs : List TransactionOutput
  fee : ConwayValue
  mint : Mint
  certificates : List Certificate
  withdrawals : List (Address × Coin)
  validRange : TimeRange
  signatories : List AddrKeyhash
  data : List (DatumHash × PlutusData)
  redeemers : List (ScriptPurpose × Redeemer)
  id : Hash 32

structure TxInfoV2 where
  inputs : List TxInInfo
  referenceInputs : List TxInInfo
  outputs : List TransactionOutput
  fee : ConwayValue
  mint : Mint
  certificates : List Certificate
  withdrawals : List (Address × Coin)
  validRange : TimeRange
  signatories : List AddrKeyhash
  redeemers : List (ScriptPurpose × Redeemer)
  data : List (DatumHash × PlutusData)
  id : Hash 32

structure TxInfoV3 where
  inputs : List TxInInfo
  referenceInputs : List TxInInfo
  outputs : List TransactionOutput
  fee : Coin
  mint : Mint
  certificates : List Certificate
  withdrawals : List (Address × Coin)
  validRange : TimeRange
  signatories : List AddrKeyhash
  redeemers : List (ScriptPurpose × Redeemer)
  data : List (DatumHash × PlutusData)
  id : Hash 32
  votes : List (Voter × List (GovActionId × VotingProcedure))
  proposalProcedures : List ProposalProcedure
  currentTreasuryAmount : Option Coin
  treasuryDonation : Option PositiveCoin

inductive TxInfo where
  | v1 (info : TxInfoV1)
  | v2 (info : TxInfoV2)
  | v3 (info : TxInfoV3)

inductive ScriptContext where
  | v1v2 (txInfo : TxInfo) (purpose : ScriptPurpose)
  | v3 (txInfo : TxInfo) (redeemer : PlutusData) (purpose : ScriptInfo (Option PlutusData))

/-! ### Sorting -/

/-- A map rebuilt from its entries, as `sort_mint` and `sort_value` do with a `BTreeMap`. -/
def rebuild {K V : Type} [Ord K] [TransOrd K] (f : V → V) (m : FinMap K V) : FinMap K V :=
  ExtTreeMap.ofList (m.toList.map fun e => (e.1, f e.2)) compare

theorem rebuild_id {K V : Type} [Ord K] [TransOrd K] [LawfulEqOrd K] {f : V → V} (hf : ∀ v, f v = v)
    (m : FinMap K V) : rebuild f m = m := by
  have hlist : m.toList.map (fun e => (e.1, f e.2)) = m.toList := by
    simp only [hf, Prod.mk.eta, List.map_id']
  rw [rebuild, hlist, FinMap.ofList_toList]

def sortMint (mint : Mint) : Mint := rebuild (rebuild id) mint

@[simp] theorem sortMint_eq (mint : Mint) : sortMint mint = mint := rebuild_id (rebuild_id fun _ => rfl) mint

def sortValue : ConwayValue → ConwayValue
  | .coin n => .coin n
  | .multiasset n assets => .multiasset n (rebuild (rebuild id) assets)

@[simp] theorem sortValue_eq (value : ConwayValue) : sortValue value = value := by
  cases value with
  | coin n => rfl
  | multiasset n assets => exact congrArg (GenValue.multiasset n) (rebuild_id (rebuild_id fun _ => rfl) assets)

/-- `from_alonzo_value`: a quantity of zero panics. -/
def fromAlonzoValue : Value → Outcome Error ConwayValue
  | .coin n => .ok (.coin n)
  | .multiasset n assets =>
    if assets.isEmpty then .ok (.coin n)
    else do
      let ma ← assets.mapM fun tokens => tokens.mapM fun quantity => .unwrap (PositiveCoin.tryFrom quantity)
      .ok (.multiasset n ma)

/-- `sort_tx_out_value`: a legacy output comes out in the newer form. -/
def sortTxOutValue : TransactionOutput → Outcome Error TransactionOutput
  | .legacy o => do
    let value ← fromAlonzoValue o.amount
    .ok (.postAlonzo ⟨o.address, sortValue value, o.datumHash.map .hash, none⟩)
  | .postAlonzo o => .ok (.postAlonzo { o with value := sortValue o.value })

/-- `sort_redeemers`, as the order it sorts by. -/
def redeemerKeyLe (a b : RedeemersKey) : Bool :=
  if a.tag = b.tag then a.index ≤ b.index else a.tag.index ≤ b.tag.index

/-- `sort_voters`. -/
def voterLe (a b : Voter) : Bool := (compare a b).isLE

/-- `sort_gov_action_id`. -/
def govActionIdLe (a b : GovActionId) : Bool := (compare a b).isLE

/-- `sort_reward_accounts`, on accounts that are stake addresses. -/
def accountLe (a b : RewardAccount) : Bool :=
  match stakeAddress a, stakeAddress b with
  | some a, some b => rewardAccountLe a b
  | _, _ => false

/-- The order of pairs of a hash and a datum. Data that were decoded compare without a panic. -/
def datumLe (a b : DatumHash × PlutusData) : Bool :=
  a.1 < b.1 || (a.1 == b.1 && match PlutusData.cmp a.2 b.2 with
    | .done ordering => ordering.isLE
    | .panicked => true)

/-! ### The lookup table -/

/-- The scripts of the witness set with their hashes: a native one is hashed from the bytes it came in. -/
def witnessScripts (c : Crypto) (wits : WitnessSet) : List (ScriptHash × ScriptVersion) :=
  ((wits.nativeScript.getD []).map fun s => (c.blake2b224 (0 :: s.rawCbor), .native s.inner)) ++
    ((wits.plutusV1Script.getD []).map fun s => (computePlutusV1ScriptHash c s, .v1 s)) ++
    ((wits.plutusV2Script.getD []).map fun s => (computePlutusV2ScriptHash c s, .v2 s)) ++
    (wits.plutusV3Script.getD []).map fun s => (computePlutusV3ScriptHash c s, .v3 s)

/-- The script that a resolved output carries, with its hash. -/
def carriedScript (c : Crypto) (utxo : ResolvedInput) : Option (ScriptHash × ScriptVersion) :=
  match utxo.output with
  | .legacy _ => none
  | .postAlonzo o => o.scriptRef.map fun script => (scriptRefHash c script, match script with
    | .nativeScript s => .native s.inner
    | .plutusV1Script s => .v1 s
    | .plutusV2Script s => .v2 s
    | .plutusV3Script s => .v3 s)

/-- `DataLookupTable::from_transaction`: a later entry replaces an earlier one. -/
def DataLookupTable.fromTransaction (c : Crypto) (tx : GovTx) (utxos : List ResolvedInput) : DataLookupTable where
  datum := ((tx.transactionWitnessSet.inner.plutusData.map KeepRaw.inner).getD []).foldl
    (fun table d => table.insert (c.blake2b256 d.rawCbor) d.inner) ∅
  scripts := (witnessScripts c tx.transactionWitnessSet.inner ++ utxos.filterMap (carriedScript c)).foldl
    (fun table e => table.insert e.1 e.2) ∅

/-! ### Collecting -/

/-- `get_tx_in_info_v1` and `get_tx_in_info_v2`: they differ in what they ask of an output beside its address. -/
def getTxInInfo (allowed : TransactionOutput → Outcome Error Unit) (inputs : List TransactionInput)
    (utxos : List ResolvedInput) : Outcome Error (List TxInInfo) :=
  (sortInputs inputs).mapM fun input => do
    let utxo ← Outcome.ofOption (.resolvedInputNotFound input) (utxos.find? fun utxo => utxo.input = input)
    let address ← Outcome.unwrap (Address.fromBytes (outputAddress utxo.output))
    match address with
    | .byron _ => .err .byronAddressNotAllowed
    | .stake _ => .err .noPaymentCredential
    | .shelley _ => do
      allowed utxo.output
      let resolved ← sortTxOutValue utxo.output
      .ok ⟨utxo.input, resolved⟩

/-- No inline datum and no script. -/
def allowedInV1 : TransactionOutput → Outcome Error Unit
  | .legacy _ => .ok ()
  | .postAlonzo o => match o.datumOption with
    | some (.data _) => .err .inlineDatumNotAllowed
    | _ => if o.scriptRef.isSome then .err .scriptAndInputRefNotAllowed else .ok ()

def getTxInInfoV1 : List TransactionInput → List ResolvedInput → Outcome Error (List TxInInfo) :=
    getTxInInfo allowedInV1

def getTxInInfoV2 : List TransactionInput → List ResolvedInput → Outcome Error (List TxInInfo) :=
    getTxInInfo fun _ => .ok ()

def getMintInfo (mint : Option Mint) : Mint := (mint.map sortMint).getD ∅

def getOutputsInfo (outputs : List TransactionOutput) :
    Outcome Error (List TransactionOutput) := outputs.mapM sortTxOutValue

def getCertificatesInfo (certificates : Option (List Certificate)) : List Certificate := certificates.getD []

def getProposalProceduresInfo (proposals : Option (List ProposalProcedure)) :
    List ProposalProcedure := proposals.getD []

/-- `get_withdrawals_info`. The comparison panics at an account that is no stake address, and a sort compares each of two or more. -/
def getWithdrawalsInfo (withdrawals : Option (FinMap RewardAccount Coin)) : Outcome Error (List (Address × Coin)) :=
  let entries := (withdrawals.map ExtTreeMap.toList).getD []
  if 2 ≤ entries.length ∧ ∃ e ∈ entries, stakeAddress e.1 = none then .panic
  else (entries.insertionSort fun a b => accountLe a.1 b.1 = true).mapM fun e => do
    let address ← Outcome.unwrap (Address.fromBytes e.1)
    .ok (address, e.2)

def slotToBeginPosixTime (pr : Profile) (slot : UInt64) (sc : SlotConfig) : Outcome Error UInt64 :=
  if slot < sc.zeroSlot then .err (.slotTooFarInThePast sc.zeroSlot)
  else do
    let slots : UInt64 ← MachineInt.sub pr slot sc.zeroSlot
    let msAfterBegin : UInt64 ← MachineInt.mul pr slots sc.slotLength
    MachineInt.add pr sc.zeroTime msAfterBegin

/-- A bound of the range, if there is one. -/
def posixBound (pr : Profile) (sc : SlotConfig) : Option UInt64 → Outcome Error (Option UInt64)
  | some slot => do
    let time ← slotToBeginPosixTime pr slot sc
    .ok (some time)
  | none => .ok none

def getValidityRangeInfo (pr : Profile) (body : GovTransactionBody) (sc : SlotConfig) : Outcome Error TimeRange := do
  let lowerBound ← posixBound pr sc body.validityIntervalStart
  let upperBound ← posixBound pr sc body.ttl
  .ok ⟨lowerBound, upperBound⟩

def getSignatoriesInfo (signers : Option (List AddrKeyhash)) :
    List AddrKeyhash := (signers.getD []).insertionSort (· ≤ ·)

def getDataInfo (c : Crypto) (wits : WitnessSet) : List (DatumHash × PlutusData) :=
  (((wits.plutusData.map KeepRaw.inner).getD []).map fun d => (c.blake2b256 d.rawCbor, d.inner)).insertionSort
    fun a b => datumLe a b = true

/-- The redeemers as a list of entries, in either form. -/
def redeemerEntries : Redeemers → List Redeemer
  | .list rs => rs
  | .map rs => rs.toList.map fun e => ⟨e.1.tag, e.1.index, e.2.data, e.2.exUnits⟩

/-- The key of an entry. -/
def redeemerKey (r : Redeemer) : RedeemersKey := ⟨r.tag, r.index⟩

def getRedeemersInfo (wits : WitnessSet) (toScriptPurpose : RedeemersKey → Outcome Error ScriptPurpose) :
    Outcome Error (List (ScriptPurpose × Redeemer)) :=
  let entries := (wits.redeemer.map fun rs => redeemerEntries rs.inner).getD []
  (entries.insertionSort fun a b => redeemerKeyLe (redeemerKey a) (redeemerKey b) = true).mapM fun r => do
    let purpose ← toScriptPurpose (redeemerKey r)
    .ok (purpose, r)

def getVotesInfo (votes : Option (FinMap Voter (FinMap GovActionId VotingProcedure))) :
    List (Voter × List (GovActionId × VotingProcedure)) :=
  (((votes.map ExtTreeMap.toList).getD []).insertionSort fun a b => voterLe a.1 b.1 = true).map fun e =>
    (e.1, e.2.toList.insertionSort fun a b => govActionIdLe a.1 b.1 = true)

def scriptPurposeBuilder (inputs : List TxInInfo) (mint : Mint) (certificates : List Certificate)
    (withdrawals : List (Address × Coin)) (proposalProcedures : List ProposalProcedure) (votes : List Voter)
    (redeemer : RedeemersKey) : Outcome Error ScriptPurpose :=
  let index := redeemer.index.toNat
  match redeemer.tag with
  | .mint => Outcome.ofOption .extraneousRedeemer (mint.keys[index]?.map .minting)
  | .spend => Outcome.ofOption .extraneousRedeemer (inputs[index]?.map fun i => .spending i.outRef ())
  | .cert => Outcome.ofOption .extraneousRedeemer (certificates[index]?.map (.certifying index))
  | .reward => match withdrawals[index]? with
    | some (.stake address, _) => match address.payload with
      | .script h => .ok (.rewarding (.scriptHash h))
      | .stake _ => .err .nonScriptWithdrawal
    | some _ => .err .badWithdrawalAddress
    | none => .err .extraneousRedeemer
  | .vote => Outcome.ofOption .extraneousRedeemer (votes[index]?.map .voting)
  | .propose => Outcome.ofOption .extraneousRedeemer (proposalProcedures[index]?.map (.proposing index))

/-! ### The three views -/

section Views
variable (pr : Profile) (c : Crypto) (tx : GovTx) (utxos : List ResolvedInput) (sc : SlotConfig)

/-- The transaction's id. -/
def txId : Hash 32 := c.blake2b256 tx.transactionBody.rawCbor

def TxInfoV1.fromTransaction : Outcome Error TxInfo :=
  let body := tx.transactionBody.inner
  let wits := tx.transactionWitnessSet.inner
  if body.referenceInputs.isSome then .err .scriptAndInputRefNotAllowed
  else do
    let inputs ← getTxInInfoV1 body.inputs utxos
    let certificates := getCertificatesInfo body.certificates
    let withdrawals ← getWithdrawalsInfo body.withdrawals
    let mint := getMintInfo body.mint
    let redeemers ← getRedeemersInfo wits (scriptPurposeBuilder inputs mint certificates withdrawals [] [])
    let outputs ← getOutputsInfo body.outputs
    let validRange ← getValidityRangeInfo pr body sc
    .ok (.v1 {
      inputs, outputs, fee := .coin body.fee, mint, certificates, withdrawals, validRange,
      signatories := getSignatoriesInfo body.requiredSigners, data := getDataInfo c wits, redeemers, id := txId c tx })

/-- The reference inputs of the later versions. -/
def getReferenceInputs : Outcome Error (List TxInInfo) :=
  match tx.transactionBody.inner.referenceInputs with
  | some refs => getTxInInfoV2 refs utxos
  | none => .ok []

def TxInfoV2.fromTransaction : Outcome Error TxInfo := do
  let body := tx.transactionBody.inner
  let wits := tx.transactionWitnessSet.inner
  let inputs ← getTxInInfoV2 body.inputs utxos
  let certificates := getCertificatesInfo body.certificates
  let withdrawals ← getWithdrawalsInfo body.withdrawals
  let mint := getMintInfo body.mint
  let redeemers ← getRedeemersInfo wits (scriptPurposeBuilder inputs mint certificates withdrawals [] [])
  let referenceInputs ← getReferenceInputs tx utxos
  let outputs ← getOutputsInfo body.outputs
  let validRange ← getValidityRangeInfo pr body sc
  .ok (.v2 {
    inputs, referenceInputs, outputs, fee := .coin body.fee, mint, certificates, withdrawals, validRange,
    signatories := getSignatoriesInfo body.requiredSigners, redeemers, data := getDataInfo c wits, id := txId c tx })

def TxInfoV3.fromTransaction : Outcome Error TxInfo := do
  let body := tx.transactionBody.inner
  let wits := tx.transactionWitnessSet.inner
  let inputs ← getTxInInfoV2 body.inputs utxos
  let certificates := getCertificatesInfo body.certificates
  let withdrawals ← getWithdrawalsInfo body.withdrawals
  let mint := getMintInfo body.mint
  let proposalProcedures := getProposalProceduresInfo body.proposalProcedures
  let votes := getVotesInfo body.votingProcedures
  let redeemers ← getRedeemersInfo wits
    (scriptPurposeBuilder inputs mint certificates withdrawals proposalProcedures (votes.map Prod.fst))
  let referenceInputs ← getReferenceInputs tx utxos
  let outputs ← getOutputsInfo body.outputs
  let validRange ← getValidityRangeInfo pr body sc
  .ok (.v3 {
    inputs, referenceInputs, outputs, fee := body.fee, mint, certificates, withdrawals, validRange,
    signatories := getSignatoriesInfo body.requiredSigners, redeemers, data := getDataInfo c wits, id := txId c tx,
    votes, proposalProcedures, currentTreasuryAmount := body.treasuryValue, treasuryDonation := body.donation })

/-- The view of a language. -/
def TxInfo.fromTransaction : Language → Outcome Error TxInfo
  | .plutusV1 => TxInfoV1.fromTransaction pr c tx utxos sc
  | .plutusV2 => TxInfoV2.fromTransaction pr c tx utxos sc
  | .plutusV3 => TxInfoV3.fromTransaction pr c tx utxos sc

end Views

/-- `PartialEq for Redeemer`, field by field. -/
def redeemerEq (a b : Redeemer) : Outcome Error Bool :=
  if a.tag = b.tag ∧ a.index = b.index then match PlutusData.eq a.data b.data with
    | .done same => .ok (same && a.exUnits = b.exUnits)
    | .panicked => .panic
  else .ok false

/-- The purpose of the first entry that is equal to the redeemer. -/
def findPurpose (redeemer : Redeemer) : List (ScriptPurpose × Redeemer) → Outcome Error (Option ScriptPurpose)
  | [] => .ok none
  | (purpose, someRedeemer) :: rest => do
    if ← redeemerEq redeemer someRedeemer then .ok (some purpose) else findPurpose redeemer rest

/-- The redeemers of a view. -/
def TxInfo.redeemers : TxInfo → List (ScriptPurpose × Redeemer)
  | .v1 info => info.redeemers
  | .v2 info => info.redeemers
  | .v3 info => info.redeemers

/-- The context of a purpose. -/
def TxInfo.contextOf (info : TxInfo) (redeemer : Redeemer) (datum : Option PlutusData) (purpose : ScriptPurpose) :
    ScriptContext :=
  match info with
  | .v3 _ => .v3 info redeemer.data (purpose.intoScriptInfo datum)
  | _ => .v1v2 info purpose

def TxInfo.intoScriptContext (info : TxInfo) (redeemer : Redeemer) (datum : Option PlutusData) :
    Outcome Error (Option ScriptContext) := do
  let purpose ← findPurpose redeemer info.redeemers
  .ok (purpose.map (info.contextOf redeemer datum))

/-! ### The script of a redeemer -/

def outputDatum : TransactionOutput → Option DatumOption
  | .legacy o => o.datumHash.map .hash
  | .postAlonzo o => o.datumOption

section FindScript
variable (table : DataLookupTable)

def lookupScript (hash : ScriptHash) : Outcome Error (ScriptVersion × Option PlutusData) :=
  match table.scripts[hash]? with
  | some s => .ok (s, none)
  | none => .err (.missingRequiredScript hash)

def lookupDatum : Option DatumOption → Outcome Error (Option PlutusData)
  | some (.hash hash) => match table.datum[hash]? with
    | some d => .ok (some d)
    | none => .err (.missingRequiredDatum hash)
  | some (.data d) => .ok (some d.inner)
  | none => .ok none

/-- The credential whose script a certificate runs. -/
def certificateScript : Certificate → Outcome Error ScriptHash
  | .stakeDeregistration stc | .unReg stc _ | .voteDeleg stc _ | .voteRegDeleg stc _ _ | .stakeVoteDeleg stc _ _
  | .stakeRegDeleg stc _ _ | .stakeVoteRegDeleg stc _ _ _ | .regDRepCert stc _ | .unRegDRepCert stc _
  | .updateDRepCert stc | .authCommitteeHot stc _ | .resignCommitteeCold stc | .stakeDelegation stc _ => match stc with
    | .scriptHash h => .ok h
    | .addrKeyhash _ => .err .nonScriptStakeCredential
  | .stakeRegistration _ | .poolRetirement _ _ | .reg _ _ | .poolRegistration _ _ => .err .unsupportedCertificateType

/-- The script of a withdrawal. -/
def withdrawalScript : Address → Outcome Error ScriptHash
  | .stake address => match address.payload with
    | .script h => .ok h
    | .stake _ => .err .nonScriptWithdrawal
  | _ => .panic

/-- The script of a voter. -/
def voterScript : Voter → Outcome Error ScriptHash
  | .constitutionalCommitteeScript h => .ok h
  | .constitutionalCommitteeKey _ => .err .nonScriptStakeCredential
  | .dRepScript h => .ok h
  | .dRepKey _ => .err .nonScriptStakeCredential
  | .stakePoolKey _ => .err .nonScriptStakeCredential

/-- The guardrail script of a proposal. -/
def proposalScript (procedure : ProposalProcedure) : Outcome Error ScriptHash :=
  match procedure.govAction with
  | .parameterChange _ _ (some h) => .ok h
  | .treasuryWithdrawals _ (some h) => .ok h
  | _ => .err .noGuardrailScriptForProcedure

/-- The hash in the payment part of an output's address, of a key or of a script. -/
def paymentHash (output : TransactionOutput) : Outcome Error ScriptHash := do
  let address ← Outcome.unwrap (Address.fromBytes (outputAddress output))
  match address with
  | .shelley a => match a.payment with
    | .key h => .ok h
    | .script h => .ok h
  | _ => .err .nonScriptStakeCredential

/-- The script and the datum of a spent input: the first two versions want a datum. -/
def spendingScript (input : TxInInfo) : Outcome Error (ScriptVersion × Option PlutusData) := do
  let hash ← paymentHash input.resolved
  let (script, _) ← lookupScript table hash
  let datum ← lookupDatum table (outputDatum input.resolved)
  match datum, script with
  | none, .v1 _ => .err .missingRequiredInlineDatumOrHash
  | none, .v2 _ => .err .missingRequiredInlineDatumOrHash
  | _, _ => .ok (script, datum)

/-- The item of a list at the redeemer's index. -/
def nth {α : Type} (redeemer : Redeemer) (items : List α) : Outcome Error α :=
  Outcome.ofOption .missingScriptForRedeemer items[redeemer.index.toNat]?

def findScript (redeemer : Redeemer) (tx : GovTx) (utxos : List ResolvedInput) :
    Outcome Error (ScriptVersion × Option PlutusData) :=
  let body := tx.transactionBody.inner
  match redeemer.tag with
  | .mint => do
    let policy ← nth redeemer (getMintInfo body.mint).keys
    lookupScript table policy
  | .reward => do
    let withdrawals ← getWithdrawalsInfo body.withdrawals
    let (address, _) ← nth redeemer withdrawals
    let hash ← withdrawalScript address
    lookupScript table hash
  | .cert => do
    let certificate ← nth redeemer (getCertificatesInfo body.certificates)
    let hash ← certificateScript certificate
    lookupScript table hash
  | .spend => do
    let inputs ← match getTxInInfoV2 body.inputs utxos with
      | .err .byronAddressNotAllowed => getTxInInfoV1 body.inputs utxos
      | result => result
    let input ← nth redeemer inputs
    spendingScript table input
  | .vote => do
    let (voter, _) ← nth redeemer (getVotesInfo body.votingProcedures)
    let hash ← voterScript voter
    lookupScript table hash
  | .propose => do
    let procedure ← nth redeemer (getProposalProceduresInfo body.proposalProcedures)
    let hash ← proposalScript procedure
    lookupScript table hash

end FindScript

end Phase2
end Pallas
