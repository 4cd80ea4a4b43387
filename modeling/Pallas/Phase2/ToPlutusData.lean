import Pallas.Phase2.ScriptContext

/-!
# Script contexts as Plutus data (`pallas-validate/src/phase2/to_plutus_data.rs`)

One conversion for each type, and a second one under the name of its wrapper where the first two Plutus versions show a type
otherwise than the third. A conversion that may panic ends in an `Outcome`; the others are plain functions.
-/

namespace Pallas.Phase2
open Std Conway
open Babbage (DatumOption)

def convertConstrToTag (constr : UInt64) : Option UInt64 :=
  if constr ≤ 6 then some (121 + constr)
  else if constr ≤ 127 then some (1280 - 7 + constr)
  else none

def anyTag : UInt64 := 102

def wrapMultipleWithConstr (index : UInt64) (data : List PlutusData) : PlutusData :=
  match convertConstrToTag index with
  | some tag => .constr tag none false data
  | none => .constr anyTag (some index) false data

def wrapWithConstr (index : UInt64) (data : PlutusData) : PlutusData := wrapMultipleWithConstr index [data]

def emptyConstr (index : UInt64) : PlutusData := wrapMultipleWithConstr index []

/-! ### Numbers, hashes and containers -/

/-- `u64`, `u32` and `usize`. -/
def uintToPlutusData (n : ℕ) : PlutusData := .bigInt (.int n)

/-- `i64`. -/
def i64ToPlutusData (n : Int64) : PlutusData := .bigInt (.int n.toInt)

def boolToPlutusData : Bool → PlutusData
  | false => emptyConstr 0
  | true => emptyConstr 1

/-- Plutus data are shown as they are. -/
def dataToPlutusData (d : PlutusData) : PlutusData := d

def bytesToPlutusData (bs : Bytes) : PlutusData := .boundedBytes bs

def hashToPlutusData {n : ℕ} (h : Hash n) : PlutusData := .boundedBytes (Hash.toBytes h)

section Containers
variable {A K V : Type}

/-- `Vec<A>`. -/
def vecToPlutusData (f : A → PlutusData) (xs : List A) : PlutusData := .array true (xs.map f)

/-- `(K, V)`. -/
def pairToPlutusData (f : K → PlutusData) (g : V → PlutusData) (e : K × V) : PlutusData :=
  wrapMultipleWithConstr 0 [f e.1, g e.2]

/-- `KeyValuePairs<K, V>` and `BTreeMap<K, V>`. -/
def entriesToPlutusData (f : K → PlutusData) (g : V → PlutusData) (es : List (K × V)) : PlutusData :=
  .map true (es.map fun e => (f e.1, g e.2))

/-- `Option<A>`. -/
def optionToPlutusData (f : A → PlutusData) : Option A → PlutusData
  | none => emptyConstr 1
  | some a => wrapWithConstr 0 (f a)

/-- `Vec<A>`, of a type whose conversion may panic. -/
def vecToPlutusDataM (f : A → Outcome Error PlutusData) (xs : List A) : Outcome Error PlutusData := do
  let items ← xs.mapM f
  .ok (.array true items)

/-- `KeyValuePairs<K, V>`, of types whose conversion may panic. -/
def entriesToPlutusDataM (f : K → Outcome Error PlutusData) (g : V → PlutusData) (es : List (K × V)) :
    Outcome Error PlutusData := do
  let entries ← es.mapM fun e => do
    let key ← f e.1
    .ok (key, g e.2)
  .ok (.map true entries)

end Containers

/-! ### Credentials and addresses -/

def StakeCredential.toPlutusData : StakeCredential → PlutusData
  | .addrKeyhash h => wrapWithConstr 0 (hashToPlutusData h)
  | .scriptHash h => wrapWithConstr 1 (hashToPlutusData h)

/-- `WithWrappedStakeCredential<StakeCredential>`. -/
def StakeCredential.withWrapped (credential : StakeCredential) : PlutusData :=
  wrapWithConstr 0 (StakeCredential.toPlutusData credential)

def StakeAddress.toPlutusData (address : StakeAddress) : PlutusData :=
  match address.payload with
  | .stake h => wrapWithConstr 0 (hashToPlutusData h)
  | .script h => wrapWithConstr 1 (hashToPlutusData h)

def ShelleyPaymentPart.toPlutusData : ShelleyPaymentPart → PlutusData
  | .key h => wrapWithConstr 0 (hashToPlutusData h)
  | .script h => wrapWithConstr 1 (hashToPlutusData h)

def ShelleyDelegationPart.toPlutusData : ShelleyDelegationPart → PlutusData
  | .key h => optionToPlutusData dataToPlutusData (some (wrapWithConstr 0 (StakeCredential.toPlutusData (.addrKeyhash h))))
  | .script h => optionToPlutusData dataToPlutusData (some (wrapWithConstr 0 (StakeCredential.toPlutusData (.scriptHash h))))
  | .pointer p => optionToPlutusData dataToPlutusData (some (wrapMultipleWithConstr 1
      [uintToPlutusData p.slot.toNat, uintToPlutusData p.txIdx.toNat, uintToPlutusData p.certIdx.toNat]))
  | .null => optionToPlutusData StakeCredential.toPlutusData none

/-- `Address`: a Byron address is `unreachable!`. -/
def Address.toPlutusData : Address → Outcome Error PlutusData
  | .shelley a => .ok (wrapMultipleWithConstr 0
      [ShelleyPaymentPart.toPlutusData a.payment, ShelleyDelegationPart.toPlutusData a.delegation])
  | .stake a => .ok (StakeAddress.toPlutusData a)
  | .byron _ => .panic

/-- `Address::from_bytes(..).unwrap().to_plutus_data()`. -/
def addressBytesToPlutusData (bs : Bytes) : Outcome Error PlutusData := do
  let address ← Outcome.unwrap (Address.fromBytes bs)
  Address.toPlutusData address

/-- `WithWrappedTransactionId<TransactionInput>`. -/
def TransactionInput.withWrapped (i : TransactionInput) : PlutusData :=
  wrapMultipleWithConstr 0 [wrapWithConstr 0 (hashToPlutusData i.transactionId), uintToPlutusData i.index.toNat]

def TransactionInput.toPlutusData (i : TransactionInput) : PlutusData :=
  wrapMultipleWithConstr 0 [hashToPlutusData i.transactionId, uintToPlutusData i.index.toNat]

/-! ### Values -/

def coinToPlutusData (coin : Coin) : PlutusData × PlutusData :=
  (bytesToPlutusData [], .map true [(bytesToPlutusData [], uintToPlutusData coin.toNat)])

/-- `value_to_plutus_data`, on bundles that were made non-empty: an empty one panics. -/
def valueToPlutusData {A : Type} (assets : Multiasset A) (fromQuantity : A → PlutusData)
    (data : List (PlutusData × PlutusData)) : Outcome Error PlutusData := do
  let transformed ← assets.toList.mapM fun e => if e.2.isEmpty then .panic else .ok (e.1, e.2.toList)
  .ok (.map true (data ++ transformed.map fun e =>
    (hashToPlutusData e.1, entriesToPlutusData bytesToPlutusData fromQuantity e.2)))

/-- `PositiveCoin`. -/
def PositiveCoin.toPlutusData (amount : PositiveCoin) : PlutusData := uintToPlutusData amount.val.toNat

/-- `WithZeroAdaAsset<Value>`. -/
def ConwayValue.withZeroAda : ConwayValue → Outcome Error PlutusData
  | .coin n => .ok (.map true [coinToPlutusData n])
  | .multiasset n assets => valueToPlutusData assets PositiveCoin.toPlutusData [coinToPlutusData n]

/-- `Value`. -/
def ConwayValue.toPlutusData : ConwayValue → Outcome Error PlutusData
  | .coin n => .ok (.map true (if n > 0 then [coinToPlutusData n] else []))
  | .multiasset n assets => valueToPlutusData assets PositiveCoin.toPlutusData (if n > 0 then [coinToPlutusData n] else [])

/-- `WithZeroAdaAsset<MintValue>`. -/
def Mint.withZeroAda (mint : Mint) : Outcome Error PlutusData :=
  valueToPlutusData mint (fun amount => i64ToPlutusData amount.val)
    [(bytesToPlutusData [], .map true [(bytesToPlutusData [], i64ToPlutusData 0)])]

/-- `MintValue`. -/
def Mint.toPlutusData (mint : Mint) : Outcome Error PlutusData :=
  valueToPlutusData mint (fun amount => i64ToPlutusData amount.val) []

/-! ### Outputs -/

def fromAlonzoOutput (output : Alonzo.TransactionOutput) : Outcome Error PostAlonzoTransactionOutput := do
  let value ← fromAlonzoValue output.amount
  .ok ⟨output.address, value, output.datumHash.map .hash, none⟩

/-- An output in the newer form. -/
def postAlonzo : TransactionOutput → Outcome Error PostAlonzoTransactionOutput
  | .legacy o => fromAlonzoOutput o
  | .postAlonzo o => .ok o

/-- `Option<DatumOption>`. -/
def datumOptionToPlutusData : Option DatumOption → PlutusData
  | none => emptyConstr 0
  | some (.hash h) => wrapWithConstr 1 (hashToPlutusData h)
  | some (.data d) => wrapWithConstr 2 d.inner

/-- The datum hash that the first version shows of an output. -/
def optionDatumToPlutusData : Option DatumOption → PlutusData
  | some (.hash h) => optionToPlutusData hashToPlutusData (some h)
  | _ => optionToPlutusData (hashToPlutusData (n := 32)) none

section Outputs
variable (c : Crypto)

/-- `ScriptRef`: a native script is hashed as it is written out again. -/
def ScriptRef.toPlutusData : ScriptRef → PlutusData
  | .nativeScript s => hashToPlutusData (computeNativeScriptHash c s.inner)
  | .plutusV1Script s => hashToPlutusData (computePlutusV1ScriptHash c s)
  | .plutusV2Script s => hashToPlutusData (computePlutusV2ScriptHash c s)
  | .plutusV3Script s => hashToPlutusData (computePlutusV3ScriptHash c s)

/-- `WithOptionDatum<WithZeroAdaAsset<TransactionOutput>>`. -/
def TransactionOutput.withOptionDatum (output : TransactionOutput) : Outcome Error PlutusData := do
  let o ← postAlonzo output
  let address ← addressBytesToPlutusData o.address
  let value ← ConwayValue.withZeroAda o.value
  .ok (wrapMultipleWithConstr 0 [address, value, optionDatumToPlutusData o.datumOption])

/-- `WithZeroAdaAsset<TransactionOutput>`. -/
def TransactionOutput.withZeroAda (output : TransactionOutput) : Outcome Error PlutusData := do
  let o ← postAlonzo output
  let address ← addressBytesToPlutusData o.address
  let value ← ConwayValue.withZeroAda o.value
  .ok (wrapMultipleWithConstr 0 [address, value, datumOptionToPlutusData o.datumOption,
    optionToPlutusData (ScriptRef.toPlutusData c) o.scriptRef])

/-- `TransactionOutput`. -/
def TransactionOutput.toPlutusData (output : TransactionOutput) : Outcome Error PlutusData := do
  let o ← postAlonzo output
  let address ← addressBytesToPlutusData o.address
  let value ← ConwayValue.toPlutusData o.value
  .ok (wrapMultipleWithConstr 0 [address, value, datumOptionToPlutusData o.datumOption,
    optionToPlutusData (ScriptRef.toPlutusData c) o.scriptRef])

/-- `WithOptionDatum<WithZeroAdaAsset<WithWrappedTransactionId<TxInInfo>>>`. -/
def TxInInfo.withOptionDatum (info : TxInInfo) : Outcome Error PlutusData := do
  let resolved ← TransactionOutput.withOptionDatum info.resolved
  .ok (wrapMultipleWithConstr 0 [TransactionInput.withWrapped info.outRef, resolved])

/-- `WithZeroAdaAsset<WithWrappedTransactionId<TxInInfo>>`. -/
def TxInInfo.withZeroAda (info : TxInInfo) : Outcome Error PlutusData := do
  let resolved ← TransactionOutput.withZeroAda c info.resolved
  .ok (wrapMultipleWithConstr 0 [TransactionInput.withWrapped info.outRef, resolved])

/-- `TxInInfo`. -/
def TxInInfo.toPlutusData (info : TxInInfo) : Outcome Error PlutusData := do
  let resolved ← TransactionOutput.toPlutusData c info.resolved
  .ok (wrapMultipleWithConstr 0 [TransactionInput.toPlutusData info.outRef, resolved])

end Outputs

/-! ### Certificates -/

def DRep.toPlutusData : DRep → PlutusData
  | .key h => wrapWithConstr 0 (StakeCredential.toPlutusData (.addrKeyhash h))
  | .script h => wrapWithConstr 0 (StakeCredential.toPlutusData (.scriptHash h))
  | .abstain => emptyConstr 1
  | .noConfidence => emptyConstr 2

/-- `WithPartialCertificates<Certificate>`: a certificate of Conway is `unreachable!`. -/
def Certificate.withPartialCertificates : Certificate → Outcome Error PlutusData
  | .stakeRegistration stc => .ok (wrapWithConstr 0 (StakeCredential.toPlutusData stc))
  | .stakeDeregistration stc => .ok (wrapWithConstr 1 (StakeCredential.toPlutusData stc))
  | .stakeDelegation stc pool => .ok (wrapMultipleWithConstr 2 [StakeCredential.toPlutusData stc, hashToPlutusData pool])
  | .poolRegistration operator vrf => .ok (wrapMultipleWithConstr 3 [hashToPlutusData operator, hashToPlutusData vrf])
  | .poolRetirement pool epoch => .ok (wrapMultipleWithConstr 4 [hashToPlutusData pool, uintToPlutusData epoch.toNat])
  | _ => .panic

/-- No registration deposit. -/
def noDeposit : PlutusData := optionToPlutusData dataToPlutusData none

/-- `WithNeverRegistrationDeposit<Certificate>`. -/
def Certificate.withNeverRegistrationDeposit : Certificate → PlutusData
  | .stakeRegistration stc => wrapMultipleWithConstr 0 [StakeCredential.toPlutusData stc, noDeposit]
  | .reg stc _ => wrapMultipleWithConstr 0 [StakeCredential.toPlutusData stc, noDeposit]
  | .stakeDeregistration stc => wrapMultipleWithConstr 1 [StakeCredential.toPlutusData stc, noDeposit]
  | .unReg stc _ => wrapMultipleWithConstr 1 [StakeCredential.toPlutusData stc, noDeposit]
  | .stakeDelegation stc pool => wrapMultipleWithConstr 2
      [StakeCredential.toPlutusData stc, wrapWithConstr 0 (hashToPlutusData pool)]
  | .voteDeleg stc drep => wrapMultipleWithConstr 2
      [StakeCredential.toPlutusData stc, wrapWithConstr 1 (DRep.toPlutusData drep)]
  | .stakeVoteDeleg stc pool drep => wrapMultipleWithConstr 2
      [StakeCredential.toPlutusData stc, wrapMultipleWithConstr 2 [hashToPlutusData pool, DRep.toPlutusData drep]]
  | .stakeRegDeleg stc pool deposit => wrapMultipleWithConstr 3
      [StakeCredential.toPlutusData stc, wrapMultipleWithConstr 0 [hashToPlutusData pool],
        uintToPlutusData deposit.toNat]
  | .voteRegDeleg stc drep deposit => wrapMultipleWithConstr 3
      [StakeCredential.toPlutusData stc, wrapMultipleWithConstr 1 [DRep.toPlutusData drep],
        uintToPlutusData deposit.toNat]
  | .stakeVoteRegDeleg stc pool drep deposit => wrapMultipleWithConstr 3
      [StakeCredential.toPlutusData stc, wrapMultipleWithConstr 2 [hashToPlutusData pool, DRep.toPlutusData drep],
        uintToPlutusData deposit.toNat]
  | .regDRepCert drep deposit => wrapMultipleWithConstr 4 [StakeCredential.toPlutusData drep, uintToPlutusData deposit.toNat]
  | .updateDRepCert drep => wrapMultipleWithConstr 5 [StakeCredential.toPlutusData drep]
  | .unRegDRepCert drep deposit => wrapMultipleWithConstr 6 [StakeCredential.toPlutusData drep, uintToPlutusData deposit.toNat]
  | .poolRegistration operator vrf => wrapMultipleWithConstr 7 [hashToPlutusData operator, hashToPlutusData vrf]
  | .poolRetirement pool epoch => wrapMultipleWithConstr 8 [hashToPlutusData pool, uintToPlutusData epoch.toNat]
  | .authCommitteeHot cold hot => wrapMultipleWithConstr 9 [StakeCredential.toPlutusData cold, StakeCredential.toPlutusData hot]
  | .resignCommitteeCold cold => wrapMultipleWithConstr 10 [StakeCredential.toPlutusData cold]

/-! ### Time -/

/-- A bound of a range; a finite lower bound is inclusive, and an infinite one is closed by convention. -/
def boundToPlutusData (bound : Option UInt64) (isLower : Bool) : PlutusData :=
  match bound with
  | some x => wrapMultipleWithConstr 0 [wrapWithConstr 1 (uintToPlutusData x.toNat), boolToPlutusData isLower]
  | none => wrapMultipleWithConstr 0 [emptyConstr (if isLower then 0 else 2), boolToPlutusData true]

def TimeRange.toPlutusData (range : TimeRange) : PlutusData :=
  wrapMultipleWithConstr 0 [boundToPlutusData range.lowerBound true, boundToPlutusData range.upperBound false]

/-! ### Governance -/

def GovActionId.toPlutusData (a : GovActionId) : PlutusData :=
  wrapMultipleWithConstr 0 [hashToPlutusData a.transactionId, uintToPlutusData a.actionIndex.toNat]

def RationalNumber.toPlutusData (r : RationalNumber) : PlutusData :=
  pairToPlutusData (fun n : UInt64 => uintToPlutusData n.toNat) (fun n : UInt64 => uintToPlutusData n.toNat)
    (r.numerator, r.denominator)

/-- `WithArrayRational`. -/
def RationalNumber.withArray (r : RationalNumber) : PlutusData :=
  vecToPlutusData (fun n : UInt64 => uintToPlutusData n.toNat) [r.numerator, r.denominator]

def PoolVotingThresholds.toPlutusData (t : PoolVotingThresholds) : PlutusData :=
  vecToPlutusData RationalNumber.withArray
    [t.motionNoConfidence, t.committeeNormal, t.committeeNoConfidence, t.hardForkInitiation, t.securityVotingThreshold]

def DRepVotingThresholds.toPlutusData (t : DRepVotingThresholds) : PlutusData :=
  vecToPlutusData RationalNumber.withArray
    [t.motionNoConfidence, t.committeeNormal, t.committeeNoConfidence, t.updateConstitution, t.hardForkInitiation,
      t.ppNetworkGroup, t.ppEconomicGroup, t.ppTechnicalGroup, t.ppGovernanceGroup, t.treasuryWithdrawal]

def ExUnitPrices.toPlutusData (p : ExUnitPrices) :
    PlutusData := vecToPlutusData RationalNumber.withArray [p.memPrice, p.stepPrice]

def ExUnits.toPlutusData (u : ExUnits) : PlutusData :=
  vecToPlutusData (fun n : UInt64 => uintToPlutusData n.toNat) [u.mem, u.steps]

/-- `push`, where the update has the parameter. -/
def push {A : Type} (ix : ℕ) (f : A → PlutusData) (p : Option A) : List (PlutusData × PlutusData) :=
  (p.map fun a => (uintToPlutusData ix, f a)).toList

/-- `ProtocolParamUpdate`: cost models are `unimplemented!`. -/
def ProtocolParamUpdate.toPlutusData (u : ProtocolParamUpdate) : Outcome Error PlutusData :=
  let number : UInt64 → PlutusData := fun n => uintToPlutusData n.toNat
  if u.costModelsForScriptLanguages.isSome then .panic
  else .ok (.map true (push 0 number u.minfeeA ++ push 1 number u.minfeeB ++ push 2 number u.maxBlockBodySize ++
    push 3 number u.maxTransactionSize ++ push 4 number u.maxBlockHeaderSize ++ push 5 number u.keyDeposit ++
    push 6 number u.poolDeposit ++ push 7 number u.maximumEpoch ++ push 8 number u.desiredNumberOfStakePools ++
    push 9 RationalNumber.withArray u.poolPledgeInfluence ++ push 10 RationalNumber.withArray u.expansionRate ++
    push 11 RationalNumber.withArray u.treasuryGrowthRate ++ push 16 number u.minPoolCost ++
    push 17 number u.adaPerUtxoByte ++ push 19 ExUnitPrices.toPlutusData u.executionCosts ++
    push 20 ExUnits.toPlutusData u.maxTxExUnits ++ push 21 ExUnits.toPlutusData u.maxBlockExUnits ++
    push 22 number u.maxValueSize ++ push 23 number u.collateralPercentage ++ push 24 number u.maxCollateralInputs ++
    push 25 PoolVotingThresholds.toPlutusData u.poolVotingThresholds ++
    push 26 DRepVotingThresholds.toPlutusData u.drepVotingThresholds ++ push 27 number u.minCommitteeSize ++
    push 28 number u.committeeTermLimit ++ push 29 number u.governanceActionValidityPeriod ++
    push 30 number u.governanceActionDeposit ++ push 31 number u.drepDeposit ++ push 32 number u.drepInactivityPeriod ++
    push 33 RationalNumber.withArray u.minfeeRefscriptCostPerByte))

def Constitution.toPlutusData (constitution : Constitution) : PlutusData :=
  wrapWithConstr 0 (optionToPlutusData hashToPlutusData constitution.guardrailScript)

def GovAction.toPlutusData : GovAction → Outcome Error PlutusData
  | .parameterChange previous params guardrail => do
    let params ← ProtocolParamUpdate.toPlutusData params
    .ok (wrapMultipleWithConstr 0
      [optionToPlutusData GovActionId.toPlutusData previous, params, optionToPlutusData hashToPlutusData guardrail])
  | .hardForkInitiation previous version => .ok (wrapMultipleWithConstr 1
      [optionToPlutusData GovActionId.toPlutusData previous,
        pairToPlutusData (fun n : UInt64 => uintToPlutusData n.toNat)
        (fun n : UInt64 => uintToPlutusData n.toNat) version])
  | .treasuryWithdrawals withdrawals guardrail => do
    let entries ← withdrawals.toList.mapM fun e => do
      let address ← Outcome.unwrap (Address.fromBytes e.1)
      .ok (address, e.2)
    let withdrawals ← entriesToPlutusDataM Address.toPlutusData (fun n : UInt64 => uintToPlutusData n.toNat) entries
    .ok (wrapMultipleWithConstr 2 [withdrawals, optionToPlutusData hashToPlutusData guardrail])
  | .noConfidence previous => .ok (wrapWithConstr 3 (optionToPlutusData GovActionId.toPlutusData previous))
  | .updateCommittee previous removed added quorum => .ok (wrapMultipleWithConstr 4
      [optionToPlutusData GovActionId.toPlutusData previous, vecToPlutusData StakeCredential.toPlutusData removed,
        entriesToPlutusData StakeCredential.toPlutusData (fun n : UInt64 => uintToPlutusData n.toNat) added.toList,
        RationalNumber.toPlutusData quorum])
  | .newConstitution previous constitution => .ok (wrapMultipleWithConstr 5
      [optionToPlutusData GovActionId.toPlutusData previous, Constitution.toPlutusData constitution])
  | .information => .ok (emptyConstr 6)

def ProposalProcedure.toPlutusData (procedure : ProposalProcedure) : Outcome Error PlutusData := do
  let account ← addressBytesToPlutusData procedure.rewardAccount
  let action ← GovAction.toPlutusData procedure.govAction
  .ok (wrapMultipleWithConstr 0 [uintToPlutusData procedure.deposit.toNat, account, action])

def Voter.toPlutusData : Voter → PlutusData
  | .constitutionalCommitteeScript h => wrapWithConstr 0 (StakeCredential.toPlutusData (.scriptHash h))
  | .constitutionalCommitteeKey h => wrapWithConstr 0 (StakeCredential.toPlutusData (.addrKeyhash h))
  | .dRepScript h => wrapWithConstr 1 (StakeCredential.toPlutusData (.scriptHash h))
  | .dRepKey h => wrapWithConstr 1 (StakeCredential.toPlutusData (.addrKeyhash h))
  | .stakePoolKey h => wrapWithConstr 2 (hashToPlutusData h)

def Vote.toPlutusData : Vote → PlutusData
  | .no => emptyConstr 0
  | .yes => emptyConstr 1
  | .abstain => emptyConstr 2

def VotingProcedure.toPlutusData (procedure : VotingProcedure) : PlutusData := Vote.toPlutusData procedure.vote

/-! ### Purposes -/

/-- `WithWrappedTransactionId<ScriptPurpose>`: the purposes of the first two versions. -/
def ScriptInfo.withWrappedTransactionId : ScriptPurpose → Outcome Error PlutusData
  | .minting policy => .ok (wrapWithConstr 0 (hashToPlutusData policy))
  | .spending outRef _ => .ok (wrapWithConstr 1 (TransactionInput.withWrapped outRef))
  | .rewarding credential => .ok (wrapWithConstr 2 (StakeCredential.withWrapped credential))
  | .certifying _ cert => do
    let cert ← Certificate.withPartialCertificates cert
    .ok (wrapWithConstr 3 cert)
  | .voting _ => .panic
  | .proposing _ _ => .panic

/-- `WithNeverRegistrationDeposit`, of a purpose (`datum` gives nothing) or of a script's information. -/
def ScriptInfo.withNeverRegistrationDeposit {T : Type} (datum : T → List PlutusData) :
    ScriptInfo T → Outcome Error PlutusData
  | .minting policy => .ok (wrapWithConstr 0 (hashToPlutusData policy))
  | .spending outRef d => .ok (wrapMultipleWithConstr 1 (TransactionInput.toPlutusData outRef :: datum d))
  | .rewarding credential => .ok (wrapWithConstr 2 (StakeCredential.toPlutusData credential))
  | .certifying index cert => .ok (wrapMultipleWithConstr 3
      [uintToPlutusData index, Certificate.withNeverRegistrationDeposit cert])
  | .voting voter => .ok (wrapMultipleWithConstr 4 [Voter.toPlutusData voter])
  | .proposing index procedure => do
    let procedure ← ProposalProcedure.toPlutusData procedure
    .ok (wrapMultipleWithConstr 5 [uintToPlutusData index, procedure])

/-- The redeemers by their purposes. -/
def redeemersToPlutusData (purpose : ScriptPurpose → Outcome Error PlutusData)
    (redeemers : List (ScriptPurpose × Redeemer)) :
    Outcome Error PlutusData := entriesToPlutusDataM purpose (fun r : Redeemer => r.data) redeemers

/-! ### Views and contexts -/

section Contexts
variable (c : Crypto)

def TxInfoV1.toPlutusData (info : TxInfoV1) : Outcome Error PlutusData := do
  let inputs ← vecToPlutusDataM TxInInfo.withOptionDatum info.inputs
  let outputs ← vecToPlutusDataM TransactionOutput.withOptionDatum info.outputs
  let fee ← ConwayValue.withZeroAda info.fee
  let mint ← Mint.withZeroAda info.mint
  let certificates ← vecToPlutusDataM Certificate.withPartialCertificates info.certificates
  let withdrawals ← vecToPlutusDataM (fun e : Address × Coin => do
    let account ← Address.toPlutusData e.1
    .ok (wrapMultipleWithConstr 0 [wrapWithConstr 0 account, uintToPlutusData e.2.toNat])) info.withdrawals
  .ok (wrapMultipleWithConstr 0
    [inputs, outputs, fee, mint, certificates, withdrawals, TimeRange.toPlutusData info.validRange,
    vecToPlutusData hashToPlutusData info.signatories,
      vecToPlutusData (pairToPlutusData hashToPlutusData dataToPlutusData) info.data,
    wrapWithConstr 0 (hashToPlutusData info.id)])

def TxInfoV2.toPlutusData (info : TxInfoV2) : Outcome Error PlutusData := do
  let inputs ← vecToPlutusDataM (TxInInfo.withZeroAda c) info.inputs
  let referenceInputs ← vecToPlutusDataM (TxInInfo.withZeroAda c) info.referenceInputs
  let outputs ← vecToPlutusDataM (TransactionOutput.withZeroAda c) info.outputs
  let fee ← ConwayValue.withZeroAda info.fee
  let mint ← Mint.withZeroAda info.mint
  let certificates ← vecToPlutusDataM Certificate.withPartialCertificates info.certificates
  let withdrawals ← entriesToPlutusDataM (fun address => do
    let account ← Address.toPlutusData address
    .ok (wrapWithConstr 0 account)) (fun n : UInt64 => uintToPlutusData n.toNat) info.withdrawals
  let redeemers ← redeemersToPlutusData ScriptInfo.withWrappedTransactionId info.redeemers
  .ok (wrapMultipleWithConstr 0 [inputs, referenceInputs, outputs, fee, mint, certificates, withdrawals,
    TimeRange.toPlutusData info.validRange, vecToPlutusData hashToPlutusData info.signatories, redeemers,
    entriesToPlutusData hashToPlutusData dataToPlutusData info.data, wrapWithConstr 0 (hashToPlutusData info.id)])

def TxInfoV3.toPlutusData (info : TxInfoV3) : Outcome Error PlutusData := do
  let inputs ← vecToPlutusDataM (TxInInfo.toPlutusData c) info.inputs
  let referenceInputs ← vecToPlutusDataM (TxInInfo.toPlutusData c) info.referenceInputs
  let outputs ← vecToPlutusDataM (TransactionOutput.toPlutusData c) info.outputs
  let mint ← Mint.toPlutusData info.mint
  let withdrawals ← entriesToPlutusDataM Address.toPlutusData
    (fun n : UInt64 => uintToPlutusData n.toNat) info.withdrawals
  let redeemers ← redeemersToPlutusData (ScriptInfo.withNeverRegistrationDeposit fun _ => []) info.redeemers
  let proposalProcedures ← vecToPlutusDataM ProposalProcedure.toPlutusData info.proposalProcedures
  .ok (wrapMultipleWithConstr 0 [inputs, referenceInputs, outputs, uintToPlutusData info.fee.toNat, mint,
    vecToPlutusData Certificate.withNeverRegistrationDeposit info.certificates, withdrawals,
    TimeRange.toPlutusData info.validRange, vecToPlutusData hashToPlutusData info.signatories, redeemers,
    entriesToPlutusData hashToPlutusData dataToPlutusData info.data, hashToPlutusData info.id,
    entriesToPlutusData Voter.toPlutusData
      (entriesToPlutusData GovActionId.toPlutusData VotingProcedure.toPlutusData) info.votes,
    proposalProcedures, optionToPlutusData (fun n : UInt64 => uintToPlutusData n.toNat) info.currentTreasuryAmount,
    optionToPlutusData PositiveCoin.toPlutusData info.treasuryDonation])

def TxInfo.toPlutusData : TxInfo → Outcome Error PlutusData
  | .v1 info => TxInfoV1.toPlutusData info
  | .v2 info => TxInfoV2.toPlutusData c info
  | .v3 info => TxInfoV3.toPlutusData c info

def ScriptContext.toPlutusData : ScriptContext → Outcome Error PlutusData
  | .v1v2 txInfo purpose => do
    let info ← TxInfo.toPlutusData c txInfo
    let purpose ← ScriptInfo.withWrappedTransactionId purpose
    .ok (wrapMultipleWithConstr 0 [info, purpose])
  | .v3 txInfo redeemer purpose => do
    let info ← TxInfo.toPlutusData c txInfo
    let purpose ← ScriptInfo.withNeverRegistrationDeposit (fun d => [optionToPlutusData dataToPlutusData d]) purpose
    .ok (wrapMultipleWithConstr 0 [info, redeemer, purpose])

end Contexts

end Pallas.Phase2
