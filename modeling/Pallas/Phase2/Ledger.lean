import Pallas.Eras
import Pallas.Validate.Environment

/-!
# Governance and certificates of a Conway transaction (`pallas-primitives/src/conway/model.rs`)

The parts of a transaction that phase 2 reads and phase 1 does not: certificates, votes and proposals. Anchors, and what a pool
registration says beside its two hashes, are left out; no script context shows them.
-/

namespace Pallas.Conway
open Std

inductive DRep where
  | key (h : AddrKeyhash)
  | script (h : ScriptHash)
  | abstain
  | noConfidence
  deriving DecidableEq

inductive Certificate where
  | stakeRegistration (stc : StakeCredential)
  | stakeDeregistration (stc : StakeCredential)
  | stakeDelegation (stc : StakeCredential) (pool : PoolKeyhash)
  | poolRegistration (operator : PoolKeyhash) (vrfKeyhash : VrfKeyhash)
  | poolRetirement (pool : PoolKeyhash) (epoch : Epoch)
  | reg (stc : StakeCredential) (deposit : Coin)
  | unReg (stc : StakeCredential) (deposit : Coin)
  | voteDeleg (stc : StakeCredential) (drep : DRep)
  | stakeVoteDeleg (stc : StakeCredential) (pool : PoolKeyhash) (drep : DRep)
  | stakeRegDeleg (stc : StakeCredential) (pool : PoolKeyhash) (deposit : Coin)
  | voteRegDeleg (stc : StakeCredential) (drep : DRep) (deposit : Coin)
  | stakeVoteRegDeleg (stc : StakeCredential) (pool : PoolKeyhash) (drep : DRep) (deposit : Coin)
  | authCommitteeHot (cold hot : StakeCredential)
  | resignCommitteeCold (cold : StakeCredential)
  | regDRepCert (drep : StakeCredential) (deposit : Coin)
  | unRegDRepCert (drep : StakeCredential) (deposit : Coin)
  | updateDRepCert (drep : StakeCredential)
  deriving DecidableEq

inductive Vote where
  | no
  | yes
  | abstain
  deriving DecidableEq

structure VotingProcedure where
  vote : Vote
  deriving DecidableEq

inductive Voter where
  | constitutionalCommitteeScript (h : ScriptHash)
  | constitutionalCommitteeKey (h : AddrKeyhash)
  | dRepScript (h : ScriptHash)
  | dRepKey (h : AddrKeyhash)
  | stakePoolKey (h : AddrKeyhash)
  deriving DecidableEq

structure GovActionId where
  transactionId : Hash 32
  actionIndex : UInt32
  deriving DecidableEq

/-- A voter orders as its variant, then its hash. -/
def voterKey : Voter → List ℕ
  | .constitutionalCommitteeScript h => [0, h.toNat]
  | .constitutionalCommitteeKey h => [1, h.toNat]
  | .dRepScript h => [2, h.toNat]
  | .dRepKey h => [3, h.toNat]
  | .stakePoolKey h => [4, h.toNat]

theorem voterKey_injective : Function.Injective voterKey := by
  intro a b h
  cases a <;> cases b <;> simp_all [voterKey, BitVec.toNat_inj]

instance : Ord Voter := FinMap.ordOn voterKey
instance : TransOrd Voter := FinMap.transOrd_ordOn voterKey
instance : LawfulEqOrd Voter := FinMap.lawfulEqOrd_ordOn voterKey_injective

/-- An action's id orders as its transaction, then its index. -/
def govActionIdKey (a : GovActionId) : List ℕ := [a.transactionId.toNat, a.actionIndex.toNat]

theorem govActionIdKey_injective : Function.Injective govActionIdKey := by
  rintro ⟨t, i⟩ ⟨t', i'⟩ h
  simp only [govActionIdKey, List.cons.injEq, and_true] at h
  rw [BitVec.eq_of_toNat_eq h.1, UInt32.toNat_inj.1 h.2]

instance : Ord GovActionId := FinMap.ordOn govActionIdKey
instance : TransOrd GovActionId := FinMap.transOrd_ordOn govActionIdKey
instance : LawfulEqOrd GovActionId := FinMap.lawfulEqOrd_ordOn govActionIdKey_injective

structure ExUnitPrices where
  memPrice : RationalNumber
  stepPrice : RationalNumber
  deriving DecidableEq

structure PoolVotingThresholds where
  motionNoConfidence : RationalNumber
  committeeNormal : RationalNumber
  committeeNoConfidence : RationalNumber
  hardForkInitiation : RationalNumber
  securityVotingThreshold : RationalNumber
  deriving DecidableEq

structure DRepVotingThresholds where
  motionNoConfidence : RationalNumber
  committeeNormal : RationalNumber
  committeeNoConfidence : RationalNumber
  updateConstitution : RationalNumber
  hardForkInitiation : RationalNumber
  ppNetworkGroup : RationalNumber
  ppEconomicGroup : RationalNumber
  ppTechnicalGroup : RationalNumber
  ppGovernanceGroup : RationalNumber
  treasuryWithdrawal : RationalNumber
  deriving DecidableEq

structure ProtocolParamUpdate where
  minfeeA : Option UInt64 := none
  minfeeB : Option UInt64 := none
  maxBlockBodySize : Option UInt64 := none
  maxTransactionSize : Option UInt64 := none
  maxBlockHeaderSize : Option UInt64 := none
  keyDeposit : Option Coin := none
  poolDeposit : Option Coin := none
  maximumEpoch : Option Epoch := none
  desiredNumberOfStakePools : Option UInt64 := none
  poolPledgeInfluence : Option RationalNumber := none
  expansionRate : Option RationalNumber := none
  treasuryGrowthRate : Option RationalNumber := none
  minPoolCost : Option Coin := none
  adaPerUtxoByte : Option Coin := none
  costModelsForScriptLanguages : Option ConwayCostModels := none
  executionCosts : Option ExUnitPrices := none
  maxTxExUnits : Option ExUnits := none
  maxBlockExUnits : Option ExUnits := none
  maxValueSize : Option UInt64 := none
  collateralPercentage : Option UInt64 := none
  maxCollateralInputs : Option UInt64 := none
  poolVotingThresholds : Option PoolVotingThresholds := none
  drepVotingThresholds : Option DRepVotingThresholds := none
  minCommitteeSize : Option UInt64 := none
  committeeTermLimit : Option Epoch := none
  governanceActionValidityPeriod : Option Epoch := none
  governanceActionDeposit : Option Coin := none
  drepDeposit : Option Coin := none
  drepInactivityPeriod : Option Epoch := none
  minfeeRefscriptCostPerByte : Option RationalNumber := none

structure Constitution where
  guardrailScript : Option ScriptHash
  deriving DecidableEq

inductive GovAction where
  | parameterChange (previous : Option GovActionId) (params : ProtocolParamUpdate) (guardrail : Option ScriptHash)
  | hardForkInitiation (previous : Option GovActionId) (version : UInt64 × UInt64)
  | treasuryWithdrawals (withdrawals : FinMap RewardAccount Coin) (guardrail : Option ScriptHash)
  | noConfidence (previous : Option GovActionId)
  | updateCommittee (previous : Option GovActionId) (removed : List StakeCredential)
      (added : FinMap StakeCredential Epoch) (quorum : RationalNumber)
  | newConstitution (previous : Option GovActionId) (constitution : Constitution)
  | information

structure ProposalProcedure where
  deposit : Coin
  rewardAccount : RewardAccount
  govAction : GovAction

/-- A transaction body with the fields that only phase 2 reads. -/
structure GovTransactionBody extends TransactionBody where
  certificates : Option (List Certificate) := none
  votingProcedures : Option (FinMap Voter (FinMap GovActionId VotingProcedure)) := none
  proposalProcedures : Option (List ProposalProcedure) := none
  treasuryValue : Option Coin := none
  donation : Option PositiveCoin := none

/-- A transaction with such a body. -/
structure GovTx where
  transactionBody : KeepRaw GovTransactionBody
  transactionWitnessSet : KeepRaw WitnessSet

end Pallas.Conway
