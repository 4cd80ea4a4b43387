import Pallas.Validate.Balance
import Pallas.Validate.Certificates

/-!
# Preservation of value from Shelley to Mary

Besides inputs, mint, outputs and fee, the rule of these eras has the withdrawals and the refunds on
the side of the income, and the deposits for new stake keys and new pools on the other. The validator
has no term for the withdrawals, and computes refunds and deposits in `u64`.
`validateShelleyMaTx_balanced_iff` says when an accepted transaction preserves value nevertheless.
-/

namespace Pallas.ShelleyMa
open Std MachineInt Alonzo

variable {pr : Profile} {body : TransactionBody} {utxos : UTxOs} {era : Era} {pps : ShelleyProtParams}

/-! ### The terms of the rule -/

/-- The sum of the withdrawals. -/
def withdrawalsTotal (body : TransactionBody) : ℤ :=
  ((body.withdrawals.elim [] ExtTreeMap.toList).map fun w => toInt w.2).sum

/-- The deposits refunded for deregistrations. -/
def refundsTotal (body : TransactionBody) (pps : ShelleyProtParams) : ℤ :=
  toInt pps.keyDeposit * (certificates body).countP isDeregistration

/-- The deposits for registrations, and for pools that were not registered before. -/
def depositsTotal (state : CertState) (body : TransactionBody) (pps : ShelleyProtParams) : ℤ :=
  toInt pps.poolDeposit * (newPools state (certificates body)).card +
    toInt pps.keyDeposit * (certificates body).countP isRegistration

/-- What a body moves. -/
def flow (state : CertState) (body : TransactionBody) (pps : ShelleyProtParams) : Flow where
  inputs := body.inputs
  income := (withdrawalsTotal body + refundsTotal body pps, 0) + mintHolding body.mint
  produced := (body.outputs.map fun o => o.amount.holding).sum + lovelaceHolding body.fee +
    (depositsTotal state body pps, 0)

/-! ### What the validator adds up -/

/-- An operator on `u64` gives the residue of the exact result. -/
theorem toInt_eq_emod {c : UInt64} {z : ℤ} (h : toInt c ≡ z [ZMOD wordCard]) : toInt c = z % wordCard := by
  have hc : toInt c % wordCard = toInt c := Int.emod_eq_of_lt (lo_le c) (Int.lt_of_le_sub_one (le_hi c))
  rw [← hc]
  exact h

theorem addOutputValue_represents {wrongEra : ShelleyMAError} {res amount r : Value} {h₀ : Holding}
    (h : addOutputValue pr wrongEra era res amount = .ok r) (hres : Represents res h₀) :
    Represents r (h₀ + amount.holding) := by
  unfold addOutputValue at h
  split at h
  · exact addValues_represents h hres (represents_holding _)
  · cases h
  · exact addValues_represents h hres (represents_holding _)

theorem addInput_represents {res r : Value} {input : TransactionInput} {h₀ : Holding}
    (h : addInput pr utxos era res input = .ok r) (hres : Represents res h₀) :
    Represents r (h₀ + inputHolding utxos input) := by
  obtain ⟨output, ho, h⟩ := Outcome.bind_eq_ok.1 h
  rw [inputHolding_eq (Outcome.ofOption_eq_ok.1 ho)]
  cases output with
  | alonzoCompatible o e => exact addOutputValue_represents h hres
  | byron o => exact addValues_represents h hres (represents_coin _)
  | babbage o => cases h
  | conway o => cases h

/-- `get_consumed` adds the inputs, the residue of the refunds and the mint field. -/
theorem getConsumed_represents {count : ℕ} {v : Value} (h : getConsumed pr body utxos count era pps = .ok v) :
    Represents v ((body.inputs.map (inputHolding utxos)).sum +
      ((toInt pps.keyDeposit * count) % wordCard, 0) + mintHolding body.mint) := by
  obtain ⟨sum, hsum, h⟩ := Outcome.bind_eq_ok.1 h
  obtain ⟨refund, hrefund, h⟩ := Outcome.bind_eq_ok.1 h
  obtain ⟨res, hres, h⟩ := Outcome.bind_eq_ok.1 h
  have hins : Represents sum (0 + (body.inputs.map (inputHolding utxos)).sum) := by
    refine fold_represents (fun w i w' x hw hx => ?_) emptyValue_represents hsum
    exact addInput_represents hw hx
  have hcoin : lovelaceHolding refund = ((toInt pps.keyDeposit * count) % wordCard, 0) :=
    congrArg (·, 0) (toInt_eq_emod (exact_modEq hrefund))
  rw [zero_add] at hins
  exact addMint_represents h (hcoin ▸ addValues_represents hres hins (represents_coin refund))

theorem totalDeposits_modEq {regs pools : ℕ} {n : UInt64} (h : totalDeposits pr regs pools pps = .ok n) :
    toInt n ≡ toInt pps.poolDeposit * pools + toInt pps.keyDeposit * regs [ZMOD wordCard] := by
  obtain ⟨p, hp, h⟩ := Outcome.bind_eq_ok.1 h
  obtain ⟨k, hk, h⟩ := Outcome.bind_eq_ok.1 h
  have hp : toInt p ≡ _ [ZMOD wordCard] := exact_modEq hp
  have hk : toInt k ≡ _ [ZMOD wordCard] := exact_modEq hk
  have hsum : toInt n ≡ _ [ZMOD wordCard] := exact_modEq h
  exact hsum.trans (hp.add hk)

/-- `get_produced` adds the outputs, the fee and the residue of the deposits. -/
theorem getProduced_represents {regs pools : ℕ} {v : Value} (h : getProduced pr body regs pools era pps = .ok v) :
    Represents v ((body.outputs.map fun o => o.amount.holding).sum + lovelaceHolding body.fee +
      ((toInt pps.poolDeposit * pools + toInt pps.keyDeposit * regs) % wordCard, 0)) := by
  obtain ⟨sum, hsum, h⟩ := Outcome.bind_eq_ok.1 h
  obtain ⟨res, hres, h⟩ := Outcome.bind_eq_ok.1 h
  obtain ⟨deposits, hdep, h⟩ := Outcome.bind_eq_ok.1 h
  have houts : Represents sum (0 + (body.outputs.map fun o => o.amount.holding).sum) := by
    refine fold_represents (fun w o w' x hw hx => ?_) emptyValue_represents hsum
    exact addOutputValue_represents hw hx
  have hcoin : lovelaceHolding deposits =
      ((toInt pps.poolDeposit * pools + toInt pps.keyDeposit * regs) % wordCard, 0) :=
    congrArg (·, 0) (toInt_eq_emod (totalDeposits_modEq hdep))
  rw [zero_add] at houts
  have hfee := addValues_represents hres houts (represents_coin body.fee)
  exact hcoin ▸ addValues_represents h hfee (represents_coin deposits)

/-! ### Accepted transactions -/

/-- The withdrawals and what the refunds lose by wrapping are what repeated inputs count again and what
the deposits lose; and of every asset, the repeats match the carries. -/
def OpenTermsCancel (state : CertState) (body : TransactionBody) (utxos : UTxOs) (pps : ShelleyProtParams) : Prop :=
  let again := (flow state body pps).countedAgain utxos
  withdrawalsTotal body + wordCard * (refundsTotal body pps / wordCard) =
      again.1 + wordCard * (depositsTotal state body pps / wordCard) ∧
    ∀ p a, again.2 p a = wordCard *
      (((flow state body pps).consumed utxos).2 p a / wordCard - (flow state body pps).produced.2 p a / wordCard)

theorem checkPreservationOfValue_congruent {run : CertRun}
    (h : checkPreservationOfValue pr body utxos run era pps = .ok ()) :
    Congruent
      ((body.inputs.map (inputHolding utxos)).sum +
        ((toInt pps.keyDeposit * run.stkRefundCount) % wordCard, 0) + mintHolding body.mint)
      ((body.outputs.map fun o => o.amount.holding).sum + lovelaceHolding body.fee +
        ((toInt pps.poolDeposit * run.poolCount + toInt pps.keyDeposit * run.stkDepCount) % wordCard, 0)) := by
  obtain ⟨consumed, hc, h⟩ := Outcome.bind_eq_ok.1 h
  obtain ⟨produced, hp, h⟩ := Outcome.bind_eq_ok.1 h
  exact (getConsumed_represents hc).congruent (getProduced_represents hp)
    (valuesAreEqual_holding (Outcome.ensure_eq_ok.1 h))

theorem validateShelleyMaTx_ok {c : Crypto} {mtx : Tx} {txIx : TransactionIndex} {state state' : CertState}
    {acnt : AccountState} {slot : UInt64} {networkId : UInt8}
    (h : validateShelleyMaTx pr c mtx txIx utxos state pps acnt slot networkId era = (state', .ok ())) :
    ∃ run, checkCertificates pr mtx.transactionBody.inner.certificates txIx state acnt slot pps = (run, .ok ()) ∧
      checkAfterCertificates pr c mtx utxos pps networkId era run = .ok () := by
  unfold validateShelleyMaTx at h
  split at h
  · split at h
    · next run hrun => exact ⟨run, hrun, (Prod.mk.inj h).2⟩
    · next hne _ => exact absurd (Prod.mk.inj h).2 hne
  · next hne => exact absurd (Prod.mk.inj h).2 hne

/-- An accepted transaction preserves value exactly when the terms the validator leaves out cancel. -/
theorem validateShelleyMaTx_balanced_iff {c : Crypto} {mtx : Tx} {txIx : TransactionIndex}
    {state state' : CertState} {acnt : AccountState} {slot : UInt64} {networkId : UInt8}
    (h : validateShelleyMaTx pr c mtx txIx utxos state pps acnt slot networkId era = (state', .ok ())) :
    (flow state mtx.transactionBody.inner pps).Balanced utxos ↔
      OpenTermsCancel state mtx.transactionBody.inner utxos pps := by
  obtain ⟨run, hrun, hafter⟩ := validateShelleyMaTx_ok h
  obtain ⟨hdep, href, hpool⟩ := checkCertificates_counts hrun
  obtain ⟨hl, ha⟩ := checkPreservationOfValue_congruent (Outcome.seq_eq_ok.1 hafter).1
  rw [hdep, href, hpool] at hl
  set body := mtx.transactionBody.inner
  rw [Flow.balanced_iff_countedAgain, OpenTermsCancel, Prod.ext_iff]
  refine and_congr ?_ ?_
  · -- the refunds and the deposits enter `hl` as residues, the withdrawals not at all
    have hr := Int.emod_add_mul_ediv (refundsTotal body pps) wordCard
    have hd := Int.emod_add_mul_ediv (depositsTotal state body pps) wordCard
    have hl : ((body.inputs.map (inputHolding utxos)).sum).1 + refundsTotal body pps % wordCard =
        ((body.outputs.map fun o => o.amount.holding).sum + lovelaceHolding body.fee).1 +
          depositsTotal state body pps % wordCard := by
      simpa [mintHolding, refundsTotal, depositsTotal] using hl
    have hc : ((flow state body pps).consumed utxos).1 =
        ((body.inputs.map (inputHolding utxos)).sum).1 + (withdrawalsTotal body + refundsTotal body pps) := by
      simp [Flow.consumed, flow, mintHolding]
    have hp : (flow state body pps).produced.1 =
        ((body.outputs.map fun o => o.amount.holding).sum + lovelaceHolding body.fee).1 +
          depositsTotal state body pps := rfl
    rw [Prod.fst_sub, hc, hp]
    omega
  · have hassets : ∀ p a, ((flow state body pps).consumed utxos).2 p a ≡
        (flow state body pps).produced.2 p a [ZMOD wordCard] := fun p a => by
      simpa [Flow.consumed, flow] using ha p a
    simp only [funext_iff, Prod.snd_sub, Pi.sub_apply, Tally.sub_eq_carries (hassets _ _)]

/-! ### A transaction with a withdrawal

One input of 10 ada and one output; the fee makes up the difference, so that the withdrawal of 5
lovelace goes nowhere. The hashes and the signature are those of the real functions. -/

/-- The bytes of the body. -/
def withdrawalBodyBytes : Bytes :=
  Cbor.bigEndian 40 0xa5008182582000000000000000000000000000000000000000000000000000000000000000000001 ++
    Cbor.bigEndian 40 0x8182581d6127e38d0e19e3434e33fbd001d3fe04b5b76763f88acd625e0d770b431a00958940021a ++
    Cbor.bigEndian 40 0x00030d40031a005b8d8005a1581de127e38d0e19e3434e33fbd001d3fe04b5b76763f88acd625e0d ++
    Cbor.bigEndian 4 0x770b4305

/-- The signature of the body's hash. -/
def withdrawalSignature : Bytes :=
  Cbor.bigEndian 40 0xb99649081c0d86dd543aa8a190fc2187e14cf325cd76063750ca963825db0f5c05c5f1074d0d4236 ++
    Cbor.bigEndian 24 0x5fc3039466f2d6b24ff2e3cb5d1f50fc17683f16155ac80c

/-- The bytes of the witness set. -/
def withdrawalWitnessBytes : Bytes :=
  Cbor.bigEndian 40 0xa1008182582003a107bff3ce10be1d70dd18e74bc09967e4d6309ba50d5f1ddc8664125531b85840 ++
    Cbor.bigEndian 40 0xb99649081c0d86dd543aa8a190fc2187e14cf325cd76063750ca963825db0f5c05c5f1074d0d4236 ++
    Cbor.bigEndian 24 0x5fc3039466f2d6b24ff2e3cb5d1f50fc17683f16155ac80c

/-- The hashes of the key and of the body, and the signature. -/
def withdrawalCrypto : Crypto :=
  .ofTables [(sampleVkey, sampleKeyHash)]
    [(withdrawalBodyBytes, 0x67fcb65ee39c04e612d9dbc193de21f394fbf552ce1849fa9015ac6e72fc8df7)] []
    [(sampleVkey, Cbor.bigEndian 32 0x67fcb65ee39c04e612d9dbc193de21f394fbf552ce1849fa9015ac6e72fc8df7,
      withdrawalSignature)]

/-- The body. -/
def withdrawalBody : TransactionBody where
  inputs := [⟨0, 0⟩]
  outputs := [⟨sampleAddress, .coin 9800000, none⟩]
  fee := 200000
  ttl := some 6000000
  withdrawals := some ((∅ : FinMap RewardAccount Coin).insert (0xe1 :: Hash.toBytes sampleKeyHash) 5)

/-- The transaction. -/
def withdrawalTx : Tx where
  transactionBody := ⟨withdrawalBodyBytes, withdrawalBody, by decide⟩
  transactionWitnessSet := ⟨withdrawalWitnessBytes,
    { vkeywitness := some [⟨sampleVkey, withdrawalSignature⟩] }, by decide⟩
  success := true
  auxiliaryData := .null

/-- A UTxO map with one output of 10 ada. -/
def shelleyUtxos : UTxOs := fun i =>
  if i = .alonzoCompatible ⟨0, 0⟩ then some (.alonzoCompatible ⟨sampleAddress, .coin 10000000, none⟩ .shelley)
  else none

/-- The parameters of the main network at the start of the era. -/
def shelleyPps : ShelleyProtParams := ⟨44, 155381, 16384, 2000000, 500000000, 1000000, 340000000, 18⟩

/-- The withdrawal does not enter the balance: the transaction is accepted, and 5 lovelace are gone. -/
theorem withdrawalTx_accepted :
    (∀ pr, validateShelleyMaTx pr withdrawalCrypto withdrawalTx 0 shelleyUtxos emptyCertState shelleyPps ⟨0, 0⟩
      5000000 1 .shelley = (emptyCertState, .ok ())) ∧
    ¬ (flow emptyCertState withdrawalBody shelleyPps).Balanced shelleyUtxos := by
  refine ⟨fun pr => by cases pr <;> decide +kernel, fun h => ?_⟩
  have hl := congrArg Prod.fst h
  revert hl
  decide +kernel

theorem withdrawalTx_balanced_iff :
    validateShelleyMaTx .debug withdrawalCrypto withdrawalTx 0 shelleyUtxos emptyCertState shelleyPps ⟨0, 0⟩
      5000000 1 .shelley = (emptyCertState, .ok ()) ∧
    ((flow emptyCertState withdrawalBody shelleyPps).Balanced shelleyUtxos ↔
      OpenTermsCancel emptyCertState withdrawalBody shelleyUtxos shelleyPps) :=
  have hok : validateShelleyMaTx .debug withdrawalCrypto withdrawalTx 0 shelleyUtxos emptyCertState shelleyPps ⟨0, 0⟩
      5000000 1 .shelley = (emptyCertState, .ok ()) := by decide +kernel
  ⟨hok, validateShelleyMaTx_balanced_iff hok⟩

end Pallas.ShelleyMa
