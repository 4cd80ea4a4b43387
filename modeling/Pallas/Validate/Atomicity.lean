import Pallas.Validate.ShelleyBalance
import Pallas.Validate.Phase1

/-!
# What an error leaves of the certificate state

`validate_tx` processes certificates on the state that it is given, and does not undo them when a later certificate or a
later check fails: the state is that of the certificates accepted so far (`validateTx_err`). So an error leaves the state
as it was where the first certificate is declined (`Declined`), or none is looked at (`validateTx_error_leaves`).
`validate_txs` hands it a copy, and an error there always leaves the caller's state as it was (`validateTxs_err`).
-/

namespace Pallas
namespace ShelleyMa
open Std Alonzo

variable {pr : Profile} {env : CertEnv} {run run' : CertRun} {e : ValidationError}

/-! ### One certificate -/

/-- The reward account of a registration is there, its pointer is not. -/
def CertRun.halfRegistered (run : CertRun) (stc : StakeCredential) : CertState :=
  { run.state with dstate := { run.state.dstate with rewards := run.state.dstate.rewards.insert stc 0 } }

/-- What a certificate that is refused leaves: the state before it, but for a registration whose pointer is taken. -/
def Refused (pr : Profile) (env : CertEnv) (run : CertRun) (cert : Certificate) (e : ValidationError)
    (state : CertState) : Prop :=
  (checkCertificate pr env run cert).2 = .err e ∧
    (state = run.state ∨ ∃ stc, cert = .stakeRegistration stc ∧ stc ∉ run.state.dstate.rewards ∧
      run.ptr ∈ run.state.dstate.ptrs ∧ state = run.halfRegistered stc)

theorem checkStakeRegistration_err {stc : StakeCredential} {ptr : CertPointer} {ds ds' : DState}
    (h : checkStakeRegistration stc ptr ds = (ds', .err e)) :
    ds' = ds ∨ stc ∉ ds.rewards ∧ ptr ∈ ds.ptrs ∧ ds' = { ds with rewards := ds.rewards.insert stc 0 } := by
  unfold checkStakeRegistration insertOrErr at h
  by_cases hreg : ds.rewards.contains stc
  · simp only [hreg, if_true] at h
    obtain ⟨rfl, -⟩ := Prod.mk.inj h
    exact .inl rfl
  · have hnew : stc ∉ ds.rewards := hreg
    simp only [hreg, Bool.false_eq_true, if_false] at h
    by_cases hptr : ds.ptrs.contains ptr
    · simp only [hptr, if_true] at h
      obtain ⟨rfl, -⟩ := Prod.mk.inj h
      exact .inr ⟨hnew, hptr, rfl⟩
    · simp only [hptr, Bool.false_eq_true, if_false] at h
      cases (Prod.mk.inj h).2

theorem checkStakeDeregistration_err {stc : StakeCredential} {ds ds' : DState}
    (h : checkStakeDeregistration stc ds = (ds', .err e)) : ds' = ds := by
  unfold checkStakeDeregistration at h
  split at h
  · exact (Prod.mk.inj h).1.symm
  · split at h
    · cases (Prod.mk.inj h).2
    · exact (Prod.mk.inj h).1.symm

theorem checkStakeDelegation_err {stc : StakeCredential} {pool : PoolKeyhash} {ds ds' : DState} {ps : PState}
    (h : checkStakeDelegation stc pool ds ps = (ds', .err e)) : ds' = ds := by
  unfold checkStakeDelegation at h
  split at h
  · exact (Prod.mk.inj h).1.symm
  · split at h
    · cases (Prod.mk.inj h).2
    · exact (Prod.mk.inj h).1.symm

theorem checkPoolRegOrUpdate_err {pool : PoolKeyhash} {params : PoolParam} {cost : Coin} {ps ps' : PState}
    (h : checkPoolRegOrUpdate pool params cost ps = (ps', .err e)) : ps' = ps := by
  unfold checkPoolRegOrUpdate at h
  split at h
  · exact (Prod.mk.inj h).1.symm
  · split at h
    · cases (Prod.mk.inj h).2
    · cases (Prod.mk.inj h).2

theorem checkPoolRetirement_err {pool : PoolKeyhash} {repoch cepoch emax : Epoch} {ps ps' : PState}
    (h : checkPoolRetirement pr pool repoch cepoch emax ps = (ps', .err e)) : ps' = ps := by
  unfold checkPoolRetirement at h
  split at h
  · exact (Prod.mk.inj h).1.symm
  · split at h
    · split at h
      · cases (Prod.mk.inj h).2
      · exact (Prod.mk.inj h).1.symm
    · exact (Prod.mk.inj h).1.symm
    · cases (Prod.mk.inj h).2

theorem checkGenesisKeyDelegation_err {gkh : Genesishash} {dkh : GenesisDelegateHash} {vrf : VrfKeyhash} {slot : Slot}
    {ds ds' : DState} (h : checkGenesisKeyDelegation pr gkh dkh vrf slot ds = (ds', .err e)) : ds' = ds := by
  unfold checkGenesisKeyDelegation at h
  simp only at h
  split at h
  · exact (Prod.mk.inj h).1.symm
  · split at h
    · exact (Prod.mk.inj h).1.symm
    · split at h
      · cases (Prod.mk.inj h).2
      · exact (Prod.mk.inj h).1.symm
      · cases (Prod.mk.inj h).2

theorem checkMir_err {mir : MoveInstantaneousReward} {slot : Slot} {acnt : AccountState} {ds ds' : DState}
    (h : checkMir pr mir slot acnt ds = (ds', .err e)) : ds' = ds := by
  unfold checkMir at h
  simp only at h
  split at h
  · cases (Prod.mk.inj h).2
  · exact (Prod.mk.inj h).1.symm

theorem checkCertificate_err {cert : Certificate} (h : checkCertificate pr env run cert = (run', .err e)) :
    Refused pr env run cert e run'.state := by
  refine ⟨congrArg Prod.snd h, ?_⟩
  cases cert with
  | stakeRegistration stc =>
    obtain ⟨hrun, hresult⟩ := Prod.mk.inj h
    subst hrun
    rcases checkStakeRegistration_err (Prod.ext rfl hresult) with hds | ⟨hnew, hptr, hds⟩
    · exact .inl (congrArg (fun ds => { run.state with dstate := ds }) hds)
    · exact .inr ⟨stc, rfl, hnew, hptr, congrArg (fun ds => { run.state with dstate := ds }) hds⟩
  | stakeDeregistration stc =>
    rw [checkCertificate] at h
    split at h
    · cases (Prod.mk.inj h).2
    · next ds r hne heq =>
      obtain ⟨rfl, rfl⟩ := Prod.mk.inj h
      exact .inl (congrArg (fun ds => { run.state with dstate := ds }) (checkStakeDeregistration_err heq))
  | stakeDelegation stc pool =>
    obtain ⟨hrun, hresult⟩ := Prod.mk.inj h
    subst hrun
    have hds := checkStakeDelegation_err (Prod.ext rfl hresult)
    exact .inl (congrArg (fun ds => { run.state with dstate := ds }) hds)
  | poolRegistration operator params =>
    obtain ⟨hrun, hresult⟩ := Prod.mk.inj h
    subst hrun
    have hps := checkPoolRegOrUpdate_err (Prod.ext rfl hresult)
    exact .inl (congrArg (fun ps => { run.state with pstate := ps }) hps)
  | poolRetirement pool repoch =>
    obtain ⟨hrun, hresult⟩ := Prod.mk.inj h
    subst hrun
    have hps := checkPoolRetirement_err (Prod.ext rfl hresult)
    exact .inl (congrArg (fun ps => { run.state with pstate := ps }) hps)
  | genesisKeyDelegation gkh dkh vrf =>
    rw [checkCertificate] at h
    generalize hcheck : checkGenesisKeyDelegation pr gkh dkh vrf env.slot run.state.dstate = result at h
    obtain ⟨ds, r⟩ := result
    obtain ⟨rfl, rfl⟩ := Prod.mk.inj h
    exact .inl (congrArg (fun ds => { run.state with dstate := ds }) (checkGenesisKeyDelegation_err hcheck))
  | moveInstantaneousRewardsCert mir =>
    obtain ⟨hrun, hresult⟩ := Prod.mk.inj h
    subst hrun
    have hds := checkMir_err (Prod.ext rfl hresult)
    exact .inl (congrArg (fun ds => { run.state with dstate := ds }) hds)

/-- The certificates that the state declines as it is, with nothing written. -/
def Declined (pr : Profile) (env : CertEnv) (state : CertState) : Certificate → Prop
  | .stakeRegistration stc => stc ∈ state.dstate.rewards
  | .stakeDeregistration stc => state.dstate.rewards[stc]? ≠ some 0
  | .stakeDelegation stc pool => pool ∉ state.pstate.poolParams ∨ stc ∉ state.dstate.rewards
  | .poolRegistration _ params => params.cost < env.pps.minPoolCost
  | .poolRetirement pool repoch => pool ∉ state.pstate.poolParams ∨ repoch ≤ env.cepoch ∨
      ∀ last : Epoch, (MachineInt.add pr env.cepoch env.pps.maximumEpoch : Outcome ValidationError Epoch) = .ok last →
        last < repoch
  | .genesisKeyDelegation gkh dkh vrf => gkh ∉ state.dstate.genDelegs ∨
      ∃ other ∈ otherDelegations gkh state.dstate, other.1 = dkh ∨ other.2 = vrf
  | .moveInstantaneousRewardsCert ⟨.reserves, target⟩ => checkMirSums pr env.slot
      (combinedRewards target state.dstate.instRewards.1) env.acnt.reserves ≠ .ok ()
  | .moveInstantaneousRewardsCert ⟨.treasury, target⟩ => checkMirSums pr env.slot
      (combinedRewards target state.dstate.instRewards.2) env.acnt.treasury ≠ .ok ()

theorem Declined.refused {cert : Certificate} (h : Declined pr env run.state cert) :
    (checkCertificate pr env run cert).2 ≠ .ok () := by
  cases cert with
  | stakeRegistration stc =>
    have hreg : run.state.dstate.rewards.contains stc = true := h
    simp [checkCertificate, checkStakeRegistration, insertOrErr, hreg]
  | stakeDeregistration stc =>
    have hnull : run.state.dstate.rewards[stc]? ≠ some 0 := h
    rw [checkCertificate, checkStakeDeregistration]
    cases hreward : run.state.dstate.rewards[stc]? with
    | none => simp
    | some n =>
      have hn : n ≠ 0 := fun hn => hnull (by rw [hreward, hn])
      simp [hn]
  | stakeDelegation stc pool =>
    rw [checkCertificate, checkStakeDelegation]
    rcases h with hpool | hreg
    · have hpool : run.state.pstate.poolParams.contains pool = false := Bool.eq_false_iff.2 hpool
      simp [hpool]
    · have hreg : run.state.dstate.rewards.contains stc = false := Bool.eq_false_iff.2 hreg
      split_ifs <;> simp_all
  | poolRegistration operator params =>
    have hcost : params.cost < env.pps.minPoolCost := h
    simp [checkCertificate, checkPoolRegOrUpdate, hcost]
  | poolRetirement pool repoch =>
    rw [checkCertificate, checkPoolRetirement]
    rcases h with hpool | hepoch
    · have hpool : run.state.pstate.poolParams.contains pool = false := Bool.eq_false_iff.2 hpool
      simp [hpool]
    · split_ifs
      · simp
      · cases hlast : (MachineInt.add pr env.cepoch env.pps.maximumEpoch : Outcome ValidationError Epoch) with
        | ok last =>
          have hno : ¬ (env.cepoch < repoch ∧ repoch ≤ last) := by
            rintro ⟨hlo, hhi⟩
            rcases hepoch with hle | hall
            · exact absurd hlo (UInt64.not_lt.2 hle)
            · exact absurd (hall last hlast) (UInt64.not_lt.2 hhi)
          simp [hno]
        | err e => simp
        | panic => simp
  | genesisKeyDelegation gkh dkh vrf =>
    rw [checkCertificate, checkGenesisKeyDelegation]
    dsimp only
    split_ifs with hother hnone
    · simp
    · simp
    · rcases h with hgen | ⟨other, hmem, heq⟩
      · exact absurd hgen (by simpa using hnone)
      · refine absurd ?_ hother
        simp only [Bool.or_eq_true, List.contains_iff_mem, List.mem_map]
        exact heq.imp (fun h => ⟨other, hmem, h⟩) fun h => ⟨other, hmem, h⟩
  | moveInstantaneousRewardsCert mir =>
    obtain ⟨source, target⟩ := mir
    rw [checkCertificate, checkMir]
    cases source with
    | reserves =>
      dsimp only
      split
      · next hsums => exact absurd hsums h
      · next hne => exact hne
    | treasury =>
      dsimp only
      split
      · next hsums => exact absurd hsums h
      · next hne => exact hne

/-! ### The certificates of a transaction -/

theorem Declined.not_accepted {ix : ℕ} {cert : Certificate} {certs : List Certificate}
    (h : Declined pr env run.state cert) : checkCertificateList pr env ix (cert :: certs) run ≠ (run', .ok ()) := by
  intro haccepted
  rw [checkCertificateList] at haccepted
  split at haccepted
  · next hcert => exact h.refused (congrArg Prod.snd hcert)
  · next hne _ => exact hne (Prod.mk.inj haccepted).2

theorem checkCertificateList_err {ix : ℕ} {certs : List Certificate}
    (h : checkCertificateList pr env ix certs run = (run', .err e)) :
    ∃ before cert after mid, certs = before ++ cert :: after ∧
      checkCertificateList pr env ix before run = (mid, .ok ()) ∧
        checkCertificate pr env mid cert = (run', .err e) := by
  induction certs generalizing ix run with
  | nil => cases (Prod.mk.inj h).2
  | cons cert certs ih =>
    rw [checkCertificateList] at h
    split at h
    · next run₁ hcert =>
      obtain ⟨before, cert', after, mid, rfl, hbefore, hstop⟩ := ih h
      refine ⟨cert :: before, cert', after, mid, rfl, ?_, hstop⟩
      rw [checkCertificateList, hcert]
      exact hbefore
    · next run₁ r hne hcert =>
      obtain ⟨rfl, rfl⟩ := Prod.mk.inj h
      exact ⟨[], cert, certs, run, rfl, rfl, hcert⟩

/-- What an error leaves that comes with the certificates or after them. -/
inductive Leaves (pr : Profile) (c : Crypto) (mtx : Tx) (utxos : UTxOs) (pps : ShelleyProtParams) (networkId : UInt8)
    (era : Era) (env : CertEnv) (start : CertRun) (certs : List Certificate) (e : ValidationError) :
    CertState → Prop where
  /-- A certificate is refused, and those before it are accepted. -/
  | certificate {before after : List Certificate} {cert : Certificate} {run : CertRun} {state : CertState} :
      certs = before ++ cert :: after → checkCertificateList pr env 0 before start = (run, .ok ()) →
      Refused pr env run cert e state → Leaves pr c mtx utxos pps networkId era env start certs e state
  /-- All certificates are accepted, and a later check fails. -/
  | later {run : CertRun} : checkCertificateList pr env 0 certs start = (run, .ok ()) →
      checkAfterCertificates pr c mtx utxos pps networkId era run = .err e →
      Leaves pr c mtx utxos pps networkId era env start certs e run.state

/-- The checks before the certificates pass, there are certificates, and the state is what the accepted ones of them
leave. -/
def LeavesCertificates (pr : Profile) (c : Crypto) (mtx : Tx) (txIx : TransactionIndex) (utxos : UTxOs)
    (state : CertState) (pps : ShelleyProtParams) (acnt : AccountState) (slot : UInt64) (networkId : UInt8) (era : Era)
    (e : ValidationError) (state' : CertState) : Prop :=
  checkBeforeCertificates pr mtx utxos pps slot era = .ok () ∧
    ∃ certs cepoch, mtx.transactionBody.inner.certificates = some certs ∧ toEpoch pr mainnet slot = .ok cepoch ∧
      Leaves pr c mtx utxos pps networkId era ⟨acnt, slot, cepoch, pps⟩ ⟨state, 0, 0, 0, ⟨slot, txIx, 0⟩⟩ certs e state'

theorem Leaves.eq_of_declined {c : Crypto} {mtx : Tx} {utxos : UTxOs} {pps : ShelleyProtParams} {networkId : UInt8}
    {era : Era} {start : CertRun} {certs : List Certificate} {state : CertState}
    (h : Leaves pr c mtx utxos pps networkId era env start certs e state)
    (hfirst : ∀ cert ∈ certs.head?, Declined pr env start.state cert) : state = start.state := by
  cases h with
  | @certificate before after cert run state hcerts haccepted hrefused =>
    cases before with
    | nil =>
      obtain rfl : start = run := (Prod.mk.inj haccepted).1
      rcases hrefused.2 with hsame | ⟨stc, rfl, hnew, -, -⟩
      · exact hsame
      · exact absurd (hfirst (.stakeRegistration stc) (by rw [hcerts]; rfl)) hnew
    | cons first before => exact absurd haccepted (hfirst first (by rw [hcerts]; rfl)).not_accepted
  | @later run haccepted _ =>
    cases certs with
    | nil =>
      obtain rfl : start = run := (Prod.mk.inj haccepted).1
      rfl
    | cons first certs => exact absurd haccepted (hfirst first rfl).not_accepted

theorem validateShelleyMaTx_err {c : Crypto} {mtx : Tx} {txIx : TransactionIndex} {utxos : UTxOs}
    {state state' : CertState} {pps : ShelleyProtParams} {acnt : AccountState} {slot : UInt64}
    {networkId : UInt8} {era : Era}
    (h : validateShelleyMaTx pr c mtx txIx utxos state pps acnt slot networkId era = (state', .err e)) :
    state' = state ∨ LeavesCertificates pr c mtx txIx utxos state pps acnt slot networkId era e state' := by
  unfold validateShelleyMaTx at h
  split at h
  · next hbefore =>
    unfold checkCertificates at h
    cases hcerts : mtx.transactionBody.inner.certificates with
    | none =>
      rw [hcerts] at h
      exact .inl (Prod.mk.inj h).1.symm
    | some certs =>
      rw [hcerts] at h
      simp only at h
      cases hepoch : toEpoch pr mainnet slot with
      | ok cepoch =>
        rw [hepoch] at h
        simp only at h
        split at h
        · next run hlist =>
          obtain ⟨rfl, hlater⟩ := Prod.mk.inj h
          exact .inr ⟨hbefore, certs, cepoch, hcerts, hepoch, .later hlist hlater⟩
        · next run r hne hlist =>
          obtain ⟨rfl, rfl⟩ := Prod.mk.inj h
          obtain ⟨before, cert, after, mid, hsplit, haccepted, hstop⟩ := checkCertificateList_err hlist
          exact .inr ⟨hbefore, certs, cepoch, hcerts, hepoch,
            .certificate hsplit haccepted (checkCertificate_err hstop)⟩
      | err e' =>
        rw [hepoch] at h
        exact .inl (Prod.mk.inj h).1.symm
      | panic =>
        rw [hepoch] at h
        cases (Prod.mk.inj h).2
  · exact .inl (Prod.mk.inj h).1.symm

end ShelleyMa

/-! ### One transaction and a sequence -/

variable {pr : Profile} {c : Crypto} {env : Environment} {utxos : UTxOs} {state state' : CertState}

theorem validateTx_err {metx : MultiEraTx} {txix : TransactionIndex} {e : ValidationError}
    (h : validateTx pr c metx txix env utxos state = (state', .err e)) :
    state' = state ∨ ∃ mtx era pps acnt, metx = .alonzoCompatible mtx era ∧
      (era = .shelley ∨ era = .allegra ∨ era = .mary) ∧
      env.protParams = .shelley pps ∧ env.acnt = some acnt ∧
      ShelleyMa.LeavesCertificates pr c mtx txix utxos state pps acnt env.blockSlot env.networkId era e state' := by
  unfold validateTx at h
  split at h
  · exact .inl (Prod.mk.inj h).1.symm
  · exact .inl (Prod.mk.inj h).1.symm
  · next pps acnt hparams hacnt =>
    split at h
    · next mtx era =>
      split at h
      · next hera =>
        rcases ShelleyMa.validateShelleyMaTx_err h with hsame | hleft
        · exact .inl hsame
        · exact .inr ⟨mtx, era, pps, acnt, rfl, hera, hparams, hacnt, hleft⟩
      · exact .inl (Prod.mk.inj h).1.symm
    · exact .inl (Prod.mk.inj h).1.symm
  · exact .inl (Prod.mk.inj h).1.symm
  · exact .inl (Prod.mk.inj h).1.symm
  · exact .inl (Prod.mk.inj h).1.symm
  · exact .inl (Prod.mk.inj h).1.symm

theorem validateTxs_err {metxs : List MultiEraTx} {e : ValidationError}
    (h : validateTxs pr c metxs env utxos state = (state', .err e)) : state' = state := by
  unfold validateTxs at h
  split at h
  · cases (Prod.mk.inj h).2
  · exact (Prod.mk.inj h).1.symm
  · cases (Prod.mk.inj h).2

/-- The state of the caller is as it was after an error of a sequence; after an error of a single transaction it is as it
was, or it is what the certificates accepted before the error leave of it. -/
theorem validation_error_leaves (pr : Profile) (c : Crypto) (env : Environment) (utxos : UTxOs) (state : CertState) :
    (∀ metxs state' e, validateTxs pr c metxs env utxos state = (state', .err e) → state' = state) ∧
      ∀ metx txix state' e, validateTx pr c metx txix env utxos state = (state', .err e) →
        state' = state ∨ ∃ mtx era pps acnt, metx = .alonzoCompatible mtx era ∧
          (era = .shelley ∨ era = .allegra ∨ era = .mary) ∧ env.protParams = .shelley pps ∧ env.acnt = some acnt ∧
          ShelleyMa.LeavesCertificates pr c mtx txix utxos state pps acnt env.blockSlot env.networkId era e state' :=
  ⟨fun _ _ _ h => validateTxs_err h, fun _ _ _ _ h => validateTx_err h⟩

/-- No certificate is accepted: a check before the certificates fails, there are none, or the first one is declined. In the
other eras nothing is asked. -/
def NoneAccepted (pr : Profile) (metx : MultiEraTx) (env : Environment) (utxos : UTxOs) (state : CertState) : Prop :=
  ∀ mtx era pps acnt cepoch, metx = .alonzoCompatible mtx era → env.protParams = .shelley pps → env.acnt = some acnt →
    ShelleyMa.checkBeforeCertificates pr mtx utxos pps env.blockSlot era = .ok () →
    ShelleyMa.toEpoch pr ShelleyMa.mainnet env.blockSlot = .ok cepoch →
    ∀ cert ∈ (mtx.transactionBody.inner.certificates.getD []).head?,
      ShelleyMa.Declined pr ⟨acnt, env.blockSlot, cepoch, pps⟩ state cert

theorem validateTx_error_leaves {metx : MultiEraTx} {txix : TransactionIndex} {e : ValidationError}
    (h : validateTx pr c metx txix env utxos state = (state', .err e)) (hnone : NoneAccepted pr metx env utxos state) :
    state' = state := by
  rcases (validation_error_leaves pr c env utxos state).2 metx txix state' e h with
    hsame | ⟨mtx, era, pps, acnt, hmetx, -, hparams, hacnt, hbefore, certs, cepoch, hcerts, hepoch, hleaves⟩
  · exact hsame
  · refine hleaves.eq_of_declined fun cert hcert => ?_
    exact hnone mtx era pps acnt cepoch hmetx hparams hacnt hbefore hepoch cert (by rwa [hcerts])

/-! ### A registration that does not balance -/

namespace ShelleyMa
open Std Alonzo

/-- The bytes of the body. -/
def registrationBodyBytes : Bytes :=
  Cbor.bigEndian 7 0xa5008182582000 ++ Cbor.bigEndian 32 0 ++ Cbor.bigEndian 10 0x01800200031a005b8d80 ++
    Cbor.bigEndian 8 0x048182008200581c ++ Cbor.bigEndian 28 1

/-- A registration, without outputs and without a fee. -/
def registrationBody : TransactionBody where
  inputs := [⟨0, 0⟩]
  outputs := []
  fee := 0
  ttl := some 6000000
  certificates := some [.stakeRegistration (.addrKeyhash 1)]

def registrationTx : Tx where
  transactionBody := ⟨registrationBodyBytes, registrationBody, by decide⟩
  transactionWitnessSet := ⟨[0xa0], {}, by decide⟩
  success := true
  auxiliaryData := .null

/-- The main network in the Shelley era. -/
def shelleyEnv : Environment :=
  { protParams := .shelley shelleyPps, protMagic := 764824073, blockSlot := 5000000, networkId :=
    1, acnt := some ⟨0, 0⟩ }

/-- The credential is registered. -/
def registeredState : CertState :=
  { emptyCertState with dstate := { emptyCertState.dstate with
      rewards := (∅ : FinMap StakeCredential Coin).insert (.addrKeyhash 1) 0
      ptrs := (∅ : FinMap CertPointer StakeCredential).insert ⟨5000000, 0, 0⟩ (.addrKeyhash 1) } }

theorem registrationTx_declined :
    validateTx .debug withdrawalCrypto (.alonzoCompatible registrationTx .shelley) 0 shelleyEnv shelleyUtxos
      registeredState = (registeredState, .err (.shelleyMA .keyAlreadyRegistered)) ∧
    ∀ state', validateTx .debug withdrawalCrypto (.alonzoCompatible registrationTx .shelley) 0 shelleyEnv shelleyUtxos
      registeredState = (state', .err (.shelleyMA .keyAlreadyRegistered)) → state' = registeredState := by
  refine ⟨by decide +kernel, fun state' h => validateTx_error_leaves h ?_⟩
  intro mtx era pps acnt cepoch hmetx _ _ _ _ cert hcert
  cases hmetx
  obtain rfl := Option.some.inj hcert
  show StakeCredential.addrKeyhash 1 ∈ registeredState.dstate.rewards
  decide +kernel

/-- The transaction is refused, and its credential is registered. -/
theorem registrationTx_registers :
    (∀ pr, validateTx pr withdrawalCrypto (.alonzoCompatible registrationTx .shelley) 0 shelleyEnv shelleyUtxos
      emptyCertState = (registeredState, .err (.shelleyMA .preservationOfValue))) ∧
        registeredState ≠ emptyCertState := by
  refine ⟨fun pr => by cases pr <;> decide +kernel, ?_⟩
  decide +kernel

end ShelleyMa
end Pallas
