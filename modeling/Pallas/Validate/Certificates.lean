import Pallas.Validate.ShelleyMa

/-!
# What a run over the certificates counts

`checkCertificates` counts registrations, deregistrations and new pools while it updates the very map
that decides whether a pool is new. `CertRun.Counted` is what one accepted certificate does to the
counters and to the set of registered pools; over a whole list the pool counter has grown by the number
of distinct pools that were not registered at the start (`checkCertificateList_counts`).
-/

namespace Pallas.ShelleyMa
open Std Alonzo

/-! ### One certificate -/

/-- A registration of a stake credential. -/
def isRegistration : Certificate → Bool
  | .stakeRegistration _ => true
  | _ => false

/-- A deregistration of a stake credential. -/
def isDeregistration : Certificate → Bool
  | .stakeDeregistration _ => true
  | _ => false

/-- The pool that a certificate registers or updates. -/
def registeredPool : Certificate → Option PoolKeyhash
  | .poolRegistration operator _ => some operator
  | _ => none

/-- The pool is registered. -/
def PoolRegistered (state : CertState) (pool : PoolKeyhash) : Prop := pool ∈ state.pstate.poolParams

instance {state : CertState} {pool : PoolKeyhash} : Decidable (PoolRegistered state pool) :=
  inferInstanceAs (Decidable (pool ∈ _))

/-- What an accepted certificate does to the counters and to the set of registered pools. -/
structure CertRun.Counted (run run' : CertRun) (cert : Certificate) : Prop where
  deposits : run'.stkDepCount = run.stkDepCount + (if isRegistration cert then 1 else 0)
  refunds : run'.stkRefundCount = run.stkRefundCount + (if isDeregistration cert then 1 else 0)
  pools : ∀ pool, PoolRegistered run'.state pool ↔
    PoolRegistered run.state pool ∨ registeredPool cert = some pool
  poolCount : run'.poolCount = run.poolCount +
    (if ∃ pool, registeredPool cert = some pool ∧ ¬ PoolRegistered run.state pool then 1 else 0)

variable {pr : Profile} {env : CertEnv} {run run' : CertRun}

theorem CertRun.Counted.of_uncounted {cert : Certificate} (hreg : isRegistration cert = false)
    (hdereg : isDeregistration cert = false) (hpool : registeredPool cert = none)
    (hdep : run'.stkDepCount = run.stkDepCount) (href : run'.stkRefundCount = run.stkRefundCount)
    (hcount : run'.poolCount = run.poolCount)
    (hpools : run'.state.pstate.poolParams = run.state.pstate.poolParams) : run.Counted run' cert := by
  refine ⟨by simp [hdep, hreg], by simp [href, hdereg], fun pool => ?_, by simp [hcount, hpool]⟩
  simp [PoolRegistered, hpools, hpool]

theorem checkPoolRegOrUpdate_pools {pool : PoolKeyhash} {params : PoolParam} {cost : Coin} {ps ps' : PState}
    (h : checkPoolRegOrUpdate pool params cost ps = (ps', .ok ())) (pool' : PoolKeyhash) :
    pool' ∈ ps'.poolParams ↔ pool' ∈ ps.poolParams ∨ pool = pool' := by
  unfold checkPoolRegOrUpdate at h
  split at h
  · cases h
  · split at h
    · next hin =>
      obtain ⟨rfl, -⟩ := Prod.mk.inj h
      constructor
      · exact .inl
      · rintro (h | rfl)
        · exact h
        · exact hin
    · obtain ⟨rfl, -⟩ := Prod.mk.inj h
      simp [ExtTreeMap.mem_insert, or_comm]

theorem checkPoolRetirement_pools {pool : PoolKeyhash} {repoch cepoch emax : Epoch} {ps : PState} :
    (checkPoolRetirement pr pool repoch cepoch emax ps).1.poolParams = ps.poolParams := by
  unfold checkPoolRetirement
  split
  · rfl
  · split
    · split <;> rfl
    · rfl
    · rfl

theorem checkCertificate_counted {cert : Certificate} (h : checkCertificate pr env run cert = (run', .ok ())) :
    run.Counted run' cert := by
  cases cert with
  | stakeRegistration stc =>
    obtain ⟨rfl, -⟩ := Prod.mk.inj h
    exact ⟨rfl, rfl, fun pool => by simp [PoolRegistered, CertRun.withDstate, registeredPool], by
      simp [CertRun.withDstate, registeredPool]⟩
  | stakeDeregistration stc =>
    simp only [checkCertificate] at h
    split at h
    · obtain ⟨rfl, -⟩ := Prod.mk.inj h
      exact ⟨rfl, rfl, fun pool => by simp [PoolRegistered, CertRun.withDstate, registeredPool], by
        simp [CertRun.withDstate, registeredPool]⟩
    · next hne _ => exact absurd (Prod.mk.inj h).2 hne
  | stakeDelegation stc pool =>
    obtain ⟨rfl, -⟩ := Prod.mk.inj h
    exact .of_uncounted rfl rfl rfl rfl rfl rfl rfl
  | poolRegistration operator params =>
    obtain ⟨rfl, hr⟩ := Prod.mk.inj h
    have hps := checkPoolRegOrUpdate_pools (Prod.ext rfl hr)
    refine ⟨rfl, rfl, fun pool => (hps pool).trans (or_congr_right (Option.some_inj (a := operator)).symm), ?_⟩
    have hin : run.state.pstate.poolParams.contains operator = true ↔ PoolRegistered run.state operator := Iff.rfl
    simp only [registeredPool, Option.some.injEq, exists_eq_left', hin, ite_not]
    split <;> rfl
  | poolRetirement pool repoch =>
    obtain ⟨rfl, -⟩ := Prod.mk.inj h
    exact .of_uncounted rfl rfl rfl rfl rfl rfl checkPoolRetirement_pools
  | genesisKeyDelegation gkh dkh vrf =>
    obtain ⟨rfl, -⟩ := Prod.mk.inj h
    exact .of_uncounted rfl rfl rfl rfl rfl rfl rfl
  | moveInstantaneousRewardsCert mir =>
    obtain ⟨rfl, -⟩ := Prod.mk.inj h
    exact .of_uncounted rfl rfl rfl rfl rfl rfl rfl

/-! ### A list of certificates -/

/-- The pools that the certificates register and that were not registered before. -/
def newPools (state : CertState) (certs : List Certificate) : Finset PoolKeyhash :=
  (certs.filterMap registeredPool).toFinset.filter fun pool => ¬ PoolRegistered state pool

theorem newPools_cons_card {cert : Certificate} (certs : List Certificate) (h : run.Counted run' cert) :
    (newPools run.state (cert :: certs)).card = (newPools run'.state certs).card +
      if ∃ pool, registeredPool cert = some pool ∧ ¬ PoolRegistered run.state pool then 1 else 0 := by
  cases hcert : registeredPool cert with
  | none =>
    have hsame : newPools run.state (cert :: certs) = newPools run'.state certs := by
      simp [newPools, hcert, h.pools]
    simp [hsame]
  | some pool =>
    by_cases hin : PoolRegistered run.state pool
    · have hsame : newPools run.state (cert :: certs) = newPools run'.state certs := by
        ext q
        simp only [newPools, List.filterMap_cons, hcert, List.toFinset_cons, Finset.mem_filter,
          Finset.mem_insert, List.mem_toFinset, h.pools, Option.some.injEq]
        constructor
        · rintro ⟨rfl | hq, hnot⟩
          · exact absurd hin hnot
          · exact ⟨hq, fun h => h.elim hnot fun h => hnot (h ▸ hin)⟩
        · rintro ⟨hq, hnot⟩
          exact ⟨.inr hq, fun h => hnot (.inl h)⟩
      simp [hsame, hin]
    · have hinsert : newPools run.state (cert :: certs) = insert pool (newPools run'.state certs) := by
        ext q
        simp only [newPools, List.filterMap_cons, hcert, List.toFinset_cons, Finset.mem_filter,
          Finset.mem_insert, List.mem_toFinset, h.pools, Option.some.injEq]
        constructor
        · rintro ⟨rfl | hq, hnot⟩
          · exact .inl rfl
          · by_cases hqp : q = pool
            · exact .inl hqp
            · exact .inr ⟨hq, fun h => h.elim hnot fun h => hqp h.symm⟩
        · rintro (rfl | ⟨hq, hnot⟩)
          · exact ⟨.inl rfl, hin⟩
          · exact ⟨.inr hq, fun h => hnot (.inl h)⟩
      have hfresh : pool ∉ newPools run'.state certs := by
        simp [newPools, h.pools, hcert]
      simp [hinsert, Finset.card_insert_of_notMem hfresh, hin]

theorem checkCertificateList_counts {ix : ℕ} {certs : List Certificate}
    (h : checkCertificateList pr env ix certs run = (run', .ok ())) :
    run'.stkDepCount = run.stkDepCount + certs.countP isRegistration ∧
    run'.stkRefundCount = run.stkRefundCount + certs.countP isDeregistration ∧
    run'.poolCount = run.poolCount + (newPools run.state certs).card := by
  induction certs generalizing ix run with
  | nil =>
    obtain ⟨rfl, -⟩ := Prod.mk.inj h
    exact ⟨rfl, rfl, rfl⟩
  | cons cert certs ih =>
    rw [checkCertificateList] at h
    split at h
    · next run₁ hcert =>
      have hc := checkCertificate_counted hcert
      obtain ⟨hdep, href, hpool⟩ := ih h
      simp only at hdep href hpool
      rw [newPools_cons_card certs hc, List.countP_cons, List.countP_cons, hdep, href, hpool, hc.deposits,
        hc.refunds, hc.poolCount]
      exact ⟨by omega, by omega, by omega⟩
    · next hne _ => exact absurd (Prod.mk.inj h).2 hne

/-- The certificates of a body. -/
def certificates (body : TransactionBody) : List Certificate := body.certificates.getD []

theorem checkCertificates_counts {body : TransactionBody} {txIx : TransactionIndex} {state : CertState}
    {acnt : AccountState} {slot : Slot} {pps : ShelleyProtParams}
    (h : checkCertificates pr body.certificates txIx state acnt slot pps = (run, .ok ())) :
    run.stkDepCount = (certificates body).countP isRegistration ∧
    run.stkRefundCount = (certificates body).countP isDeregistration ∧
    run.poolCount = (newPools state (certificates body)).card := by
  unfold checkCertificates at h
  unfold certificates
  cases hcerts : body.certificates with
  | none =>
    simp only [hcerts] at h
    obtain ⟨rfl, -⟩ := Prod.mk.inj h
    exact ⟨rfl, rfl, rfl⟩
  | some certs =>
    simp only [hcerts] at h
    split at h
    · simpa using checkCertificateList_counts h
    · cases h
    · cases h

end Pallas.ShelleyMa
