import Pallas.Validate.ShelleyMa

/-!
# What certificates keep of the ledger state

`CertState.Coherent` is what the maps of a `CertState` are expected to keep among them: every delegation and every
pointer belongs to a registered credential, no credential has two pointers, a retiring or updated pool is a registered
one, and delegates of different genesis keys share neither key hash nor VRF key hash. Each certificate keeps it, an
accepted one and one that fails part-way (`checkCertificate_coherent`), and so does a list that stops anywhere.
-/

namespace Pallas
open Std

/-! ### Coherent states -/

/-- A current or future delegation of a genesis key. -/
def DState.Delegates (ds : DState) (gkh : Genesishash) (d : GenesisDelegateHash × VrfKeyhash) : Prop :=
  ds.genDelegs[gkh]? = some d ∨ ∃ slot, ds.futGenDelegs[(⟨slot, gkh⟩ : FutGenesisKey)]? = some d

/-- The stake credentials: what refers to one refers to a registered one. -/
structure DState.StakeCoherent (ds : DState) : Prop where
  delegated : ∀ stc ∈ ds.delegations, stc ∈ ds.rewards
  pointed : ∀ (ptr : CertPointer) stc, ds.ptrs[ptr]? = some stc → stc ∈ ds.rewards
  onePointer : ∀ (ptr ptr' : CertPointer) stc, ds.ptrs[ptr]? = some stc → ds.ptrs[ptr']? = some stc → ptr = ptr'

/-- The genesis delegates: different keys share nothing. -/
def DState.GenesisCoherent (ds : DState) : Prop :=
  ∀ gkh gkh' d d', ds.Delegates gkh d → ds.Delegates gkh' d' → gkh ≠ gkh' → d.1 ≠ d'.1 ∧ d.2 ≠ d'.2

/-- The pools: only registered ones retire or are updated. -/
structure PState.Coherent (ps : PState) : Prop where
  retiring : ∀ pool ∈ ps.retiring, pool ∈ ps.poolParams
  updated : ∀ pool ∈ ps.futPoolParams, pool ∈ ps.poolParams

structure CertState.Coherent (state : CertState) : Prop where
  stake : state.dstate.StakeCoherent
  genesis : state.dstate.GenesisCoherent
  pools : state.pstate.Coherent

theorem emptyCertState_coherent : emptyCertState.Coherent := by
  refine ⟨⟨?_, ?_, ?_⟩, ?_, ⟨?_, ?_⟩⟩
  · intro stc h
    simp [emptyCertState] at h
  · intro ptr stc h
    simp [emptyCertState] at h
  · intro ptr ptr' stc h
    simp [emptyCertState] at h
  · rintro gkh gkh' d d' (h | ⟨slot, h⟩)
    · simp [emptyCertState] at h
    · simp [emptyCertState] at h
  · intro pool h
    simp [emptyCertState] at h
  · intro pool h
    simp [emptyCertState] at h

namespace ShelleyMa
open Alonzo

variable {pr : Profile}

/-! ### Stake credentials -/

/-- A registered credential is new, so no pointer leads to it yet; where the pointer is taken, only the reward account
is entered. -/
theorem checkStakeRegistration_coherent {stc : StakeCredential} {ptr : CertPointer} {ds : DState}
    (h : ds.StakeCoherent) :
    (checkStakeRegistration stc ptr ds).1.StakeCoherent := by
  unfold checkStakeRegistration insertOrErr
  by_cases hreg : ds.rewards.contains stc
  · simp only [hreg, if_true]
    exact h
  · have hnew : stc ∉ ds.rewards := hreg
    simp only [hreg, Bool.false_eq_true, if_false]
    by_cases hptr : ds.ptrs.contains ptr
    · simp only [hptr, if_true]
      refine ⟨?_, ?_, h.onePointer⟩
      · intro c hc
        exact FinMap.mem_insert_iff.2 (.inr (h.delegated c hc))
      · intro p c hc
        exact FinMap.mem_insert_iff.2 (.inr (h.pointed p c hc))
    · simp only [hptr, Bool.false_eq_true, if_false]
      refine ⟨?_, ?_, ?_⟩
      · intro c hc
        exact FinMap.mem_insert_iff.2 (.inr (h.delegated c hc))
      · intro p c hc
        rw [FinMap.getElem?_insert_ite] at hc
        split at hc
        · obtain rfl := Option.some.inj hc
          exact FinMap.mem_insert_iff.2 (.inl rfl)
        · exact FinMap.mem_insert_iff.2 (.inr (h.pointed p c hc))
      · intro p p' c hp hp'
        rw [FinMap.getElem?_insert_ite] at hp hp'
        split at hp
        · next hpe =>
          obtain rfl := Option.some.inj hp
          split at hp'
          · next hpe' => rw [← hpe, ← hpe']
          · exact absurd (h.pointed p' stc hp') hnew
        · split at hp'
          · obtain rfl := Option.some.inj hp'
            exact absurd (h.pointed p stc hp) hnew
          · exact h.onePointer p p' c hp hp'

theorem checkStakeDeregistration_coherent {stc : StakeCredential} {ds : DState} (h : ds.StakeCoherent) :
    (checkStakeDeregistration stc ds).1.StakeCoherent := by
  unfold checkStakeDeregistration
  split
  · exact h
  · split
    · -- the pointers that are left lead to other credentials
      have hleft : ∀ (ptr : CertPointer) c, (ds.ptrs.filter fun _ v => v ≠ stc)[ptr]? = some c →
          ds.ptrs[ptr]? = some c ∧ c ≠ stc := by
        intro ptr c hc
        rw [ExtTreeMap.getElem?_filter', Option.filter_eq_some_iff] at hc
        exact ⟨hc.1, of_decide_eq_true hc.2⟩
      refine ⟨?_, ?_, ?_⟩
      · intro c hc
        obtain ⟨hne, hin⟩ := FinMap.mem_erase_iff.1 hc
        exact FinMap.mem_erase_iff.2 ⟨hne, h.delegated c hin⟩
      · intro ptr c hc
        obtain ⟨hin, hne⟩ := hleft ptr c hc
        exact FinMap.mem_erase_iff.2 ⟨hne, h.pointed ptr c hin⟩
      · intro ptr ptr' c hc hc'
        exact h.onePointer ptr ptr' c (hleft ptr c hc).1 (hleft ptr' c hc').1
    · exact h

theorem checkStakeDelegation_coherent {stc : StakeCredential} {pool : PoolKeyhash} {ds : DState} {ps : PState}
    (h : ds.StakeCoherent) : (checkStakeDelegation stc pool ds ps).1.StakeCoherent := by
  unfold checkStakeDelegation
  split
  · exact h
  · split
    · next hreg =>
      refine ⟨?_, h.pointed, h.onePointer⟩
      intro c hc
      rcases FinMap.mem_insert_iff.1 hc with rfl | hc
      · exact hreg
      · exact h.delegated c hc
    · exact h

/-! ### Pools -/

theorem checkPoolRegOrUpdate_coherent {pool : PoolKeyhash} {params : PoolParam} {cost : Coin} {ps : PState}
    (h : ps.Coherent) : (checkPoolRegOrUpdate pool params cost ps).1.Coherent := by
  unfold checkPoolRegOrUpdate
  split
  · exact h
  · split
    · next hreg =>
      refine ⟨?_, ?_⟩
      · intro q hq
        exact h.retiring q (FinMap.mem_erase_iff.1 hq).2
      · intro q hq
        rcases FinMap.mem_insert_iff.1 hq with rfl | hq
        · exact hreg
        · exact h.updated q hq
    · refine ⟨?_, ?_⟩
      · intro q hq
        exact FinMap.mem_insert_iff.2 (.inr (h.retiring q hq))
      · intro q hq
        exact FinMap.mem_insert_iff.2 (.inr (h.updated q hq))

theorem checkPoolRetirement_coherent {pool : PoolKeyhash} {repoch cepoch emax : Epoch} {ps : PState} (h : ps.Coherent) :
    (checkPoolRetirement pr pool repoch cepoch emax ps).1.Coherent := by
  unfold checkPoolRetirement
  by_cases hreg : ps.poolParams.contains pool
  · simp only [hreg, Bool.not_true, Bool.false_eq_true, if_false]
    split
    · split
      · refine ⟨?_, h.updated⟩
        intro q hq
        rcases FinMap.mem_insert_iff.1 hq with rfl | hq
        · exact hreg
        · exact h.retiring q hq
      · exact h
    · exact h
    · exact h
  · simp only [hreg, Bool.not_false, if_true]
    exact h

/-! ### Genesis delegates -/

theorem mem_otherDelegations {gkh gkh' : Genesishash} {d : GenesisDelegateHash × VrfKeyhash} {ds : DState}
    (h : ds.Delegates gkh' d) (hne : gkh' ≠ gkh) : d ∈ otherDelegations gkh ds := by
  rcases h with h | ⟨slot, h⟩
  · refine List.mem_append_left _ (List.mem_map.2 ⟨(gkh', d), List.mem_filter.2 ⟨FinMap.mem_toList.2 h, ?_⟩, rfl⟩)
    exact decide_eq_true hne
  · refine List.mem_append_right _
      (List.mem_map.2 ⟨(⟨slot, gkh'⟩, d), List.mem_filter.2 ⟨FinMap.mem_toList.2 h, ?_⟩, rfl⟩)
    exact decide_eq_true hne

theorem checkGenesisKeyDelegation_coherent {gkh : Genesishash} {dkh : GenesisDelegateHash}
    {vrf : VrfKeyhash} {slot : Slot}
    {ds : DState} (h : ds.GenesisCoherent) : (checkGenesisKeyDelegation pr gkh dkh vrf slot ds).1.GenesisCoherent := by
  unfold checkGenesisKeyDelegation
  by_cases hdup : ((otherDelegations gkh ds).map Prod.fst).contains dkh ||
    ((otherDelegations gkh ds).map Prod.snd).contains vrf
  · simp only [hdup, if_true]
    exact h
  · simp only [hdup, Bool.false_eq_true, if_false]
    split
    · exact h
    · split
      · next genSlot _ =>
        rw [Bool.or_eq_true, not_or, List.contains_iff_mem, List.contains_iff_mem] at hdup
        have hfresh : ∀ gkh' d, ds.Delegates gkh' d → gkh' ≠ gkh → dkh ≠ d.1 ∧ vrf ≠ d.2 := by
          intro gkh' d hd hne
          have hin := mem_otherDelegations hd hne
          refine ⟨?_, ?_⟩
          · rintro rfl
            exact hdup.1 (List.mem_map_of_mem hin)
          · rintro rfl
            exact hdup.2 (List.mem_map_of_mem hin)
        -- a delegation of the new state is the new one or was there before
        have hcases : ∀ gkh' d,
            ({ ds with futGenDelegs := ds.futGenDelegs.insert ⟨genSlot, gkh⟩ (dkh, vrf) } : DState).Delegates gkh' d →
              gkh' = gkh ∧ d = (dkh, vrf) ∨ ds.Delegates gkh' d := by
          rintro gkh' d (hd | ⟨s, hd⟩)
          · exact .inr (.inl hd)
          · rw [FinMap.getElem?_insert_ite] at hd
            split at hd
            · next hkey =>
              exact .inl ⟨(FutGenesisKey.mk.inj hkey).2.symm, (Option.some.inj hd).symm⟩
            · exact .inr (.inr ⟨s, hd⟩)
        intro g g' d d' hd hd' hne
        rcases hcases g d hd with ⟨rfl, rfl⟩ | hold
        · rcases hcases g' d' hd' with ⟨rfl, -⟩ | hold'
          · exact absurd rfl hne
          · exact hfresh g' d' hold' (Ne.symm hne)
        · rcases hcases g' d' hd' with ⟨rfl, rfl⟩ | hold'
          · obtain ⟨hkey, hvrf⟩ := hfresh g d hold hne
            exact ⟨Ne.symm hkey, Ne.symm hvrf⟩
          · exact h g g' d d' hold hold' hne
      · exact h
      · exact h

/-! ### Certificates -/

variable {env : CertEnv} {run run' : CertRun}

theorem checkCertificate_coherent (cert : Certificate) (h : run.state.Coherent) :
    (checkCertificate pr env run cert).1.state.Coherent := by
  obtain ⟨hstake, hgenesis, hpools⟩ := h
  cases cert with
  | stakeRegistration stc =>
    have hkeeps : ∀ ptr ds, ds.GenesisCoherent → (checkStakeRegistration stc ptr ds).1.GenesisCoherent := by
      intro ptr ds h
      unfold checkStakeRegistration insertOrErr
      split <;> exact h
    exact ⟨checkStakeRegistration_coherent hstake, hkeeps _ _ hgenesis, hpools⟩
  | stakeDeregistration stc =>
    have hkeeps : ∀ ds, ds.GenesisCoherent → (checkStakeDeregistration stc ds).1.GenesisCoherent := by
      intro ds h
      unfold checkStakeDeregistration
      split
      · exact h
      · split <;> exact h
    have hds := @checkStakeDeregistration_coherent stc _ hstake
    have hgs := hkeeps _ hgenesis
    rw [checkCertificate]
    split
    · next ds heq =>
      rw [heq] at hds hgs
      exact ⟨hds, hgs, hpools⟩
    · next ds r hne heq =>
      rw [heq] at hds hgs
      exact ⟨hds, hgs, hpools⟩
  | stakeDelegation stc pool =>
    have hkeeps : ∀ ds ps, ds.GenesisCoherent → (checkStakeDelegation stc pool ds ps).1.GenesisCoherent := by
      intro ds ps h
      unfold checkStakeDelegation
      split
      · exact h
      · split <;> exact h
    exact ⟨checkStakeDelegation_coherent hstake, hkeeps _ _ hgenesis, hpools⟩
  | poolRegistration operator params => exact ⟨hstake, hgenesis, checkPoolRegOrUpdate_coherent hpools⟩
  | poolRetirement pool repoch => exact ⟨hstake, hgenesis, checkPoolRetirement_coherent hpools⟩
  | genesisKeyDelegation gkh dkh vrf =>
    have hkeeps : ∀ ds, ds.StakeCoherent → (checkGenesisKeyDelegation pr gkh dkh vrf env.slot ds).1.StakeCoherent := by
      intro ds h
      unfold checkGenesisKeyDelegation
      simp only
      split
      · exact h
      · split
        · exact h
        · split
          · exact ⟨h.delegated, h.pointed, h.onePointer⟩
          · exact h
          · exact h
    have hs := hkeeps _ hstake
    have hg := @checkGenesisKeyDelegation_coherent pr gkh dkh vrf env.slot _ hgenesis
    exact ⟨hs, hg, hpools⟩
  | moveInstantaneousRewardsCert mir =>
    have hkeeps : ∀ ds, ds.StakeCoherent → ds.GenesisCoherent →
        (checkMir pr mir env.slot env.acnt ds).1.StakeCoherent ∧
          (checkMir pr mir env.slot env.acnt ds).1.GenesisCoherent := by
      intro ds hs hg
      unfold checkMir
      simp only
      split
      · exact ⟨⟨hs.delegated, hs.pointed, hs.onePointer⟩, hg⟩
      · exact ⟨hs, hg⟩
    obtain ⟨hs, hg⟩ := hkeeps _ hstake hgenesis
    exact ⟨hs, hg, hpools⟩

theorem checkCertificateList_coherent {ix : ℕ} (certs : List Certificate) (h : run.state.Coherent) :
    (checkCertificateList pr env ix certs run).1.state.Coherent := by
  induction certs generalizing ix run with
  | nil => exact h
  | cons cert certs ih =>
    have hstep := @checkCertificate_coherent pr env run cert h
    rw [checkCertificateList]
    split
    · next run₁ heq =>
      rw [heq] at hstep
      exact ih hstep
    · next run₁ r hne heq =>
      rw [heq] at hstep
      exact hstep

/-- Whatever certificates are processed from a coherent state, and wherever the processing stops, the state is coherent
after it. -/
theorem checkCertificates_coherent {certs : Option (List Certificate)} {txIx : TransactionIndex} {state : CertState}
    {acnt : AccountState} {slot : Slot} {pps : ShelleyProtParams} (h : state.Coherent) :
    (checkCertificates pr certs txIx state acnt slot pps).1.state.Coherent := by
  unfold checkCertificates
  cases certs with
  | none => exact h
  | some certs =>
    simp only
    split
    · exact checkCertificateList_coherent certs h
    · exact h
    · exact h

/-- A registration, a delegation to no pool that fails, and what is left behind. -/
theorem checkCertificates_coherent_registration :
    (checkCertificates .debug (some [.stakeRegistration (.addrKeyhash 1), .stakeDelegation (.addrKeyhash 1) 7]) 0
      emptyCertState ⟨0, 0⟩ 5000000 ⟨0, 0, 0, 0, 0, 0, 0, 0⟩).1.state.Coherent := by
  apply checkCertificates_coherent
  exact emptyCertState_coherent

end ShelleyMa
end Pallas
