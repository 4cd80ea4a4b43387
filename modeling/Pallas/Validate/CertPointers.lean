import Pallas.Validate.CertState

/-!
# The pointers of registrations

`check_certificates` gives a registration the pointer of the transaction and a certificate index. The index is a
variable of the loop that gets a certificate's position only after the certificate has been processed, so from the second
certificate on it is the position of the one before (`checkCertificateList_ptr`): the first two certificates share the
index `0`.
-/

namespace Pallas

/-- The pointer with these three components. -/
def CertPointer.At (ptr : CertPointer) (slot : Slot) (txIx : TransactionIndex) (position : ℕ) : Prop :=
  ptr.slot = slot ∧ ptr.txIx = txIx ∧ ptr.certIx.toNat = position

namespace ShelleyMa
open Std Alonzo

/-- The run that `check_certificates` starts with. -/
def startRun (state : CertState) (slot : Slot) (txIx : TransactionIndex) : CertRun := ⟨state, 0, 0, 0, ⟨slot, txIx, 0⟩⟩

variable {pr : Profile} {env : CertEnv} {run run' : CertRun}

theorem checkCertificate_ptr (cert : Certificate) : (checkCertificate pr env run cert).1.ptr = run.ptr := by
  cases cert with
  | stakeDeregistration stc =>
    rw [checkCertificate]
    split <;> rfl
  | _ => rfl

theorem checkCertificateList_ptr {ix : ℕ} {certs : List Certificate}
    (h : checkCertificateList pr env ix certs run = (run', .ok ())) :
    run'.ptr = if certs = [] then run.ptr else { run.ptr with certIx := asU32 (ix + (certs.length - 1)) } := by
  induction certs generalizing ix run with
  | nil =>
    obtain ⟨rfl, -⟩ := Prod.mk.inj h
    rfl
  | cons cert certs ih =>
    rw [checkCertificateList] at h
    split at h
    · next run₁ hcert =>
      have hptr := @checkCertificate_ptr pr env run cert
      rw [hcert] at hptr
      rw [if_neg (List.cons_ne_nil _ _), ih h]
      cases certs with
      | nil =>
        rw [if_pos rfl]
        exact congrArg (fun p : CertPointer => { p with certIx := asU32 ix }) hptr
      | cons cert' certs =>
        have hix : ix + 1 + ((cert' :: certs).length - 1) = ix + ((cert :: cert' :: certs).length - 1) := by
          simp only [List.length_cons]
          omega
        rw [if_neg (List.cons_ne_nil _ _), hix]
        exact congrArg (fun p : CertPointer =>
          { p with certIx := asU32 (ix + ((cert :: cert' :: certs).length - 1)) }) hptr
    · next hne _ => exact absurd (Prod.mk.inj h).2 hne

/-! ### One registration -/

theorem checkStakeRegistration_ok {stc : StakeCredential} {ptr : CertPointer} {ds ds' : DState} :
    checkStakeRegistration stc ptr ds = (ds', .ok ()) ↔
      stc ∉ ds.rewards ∧ ptr ∉ ds.ptrs ∧
        ds' = { ds with rewards := ds.rewards.insert stc 0, ptrs := ds.ptrs.insert ptr stc } := by
  unfold checkStakeRegistration insertOrErr
  by_cases hreg : ds.rewards.contains stc
  · have hin : stc ∈ ds.rewards := hreg
    simp [hreg, hin]
  · have hnew : stc ∉ ds.rewards := hreg
    by_cases hptr : ds.ptrs.contains ptr
    · have hin : ptr ∈ ds.ptrs := hptr
      simp [hreg, hptr, hin]
    · have hfree : ptr ∉ ds.ptrs := hptr
      simp [hreg, hptr, hnew, hfree, eq_comm]

theorem checkStakeRegistration_inUse {stc : StakeCredential} {ptr : CertPointer} {ds : DState} :
    (checkStakeRegistration stc ptr ds).2 = .err (.shelleyMA .pointerInUse) ↔ stc ∉ ds.rewards ∧ ptr ∈ ds.ptrs := by
  unfold checkStakeRegistration insertOrErr
  by_cases hreg : ds.rewards.contains stc
  · have hin : stc ∈ ds.rewards := hreg
    simp [hreg, hin]
  · have hnew : stc ∉ ds.rewards := hreg
    by_cases hptr : ds.ptrs.contains ptr
    · have hin : ptr ∈ ds.ptrs := hptr
      simp [hreg, hptr, hin, hnew]
    · have hfree : ptr ∉ ds.ptrs := hptr
      simp [hreg, hptr, hfree]

/-! ### Lists of certificates -/

section Pointers
variable (pr : Profile) (env : CertEnv) (certs : List Certificate) (state : CertState) (txIx : TransactionIndex)

/-- The loop over the certificates comes to a registration, after these certificates and in this state. -/
def ReachesRegistration (before : List Certificate) (stc : StakeCredential) (run : CertRun) : Prop :=
  (∃ after, certs = before ++ .stakeRegistration stc :: after) ∧
    checkCertificateList pr env 0 before (startRun state env.slot txIx) = (run, .ok ())

/-- Each registration goes by its own position: an accepted one is recorded under the pointer of its position, one is
refused for its pointer only where that pointer is taken, and so registrations of new credentials are not refused for
their pointers when these are free. -/
structure RecordedByPosition : Prop where
  recorded : ∀ before stc run run', ReachesRegistration pr env certs state txIx before stc run →
    checkCertificate pr env run (.stakeRegistration stc) = (run', .ok ()) →
    ∃ ptr : CertPointer, ptr.At env.slot txIx before.length ∧
      run'.state.dstate.ptrs = run.state.dstate.ptrs.insert ptr stc
  refused : ∀ before stc run, ReachesRegistration pr env certs state txIx before stc run →
    (checkCertificate pr env run (.stakeRegistration stc)).2 = .err (.shelleyMA .pointerInUse) →
    ∃ ptr : CertPointer, ptr.At env.slot txIx before.length ∧ ptr ∈ run.state.dstate.ptrs
  admitted : ∀ stcs : List StakeCredential, certs = stcs.map .stakeRegistration → stcs.Nodup →
    (∀ stc ∈ stcs, stc ∉ state.dstate.rewards) →
    (∀ i < stcs.length, ∀ ptr : CertPointer, ptr.At env.slot txIx i → ptr ∉ state.dstate.ptrs) →
    (checkCertificateList pr env 0 certs (startRun state env.slot txIx)).2 ≠ .err (.shelleyMA .pointerInUse)

/-- The pointer that a certificate after the first is checked with: that of the position before its own. -/
def previousPointer (before : List Certificate) : CertPointer := ⟨env.slot, txIx, asU32 (before.length - 1)⟩

/-- After the first certificate, a registration is only reached for a credential that is registered by then, or where
both its own pointer and the one before are taken. -/
def OnlyFirstRegisters : Prop :=
  ∀ before stc run, ReachesRegistration pr env certs state txIx before stc run → before ≠ [] →
    stc ∈ run.state.dstate.rewards ∨
      previousPointer env txIx before ∈ run.state.dstate.ptrs ∧
        ∃ ptr : CertPointer, ptr.At env.slot txIx before.length ∧ ptr ∈ run.state.dstate.ptrs

end Pointers

variable {certs : List Certificate} {state : CertState} {txIx : TransactionIndex}

theorem ReachesRegistration.ptr_eq {before : List Certificate} {stc : StakeCredential}
    (h : ReachesRegistration pr env certs state txIx before stc run) :
    run.ptr = if before = [] then ⟨env.slot, txIx, 0⟩ else previousPointer env txIx before := by
  rw [checkCertificateList_ptr h.2]
  split
  · rfl
  · rw [zero_add]
    rfl

theorem checkCertificate_registration (stc : StakeCredential) :
    (checkCertificate pr env run (.stakeRegistration stc)).1.state.dstate =
        (checkStakeRegistration stc run.ptr run.state.dstate).1 ∧
      (checkCertificate pr env run (.stakeRegistration stc)).2 =
        (checkStakeRegistration stc run.ptr run.state.dstate).2 := ⟨rfl, rfl⟩

theorem checkCertificate_registration_ok {stc : StakeCredential} (hreg : stc ∉ run.state.dstate.rewards)
    (hfree : run.ptr ∉ run.state.dstate.ptrs) :
    ∃ run', checkCertificate pr env run (.stakeRegistration stc) = (run', .ok ()) ∧
      run'.state.dstate.rewards = run.state.dstate.rewards.insert stc 0 ∧
      run'.state.dstate.ptrs = run.state.dstate.ptrs.insert run.ptr stc := by
  obtain ⟨hds, hr⟩ := @checkCertificate_registration pr env run stc
  have hok := checkStakeRegistration_ok.2 ⟨hreg, hfree, rfl⟩
  rw [hok] at hds hr
  exact ⟨_, Prod.ext rfl hr, congrArg DState.rewards hds, congrArg DState.ptrs hds⟩

theorem previousPointer_not_at {before : List Certificate} (h : before ≠ []) :
    ¬ (previousPointer env txIx before).At env.slot txIx before.length := by
  rintro ⟨-, -, hix⟩
  have hpos : 0 < before.length := List.length_pos_iff.2 h
  have hle : (asU32 (before.length - 1)).toNat ≤ before.length - 1 := by
    rw [asU32, UInt32.toNat_ofNat']
    exact Nat.mod_le _ _
  have hix' : (asU32 (before.length - 1)).toNat = before.length := hix
  omega

/-- Registrations go by their own positions exactly if only the first certificate registers anything. -/
theorem recordedByPosition_iff :
    RecordedByPosition pr env certs state txIx ↔ OnlyFirstRegisters pr env certs state txIx := by
  constructor
  · intro h before stc run hreach hne
    have hptr : run.ptr = previousPointer env txIx before := by rw [hreach.ptr_eq, if_neg hne]
    by_cases hreg : stc ∈ run.state.dstate.rewards
    · exact .inl hreg
    · by_cases hin : previousPointer env txIx before ∈ run.state.dstate.ptrs
      · refine .inr ⟨hin, h.refused before stc run hreach ?_⟩
        rw [(checkCertificate_registration stc).2]
        exact checkStakeRegistration_inUse.2 ⟨hreg, hptr ▸ hin⟩
      · -- the registration is accepted, under the pointer of the certificate before
        obtain ⟨run', hcert, -, hinsert⟩ := @checkCertificate_registration_ok pr env run stc hreg (hptr ▸ hin)
        obtain ⟨ptr, hat, hptrs⟩ := h.recorded before stc run run' hreach hcert
        have hmem : previousPointer env txIx before ∈ run.state.dstate.ptrs.insert ptr stc := by
          rw [← hptrs, hinsert, hptr]
          exact FinMap.mem_insert_iff.2 (.inl rfl)
        rcases FinMap.mem_insert_iff.1 hmem with heq | hold
        · exact absurd (heq ▸ hat) (previousPointer_not_at hne)
        · exact absurd hold hin
  · intro h
    refine ⟨?_, ?_, ?_⟩
    · intro before stc run run' hreach hcert
      obtain ⟨rfl, hr⟩ := Prod.mk.inj hcert
      obtain ⟨hreg, hfree, hds⟩ := checkStakeRegistration_ok.1 (Prod.ext rfl hr)
      by_cases hne : before = []
      · refine ⟨run.ptr, ?_, congrArg DState.ptrs hds⟩
        rw [hreach.ptr_eq, if_pos hne, hne]
        exact ⟨rfl, rfl, rfl⟩
      · have hptr : run.ptr = previousPointer env txIx before := by rw [hreach.ptr_eq, if_neg hne]
        rcases h before stc run hreach hne with hin | ⟨hin, -⟩
        · exact absurd hin hreg
        · exact absurd (hptr ▸ hin) hfree
    · intro before stc run hreach herr
      obtain ⟨hreg, hin⟩ := checkStakeRegistration_inUse.1 herr
      by_cases hne : before = []
      · refine ⟨run.ptr, ?_, hin⟩
        rw [hreach.ptr_eq, if_pos hne, hne]
        exact ⟨rfl, rfl, rfl⟩
      · rcases h before stc run hreach hne with hin' | ⟨-, hown⟩
        · exact absurd hin' hreg
        · exact hown
    · intro stcs hcerts hnodup hunreg hfree herr
      subst hcerts
      -- of two registrations the second would be reached for an unregistered credential and a free pointer
      cases stcs with
      | nil => cases herr
      | cons stc rest =>
        obtain ⟨run₁, hfirst, hrewards, hptrs⟩ :=
          @checkCertificate_registration_ok pr env (startRun state env.slot txIx) stc
          (hunreg stc List.mem_cons_self) (hfree 0 (Nat.succ_pos _) ⟨env.slot, txIx, 0⟩ ⟨rfl, rfl, rfl⟩)
        have hone : checkCertificateList pr env 0 [.stakeRegistration stc] (startRun state env.slot txIx) =
            ({ run₁ with ptr := { run₁.ptr with certIx := asU32 0 } }, .ok ()) := by
          rw [checkCertificateList, hfirst]
          rfl
        cases rest with
        | nil =>
          rw [List.map_cons, List.map_nil, hone] at herr
          cases herr
        | cons stc' rest =>
          have hreach : ReachesRegistration pr env ((stc :: stc' :: rest).map .stakeRegistration) state txIx
              [.stakeRegistration stc] stc' { run₁ with ptr := { run₁.ptr with certIx := asU32 0 } } :=
            ⟨⟨_, rfl⟩, hone⟩
          rcases h _ _ _ hreach (List.cons_ne_nil _ _) with hin | ⟨-, ptr, hat, hin⟩
          · rw [hrewards] at hin
            rcases FinMap.mem_insert_iff.1 hin with rfl | hin
            · exact absurd List.mem_cons_self (List.nodup_cons.1 hnodup).1
            · exact hunreg stc' (List.mem_cons_of_mem _ List.mem_cons_self) hin
          · rw [hptrs] at hin
            rcases FinMap.mem_insert_iff.1 hin with rfl | hin
            · obtain ⟨-, -, hix⟩ := hat
              cases hix
            · exact hfree 1 (by simp) ptr hat hin

/-- Two registrations of new credentials: the second is refused for the pointer of the first. -/
theorem not_recordedByPosition :
    ¬ ∀ pr env certs state txIx, RecordedByPosition pr env certs state txIx := by
  intro h
  have hadmitted := (h .debug ⟨⟨0, 0⟩, 5000000, 0, ⟨0, 0, 0, 0, 0, 0, 0, 0⟩⟩
    [.stakeRegistration (.addrKeyhash 1), .stakeRegistration (.addrKeyhash 2)] emptyCertState 0).admitted
    [.addrKeyhash 1, .addrKeyhash 2] rfl (by decide) (by simp [emptyCertState]) (by simp [emptyCertState])
  exact hadmitted (by rfl)

end ShelleyMa
end Pallas
