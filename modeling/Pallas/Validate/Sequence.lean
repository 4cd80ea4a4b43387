import Pallas.Lib.Spending
import Pallas.Traverse.UtxoEffects
import Pallas.Validate.Checklists

/-!
# Sequences of transactions and double spending

`validate_txs` stands for the LEDGERS rule, in which every transaction spends entries that are still
unspent after the transactions before it: a `Spending.Run` over the entries of the UTxO map. The code
hands one and the same map to every transaction, and compares no input with another. So an accepted list
is such a run where no lookup can meet what has been spent: no two transactions spend outputs of one and
the same transaction, and each lists its inputs in ascending order (`SpendApart`).
-/

namespace Pallas
open Outcome

/-- The entries that a transaction spends as regular inputs. -/
def spentInputs : MultiEraTx → List MultiEraInput
  | .alonzoCompatible tx _ => tx.transactionBody.inner.inputs.map .alonzoCompatible
  | .babbage tx => tx.transactionBody.inner.inputs.map .alonzoCompatible
  | .byron tx => tx.transaction.inner.inputs.map .byron
  | .conway tx => tx.transactionBody.inner.inputs.map .alonzoCompatible

/-- The entries of a UTxO map. -/
def entries (utxos : UTxOs) : Set MultiEraInput := {i | (utxos i).isSome}

/-- The LEDGERS rule on regular inputs: no entry is spent by two transactions or twice by one, and the
transactions, one after the other, spend what is unspent. -/
structure SpendsOnce (utxos : UTxOs) (txs : List MultiEraTx) : Prop where
  across : txs.Pairwise fun tx tx' => ∀ i ∈ spentInputs tx, i ∉ spentInputs tx'
  within : ∀ tx ∈ txs, (spentInputs tx).Nodup
  run : ∃ rest, Spending.Run (entries utxos) (txs.map spentInputs) rest

/-! ### One transaction -/

section
variable {pr : Profile} {c : Crypto} {utxos : UTxOs}

theorem mem_entries_of_checkInsInUtxos {e : ValidationError} {inputs : List TransactionInput}
    (h : checkInsInUtxos e inputs utxos = .ok ()) : ∀ i ∈ inputs.map .alonzoCompatible, i ∈ entries utxos := by
  intro i hi
  obtain ⟨input, hinput, rfl⟩ := List.mem_map.1 hi
  exact ensure_eq_ok.1 (forEach_eq_ok.1 h input hinput)

theorem validateTx_entries {tx : MultiEraTx} {txix : TransactionIndex} {env : Environment} {state state' : CertState}
    (h : validateTx pr c tx txix env utxos state = (state', .ok ())) : ∀ i ∈ spentInputs tx, i ∈ entries utxos := by
  unfold validateTx at h
  split at h
  · -- Byron
    have hr := (Prod.mk.inj h).2
    split at hr
    · next mtxp =>
      simp only [Byron.validateByronTx, seq_eq_ok] at hr
      intro i hi
      obtain ⟨input, hinput, rfl⟩ := List.mem_map.1 hi
      exact ensure_eq_ok.1 (forEach_eq_ok.1 hr.2.2.1 input hinput)
    · cases hr
  · cases (Prod.mk.inj h).2
  · -- Shelley, Allegra, Mary
    split at h
    · split at h
      · unfold ShelleyMa.validateShelleyMaTx at h
        split at h
        · next hbefore =>
          simp only [ShelleyMa.checkBeforeCertificates, seq_eq_ok] at hbefore
          exact mem_entries_of_checkInsInUtxos hbefore.2.1
        · next hne => exact absurd (Prod.mk.inj h).2 hne
      · cases (Prod.mk.inj h).2
    · cases (Prod.mk.inj h).2
  · -- Alonzo
    have hr := (Prod.mk.inj h).2
    split at hr
    · next mtx =>
      have hins := Alonzo.validateAlonzoTx_ok hr
        (Alonzo.checkInsAndCollateralInUtxos mtx.transactionBody.inner utxos) (by simp [Alonzo.checks])
      exact mem_entries_of_checkInsInUtxos (seq_eq_ok.1 hins).1
    · cases hr
  · -- Babbage
    have hr := (Prod.mk.inj h).2
    split at hr
    · next mtx =>
      have hins := Babbage.validateBabbageTx_ok hr
        (Babbage.checkAllInsInUtxos mtx.transactionBody.inner utxos) (by simp [Babbage.checks])
      exact mem_entries_of_checkInsInUtxos (seq_eq_ok.1 hins).1
    · cases hr
  · -- Conway
    have hr := (Prod.mk.inj h).2
    split at hr
    · next mtx =>
      have hins := Conway.validateConwayTx_ok hr
        (Conway.checkAllInsInUtxos mtx.transactionBody.inner utxos) (by simp [Conway.checks])
      exact mem_entries_of_checkInsInUtxos (seq_eq_ok.1 hins).1
    · cases hr
  · cases (Prod.mk.inj h).2

/-! ### A sequence -/

theorem validateTxsFrom_entries {env : Environment} {txs : List MultiEraTx} {txix : ℕ} {state state' : CertState}
    (h : validateTxsFrom pr c env utxos txix txs state = .ok state') :
    ∀ i ∈ (txs.map spentInputs).flatten, i ∈ entries utxos := by
  induction txs generalizing txix state with
  | nil => simp
  | cons tx txs ih =>
    unfold validateTxsFrom at h
    split at h
    · split at h
      · next delta hstep =>
        intro i hi
        rcases List.mem_append.1 hi with hi | hi
        · exact validateTx_entries hstep i hi
        · exact ih h i hi
      · cases h
      · cases h
    · cases h

theorem spendsOnce_iff {txs : List MultiEraTx} (h : ∀ i ∈ (txs.map spentInputs).flatten, i ∈ entries utxos) :
    SpendsOnce utxos txs ↔ (txs.flatMap spentInputs).Nodup := by
  have hflat : txs.flatMap spentInputs = (txs.map spentInputs).flatten := List.flatMap_def
  constructor
  · rintro ⟨-, -, rest, hrun⟩
    rw [hflat]
    exact hrun.nodup
  · intro hnodup
    obtain ⟨hwithin, hacross⟩ := List.nodup_flatMap.1 hnodup
    refine ⟨hacross.imp fun hdisj i hi hi' => hdisj hi hi', hwithin, ?_⟩
    exact Spending.exists_run_iff.2 ⟨hflat ▸ hnodup, h⟩

end

/-- The key of the one is below that of the other. -/
def Precedes (i j : MultiEraInput) : Prop :=
  ∃ a b, i.lexicographicalKey = .ok a ∧ j.lexicographicalKey = .ok b ∧ keyOrder a < keyOrder b

/-- No two of the transactions spend outputs of one and the same transaction, and each lists its inputs as in the canonical
encoding of a set: in strictly ascending order. -/
structure SpendApart (txs : List MultiEraTx) : Prop where
  producers : txs.Pairwise fun tx tx' => ∀ i ∈ spentInputs tx, ∀ j ∈ spentInputs tx', i.hash ≠ j.hash
  ascending : ∀ tx ∈ txs, (spentInputs tx).Pairwise Precedes

theorem Precedes.ne {i j : MultiEraInput} (h : Precedes i j) : i ≠ j := by
  rintro rfl
  obtain ⟨a, b, ha, hb, hlt⟩ := h
  obtain rfl := Outcome.ok.inj (ha.symm.trans hb)
  exact lt_irrefl _ hlt

theorem SpendApart.nodup {txs : List MultiEraTx} (h : SpendApart txs) : (txs.flatMap spentInputs).Nodup := by
  refine List.nodup_flatMap.2 ⟨fun tx htx => (h.ascending tx htx).imp Precedes.ne, ?_⟩
  refine h.producers.imp fun hne i hi hi' => hne i hi i hi' rfl

/-- An accepted list of such transactions follows the LEDGERS rule. -/
theorem validateTxs_spendsOnce {pr : Profile} {c : Crypto} {txs : List MultiEraTx} {env : Environment}
    {utxos : UTxOs} {state state' : CertState} (h : validateTxs pr c txs env utxos state = (state', .ok ()))
    (hapart : SpendApart txs) : SpendsOnce utxos txs := by
  unfold validateTxs at h
  split at h
  · next hrun => exact (spendsOnce_iff (validateTxsFrom_entries hrun)).2 hapart.nodup
  · cases (Prod.mk.inj h).2
  · cases (Prod.mk.inj h).2

/-! ### The same transfer twice -/

/-- The transfer with its witness, as a Conway transaction. -/
def signedTransfer : MultiEraTx := .conway (Conway.transferTx
  ⟨Cbor.bigEndian 40 0xa1008182582003a107bff3ce10be1d70dd18e74bc09967e4d6309ba50d5f1ddc8664125531b85840 ++
      Cbor.bigEndian 40 0x7af785c13e2e5070f7358bba51d1138810841815f60e95724191b0891433b3d26a97eedb59eafc00 ++
      Cbor.bigEndian 24 0xc2369104f6248ede79d019426029e1c4543bbc1085e77706,
    { vkeywitness := some [⟨sampleVkey, transferSignature⟩] }, by decide⟩)

/-- The entry it spends, of 10 ada. -/
def transferUtxos : UTxOs := singleUtxo (.conway (.legacy ⟨sampleAddress, .coin 10000000, none⟩))

/-- The main network in the Conway era. -/
def conwayEnv : Environment :=
  { protParams := .conway
      { minfeeA := 44, minfeeB := 155381, maxTransactionSize := 16384, adaPerUtxoByte := 4310,
        maxTxExUnits := ⟨14000000, 10000000000⟩, maxValueSize := 5000, collateralPercentage := 150,
        maxCollateralInputs := 3, costModelsForScriptLanguages := ⟨none, none, none⟩ },
    protMagic := 764824073, blockSlot := 133660855, networkId := 1, acnt := none }

/-- The transfer is accepted a second time, with its input already spent. -/
theorem signedTransfer_accepted_twice :
    (∀ pr, validateTxs pr transferCrypto [signedTransfer, signedTransfer] conwayEnv transferUtxos emptyCertState =
      (emptyCertState, .ok ())) ∧
    ¬ SpendsOnce transferUtxos [signedTransfer, signedTransfer] := by
  refine ⟨fun pr => by cases pr <;> decide +kernel, fun h => ?_⟩
  have hacross := List.rel_of_pairwise_cons h.across (List.mem_singleton_self signedTransfer)
  exact hacross (.alonzoCompatible ⟨0, 0⟩) (by decide) (by decide)

/-- The bytes of the body of another transfer. -/
def otherTransferBytes : Bytes :=
  Cbor.bigEndian 40 0xa3008182582000000000000000000000000000000000000000000000000000000000000000010001 ++
    Cbor.bigEndian 40 0x8182581d6127e38d0e19e3434e33fbd001d3fe04b5b76763f88acd625e0d770b431a00958940021a ++
    Cbor.bigEndian 4 0x00030d40

/-- The hash of the bytes. -/
def otherTransferHash : Hash 32 := 0x1eaffb2750adad92f08251e8dd513d9524d73ae5043c69cec0f80c25c44b78e2

/-- The signature of the hash. -/
def otherTransferSignature : Bytes :=
  Cbor.bigEndian 40 0x653904f3462fd485caa9a62e2c101648fbba3438ff9540dbc4eed95f9fc715a2922f18e6b8ff1570 ++
    Cbor.bigEndian 24 0xdceb330110d184bf22223fe6f11a8d63d1302f53bf0d4405

/-- The transfer of the output of another transaction. -/
def otherTransfer : MultiEraTx := .conway
  { transactionBody := ⟨otherTransferBytes,
      { inputs := [⟨1, 0⟩], outputs := [.legacy transferOutput], fee := 200000 }, by decide⟩
    transactionWitnessSet := ⟨Cbor.bigEndian 40
        0xa1008182582003a107bff3ce10be1d70dd18e74bc09967e4d6309ba50d5f1ddc8664125531b85840 ++ otherTransferSignature,
      { vkeywitness := some [⟨sampleVkey, otherTransferSignature⟩] }, by decide⟩
    success := true
    auxiliaryData := .null }

/-- The primitives on both bodies. -/
def transfersCrypto : Crypto :=
  .ofTables [(sampleVkey, sampleKeyHash)] [(transferBytes, transferHash), (otherTransferBytes, otherTransferHash)] []
    [(sampleVkey, Hash.toBytes transferHash, transferSignature),
      (sampleVkey, Hash.toBytes otherTransferHash, otherTransferSignature)]

/-- Two entries of 10 ada. -/
def transfersUtxos : UTxOs := fun i =>
  if i = .alonzoCompatible ⟨0, 0⟩ ∨ i = .alonzoCompatible ⟨1, 0⟩ then
    some (.conway (.legacy ⟨sampleAddress, .coin 10000000, none⟩))
  else none

theorem transfers_spendOnce :
    validateTxs .debug transfersCrypto [signedTransfer, otherTransfer] conwayEnv transfersUtxos emptyCertState =
      (emptyCertState, .ok ()) ∧ SpendsOnce transfersUtxos [signedTransfer, otherTransfer] := by
  have hok : validateTxs .debug transfersCrypto [signedTransfer, otherTransfer] conwayEnv transfersUtxos
      emptyCertState = (emptyCertState, .ok ()) := by decide +kernel
  have hsigned : spentInputs signedTransfer = [.alonzoCompatible ⟨0, 0⟩] := rfl
  have hother : spentInputs otherTransfer = [.alonzoCompatible ⟨1, 0⟩] := rfl
  refine ⟨hok, validateTxs_spendsOnce hok ⟨?_, ?_⟩⟩
  · simp [hsigned, hother, MultiEraInput.hash]
  · simp [hsigned, hother]

end Pallas
