import Pallas.Validate.Phase1

/-!
# The validators as lists of checks

From Alonzo on, a validator is a sequence of checks that share no state. `checks` lists them for each
era, so that what an accepted transaction has passed, and where a failing one stopped, are statements
about a list.
-/

namespace Pallas

/-- The checks of `validate_alonzo_tx`. -/
def Alonzo.checks (pr : Profile) (c : Crypto) (mtx : Alonzo.Tx) (utxos : UTxOs) (pps : AlonzoProtParams)
    (slot : UInt64) (networkId : UInt8) : List ValidationResult :=
  let body := mtx.transactionBody.inner
  let wits := mtx.transactionWitnessSet.inner
  let size := getAlonzoCompTxSize mtx
  [check (.alonzo .txInsEmpty) (!body.inputs.isEmpty), Alonzo.checkInsAndCollateralInUtxos body utxos,
    Alonzo.checkTxValidityInterval body slot, Alonzo.checkFee pr body size mtx utxos pps,
    Alonzo.checkPreservationOfValue pr body utxos, Alonzo.checkMinLovelace pr body pps,
    Alonzo.checkOutputValSize body pps, Alonzo.checkNetworkId body networkId, Alonzo.checkTxSize size pps,
    Alonzo.checkTxExUnits pr mtx pps, Alonzo.checkWitnessSet c mtx utxos,
    checkAuxiliaryData c (.alonzo .metadataHash) (body.auxiliaryDataHash.map Hash.toBytes) mtx.auxiliaryData,
    Alonzo.checkScriptDataHash c body wits, Alonzo.checkMinting c body wits]

/-- The checks of `validate_babbage_tx`. -/
def Babbage.checks (pr : Profile) (c : Crypto) (mtx : Babbage.Tx) (utxos : UTxOs) (pps : BabbageProtParams)
    (slot : UInt64) (networkMagic : UInt32) (networkId : UInt8) : List ValidationResult :=
  let body := mtx.transactionBody.inner
  let size := asU32 (postAlonzoTxLength mtx.transactionBody.rawCbor.length mtx.transactionWitnessSet.rawCbor.length
    mtx.auxiliaryData)
  [check (.postAlonzo .txInsEmpty) (!body.inputs.isEmpty), Babbage.checkAllInsInUtxos body utxos,
    Babbage.checkTxValidityInterval body slot, Babbage.checkFee pr body size mtx utxos pps,
    Babbage.checkPreservationOfValue pr body utxos, Babbage.checkMinLovelace pr body pps,
    Babbage.checkOutputValSize body pps, Babbage.checkNetworkId body networkId, Babbage.checkTxSize size pps,
    Babbage.checkTxExUnits pr mtx pps, Babbage.checkMinting c body mtx utxos, Babbage.checkWitnessSet c mtx utxos,
    Babbage.checkLanguages mtx utxos networkMagic networkId slot,
    checkAuxiliaryData c (.postAlonzo .metadataHash) body.auxiliaryDataHash mtx.auxiliaryData,
    Babbage.checkScriptDataHash c mtx utxos networkMagic networkId slot]

/-- The checks of `validate_conway_tx`. -/
def Conway.checks (pr : Profile) (c : Crypto) (mtx : Conway.Tx) (utxos : UTxOs) (pps : ConwayProtParams)
    (slot : UInt64) (networkId : UInt8) : List ValidationResult :=
  let body := mtx.transactionBody.inner
  let size := asU32 (postAlonzoTxLength mtx.transactionBody.rawCbor.length mtx.transactionWitnessSet.rawCbor.length
    mtx.auxiliaryData)
  [check (.postAlonzo .txInsEmpty) (!body.inputs.isEmpty), Conway.checkAllInsInUtxos body utxos,
    Conway.checkTxValidityInterval body slot, Conway.checkFee pr body size mtx utxos pps,
    Conway.checkPreservationOfValue pr body utxos, Conway.checkMinLovelace pr body pps,
    Conway.checkOutputValSize body pps, Conway.checkNetworkId body networkId, Conway.checkTxSize size pps,
    Conway.checkTxExUnits mtx pps, Conway.checkMinting c body mtx utxos, Conway.checkWitnessSet c mtx utxos,
    Conway.checkLanguages mtx utxos pps,
    checkAuxiliaryData c (.postAlonzo .metadataHash) (body.auxiliaryDataHash.map Hash.toBytes) mtx.auxiliaryData,
    Conway.checkScriptDataHash c body mtx utxos pps]

section
variable {pr : Profile} {c : Crypto} {utxos : UTxOs} {slot : UInt64} {networkMagic : UInt32} {networkId : UInt8}

theorem Alonzo.validateAlonzoTx_eq {mtx : Alonzo.Tx} {pps : AlonzoProtParams} :
    Alonzo.validateAlonzoTx pr c mtx utxos pps slot networkId =
      Outcome.sequence (Alonzo.checks pr c mtx utxos pps slot networkId) := by
  simp only [Alonzo.checks, Outcome.sequence_cons, Outcome.sequence_nil, Outcome.bind_ok_unit]
  rfl

theorem Babbage.validateBabbageTx_eq {mtx : Babbage.Tx} {pps : BabbageProtParams} :
    Babbage.validateBabbageTx pr c mtx utxos pps slot networkMagic networkId =
      Outcome.sequence (Babbage.checks pr c mtx utxos pps slot networkMagic networkId) := by
  simp only [Babbage.checks, Outcome.sequence_cons, Outcome.sequence_nil, Outcome.bind_ok_unit]
  rfl

theorem Conway.validateConwayTx_eq {mtx : Conway.Tx} {pps : ConwayProtParams} :
    Conway.validateConwayTx pr c mtx utxos pps slot networkId =
      Outcome.sequence (Conway.checks pr c mtx utxos pps slot networkId) := by
  simp only [Conway.checks, Outcome.sequence_cons, Outcome.sequence_nil, Outcome.bind_ok_unit]
  rfl

theorem Alonzo.validateAlonzoTx_ok {mtx : Alonzo.Tx} {pps : AlonzoProtParams}
    (h : Alonzo.validateAlonzoTx pr c mtx utxos pps slot networkId = .ok ()) :
    ∀ r ∈ Alonzo.checks pr c mtx utxos pps slot networkId, r = .ok () := by
  rwa [Alonzo.validateAlonzoTx_eq, Outcome.sequence_eq_ok] at h

theorem Babbage.validateBabbageTx_ok {mtx : Babbage.Tx} {pps : BabbageProtParams}
    (h : Babbage.validateBabbageTx pr c mtx utxos pps slot networkMagic networkId = .ok ()) :
    ∀ r ∈ Babbage.checks pr c mtx utxos pps slot networkMagic networkId, r = .ok () := by
  rwa [Babbage.validateBabbageTx_eq, Outcome.sequence_eq_ok] at h

theorem Conway.validateConwayTx_ok {mtx : Conway.Tx} {pps : ConwayProtParams}
    (h : Conway.validateConwayTx pr c mtx utxos pps slot networkId = .ok ()) :
    ∀ r ∈ Conway.checks pr c mtx utxos pps slot networkId, r = .ok () := by
  rwa [Conway.validateConwayTx_eq, Outcome.sequence_eq_ok] at h

end
end Pallas
