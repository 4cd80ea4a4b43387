import Pallas.Validate.Byron
import Pallas.Validate.ShelleyMa
import Pallas.Validate.Alonzo
import Pallas.Validate.Babbage
import Pallas.Validate.Conway

/-!
# Phase-1 validation of one transaction and of a sequence (`pallas-validate/src/phase1/mod.rs`)

`validateTx` picks the validator by the protocol parameters of the environment. `validateTxs` runs it
over a list of transactions with a copy of the certificate state, which replaces the caller's state
only when all of them pass. The UTxO map is the caller's throughout.
-/

namespace Pallas

def validateTx (pr : Profile) (c : Crypto) (metx : MultiEraTx) (txix : TransactionIndex) (env : Environment)
    (utxos : UTxOs) (certState : CertState) : CertState × ValidationResult :=
  match env.protParams, env.acnt with
  | .byron bpp, none => (certState, match metx with
    | .byron mtxp => Byron.validateByronTx pr c mtxp utxos bpp env.protMagic
    | _ => .err .txAndProtParamsDiffer)
  | .byron _, some _ => (certState, .err .pParamsByronDoesntNeedAccountState)
  | .shelley spp, some acnt => match metx with
    | .alonzoCompatible mtx era =>
      if era = .shelley ∨ era = .allegra ∨ era = .mary then
        ShelleyMa.validateShelleyMaTx pr c mtx txix utxos certState spp acnt env.blockSlot env.networkId era
      else (certState, .err .txAndProtParamsDiffer)
    | _ => (certState, .err .txAndProtParamsDiffer)
  | .alonzo app, _ => (certState, match metx with
    | .alonzoCompatible mtx .alonzo =>
      Alonzo.validateAlonzoTx pr c mtx utxos app env.blockSlot env.networkId
    | _ => .err .txAndProtParamsDiffer)
  | .babbage bpp, _ => (certState, match metx with
    | .babbage mtx =>
      Babbage.validateBabbageTx pr c mtx utxos bpp env.blockSlot env.protMagic env.networkId
    | _ => .err .txAndProtParamsDiffer)
  | .conway cpp, _ => (certState, match metx with
    | .conway mtx => Conway.validateConwayTx pr c mtx utxos cpp env.blockSlot env.networkId
    | _ => .err .txAndProtParamsDiffer)
  | .shelley _, none => (certState, .err .envMissingAccountState)

/-- The loop of `validate_txs` over the working copy of the state; an index beyond `u32` panics. -/
def validateTxsFrom (pr : Profile) (c : Crypto) (env : Environment) (utxos : UTxOs) :
    (txix : ℕ) → List MultiEraTx → CertState → Outcome ValidationError CertState
  | _, [], delta => .ok delta
  | txix, metx :: metxs, delta =>
    if txix < 2 ^ 32 then
      match validateTx pr c metx (asU32 txix) env utxos delta with
      | (delta, .ok ()) => validateTxsFrom pr c env utxos (txix + 1) metxs delta
      | (_, .err e) => .err e
      | (_, .panic) => .panic
    else .panic

def validateTxs (pr : Profile) (c : Crypto) (metxs : List MultiEraTx) (env : Environment) (utxos : UTxOs)
    (certState : CertState) : CertState × ValidationResult :=
  match validateTxsFrom pr c env utxos 0 metxs certState with
  | .ok delta => (delta, .ok ())
  | .err e => (certState, .err e)
  | .panic => (certState, .panic)

end Pallas
