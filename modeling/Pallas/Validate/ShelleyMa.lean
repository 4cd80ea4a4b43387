import Pallas.Validate.Checks

/-!
# Shelley, Allegra and Mary transaction validation (`pallas-validate/src/phase1/shelley_ma.rs`)

The checks in the order of the source, ending in `validateShelleyMaTx`. The certificates of a
transaction update the caller's `CertState` as they are processed. What the source does through
`&mut` is a pair here: the state a function leaves behind, next to the result it returns. The state is
there for every result, so that what an error leaves behind can be stated.

The three deposit counters are natural numbers. In the source they are `u64`, counted up once for a
certificate, and a vector has fewer than `2 ^ 63` entries; the products with them are `u64` here too.
-/

namespace Pallas.ShelleyMa
open Std Alonzo

/-! ### Slots and epochs (`pallas-traverse/src/time.rs`, `wellknown.rs`) -/

/-- The fields of `GenesisValues` that the conversions read. -/
structure GenesisValues where
  byronEpochLength : UInt32
  byronSlotLength : UInt32
  shelleyEpochLength : UInt32
  shelleySlotLength : UInt32
  shelleyKnownSlot : UInt64

/-- `GenesisValues::mainnet`, which certificates are checked with on every network. -/
def mainnet : GenesisValues := ⟨432000, 20, 432000, 1, 4492800⟩

/-- The epoch of `compute_era_epoch`. -/
def computeEraEpoch (pr : Profile) (eraSlot : Slot) (slotLength epochLength : UInt32) :
    Outcome ValidationError Epoch := do
  let time : UInt64 ← MachineInt.mul pr eraSlot slotLength.toUInt64
  .ok (time / epochLength.toUInt64)

/-- `compute_absolute_slot_within_era`, for the first slot of an epoch. -/
def computeAbsoluteSlotWithinEra (pr : Profile) (epoch : Epoch) (epochLength slotLength : UInt32) :
    Outcome ValidationError Slot := do
  let time : UInt64 ← MachineInt.mul pr epoch epochLength.toUInt64
  MachineInt.add pr (time / slotLength.toUInt64) 0

def shelleyStartEpoch (pr : Profile) (g : GenesisValues) : Outcome ValidationError Epoch :=
  computeEraEpoch pr g.shelleyKnownSlot g.byronSlotLength g.byronEpochLength

/-- `to_epoch`, the epoch of `absolute_slot_to_relative`. -/
def toEpoch (pr : Profile) (g : GenesisValues) (slot : Slot) : Outcome ValidationError Epoch :=
  if slot < g.shelleyKnownSlot then computeEraEpoch pr slot g.byronSlotLength g.byronEpochLength
  else do
    let eraSlot ← MachineInt.sub pr slot g.shelleyKnownSlot
    let eraEpoch ← computeEraEpoch pr eraSlot g.shelleySlotLength g.shelleyEpochLength
    let start ← shelleyStartEpoch pr g
    MachineInt.add pr start eraEpoch

/-- `first_slot`, that is `relative_slot_to_absolute(epoch, 0)`. -/
def firstSlot (pr : Profile) (g : GenesisValues) (epoch : Epoch) : Outcome ValidationError Slot := do
  let start ← shelleyStartEpoch pr g
  if epoch < start then computeAbsoluteSlotWithinEra pr epoch g.byronEpochLength g.byronSlotLength
  else
    let byronSlots ← computeAbsoluteSlotWithinEra pr start g.byronEpochLength g.byronSlotLength
    let epochs ← MachineInt.sub pr epoch start
    let shelleySlots ← computeAbsoluteSlotWithinEra pr epochs g.shelleyEpochLength g.shelleySlotLength
    MachineInt.add pr byronSlots shelleySlots

/-- `stab_win` of `validate_shelley_ma_tx`. -/
def stabWin : Slot := 129600

/-! ### Certificates -/

def insertOrErr {K V : Type} [Ord K] [TransOrd K] (m : FinMap K V) (k : K) (v : V) (e : ValidationError) :
    FinMap K V × ValidationResult :=
  if m.contains k then (m, .err e) else (m.insert k v, .ok ())

/-- `check_stake_registration`: the reward account is entered before the pointer is looked at. -/
def checkStakeRegistration (stc : StakeCredential) (ptr : CertPointer) (ds : DState) :
    DState × ValidationResult :=
  match insertOrErr ds.rewards stc 0 (.shelleyMA .keyAlreadyRegistered) with
  | (rewards, .ok ()) =>
    let (ptrs, r) := insertOrErr ds.ptrs ptr stc (.shelleyMA .pointerInUse)
    ({ ds with rewards, ptrs }, r)
  | (rewards, r) => ({ ds with rewards }, r)

def checkStakeDeregistration (stc : StakeCredential) (ds : DState) : DState × ValidationResult :=
  match ds.rewards[stc]? with
  | none => (ds, .err (.shelleyMA .keyNotRegistered))
  | some n =>
    if n = 0 then
      ({ ds with
          ptrs := ds.ptrs.filter fun _ v => v ≠ stc
          delegations := ds.delegations.erase stc
          rewards := ds.rewards.erase stc }, .ok ())
    else (ds, .err (.shelleyMA .rewardsNotNull))

def checkStakeDelegation (stc : StakeCredential) (pool : PoolKeyhash) (ds : DState) (ps : PState) :
    DState × ValidationResult :=
  if !ps.poolParams.contains pool then (ds, .err (.shelleyMA .poolNotRegistered))
  else if ds.rewards.contains stc then
    ({ ds with delegations := ds.delegations.insert stc pool }, .ok ())
  else (ds, .err (.shelleyMA .keyNotRegistered))

def checkPoolRegOrUpdate (pool : PoolKeyhash) (params : PoolParam) (minPoolCost : Coin) (ps : PState) :
    PState × ValidationResult :=
  if params.cost < minPoolCost then (ps, .err (.shelleyMA .poolCostBelowMin))
  else if ps.poolParams.contains pool then
    ({ ps with
        futPoolParams := ps.futPoolParams.insert pool params
        retiring := ps.retiring.erase pool }, .ok ())
  else ({ ps with poolParams := ps.poolParams.insert pool params }, .ok ())

/-- `check_pool_retirement`; the `&` of the source evaluates both comparisons. -/
def checkPoolRetirement (pr : Profile) (pool : PoolKeyhash) (repoch cepoch emax : Epoch) (ps : PState) :
    PState × ValidationResult :=
  if !ps.poolParams.contains pool then (ps, .err (.shelleyMA .poolNotRegistered))
  else match (MachineInt.add pr cepoch emax : Outcome ValidationError Epoch) with
    | .ok last =>
      if cepoch < repoch ∧ repoch ≤ last then
        ({ ps with retiring := ps.retiring.insert pool repoch }, .ok ())
      else (ps, .err (.shelleyMA .poolNotRegistered))
    | .err e => (ps, .err e)
    | .panic => (ps, .panic)

/-- The delegations of other genesis keys, current and future. -/
def otherDelegations (gkh : Genesishash) (ds : DState) : List (GenesisDelegateHash × VrfKeyhash) :=
  (ds.genDelegs.toList.filter fun kv => kv.1 ≠ gkh).map Prod.snd ++
    (ds.futGenDelegs.toList.filter fun kv => kv.1.genesishash ≠ gkh).map Prod.snd

def checkGenesisKeyDelegation (pr : Profile) (gkh : Genesishash) (dkh : GenesisDelegateHash)
    (vrf : VrfKeyhash) (slot : Slot) (ds : DState) : DState × ValidationResult :=
  let others := otherDelegations gkh ds
  if (others.map Prod.fst).contains dkh || (others.map Prod.snd).contains vrf then
    (ds, .err (.shelleyMA .duplicateGenesisDelegate))
  else if !ds.genDelegs.contains gkh then (ds, .err (.shelleyMA .genesisKeyNotInMapping))
  else match (MachineInt.add pr slot stabWin : Outcome ValidationError Slot) with
    | .ok genSlot => ({ ds with futGenDelegs := ds.futGenDelegs.insert ⟨genSlot, gkh⟩ (dkh, vrf) }, .ok ())
    | .err e => (ds, .err e)
    | .panic => (ds, .panic)

/-- The last slot at which `check_mir` accepts, plus one. -/
def mirDeadline (pr : Profile) (slot : Slot) : Outcome ValidationError Slot := do
  let epoch ← toEpoch pr mainnet slot
  let next : Epoch ← MachineInt.add pr epoch 1
  let first ← firstSlot pr mainnet next
  MachineInt.sub pr first stabWin

/-- `combined` in `check_mir`: the new credits, overwritten by those already in the pot. -/
def combinedRewards (target : InstantaneousRewardTarget) (irPot : FinMap StakeCredential Coin) :
    FinMap StakeCredential Coin :=
  match target with
  | .stakeCredentials credits => (credits.map fun _ n => MachineInt.cast n).insertMany irPot.toList
  | .otherAccountingPot _ => ∅

/-- `combined.iter().map(|kv| kv.1).sum::<u64>()`. -/
def sumRewards (pr : Profile) (rewards : FinMap StakeCredential Coin) : Outcome ValidationError Coin :=
  Outcome.fold (fun sum kv => MachineInt.add pr sum kv.2) 0 rewards.toList

/-- The comparison of `check_mir` with the deadline and with the pot. -/
def checkMirSums (pr : Profile) (slot : Slot) (combined : FinMap StakeCredential Coin) (pot : Coin) :
    ValidationResult := do
  let deadline ← mirDeadline pr slot
  check (.shelleyMA .mirCertificateTooLateinEpoch) (slot < deadline)
  let sum ← sumRewards pr combined
  check (.shelleyMA .insufficientForInstantaneousRewards) (sum ≤ pot)

/-- `check_mir`. In both cases the source puts the old rewards of the certificate's pot into the component
of the other pot too: `(combined, ir_reserves)` and `(ir_treasury, combined)`. -/
def checkMir (pr : Profile) (mir : MoveInstantaneousReward) (slot : Slot) (acnt : AccountState) (ds : DState) :
    DState × ValidationResult :=
  let (pot, irPot) := match mir.source with
    | .reserves => (acnt.reserves, ds.instRewards.1)
    | .treasury => (acnt.treasury, ds.instRewards.2)
  let combined := combinedRewards mir.target irPot
  match checkMirSums pr slot combined pot with
  | .ok () =>
    let instRewards := match mir.source with
      | .reserves => (combined, ds.instRewards.1)
      | .treasury => (ds.instRewards.2, combined)
    ({ ds with instRewards }, .ok ())
  | r => (ds, r)

/-- The variables that `check_certificates` updates. -/
structure CertRun where
  state : CertState
  stkDepCount : ℕ
  stkRefundCount : ℕ
  poolCount : ℕ
  ptr : CertPointer

/-- What `check_certificates` reads. -/
structure CertEnv where
  acnt : AccountState
  slot : Slot
  cepoch : Epoch
  pps : ShelleyProtParams

namespace CertRun

/-- The run with another delegation state. -/
def withDstate (run : CertRun) (ds : DState) : CertRun := { run with state := { run.state with dstate := ds } }

/-- The run with another pool state. -/
def withPstate (run : CertRun) (ps : PState) : CertRun := { run with state := { run.state with pstate := ps } }

end CertRun

/-- One certificate of `check_certificates`. A registration is counted before it is checked, a
deregistration after. -/
def checkCertificate (pr : Profile) (env : CertEnv) (run : CertRun) :
    Certificate → CertRun × ValidationResult
  | .stakeRegistration stc =>
    let (ds, r) := checkStakeRegistration stc run.ptr run.state.dstate
    ({ run.withDstate ds with stkDepCount := run.stkDepCount + 1 }, r)
  | .stakeDeregistration stc =>
    match checkStakeDeregistration stc run.state.dstate with
    | (ds, .ok ()) => ({ run.withDstate ds with stkRefundCount := run.stkRefundCount + 1 }, .ok ())
    | (ds, r) => (run.withDstate ds, r)
  | .stakeDelegation stc pool =>
    let (ds, r) := checkStakeDelegation stc pool run.state.dstate run.state.pstate
    (run.withDstate ds, r)
  | .poolRegistration operator params =>
    let (ps, r) := checkPoolRegOrUpdate operator params env.pps.minPoolCost run.state.pstate
    let counted := if run.state.pstate.poolParams.contains operator then run.poolCount else run.poolCount + 1
    ({ run.withPstate ps with poolCount := counted }, r)
  | .poolRetirement pool repoch =>
    let (ps, r) := checkPoolRetirement pr pool repoch env.cepoch env.pps.maximumEpoch run.state.pstate
    (run.withPstate ps, r)
  | .genesisKeyDelegation gkh dkh vrf =>
    let (ds, r) := checkGenesisKeyDelegation pr gkh dkh vrf env.slot run.state.dstate
    (run.withDstate ds, r)
  | .moveInstantaneousRewardsCert mir =>
    let (ds, r) := checkMir pr mir env.slot env.acnt run.state.dstate
    (run.withDstate ds, r)

/-- The loop of `check_certificates`. The pointer gets a certificate's index only after it has been
processed, so the second certificate is checked with the index of the first. -/
def checkCertificateList (pr : Profile) (env : CertEnv) :
    (ix : ℕ) → List Certificate → CertRun → CertRun × ValidationResult
  | _, [], run => (run, .ok ())
  | ix, cert :: certs, run =>
    match checkCertificate pr env run cert with
    | (run, .ok ()) =>
      checkCertificateList pr env (ix + 1) certs { run with ptr := { run.ptr with certIx := asU32 ix } }
    | (run, r) => (run, r)

def checkCertificates (pr : Profile) (certs : Option (List Certificate)) (txIx : TransactionIndex)
    (state : CertState) (acnt : AccountState) (slot : Slot) (pps : ShelleyProtParams) :
    CertRun × ValidationResult :=
  let run : CertRun := ⟨state, 0, 0, 0, ⟨slot, txIx, 0⟩⟩
  match certs with
  | some certs => match toEpoch pr mainnet slot with
    | .ok cepoch => checkCertificateList pr ⟨acnt, slot, cepoch, pps⟩ 0 certs run
    | .err e => (run, .err e)
    | .panic => (run, .panic)
  | none => (run, .ok ())

/-! ### Outputs and value -/

def checkTtl (body : TransactionBody) (slot : UInt64) : ValidationResult :=
  match body.ttl with
  | some ttl => check (.shelleyMA .ttlExceeded) (slot ≤ ttl)
  | none => .err (.shelleyMA .alonzoCompNotShelley)

def computeMinLovelace (pr : Profile) (output : TransactionOutput) (pps : ShelleyProtParams) :
    Outcome ValidationError UInt64 :=
  match output.amount with
  | .coin _ => .ok pps.minUtxoValue
  | .multiasset lovelace _ => do
    let size : UInt64 ← MachineInt.add pr 27 (getValSizeInWords output.amount)
    let min ← MachineInt.mul pr size (pps.minUtxoValue / 27)
    .ok (max lovelace min)

def checkMinLovelace (pr : Profile) (body : TransactionBody) (pps : ShelleyProtParams) (era : Era) :
    ValidationResult :=
  Outcome.forEach (fun (output : TransactionOutput) =>
    if era = .shelley ∨ era = .allegra ∨ era = .mary then do
      let min ← computeMinLovelace pr output pps
      check (.shelleyMA .minLovelaceUnreached) (min ≤ output.amount.lovelace)
    else .err (.shelleyMA .valueNotShelley)) body.outputs

/-- Adds the amount of an output; a Shelley one may not be a bundle. -/
def addOutputValue (pr : Profile) (wrongEra : ShelleyMAError) (era : Era) (res amount : Value) :
    Outcome ValidationError Value :=
  match amount, era with
  | .coin _, _ => addValues pr res amount (.shelleyMA .negativeValue)
  | .multiasset _ _, .shelley => .err (.shelleyMA wrongEra)
  | .multiasset _ _, _ => addValues pr res amount (.shelleyMA .negativeValue)

/-- One input of `get_consumed`. -/
def addInput (pr : Profile) (utxos : UTxOs) (era : Era) (res : Value) (input : TransactionInput) :
    Outcome ValidationError Value := do
  let output ← Outcome.ofOption (.shelleyMA .inputNotInUTxO) (utxos (.alonzoCompatible input))
  match output.asAlonzo with
  | some o => addOutputValue pr .valueNotShelley era res o.amount
  | none => match output.asByron with
    | some o => addValues pr res (.coin o.amount) (.shelleyMA .negativeValue)
    | none => .err (.shelleyMA .inputNotInUTxO)

/-- `get_consumed`: the inputs, the refunded deposits and what is minted. -/
def getConsumed (pr : Profile) (body : TransactionBody) (utxos : UTxOs) (stkRefundCount : ℕ) (era : Era)
    (pps : ShelleyProtParams) : Outcome ValidationError Value := do
  let res ← Outcome.fold (addInput pr utxos era) emptyValue body.inputs
  let refund ← MachineInt.exact pr (pps.keyDeposit.toNat * stkRefundCount)
  let res ← addValues pr res (.coin refund) (.shelleyMA .negativeValue)
  addMint pr res body.mint (.shelleyMA .negativeValue)

/-- `prot_pps.pool_deposit * *pool_count + prot_pps.key_deposit * *stk_dep_count`. -/
def totalDeposits (pr : Profile) (stkDepCount poolCount : ℕ) (pps : ShelleyProtParams) :
    Outcome ValidationError UInt64 := do
  let pools : UInt64 ← MachineInt.exact pr (pps.poolDeposit.toNat * poolCount)
  let keys : UInt64 ← MachineInt.exact pr (pps.keyDeposit.toNat * stkDepCount)
  MachineInt.add pr pools keys

/-- `get_produced`: the outputs, the fee and the deposits. -/
def getProduced (pr : Profile) (body : TransactionBody) (stkDepCount poolCount : ℕ) (era : Era)
    (pps : ShelleyProtParams) : Outcome ValidationError Value := do
  let res ← Outcome.fold (fun res (o : TransactionOutput) => addOutputValue pr .wrongEraOutput era res o.amount)
    emptyValue body.outputs
  let res ← addValues pr res (.coin body.fee) (.shelleyMA .negativeValue)
  let deposits ← totalDeposits pr stkDepCount poolCount pps
  addValues pr res (.coin deposits) (.shelleyMA .negativeValue)

/-- `check_preservation_of_value`; the withdrawals of the body do not enter. -/
def checkPreservationOfValue (pr : Profile) (body : TransactionBody) (utxos : UTxOs) (run : CertRun) (era : Era)
    (pps : ShelleyProtParams) : ValidationResult := do
  let consumed ← getConsumed pr body utxos run.stkRefundCount era pps
  let produced ← getProduced pr body run.stkDepCount run.poolCount era pps
  check (.shelleyMA .preservationOfValue) (valuesAreEqual consumed produced)

/-! ### Native scripts -/

mutual

/-- `eval_native_script`, for the key hashes of the witnesses and the bounds of the interval. -/
def evalNativeScript (keys : List AddrKeyhash) (low upp : Option UInt64) : NativeScript → Bool
  | .scriptAll xs => (evalNativeScripts keys low upp xs).all id
  | .scriptAny xs => (evalNativeScripts keys low upp xs).any id
  | .scriptPubkey h => keys.contains h
  | .scriptNOfK n xs => n.toInt ≤ (evalNativeScripts keys low upp xs).count true
  | .invalidBefore slot => match low with
    | some time => slot ≤ time
    | none => false
  | .invalidHereafter slot => match upp with
    | some time => slot ≥ time
    | none => false

/-- The results of the child scripts. -/
def evalNativeScripts (keys : List AddrKeyhash) (low upp : Option UInt64) : List NativeScript → List Bool
  | [] => []
  | x :: xs => evalNativeScript keys low upp x :: evalNativeScripts keys low upp xs

end

def checkNativeScripts (keys : List AddrKeyhash) (scripts : List NativeScript) (low upp : Option UInt64) :
    ValidationResult :=
  Outcome.forEach (fun s => check (.shelleyMA .scriptDenial) (evalNativeScript keys low upp s)) scripts

/-! ### Witnesses -/

section Crypto
variable (c : Crypto)

/-- The loop of `check_native_script_witness`: every script is appended to what has been hashed so far. -/
def findScriptHash (hash : ScriptHash) : (payload : Bytes) → List NativeScript → ValidationResult
  | _, [] => .err (.shelleyMA .missingScriptWitness)
  | payload, script :: rest =>
    let payload := payload ++ script.encode
    if c.blake2b224 payload = hash then .ok () else findScriptHash hash payload rest

def checkNativeScriptWitness (hash : ScriptHash) (wits : Option (List NativeScript)) : ValidationResult :=
  match wits with
  | some scripts => findScriptHash c hash [0] scripts
  | none => .err (.shelleyMA .missingScriptWitness)

/-- The errors of the walks over the key witnesses. -/
def vkErrors : VkErrors :=
  ⟨.shelleyMA .missingVKWitness, .shelleyMA .wrongSignature, .shelleyMA .addressDecoding,
    .shelleyMA .inputNotInUTxO⟩

/-- One input of `check_witnesses`. -/
def checkInputWitness (natives : Option (List NativeScript)) (utxos : UTxOs) (data : Bytes)
    (wits : List (Bool × VKeyWitness)) (input : TransactionInput) :
    Outcome ValidationError (List (Bool × VKeyWitness)) :=
  match utxos (.alonzoCompatible input) with
  | some output => match output.asAlonzo with
    | some o => do
      match ← Outcome.ofOption (.shelleyMA .addressDecoding) (getPaymentPart o.address) with
      | .key keyHash => checkVkWit c vkErrors keyHash data wits
      | .script hash => do
        checkNativeScriptWitness c hash natives
        .ok wits
    | none => .ok wits
  | none => .err (.shelleyMA .inputNotInUTxO)

def checkWitnesses (mtx : Tx) (utxos : UTxOs) : ValidationResult := do
  let body := mtx.transactionBody.inner
  let wits := mtx.transactionWitnessSet.inner
  let natives := wits.nativeScript.map (·.map KeepRaw.inner)
  let data := Hash.toBytes (c.blake2b256 mtx.transactionBody.rawCbor)
  let vkWits ← mkAlonzoVkWitsCheckList wits.vkeywitness (.shelleyMA .missingVKWitness)
  let vkWits ← Outcome.fold (checkInputWitness c natives utxos data) vkWits body.inputs
  checkNativeScripts (vkWits.map fun w => c.blake2b224 w.2.vkey) (natives.getD []) body.validityIntervalStart
    body.ttl
  checkRemainingVkWits c vkErrors data vkWits

def checkMinting (body : TransactionBody) (wits : WitnessSet) : ValidationResult :=
  match body.mint with
  | some minted => Outcome.forEach (fun policy => check (.shelleyMA .mintingLacksPolicy)
      (((wits.nativeScript.getD []).map fun s => computeNativeScriptHash c s.inner).contains policy)) minted.keys
  | none => .ok ()

end Crypto

/-! ### The validator -/

/-- The checks before the certificates. -/
def checkBeforeCertificates (pr : Profile) (mtx : Tx) (utxos : UTxOs) (pps : ShelleyProtParams)
    (slot : UInt64) (era : Era) : ValidationResult := do
  let body := mtx.transactionBody.inner
  check (.shelleyMA .txInsEmpty) (!body.inputs.isEmpty)
  checkInsInUtxos (.shelleyMA .inputNotInUTxO) body.inputs utxos
  checkTtl body slot
  check (.shelleyMA .maxTxSizeExceeded) (getAlonzoCompTxSize mtx ≤ pps.maxTransactionSize)
  checkMinLovelace pr body pps era

/-- The checks after the certificates, with what they counted. -/
def checkAfterCertificates (pr : Profile) (c : Crypto) (mtx : Tx) (utxos : UTxOs) (pps : ShelleyProtParams)
    (networkId : UInt8) (era : Era) (run : CertRun) : ValidationResult := do
  let body := mtx.transactionBody.inner
  checkPreservationOfValue pr body utxos run era pps
  checkMinFee pr (.shelleyMA .feesBelowMin) body.fee pps.minfeeA pps.minfeeB (getAlonzoCompTxSize mtx)
  checkTxOutsNetworkId (.shelleyMA .addressDecoding) (.shelleyMA .wrongNetworkID)
    (body.outputs.map TransactionOutput.address) networkId
  checkAuxiliaryData c (.shelleyMA .metadataHash) (body.auxiliaryDataHash.map Hash.toBytes) mtx.auxiliaryData
  checkWitnesses c mtx utxos
  checkMinting c body mtx.transactionWitnessSet.inner

def validateShelleyMaTx (pr : Profile) (c : Crypto) (mtx : Tx) (txIx : TransactionIndex) (utxos : UTxOs)
    (state : CertState) (pps : ShelleyProtParams) (acnt : AccountState) (slot : UInt64) (networkId : UInt8)
    (era : Era) : CertState × ValidationResult :=
  match checkBeforeCertificates pr mtx utxos pps slot era with
  | .ok () =>
    match checkCertificates pr mtx.transactionBody.inner.certificates txIx state acnt slot pps with
    | (run, .ok ()) => (run.state, checkAfterCertificates pr c mtx utxos pps networkId era run)
    | (run, r) => (run.state, r)
  | r => (state, r)

end Pallas.ShelleyMa
