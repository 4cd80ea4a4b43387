import Pallas.Validate.Utils

/-!
# Checks the eras have in common

From Alonzo on, every era module of `pallas-validate/src/phase1/` has its own copy of these checks,
equal up to the era's error constructors and a few record accesses. Here each is one definition with
those as parameters; the era modules instantiate them. (Shelley shares the two walks over the key
witnesses.)

The walks over witnesses and scripts mark entries of a list as they go. A marked list is a
`List (Bool × α)`, passed through explicitly.
-/

namespace Pallas
open Std

/-- `Ok(())` when the condition holds, the error otherwise. -/
abbrev check (e : ValidationError) (b : Bool) : ValidationResult := Outcome.ensure e b

/-! ### Inputs, interval, fee, size, network, metadata -/

/-- `for input in inputs { if !utxos.contains_key(input) { return Err(e) } }`. -/
def checkInsInUtxos (e : ValidationError) (inputs : List TransactionInput) (utxos : UTxOs) :
    ValidationResult :=
  Outcome.forEach (fun input => check e (utxos (.alonzoCompatible input)).isSome) inputs

def checkLowerBound (e : ValidationError) (start : Option UInt64) (slot : UInt64) : ValidationResult :=
  match start with
  | some bound => check e (bound ≤ slot)
  | none => .ok ()

def checkUpperBound (e : ValidationError) (ttl : Option UInt64) (slot : UInt64) : ValidationResult :=
  match ttl with
  | some bound => check e (slot ≤ bound)
  | none => .ok ()

/-- `prot_pps.minfee_b + prot_pps.minfee_a * size`, in `u32`. -/
def minFee (pr : Profile) (minfeeA minfeeB size : UInt32) : Outcome ValidationError UInt32 := do
  let linear ← MachineInt.mul pr minfeeA size
  MachineInt.add pr minfeeB linear

def checkMinFee (pr : Profile) (e : ValidationError) (fee : UInt64) (minfeeA minfeeB size : UInt32) :
    ValidationResult := do
  let fees ← minFee pr minfeeA minfeeB size
  check e (fees.toUInt64 ≤ fee)

/-- `check_collaterals_number` of Babbage and Conway. -/
def checkCollateralsNumber (missing tooMany : ValidationError) (collaterals : List TransactionInput)
    (max : UInt32) : ValidationResult :=
  if collaterals.isEmpty then .err missing else check tooMany (asU32 collaterals.length ≤ max)

/-- `check_collaterals_address`: what the era's accessor does not read is not looked at. -/
def checkCollateralsAddress (notVKey decoding notIn : ValidationError)
    (address : MultiEraOutput → Option Bytes) (collaterals : List TransactionInput) (utxos : UTxOs) :
    ValidationResult :=
  Outcome.forEach (fun collateral => match utxos (.alonzoCompatible collateral) with
    | some output => match address output with
      | some bytes => do
        match ← Outcome.ofOption decoding (getPaymentPart bytes) with
        | .script _ => .err notVKey
        | .key _ => .ok ()
      | none => .ok ()
    | none => .err notIn) collaterals

def checkTxOutsNetworkId (decoding wrong : ValidationError) (addresses : List Bytes) (networkId : UInt8) :
    ValidationResult :=
  Outcome.forEach (fun bytes => do
    let addr ← Outcome.ofOption decoding (getShelleyAddress bytes)
    check wrong (addr.network.value == networkId)) addresses

def checkTxNetworkId (wrong : ValidationError) (txNetworkId : Option NetworkId) (networkId : UInt8) :
    ValidationResult :=
  match txNetworkId with
  | some id => check wrong (id.toU8 == networkId)
  | none => .ok ()

/-- `check_auxiliary_data`: the hash of the body and the data are both there and agree, or both absent. -/
def checkAuxiliaryData (c : Crypto) (e : ValidationError) (hash : Option Bytes)
    (aux : Nullable AuxiliaryData) : ValidationResult :=
  match hash, aux.toOption with
  | some h, some metadata => check e (h == Hash.toBytes (c.blake2b256 metadata.rawCbor))
  | none, none => .ok ()
  | _, _ => .err e

/-- One redeemer of `check_tx_ex_units`: `mem += ex_units.mem; steps += ex_units.steps;`. -/
def addExUnits (pr : Profile) (sums x : ExUnits) : Outcome ValidationError ExUnits := do
  let mem ← MachineInt.add pr sums.mem x.mem
  let steps ← MachineInt.add pr sums.steps x.steps
  .ok ⟨mem, steps⟩

/-- The running sums of `check_tx_ex_units`, and the comparison with the limit. -/
def checkExUnitsSum (pr : Profile) (e : ValidationError) (exUnits : List ExUnits) (max : ExUnits) :
    ValidationResult := do
  let sums ← Outcome.fold (addExUnits pr) ⟨0, 0⟩ exUnits
  if sums.mem > max.mem ∨ sums.steps > max.steps then .err e else .ok ()

/-! ### Key witnesses -/

/-- The errors of the walks over the key witnesses. -/
structure VkErrors where
  witnessMissing : ValidationError
  wrongSignature : ValidationError
  inputDecoding : ValidationError
  inputNotInUTxO : ValidationError

section Witnesses
variable (c : Crypto)

/-- `check_vk_wit`: verifies the first witness whose key has the given hash, and marks it. -/
def checkVkWit (errs : VkErrors) (keyHash : AddrKeyhash) (data : Bytes) :
    List (Bool × VKeyWitness) → Outcome ValidationError (List (Bool × VKeyWitness))
  | [] => .err errs.witnessMissing
  | (covered, wit) :: rest =>
    if c.blake2b224 wit.vkey = keyHash then do
      let valid ← verifySignature c wit data
      if valid then .ok ((true, wit) :: rest) else .err errs.wrongSignature
    else do
      let rest ← checkVkWit errs keyHash data rest
      .ok ((covered, wit) :: rest)

/-- `check_remaining_vk_wits`: returns at the first witness that is not marked. -/
def checkRemainingVkWits (errs : VkErrors) (data : Bytes) : List (Bool × VKeyWitness) → ValidationResult
  | [] => .ok ()
  | (covered, wit) :: rest =>
    if covered then checkRemainingVkWits errs data rest
    else do
      let valid ← verifySignature c wit data
      check errs.wrongSignature valid

/-- One input of `check_vkey_input_wits`. `address` is the era's access to the bytes of an output's
address, and `other` what the era does when there are none. -/
def checkVkeyInput (errs : VkErrors) (address : MultiEraOutput → Option Bytes) (other : ValidationResult)
    (utxos : UTxOs) (data : Bytes) (wits : List (Bool × VKeyWitness)) (input : TransactionInput) :
    Outcome ValidationError (List (Bool × VKeyWitness)) :=
  match utxos (.alonzoCompatible input) with
  | some output => match address output with
    | some bytes => do
      match ← Outcome.ofOption errs.inputDecoding (getPaymentPart bytes) with
      | .key keyHash => checkVkWit c errs keyHash data wits
      | .script _ => .ok wits
    | none => do
      other
      .ok wits
  | none => .err errs.inputNotInUTxO

def checkVkeyInputWits (errs : VkErrors) (address : MultiEraOutput → Option Bytes)
    (other : ValidationResult) (inputs : List TransactionInput) (collateral : Option (List TransactionInput))
    (wits : Option (List VKeyWitness)) (data : Bytes) (utxos : UTxOs) : ValidationResult := do
  let wits ← mkAlonzoVkWitsCheckList wits errs.witnessMissing
  let wits ← Outcome.fold (checkVkeyInput c errs address other utxos data) wits
    (inputs ++ collateral.getD [])
  checkRemainingVkWits c errs data wits

def findAndCheckReqSigner (missing wrongSig : ValidationError) (keyHash : AddrKeyhash) (data : Bytes) :
    List VKeyWitness → ValidationResult
  | [] => .err missing
  | wit :: rest =>
    if c.blake2b224 wit.vkey = keyHash then do
      let valid ← verifySignature c wit data
      check wrongSig valid
    else findAndCheckReqSigner missing wrongSig keyHash data rest

def checkRequiredSigners (missing wrongSig : ValidationError) (signers : Option (List AddrKeyhash))
    (wits : Option (List VKeyWitness)) (data : Bytes) : ValidationResult :=
  match signers, wits with
  | some signers, some wits =>
    Outcome.forEach (fun signer => findAndCheckReqSigner c missing wrongSig signer data wits) signers
  | some _, none => .err missing
  | none, _ => .ok ()

end Witnesses

/-! ### Needed scripts

The scripts of the witness set come in lists, one for each language. A needed hash marks every script
that has it, in every list. -/

/-- The hash is that of a script in one of the lists. -/
def inLists (lists : List (List (Bool × PolicyId))) (hash : PolicyId) : Bool :=
  lists.any fun scripts => scripts.any fun s => s.2 == hash

/-- Marks the scripts with the given hash. -/
def coverScripts (lists : List (List (Bool × PolicyId))) (hash : PolicyId) : List (List (Bool × PolicyId)) :=
  lists.map fun scripts => scripts.map fun s => (s.1 || s.2 == hash, s.2)

/-- `check_input_scripts` and `check_minting_policies`: marks what is needed, then every needed hash
must be that of a listed script or of a reference script. -/
def checkCovered (missing : PolicyId → ValidationError) (reference : List PolicyId)
    (lists : List (List (Bool × PolicyId))) (needed : List PolicyId) :
    Outcome ValidationError (List (List (Bool × PolicyId))) := do
  Outcome.forEach (fun hash => check (missing hash) (inLists lists hash || reference.contains hash)) needed
  .ok (needed.foldl coverScripts lists)

/-- `check_needed_scripts`: scripts that a reference input provides are left out, the rest must be
exactly what the inputs and the minted policies need. -/
def checkNeededScripts (inputMissing : ValidationError) (policyMissing : PolicyId → ValidationError)
    (unneeded : List ValidationError) (scripts : List (List PolicyId)) (reference : List PolicyId)
    (inputHashes policies : List PolicyId) : ValidationResult := do
  let lists := scripts.map fun hashes =>
    (hashes.map fun h => (false, h)).filter fun s => !reference.contains s.2
  let lists ← checkCovered (fun _ => inputMissing) reference lists inputHashes
  let lists ← checkCovered policyMissing reference lists policies
  Outcome.forEach (fun (e, scripts) => Outcome.forEach (fun s => check e s.1) scripts) (unneeded.zip lists)

/-! ### Datums and redeemers -/

/-- `find_plutus_datum_in_witness_set`: marks the first datum with the given hash. -/
def findDatumHash (missing : ValidationError) (hash : Hash 32) :
    List (Bool × Hash 32) → Outcome ValidationError (List (Bool × Hash 32))
  | [] => .err missing
  | (found, h) :: rest =>
    if hash = h then .ok ((true, h) :: rest)
    else do
      let rest ← findDatumHash missing hash rest
      .ok ((found, h) :: rest)

/-- `check_input_datum_hash_in_witness_set`. `datumHash` gives the hash an input must have a datum
for, if there is one, or the error of an input the era cannot read. -/
def checkInputDatums (missing : ValidationError)
    (datumHash : TransactionInput → Outcome ValidationError (Option (Hash 32)))
    (inputs : List TransactionInput) (data : List (Bool × Hash 32)) :
    Outcome ValidationError (List (Bool × Hash 32)) :=
  Outcome.fold (fun data input => do
    match ← datumHash input with
    | some hash => findDatumHash missing hash data
    | none => .ok data) data inputs

/-- `check_remaining_datums`: a datum no input asked for must have one of the known hashes. -/
def checkRemainingDatums (unneeded : ValidationError) (known : List (Hash 32))
    (data : List (Bool × Hash 32)) : ValidationResult :=
  Outcome.forEach (fun d => if d.1 then .ok () else check unneeded (known.contains d.2)) data

def redeemerPointersCoincide {P : Type} [DecidableEq P] (unneeded missing : ValidationError)
    (redeemers plutusScripts : List P) : ValidationResult := do
  Outcome.forEach (fun p => check unneeded (plutusScripts.contains p)) redeemers
  Outcome.forEach (fun p => check missing (redeemers.contains p)) plutusScripts

/-- The derived order of `TransactionInput`. -/
def TransactionInput.le (a b : TransactionInput) : Bool :=
  a.transactionId < b.transactionId || (a.transactionId == b.transactionId && a.index ≤ b.index)

def sortInputs (inputs : List TransactionInput) : List TransactionInput :=
  inputs.insertionSort fun a b => a.le b = true

/-- `list.iter().enumerate()`, keeping the indices (as `u32`) of the entries that pass. -/
def indicesOf {α : Type} (p : α → Bool) (xs : List α) : List UInt32 :=
  (xs.zipIdx.filter fun x => p x.1).map fun x => asU32 x.2

end Pallas
