import Pallas.Validate.Checks

/-!
# Byron-era transaction validation (`pallas-validate/src/phase1/byron.rs`)

The checks in the order of the source, ending in `validateByronTx`. The sums of `checkFees` are plain
`u64` arithmetic, so every step takes the build profile.
-/

namespace Pallas.Byron

/-- The Byron output an input refers to. -/
def byronOutput (utxos : UTxOs) (input : TxIn) : Option TxOut :=
  (utxos (.byron input)).bind MultiEraOutput.asByron

def checkInsInUtxos (tx : Tx) (utxos : UTxOs) : ValidationResult :=
  Outcome.forEach (fun input => check (.byron .inputNotInUTxO) (utxos (.byron input)).isSome) tx.inputs

def checkOutsHaveLovelace (tx : Tx) : ValidationResult :=
  Outcome.forEach (fun (output : TxOut) => check (.byron .outputWithoutLovelace) (output.amount != 0)) tx.outputs

/-! ### Fees -/

def isRedeemUtxo (utxos : UTxOs) (input : TxIn) : Bool :=
  match byronOutput utxos input with
  | some txOut => match txOut.address.decode with
    | some payload => payload.addrtype = .redeem
    | none => false
  | none => false

/-- The loop over the inputs in `check_fees`: their sum, and whether all are redeem outputs. -/
def addInput (pr : Profile) (utxos : UTxOs) (acc : UInt64 × Bool) (input : TxIn) :
    Outcome ValidationError (UInt64 × Bool) := do
  let output ← Outcome.ofOption (.byron .unableToComputeFees) (byronOutput utxos input)
  let balance ← MachineInt.add pr acc.1 output.amount
  .ok (balance, acc.2 && isRedeemUtxo utxos input)

/-- The sum of the outputs in `check_fees`. -/
def outputsBalance (pr : Profile) (tx : Tx) : Outcome ValidationError UInt64 :=
  Outcome.fold (fun sum (output : TxOut) => MachineInt.add pr sum output.amount) 0 tx.outputs

/-- `prot_pps.summand + prot_pps.multiplier * size`. -/
def minFees (pr : Profile) (size : UInt64) (pps : ByronProtParams) : Outcome ValidationError UInt64 := do
  let linear : UInt64 ← MachineInt.mul pr pps.multiplier size
  MachineInt.add pr pps.summand linear

/-- `check_fees`: nothing is compared when all inputs are redeem outputs. -/
def checkFees (pr : Profile) (tx : Tx) (size : UInt64) (utxos : UTxOs) (pps : ByronProtParams) :
    ValidationResult := do
  let inputs ← Outcome.fold (addInput pr utxos) (0, true) tx.inputs
  if inputs.2 then .ok ()
  else
    let outputs ← outputsBalance pr tx
    let total : UInt64 ← MachineInt.sub pr inputs.1 outputs
    let fees ← minFees pr size pps
    check (.byron .feesBelowMin) (fees ≤ total)

/-! ### Witnesses -/

def getTxSize (mtxp : TxPayload) : UInt64 :=
  UInt64.ofNat (mtxp.transaction.rawCbor.length + mtxp.witness.rawCbor.length)

/-- A key with a signature, and whether it was a redeem witness. -/
structure TaggedWitness where
  pubKey : Bytes
  signature : Bytes
  redeem : Bool

def tagWitnesses (wits : List Twit) : Outcome ValidationError (List TaggedWitness) :=
  Outcome.fold (fun acc wit => match wit with
    | .pkWitness pk sig => .ok (acc ++ [⟨pk, sig, false⟩])
    | .redeemWitness pk sig => .ok (acc ++ [⟨pk, sig, true⟩])
    | _ => .err (.byron .unableToProcessWitness)) [] wits

/-- `mk_spending_data`: reaches `unreachable!()` on any other type of address. -/
def mkSpendingData (pubKey : Bytes) : AddrType → Outcome ValidationError SpendingData
  | .pubKey => .ok (.pubKey pubKey)
  | .redeem => .ok (.redeem pubKey)
  | _ => .panic

section Crypto
variable (c : Crypto)

def hashAddressId (addrtype : AddrType) (spending : SpendingData) (attrs : List AddrAttrProperty) : Hash 28 :=
  c.blake2b224 (c.sha3 (addressIdPreimage addrtype spending attrs))

def redeems (wit : TaggedWitness) (payload : AddressPayload) : Outcome ValidationError Bool := do
  let spending ← mkSpendingData wit.pubKey payload.addrtype
  .ok (hashAddressId c payload.addrtype spending payload.attributes == payload.root &&
    (if wit.redeem then AddrType.redeem else AddrType.pubKey) == payload.addrtype)

/-- The loop of `find_raw_witness`. -/
def findWitness (payload : AddressPayload) : List TaggedWitness → Outcome ValidationError TaggedWitness
  | [] => .err (.byron .missingWitness)
  | wit :: rest => do
    if ← redeems c wit payload then .ok wit else findWitness payload rest

def findRawWitness (txOut : TxOut) (wits : List TaggedWitness) : Outcome ValidationError TaggedWitness := do
  let payload ← Outcome.ofOption (.byron .unableToProcessWitness) txOut.address.decode
  findWitness c payload wits

def getDataToVerify (redeem : Bool) (protMagic : UInt32) (txHash : Hash 32) : Bytes :=
  Cbor.uint (if redeem then 2 else 1) ++ Cbor.uint protMagic.toNat ++ Hash.encode txHash

/-- The verification in `check_witnesses`: keys are cut to 32 bytes, signatures must have 64. -/
def verifyWitness (wit : TaggedWitness) (data : Bytes) : Outcome ValidationError Bool :=
  if wit.pubKey.length < 32 then .panic
  else if wit.signature.length ≠ 64 then .panic
  else .ok (c.verify (wit.pubKey.take 32) data wit.signature)

def checkWitnesses (mtxp : TxPayload) (utxos : UTxOs) (protMagic : UInt32) : ValidationResult := do
  let txHash := c.blake2b256 mtxp.transaction.rawCbor
  let wits ← tagWitnesses mtxp.witness.inner
  Outcome.forEach (fun input => do
    let txOut ← Outcome.ofOption (.byron .inputNotInUTxO) (byronOutput utxos input)
    let wit ← findRawWitness c txOut wits
    let valid ← verifyWitness c wit (getDataToVerify wit.redeem protMagic txHash)
    check (.byron .wrongSignature) valid) mtxp.transaction.inner.inputs

end Crypto

def validateByronTx (pr : Profile) (c : Crypto) (mtxp : TxPayload) (utxos : UTxOs) (pps : ByronProtParams)
    (protMagic : UInt32) : ValidationResult := do
  let tx := mtxp.transaction.inner
  let size := getTxSize mtxp
  check (.byron .txInsEmpty) (!tx.inputs.isEmpty)
  check (.byron .txOutsEmpty) (!tx.outputs.isEmpty)
  checkInsInUtxos tx utxos
  checkOutsHaveLovelace tx
  checkFees pr tx size utxos pps
  check (.byron .maxTxSizeExceeded) (size ≤ pps.maxTxSize)
  checkWitnesses c mtxp utxos protMagic

end Pallas.Byron
