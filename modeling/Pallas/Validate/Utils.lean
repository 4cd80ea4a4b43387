import Pallas.Validate.Environment

/-!
# Arithmetic on values, witness helpers and sizes (`pallas-validate/src/utils.rs`)

The source has most of these functions twice, for `alonzo::Value` and for `conway::Value`. What the
two copies share is one definition with the quantity type (or the sum of bundles) as a parameter;
each copy is then an instance under its own name. They differ in the sum of two bundles: the Alonzo
copy goes through `i64`, the Conway copy stays in `u64`.

All bundle arithmetic takes the build profile: the `+` on quantities is unchecked in the source.
-/

namespace Pallas
open Std

/-! ### Transaction sizes -/

/-- `usize as u32`. -/
def asU32 (n : Nat) : UInt32 := UInt32.ofNat n

def getAlonzoCompTxSize (mtx : Alonzo.Tx) : UInt32 :=
  match mtx.auxiliaryData with
  | .some aux => asU32 (aux.rawCbor.length + mtx.transactionBody.rawCbor.length +
      mtx.transactionWitnessSet.rawCbor.length)
  | _ => asU32 (mtx.transactionBody.rawCbor.length + mtx.transactionWitnessSet.rawCbor.length)

/-- The bytes of the four fields of a post-Alonzo transaction: both parts that keep their bytes, the
flag, and the auxiliary data (one byte when there is none). -/
def postAlonzoTxLength (body wits : Nat) (aux : Nullable AuxiliaryData) : Nat :=
  1 + body + wits + 1 + match aux with
    | .some a => a.rawCbor.length
    | _ => 1

/-- `get_babbage_tx_size`; the encoding into a vector does not fail. -/
def getBabbageTxSize (mtx : Babbage.Tx) : Option UInt32 :=
  some (asU32 (postAlonzoTxLength mtx.transactionBody.rawCbor.length
    mtx.transactionWitnessSet.rawCbor.length mtx.auxiliaryData))

def getConwayTxSize (mtx : Conway.Tx) : Option UInt32 :=
  some (asU32 (postAlonzoTxLength mtx.transactionBody.rawCbor.length
    mtx.transactionWitnessSet.rawCbor.length mtx.auxiliaryData))

/-! ### Sums of bundles -/

section Sums
variable {T : Type} [MachineInt T]

/-- One asset of `conway_add_same_policy_assets`. -/
def addAmount (pr : Profile) (old : Option T) (new : T) : Outcome ValidationError T :=
  match old with
  | some old => MachineInt.add pr old new
  | none => .ok new

def conwayAddSamePolicyAssets (pr : Profile) (old new : FinMap AssetName T) :
    Outcome ValidationError (FinMap AssetName T) :=
  FinMap.upsert (addAmount pr) old new

/-- One policy of `conway_add_multiasset_values`. -/
def addPolicy (pr : Profile) (old : Option (FinMap AssetName T)) (new : FinMap AssetName T) :
    Outcome ValidationError (FinMap AssetName T) :=
  conwayAddSamePolicyAssets pr (old.getD ∅) new

/-- `conway_add_multiasset_values`; `conway_wrap_multiasset` only turns one kind of map into another. -/
def conwayAddMultiassetValues (pr : Profile) (first second : Multiasset T) :
    Outcome ValidationError (Multiasset T) := do
  let res ← FinMap.upsert (addPolicy pr) ∅ first
  FinMap.upsert (addPolicy pr) res second

end Sums

def addMultiassetValues (pr : Profile) (first second : Multiasset Int64) :
    Outcome ValidationError (Multiasset Int64) :=
  conwayAddMultiassetValues pr first second

/-- One asset of `conway_add_same_non_zero_policy_assets`: an asset that is already there is read as
`i64` and may not go below zero; one that is not there yet takes the minted quantity as a `u64`. -/
def addNonZeroAmount (pr : Profile) (old : Option UInt64) (new : NonZeroInt) :
    Outcome ValidationError UInt64 :=
  match old with
  | some old => do
    let result : Int64 ← MachineInt.add pr (MachineInt.cast old) new.1
    if result.toInt < 0 then .err (.postAlonzo .negativeValue) else .ok (MachineInt.cast result)
  | none => .ok (MachineInt.cast new.1)

def conwayAddSameNonZeroPolicyAssets (pr : Profile) (old : FinMap AssetName UInt64)
    (new : FinMap AssetName NonZeroInt) : Outcome ValidationError (FinMap AssetName UInt64) :=
  FinMap.upsert (addNonZeroAmount pr) old new

/-- `assets.retain(|_, amount| *amount > 0); !assets.is_empty()`. -/
def retainPositive (assets : FinMap AssetName UInt64) : Option (FinMap AssetName UInt64) :=
  let kept := assets.filter fun _ n => 0 < n
  if kept.isEmpty then none else some kept

def conwayAddMultiassetNonNegativeValues (pr : Profile) (first : Multiasset UInt64)
    (second : Multiasset NonZeroInt) : Outcome ValidationError (Multiasset UInt64) := do
  let res ← FinMap.upsert (addPolicy pr) ∅ first
  let res ← FinMap.upsert (fun old new => conwayAddSameNonZeroPolicyAssets pr (old.getD ∅) new) res second
  .ok (res.filterMap fun _ assets => retainPositive assets)

/-! ### Conversions of quantities -/

def coerceToI64 (value : Multiasset Coin) : Multiasset Int64 :=
  value.map fun _ assets => assets.map fun _ amount => MachineInt.cast amount

def coerceToU64 (value : Multiasset PositiveCoin) : Multiasset UInt64 :=
  value.map fun _ assets => assets.map fun _ amount => amount.val

def coerceToCoin (value : Multiasset Int64) (err : ValidationError) :
    Outcome ValidationError (Multiasset Coin) :=
  value.mapM fun assets => assets.mapM fun amount => .ofOption err (MachineInt.tryFrom amount)

def conwayCoerceToCoin (value : Multiasset UInt64) (_err : ValidationError) :
    Outcome ValidationError (Multiasset PositiveCoin) :=
  value.mapM fun assets => assets.mapM fun amount => .unwrap (PositiveCoin.tryFrom amount)

def conwayCoerceToNonZeroCoin (value : Multiasset NonZeroInt) (_err : ValidationError) :
    Outcome ValidationError (Multiasset PositiveCoin) :=
  value.mapM fun assets => assets.mapM fun amount =>
    .unwrap (PositiveCoin.tryFrom (MachineInt.cast amount.1))

/-! ### Values -/

def addLovelace (first second : Coin) (err : ValidationError) : Outcome ValidationError Coin :=
  .ofOption err (MachineInt.checkedAdd first second)

section Values
variable {A : Type}

/-- The two copies of `add_values`: the coins are added checked, the bundles by `addAssets`. -/
def genAddValues (addAssets : Multiasset A → Multiasset A → Outcome ValidationError (Multiasset A))
    (first second : GenValue A) (err : ValidationError) : Outcome ValidationError (GenValue A) :=
  match first, second with
  | .coin f, .coin s => do
    let n ← addLovelace f s err
    .ok (.coin n)
  | .multiasset f fma, .coin s => do
    let n ← addLovelace f s err
    .ok (.multiasset n fma)
  | .coin f, .multiasset s sma => do
    let n ← addLovelace f s err
    .ok (.multiasset n sma)
  | .multiasset f fma, .multiasset s sma => do
    let n ← addLovelace f s err
    let ma ← addAssets fma sma
    .ok (.multiasset n ma)

/-- The two copies of `multi_asset_included`: every policy of the first is in the second, and so is
every asset it holds a non-zero quantity of, in the same quantity. -/
def genMultiAssetIncluded (amount : A → UInt64) (fma sma : Multiasset A) : Bool :=
  fma.toList.all fun (policy, fassets) => match sma[policy]? with
    | some sassets => fassets.toList.all fun (name, famount) =>
      amount famount == 0 || match sassets[name]? with
        | some samount => amount famount == amount samount
        | none => false
    | none => false

/-- The two copies of `multi_assets_are_equal`. -/
def genMultiAssetsAreEqual (amount : A → UInt64) (fma sma : Multiasset A) : Bool :=
  genMultiAssetIncluded amount fma sma && genMultiAssetIncluded amount sma fma

/-- The two copies of `values_are_equal`. -/
def genValuesAreEqual (amount : A → UInt64) (first second : GenValue A) : Bool :=
  match first, second with
  | .coin f, .coin s => f == s
  | .multiasset f fma, .coin s => f == s && fma.isEmpty
  | .coin f, .multiasset s sma => f == s && sma.isEmpty
  | .multiasset f fma, .multiasset s sma => f == s && genMultiAssetsAreEqual amount fma sma

/-- The two copies of `lovelace_diff_or_fail`. -/
def genLovelaceDiffOrFail (amount : A → UInt64) (first second : GenValue A) (err : ValidationError) :
    Outcome ValidationError UInt64 :=
  match first, second with
  | .coin f, .coin s => if s ≤ f then .ok (f - s) else .err err
  | .coin _, .multiasset _ _ => .err err
  | .multiasset f fma, .coin s => if s ≤ f ∧ fma.isEmpty then .ok (f - s) else .err err
  | .multiasset f fma, .multiasset s sma =>
    if s ≤ f ∧ genMultiAssetsAreEqual amount fma sma then .ok (f - s) else .err err

/-- The two copies of `get_lovelace_from_val`. -/
def GenValue.lovelace : GenValue A → Coin
  | .coin n => n
  | .multiasset n _ => n

end Values

def emptyValue : Value := .multiasset 0 ∅

/-- The bundle part of `add_values`. -/
def addCoinAssets (pr : Profile) (err : ValidationError) (fma sma : Multiasset Coin) :
    Outcome ValidationError (Multiasset Coin) := do
  let sum ← addMultiassetValues pr (coerceToI64 fma) (coerceToI64 sma)
  coerceToCoin sum err

def addValues (pr : Profile) (first second : Value) (err : ValidationError) :
    Outcome ValidationError Value :=
  genAddValues (addCoinAssets pr err) first second err

/-- The bundle part of `conway_add_values`. -/
def addPositiveAssets (pr : Profile) (err : ValidationError) (fma sma : Multiasset PositiveCoin) :
    Outcome ValidationError (Multiasset PositiveCoin) := do
  let sum ← conwayAddMultiassetValues pr (coerceToU64 fma) (coerceToU64 sma)
  conwayCoerceToCoin sum err

def conwayAddValues (pr : Profile) (first second : ConwayValue) (err : ValidationError) :
    Outcome ValidationError ConwayValue :=
  genAddValues (addPositiveAssets pr err) first second err

def valuesAreEqual (first second : Value) : Bool := genValuesAreEqual id first second

def conwayValuesAreEqual (first second : ConwayValue) : Bool :=
  genValuesAreEqual PositiveCoin.val first second

def lovelaceDiffOrFail (first second : Value) (err : ValidationError) : Outcome ValidationError UInt64 :=
  genLovelaceDiffOrFail id first second err

def conwayLovelaceDiffOrFail (first second : ConwayValue) (err : ValidationError) :
    Outcome ValidationError UInt64 :=
  genLovelaceDiffOrFail PositiveCoin.val first second err

def addMintedValue (pr : Profile) (base : Value) (minted : Multiasset Int64) (err : ValidationError) :
    Outcome ValidationError Value :=
  match base with
  | .coin n => do
    let ma ← coerceToCoin minted err
    .ok (.multiasset n ma)
  | .multiasset n ma => do
    let sum ← addMultiassetValues pr (coerceToI64 ma) minted
    let ma ← coerceToCoin sum err
    .ok (.multiasset n ma)

def conwayAddMintedNonZero (pr : Profile) (base : ConwayValue) (minted : Multiasset NonZeroInt)
    (err : ValidationError) : Outcome ValidationError ConwayValue :=
  match base with
  | .coin n => do
    let ma ← conwayCoerceToNonZeroCoin minted err
    .ok (.multiasset n ma)
  | .multiasset n ma => do
    let sum ← conwayAddMultiassetNonNegativeValues pr (coerceToU64 ma) minted
    let ma ← conwayCoerceToCoin sum err
    .ok (.multiasset n ma)

/-- `if let Some(m) = &tx_body.mint { input = add_minted_value(..)? }`. -/
def addMint (pr : Profile) (base : Value) (mint : Option (Multiasset Int64)) (err : ValidationError) :
    Outcome ValidationError Value :=
  match mint with
  | some m => addMintedValue pr base m err
  | none => .ok base

/-- The same for `conway_add_minted_non_zero`. -/
def conwayAddMint (pr : Profile) (base : ConwayValue) (mint : Option (Multiasset NonZeroInt))
    (err : ValidationError) : Outcome ValidationError ConwayValue :=
  match mint with
  | some m => conwayAddMintedNonZero pr base m err
  | none => .ok base

/-- `(tx_buf.len() as u64).div_ceil(8)`. -/
def sizeInWords (bs : Bytes) : UInt64 := UInt64.ofNat ((bs.length + 7) / 8)

def getValSizeInWords (v : Value) : UInt64 := sizeInWords (Value.encode v)

def conwayGetValSizeInWords (v : ConwayValue) : UInt64 := sizeInWords (ConwayValue.encode v)

/-! ### Addresses, scripts and witnesses -/

def getShelleyAddress (address : Bytes) : Option ShelleyAddress :=
  match Address.fromBytes address with
  | some (.shelley a) => some a
  | _ => none

def getPaymentPart (address : Bytes) : Option ShelleyPaymentPart :=
  (getShelleyAddress address).map ShelleyAddress.payment

def isByronAddress (address : Bytes) : Bool :=
  match Address.fromBytes address with
  | some (.byron _) => true
  | _ => false

section Crypto
variable (c : Crypto)

/-- `compute_native_script_hash`: a language byte, then the script written out again. -/
def computeNativeScriptHash (script : NativeScript) : PolicyId := c.blake2b224 (0 :: script.encode)

def computePlutusV1ScriptHash (script : PlutusScript 1) : PolicyId := c.blake2b224 (1 :: script.bytes)

def computePlutusV2ScriptHash (script : PlutusScript 2) : PolicyId := c.blake2b224 (2 :: script.bytes)

def computePlutusV3ScriptHash (script : PlutusScript 3) : PolicyId := c.blake2b224 (3 :: script.bytes)

def mkAlonzoVkWitsCheckList (wits : Option (List VKeyWitness)) (err : ValidationError) :
    Outcome ValidationError (List (Bool × VKeyWitness)) :=
  (·.map fun w => (false, w)) <$> Outcome.ofOption err wits

/-- `verify_signature`: the two slice copies panic on any other length. -/
def verifySignature (wit : VKeyWitness) (data : Bytes) : Outcome ValidationError Bool :=
  if wit.vkey.length ≠ 32 then .panic
  else if wit.signature.length ≠ 64 then .panic
  else .ok (c.verify wit.vkey data wit.signature)

end Crypto
end Pallas
