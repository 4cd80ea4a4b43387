import Pallas.Validate.Conway

/-!
# Writing Conway transactions (`pallas-primitives/src/conway/model.rs`, `pallas-codec/src/utils.rs`)

What the derived encoders write for the parts of a transaction. A record that is encoded as a map lists the fields it has,
each behind its index (`encodeFields`); a set is an array behind tag 258. A value that was not decoded has no bytes of its
own, so `KeepRaw` writes it out from its parts: that is what `KeepRaw.fresh` keeps.
-/

namespace Pallas

/-- `KeepRaw::from(inner)`: the value is written out when its bytes are asked for. -/
def KeepRaw.fresh {α : Type} (encode : α → Bytes) (inner : α) (h : encode inner ≠ []) : KeepRaw α :=
  ⟨encode inner, inner, h⟩

theorem head_ne_nil (major n : ℕ) : Cbor.head major n ≠ [] := by
  unfold Cbor.head
  repeat' split
  all_goals simp

/-! ### Shapes -/

/-- A record as a map: its fields in the order of their indices, without those that are `None`. -/
def encodeFields (fields : List (ℕ × Option Bytes)) : Bytes :=
  let present := fields.filterMap fun f => f.2.map fun bs => (f.1, bs)
  Cbor.map present.length ++ present.flatMap fun f => Cbor.uint f.1 ++ f.2

/-- `Encode for Vec`, from the bytes of the items. -/
def encodeVec (items : List Bytes) : Bytes := Cbor.array items.length ++ items.flatten

/-- `Encode for Set`, `Encode for NonEmptySet`. -/
def encodeSet (items : List Bytes) : Bytes := Cbor.tag 258 ++ encodeVec items

/-- `Encode for CborWrap`. -/
def encodeCborWrap (buf : Bytes) : Bytes := Cbor.tag 24 ++ Cbor.bytes buf

/-- `Encode for Nullable`. -/
def encodeNullable {α : Type} (encode : α → Bytes) : Nullable α → Bytes
  | .some a => encode a
  | .null => Cbor.null
  | .undefined => [0xf7]

theorem encodeFields_ne_nil (fields : List (ℕ × Option Bytes)) : encodeFields fields ≠ [] :=
  List.append_ne_nil_of_left_ne_nil (head_ne_nil _ _) _

theorem encodeSet_ne_nil (items : List Bytes) : encodeSet items ≠ [] :=
  List.append_ne_nil_of_left_ne_nil (head_ne_nil _ _) _

/-! ### Data and scripts -/

theorem encodeBoundedBytes_ne_nil (bs : Bytes) : encodeBoundedBytes bs ≠ [] := by
  unfold encodeBoundedBytes
  split
  · exact List.append_ne_nil_of_left_ne_nil (head_ne_nil _ _) _
  · simp [Cbor.beginBytes]

theorem PlutusData.encode_ne_nil (x : PlutusData) : x.encode ≠ [] := by
  have happend : ∀ {major n : ℕ} {tail : Bytes}, Cbor.head major n ++ tail ≠ [] := fun {major n tail} =>
    List.append_ne_nil_of_left_ne_nil (head_ne_nil major n) tail
  cases x with
  | constr tag anyConstructor definite fields =>
    rw [encode, List.append_assoc]
    exact happend
  | map definite entries =>
    cases definite with
    | true => exact happend
    | false => simp [encode, encodeMap, Cbor.beginMap]
  | array definite items =>
    cases definite with
    | true => exact happend
    | false => simp [encode, encodeArray, Cbor.beginArray]
  | bigInt z =>
    cases z with
    | int z =>
      rw [encode, BigInt.encode, Cbor.int]
      split
      · exact head_ne_nil _ _
      · exact head_ne_nil _ _
    | bigUInt bs => exact happend
    | bigNInt bs => exact happend
  | boundedBytes bs => exact encodeBoundedBytes_ne_nil bs

theorem NativeScript.encode_ne_nil (x : NativeScript) : x.encode ≠ [] := by
  cases x
  all_goals simp only [encode, List.append_assoc]
  all_goals exact List.append_ne_nil_of_left_ne_nil (head_ne_nil _ _) _

/-- `pd.into()`. -/
def PlutusData.fresh (x : PlutusData) : KeepRaw PlutusData := .fresh encode x x.encode_ne_nil

/-- `script.into()`. -/
def NativeScript.fresh (x : NativeScript) : KeepRaw NativeScript := .fresh encode x x.encode_ne_nil

/-! ### The body -/

/-- `Encode for TransactionInput`. -/
def encodeTransactionInput (i : TransactionInput) : Bytes :=
  Cbor.array 2 ++ Hash.encode i.transactionId ++ Cbor.uint i.index.toNat

/-- A map from policies to maps from names to amounts. -/
def encodeMultiasset {A : Type} (amount : A → Bytes) (assets : Multiasset A) : Bytes :=
  Cbor.map assets.size ++ assets.toList.flatMap fun (policy, names) =>
    Hash.encode policy ++ Cbor.map names.size ++ names.toList.flatMap fun (name, a) => Cbor.bytes name ++ amount a

/-- `Encode for DatumOption`. -/
def encodeDatumOption : Babbage.DatumOption → Bytes
  | .hash h => Cbor.array 2 ++ Cbor.uint 0 ++ Hash.encode h
  | .data d => Cbor.array 2 ++ Cbor.uint 1 ++ encodeCborWrap d.rawCbor

namespace Conway

/-- `Encode for ScriptRef`. -/
def encodeScriptRef : ScriptRef → Bytes
  | .nativeScript s => Cbor.array 2 ++ Cbor.uint 0 ++ s.rawCbor
  | .plutusV1Script s => Cbor.array 2 ++ Cbor.uint 1 ++ Cbor.bytes s.bytes
  | .plutusV2Script s => Cbor.array 2 ++ Cbor.uint 2 ++ Cbor.bytes s.bytes
  | .plutusV3Script s => Cbor.array 2 ++ Cbor.uint 3 ++ Cbor.bytes s.bytes

/-- `Encode for TransactionOutput`. -/
def encodeTransactionOutput : TransactionOutput → Bytes
  | .legacy o => match o.datumHash with
    | none => Cbor.array 2 ++ Cbor.bytes o.address ++ Value.encode o.amount
    | some h => Cbor.array 3 ++ Cbor.bytes o.address ++ Value.encode o.amount ++ Hash.encode h
  | .postAlonzo o => encodeFields [
      (0, some (Cbor.bytes o.address)),
      (1, some (ConwayValue.encode o.value)),
      (2, o.datumOption.map encodeDatumOption),
      (3, o.scriptRef.map fun s => encodeCborWrap (encodeScriptRef s))]

/-- The fields of a body. The builder leaves out the others: certificates, voting and proposal procedures, treasury value and
donation. -/
def bodyFields (body : TransactionBody) : List (ℕ × Option Bytes) := [
  (0, some (encodeSet (body.inputs.map encodeTransactionInput))),
  (1, some (encodeVec (body.outputs.map encodeTransactionOutput))),
  (2, some (Cbor.uint body.fee.toNat)),
  (3, body.ttl.map fun slot => Cbor.uint slot.toNat),
  (5, body.withdrawals.map fun ws =>
    Cbor.map ws.size ++ ws.toList.flatMap fun (account, coin) => Cbor.bytes account ++ Cbor.uint coin.toNat),
  (7, body.auxiliaryDataHash.map Hash.encode),
  (8, body.validityIntervalStart.map fun slot => Cbor.uint slot.toNat),
  (9, body.mint.map (encodeMultiasset fun z => Cbor.int z.val.toInt)),
  (11, body.scriptDataHash.map Hash.encode),
  (13, body.collateral.map fun is => encodeSet (is.map encodeTransactionInput)),
  (14, body.requiredSigners.map fun hs => encodeSet (hs.map Hash.encode)),
  (15, body.networkId.map fun id => Cbor.uint id.toU8.toNat),
  (16, body.collateralReturn.map encodeTransactionOutput),
  (17, body.totalCollateral.map fun coin => Cbor.uint coin.toNat),
  (18, body.referenceInputs.map fun is => encodeSet (is.map encodeTransactionInput))]

/-- `Encode for TransactionBody`. -/
def encodeBody (body : TransactionBody) : Bytes := encodeFields (bodyFields body)

/-! ### The witness set and the transaction -/

/-- `Encode for VKeyWitness`. -/
def encodeVKeyWitness (w : VKeyWitness) : Bytes := Cbor.array 2 ++ Cbor.bytes w.vkey ++ Cbor.bytes w.signature

def witnessFields (wits : WitnessSet) : List (ℕ × Option Bytes) := [
  (0, wits.vkeywitness.map fun ws => encodeSet (ws.map encodeVKeyWitness)),
  (1, wits.nativeScript.map fun ss => encodeSet (ss.map KeepRaw.rawCbor)),
  (3, wits.plutusV1Script.map fun ss => encodeSet (ss.map fun s => Cbor.bytes s.bytes)),
  (4, wits.plutusData.map KeepRaw.rawCbor),
  (5, wits.redeemer.map KeepRaw.rawCbor),
  (6, wits.plutusV2Script.map fun ss => encodeSet (ss.map fun s => Cbor.bytes s.bytes)),
  (7, wits.plutusV3Script.map fun ss => encodeSet (ss.map fun s => Cbor.bytes s.bytes))]

/-- `Encode for WitnessSet`. -/
def encodeWitnessSet (wits : WitnessSet) : Bytes := encodeFields (witnessFields wits)

theorem encodeRedeemers_ne_nil (rs : Redeemers) : encodeRedeemers rs ≠ [] := by
  cases rs with
  | list rs => exact List.append_ne_nil_of_left_ne_nil (head_ne_nil _ _) _
  | map rs => exact List.append_ne_nil_of_left_ne_nil (head_ne_nil _ _) _

/-- The datums of a witness set. -/
def encodeDatums (datums : List (KeepRaw PlutusData)) : Bytes := encodeSet (datums.map KeepRaw.rawCbor)

def TransactionBody.fresh (body : TransactionBody) : KeepRaw TransactionBody :=
  .fresh encodeBody body (encodeFields_ne_nil _)

def WitnessSet.fresh (wits : WitnessSet) : KeepRaw WitnessSet := .fresh encodeWitnessSet wits (encodeFields_ne_nil _)

def Redeemers.fresh (rs : Redeemers) : KeepRaw Redeemers := .fresh encodeRedeemers rs (encodeRedeemers_ne_nil rs)

/-- `Encode for Tx`. -/
def encodeTx (tx : Tx) : Bytes :=
  Cbor.array 4 ++ (tx.transactionBody.rawCbor ++ (tx.transactionWitnessSet.rawCbor ++
    (Cbor.bool tx.success ++ encodeNullable AuxiliaryData.rawCbor tx.auxiliaryData)))

end Conway
end Pallas
