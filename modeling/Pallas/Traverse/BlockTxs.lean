import Pallas.Codec.Containers
import Pallas.Codec.Derived
import Pallas.Codec.KeepRaw
import Pallas.Validate.Environment

/-!
# The transactions of a block (`pallas-traverse/src/{block,support,tx,probe}.rs`)

From Shelley to Conway a block holds its transactions in four collections: bodies, witness sets, auxiliary data by index, and the
indices of the invalid ones. Nothing asks that they go together, and an index is cut to 32 bits before it is looked up: `keeps_iff`
says for which blocks `txs` gives back what the block holds.
-/

namespace Pallas

/-- `From<Option<T>>`. -/
def Nullable.ofOption {α : Type} : Option α → Nullable α
  | Option.some a => .some a
  | Option.none => .null

namespace Traverse
open Std

structure MinicborBlocks (ε : Type) extends MinicborContainers ε, MinicborDerive ε

/-! ### The parts that are read by derived decoders -/

/-- The types of an era with their codecs. -/
structure EraCodecs (ε : Type) where
  Header : Type
  TransactionBody : Type
  WitnessSet : Type
  header : Codec ε Header
  transactionBody : Codec ε TransactionBody
  witnessSet : Codec ε WitnessSet

/-- Those of all eras. -/
structure Codecs (ε : Type) where
  EbBlock : Type
  ByronBlock : Type
  ByronTx : Type
  ByronWitnesses : Type
  Metadata : Type
  ShelleyMaAuxiliaryData : Type
  PostAlonzoAuxiliaryData : Type
  ebBlock : Codec ε EbBlock
  byronBlock : Codec ε ByronBlock
  byronTx : Codec ε ByronTx
  byronWitnesses : Codec ε ByronWitnesses
  metadata : Codec ε Metadata
  shelleyMaAuxiliaryData : Codec ε ShelleyMaAuxiliaryData
  postAlonzoAuxiliaryData : Codec ε PostAlonzoAuxiliaryData
  alonzo : EraCodecs ε
  babbage : EraCodecs ε
  conway : EraCodecs ε
  /-- `x.body.tx_payload`. -/
  txPayload : ByronBlock → List (Keep.KeepRaw ByronTx × Keep.KeepRaw ByronWitnesses)

variable {ε : Type}

namespace Codecs

inductive AuxiliaryData (cs : Codecs ε) where
  | shelley (x : cs.Metadata)
  | shelleyMa (x : cs.ShelleyMaAuxiliaryData)
  | postAlonzo (x : cs.PostAlonzoAuxiliaryData)

abbrev TxPayload (cs : Codecs ε) : Type := Keep.KeepRaw cs.ByronTx × Keep.KeepRaw cs.ByronWitnesses

end Codecs

/-- `Block` of an era, with auxiliary data of type `A`. -/
structure Block (E : EraCodecs ε) (A : Type) where
  header : Keep.KeepRaw E.Header
  transactionBodies : List (Keep.KeepRaw E.TransactionBody)
  transactionWitnessSets : List (Keep.KeepRaw E.WitnessSet)
  auxiliaryDataSet : FinMap TransactionIndex (Keep.KeepRaw A)
  invalidTransactions : Option (List TransactionIndex)

/-- `Tx` of an era. -/
structure Tx (E : EraCodecs ε) (A : Type) where
  transactionBody : Keep.KeepRaw E.TransactionBody
  transactionWitnessSet : Keep.KeepRaw E.WitnessSet
  success : Bool
  auxiliaryData : Nullable (Keep.KeepRaw A)

inductive MultiEraBlock (cs : Codecs ε) where
  | epochBoundary (x : cs.EbBlock)
  | alonzoCompatible (x : Block cs.alonzo cs.AuxiliaryData) (era : Era)
  | babbage (x : Block cs.babbage cs.AuxiliaryData)
  | byron (x : cs.ByronBlock)
  | conway (x : Block cs.conway cs.AuxiliaryData)

inductive MultiEraTx (cs : Codecs ε) where
  | alonzoCompatible (x : Tx cs.alonzo cs.AuxiliaryData) (era : Era)
  | babbage (x : Tx cs.babbage cs.AuxiliaryData)
  | byron (x : cs.TxPayload)
  | conway (x : Tx cs.conway cs.AuxiliaryData)

/-! ### `support.rs` -/

section Support
variable {E : EraCodecs ε} {A : Type}

/-- `clone_tx_fn!`. -/
def cloneTxAt (block : Block E A) (index : ℕ) : Option (Tx E A) := do
  let transactionBody ← block.transactionBodies[index]?
  let transactionWitnessSet ← block.transactionWitnessSets[index]?
  let success := !(block.invalidTransactions.map fun x => x.contains (UInt32.ofNat index)).getD false
  let auxiliaryData := Nullable.ofOption (block.auxiliaryDataSet.toList.findSome? fun e =>
    if e.1 = UInt32.ofNat index then some e.2 else none)
  pure { transactionBody, transactionWitnessSet, success, auxiliaryData }

def cloneTxs (block : Block E A) : List (Tx E A) :=
  (List.range block.transactionBodies.length).filterMap (cloneTxAt block)

variable {cs : Codecs ε}

def cloneAlonzoTxs : Block cs.alonzo A → List (Tx cs.alonzo A) := cloneTxs

def cloneBabbageTxs : Block cs.babbage A → List (Tx cs.babbage A) := cloneTxs

def cloneConwayTxs : Block cs.conway A → List (Tx cs.conway A) := cloneTxs

def cloneByronTxs (block : cs.ByronBlock) : List cs.TxPayload := cs.txPayload block

end Support

namespace MultiEraBlock
variable {cs : Codecs ε}

def era : MultiEraBlock cs → Era
  | epochBoundary _ => .byron
  | alonzoCompatible _ era => era
  | babbage _ => .babbage
  | byron _ => .byron
  | conway _ => .conway

def txs : MultiEraBlock cs → List (MultiEraTx cs)
  | alonzoCompatible x era => (cloneAlonzoTxs x).map fun x => .alonzoCompatible x era
  | babbage x => (cloneBabbageTxs x).map .babbage
  | byron x => (cloneByronTxs x).map .byron
  | conway x => (cloneConwayTxs x).map .conway
  | epochBoundary _ => []

def txCount : MultiEraBlock cs → ℕ
  | epochBoundary _ => 0
  | alonzoCompatible x _ => x.transactionBodies.length
  | babbage x => x.transactionBodies.length
  | byron x => (cs.txPayload x).length
  | conway x => x.transactionBodies.length

end MultiEraBlock

/-! ### Codecs -/

section Codec
variable (m : MinicborBlocks ε) (cs : Codecs ε) {E : EraCodecs ε} {A : Type}

def keepRaw {T : Type} (inner : Codec ε T) :
    Codec ε (Keep.KeepRaw T) := ⟨Keep.KeepRaw.decode inner.decode, Keep.KeepRaw.encode inner.encode⟩

def decodeAuxiliaryData : (datatype : CborType) → Reader ε cs.AuxiliaryData
  | .map | .mapIndef => .shelley <$> cs.metadata.decode
  | .array | .arrayIndef => .shelleyMa <$> cs.shelleyMaAuxiliaryData.decode
  | .tag => .postAlonzo <$> cs.postAlonzoAuxiliaryData.decode
  | _ => Reader.throw (m.message "Unknown cbor data type for this macro-defined enum.")

/-- `codec_by_datatype!` for `AuxiliaryData`. -/
def auxiliaryData : Codec ε cs.AuxiliaryData where
  decode := do
    decodeAuxiliaryData m cs (← m.peekType)
  encode
    | .shelley x => cs.metadata.encode x
    | .shelleyMa x => cs.shelleyMaAuxiliaryData.encode x
    | .postAlonzo x => cs.postAlonzoAuxiliaryData.encode x

/-- `Decode for Block`. -/
def decodeBlock (aux : Codec ε A) : Reader ε (Block E A) :=
  Derived.struct₅ m.toMinicborDerive (keepRaw E.header).decode (m.arrayIter (keepRaw E.transactionBody).decode)
    (m.arrayIter (keepRaw E.witnessSet).decode) (Derived.btreeMap m.toMinicborDerive m.u32 (keepRaw aux).decode)
    (Derived.optional m.toMinicborDerive (m.arrayIter m.u32)) Block.mk

/-- The codec of `Tx`. -/
def tx (aux : Codec ε A) : Codec ε (Tx E A) where
  decode := Derived.struct₄ m.toMinicborDerive (keepRaw E.transactionBody).decode (keepRaw E.witnessSet).decode m.bool
    (Codec.nullable m.toMinicborContainers (keepRaw aux)).decode Tx.mk
  encode x := Cbor.array 4 ++ ((keepRaw E.transactionBody).encode x.transactionBody ++
    ((keepRaw E.witnessSet).encode x.transactionWitnessSet ++ (Cbor.bool x.success ++
      (Codec.nullable m.toMinicborContainers (keepRaw aux)).encode x.auxiliaryData)))

/-- The codec of `byron::TxPayload`. -/
def txPayload : Codec ε cs.TxPayload where
  decode := Derived.struct₂ m.toMinicborDerive (keepRaw cs.byronTx).decode (keepRaw cs.byronWitnesses).decode Prod.mk
  encode x := Cbor.array 2 ++ ((keepRaw cs.byronTx).encode x.1 ++ (keepRaw cs.byronWitnesses).encode x.2)

end Codec

/-! ### `probe::block_era` -/

namespace Probe

inductive Outcome where
  | matched (era : Era)
  | epochBoundary
  | inconclusive

/-- The tag of the wrapper, which has to be written in one or two bytes. -/
def blockEra (m : MinicborBlocks ε) (cbor : Bytes) : Outcome :=
  match m.array.run cbor with
  | (.ok (some 2), rest) =>
    match m.datatype rest, (m.u8.run rest).1 with
    | .ok .u8, .ok variant =>
      match variant.toNat with
      | 0 => .epochBoundary
      | 1 => .matched .byron
      | 2 => .matched .shelley
      | 3 => .matched .allegra
      | 4 => .matched .mary
      | 5 => .matched .alonzo
      | 6 => .matched .babbage
      | 7 => .matched .conway
      | _ => .inconclusive
    | _, _ => .inconclusive
  | _ => .inconclusive

end Probe

inductive Error (ε : Type) where
  | invalidCbor (e : ε)
  | unknownCbor (bytes : Bytes)

namespace MultiEraBlock
variable (m : MinicborBlocks ε) {cs : Codecs ε}

/-- A block behind the tag of its era. -/
def decodeWrapper {B : Type} (block : Reader ε B) (cbor : Bytes) : Except (Error ε) B :=
  ((m.pair m.u16 block).run cbor).1.mapError .invalidCbor |>.map Prod.snd

def decodeEpochBoundary (cbor : Bytes) : Except (Error ε) (MultiEraBlock cs) :=
  (decodeWrapper m cs.ebBlock.decode cbor).map .epochBoundary

def decodeByron (cbor : Bytes) : Except (Error ε) (MultiEraBlock cs) :=
  (decodeWrapper m cs.byronBlock.decode cbor).map .byron

def decodeShelley (cbor : Bytes) : Except (Error ε) (MultiEraBlock cs) :=
  (decodeWrapper m (decodeBlock m (auxiliaryData m cs)) cbor).map fun block => .alonzoCompatible block .shelley

def decodeAllegra (cbor : Bytes) : Except (Error ε) (MultiEraBlock cs) :=
  (decodeWrapper m (decodeBlock m (auxiliaryData m cs)) cbor).map fun block => .alonzoCompatible block .allegra

def decodeMary (cbor : Bytes) : Except (Error ε) (MultiEraBlock cs) :=
  (decodeWrapper m (decodeBlock m (auxiliaryData m cs)) cbor).map fun block => .alonzoCompatible block .mary

def decodeAlonzo (cbor : Bytes) : Except (Error ε) (MultiEraBlock cs) :=
  (decodeWrapper m (decodeBlock m (auxiliaryData m cs)) cbor).map fun block => .alonzoCompatible block .alonzo

def decodeBabbage (cbor : Bytes) : Except (Error ε) (MultiEraBlock cs) :=
  (decodeWrapper m (decodeBlock m (auxiliaryData m cs)) cbor).map .babbage

def decodeConway (cbor : Bytes) : Except (Error ε) (MultiEraBlock cs) :=
  (decodeWrapper m (decodeBlock m (auxiliaryData m cs)) cbor).map .conway

def decode (cbor : Bytes) : Except (Error ε) (MultiEraBlock cs) :=
  match Probe.blockEra m cbor with
  | .epochBoundary => decodeEpochBoundary m cbor
  | .matched .byron => decodeByron m cbor
  | .matched .shelley => decodeShelley m cbor
  | .matched .allegra => decodeAllegra m cbor
  | .matched .mary => decodeMary m cbor
  | .matched .alonzo => decodeAlonzo m cbor
  | .matched .babbage => decodeBabbage m cbor
  | .matched .conway => decodeConway m cbor
  | .inconclusive => .error (.unknownCbor cbor)

end MultiEraBlock

namespace MultiEraTx
variable (m : MinicborBlocks ε) {cs : Codecs ε}

def encode : MultiEraTx cs → Bytes
  | alonzoCompatible x _ => (tx m (auxiliaryData m cs)).encode x
  | babbage x => (tx m (auxiliaryData m cs)).encode x
  | byron x => (txPayload m cs).encode x
  | conway x => (tx m (auxiliaryData m cs)).encode x

def decodeForEra (era : Era) (cbor : Bytes) : Except ε (MultiEraTx cs) :=
  match era with
  | .byron => ((txPayload m cs).decode.run cbor).1.map .byron
  | .shelley | .allegra | .mary | .alonzo =>
    ((tx m (auxiliaryData m cs)).decode.run cbor).1.map fun x => .alonzoCompatible x era
  | .babbage => ((tx m (auxiliaryData m cs)).decode.run cbor).1.map .babbage
  | .conway => ((tx m (auxiliaryData m cs)).decode.run cbor).1.map .conway

def hash (c : Crypto) : MultiEraTx cs → Hash 32
  | alonzoCompatible x _ => c.blake2b256 x.transactionBody.rawCbor
  | babbage x => c.blake2b256 x.transactionBody.rawCbor
  | byron x => c.blake2b256 x.1.rawCbor
  | conway x => c.blake2b256 x.transactionBody.rawCbor

end MultiEraTx

/-! ### What is asked of a block -/

namespace Block
variable {E : EraCodecs ε} {A : Type} (block : Block E A)

/-- The auxiliary data under an index, which is that of a transaction. -/
def filedUnder (i : ℕ) : Option (Keep.KeepRaw A) := if i < 2 ^ 32 then block.auxiliaryDataSet[UInt32.ofNat i]? else none

/-- The transaction at an index is made of what the block holds under it. -/
structure Carries (i : ℕ) (x : Tx E A) : Prop where
  body : block.transactionBodies[i]? = some x.transactionBody
  witnessSet : block.transactionWitnessSets[i]? = some x.transactionWitnessSet
  success : x.success = false ↔ ∃ k ∈ block.invalidTransactions.getD [], k.toNat = i
  auxiliaryData : x.auxiliaryData = .ofOption (block.filedUnder i)

/-- There is a witness set for each body, and nothing is filed under what is left of an index of more than 32 bits. -/
structure Filed : Prop where
  enough : block.transactionBodies.length ≤ block.transactionWitnessSets.length
  narrow : ∀ i < block.transactionBodies.length, 2 ^ 32 ≤ i →
    UInt32.ofNat i ∉ block.invalidTransactions.getD [] ∧ block.auxiliaryDataSet[UInt32.ofNat i]? = none

end Block

namespace MultiEraBlock
variable {cs : Codecs ε}

def Carries (i : ℕ) : MultiEraBlock cs → MultiEraTx cs → Prop
  | alonzoCompatible block era, .alonzoCompatible x era' => era' = era ∧ block.Carries i x
  | babbage block, .babbage x => block.Carries i x
  | byron block, .byron x => (cs.txPayload block)[i]? = some x
  | conway block, .conway x => block.Carries i x
  | _, _ => False

/-- No transaction is lost or mislabelled. -/
structure Keeps (m : MinicborBlocks ε) (b : MultiEraBlock cs) : Prop where
  count : b.txs.length = b.txCount
  carries : ∀ i x, b.txs[i]? = some x → b.Carries i x
  again : ∀ x ∈ b.txs, ∃ x', MultiEraTx.decodeForEra m b.era (x.encode m) = .ok x' ∧ x' = x ∧ ∀ c, x'.hash c = x.hash c

def Filed : MultiEraBlock cs → Prop
  | alonzoCompatible block _ => block.Filed
  | babbage block => block.Filed
  | conway block => block.Filed
  | _ => True

end MultiEraBlock

/-! ### What the derived decoders are relied on for -/

/-- Whatever follows the bytes that the reader took, it takes them, and there are some. -/
def Local {α : Type} (x : Reader ε α) : Prop := ∀ w rest a, x.run (w ++ rest) = (.ok a, rest) → w ≠ [] ∧ x.Takes w a

structure EraCodecs.Local (E : EraCodecs ε) : Prop where
  transactionBody : Traverse.Local E.transactionBody.decode
  witnessSet : Traverse.Local E.witnessSet.decode

structure Codecs.Local (cs : Codecs ε) : Prop where
  metadata : Traverse.Local cs.metadata.decode
  shelleyMaAuxiliaryData : Traverse.Local cs.shelleyMaAuxiliaryData.decode
  postAlonzoAuxiliaryData : Traverse.Local cs.postAlonzoAuxiliaryData.decode
  alonzo : cs.alonzo.Local
  babbage : cs.babbage.Local
  conway : cs.conway.Local

/-- The type of an item that is no integer shows in its first byte. -/
structure MinicborBlocks.Lawful (m : MinicborBlocks ε) : Prop extends toContainers : m.toMinicborContainers.Lawful where
  datatype_first : ∀ b tail tail' t, m.datatype (b :: tail) = .ok t → t.isInt = false → m.datatype (b :: tail') = .ok t

/-! ### Each transaction from its index -/

section CloneTxs

theorem getElem?_filterMap_range {α : Type} {f : ℕ → Option α}
    (hf : ∀ i j, i ≤ j → (f j).isSome → (f i).isSome) (n i : ℕ) :
    ((List.range n).filterMap f)[i]? = if i < n then f i else none := by
  induction n generalizing i with
  | zero => simp
  | succ n ih =>
    rw [List.range_succ, List.filterMap_append, List.filterMap_cons, List.filterMap_nil]
    cases hlast : f n with
    | none =>
      rw [List.append_nil, ih]
      by_cases hi : i = n
      · rw [hi, if_neg (Nat.lt_irrefl n), if_pos (Nat.lt_succ_self n), hlast]
      · rw [if_congr (show i < n ↔ i < n + 1 by omega) rfl rfl]
    | some a =>
      have hlength : ((List.range n).filterMap f).length = n := by
        refine Nat.le_antisymm (List.getElem?_eq_none_iff.1 (by rw [ih, if_neg (Nat.lt_irrefl n)])) ?_
        by_contra hlt
        have hend := ih ((List.range n).filterMap f).length
        rw [List.getElem?_eq_none (Nat.le_refl _), if_pos (by omega)] at hend
        have hsome := hf ((List.range n).filterMap f).length n (by omega) (by rw [hlast]; rfl)
        rw [← hend] at hsome
        cases hsome
      rw [List.getElem?_append, ih, hlength]
      by_cases hi : i < n
      · rw [if_pos hi, if_pos hi, if_pos (by omega)]
      rw [if_neg hi]
      by_cases hn : i = n
      · rw [hn, Nat.sub_self, if_pos (Nat.lt_succ_self n), hlast]
        rfl
      · rw [if_neg (by omega), List.getElem?_eq_none (by simp; omega)]

variable {E : EraCodecs ε} {A : Type} {block : Block E A} {i : ℕ} {x : Tx E A}

theorem findSome?_toList {map : FinMap TransactionIndex (Keep.KeepRaw A)} {k : TransactionIndex} :
    (map.toList.findSome? fun e => if e.1 = k then some e.2 else none) = map[k]? := by
  cases hk : map[k]? with
  | none =>
    refine List.findSome?_eq_none_iff.2 fun e he => ?_
    rw [if_neg]
    rintro rfl
    have hsome := (FinMap.mem_toList (k := e.1) (v := e.2)).1 he
    rw [hk] at hsome
    cases hsome
  | some a =>
    obtain ⟨v, hv⟩ := Option.isSome_iff_exists.1
      (List.findSome?_isSome_iff.2 ⟨(k, a), FinMap.mem_toList.2 hk, by rw [if_pos rfl]; rfl⟩ :
        (map.toList.findSome? fun e => if e.1 = k then some e.2 else none).isSome)
    rw [hv]
    obtain ⟨e, he, hif⟩ := List.exists_of_findSome?_eq_some hv
    split at hif
    · next heq =>
      cases hif
      rw [← heq, FinMap.mem_toList.1 he] at hk
      exact hk
    · cases hif

theorem cloneTxAt_eq_some : cloneTxAt block i = some x ↔ block.transactionBodies[i]? = some x.transactionBody ∧
    block.transactionWitnessSets[i]? = some x.transactionWitnessSet ∧
    x.success = !(block.invalidTransactions.getD []).contains (UInt32.ofNat i) ∧
    x.auxiliaryData = .ofOption block.auxiliaryDataSet[UInt32.ofNat i]? := by
  have hinvalid : (block.invalidTransactions.map fun x => x.contains (UInt32.ofNat i)).getD false =
      (block.invalidTransactions.getD []).contains (UInt32.ofNat i) := by cases block.invalidTransactions <;> rfl
  simp only [cloneTxAt, findSome?_toList, hinvalid]
  obtain ⟨body, wits, success, aux⟩ := x
  rcases block.transactionBodies[i]? with _ | body'
  · simp
  rcases block.transactionWitnessSets[i]? with _ | wits'
  · simp
  simp only [Option.bind_eq_bind, Option.bind_some, Option.pure_def, Option.some.injEq, Tx.mk.injEq]
  tauto

theorem cloneTxAt_isSome : (cloneTxAt block i).isSome ↔
    i < block.transactionBodies.length ∧ i < block.transactionWitnessSets.length := by
  rw [Option.isSome_iff_exists]
  constructor
  · rintro ⟨x, hx⟩
    obtain ⟨hbody, hwits, -⟩ := cloneTxAt_eq_some.1 hx
    exact ⟨(List.getElem?_eq_some_iff.1 hbody).1, (List.getElem?_eq_some_iff.1 hwits).1⟩
  · rintro ⟨hbody, hwits⟩
    exact ⟨⟨_, _, _, _⟩, cloneTxAt_eq_some.2 ⟨List.getElem?_eq_getElem hbody, List.getElem?_eq_getElem hwits, rfl, rfl⟩⟩

theorem cloneTxs_getElem? (i : ℕ) : (cloneTxs block)[i]? = cloneTxAt block i := by
  refine (getElem?_filterMap_range (fun i j hij hj => ?_) _ i).trans ?_
  · have hj := cloneTxAt_isSome.1 hj
    exact cloneTxAt_isSome.2 ⟨by omega, by omega⟩
  · split
    · rfl
    · next hi =>
        exact (Option.eq_none_iff_forall_ne_some.2 fun x hx => hi (cloneTxAt_isSome.1 (by rw [hx]; rfl)).1).symm

theorem cloneTxs_length : (cloneTxs block).length = block.transactionBodies.length ↔
    block.transactionBodies.length ≤ block.transactionWitnessSets.length := by
  have hbound : ∀ i, i < (cloneTxs block).length ↔
      i < block.transactionBodies.length ∧ i < block.transactionWitnessSets.length := by
    intro i
    rw [← cloneTxAt_isSome, ← cloneTxs_getElem?]
    simp
  constructor
  · intro hlength
    by_contra hlt
    have hlast := (hbound (block.transactionBodies.length - 1)).1 (by omega)
    omega
  · intro hle
    have hend := hbound (cloneTxs block).length
    have hlast := (hbound (block.transactionBodies.length - 1)).2
    have hnext := (hbound block.transactionBodies.length).1
    omega

theorem carries_iff (h : cloneTxAt block i = some x) : block.Carries i x ↔ (2 ^ 32 ≤ i →
    UInt32.ofNat i ∉ block.invalidTransactions.getD [] ∧ block.auxiliaryDataSet[UInt32.ofNat i]? = none) := by
  obtain ⟨hbody, hwits, hsuccess, haux⟩ := cloneTxAt_eq_some.1 h
  have hfalse : x.success = false ↔ UInt32.ofNat i ∈ block.invalidTransactions.getD [] := by
    rw [hsuccess, Bool.not_eq_false', List.contains_iff_mem]
  have hfiled : i < 2 ^ 32 → ((∃ k ∈ block.invalidTransactions.getD [], k.toNat = i) ↔
      UInt32.ofNat i ∈ block.invalidTransactions.getD []) := by
    intro hi
    constructor
    · rintro ⟨k, hk, rfl⟩
      rwa [UInt32.ofNat_toNat]
    · exact fun hk => ⟨_, hk, UInt32.toNat_ofNat_of_lt' hi⟩
  constructor
  · intro hcarries hi
    constructor
    · intro hmem
      obtain ⟨k, -, hk⟩ := hcarries.success.1 (hfalse.2 hmem)
      have hlt := k.toNat_lt
      omega
    · have hnull := hcarries.auxiliaryData
      rw [haux, Block.filedUnder, if_neg (by omega)] at hnull
      cases hset : block.auxiliaryDataSet[UInt32.ofNat i]? with
      | none => rfl
      | some a =>
        rw [hset] at hnull
        cases hnull
  · intro hwide
    refine ⟨hbody, hwits, hfalse.trans ?_, haux.trans ?_⟩
    · by_cases hi : i < 2 ^ 32
      · exact (hfiled hi).symm
      · refine iff_of_false (hwide (by omega)).1 ?_
        rintro ⟨k, -, rfl⟩
        exact hi k.toNat_lt
    · by_cases hi : i < 2 ^ 32
      · rw [Block.filedUnder, if_pos hi]
      · rw [Block.filedUnder, if_neg hi, (hwide (by omega)).2]

theorem filed_iff : block.Filed ↔ (cloneTxs block).length = block.transactionBodies.length ∧
    ∀ i x, (cloneTxs block)[i]? = some x → block.Carries i x := by
  rw [cloneTxs_length]
  constructor
  · intro hfiled
    refine ⟨hfiled.enough, fun i x hx => (carries_iff (cloneTxs_getElem? i ▸ hx)).2 fun hi => ?_⟩
    rw [cloneTxs_getElem?] at hx
    exact hfiled.narrow i (cloneTxAt_isSome.1 (by rw [hx]; rfl)).1 hi
  · rintro ⟨hle, hcarries⟩
    refine ⟨hle, fun i hi hwide => ?_⟩
    obtain ⟨x, hx⟩ := Option.isSome_iff_exists.1 (cloneTxAt_isSome.2 ⟨hi, by omega⟩)
    exact (carries_iff hx).1 (hcarries i x ((cloneTxs_getElem? i).trans hx)) hwide

end CloneTxs

/-! ### Each transaction from its bytes -/

section Again
variable {m : MinicborBlocks ε} {cs : Codecs ε} {E : EraCodecs ε} {A T : Type}

/-- What was decoded together with its bytes is decoded from them again. -/
def Held (inner : Reader ε T) (k : Keep.KeepRaw T) : Prop := k.raw ≠ [] ∧ inner.Takes k.raw k.inner

theorem keepRaw_gives {inner : Codec ε T} (h : Local inner.decode) :
    Derived.Gives (Held inner.decode) (keepRaw inner).decode := by
  intro bs k rest hrun
  obtain ⟨hinner, hraw⟩ := Keep.KeepRaw.decode_eq_ok.1 hrun
  have hforward := inner.decode.forward bs
  rw [hinner] at hforward
  obtain ⟨w, rfl⟩ := hforward
  rw [List.length_append, Nat.add_sub_cancel, List.take_left] at hraw
  rw [Held, hraw]
  exact h w rest k.inner hinner

theorem Held.takes {inner : Codec ε T} {k : Keep.KeepRaw T} (h : Held inner.decode k) :
    (keepRaw inner).decode.Takes ((keepRaw inner).encode k) k := by
  have hraw : (keepRaw inner).encode k = k.raw := if_neg (by simpa [Keep.KeepRaw.rawCbor] using h.1)
  rw [hraw]
  exact Keep.KeepRaw.decode_takes h.2

theorem Local.map {α β : Type} {x : Reader ε α} (h : Local x) (f : α → β) : Local (f <$> x) := by
  intro w rest b hrun
  rw [← bind_pure_comp] at hrun ⊢
  obtain ⟨a, mid, ha, hb⟩ := Reader.bind_eq_ok.1 hrun
  cases hb
  obtain ⟨hne, htakes⟩ := h w rest a ha
  exact ⟨hne, htakes.last rfl⟩

/-- Auxiliary data is a map, an array or behind a tag. -/
def isAuxiliary : CborType → Bool
  | .map | .mapIndef | .array | .arrayIndef | .tag => true
  | _ => false

theorem decodeAuxiliaryData_local (hcs : cs.Local) {t : CborType} (ht : isAuxiliary t) :
    Local (decodeAuxiliaryData m cs t) := by
  match t with
  | .map | .mapIndef => exact hcs.metadata.map _
  | .array | .arrayIndef => exact hcs.shelleyMaAuxiliaryData.map _
  | .tag => exact hcs.postAlonzoAuxiliaryData.map _

theorem isAuxiliary_of_decode {t : CborType} {bs rest : Bytes} {x : cs.AuxiliaryData}
    (h : (decodeAuxiliaryData m cs t).run bs = (.ok x, rest)) : isAuxiliary t := by
  unfold decodeAuxiliaryData at h
  split at h
  case h_6 => cases h
  all_goals rfl

theorem auxiliaryData_local (hm : m.Lawful) (hcs : cs.Local) {w rest : Bytes} {x : cs.AuxiliaryData}
    (h : (auxiliaryData m cs).decode.run (w ++ rest) = (.ok x, rest)) : w ≠ [] ∧ (auxiliaryData m cs).decode.Takes w x ∧
      ∀ rest', ∃ t, m.datatype (w ++ rest') = .ok t ∧ isAuxiliary t := by
  obtain ⟨t, ht, hrun⟩ := Wrapper.peek_eq_ok h
  have haux := isAuxiliary_of_decode hrun
  obtain ⟨hne, htakes⟩ := decodeAuxiliaryData_local hcs haux w rest x hrun
  have htype : ∀ rest', m.datatype (w ++ rest') = .ok t := by
    obtain ⟨b, tail, rfl⟩ := List.exists_cons_of_ne_nil hne
    intro rest'
    exact hm.datatype_first b (tail ++ rest)
      (tail ++ rest') t ht (by cases t <;> simp_all [isAuxiliary, CborType.isInt])
  exact ⟨hne, fun rest' => (Wrapper.run_peek (htype rest') _).trans (htakes rest'), fun rest' => ⟨t, htype rest', haux⟩⟩

theorem nullable_takes (hm : m.Lawful) (hcs : cs.Local) {a : Option (Keep.KeepRaw cs.AuxiliaryData)}
    (h : ∀ k, a = some k → Held (auxiliaryData m cs).decode k) :
    (Codec.nullable m.toMinicborContainers (keepRaw (auxiliaryData m cs))).decode.Takes
      ((Codec.nullable m.toMinicborContainers (keepRaw (auxiliaryData m cs))).encode (.ofOption a)) (.ofOption a) := by
  intro rest
  cases a with
  | none =>
    have htype : m.datatype (0xf6 :: rest) = .ok .null := (hm.datatype_null _).2 ⟨rest, rfl⟩
    exact (Wrapper.run_peek htype _).trans (Reader.bind_eq_ok.2 ⟨(), rest, (hm.null _ _).2 rfl, rfl⟩)
  | some k =>
    have htakes := (h k rfl).takes rest
    obtain ⟨hinner, -⟩ := Keep.KeepRaw.decode_eq_ok.1 htakes
    obtain ⟨-, -, htype⟩ := auxiliaryData_local hm hcs hinner
    obtain ⟨t, ht, haux⟩ := htype rest
    refine (Wrapper.run_peek ht _).trans ?_
    split
    · cases haux
    · cases haux
    · rw [← bind_pure_comp]
      exact Reader.bind_eq_ok.2 ⟨k, rest, htakes, rfl⟩

theorem tx_takes (hm : m.Lawful) (hcs : cs.Local) {x : Tx E cs.AuxiliaryData}
    (hbody : Held E.transactionBody.decode x.transactionBody)
    (hwits : Held E.witnessSet.decode x.transactionWitnessSet) {a : Option (Keep.KeepRaw cs.AuxiliaryData)}
    (haux : x.auxiliaryData = .ofOption a) (ha : ∀ k, a = some k → Held (auxiliaryData m cs).decode k) :
    (tx m (auxiliaryData m cs)).decode.Takes ((tx m (auxiliaryData m cs)).encode x) x := by
  have hnullable := nullable_takes hm hcs ha
  rw [← haux] at hnullable
  exact Derived.struct₄_takes hm.toValues hbody.takes hwits.takes (hm.toValues.bool_takes x.success) hnullable Tx.mk

/-- The parts of a block that was decoded. -/
structure HeldBlock (m : MinicborBlocks ε) (block : Block E cs.AuxiliaryData) : Prop where
  body : ∀ k ∈ block.transactionBodies, Held E.transactionBody.decode k
  witnessSet : ∀ k ∈ block.transactionWitnessSets, Held E.witnessSet.decode k
  auxiliary : ∀ (i : TransactionIndex) k, block.auxiliaryDataSet[i]? = some k → Held (auxiliaryData m cs).decode k

theorem decodeBlock_gives (hm : m.Lawful) (hcs : cs.Local) (hE : E.Local) :
    Derived.Gives (HeldBlock m) (decodeBlock m (auxiliaryData m cs) : Reader ε (Block E cs.AuxiliaryData)) := by
  have haux : Local (auxiliaryData m cs).decode := fun w rest x h => by
    obtain ⟨hne, htakes, -⟩ := auxiliaryData_local hm hcs h
    exact ⟨hne, htakes⟩
  have hbodies := Derived.arrayIter_gives (m := m.toMinicborDerive) hm.toValues (keepRaw_gives hE.transactionBody)
  have hwits := Derived.arrayIter_gives (m := m.toMinicborDerive) hm.toValues (keepRaw_gives hE.witnessSet)
  refine Derived.struct₅_gives (.trivial _) hbodies hwits
    (Derived.btreeMap_gives (m := m.toMinicborDerive) hm.toValues (keepRaw_gives haux)) ?_
  exact fun _ _ _ _ _ _ hbody hwits haux => ⟨hbody, hwits, haux⟩

theorem HeldBlock.takes (hm : m.Lawful) (hcs : cs.Local) {block : Block E cs.AuxiliaryData} (h : HeldBlock m block)
    {x : Tx E cs.AuxiliaryData} (hx : x ∈ cloneTxs block) :
    (tx m (auxiliaryData m cs)).decode.Takes ((tx m (auxiliaryData m cs)).encode x) x := by
  obtain ⟨i, hi⟩ := List.mem_iff_getElem?.1 hx
  rw [cloneTxs_getElem?] at hi
  obtain ⟨hbody, hwits, -, haux⟩ := cloneTxAt_eq_some.1 hi
  exact tx_takes hm hcs (h.body _ (List.mem_of_getElem? hbody)) (h.witnessSet _ (List.mem_of_getElem? hwits)) haux
    fun k hk => h.auxiliary _ k hk

theorem decodeWrapper_gives (hm : m.Lawful) {B : Type} {P : B → Prop} {x : Reader ε B}
    (hx : Derived.Gives P x) {cbor : Bytes} {b : B}
    (h : MultiEraBlock.decodeWrapper m x cbor = .ok b) : P b := by
  unfold MultiEraBlock.decodeWrapper at h
  rcases hrun : (m.pair m.u16 x).run cbor with ⟨_ | p, rest⟩
  · rw [hrun] at h
    cases h
  · rw [hrun] at h
    cases h
    obtain ⟨mid, -, hentry⟩ := (hm.toValues.pair _ _ _ _ _).1 hrun
    have hgives : Derived.Gives (fun e => P e.2) (entry m.u16 x) :=
      (Derived.Gives.trivial _).bind fun _ _ => hx.bind fun _ hb => .pure hb
    exact hgives _ _ _ hentry

end Again

/-! ### Blocks of any era -/

section Blocks
variable {m : MinicborBlocks ε} {cs : Codecs ε}

/-- What decoding makes sure of. -/
def HeldMultiEraBlock (m : MinicborBlocks ε) : MultiEraBlock cs → Prop
  | .alonzoCompatible block era => era ∈ [.shelley, .allegra, .mary, .alonzo] ∧ HeldBlock m block
  | .babbage block => HeldBlock m block
  | .conway block => HeldBlock m block
  | _ => True

theorem map_eq_ok {α β η : Type} {f : α → β} {x : Except η α} {b : β} (h : x.map f = .ok b) :
    ∃ a, x = .ok a ∧ f a = b := by
  cases x with
  | error e => cases h
  | ok a => exact ⟨a, rfl, Except.ok.inj h⟩

theorem decode_held (hm : m.Lawful) (hcs : cs.Local) {cbor : Bytes} {b : MultiEraBlock cs}
    (h : MultiEraBlock.decode m cbor = .ok b) :
    HeldMultiEraBlock m b := by
  have halonzo : ∀ block, MultiEraBlock.decodeWrapper m _ cbor = .ok block → _ := fun block =>
    decodeWrapper_gives hm (decodeBlock_gives hm hcs hcs.alonzo)
  unfold MultiEraBlock.decode at h
  split at h
  · obtain ⟨_, -, rfl⟩ := map_eq_ok h
    exact True.intro
  · obtain ⟨_, -, rfl⟩ := map_eq_ok h
    exact True.intro
  · obtain ⟨block, hblock, rfl⟩ := map_eq_ok h
    exact ⟨by simp, halonzo block hblock⟩
  · obtain ⟨block, hblock, rfl⟩ := map_eq_ok h
    exact ⟨by simp, halonzo block hblock⟩
  · obtain ⟨block, hblock, rfl⟩ := map_eq_ok h
    exact ⟨by simp, halonzo block hblock⟩
  · obtain ⟨block, hblock, rfl⟩ := map_eq_ok h
    exact ⟨by simp, halonzo block hblock⟩
  · obtain ⟨block, hblock, rfl⟩ := map_eq_ok h
    exact decodeWrapper_gives hm (decodeBlock_gives hm hcs hcs.babbage) hblock
  · obtain ⟨block, hblock, rfl⟩ := map_eq_ok h
    exact decodeWrapper_gives hm (decodeBlock_gives hm hcs hcs.conway) hblock
  · cases h

variable {E : EraCodecs ε}

theorem map_carries {A : Type} {block : Block E A} {of : Tx E A → MultiEraTx cs} {carries : ℕ → MultiEraTx cs → Prop}
    (hcarries : ∀ i x, carries i (of x) ↔ block.Carries i x) :
    (∀ i y, ((cloneTxs block).map of)[i]? = some y → carries i y) ↔ ∀ i x, (cloneTxs block)[i]? = some x →
      block.Carries i x := by
  simp only [List.getElem?_map, Option.map_eq_some_iff]
  constructor
  · exact fun h i x hx => (hcarries i x).1 (h i _ ⟨x, hx, rfl⟩)
  · rintro h i _ ⟨x, hx, rfl⟩
    exact (hcarries i x).2 (h i x hx)

theorem again (hm : m.Lawful) (hcs : cs.Local) {b : MultiEraBlock cs} (hheld : HeldMultiEraBlock m b)
    (hera : b.era ≠ .byron) :
    ∀ x ∈ b.txs, MultiEraTx.decodeForEra m b.era (x.encode m) = .ok x := by
  have hrun : ∀ {E : EraCodecs ε} {block : Block E cs.AuxiliaryData}, HeldBlock m block → ∀ x ∈ cloneTxs block,
      ((tx m (auxiliaryData m cs)).decode.run ((tx m (auxiliaryData m cs)).encode x)).1 = .ok x := by
    intro E block hblock x hx
    have htakes := hblock.takes hm hcs hx []
    rw [List.append_nil] at htakes
    rw [htakes]
  intro y hy
  cases b with
  | epochBoundary => exact absurd rfl hera
  | byron => exact absurd rfl hera
  | alonzoCompatible block era =>
    obtain ⟨x, hx, rfl⟩ := List.mem_map.1 hy
    obtain ⟨hmem, hblock⟩ := hheld
    simp only [List.mem_cons, List.not_mem_nil, or_false] at hmem
    obtain rfl | rfl | rfl | rfl := hmem
    all_goals exact congrArg (Except.map _) (hrun hblock x hx)
  | babbage block =>
    obtain ⟨x, hx, rfl⟩ := List.mem_map.1 hy
    exact congrArg (Except.map _) (hrun hheld x hx)
  | conway block =>
    obtain ⟨x, hx, rfl⟩ := List.mem_map.1 hy
    exact congrArg (Except.map _) (hrun hheld x hx)

theorem count_carries_iff {b : MultiEraBlock cs} (hera : b.era ≠ .byron) :
    (b.txs.length = b.txCount ∧ ∀ i x, b.txs[i]? = some x → b.Carries i x) ↔ b.Filed := by
  cases b with
  | epochBoundary => exact absurd rfl hera
  | byron => exact absurd rfl hera
  | alonzoCompatible block era =>
    refine (and_congr ?_ (map_carries fun i x => ?_)).trans filed_iff.symm
    · exact Eq.congr_left (List.length_map _)
    · exact and_iff_right rfl
  | babbage block =>
    refine (and_congr ?_ (map_carries fun i x => Iff.rfl)).trans filed_iff.symm
    exact Eq.congr_left (List.length_map _)
  | conway block =>
    refine (and_congr ?_ (map_carries fun i x => Iff.rfl)).trans filed_iff.symm
    exact Eq.congr_left (List.length_map _)

/-- A block keeps its transactions exactly if there are enough witness sets, and nothing is filed under what is left of the index of
one behind the first 2³². -/
theorem keeps_iff (hm : m.Lawful) (hcs : cs.Local) {cbor : Bytes} {b : MultiEraBlock cs}
    (h : MultiEraBlock.decode m cbor = .ok b)
    (hera : b.era ≠ .byron) : b.Keeps m ↔ b.Filed := by
  rw [← count_carries_iff hera]
  constructor
  · exact fun hkeeps => ⟨hkeeps.count, hkeeps.carries⟩
  · rintro ⟨hcount, hcarries⟩
    exact ⟨hcount, hcarries, fun x hx => ⟨x, again hm hcs (decode_held hm hcs h) hera x hx, rfl, fun _ => rfl⟩⟩

end Blocks

/-! ### A Conway block of one body, with and without its witness set -/

/-- These bytes, and no others. -/
def literal (w : Bytes) : Codec String Unit where
  decode := ⟨fun bs => if w.isPrefixOf bs then (.ok (), bs.drop w.length) else (.error "decode error", bs), fun bs => by
    split
    · exact List.drop_suffix _ _
    · exact List.suffix_refl _⟩
  encode _ := w

theorem literal_local {w : Bytes} (hw : w ≠ []) : Local (literal w).decode := by
  have hrun : ∀ bs, w <+: bs → (literal w).decode.run bs = (.ok (), bs.drop w.length) :=
    fun bs h => if_pos (List.isPrefixOf_iff_prefix.2 h)
  intro v rest a h
  by_cases hpre : w <+: v ++ rest
  · rw [hrun _ hpre] at h
    obtain ⟨tail, htail⟩ := hpre
    rw [← htail, List.drop_left, Prod.mk.injEq] at h
    obtain rfl := h.2
    obtain rfl := List.append_cancel_right htail
    refine ⟨hw, fun rest' => ?_⟩
    rw [hrun _ (List.prefix_append _ _), List.drop_left]
  · have herror : (literal w).decode.run (v ++ rest) = (.error "decode error", v ++ rest) :=
      if_neg fun h => hpre (List.isPrefixOf_iff_prefix.1 h)
    rw [herror] at h
    cases h

def referenceBlocks : MinicborBlocks String where
  toMinicborContainers := MinicborContainers.reference
  missingValue _ := "missing value"
  unknownVariant _ := "unknown enum variant"

theorem typeOfHead_wide {b : UInt8} {wide wide' : Bool} {info major : ℕ}
    (h : (Minicbor.typeOfHead b wide info major).isInt = false) :
    Minicbor.typeOfHead b wide' info major = Minicbor.typeOfHead b wide info major := by
  match major with
  | 0 | 2 | 3 | 4 | 5 | 6 | n + 7 => rfl
  | 1 =>
    have hinfo : 27 < info := by
      by_contra hle
      simp only [Minicbor.typeOfHead, Minicbor.intType] at h
      split_ifs at h
      all_goals first | omega | cases h
    have hunknown : ∀ types, Minicbor.intType types b info = .unknown b := fun types => by
      rw [Minicbor.intType, if_neg (by omega), if_neg (by omega), if_neg (by omega), if_neg (by omega)]
    simp only [Minicbor.typeOfHead, hunknown, ite_self]

theorem referenceBlocks_lawful : referenceBlocks.Lawful where
  toContainers := MinicborContainers.reference_lawful
  datatype_first b tail tail' t h ht := by
    obtain rfl := Except.ok.inj h
    exact congrArg Except.ok (typeOfHead_wide ht)

/-- A header, a body without inputs and outputs, an empty witness set. -/
def headerBytes : Bytes :=
  [0x82, 0x8a, 0x00, 0x00, 0xf6, 0x40, 0x40, 0x82, 0x40, 0x40, 0x00, 0x58, 0x20] ++ List.replicate 32 0 ++
    [0x84, 0x40, 0x00, 0x00, 0x40, 0x82, 0x00, 0x00, 0x40]

def bodyBytes : Bytes := [0xa3, 0x00, 0x80, 0x01, 0x80, 0x02, 0x00]

def literalEra : EraCodecs String := ⟨Unit, Unit, Unit, literal headerBytes, literal bodyBytes, literal [0xa0]⟩

def literalCodecs : Codecs String where
  EbBlock := Unit
  ByronBlock := Unit
  ByronTx := Unit
  ByronWitnesses := Unit
  Metadata := Unit
  ShelleyMaAuxiliaryData := Unit
  PostAlonzoAuxiliaryData := Unit
  ebBlock := literal [0x83]
  byronBlock := literal [0x83]
  byronTx := literal [0x83]
  byronWitnesses := literal [0x80]
  metadata := literal [0xa0]
  shelleyMaAuxiliaryData := literal [0x82, 0xa0, 0x80]
  postAlonzoAuxiliaryData := literal [0xd9, 0x01, 0x03, 0xa0]
  alonzo := literalEra
  babbage := literalEra
  conway := literalEra
  txPayload _ := []

/-- One body, and the witness sets as given. -/
def blockBytes (witnessSets : Bytes) :
    Bytes := [0x82, 0x07, 0x84] ++ headerBytes ++ [0x81] ++ bodyBytes ++ witnessSets ++ [0xa0]

def oneBody (witnessSets : List (Keep.KeepRaw Unit)) : Block literalEra literalCodecs.AuxiliaryData :=
  ⟨⟨headerBytes, ()⟩, [⟨bodyBytes, ()⟩], witnessSets, ∅, none⟩

theorem literalCodecs_local : literalCodecs.Local := by
  have hera : literalEra.Local := ⟨literal_local (by decide), literal_local (by decide)⟩
  exact ⟨literal_local (by decide), literal_local (by decide), literal_local (by decide), hera, hera, hera⟩

/-- With its witness set the body is kept. -/
theorem oneWitnessSet_keeps : MultiEraBlock.Keeps referenceBlocks
    (.conway (oneBody [⟨[0xa0], ()⟩]) : MultiEraBlock literalCodecs) := by
  have hdecode : MultiEraBlock.decode referenceBlocks (blockBytes [0x81, 0xa0]) =
      .ok (.conway (oneBody [⟨[0xa0], ()⟩]) : MultiEraBlock literalCodecs) := rfl
  refine (keeps_iff referenceBlocks_lawful literalCodecs_local hdecode (by decide)).2 ⟨by decide, fun i hi hwide => ?_⟩
  have hone : i < 1 := hi
  omega

/-- Without one the block is decoded, and has lost its transaction. -/
theorem noWitnessSet_loses : ∃ b :
    MultiEraBlock literalCodecs, MultiEraBlock.decode referenceBlocks (blockBytes [0x80]) = .ok b ∧
    b.era = .conway ∧ b.txCount = 1 ∧ b.txs = [] ∧ ¬ b.Keeps referenceBlocks := by
  refine ⟨.conway (oneBody []), rfl, rfl, rfl, rfl, fun hkeeps => ?_⟩
  have hcount : 0 = 1 := hkeeps.count
  omega

end Traverse
end Pallas
