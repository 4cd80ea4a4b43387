import Pallas.Codec.Containers
import Pallas.Lib.Loops
import Pallas.Lib.Sorting
import Pallas.NativeScript.Decode

/-!
# What a transaction consumes and produces (`pallas-traverse/src/{tx,input}.rs`)

The accessors of `MultiEraTx` over inputs, collateral and outputs, with the variants of the feature `unstable`. They agree with each
other for every transaction except one of Byron with an input of a variant other than the first, for which the accessors of an input
panic (`effects_iff`).
-/

namespace Pallas

structure OutputRef where
  hash : Hash 32
  index : UInt64
  deriving DecidableEq

namespace MultiEraInput

def outputRef : MultiEraInput → Outcome Empty OutputRef
  | byron (.variant0 tx idx) => .ok ⟨tx, idx.toUInt64⟩
  | byron (.other _ _) => .panic
  | alonzoCompatible x => .ok ⟨x.transactionId, x.index⟩

def hash : MultiEraInput → Outcome Empty (Hash 32)
  | byron (.variant0 x _) => .ok x
  | byron (.other _ _) => .panic
  | alonzoCompatible x => .ok x.transactionId

def index : MultiEraInput → Outcome Empty UInt64
  | byron (.variant0 _ x) => .ok x.toUInt64
  | byron (.other _ _) => .panic
  | alonzoCompatible x => .ok x.index

def lexicographicalKey (self : MultiEraInput) : Outcome Empty (Hash 32 × UInt64) := do
  let hash ← self.hash
  let index ← self.index
  pure (hash, index)

end MultiEraInput

/-- The derived order of `(Hash<32>, u64)`. -/
def keyOrder (key : Hash 32 × UInt64) : ℕ ×ₗ ℕ := toLex (key.1.toNat, key.2.toNat)

/-! ### Transactions with the variants of the feature `unstable`

The outputs of Dijkstra are of any type `O`, since nothing looks into them.
-/

namespace Dijkstra
variable (O : Type)

structure TransactionBody where
  inputs : List TransactionInput
  outputs : List O
  collateral : Option (List TransactionInput) := none
  collateralReturn : Option O := none

structure SubTransactionBody where
  inputs : List TransactionInput
  outputs : List O

structure BlockTransaction where
  transactionBody : KeepRaw (TransactionBody O)
  success : Bool

structure SubTransaction where
  subTransactionBody : KeepRaw (SubTransactionBody O)

end Dijkstra

namespace Unstable

inductive MultiEraOutput (O : Type) where
  | stable (o : Pallas.MultiEraOutput)
  | dijkstra (o : O)

inductive MultiEraTx (O : Type) where
  | stable (x : Pallas.MultiEraTx)
  | dijkstra (x : Dijkstra.BlockTransaction O)
  | dijkstraSub (x : Dijkstra.SubTransaction O) (success : Bool)

namespace MultiEraTx
variable {O : Type}

def isValid : MultiEraTx O → Bool
  | stable (.alonzoCompatible x _) => x.success
  | stable (.babbage x) => x.success
  | stable (.byron _) => true
  | stable (.conway x) => x.success
  | dijkstra x => x.success
  | dijkstraSub _ success => success

def inputs : MultiEraTx O → List MultiEraInput
  | stable (.alonzoCompatible x _) => x.transactionBody.inner.inputs.map .alonzoCompatible
  | stable (.babbage x) => x.transactionBody.inner.inputs.map .alonzoCompatible
  | stable (.byron x) => x.transaction.inner.inputs.map .byron
  | stable (.conway x) => x.transactionBody.inner.inputs.map .alonzoCompatible
  | dijkstra x => x.transactionBody.inner.inputs.map .alonzoCompatible
  | dijkstraSub x _ => x.subTransactionBody.inner.inputs.map .alonzoCompatible

def collateral : MultiEraTx O → List MultiEraInput
  | stable (.byron _) => []
  | stable (.alonzoCompatible x _) => (x.transactionBody.inner.collateral.getD []).map .alonzoCompatible
  | stable (.babbage x) => (x.transactionBody.inner.collateral.getD []).map .alonzoCompatible
  | stable (.conway x) => (x.transactionBody.inner.collateral.getD []).map .alonzoCompatible
  | dijkstra x => (x.transactionBody.inner.collateral.getD []).map .alonzoCompatible
  | dijkstraSub _ _ => []

def outputs : MultiEraTx O → List (MultiEraOutput O)
  | stable (.alonzoCompatible x era) => x.transactionBody.inner.outputs.map fun x => .stable (.alonzoCompatible x era)
  | stable (.babbage x) => x.transactionBody.inner.outputs.map fun x => .stable (.babbage x)
  | stable (.byron x) => x.transaction.inner.outputs.map fun x => .stable (.byron x)
  | stable (.conway x) => x.transactionBody.inner.outputs.map fun x => .stable (.conway x)
  | dijkstra x => x.transactionBody.inner.outputs.map .dijkstra
  | dijkstraSub x _ => x.subTransactionBody.inner.outputs.map .dijkstra

def outputAt (index : ℕ) : MultiEraTx O → Option (MultiEraOutput O)
  | stable (.alonzoCompatible x era) =>
    x.transactionBody.inner.outputs[index]?.map fun x => .stable (.alonzoCompatible x era)
  | stable (.babbage x) => x.transactionBody.inner.outputs[index]?.map fun x => .stable (.babbage x)
  | stable (.byron x) => x.transaction.inner.outputs[index]?.map fun x => .stable (.byron x)
  | stable (.conway x) => x.transactionBody.inner.outputs[index]?.map fun x => .stable (.conway x)
  | dijkstra x => x.transactionBody.inner.outputs[index]?.map .dijkstra
  | dijkstraSub x _ => x.subTransactionBody.inner.outputs[index]?.map .dijkstra

def collateralReturn : MultiEraTx O → Option (MultiEraOutput O)
  | stable (.babbage x) => x.transactionBody.inner.collateralReturn.map fun x => .stable (.babbage x)
  | stable (.conway x) => x.transactionBody.inner.collateralReturn.map fun x => .stable (.conway x)
  | dijkstra x => x.transactionBody.inner.collateralReturn.map .dijkstra
  | dijkstraSub _ _ => none
  | stable (.byron _) | stable (.alonzoCompatible _ _) => none

/-- The inputs whose output is not in the set, each of which is inserted. -/
def unique (seen : List OutputRef) : List MultiEraInput → Outcome Empty (List MultiEraInput)
  | [] => pure []
  | i :: is => do
    let ref ← i.outputRef
    if ref ∈ seen then unique seen is
    else
      let rest ← unique (ref :: seen) is
      pure (i :: rest)

def consumes (self : MultiEraTx O) : Outcome Empty (List MultiEraInput) :=
  unique [] (if self.isValid then self.inputs else self.collateral)

def produces (self : MultiEraTx O) : List (ℕ × MultiEraOutput O) :=
  if self.isValid then self.outputs.zipIdx.map Prod.swap
  else self.collateralReturn.toList.map fun txo => (self.outputs.length, txo)

def producesAt (self : MultiEraTx O) (index : ℕ) : Option (MultiEraOutput O) :=
  if self.isValid then self.outputAt index
  else if index = self.outputs.length then self.collateralReturn
  else none

/-- Neither the sort nor the removal of duplicates asks for the key of a single element. -/
def inputsSortedSet (self : MultiEraTx O) : Outcome Empty (List MultiEraInput) :=
  if self.inputs.length < 2 then pure self.inputs
  else do
    let raw ← self.inputs.mapM fun x => do return (← x.lexicographicalKey, x)
    let sorted := raw.insertionSort fun a b => keyOrder a.1 ≤ keyOrder b.1
    pure ((sorted.dedupByKey fun e => keyOrder e.1).map Prod.snd)

/-! ### What is asked of them -/

/-- No input is consumed that refers to the same output as another, and those are consumed that are listed. -/
structure Lists (consumed listed : List MultiEraInput) : Prop where
  distinct : consumed.Pairwise fun i j => i.outputRef ≠ j.outputRef
  same : ∀ ref, (∃ i ∈ consumed, i.outputRef = .ok ref) ↔ ∃ i ∈ listed, i.outputRef = .ok ref

structure Effects (tx : MultiEraTx O) : Prop where
  accessors : ∀ i ∈ tx.inputs ++ tx.collateral, (∃ ref, i.outputRef = .ok ref) ∧ ∃ key, i.lexicographicalKey = .ok key
  consumes : ∃ is, tx.consumes = .ok is ∧ Lists is (if tx.isValid then tx.inputs else tx.collateral)
  distinct : (tx.produces.map Prod.fst).Nodup
  producesAt : ∀ i o, tx.producesAt i = some o ↔ (i, o) ∈ tx.produces
  invalid : tx.isValid = false → ∀ i o, (i, o) ∈ tx.produces → i = tx.outputs.length
  sorted : ∃ is keys, tx.inputsSortedSet = .ok is ∧ is.mapM MultiEraInput.lexicographicalKey = .ok keys ∧
    (keys.map keyOrder).Pairwise (· < ·) ∧ ∀ i, i ∈ is ↔ i ∈ tx.inputs

/-- Every input of a Byron transaction is of the first variant. -/
def NoOther (self : MultiEraTx O) : Prop := ∀ tag bytes, .byron (.other tag bytes) ∉ self.inputs

end MultiEraTx
end Unstable

namespace MultiEraInput
variable {i j : MultiEraInput}

/-- The input is of no other variant of Byron than the first. -/
def Plain (i : MultiEraInput) : Prop := ∀ tag bytes, i ≠ .byron (.other tag bytes)

theorem outputRef_isOk : (∃ ref, i.outputRef = .ok ref) ↔ i.Plain := by
  rcases i with (⟨tx, idx⟩ | ⟨tag, bytes⟩) | x
  · exact iff_of_true ⟨_, rfl⟩ nofun
  · refine iff_of_false ?_ fun h => h tag bytes rfl
    rintro ⟨ref, h⟩
    cases h
  · exact iff_of_true ⟨_, rfl⟩ nofun

theorem lexicographicalKey_eq : i.lexicographicalKey = (fun ref => (ref.hash, ref.index)) <$> i.outputRef := by
  rcases i with (⟨tx, idx⟩ | ⟨tag, bytes⟩) | x <;> rfl

theorem lexicographicalKey_isOk : (∃ key, i.lexicographicalKey = .ok key) ↔ i.Plain := by
  rw [← outputRef_isOk, lexicographicalKey_eq]
  simp

end MultiEraInput

theorem keyOrder_injective : Function.Injective keyOrder := by
  rintro ⟨h, i⟩ ⟨h', i'⟩ heq
  obtain ⟨hh, hi⟩ := Prod.mk.inj (toLex.injective heq)
  obtain rfl : h = h' := BitVec.eq_of_toNat_eq hh
  obtain rfl : i = i' := UInt64.toNat_inj.1 hi
  rfl

namespace Unstable.MultiEraTx
variable {O : Type} {self : MultiEraTx O}

/-! ### Consumption -/

theorem unique_lists {is : List MultiEraInput} (h : ∀ i ∈ is, i.Plain) (seen : List OutputRef) :
    ∃ rest, unique seen is = .ok rest ∧ (rest.Pairwise fun i j => i.outputRef ≠ j.outputRef) ∧
      ∀ ref, (∃ i ∈ rest, i.outputRef = .ok ref) ↔ ref ∉ seen ∧ ∃ i ∈ is, i.outputRef = .ok ref := by
  induction is generalizing seen with
  | nil => exact ⟨[], rfl, .nil, by simp⟩
  | cons i is ih =>
    rw [List.forall_mem_cons] at h
    obtain ⟨ref, href⟩ := MultiEraInput.outputRef_isOk.2 h.1
    by_cases hseen : ref ∈ seen
    · obtain ⟨rest, hrest, hdistinct, hsame⟩ := ih h.2 seen
      refine ⟨rest, ?_, hdistinct, fun ref' => (hsame ref').trans (and_congr_right fun hnew => ?_)⟩
      · rw [unique, href, Outcome.ok_bind, if_pos hseen, hrest]
      · rw [List.exists_mem_cons_iff, href, or_iff_right]
        rintro ⟨⟩
        exact hnew hseen
    · obtain ⟨rest, hrest, hdistinct, hsame⟩ := ih h.2 (ref :: seen)
      refine ⟨i :: rest, ?_, List.pairwise_cons.2 ⟨fun j hj heq => ?_, hdistinct⟩, fun ref' => ?_⟩
      · rw [unique, href, Outcome.ok_bind, if_neg hseen, hrest]
        rfl
      · exact ((hsame ref).1 ⟨j, hj, heq.symm.trans href⟩).1 List.mem_cons_self
      · rw [List.exists_mem_cons_iff, List.exists_mem_cons_iff, hsame, href, List.mem_cons, not_or]
        by_cases hsame' : ref' = ref
        · rw [hsame']
          exact iff_of_true (.inl rfl) ⟨hseen, .inl rfl⟩
        · have hne : (Outcome.ok ref : Outcome Empty OutputRef) ≠ .ok ref' :=
            fun heq => hsame' (Outcome.ok.inj heq).symm
          rw [or_iff_right hne, or_iff_right hne, and_iff_right hsame']

/-! ### Production -/

theorem outputAt_eq (self : MultiEraTx O) (index : ℕ) : self.outputAt index = self.outputs[index]? := by
  rcases self with (_ | _ | _ | _) | _ | _ <;> exact List.getElem?_map.symm

theorem mem_produces_of_valid (hvalid : self.isValid = true) {i : ℕ} {o : MultiEraOutput O} :
    (i, o) ∈ self.produces ↔ self.outputs[i]? = some o := by
  rw [produces, if_pos hvalid, ← List.mem_zipIdx_iff_getElem? (x := (o, i))]
  show Prod.swap (o, i) ∈ _ ↔ _
  exact List.mem_map_of_injective Prod.swap_injective

theorem mem_produces_of_invalid (hvalid : self.isValid = false) {i : ℕ} {o : MultiEraOutput O} :
    (i, o) ∈ self.produces ↔ i = self.outputs.length ∧ self.collateralReturn = some o := by
  rw [produces, if_neg (by simp [hvalid])]
  cases self.collateralReturn with
  | none => simp
  | some txo => simp [eq_comm]

theorem produces_distinct (self : MultiEraTx O) : (self.produces.map Prod.fst).Nodup := by
  unfold produces
  split
  · rw [List.map_map]
    exact List.nodup_zipIdx_map_snd _
  · rw [List.map_map]
    cases self.collateralReturn <;> simp

theorem producesAt_eq_some {i : ℕ} {o : MultiEraOutput O} : self.producesAt i = some o ↔ (i, o) ∈ self.produces := by
  unfold producesAt
  cases hvalid : self.isValid with
  | true => rw [if_pos rfl, outputAt_eq, mem_produces_of_valid hvalid]
  | false =>
    rw [if_neg (by simp), mem_produces_of_invalid hvalid]
    split
    · next hi => rw [and_iff_right hi]
    · next hi => exact iff_of_false nofun fun h => hi h.1

/-! ### Sorting -/

theorem inputs_uniform (self : MultiEraTx O) :
    (∃ is : List Byron.TxIn, self.inputs = is.map .byron) ∨
      ∃ is : List TransactionInput, self.inputs = is.map .alonzoCompatible := by
  rcases self with (_ | _ | _ | _) | _ | _
  case stable.byron x => exact .inl ⟨_, rfl⟩
  all_goals exact .inr ⟨_, rfl⟩

theorem key_injective {i j : MultiEraInput} (hi : i ∈ self.inputs) (hj : j ∈ self.inputs) {key : Hash 32 × UInt64}
    (hikey : i.lexicographicalKey = .ok key) (hjkey : j.lexicographicalKey = .ok key) : i = j := by
  obtain ⟨is, his⟩ | ⟨is, his⟩ := self.inputs_uniform
  · rw [his] at hi hj
    obtain ⟨x, -, rfl⟩ := List.mem_map.1 hi
    obtain ⟨y, -, rfl⟩ := List.mem_map.1 hj
    cases x with
    | other => cases hikey
    | variant0 tx idx =>
      cases y with
      | other => cases hjkey
      | variant0 tx' idx' =>
        obtain rfl := Outcome.ok.inj hikey
        obtain ⟨rfl, hidx⟩ := Prod.mk.inj (Outcome.ok.inj hjkey)
        rw [UInt32.toUInt64_inj.1 hidx]
  · rw [his] at hi hj
    obtain ⟨⟨tx, idx⟩, -, rfl⟩ := List.mem_map.1 hi
    obtain ⟨⟨tx', idx'⟩, -, rfl⟩ := List.mem_map.1 hj
    obtain rfl := Outcome.ok.inj hikey
    obtain ⟨rfl, rfl⟩ := Prod.mk.inj (Outcome.ok.inj hjkey)
    rfl

theorem keyed_isOk {i : MultiEraInput} (h : i.Plain) : ∃ e : (Hash 32 × UInt64) × MultiEraInput,
    (do return (← i.lexicographicalKey, i) : Outcome Empty _) = .ok e := by
  obtain ⟨key, hkey⟩ := MultiEraInput.lexicographicalKey_isOk.2 h
  exact ⟨(key, i), by rw [hkey]; rfl⟩

theorem mem_keyed {is : List MultiEraInput} {raw : List ((Hash 32 × UInt64) × MultiEraInput)}
    (h : is.mapM (fun x => do return (← x.lexicographicalKey, x) : MultiEraInput → Outcome Empty _) =
      .ok raw) {i : MultiEraInput}
    (hi : i ∈ is) {key : Hash 32 × UInt64} (hkey : i.lexicographicalKey = .ok key) : (key, i) ∈ raw := by
  have hall := Outcome.mapM_eq_ok.1 h
  clear h
  induction hall with
  | nil => cases hi
  | cons hx _ ih =>
    rcases List.mem_cons.1 hi with rfl | hi
    · rw [hkey, Outcome.ok_bind] at hx
      rw [← Outcome.ok.inj hx]
      exact List.mem_cons_self
    · exact List.mem_cons_of_mem _ (ih hi)

theorem inputsSortedSet_sorted (h : ∀ i ∈ self.inputs, i.Plain) : ∃ is keys, self.inputsSortedSet = .ok is ∧
    is.mapM MultiEraInput.lexicographicalKey = .ok keys ∧ (keys.map keyOrder).Pairwise (· < ·) ∧
      ∀ i, i ∈ is ↔ i ∈ self.inputs := by
  have hkey : ∀ i ∈ self.inputs, ∃ key, i.lexicographicalKey = .ok key :=
    fun i hi => MultiEraInput.lexicographicalKey_isOk.2 (h i hi)
  unfold inputsSortedSet
  split
  · next hlen =>
    obtain ⟨keys, hkeys⟩ := Outcome.mapM_isOk.2 hkey
    refine ⟨self.inputs, keys, rfl, hkeys, ?_, fun _ => Iff.rfl⟩
    have hlength := (Outcome.mapM_eq_ok.1 hkeys).length_eq
    match keys with
    | [] => exact .nil
    | [key] => exact List.pairwise_singleton _ _
    | _ :: _ :: _ =>
      rw [hlength] at hlen
      exact absurd hlen (by simp)
  · obtain ⟨raw, hraw⟩ := Outcome.mapM_isOk.2 fun i hi => keyed_isOk (h i hi)
    have hsorted := List.pairwise_insertionSort
      (fun a b : (Hash 32 × UInt64) × MultiEraInput => keyOrder a.1 ≤ keyOrder b.1) raw
    have hmem : ∀ e ∈ (raw.insertionSort fun a b => keyOrder a.1 ≤ keyOrder b.1).dedupByKey fun e => keyOrder e.1,
        e.2 ∈ self.inputs ∧ e.2.lexicographicalKey = .ok e.1 := by
      intro e he
      have heraw := (List.mem_insertionSort _).1 ((List.dedupByKey_sublist _).subset he)
      obtain ⟨i, hi, hkeyed⟩ := Outcome.mapM_mem hraw heraw
      obtain ⟨key, hkey', heq⟩ := Outcome.bind_eq_ok.1 hkeyed
      obtain rfl := Outcome.ok.inj heq
      exact ⟨hi, hkey'⟩
    refine ⟨_, ((raw.insertionSort fun a b => keyOrder a.1 ≤ keyOrder b.1).dedupByKey
      fun e => keyOrder e.1).map Prod.fst,
      by rw [hraw, Outcome.ok_bind]; rfl, Outcome.mapM_eq_ok.2 ?_, ?_, fun i => ⟨fun hi => ?_, fun hi => ?_⟩⟩
    · rw [List.forall₂_map_left_iff, List.forall₂_map_right_iff, List.forall₂_same]
      exact fun e he => (hmem e he).2
    · rw [List.map_map]
      exact List.pairwise_dedupByKey hsorted
    · obtain ⟨e, he, rfl⟩ := List.mem_map.1 hi
      exact (hmem e he).1
    · obtain ⟨key, hikey⟩ := hkey i hi
      have hiraw : (key, i) ∈ raw := mem_keyed hraw hi hikey
      obtain ⟨e, he, hekey⟩ :=
        List.exists_mem_dedupByKey (f := fun e : (Hash 32 × UInt64) × MultiEraInput => keyOrder e.1)
        ((List.mem_insertionSort (fun a b : (Hash 32 × UInt64) × MultiEraInput => keyOrder a.1 ≤ keyOrder b.1)).2 hiraw)
      obtain ⟨hmem', hekey'⟩ := hmem e he
      rw [keyOrder_injective hekey] at hekey'
      exact List.mem_map.2 ⟨e, he, key_injective hmem' hi hekey' hikey⟩

/-! ### The result -/

theorem collateral_plain (self : MultiEraTx O) : ∀ i ∈ self.collateral, i.Plain := by
  have hmap : ∀ (is : List TransactionInput) (i : MultiEraInput), i ∈ is.map .alonzoCompatible → i.Plain := by
    intro is i hi
    obtain ⟨x, -, rfl⟩ := List.mem_map.1 hi
    exact nofun
  have hnil : ∀ i ∈ ([] : List MultiEraInput), i.Plain := nofun
  rcases self with (_ | _ | _ | _) | _ | _
  case stable.byron x => exact hnil
  case dijkstraSub x success => exact hnil
  all_goals exact hmap _

/-- The accessors agree, and none of them panics, exactly if every input is of the first variant. -/
theorem effects_iff (self : MultiEraTx O) : self.Effects ↔ self.NoOther := by
  constructor
  · intro h tag bytes hmem
    obtain ⟨href, -⟩ := h.accessors _ (List.mem_append_left _ hmem)
    exact MultiEraInput.outputRef_isOk.1 href tag bytes rfl
  · intro h
    have hinputs : ∀ i ∈ self.inputs, i.Plain := by
      rintro _ hi tag bytes rfl
      exact h tag bytes hi
    have hlisted : ∀ i ∈ (if self.isValid then self.inputs else self.collateral), i.Plain := by
      split
      · exact hinputs
      · exact self.collateral_plain
    obtain ⟨is, his, hdistinct, hsame⟩ := unique_lists hlisted []
    refine ⟨fun i hi => ?_, ⟨is, his, hdistinct, fun ref => ?_⟩, self.produces_distinct,
      fun i o => producesAt_eq_some, ?_,
      inputsSortedSet_sorted hinputs⟩
    · have hplain := (List.mem_append.1 hi).elim (hinputs i) (self.collateral_plain i)
      exact ⟨MultiEraInput.outputRef_isOk.2 hplain, MultiEraInput.lexicographicalKey_isOk.2 hplain⟩
    · exact (hsame ref).trans (and_iff_right (by simp))
    · exact fun hvalid i o hmem => ((mem_produces_of_invalid hvalid).1 hmem).1

end Unstable.MultiEraTx

/-! ### A Byron input of another variant -/

structure MinicborByron (ε : Type) extends MinicborContainers ε, MinicborScript ε

namespace Byron
variable {ε : Type} (m : MinicborByron ε)

/-- `(TxId, u32)`. -/
def txRef : Codec ε (Hash 32 × UInt32) where
  decode := m.pair (NativeScript.decodeHash m.toMinicborScript 32) m.u32
  encode x := Cbor.array 2 ++ (Cbor.bytes x.1.toBytes ++ Cbor.uint x.2.toNat)

/-- The codec of `TxIn`: the length of the array is not looked at. -/
def txIn : Codec ε TxIn where
  decode := do
    let _ ← m.array
    let variant ← m.u8
    if variant = 0 then
      let x ← (Codec.cborWrap m.toMinicborContainers (txRef m)).decode
      pure (.variant0 x.1 x.2)
    else
      let x ← m.bytes
      pure (.other variant x)
  encode
    | .variant0 tx idx => Cbor.array 2 ++ (Cbor.uint 0 ++ (Codec.cborWrap m.toMinicborContainers (txRef m)).encode (tx, idx))
    | .other a b => Cbor.array 2 ++ (Cbor.uint a.toNat ++ Cbor.bytes b)

end Byron

def referenceByron : MinicborByron String where
  toMinicborContainers := MinicborContainers.reference
  i64 := MinicborScript.reference.i64
  unknownVariant := MinicborScript.reference.unknownVariant
  missingValue := MinicborScript.reference.missingValue
  errorAt := MinicborScript.reference.errorAt

/-- A transaction of one input, that is given by a variant. -/
def oneInput (i : Byron.TxIn) : Unstable.MultiEraTx Empty :=
  .stable (.byron ⟨⟨[0x83], ⟨[i], []⟩, List.cons_ne_nil _ _⟩, ⟨[0x80], [], List.cons_ne_nil _ _⟩⟩)

/-- The decoder lets another variant pass, and then asking what is consumed panics. -/
theorem otherInput_panics : (Byron.txIn referenceByron).decode.run [0x82, 0x01, 0x40] = (.ok (.other 1 []), []) ∧
    (oneInput (.other 1 [])).consumes = .panic ∧ ¬ (oneInput (.other 1 [])).Effects := by
  refine ⟨rfl, rfl, fun h => ?_⟩
  obtain ⟨is, his, -⟩ := h.consumes
  cases his

end Pallas
