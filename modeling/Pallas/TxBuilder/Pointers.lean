import Pallas.TxBuilder.Reproducible

/-!
# Redeemer pointers and the script data hash

The ledger counts inputs in an ordered set (`ledgerInputs`); the builder counts them in a sorted list that keeps what was staged
twice. In a sorted list an item stands behind all the smaller ones (`idxOf_eq_length_filter`), so the two agree on an input
exactly if no smaller one is staged twice. The hash of the script data is that of the witness set exactly if there are redeemers
where there are language views: `pointers_iff`.
-/

namespace Pallas
namespace TxBuilder
open Outcome Conway

/-! ### The order of inputs -/

theorem inputLe_iff {x y : TransactionInput} : inputLe x y ↔ x.transactionId.toNat < y.transactionId.toNat ∨
    x.transactionId.toNat = y.transactionId.toNat ∧ x.index.toNat ≤ y.index.toNat := by
  rw [inputLe, BitVec.lt_def, ← BitVec.toNat_inj, UInt64.le_iff_toNat_le]

instance : Std.Total inputLe where
  total x y := by
    rw [inputLe_iff, inputLe_iff]
    omega

instance : IsTrans TransactionInput inputLe where
  trans x y z hxy hyz := by
    rw [inputLe_iff] at hxy hyz ⊢
    omega

theorem inputLe_antisymm {x y : TransactionInput} (hxy : inputLe x y) (hyx : inputLe y x) : x = y := by
  obtain ⟨txid, index⟩ := x
  obtain ⟨txid', index'⟩ := y
  rw [inputLe_iff] at hxy hyx
  dsimp only at hxy hyx
  have hid : txid = txid' := BitVec.toNat_inj.1 (by omega)
  have hindex : index = index' := UInt64.toNat_inj.1 (by omega)
  rw [hid, hindex]

/-- The inputs before `x`. -/
def smaller (inputs : List TransactionInput) (x : TransactionInput) : List TransactionInput :=
  inputs.filter fun y => inputLe y x ∧ y ≠ x

theorem idxOf_eq_length_smaller {inputs : List TransactionInput} (hsorted : inputs.Pairwise inputLe)
    {x : TransactionInput}
    (hx : x ∈ inputs) : inputs.idxOf x = (smaller inputs x).length := by
  induction inputs with
  | nil => cases hx
  | cons y ys ih =>
    obtain ⟨hy, hys⟩ := List.pairwise_cons.1 hsorted
    by_cases hyx : y = x
    · subst hyx
      have hnone : smaller (y :: ys) y = [] := by
        refine List.filter_eq_nil_iff.2 fun z hz => ?_
        rcases List.mem_cons.1 hz with rfl | hz
        · simp
        · have heq : inputLe z y → z = y := fun hzy => inputLe_antisymm hzy (hy z hz)
          simpa using heq
      rw [hnone, List.idxOf_cons_self]
      rfl
    · have hmem : x ∈ ys := (List.mem_cons.1 hx).resolve_left fun h => hyx h.symm
      have hbefore : decide (inputLe y x ∧ y ≠ x) = true := by simpa [hyx] using hy x hmem
      have hcons : smaller (y :: ys) x = y :: smaller ys x := List.filter_cons_of_pos hbefore
      rw [List.idxOf_cons_ne _ hyx, ih hys hmem, hcons]
      rfl

theorem smaller_perm {inputs inputs' : List TransactionInput} (h : inputs.Perm inputs') (x : TransactionInput) :
    (smaller inputs x).length = (smaller inputs' x).length := (h.filter _).length_eq

/-- The inputs of a body as the ledger counts them: in order, and each one once. -/
def ledgerInputs (inputs : List TransactionInput) : List TransactionInput := inputs.dedup.insertionSort inputLe

theorem ledgerInputs_getElem? {inputs : List TransactionInput} {n : ℕ} {x : TransactionInput} :
    (ledgerInputs inputs)[n]? = some x ↔ x ∈ inputs ∧ n = (smaller inputs.dedup x).length := by
  have hperm : (ledgerInputs inputs).Perm inputs.dedup := List.perm_insertionSort inputLe _
  have hnd : (ledgerInputs inputs).Nodup := hperm.nodup_iff.2 inputs.nodup_dedup
  have hsorted : (ledgerInputs inputs).Pairwise inputLe := List.pairwise_insertionSort inputLe _
  have hidx : x ∈ inputs → (ledgerInputs inputs).idxOf x = (smaller inputs.dedup x).length := fun hx => by
    rw [idxOf_eq_length_smaller hsorted (hperm.mem_iff.2 (List.mem_dedup.2 hx)), smaller_perm hperm]
  constructor
  · intro h
    have hx : x ∈ inputs := List.mem_dedup.1 (hperm.mem_iff.1 (List.mem_of_getElem? h))
    obtain ⟨hn, hget⟩ := List.getElem?_eq_some_iff.1 h
    refine ⟨hx, ?_⟩
    rw [← hidx hx, ← hget, hnd.idxOf_getElem]
  · rintro ⟨hx, rfl⟩
    rw [← hidx hx]
    exact List.getElem?_idxOf (hperm.mem_iff.2 (List.mem_dedup.2 hx))

/-! ### What the builder counts -/

section Source
variable {ε : Type} {p : Platform ε}

theorem positionOf_eq_ok {α : Type} [DecidableEq α] {xs : List α} {x : α} {i : UInt32} :
    positionOf xs x = ok i ↔ x ∈ xs ∧ i = UInt32.ofNat (xs.idxOf x) := by
  simp only [positionOf, bind_eq_ok, ofOption_eq_ok, ok.injEq, List.findIdx?_eq_some_iff_findIdx_eq]
  rw [← List.idxOf_lt_length_iff]
  constructor
  · rintro ⟨_, ⟨hlt, rfl⟩, rfl⟩
    exact ⟨hlt, rfl⟩
  · rintro ⟨hlt, rfl⟩
    exact ⟨_, ⟨hlt, rfl⟩, rfl⟩

/-! ### Pointers -/

def RedeemerPurpose.tag : RedeemerPurpose → RedeemerTag
  | .spend _ => .spend
  | .mint _ => .mint

/-- What the ledger takes a purpose and an index to point at: the input, or the policy, that stands there. -/
def Points (body : TransactionBody) : RedeemerPurpose → ℕ → Prop
  | .spend i, n => (ledgerInputs body.inputs)[n]? = some i.toTransactionInput
  | .mint policy, n => (body.mint.elim [] fun m => m.keys)[n]? = some policy

/-- The redeemers of a witness set that lists them. -/
def redeemersOf (w : WitnessSet) : List Redeemer := match w.redeemer.map KeepRaw.inner with
  | some (.list rs) => rs
  | _ => []

variable (p) in
/-- The redeemers point where the ledger looks, one for each that was staged, and the body has the hash of the script data. -/
structure WellPointed (s : StagingTransaction) (tx : Tx) : Prop where
  redeemers : List.Forall₂ (fun e r => r.tag = e.1.tag ∧ Points tx.transactionBody.inner e.1 r.index.toNat ∧
    decodePlutusData p e.2.1 = ok r.data ∧ e.2.2 = some r.exUnits) (s.redeemers.getD ∅).entries
    (redeemersOf tx.transactionWitnessSet.inner)
  distinct : ((redeemersOf tx.transactionWitnessSet.inner).map fun r => (r.tag, r.index)).Nodup
  scriptDataHash : ∀ h ∈ tx.transactionBody.inner.scriptDataHash, ∃ data,
    ScriptData.buildFor tx.transactionWitnessSet.inner s.languageViews = some data ∧ h = data.hash p.crypto

/-- The staged inputs, as they are written. -/
def inputsOf (s : StagingTransaction) : List TransactionInput := (s.inputs.getD []).map Input.toTransactionInput

/-- Before an input that is spent with a redeemer no input is staged twice, or as many are as an index does not show; before a
policy there are fewer policies than an index can count. -/
def Indexed (s : StagingTransaction) : RedeemerPurpose → Prop
  | .spend i => (smaller (inputsOf s) i.toTransactionInput).length % 2 ^ 32 =
      (smaller (inputsOf s).dedup i.toTransactionInput).length
  | .mint policy => (policiesOf s.mint).idxOf policy < 2 ^ 32

/-- That for each redeemer; and where there are language views there is a redeemer. -/
structure Indexable (s : StagingTransaction) : Prop where
  purposes : ∀ purpose x, (s.redeemers.getD ∅).lookup purpose = some x → Indexed s purpose
  views : s.languageViews ≠ none → ∃ purpose x, (s.redeemers.getD ∅).lookup purpose = some x

theorem buildRedeemer_eq_ok {inputs : List TransactionInput} {policies : List PolicyId}
    {e : (_ : RedeemerPurpose) × (Bytes × Option ExUnits)} {r : Redeemer} : buildRedeemer p inputs policies e = ok r ↔
      e.2.2 = some r.exUnits ∧ decodePlutusData p e.2.1 = ok r.data ∧
        pointerOf inputs policies e.1 = ok ⟨r.tag, r.index⟩ := by
  obtain ⟨tag, index, data, exUnits⟩ := r
  simp only [buildRedeemer, bind_eq_ok, unwrap_eq_ok, ok.injEq, Redeemer.mk.injEq]
  constructor
  · rintro ⟨u, hu, d, hd, q, hq, rfl, rfl, rfl, rfl⟩
    exact ⟨hu, hd, hq⟩
  · rintro ⟨hu, hd, hq⟩
    exact ⟨_, hu, _, hd, _, hq, rfl, rfl, rfl, rfl⟩

theorem pointerOf_eq_ok {inputs : List TransactionInput} {policies : List PolicyId} {purpose : RedeemerPurpose}
    {q : RedeemersKey} (h : pointerOf inputs policies purpose = ok q) : q.tag = purpose.tag := by
  cases purpose with
  | spend i =>
    obtain ⟨index, -, hq⟩ := bind_eq_ok.1 h
    cases hq
    rfl
  | mint policy =>
    obtain ⟨index, -, hq⟩ := bind_eq_ok.1 h
    cases hq
    rfl

theorem buildInputs_perm (s : StagingTransaction) :
    (buildInputs s.inputs).Perm (inputsOf s) := List.perm_insertionSort inputLe _

theorem redeemersOf_build (scripts : Scripts) (plutusData : List PlutusData) (redeemers : List Redeemer) :
    redeemersOf (buildWitnessSet scripts plutusData redeemers) = redeemers := by
  cases redeemers <;> rfl

theorem mint_keys {m : Mint} :
    (if m.isEmpty then none else some m : Option Mint).elim [] (fun m => m.keys) = m.keys := by
  split
  · next h => exact (Std.ExtTreeMap.keys_eq_nil_iff.2 (Std.ExtTreeMap.isEmpty_iff.1 h)).symm
  · rfl

section Entries
variable {s : StagingTransaction} {x : Parts}

theorem points_spend_iff {i : Input} {index : UInt32}
    (h : pointerOf (buildInputs s.inputs) x.mint.keys (.spend i) = ok ⟨.spend, index⟩) :
    Points (x.tx p s).transactionBody.inner (.spend i) index.toNat ↔
      (smaller (inputsOf s) i.toTransactionInput).length % 2 ^ 32 =
        (smaller (inputsOf s).dedup i.toTransactionInput).length := by
  obtain ⟨_, hpos, hq⟩ := bind_eq_ok.1 h
  cases hq
  obtain ⟨hmem, rfl⟩ := positionOf_eq_ok.1 hpos
  have hsorted : (buildInputs s.inputs).Pairwise inputLe := List.pairwise_insertionSort inputLe _
  show (ledgerInputs (buildInputs s.inputs))[_]? = _ ↔ _
  rw [ledgerInputs_getElem?, idxOf_eq_length_smaller hsorted hmem, smaller_perm (buildInputs_perm s),
    smaller_perm (buildInputs_perm s).dedup, UInt32.toNat_ofNat', and_iff_right hmem]

theorem points_mint_iff (hx : x.Of p s) {policy : PolicyId} {index : UInt32}
    (h : pointerOf (buildInputs s.inputs) x.mint.keys (.mint policy) = ok ⟨.mint, index⟩) :
    Points (x.tx p s).transactionBody.inner (.mint policy) index.toNat ↔ (policiesOf s.mint).idxOf policy < 2 ^ 32 := by
  obtain ⟨_, hpos, hq⟩ := bind_eq_ok.1 h
  cases hq
  obtain ⟨hmem, rfl⟩ := positionOf_eq_ok.1 hpos
  have hkeys : policiesOf s.mint = x.mint.keys := by
    rw [policiesOf, hx.mint]
    rfl
  have hnd : x.mint.keys.Nodup := Std.ExtTreeMap.nodup_keys
  show ((if x.mint.isEmpty then none else some x.mint : Option Mint).elim [] fun m => m.keys)[_]? = _ ↔ _
  rw [mint_keys, hkeys, UInt32.toNat_ofNat']
  constructor
  · intro hget
    obtain ⟨hlt, hget⟩ := List.getElem?_eq_some_iff.1 hget
    have hidx := hnd.idxOf_getElem _ hlt
    rw [hget] at hidx
    omega
  · intro hlt
    rw [Nat.mod_eq_of_lt hlt]
    exact List.getElem?_idxOf hmem

theorem points_iff (hx : x.Of p s) {e : (_ : RedeemerPurpose) × (Bytes × Option ExUnits)} {r : Redeemer}
    (h : buildRedeemer p (buildInputs s.inputs) x.mint.keys e = ok r) :
    (r.tag = e.1.tag ∧ Points (x.tx p s).transactionBody.inner e.1 r.index.toNat ∧
      decodePlutusData p e.2.1 = ok r.data ∧
      e.2.2 = some r.exUnits) ↔ Indexed s e.1 := by
  obtain ⟨hunits, hdata, hq⟩ := buildRedeemer_eq_ok.1 h
  have htag : r.tag = e.1.tag := pointerOf_eq_ok hq
  have hpoints : Points (x.tx p s).transactionBody.inner e.1 r.index.toNat ↔ Indexed s e.1 := by
    obtain ⟨purpose, v⟩ := e
    rw [htag] at hq
    cases purpose with
    | spend i => exact points_spend_iff hq
    | mint policy => exact points_mint_iff hx hq
  rw [← hpoints]
  exact ⟨fun h => h.2.1, fun h => ⟨htag, h, hdata, hunits⟩⟩

theorem points_inj {body : TransactionBody} {purpose purpose' : RedeemerPurpose} {n : ℕ}
    (htag : purpose.tag = purpose'.tag)
    (h : Points body purpose n) (h' : Points body purpose' n) : purpose = purpose' := by
  cases purpose with
  | spend i =>
    cases purpose' with
    | mint policy' => cases htag
    | spend i' =>
      have heq := Option.some.inj (Eq.trans (Eq.symm h) h')
      obtain ⟨hash, index⟩ := i
      obtain ⟨hash', index'⟩ := i'
      cases heq
      rfl
  | mint policy =>
    cases purpose' with
    | spend i' => cases htag
    | mint policy' => rw [Option.some.inj (Eq.trans (Eq.symm h) h')]

theorem forall₂_iff {α β : Type} {A B : α → β → Prop} {C : α → Prop} {xs : List α} {ys : List β}
    (h : List.Forall₂ A xs ys)
    (hiff : ∀ x y, A x y → (B x y ↔ C x)) : List.Forall₂ B xs ys ↔ ∀ x ∈ xs, C x := by
  induction h with
  | nil => simp
  | cons hxy _ ih => rw [List.forall₂_cons, List.forall_mem_cons, ih, hiff _ _ hxy]

theorem redeemers_distinct {body : TransactionBody} {es : List ((_ : RedeemerPurpose) × (Bytes × Option ExUnits))}
    {rs : List Redeemer} (hnd : es.NodupKeys)
    (h : List.Forall₂ (fun e r => r.tag = e.1.tag ∧ Points body e.1 r.index.toNat) es rs) :
    (rs.map fun r => (r.tag, r.index)).Nodup := by
  induction h with
  | nil => exact List.nodup_nil
  | @cons e r es rs her hrs ih =>
    obtain ⟨k, v⟩ := e
    obtain ⟨hnot, htail⟩ := List.nodupKeys_cons.1 hnd
    rw [List.map_cons, List.nodup_cons]
    refine ⟨fun hmem => ?_, ih htail⟩
    obtain ⟨r', hr', heq⟩ := List.mem_map.1 hmem
    obtain ⟨i, hi, rfl⟩ := List.getElem_of_mem hr'
    have hi' := hrs.length_eq ▸ hi
    obtain ⟨htag, hpoints⟩ := hrs.get hi' hi
    simp only [List.get_eq_getElem, Prod.mk.injEq] at htag hpoints heq
    refine hnot ?_
    have hkey : k = es[i].1 := by
      refine points_inj (her.1.symm.trans (heq.1.symm.trans htag)) her.2 ?_
      rw [← heq.2]
      exact hpoints
    rw [hkey]
    exact List.mem_keys_of_mem (s := es[i]) (List.getElem_mem hi')

end Entries

/-- `hash` tells two strings apart. -/
def NoCollision (hash : Bytes → Hash 32) (bs bs' : Bytes) : Prop := hash bs = hash bs' → bs = bs'

theorem scriptDataHash_iff {s : StagingTransaction} {x : Parts}
    (hblake : ∀ views ∈ s.languageViews, NoCollision p.crypto.blake2b256
      (ScriptData.preimage ⟨some (.list []), buildDatums x.plutusData, some views⟩)
      (ScriptData.preimage ⟨none, buildDatums x.plutusData, none⟩)) :
    (∀ h ∈ buildScriptDataHash p s.languageViews x.plutusData x.redeemers, ∃ data,
      ScriptData.buildFor x.witnessSet s.languageViews = some data ∧ h = data.hash p.crypto) ↔
      (s.languageViews ≠ none → x.redeemers ≠ []) := by
  cases hviews : s.languageViews with
  | none => simp [buildScriptDataHash]
  | some views =>
    have hwit : x.witnessSet.redeemer = buildRedeemers x.redeemers ∧
        x.witnessSet.plutusData = buildDatums x.plutusData :=
      ⟨rfl, rfl⟩
    simp only [buildScriptDataHash, Option.map_some, Option.mem_some_iff, forall_eq', ne_eq, reduceCtorEq,
      not_false_eq_true,
      forall_const]
    constructor
    · rintro ⟨data, hdata, heq⟩ hnil
      rw [hnil] at heq
      simp only [ScriptData.buildFor, hwit, hnil, buildRedeemers, List.isEmpty_nil, if_true,
        Option.map_none, Option.isNone_none,
        true_and, Option.isSome_none, Bool.false_eq_true, false_and, if_false] at hdata
      split at hdata
      · cases hdata
      · cases hdata
        have hpre := hblake views hviews heq
        simp only [ScriptData.preimage, Option.elim_some, Option.elim_none, encodeRedeemers] at hpre
        cases hpre
    · intro hne
      have hsome : buildRedeemers x.redeemers = some (Redeemers.fresh (.list x.redeemers)) := by
        rw [buildRedeemers, if_neg (by simpa using hne)]
      refine ⟨⟨some (.list x.redeemers), buildDatums x.plutusData, some views⟩, ?_, rfl⟩
      simp only [ScriptData.buildFor, hwit, hsome, Option.map_some, Option.isNone_some, Bool.false_eq_true,
        false_and, if_false,
        Option.isSome_some, and_self, if_true]
      rfl

/-- Pointers and script data hash are right exactly for staging transactions that the builder can index. -/
theorem pointers_iff {s : StagingTransaction} {tx : Tx} (hbuild : buildTx p s = ok tx)
    (hblake : ∀ datums views, decodeDatums p s.datums = ok datums → s.languageViews = some views →
      NoCollision p.crypto.blake2b256
      (ScriptData.preimage ⟨some (.list []), buildDatums datums, some views⟩)
      (ScriptData.preimage ⟨none, buildDatums datums, none⟩)) : WellPointed p s tx ↔ Indexable s := by
  obtain ⟨x, hx, rfl⟩ := buildTx_eq_ok.1 hbuild
  have hrdmrs : redeemersOf (x.tx p s).transactionWitnessSet.inner = x.redeemers := redeemersOf_build _ _ _
  have hbuilt := mapM_eq_ok.1 hx.redeemers
  have hpoints := forall₂_iff hbuilt fun e r => points_iff hx
  have hhash := scriptDataHash_iff fun views hviews => hblake x.plutusData views hx.plutusData hviews
  have hnonempty : x.redeemers ≠ [] ↔ ∃ purpose y, (s.redeemers.getD ∅).lookup purpose = some y := by
    rw [← List.length_pos_iff, ← hbuilt.length_eq, List.length_pos_iff_exists_mem]
    constructor
    · rintro ⟨⟨k, v⟩, he⟩
      exact ⟨k, v, HashTable.mem_entries.1 he⟩
    · rintro ⟨k, v, hv⟩
      exact ⟨⟨k, v⟩, HashTable.mem_entries.2 hv⟩
  constructor
  · rintro ⟨hredeemers, -, hscript⟩
    rw [hrdmrs, hpoints] at hredeemers
    exact ⟨fun purpose y hy => hredeemers ⟨purpose, y⟩ (HashTable.mem_entries.2 hy),
      fun hviews => hnonempty.1 (hhash.1 hscript hviews)⟩
  · rintro ⟨hpurposes, hviews⟩
    have hall : List.Forall₂ (fun e r => r.tag = e.1.tag ∧ Points (x.tx p s).transactionBody.inner e.1 r.index.toNat ∧
        decodePlutusData p e.2.1 = ok r.data ∧ e.2.2 = some r.exUnits) (s.redeemers.getD ∅).entries x.redeemers :=
      hpoints.2 fun e he => hpurposes e.1 e.2 (HashTable.mem_entries.1 he)
    refine ⟨hrdmrs ▸ hall, ?_, hhash.2 fun hne => hnonempty.2 (hviews hne)⟩
    rw [hrdmrs]
    exact redeemers_distinct (s.redeemers.getD ∅).nodupKeys (hall.imp fun e r her => ⟨her.1, her.2.1⟩)

end Source

/-- The integer 1. -/
theorem decodePlutusData_one {ε : Type} (p : Platform ε) : decodePlutusData p [0x01] = ok (.bigInt (.int 1)) := by
  have hfits : PlutusData.Fits (.bigInt (.int 1)) := PlutusData.fits_leaf (by simp [PlutusData.FitsNode]) rfl
  have hok : PlutusData.ConstrOk (.bigInt (.int 1)) := .node trivial fun c hc => nomatch hc
  have hread := (PlutusData.decode_encode p.lawful.toLawful hfits hok () []).2
  rw [PlutusData.encodeTree_eq] at hread
  exact decodeFragment_eq_ok.2 ⟨[], hread⟩

/-- The parts of a transaction with a redeemer for one of its inputs. -/
def partsOf (index : UInt32) : Parts :=
  ⟨[], ∅, none, none, {}, [], [⟨.spend, index, .bigInt (.int 1), ⟨1, 1⟩⟩]⟩

def spendSecond (inputs : List Input) : StagingTransaction where
  inputs := some inputs
  redeemers := some (AList.insert (.spend ⟨0, 1⟩) ([0x01], some ⟨1, 1⟩) ∅)
  languageViews := some ∅

theorem spendSecond_parts (p : Platform String) (inputs : List Input) (index : UInt32)
    (h : pointerOf (buildInputs (some inputs)) [] (.spend ⟨0, 1⟩) = ok ⟨.spend, index⟩) :
    (partsOf index).Of p (spendSecond inputs) where
  outputs := rfl
  mint := rfl
  networkId := rfl
  collateralReturn := rfl
  scripts := rfl
  plutusData := rfl
  redeemers := by
    show [(⟨.spend ⟨0, 1⟩, ([0x01], some ⟨1, 1⟩)⟩ : (_ : RedeemerPurpose) × (Bytes × Option ExUnits))].mapM _ = _
    rw [mapM_eq_ok]
    exact .cons (buildRedeemer_eq_ok.2 ⟨rfl, decodePlutusData_one p, h⟩) .nil

/-- The hashes of the script data of `spendSecond`, with the redeemers left out. -/
def viewHashes : List (Bytes × Hash 32) :=
  [([0x80, 0xa0], 0xa88fe2947b8d45d1f8b798e52174202579ecf847b8f17038c7398103df2d27b0),
    ([0xa0, 0xa0], 0x9eb0251b2e85b082c3706a3e79b4cf2a2e96f936e912a398591e2486c757f8c1)]

def viewing : Platform String := { plain with crypto := .ofTables [] viewHashes [] [] }

theorem spendSecond_wellPointed : ∃ tx, buildTx viewing (spendSecond [⟨0, 0⟩, ⟨0, 1⟩]) = ok tx ∧
    WellPointed viewing (spendSecond [⟨0, 0⟩, ⟨0, 1⟩]) tx := by
  have hbuild := buildTx_eq_ok.2 ⟨_, spendSecond_parts viewing [⟨0, 0⟩, ⟨0, 1⟩] 1 rfl, rfl⟩
  refine ⟨_, hbuild, (pointers_iff hbuild ?_).2 ⟨?_, ?_⟩⟩
  · rintro datums views hdatums hviews
    cases hdatums
    cases hviews
    exact fun h => absurd h (by decide)
  · intro purpose x hx
    obtain rfl : purpose = .spend ⟨0, 1⟩ := by
      have hlookup : (AList.insert (.spend ⟨0, 1⟩)
          ([0x01], some ⟨1, 1⟩) ∅ : HashTable RedeemerPurpose _).lookup purpose = some x := hx
      rw [HashTable.lookup_insert_ite] at hlookup
      by_contra hne
      rw [if_neg hne, AList.lookup_empty] at hlookup
      cases hlookup
    show _ % 2 ^ 32 = _
    decide
  · intro _
    exact ⟨.spend ⟨0, 1⟩, _, rfl⟩

theorem duplicates_not_wellPointed : ¬ ∀ s tx, buildTx plain s = ok tx → WellPointed plain s tx := by
  intro h
  have hbuild := buildTx_eq_ok.2 ⟨_, spendSecond_parts plain [⟨0, 0⟩, ⟨0, 0⟩, ⟨0, 1⟩] 2 rfl, rfl⟩
  obtain ⟨hredeemers, -⟩ := h _ _ hbuild
  obtain ⟨_, hpoints, _⟩ := (List.forall₂_cons.1 hredeemers).1
  revert hpoints
  show ¬ (ledgerInputs (buildInputs _))[_]? = _
  decide

end TxBuilder
end Pallas
