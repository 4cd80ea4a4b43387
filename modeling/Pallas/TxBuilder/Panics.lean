import Pallas.TxBuilder.Building

/-!
# Where the builder panics

A call may panic, or wrap around where overflow is not checked, when a quantity is added to one that is held and the sum
leaves the integer type; and removing an output that is not there panics. `Call.Ok` is what a call needs. Building panics at a
quantity of zero and at a redeemer without a budget, unless it has returned an error before; `BuildOk` follows its order.
Redeemers are visited in any order, so that one without a budget may come first.

`builder_total_iff` says of every chain of calls that nothing in it panics or wraps exactly if all of that is met.
-/

namespace Pallas
namespace TxBuilder
open Outcome

/-! ### Quantities -/

namespace Assets
variable {A : Type} [MachineInt A]

/-- The amount can be added to what is held of the asset. -/
def Room (assets : Assets A) (policy : PolicyId) (name : AssetName) (amount : A) : Prop :=
  ∀ names, assets.lookup policy = some names → ∀ held, names.lookup name = some held →
    MachineInt.Fits A (MachineInt.toInt held + MachineInt.toInt amount)

/-- Every quantity is one that `P` allows. -/
def Holds {A : Type} (P : A → Prop) (assets : Assets A) : Prop :=
  ∀ policy names name n, assets.lookup policy = some names → names.lookup name = some n → P n

theorem accumulate_ne_panic_iff {assets : Assets A} {policy : PolicyId} {name : AssetName} {amount : A} :
    accumulate .debug assets policy name amount ≠ .panic ↔ assets.Room policy name amount := by
  unfold accumulate Room
  cases hnames : assets.lookup policy with
  | none => simp
  | some names =>
    cases hheld : names.lookup name with
    | none => simp [hheld]
    | some held => simp [hheld, MachineInt.add, MachineInt.exact_eq_panic, bind_eq_panic]

theorem accumulate_congr {assets : Assets A} {policy : PolicyId} {name : AssetName} {amount : A} {pr : Profile}
    (h : assets.Room policy name amount) :
    accumulate pr assets policy name amount = accumulate .debug assets policy name amount := by
  unfold accumulate
  cases hnames : assets.lookup policy with
  | none => rfl
  | some names =>
    cases hheld : names.lookup name with
    | none => simp [hheld]
    | some held =>
      have hfits := h names hnames held hheld
      simp [hheld, MachineInt.add, MachineInt.exact_of_fits hfits]

omit [MachineInt A] in
theorem collect_eq_none_iff {W : Type} {f : A → Option W} {assets : Assets A} :
    assets.collect (fun names => names.collect f) = none ↔ ¬ assets.Holds fun n => f n ≠ none := by
  simp only [HashTable.collect_eq_none, Holds]
  push Not
  constructor
  · rintro ⟨policy, names, hp, name, n, hn, hf⟩
    exact ⟨policy, names, name, n, hp, hn, hf⟩
  · rintro ⟨policy, names, name, n, hp, hn, hf⟩
    exact ⟨policy, names, hp, name, n, hn, hf⟩

end Assets

/-! ### Calls -/

section Calls
variable {ε : Type} (p : Platform ε)

/-- The same builder, with checks of overflow. -/
def Platform.checked : Platform ε := { p with profile := .debug }

/-- A call on an output that neither panics nor wraps. -/
def OutputCall.Ok (o : Output) : OutputCall → Prop
  | .addAsset policy name amount => name.length ≤ 32 → (o.assets.getD ∅).Room policy name amount
  | _ => True

theorem outputStep_ne_panic_iff (o : Output) (c : OutputCall) : o.step p.checked c ≠ .panic ↔ c.Ok o := by
  cases c with
  | addAsset policy name amount =>
    rw [Output.step, Output.addAsset, OutputCall.Ok, ← Assets.accumulate_ne_panic_iff]
    by_cases hlen : 32 < name.length
    · simp [hlen]
    · have hle : name.length ≤ 32 := by omega
      simp [hlen, hle, Platform.checked, bind_eq_panic]
  | _ => simp [Output.step, OutputCall.Ok]

theorem outputStep_congr (o : Output) (c : OutputCall) (h : c.Ok o) : o.step p c = o.step p.checked c := by
  cases c with
  | addAsset policy name amount =>
    rw [Output.step, Output.step, Output.addAsset, Output.addAsset]
    by_cases hlen : 32 < name.length
    · simp [hlen]
    · simp [hlen, Platform.checked, Assets.accumulate_congr (h (by omega))]
  | _ => rfl

/-- A call that neither panics nor wraps: sums fit, those on an output included, and the output to remove is there. -/
def Call.Ok (s : StagingTransaction) : Call → Prop
  | .output o calls => Along (Output.step p) OutputCall.Ok o calls
  | .collateralOutput o calls => Along (Output.step p) OutputCall.Ok o calls
  | .removeOutput index => index < (s.outputs.getD []).length
  | .mintAsset policy name amount => name.length ≤ 32 → (s.mint.getD ∅).Room policy name amount
  | _ => True

theorem step_ne_panic_iff (s : StagingTransaction) (c : Call) : step p.checked s c ≠ .panic ↔ c.Ok p s := by
  have houtput : ∀ (o : Output) (calls : List OutputCall),
      fold (Output.step p.checked) o calls ≠ .panic ↔ Along (Output.step p) OutputCall.Ok o calls := by
    intro o calls
    rw [fold_ne_panic_iff (outputStep_ne_panic_iff p), ← along_congr (outputStep_congr p)]
  cases c with
  | output o calls =>
    rw [step, Call.Ok, ← houtput]
    simp [bind_eq_panic]
  | collateralOutput o calls =>
    rw [step, Call.Ok, ← houtput]
    simp [bind_eq_panic]
  | removeOutput index =>
    rw [step, StagingTransaction.removeOutput, Call.Ok]
    by_cases hlt : index < (s.outputs.getD []).length
    · simp [hlt]
    · simp [hlt]
  | mintAsset policy name amount =>
    rw [step, StagingTransaction.mintAsset, Call.Ok, ← Assets.accumulate_ne_panic_iff]
    by_cases hlen : 32 < name.length
    · simp [hlen]
    · have hle : name.length ≤ 32 := by omega
      simp [hlen, hle, Platform.checked, bind_eq_panic]
  | _ => simp [step, Call.Ok]

theorem step_congr (s : StagingTransaction) (c : Call) (h : c.Ok p s) : step p s c = step p.checked s c := by
  cases c with
  | output o calls =>
    have hfold : fold (Output.step p) o calls = fold (Output.step p.checked) o calls :=
      fold_congr (outputStep_congr p) h
    rw [step, step, hfold]
  | collateralOutput o calls =>
    have hfold : fold (Output.step p) o calls = fold (Output.step p.checked) o calls :=
      fold_congr (outputStep_congr p) h
    rw [step, step, hfold]
  | mintAsset policy name amount =>
    rw [step, step, StagingTransaction.mintAsset, StagingTransaction.mintAsset]
    by_cases hlen : 32 < name.length
    · simp [hlen]
    · simp [hlen, Platform.checked, Assets.accumulate_congr (h (by omega))]
  | _ => rfl

end Calls

/-! ### Building -/

section Build
variable {ε : Type} (p : Platform ε)

def Datum.WellFormed (d : Datum) : Prop := match d.kind with
  | .hash => d.bytes.length = 32
  | .inline => ∃ x, decodePlutusData p d.bytes = .ok x

def Script.WellFormed (s : Script) : Prop := s.kind = .native → ∃ x, decodeNativeScript p s.bytes = .ok x

/-- No quantity is zero. -/
def Output.Positive (o : Output) : Prop := (o.assets.getD ∅).Holds fun n => n ≠ 0

/-- An output that is built. -/
structure Output.WellFormed (o : Output) : Prop where
  positive : o.Positive
  datum : ∀ d ∈ o.datum, d.WellFormed p
  script : ∀ s ∈ o.script, s.WellFormed p

theorem positiveCoin_ne_none {n : UInt64} : PositiveCoin.tryFrom n ≠ none ↔ n ≠ 0 := by
  simp [PositiveCoin.tryFrom]

theorem buildAssets_eq_none {o : Output} : o.buildAssets = none ↔ ¬ o.Positive := by
  rw [Output.buildAssets, Assets.collect_eq_none_iff]
  simp only [positiveCoin_ne_none, Output.Positive]

theorem buildMint_eq_none {mint : Option (Assets Int64)} :
    buildMint mint = none ↔ ¬ (mint.getD ∅).Holds fun z => z ≠ 0 := by
  have hne : ∀ z, nonZeroIntTryFrom z ≠ none ↔ z ≠ 0 := fun z => by simp [nonZeroIntTryFrom]
  rw [buildMint, Assets.collect_eq_none_iff]
  simp only [hne]

variable {p}

theorem buildDatumOption_isOk {o : Output} : (∃ d, o.buildDatumOption p = ok d) ↔ ∀ d ∈ o.datum, d.WellFormed p := by
  unfold Output.buildDatumOption
  rcases o.datum with _ | ⟨_ | _, bytes⟩
  · simp
  · by_cases h : bytes.length = 32 <;> simp [h, Datum.WellFormed]
  · simp [Datum.WellFormed, bind_eq_ok]

theorem buildDatumOption_ne_panic (o : Output) : o.buildDatumOption p ≠ panic := by
  unfold Output.buildDatumOption
  rcases o.datum with _ | ⟨_ | _, bytes⟩
  · simp
  · by_cases h : bytes.length = 32 <;> simp [h]
  · simp [bind_eq_panic]

theorem buildScriptRef_isOk {o : Output} : (∃ s, o.buildScriptRef p = ok s) ↔ ∀ s ∈ o.script, s.WellFormed p := by
  unfold Output.buildScriptRef
  rcases o.script with _ | ⟨_ | _ | _ | _, bytes⟩ <;> simp [Script.WellFormed, bind_eq_ok]

theorem buildScriptRef_ne_panic (o : Output) : o.buildScriptRef p ≠ panic := by
  unfold Output.buildScriptRef
  rcases o.script with _ | ⟨_ | _ | _ | _, bytes⟩ <;> simp [bind_eq_panic]

theorem buildBabbageRaw_isOk {o : Output} : (∃ out, o.buildBabbageRaw p = ok out) ↔ o.WellFormed p := by
  have hpositive : (∃ assets, o.buildAssets = some assets) ↔ o.Positive := by
    rw [← Option.isSome_iff_exists, ← not_iff_not, Option.not_isSome_iff_eq_none, buildAssets_eq_none]
  simp only [Output.buildBabbageRaw, bind_eq_ok, unwrap_eq_ok, ok.injEq]
  constructor
  · rintro ⟨_, assets, hassets, d, hd, s, hs, -⟩
    exact ⟨hpositive.1 ⟨_, hassets⟩, buildDatumOption_isOk.1 ⟨_, hd⟩, buildScriptRef_isOk.1 ⟨_, hs⟩⟩
  · rintro ⟨hassets, hdatum, hscript⟩
    obtain ⟨assets, hassets⟩ := hpositive.2 hassets
    obtain ⟨d, hd⟩ := buildDatumOption_isOk.2 hdatum
    obtain ⟨s, hs⟩ := buildScriptRef_isOk.2 hscript
    exact ⟨_, assets, hassets, d, hd, s, hs, rfl⟩

theorem buildBabbageRaw_eq_panic {o : Output} : o.buildBabbageRaw p = panic ↔ ¬ o.Positive := by
  simp [Output.buildBabbageRaw, bind_eq_panic, buildDatumOption_ne_panic, buildScriptRef_ne_panic, buildAssets_eq_none]

variable (p)

/-- What building needs, in its order: an output, the mint, the collateral return and the redeemers count only if nothing
before them is in error. -/
structure BuildOk (s : StagingTransaction) : Prop where
  outputs : ∀ pre o post, s.outputs.getD [] = pre ++ o :: post → (∀ x ∈ pre, x.WellFormed p) → o.Positive
  mint : (∀ o ∈ s.outputs.getD [], o.WellFormed p) → (s.mint.getD ∅).Holds fun z => z ≠ 0
  collateral : (∀ o ∈ s.outputs.getD [], o.WellFormed p) → (∀ id ∈ s.networkId, id = 0 ∨ id = 1) →
    ∀ o ∈ s.collateralOutput, o.Positive
  redeemers : (∀ o ∈ s.outputs.getD [], o.WellFormed p) → (∀ id ∈ s.networkId, id = 0 ∨ id = 1) →
    (∀ o ∈ s.collateralOutput, o.WellFormed p) → (∀ h x, (s.scripts.getD ∅).lookup h = some x → x.WellFormed p) →
    (∀ h bytes, (s.datums.getD ∅).lookup h = some bytes → ∃ x, decodePlutusData p bytes = .ok x) →
    ∀ purpose data exUnits, (s.redeemers.getD ∅).lookup purpose = some (data, exUnits) → exUnits ≠ none

variable {p}

theorem buildNetworkId_isOk {id : Option UInt8} : (∃ n, buildNetworkId id = ok n) ↔ ∀ i ∈ id, i = 0 ∨ i = 1 := by
  cases id with
  | none => simp [buildNetworkId]
  | some i =>
    by_cases h0 : i = 0
    · simp [buildNetworkId, NetworkId.tryFrom, h0]
    by_cases h1 : i = 1 <;> simp [buildNetworkId, NetworkId.tryFrom, h0, h1]

theorem buildNetworkId_ne_panic (id : Option UInt8) : buildNetworkId id ≠ panic := by
  cases id with
  | none => simp [buildNetworkId]
  | some i => cases hi : NetworkId.tryFrom i <;> simp [buildNetworkId, hi]

theorem buildCollateralReturn_isOk {o : Option Output} :
    (∃ out, buildCollateralReturn p o = ok out) ↔ ∀ x ∈ o, x.WellFormed p := by
  cases o with
  | none => simp [buildCollateralReturn]
  | some o => simp [buildCollateralReturn, bind_eq_ok, buildBabbageRaw_isOk]

theorem buildCollateralReturn_eq_panic {o : Option Output} :
    buildCollateralReturn p o = panic ↔ ∃ x ∈ o, ¬ x.Positive := by
  cases o with
  | none => simp [buildCollateralReturn]
  | some o => simp [buildCollateralReturn, bind_eq_panic, buildBabbageRaw_eq_panic]

theorem buildScripts_isOk {scripts : Option (HashTable ScriptHash Script)} :
    (∃ r, buildScripts p scripts = ok r) ↔ ∀ h x, (scripts.getD ∅).lookup h = some x → x.WellFormed p := by
  have hall : (∃ natives, (ofKind .native (scriptsOf scripts)).mapM (decodeNativeScript p) = ok natives) ↔
      ∀ h x, (scripts.getD ∅).lookup h = some x → x.WellFormed p := by
    rw [mapM_isOk]
    simp only [ofKind, scriptsOf, List.mem_map, List.mem_filter, forall_exists_index, and_imp, Sigma.forall,
      HashTable.mem_entries, Script.WellFormed, decide_eq_true_eq]
    constructor
    · intro h k x hx hkind
      exact h _ x k x hx rfl hkind rfl
    · rintro h _ _ k x hx rfl hkind rfl
      exact h k x hx hkind
  rw [← hall]
  constructor
  · rintro ⟨r, hr⟩
    exact ⟨_, (buildScripts_eq_ok.1 hr).1⟩
  · rintro ⟨natives, h⟩
    exact ⟨⟨natives, _, _, _⟩, buildScripts_eq_ok.2 ⟨h, rfl, rfl, rfl⟩⟩

theorem decodeDatums_isOk {datums : Option (HashTable DatumHash Bytes)} : (∃ r, decodeDatums p datums = ok r) ↔
    ∀ h bytes, (datums.getD ∅).lookup h = some bytes → ∃ x, decodePlutusData p bytes = ok x := by
  rw [decodeDatums, mapM_isOk]
  simp only [Sigma.forall, HashTable.mem_entries]

theorem decodeDatums_ne_panic (datums : Option (HashTable DatumHash Bytes)) : decodeDatums p datums ≠ panic :=
  mapM_ne_panic fun x _ => decodePlutusData_ne_panic p x.2

theorem buildRedeemer_ne_panic {inputs : List TransactionInput} {mintPolicies : List PolicyId}
    {rdmr : (_ : RedeemerPurpose) × (Bytes × Option ExUnits)} (h : rdmr.2.2 ≠ none) :
    buildRedeemer p inputs mintPolicies rdmr ≠ panic := by
  have hposition : ∀ {α : Type} [DecidableEq α] (xs : List α) (x : α), positionOf xs x ≠ panic := by
    intro α _ xs x
    simp [positionOf, bind_eq_panic]
  obtain ⟨purpose, data, exUnits⟩ := rdmr
  cases purpose <;> simp_all [buildRedeemer, pointerOf, bind_eq_panic]

theorem StagingTransaction.Same.refl (s : StagingTransaction) : s.Same s := by
  have houtput : ∀ o : Output, o.Same o := fun o =>
    ⟨rfl, rfl, HashTable.rel_refl (HashTable.Alike.refl (HashTable.Alike.refl fun _ => rfl)) _, rfl, rfl⟩
  have hassets : ∀ a : Assets Int64, a.Alike a := HashTable.Alike.refl (HashTable.Alike.refl fun _ => rfl)
  have htable : ∀ {κ ν : Type} [DecidableEq κ] (a : HashTable κ ν), HashTable.Alike Eq a a :=
    HashTable.Alike.refl fun _ => rfl
  constructor
  case outputs => exact HashTable.rel_refl (fun os => List.forall₂_same.2 fun o _ => houtput o) _
  case mint => exact HashTable.rel_refl hassets _
  case collateralOutput => exact HashTable.rel_refl houtput _
  case scripts | datums | redeemers => exact HashTable.rel_refl htable _
  all_goals rfl

theorem lookup_getD {κ ν : Type} [DecidableEq κ] {a b : Option (HashTable κ ν)}
    (h : Option.Rel (HashTable.Alike Eq) a b)
    (k : κ) : (a.getD ∅).lookup k = (b.getD ∅).lookup k := by
  rcases h with ⟨h⟩ | _
  · exact HashTable.rel_eq_iff.1 (h k)
  · rfl

theorem BuildOk.ne_panic {s t : StagingTransaction} (h : BuildOk p s) (hst : s.Same t) : buildTx p t ≠ panic := by
  intro hpanic
  rw [buildTx, ← buildOutputs_congr hst.outputs, ← buildMint_congr hst.mint, ← hst.networkId,
    ← buildCollateralReturn_congr hst.collateralOutput] at hpanic
  rcases bind_eq_panic.1 hpanic with hpanic | ⟨outputs, houtputs, hpanic⟩
  · obtain ⟨pre, o, post, heq, hpre, ho⟩ := mapM_eq_panic.1 hpanic
    exact buildBabbageRaw_eq_panic.1 ho (h.outputs pre o post heq fun x hx => buildBabbageRaw_isOk.1 (hpre x hx))
  have houts : ∀ o ∈ s.outputs.getD [], o.WellFormed p := fun o ho =>
    buildBabbageRaw_isOk.1 (mapM_isOk.1 ⟨outputs, houtputs⟩ o ho)
  rcases bind_eq_panic.1 hpanic with hpanic | ⟨mint, -, hpanic⟩
  · exact buildMint_eq_none.1 (unwrap_eq_panic.1 hpanic) (h.mint houts)
  rcases bind_eq_panic.1 hpanic with hpanic | ⟨networkId, hid, hpanic⟩
  · exact buildNetworkId_ne_panic _ hpanic
  have hid' := buildNetworkId_isOk.1 ⟨_, hid⟩
  rcases bind_eq_panic.1 hpanic with hpanic | ⟨collateralReturn, hcollateral, hpanic⟩
  · obtain ⟨o, ho, hzero⟩ := buildCollateralReturn_eq_panic.1 hpanic
    exact hzero (h.collateral houts hid' o ho)
  rcases bind_eq_panic.1 hpanic with hpanic | ⟨scripts, hscripts, hpanic⟩
  · exact buildScripts_ne_panic _ hpanic
  rcases bind_eq_panic.1 hpanic with hpanic | ⟨plutusData, hdatums, hpanic⟩
  · exact decodeDatums_ne_panic _ hpanic
  rcases bind_eq_panic.1 hpanic with hpanic | ⟨redeemers, -, hpanic⟩
  · refine mapM_ne_panic (fun rdmr hrdmr => buildRedeemer_ne_panic ?_) hpanic
    refine h.redeemers houts hid' (buildCollateralReturn_isOk.1 ⟨_, hcollateral⟩) ?_ ?_ rdmr.1 rdmr.2.1 rdmr.2.2 ?_
    · intro k x hx
      rw [lookup_getD hst.scripts] at hx
      exact buildScripts_isOk.1 ⟨_, hscripts⟩ k x hx
    · intro k bytes hbytes
      rw [lookup_getD hst.datums] at hbytes
      exact decodeDatums_isOk.1 ⟨_, hdatums⟩ k bytes hbytes
    · rw [lookup_getD hst.redeemers]
      exact HashTable.mem_entries.1 hrdmr
  · cases hpanic

theorem StagingTransaction.Same.redeemers_first {s : StagingTransaction} {purpose : RedeemerPurpose}
    {x : Bytes × Option ExUnits} (h : (s.redeemers.getD ∅).lookup purpose = some x) :
    ∃ t, s.Same t ∧ t = { s with redeemers := t.redeemers } ∧
      ∃ es, (t.redeemers.getD ∅).entries = ⟨purpose, x⟩ :: es := by
  obtain ⟨table, htable, hes⟩ := HashTable.exists_first (HashTable.mem_entries.2 h)
  refine ⟨{ s with redeemers := some table }, ?_, rfl, hes⟩
  have hsame := Same.refl s
  cases hs : s.redeemers with
  | none => simp [hs] at h
  | some redeemers =>
    rw [hs] at htable
    exact { hsame with redeemers := hs ▸ .some htable }

/-- And exactly then. -/
theorem BuildOk.of_ne_panic {s : StagingTransaction} (h : ∀ t, s.Same t → buildTx p t ≠ panic) : BuildOk p s := by
  have hself := h s (.refl s)
  have houtputs : (∀ o ∈ s.outputs.getD [], o.WellFormed p) →
      ∃ outputs, ((s.outputs.getD []).mapM fun o => o.buildBabbageRaw p) = ok outputs := fun houts =>
    mapM_isOk.2 fun o ho => buildBabbageRaw_isOk.2 (houts o ho)
  have hmint : (∀ o ∈ s.outputs.getD [], o.WellFormed p) → ∃ mint, buildMint s.mint = some mint := by
    intro houts
    obtain ⟨outputs, houtputs⟩ := houtputs houts
    cases hmint : buildMint s.mint with
    | none => exact absurd (by rw [buildTx, houtputs, hmint]; rfl) hself
    | some mint => exact ⟨mint, rfl⟩
  constructor
  case outputs =>
    intro pre o post heq hpre
    by_contra hzero
    have hpanic : ((s.outputs.getD []).mapM fun o => o.buildBabbageRaw p) = panic :=
      mapM_eq_panic.2 ⟨pre, o, post, heq, fun x hx => buildBabbageRaw_isOk.2 (hpre x hx),
        buildBabbageRaw_eq_panic.2 hzero⟩
    exact hself (by rw [buildTx, hpanic]; rfl)
  case mint =>
    intro houts
    by_contra hzero
    obtain ⟨mint, hmint⟩ := hmint houts
    rw [buildMint_eq_none.2 hzero] at hmint
    cases hmint
  case collateral =>
    intro houts hid o ho
    by_contra hzero
    obtain ⟨outputs, houtputs⟩ := houtputs houts
    obtain ⟨mint, hmint⟩ := hmint houts
    obtain ⟨networkId, hnetwork⟩ := buildNetworkId_isOk.2 hid
    have hpanic : buildCollateralReturn p s.collateralOutput = panic := buildCollateralReturn_eq_panic.2 ⟨o, ho, hzero⟩
    exact hself (by rw [buildTx, houtputs, hmint, hnetwork, hpanic]; rfl)
  case redeemers =>
    intro houts hid hcollateral hscripts hdatums purpose data exUnits hrdmr hnone
    subst hnone
    obtain ⟨t, hst, heq, es, hes⟩ := StagingTransaction.Same.redeemers_first hrdmr
    obtain ⟨outputs, houtputs⟩ := houtputs houts
    obtain ⟨mint, hmint⟩ := hmint houts
    obtain ⟨networkId, hnetwork⟩ := buildNetworkId_isOk.2 hid
    obtain ⟨collateralReturn, hreturn⟩ := buildCollateralReturn_isOk.2 hcollateral
    obtain ⟨scripts, hscripts⟩ := buildScripts_isOk.2 hscripts
    obtain ⟨plutusData, hdatums⟩ := decodeDatums_isOk.2 hdatums
    refine h t hst ?_
    rw [buildTx, hes, heq]
    show ((s.outputs.getD []).mapM (fun o => o.buildBabbageRaw p) >>= _) = _
    rw [houtputs, hmint, hnetwork, hreturn, hscripts, hdatums]
    rfl

theorem buildConwayRaw_eq_panic {s : StagingTransaction} : buildConwayRaw p s = panic ↔ buildTx p s = panic := by
  simp [buildConwayRaw, bind_eq_panic]

end Build

/-! ### Chains of calls -/

section Runs
variable {ε : Type} (p : Platform ε)

/-- In a chain of calls nothing panics and nothing wraps around, nor does building what is staged then panic, in whatever
order its tables are visited. -/
def Total (calls : List Call) : Prop :=
  run p calls ≠ .panic ∧ run p calls = run p.checked calls ∧
    ∀ s t, run p calls = .ok s → s.Same t → buildConwayRaw p t ≠ .panic

theorem run_total_iff {calls : List Call} : run p calls ≠ .panic ∧ run p calls = run p.checked calls ↔
    Along (step p) (Call.Ok p) .new calls := by
  have hchecked : run p.checked calls ≠ .panic ↔ Along (step p) (Call.Ok p) .new calls := by
    rw [run, fold_ne_panic_iff (step_ne_panic_iff p), ← along_congr (step_congr p)]
  constructor
  · rintro ⟨hne, heq⟩
    exact hchecked.1 (heq ▸ hne)
  · intro h
    have heq : run p calls = run p.checked calls := fold_congr (step_congr p) h
    exact ⟨heq ▸ hchecked.2 h, heq⟩

/-- A chain of calls is free of panics and of wrapping exactly if every call in it is in order where it is made, and what is
staged at the end can be built. -/
theorem builder_total_iff (calls : List Call) :
    Total p calls ↔ Along (step p) (Call.Ok p) .new calls ∧ ∀ s, run p calls = .ok s → BuildOk p s := by
  rw [Total, ← and_assoc, run_total_iff]
  refine and_congr_right fun _ => ?_
  simp only [Ne, buildConwayRaw_eq_panic]
  constructor
  · intro h s hs
    exact .of_ne_panic fun t hst => h s t hs hst
  · intro h s t hs hst
    exact (h s hs).ne_panic hst

end Runs

/-- A builder with overflow checks, over the decoder by the standard, hashes that are all zero and no auxiliary data. -/
def plain : Platform String where
  profile := .debug
  crypto := .ofTables [] [] [] []
  minicbor := .reference
  lawful := MinicborScript.reference_lawful
  decodeAuxiliaryData _ := none

/-- An asset that is minted and burned again. -/
def mintAndBurn : List Call := [.mintAsset 0 [] 5, .mintAsset 0 [] (-5)]

/-- The quantity left is zero, and building panics. -/
theorem mintAndBurn_not_total : ¬ ∀ calls, Total plain calls := by
  intro h
  obtain ⟨-, -, hbuild⟩ := h mintAndBurn
  have hrun : run plain mintAndBurn = .ok { StagingTransaction.new with
      mint := some (AList.insert 0 (AList.insert [] 0 (AList.insert [] 5 ∅))
        (AList.insert 0 (AList.insert [] 5 ∅) ∅)) } := rfl
  exact hbuild _ _ hrun (.refl _) rfl

end TxBuilder
end Pallas
