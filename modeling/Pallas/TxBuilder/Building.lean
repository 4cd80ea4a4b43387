import Pallas.Lib.Loops
import Pallas.TxBuilder.Fragments

/-!
# The parts of a transaction

What `buildTx` returns, part by part (`buildTx_eq_ok`), and which parts equal staging transactions agree on: the outputs, the
mint and the collateral return do not depend on the order of any table. Scripts come out by language, each language in the
order of the table (`buildScripts_eq_ok`).
-/

namespace Pallas
namespace TxBuilder
open Outcome Conway

section Source
variable {ε : Type} {p : Platform ε}

/-! ### Outputs and mint -/

theorem alike_getD {A : Type} {a a' : Option (Assets A)} (h : Option.Rel Assets.Alike a a') :
    (a.getD ∅).Alike (a'.getD ∅) := by
  rcases h with ⟨h⟩ | _
  · exact h
  · exact fun policy => .none

theorem collect_assets_congr {A W : Type} {f : A → Option W} {a a' : Assets A} (h : a.Alike a') :
    a.collect (fun names => names.collect f) = a'.collect fun names => names.collect f := by
  refine HashTable.collect_congr (h.imp fun names names' hnames => ?_)
  exact HashTable.collect_congr (hnames.imp fun n n' hn => congrArg f hn)

theorem Output.Same.buildBabbageRaw_eq {o o' : Output} (h : o.Same o') :
    o.buildBabbageRaw p = o'.buildBabbageRaw p := by
  obtain ⟨address, lovelace, assets, datum, script⟩ := o
  obtain ⟨address', lovelace', assets', datum', script'⟩ := o'
  obtain ⟨rfl, rfl, hassets, rfl, rfl⟩ := h
  have hbuild : Output.buildAssets ⟨address, lovelace, assets, datum, script⟩ =
      Output.buildAssets ⟨address, lovelace, assets', datum, script⟩ := collect_assets_congr (alike_getD hassets)
  simp only [Output.buildBabbageRaw, hbuild]
  rfl

theorem buildMint_congr {mint mint' : Option (Assets Int64)} (h : Option.Rel Assets.Alike mint mint') :
    buildMint mint = buildMint mint' := collect_assets_congr (alike_getD h)

theorem buildOutputs_congr {outputs outputs' : Option (List Output)}
    (h : Option.Rel (List.Forall₂ Output.Same) outputs outputs') :
    ((outputs.getD []).mapM fun o => o.buildBabbageRaw p) = (outputs'.getD []).mapM fun o => o.buildBabbageRaw p := by
  rcases h with ⟨h⟩ | _
  · exact mapM_congr (h.imp fun o o' ho => ho.buildBabbageRaw_eq)
  · rfl

theorem buildCollateralReturn_congr {output output' : Option Output} (h : Option.Rel Output.Same output output') :
    buildCollateralReturn p output = buildCollateralReturn p output' := by
  rcases h with ⟨h⟩ | _
  · simp only [buildCollateralReturn, h.buildBabbageRaw_eq]
  · rfl

/-! ### Scripts -/

/-- The scripts of one language. -/
def ofKind (kind : ScriptKind) (scripts : List Script) : List Bytes :=
  (scripts.filter fun s => s.kind = kind).map Script.bytes

theorem ofKind_cons (kind : ScriptKind) (s : Script) (scripts : List Script) :
    ofKind kind (s :: scripts) = (if s.kind = kind then [s.bytes] else []) ++ ofKind kind scripts := by
  by_cases h : s.kind = kind <;> simp [ofKind, h]

/-- The scripts in a table. -/
def scriptsOf (scripts : Option (HashTable ScriptHash Script)) : List Script := (scripts.getD ∅).entries.map Sigma.snd

theorem fold_push_eq_ok {scripts : List Script} {acc r : Scripts} :
    fold (Scripts.push p) acc scripts = ok r ↔
      ∃ natives, (ofKind .native scripts).mapM (decodeNativeScript p) = ok natives ∧
      r = ⟨acc.native ++ natives, acc.plutusV1 ++ ofKind .plutusV1 scripts, acc.plutusV2 ++ ofKind .plutusV2 scripts,
        acc.plutusV3 ++ ofKind .plutusV3 scripts⟩ := by
  induction scripts generalizing acc with
  | nil =>
    obtain ⟨native, v1, v2, v3⟩ := acc
    simp [ofKind, eq_comm]
  | cons s scripts ih =>
    obtain ⟨kind, bytes⟩ := s
    rw [fold_cons, bind_eq_ok]
    cases kind with
    | native =>
      simp only [Scripts.push, ih, bind_eq_ok, ok.injEq, ofKind_cons, if_true, List.singleton_append,
        List.mapM_cons, pure_eq,
        reduceCtorEq, if_false, List.nil_append]
      constructor
      · rintro ⟨_, ⟨x, hx, rfl⟩, xs, hxs, rfl⟩
        exact ⟨x :: xs, ⟨x, hx, xs, hxs, rfl⟩, by simp⟩
      · rintro ⟨_, ⟨x, hx, xs, hxs, rfl⟩, rfl⟩
        exact ⟨_, ⟨x, hx, rfl⟩, xs, hxs, by simp⟩
    | _ => simp [Scripts.push, ih, ofKind_cons]

theorem buildScripts_eq_ok {scripts : Option (HashTable ScriptHash Script)} {r : Scripts} :
    buildScripts p scripts = ok r ↔ (ofKind .native (scriptsOf scripts)).mapM (decodeNativeScript p) = ok r.native ∧
      r.plutusV1 = ofKind .plutusV1 (scriptsOf scripts) ∧ r.plutusV2 = ofKind .plutusV2 (scriptsOf scripts) ∧
      r.plutusV3 = ofKind .plutusV3 (scriptsOf scripts) := by
  obtain ⟨native, v1, v2, v3⟩ := r
  rw [buildScripts, ← scriptsOf, fold_push_eq_ok]
  simp only [List.nil_append, Scripts.mk.injEq]
  constructor
  · rintro ⟨natives, h, rfl, rfl, rfl, rfl⟩
    exact ⟨h, rfl, rfl, rfl⟩
  · rintro ⟨h, rfl, rfl, rfl⟩
    exact ⟨_, h, rfl, rfl, rfl, rfl⟩

theorem buildScripts_ne_panic (scripts : Option (HashTable ScriptHash Script)) : buildScripts p scripts ≠ panic := by
  refine (fold_ensures (P := fun _ => True) (fun s x _ => ⟨?_, fun _ _ => trivial⟩) trivial _).1
  obtain ⟨kind, bytes⟩ := x
  cases kind <;> simp [Scripts.push, bind_eq_panic]

/-! ### All of it -/

/-- The pieces that a transaction is put together from. -/
structure Parts where
  outputs : List TransactionOutput
  mint : Mint
  networkId : Option NetworkId
  collateralReturn : Option TransactionOutput
  scripts : Scripts
  plutusData : List PlutusData
  redeemers : List Redeemer

/-- Each part is what its step of `buildTx` returns. -/
structure Parts.Of (p : Platform ε) (s : StagingTransaction) (x : Parts) : Prop where
  outputs : ((s.outputs.getD []).mapM fun o => o.buildBabbageRaw p) = ok x.outputs
  mint : buildMint s.mint = some x.mint
  networkId : buildNetworkId s.networkId = ok x.networkId
  collateralReturn : buildCollateralReturn p s.collateralOutput = ok x.collateralReturn
  scripts : buildScripts p s.scripts = ok x.scripts
  plutusData : decodeDatums p s.datums = ok x.plutusData
  redeemers : (s.redeemers.getD ∅).entries.mapM (buildRedeemer p (buildInputs s.inputs) x.mint.keys) = ok x.redeemers

/-- The transaction of these parts. -/
def Parts.tx (p : Platform ε) (s : StagingTransaction) (x : Parts) : Tx :=
  assemble p s x.outputs x.mint x.networkId x.collateralReturn x.scripts x.plutusData x.redeemers

theorem buildTx_eq_ok {s : StagingTransaction} {tx : Tx} : buildTx p s = ok tx ↔ ∃ x :
    Parts, x.Of p s ∧ tx = x.tx p s := by
  simp only [buildTx, bind_eq_ok, unwrap_eq_ok, ok.injEq]
  constructor
  · rintro ⟨outputs, h₁, mint, h₂, networkId, h₃, collateralReturn, h₄, scripts, h₅, plutusData, h₆, redeemers, h₇, rfl⟩
    exact ⟨⟨outputs, mint, networkId, collateralReturn, scripts, plutusData, redeemers⟩,
      ⟨h₁, h₂, h₃, h₄, h₅, h₆, h₇⟩, rfl⟩
  · rintro ⟨x, ⟨h₁, h₂, h₃, h₄, h₅, h₆, h₇⟩, rfl⟩
    exact ⟨_, h₁, _, h₂, _, h₃, _, h₄, _, h₅, _, h₆, _, h₇, rfl⟩

end Source
end TxBuilder
end Pallas
