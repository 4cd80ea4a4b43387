import Pallas.TxBuilder.Reorder
import Pallas.TxBuilder.Unique

/-!
# Building in another order

Equal staging transactions may visit their tables in different orders. Amounts are sorted on the way, but scripts, datums and
redeemers are written as they come, so the bytes are the same for all orders exactly if each of these lists repeats one item
(`OrderFree`): one script of each language, one datum, one redeemer. And they are the same for all orders of additions exactly
if, besides, no addition replaces another one that is written differently (`Consistent`).
-/

namespace Pallas
namespace TxBuilder
open Outcome Conway

section Source
variable {ε : Type} (p : Platform ε)

/-- The policies that redeemers are counted by. -/
def policiesOf (mint : Option (Assets Int64)) : List PolicyId := (buildMint mint).elim [] fun m => m.keys

/-- Scripts of one language that are written alike. -/
def Script.Written (x x' : Script) : Prop :=
  x.kind = x'.kind ∧
    if x.kind = .native then decodeNativeScript p x.bytes = decodeNativeScript p x'.bytes else x.bytes = x'.bytes

def DatumWritten (bytes bytes' : Bytes) : Prop := decodePlutusData p bytes = decodePlutusData p bytes'

/-- Redeemers with one budget and data that are written alike. -/
def RedeemerWritten (x x' : Bytes × Option ExUnits) : Prop := DatumWritten p x.1 x'.1 ∧ x.2 = x'.2

/-- The scripts of each language, the datums and the redeemers are written alike. -/
structure OrderFree (s : StagingTransaction) : Prop where
  scripts : ∀ h h' x x', (s.scripts.getD ∅).lookup h = some x → (s.scripts.getD ∅).lookup h' = some x' →
    x.kind = x'.kind → x.Written p x'
  datums : ∀ h h' bytes bytes', (s.datums.getD ∅).lookup h = some bytes → (s.datums.getD ∅).lookup h' = some bytes' →
    DatumWritten p bytes bytes'
  redeemers : ∀ a a' x x', (s.redeemers.getD ∅).lookup a = some x → (s.redeemers.getD ∅).lookup a' = some x' →
    pointerOf (buildInputs s.inputs) (policiesOf s.mint) a = pointerOf (buildInputs s.inputs) (policiesOf s.mint) a' ∧
      RedeemerWritten p x x'

/-- What is added at one key is written alike. -/
structure Consistent (calls : List Call) : Prop where
  scripts : ∀ e ∈ calls.filterMap (Call.scriptAdded p), ∀ e' ∈ calls.filterMap (Call.scriptAdded p), e.1 = e'.1 →
    e.2.Written p e'.2
  datums : ∀ e ∈ calls.filterMap (Call.datumAdded p), ∀ e' ∈ calls.filterMap (Call.datumAdded p), e.1 = e'.1 →
    DatumWritten p e.2 e'.2
  redeemers : ∀ e ∈ calls.filterMap Call.redeemerAdded, ∀ e' ∈ calls.filterMap Call.redeemerAdded, e.1 = e'.1 →
    RedeemerWritten p e.2 e'.2

/-- The tables are small enough to be held, and so are the byte strings in them. -/
structure StagingTransaction.Storable (s : StagingTransaction) : Prop where
  sizes : (s.scripts.getD ∅).entries.length < 2 ^ 63 ∧ (s.datums.getD ∅).entries.length < 2 ^ 63 ∧
    (s.redeemers.getD ∅).entries.length < 2 ^ 63
  scripts : ∀ h x, (s.scripts.getD ∅).lookup h = some x → x.bytes.length < 2 ^ 63
  datums : ∀ h bytes, (s.datums.getD ∅).lookup h = some bytes → bytes.length < 2 ^ 63
  redeemers : ∀ a x, (s.redeemers.getD ∅).lookup a = some x → x.1.length < 2 ^ 63

/-- The bytes of an addition are as many as a vector can hold. -/
structure Call.Storable (c : Call) : Prop where
  script : ∀ e ∈ c.scriptAdded p, e.2.bytes.length < 2 ^ 63
  datum : ∀ e ∈ c.datumAdded p, e.2.length < 2 ^ 63
  redeemer : ∀ e ∈ c.redeemerAdded, e.2.1.length < 2 ^ 63

/-- Building gives the bytes and the hash of `b`. -/
def Builds (b : BuiltTransaction) (s : StagingTransaction) : Prop :=
  ∃ b', buildConwayRaw p s = .ok b' ∧ b'.txBytes = b.txBytes ∧ b'.txHash = b.txHash

/-- Whatever is equal to what the calls give, on an equal start and with additions in any order, is built to `b`. -/
def Reproducible (s₀ : StagingTransaction) (calls : List Call) (b : BuiltTransaction) : Prop :=
  ∀ s₀' calls' s' t, s₀.Same s₀' → Reordered calls calls' → fold (step p) s₀' calls' = .ok s' → s'.Same t → Builds p b t

variable {p}

theorem scriptWritten_equivalence : Equivalence (Script.Written p) where
  refl x := ⟨rfl, by split <;> rfl⟩
  symm {x y} h := by
    obtain ⟨hkind, h⟩ := h
    refine ⟨hkind.symm, ?_⟩
    rw [← hkind]
    by_cases hn : x.kind = .native
    · rw [if_pos hn] at h ⊢
      exact h.symm
    · rw [if_neg hn] at h ⊢
      exact h.symm
  trans {x y z} h h' := by
    obtain ⟨hkind, h⟩ := h
    obtain ⟨hkind', h'⟩ := h'
    refine ⟨hkind.trans hkind', ?_⟩
    rw [← hkind] at h'
    by_cases hn : x.kind = .native
    · rw [if_pos hn] at h h' ⊢
      exact h.trans h'
    · rw [if_neg hn] at h h' ⊢
      exact h.trans h'

theorem datumWritten_equivalence : Equivalence (DatumWritten p) :=
  ⟨fun _ => rfl, fun h => Eq.symm h, fun h h' => Eq.trans h h'⟩

theorem redeemerWritten_equivalence : Equivalence (RedeemerWritten p) :=
  ⟨fun _ => ⟨rfl, rfl⟩, fun h => ⟨h.1.symm, h.2.symm⟩, fun h h' => ⟨h.1.trans h'.1, h.2.trans h'.2⟩⟩

/-! ### Parts in another order -/

/-- The parts of two transactions: the same, but for scripts, datums and redeemers. -/
structure Parts.Kin (x y : Parts) : Prop where
  outputs : x.outputs = y.outputs
  mint : x.mint = y.mint
  networkId : x.networkId = y.networkId
  collateralReturn : x.collateralReturn = y.collateralReturn

/-- And those in another order. -/
structure Parts.Shuffled (x y : Parts) : Prop extends x.Kin y where
  native : x.scripts.native.Perm y.scripts.native
  plutusV1 : x.scripts.plutusV1.Perm y.scripts.plutusV1
  plutusV2 : x.scripts.plutusV2.Perm y.scripts.plutusV2
  plutusV3 : x.scripts.plutusV3.Perm y.scripts.plutusV3
  plutusData : x.plutusData.Perm y.plutusData
  redeemers : x.redeemers.Perm y.redeemers

theorem Parts.Of.kin {s t : StagingTransaction} {x y : Parts} (hx : x.Of p s) (hy : y.Of p t) (hst : s.bare.Same t.bare)
    (hmint : Option.Rel Assets.Alike s.mint t.mint) : x.Kin y := by
  constructor
  · exact ok.inj (hx.outputs.symm.trans ((buildOutputs_congr hst.outputs).trans hy.outputs))
  · exact Option.some.inj (hx.mint.symm.trans ((buildMint_congr hmint).trans hy.mint))
  · exact ok.inj (hx.networkId.symm.trans ((congrArg buildNetworkId hst.networkId).trans hy.networkId))
  · exact ok.inj (hx.collateralReturn.symm.trans
      ((buildCollateralReturn_congr hst.collateralOutput).trans hy.collateralReturn))

theorem ofKind_perm {scripts scripts' : List Script} (h : scripts.Perm scripts') (kind : ScriptKind) :
    (ofKind kind scripts).Perm (ofKind kind scripts') := (h.filter _).map _

theorem ofKind_written {scripts scripts' : List Script} (h : List.Forall₂ (Script.Written p) scripts scripts')
    (kind : ScriptKind) : List.Forall₂
      (fun bs bs' => if kind = .native then decodeNativeScript p bs = decodeNativeScript p bs'
      else bs = bs') (ofKind kind scripts) (ofKind kind scripts') := by
  induction h with
  | nil => exact .nil
  | @cons x x' xs xs' hx _ ih =>
    obtain ⟨hkind, hbytes⟩ := hx
    rw [ofKind_cons, ofKind_cons, ← hkind]
    by_cases hk : x.kind = kind
    · rw [if_pos hk, if_pos hk]
      rw [hk] at hbytes
      exact .cons hbytes ih
    · rw [if_neg hk, if_neg hk]
      exact ih

theorem buildRedeemer_congr {inputs : List TransactionInput} {policies : List PolicyId}
    {e e' : (_ : RedeemerPurpose) × (Bytes × Option ExUnits)} (hkey : e.1 = e'.1) (h : RedeemerWritten p e.2 e'.2) :
    buildRedeemer p inputs policies e = buildRedeemer p inputs policies e' := by
  obtain ⟨hdata, hunits⟩ := h
  rw [DatumWritten] at hdata
  simp only [buildRedeemer, hkey, hdata, hunits]

theorem Parts.Of.shuffled {s t : StagingTransaction} {x : Parts} (hx : x.Of p s)
    (hst : s.Like (Script.Written p) (DatumWritten p) (RedeemerWritten p) t) : ∃ y :
    Parts, y.Of p t ∧ x.Shuffled y := by
  obtain ⟨houtputs, hmint, hnetwork, hreturn, hscripts, hdatums, hredeemers⟩ := hx
  obtain ⟨hnative, hv1, hv2, hv3⟩ := buildScripts_eq_ok.1 hscripts
  obtain ⟨scripts, hps, hscripts⟩ := (HashTable.Alike.getD scriptWritten_equivalence.refl hst.scripts).exists_perm
  obtain ⟨datums, hpd, hdata⟩ := (HashTable.Alike.getD datumWritten_equivalence.refl hst.datums).exists_perm
  obtain ⟨redeemers, hpr, hrdmrs⟩ := (HashTable.Alike.getD redeemerWritten_equivalence.refl hst.redeemers).exists_perm
  have hall : List.Forall₂ (Script.Written p) (scriptsOf s.scripts) (scripts.map Sigma.snd) := by
    rw [scriptsOf, List.forall₂_map_left_iff, List.forall₂_map_right_iff]
    exact hscripts.imp fun e e' he => he.2
  have hperm : (scripts.map Sigma.snd).Perm (scriptsOf t.scripts) := hps.map _
  have hplutus : ∀ kind, kind ≠ ScriptKind.native →
      ofKind kind (scriptsOf s.scripts) = ofKind kind (scripts.map Sigma.snd) := by
    intro kind hkind
    rw [← List.forall₂_eq_eq_eq]
    exact (ofKind_written hall kind).imp fun bs bs' h => by simpa [hkind] using h
  rw [mapM_congr ((ofKind_written hall .native).imp fun bs bs' h => by simpa using h)] at hnative
  rw [decodeDatums, mapM_congr (hdata.imp fun e e' he => he.2)] at hdatums
  have hsame : (s.redeemers.getD ∅).entries.mapM (buildRedeemer p (buildInputs s.inputs) x.mint.keys) =
      redeemers.mapM (buildRedeemer p (buildInputs s.inputs) x.mint.keys) :=
    mapM_congr (hrdmrs.imp fun e e' he => buildRedeemer_congr he.1 he.2)
  rw [hsame] at hredeemers
  obtain ⟨natives, hnatives, hpnative⟩ := mapM_perm (ofKind_perm hperm .native) hnative
  obtain ⟨data, hdata', hpdata⟩ := mapM_perm hpd hdatums
  obtain ⟨rdmrs, hrdmrs', hprdmrs⟩ := mapM_perm hpr hredeemers
  have houtputs' := (buildOutputs_congr hst.bare.outputs).symm.trans houtputs
  have hmint' := (buildMint_congr hst.mint).symm.trans hmint
  have hnetwork' := (congrArg buildNetworkId hst.bare.networkId).symm.trans hnetwork
  have hreturn' := (buildCollateralReturn_congr hst.bare.collateralOutput).symm.trans hreturn
  have hinputs : s.inputs = t.inputs := hst.bare.inputs
  rw [hinputs] at hrdmrs'
  have hscripts' : buildScripts p t.scripts = ok ⟨natives, ofKind .plutusV1 (scriptsOf t.scripts),
      ofKind .plutusV2 (scriptsOf t.scripts), ofKind .plutusV3 (scriptsOf t.scripts)⟩ :=
    buildScripts_eq_ok.2 ⟨hnatives, rfl, rfl, rfl⟩
  refine ⟨⟨x.outputs, x.mint, x.networkId, x.collateralReturn, _, data, rdmrs⟩,
    ⟨houtputs', hmint', hnetwork', hreturn', hscripts', hdata', hrdmrs'⟩,
      ⟨⟨rfl, rfl, rfl, rfl⟩, hpnative, ?_, ?_, ?_, hpdata,
    hprdmrs⟩⟩
  · rw [hv1, hplutus _ (by simp)]
    exact ofKind_perm hperm _
  · rw [hv2, hplutus _ (by simp)]
    exact ofKind_perm hperm _
  · rw [hv3, hplutus _ (by simp)]
    exact ofKind_perm hperm _

theorem Parts.tx_congr {s t : StagingTransaction} (hst : s.bare.Same t.bare) (x : Parts) : x.tx p s = x.tx p t := by
  obtain ⟨-, -, hinputs, hrefs, -, hfee, -, hfrom, huntil, -, hcollateral, -, hsigners, -, -, -, -, -, -,
    hviews, haux⟩ := hst
  simp only [StagingTransaction.bare] at hinputs hrefs hfee hfrom huntil hcollateral hsigners hviews haux
  simp only [Parts.tx, assemble, hinputs, hrefs, hfee, hfrom, huntil, hcollateral, hsigners, hviews, haux]

theorem perm_eq {α : Type} {xs ys : List α} (hperm : xs.Perm ys) (h : ∀ a ∈ xs, ∀ b ∈ xs, a = b) : xs = ys := by
  rcases xs with _ | ⟨a, xs⟩
  · exact hperm.nil_eq
  have hrep : a :: xs = List.replicate (xs.length + 1) a :=
    List.eq_replicate_iff.2 ⟨rfl, fun b hb => h b hb a List.mem_cons_self⟩
  rw [hrep] at hperm ⊢
  exact (List.replicate_perm.1 hperm)

theorem OrderFree.parts_eq {s : StagingTransaction} {x y : Parts} (h : OrderFree p s) (hx : x.Of p s)
    (hxy : x.Shuffled y) :
    x = y := by
  obtain ⟨hnative, hv1, hv2, hv3⟩ := buildScripts_eq_ok.1 hx.scripts
  have hkind : ∀ kind, ∀ bs ∈ ofKind kind (scriptsOf s.scripts), ∃ k, (s.scripts.getD ∅).lookup k =
      some ⟨kind, bs⟩ := by
    intro kind bs hbs
    obtain ⟨⟨kind', _⟩, hmem, rfl⟩ := List.mem_map.1 hbs
    obtain ⟨hscript, hk⟩ := List.mem_filter.1 hmem
    obtain rfl : kind' = kind := by simpa using hk
    obtain ⟨⟨k, v⟩, he, rfl⟩ := List.mem_map.1 hscript
    exact ⟨k, HashTable.mem_entries.1 he⟩
  have hplutus : ∀ kind, kind ≠ ScriptKind.native → ∀ a ∈ ofKind kind (scriptsOf s.scripts),
      ∀ b ∈ ofKind kind (scriptsOf s.scripts), a = b := by
    intro kind hne a ha b hb
    obtain ⟨k, hk⟩ := hkind kind a ha
    obtain ⟨k', hk'⟩ := hkind kind b hb
    obtain ⟨-, hbytes⟩ := h.scripts k k' _ _ hk hk' rfl
    rwa [if_neg hne] at hbytes
  have hnatives : x.scripts.native = y.scripts.native := by
    refine perm_eq hxy.native fun a ha b hb => ?_
    obtain ⟨bs, hbs, ha⟩ := mapM_mem hnative ha
    obtain ⟨bs', hbs', hb⟩ := mapM_mem hnative hb
    obtain ⟨k, hk⟩ := hkind _ bs hbs
    obtain ⟨k', hk'⟩ := hkind _ bs' hbs'
    obtain ⟨-, hbytes⟩ := h.scripts k k' _ _ hk hk' rfl
    rw [if_pos rfl, ha, hb, ok.injEq] at hbytes
    exact hbytes
  have hscripts : x.scripts = y.scripts := by
    have h1 := perm_eq hxy.plutusV1 (hv1 ▸ hplutus _ (by simp))
    have h2 := perm_eq hxy.plutusV2 (hv2 ▸ hplutus _ (by simp))
    have h3 := perm_eq hxy.plutusV3 (hv3 ▸ hplutus _ (by simp))
    generalize x.scripts = a at *
    generalize y.scripts = b at *
    cases a
    cases b
    simp_all
  have hdata : x.plutusData = y.plutusData := by
    refine perm_eq hxy.plutusData fun a ha b hb => ?_
    obtain ⟨⟨k, bs⟩, hbs, ha⟩ := mapM_mem hx.plutusData ha
    obtain ⟨⟨k', bs'⟩, hbs', hb⟩ := mapM_mem hx.plutusData hb
    have hwritten := h.datums k k' bs bs' (HashTable.mem_entries.1 hbs) (HashTable.mem_entries.1 hbs')
    exact ok.inj (ha.symm.trans (hwritten.trans hb))
  have hredeemers : x.redeemers = y.redeemers := by
    have hkeys : policiesOf s.mint = x.mint.keys := by
      rw [policiesOf, hx.mint]
      rfl
    refine perm_eq hxy.redeemers fun a ha b hb => ?_
    obtain ⟨⟨k, v⟩, hv, ha⟩ := mapM_mem hx.redeemers ha
    obtain ⟨⟨k', v'⟩, hv', hb⟩ := mapM_mem hx.redeemers hb
    obtain ⟨hpointer, hdata, hunits⟩ := h.redeemers k k' v v' (HashTable.mem_entries.1 hv) (HashTable.mem_entries.1 hv')
    rw [hkeys] at hpointer
    rw [DatumWritten] at hdata
    refine ok.inj (ha.symm.trans (Eq.trans ?_ hb))
    simp only [buildRedeemer, hpointer, hdata, hunits]
  obtain ⟨⟨houtputs, hmint, hnetwork, hreturn⟩, -⟩ := hxy
  cases x
  cases y
  simp_all

theorem buildConwayRaw_eq_ok {s : StagingTransaction} {b : BuiltTransaction} : buildConwayRaw p s = ok b ↔
    ∃ x : Parts, x.Of p s ∧ b = ⟨s.version, .conway, .built, p.crypto.blake2b256 (x.tx p s).transactionBody.rawCbor,
      encodeTx (x.tx p s), none⟩ := by
  simp only [buildConwayRaw, bind_eq_ok, ok.injEq, buildTx_eq_ok]
  constructor
  · rintro ⟨_, ⟨x, hx, rfl⟩, rfl⟩
    exact ⟨x, hx, rfl⟩
  · rintro ⟨x, hx, rfl⟩
    exact ⟨_, ⟨x, hx, rfl⟩, rfl⟩

theorem OrderFree.builds {s t : StagingTransaction} {b : BuiltTransaction} (h : OrderFree p s)
    (hb : buildConwayRaw p s = ok b)
    (hst : s.Like (Script.Written p) (DatumWritten p) (RedeemerWritten p) t) : Builds p b t := by
  obtain ⟨x, hx, rfl⟩ := buildConwayRaw_eq_ok.1 hb
  obtain ⟨y, hy, hxy⟩ := hx.shuffled hst
  obtain rfl := h.parts_eq hx hxy
  exact ⟨_, buildConwayRaw_eq_ok.2 ⟨x, hy, rfl⟩, by rw [x.tx_congr hst.bare], by rw [x.tx_congr hst.bare]⟩

/-! ### What one order says about another one -/

theorem hash_length {n : ℕ} (h : Hash n) : (Hash.encode h).length = (Cbor.head 2 n).length + n := by
  rw [Hash.encode, Cbor.bytes, List.length_append, Hash.length_toBytes]

/-- Bodies that differ in the hash of the script data are as long as each other. -/
theorem body_length {s : StagingTransaction} {x y : Parts} (hxy : x.Kin y) :
    (x.tx p s).transactionBody.rawCbor.length = (y.tx p s).transactionBody.rawCbor.length := by
  obtain ⟨houtputs, hmint, hnetwork, hreturn⟩ := hxy
  refine encodeFields_length ?_
  simp only [bodyFields, houtputs, hmint, hnetwork, hreturn]
  have hhash : SameShape (11, (buildScriptDataHash p s.languageViews x.plutusData x.redeemers).map Hash.encode)
      (11, (buildScriptDataHash p s.languageViews y.plutusData y.redeemers).map Hash.encode) := by
    refine ⟨rfl, ?_⟩
    cases hv : s.languageViews with
    | none => rfl
    | some views => exact congrArg some ((hash_length _).trans (hash_length _).symm)
  have hrfl : ∀ f : ℕ × Option Bytes, SameShape f f := fun f => ⟨rfl, rfl⟩
  simp only [List.forall₂_cons, hrfl, hhash, true_and, List.Forall₂.nil]

theorem tx_inj {s : StagingTransaction} {x y : Parts} (hxy : x.Kin y) (hx : x.Readable p) (hy : y.Readable p)
    (h : encodeTx (x.tx p s) = encodeTx (y.tx p s)) :
    x.scripts = y.scripts ∧ x.plutusData = y.plutusData ∧ x.redeemers = y.redeemers := by
  rw [encodeTx, encodeTx] at h
  obtain ⟨-, h⟩ := List.append_inj (List.append_cancel_left h) (body_length hxy)
  exact witnessSet_inj hx hy (List.append_cancel_right h)

theorem Parts.Of.readable {s : StagingTransaction} {x : Parts} (hx : x.Of p s) (hs : s.Storable) : x.Readable p := by
  obtain ⟨⟨hn, hd, hr⟩, hscripts, hdatums, hredeemers⟩ := hs
  obtain ⟨hnative, hv1, hv2, hv3⟩ := buildScripts_eq_ok.1 hx.scripts
  have hkind : ∀ kind, ∀ bs ∈ ofKind kind (scriptsOf s.scripts), bs.length < 2 ^ 63 := by
    intro kind bs hbs
    obtain ⟨script, hmem, rfl⟩ := List.mem_map.1 hbs
    obtain ⟨⟨k, v⟩, he, rfl⟩ := List.mem_map.1 (List.mem_of_mem_filter hmem)
    exact hscripts k _ (HashTable.mem_entries.1 he)
  have hlen : ∀ kind, (ofKind kind (scriptsOf s.scripts)).length < 2 ^ 64 := by
    intro kind
    have hle : (ofKind kind (scriptsOf s.scripts)).length ≤ (s.scripts.getD ∅).entries.length := by
      rw [ofKind, List.length_map]
      exact (List.length_filter_le _ _).trans_eq (List.length_map ..)
    omega
  have hplutus : ∀ kind, ∀ bs ∈ ofKind kind (scriptsOf s.scripts), bs.length < 2 ^ 64 := fun kind bs hbs =>
    (hkind kind bs hbs).trans (by omega)
  refine ⟨fun n hmem => ?_, hv1 ▸ hplutus _, hv2 ▸ hplutus _, hv3 ▸ hplutus _, fun d hmem => ?_, fun r hmem => ?_, ?_⟩
  · obtain ⟨bs, hbs, hok⟩ := mapM_mem hnative hmem
    exact ⟨bs, hkind _ bs hbs, hok⟩
  · obtain ⟨⟨k, bs⟩, hbs, hok⟩ := mapM_mem hx.plutusData hmem
    exact ⟨bs, hdatums k bs (HashTable.mem_entries.1 hbs), hok⟩
  · obtain ⟨⟨k, v⟩, hv, hok⟩ := mapM_mem hx.redeemers hmem
    simp only [buildRedeemer, bind_eq_ok, ok.injEq] at hok
    obtain ⟨u, -, data, hdata, pointer, -, rfl⟩ := hok
    exact ⟨v.1, hredeemers k v (HashTable.mem_entries.1 hv), hdata⟩
  · rw [← (mapM_eq_ok.1 hnative).length_eq, hv1, hv2, hv3, ← (mapM_eq_ok.1 hx.plutusData).length_eq,
      ← (mapM_eq_ok.1 hx.redeemers).length_eq]
    exact ⟨hlen _, hlen _, hlen _, hlen _, by omega, by omega⟩

theorem Builds.parts_eq {s t : StagingTransaction} {b : BuiltTransaction} (hs : Builds p b s) (ht : Builds p b t)
    (hbare : s.bare.Same t.bare) (hmint : Option.Rel Assets.Alike s.mint t.mint) (hs' : s.Storable) (ht' : t.Storable) :
    ∃ x y : Parts, x.Of p s ∧ y.Of p t ∧ x.scripts = y.scripts ∧ x.plutusData = y.plutusData ∧
      x.redeemers = y.redeemers := by
  obtain ⟨_, hbuild, hbytes, -⟩ := hs
  obtain ⟨_, hbuild', hbytes', -⟩ := ht
  obtain ⟨x, hx, rfl⟩ := buildConwayRaw_eq_ok.1 hbuild
  obtain ⟨y, hy, rfl⟩ := buildConwayRaw_eq_ok.1 hbuild'
  have heq : encodeTx (x.tx p s) = encodeTx (y.tx p t) := hbytes.trans hbytes'.symm
  rw [← y.tx_congr hbare] at heq
  exact ⟨x, y, hx, hy, tx_inj (hx.kin hy hbare hmint) (hx.readable hs') (hy.readable ht') heq⟩

theorem StagingTransaction.Storable.congr {s t : StagingTransaction} (hs : s.Storable) (hst : s.Same t) :
    t.Storable := by
  obtain ⟨⟨h₁, h₂, h₃⟩, hscripts, hdatums, hredeemers⟩ := hs
  have hlen : ∀ {κ ν : Type} [DecidableEq κ] {a b : Option (HashTable κ ν)}, Option.Rel (HashTable.Alike Eq) a b →
      (b.getD ∅).entries.length = (a.getD ∅).entries.length := by
    intro κ ν _ a b hab
    exact (HashTable.alike_eq_iff_perm.1 (HashTable.Alike.getD (fun _ => rfl) hab)).length_eq.symm
  refine ⟨⟨hlen hst.scripts ▸ h₁, hlen hst.datums ▸ h₂, hlen hst.redeemers ▸ h₃⟩, fun h x hx => ?_,
    fun h bytes hbytes => ?_,
    fun a x hx => ?_⟩
  · exact hscripts h x (lookup_getD hst.scripts h ▸ hx)
  · exact hdatums h bytes (lookup_getD hst.datums h ▸ hbytes)
  · exact hredeemers a x (lookup_getD hst.redeemers a ▸ hx)

/-- Two staging transactions that differ in scripts, datums and redeemers, and that are built to `b` in every order. -/
structure Twins (p : Platform ε) (b : BuiltTransaction) (s s' : StagingTransaction) : Prop where
  left : ∀ t, s.Same t → Builds p b t
  right : ∀ t, s'.Same t → Builds p b t
  bare : s.bare = s'.bare
  mint : s.mint = s'.mint
  storable : s.Storable
  storable' : s'.Storable

namespace Twins
variable {b : BuiltTransaction} {s s' : StagingTransaction}

theorem parts {t t' : StagingTransaction} (h : Twins p b s s') (hst : s.Same t) (hst' : s'.Same t')
    (hbare : t.bare = s.bare)
    (hbare' : t'.bare = s'.bare) (hmint : t.mint = s.mint) (hmint' : t'.mint = s'.mint) : ∃ x y :
    Parts, x.Of p t ∧ y.Of p t' ∧
      x.scripts = y.scripts ∧ x.plutusData = y.plutusData ∧ x.redeemers = y.redeemers := by
  refine (h.left t hst).parts_eq (h.right t' hst') ?_ ?_ (h.storable.congr hst) (h.storable'.congr hst')
  · rw [hbare, hbare', h.bare]
    exact .refl _
  · rw [hmint, hmint', h.mint]
    exact HashTable.rel_refl (fun a => alike_equivalence.refl a) _

section Scripts
variable {k k' : ScriptHash} {x x' : Script} {a a' : HashTable ScriptHash Script}
  {es es' : List ((_ : ScriptHash) × Script)}

theorem scripts (h : Twins p b s s') (ha : Option.Rel (HashTable.Alike Eq) s.scripts (some a))
    (ha' : Option.Rel (HashTable.Alike Eq) s'.scripts (some a')) (hes : a.entries = ⟨k, x⟩ :: es)
    (hes' : a'.entries = ⟨k', x'⟩ :: es') :
    (∀ kind, kind ≠ .native → ofKind kind (x :: es.map Sigma.snd) = ofKind kind (x' :: es'.map Sigma.snd)) ∧
      ∃ natives, (ofKind .native (x :: es.map Sigma.snd)).mapM (decodeNativeScript p) = ok natives ∧
        (ofKind .native (x' :: es'.map Sigma.snd)).mapM (decodeNativeScript p) = ok natives := by
  have hst : s.Same { s with scripts := some a } := { StagingTransaction.Same.refl s with scripts := ha }
  have hst' : s'.Same { s' with scripts := some a' } := { StagingTransaction.Same.refl s' with scripts := ha' }
  obtain ⟨y, y', hy, hy', heq, -⟩ := h.parts hst hst' rfl rfl rfl rfl
  obtain ⟨hn, h1, h2, h3⟩ := buildScripts_eq_ok.1 hy.scripts
  obtain ⟨hn', h1', h2', h3'⟩ := buildScripts_eq_ok.1 hy'.scripts
  simp only [scriptsOf, Option.getD_some, hes, hes', List.map_cons] at hn h1 h2 h3 hn' h1' h2' h3'
  refine ⟨fun kind hkind => ?_, _, hn, heq ▸ hn'⟩
  cases kind with
  | native => exact absurd rfl hkind
  | plutusV1 => rw [← h1, ← h1', heq]
  | plutusV2 => rw [← h2, ← h2', heq]
  | plutusV3 => rw [← h3, ← h3', heq]

theorem scripts_written (h : Twins p b s s') (ha : Option.Rel (HashTable.Alike Eq) s.scripts (some a))
    (ha' : Option.Rel (HashTable.Alike Eq) s'.scripts (some a')) (hes : a.entries = ⟨k, x⟩ :: es)
    (hes' : a'.entries = ⟨k', x'⟩ :: es') (hkind : x.kind = x'.kind) : x.Written p x' := by
  obtain ⟨hplutus, natives, hn, hn'⟩ := h.scripts ha ha' hes hes'
  refine ⟨hkind, ?_⟩
  split
  · next hk =>
    rw [ofKind_cons, if_pos hk, List.singleton_append, List.mapM_cons] at hn
    rw [ofKind_cons, if_pos (hkind ▸ hk), List.singleton_append, List.mapM_cons] at hn'
    simp only [bind_eq_ok, pure_eq, ok.injEq] at hn hn'
    obtain ⟨n, hn, ns, -, rfl⟩ := hn
    obtain ⟨n', hn', ns', -, heq⟩ := hn'
    obtain ⟨rfl, -⟩ := List.cons.inj heq
    exact hn.trans hn'.symm
  · next hk =>
    have hfirst := hplutus x.kind hk
    rw [ofKind_cons, ofKind_cons, if_pos rfl, if_pos hkind.symm] at hfirst
    exact (List.cons.inj hfirst).1

theorem scripts_kind (h : Twins p b s s') (ha : Option.Rel (HashTable.Alike Eq) s.scripts (some a))
    (ha' : Option.Rel (HashTable.Alike Eq) s'.scripts (some a')) (hes : a.entries = ⟨k, x⟩ :: es)
    (hes' : a'.entries = ⟨k', x'⟩ :: es) : x.kind = x'.kind := by
  obtain ⟨hplutus, -⟩ := h.scripts ha ha' hes hes'
  by_contra hne
  by_cases hk : x.kind = .native
  · have hlen := congrArg List.length (hplutus x'.kind fun hk' => hne (hk.trans hk'.symm))
    rw [ofKind_cons, ofKind_cons, if_neg hne, if_pos rfl] at hlen
    simp at hlen
  · have hlen := congrArg List.length (hplutus x.kind hk)
    rw [ofKind_cons, ofKind_cons, if_pos rfl, if_neg fun hk' => hne hk'.symm] at hlen
    simp at hlen

end Scripts

theorem datums_written (h : Twins p b s s') {k k' : DatumHash} {x x' : Bytes} {a a' : HashTable DatumHash Bytes}
    {es es' : List ((_ : DatumHash) × Bytes)} (ha : Option.Rel (HashTable.Alike Eq) s.datums (some a))
    (ha' : Option.Rel (HashTable.Alike Eq) s'.datums (some a')) (hes : a.entries = ⟨k, x⟩ :: es)
    (hes' : a'.entries = ⟨k', x'⟩ :: es') : DatumWritten p x x' := by
  have hst : s.Same { s with datums := some a } := { StagingTransaction.Same.refl s with datums := ha }
  have hst' : s'.Same { s' with datums := some a' } := { StagingTransaction.Same.refl s' with datums := ha' }
  obtain ⟨y, y', hy, hy', -, heq, -⟩ := h.parts hst hst' rfl rfl rfl rfl
  have hd := hy.plutusData
  have hd' := hy'.plutusData
  simp only [decodeDatums, Option.getD_some, hes, hes', List.mapM_cons, bind_eq_ok, pure_eq, ok.injEq] at hd hd'
  obtain ⟨d, hd, ds, -, hlist⟩ := hd
  obtain ⟨d', hd', ds', -, hlist'⟩ := hd'
  rw [heq, ← hlist'] at hlist
  obtain ⟨rfl, -⟩ := List.cons.inj hlist
  exact hd.trans hd'.symm

theorem redeemers_written (h : Twins p b s s') {k k' : RedeemerPurpose} {x x' : Bytes × Option ExUnits}
    {a a' : HashTable RedeemerPurpose (Bytes × Option ExUnits)}
    {es es' : List ((_ : RedeemerPurpose) × (Bytes × Option ExUnits))}
    (ha : Option.Rel (HashTable.Alike Eq) s.redeemers (some a))
    (ha' : Option.Rel (HashTable.Alike Eq) s'.redeemers (some a'))
    (hes : a.entries = ⟨k, x⟩ :: es) (hes' : a'.entries = ⟨k', x'⟩ :: es') :
    pointerOf (buildInputs s.inputs) (policiesOf s.mint) k = pointerOf (buildInputs s.inputs) (policiesOf s.mint) k' ∧
      RedeemerWritten p x x' := by
  have hst : s.Same { s with redeemers := some a } := { StagingTransaction.Same.refl s with redeemers := ha }
  have hst' : s'.Same { s' with redeemers := some a' } := { StagingTransaction.Same.refl s' with redeemers := ha' }
  obtain ⟨y, y', hy, hy', -, -, heq⟩ := h.parts hst hst' rfl rfl rfl rfl
  have hinputs : s'.inputs = s.inputs := by
    show s'.bare.inputs = s.bare.inputs
    rw [h.bare]
  have hpolicies : y.mint.keys = policiesOf s.mint := by
    rw [policiesOf, hy.mint]
    rfl
  have hpolicies' : y'.mint.keys = policiesOf s.mint := by
    rw [policiesOf, h.mint, hy'.mint]
    rfl
  have hr := hy.redeemers
  have hr' := hy'.redeemers
  simp only [Option.getD_some, hes, hes', hinputs, hpolicies, hpolicies', List.mapM_cons, bind_eq_ok, pure_eq, ok.injEq,
    buildRedeemer, unwrap_eq_ok] at hr hr'
  obtain ⟨_, ⟨u, hu, d, hd, q, hq, rfl⟩, rs, -, hlist⟩ := hr
  obtain ⟨_, ⟨u', hu', d', hd', q', hq', rfl⟩, rs', -, hlist'⟩ := hr'
  rw [heq, ← hlist'] at hlist
  obtain ⟨hfirst, -⟩ := List.cons.inj hlist
  rw [Redeemer.mk.injEq] at hfirst
  obtain ⟨htag, hindex, rfl, rfl⟩ := hfirst
  have hqq : q = q' := by
    cases q
    cases q'
    simp_all
  exact ⟨hq.trans (hqq ▸ hq'.symm), hd.trans hd'.symm, hu.trans hu'.symm⟩

end Twins

/-! ### Every order -/

theorem Output.Same.trans {o o' o'' : Output} (h : o.Same o') (h' : o'.Same o'') : o.Same o'' :=
  ⟨h.address.trans h'.address, h.lovelace.trans h'.lovelace,
    (HashTable.rel_equivalence alike_equivalence).trans h.assets h'.assets, h.datum.trans h'.datum,
      h.script.trans h'.script⟩

theorem outputs_trans {os os' os'' : List Output} (h : List.Forall₂ Output.Same os os')
    (h' : List.Forall₂ Output.Same os' os'') :
    List.Forall₂ Output.Same os os'' := by
  induction h generalizing os'' with
  | nil => exact h'
  | cons ho _ ih =>
    obtain ⟨o'', os'', ho', hos', rfl⟩ := List.forall₂_cons_left_iff.1 h'
    exact .cons (ho.trans ho') (ih hos')

theorem StagingTransaction.Same.trans {s t u : StagingTransaction} (h : s.Same t) (h' : t.Same u) : s.Same u := by
  have htable : ∀ {κ ν : Type} [DecidableEq κ] {a b c : Option (HashTable κ ν)}, Option.Rel (HashTable.Alike Eq) a b →
      Option.Rel (HashTable.Alike Eq) b c → Option.Rel (HashTable.Alike Eq) a c :=
    (HashTable.rel_equivalence (HashTable.Alike.equivalence eq_equivalence)).trans
  constructor
  case outputs =>
    have hos := h.outputs
    have hos' := h'.outputs
    generalize s.outputs = a at hos ⊢
    generalize t.outputs = b at hos hos'
    generalize u.outputs = c at hos' ⊢
    rcases hos with ⟨hos⟩ | _
    · obtain ⟨hos'⟩ := hos'
      exact .some (outputs_trans hos hos')
    · exact hos'
  case collateralOutput =>
    have ho := h.collateralOutput
    have ho' := h'.collateralOutput
    generalize s.collateralOutput = a at ho ⊢
    generalize t.collateralOutput = b at ho ho'
    generalize u.collateralOutput = c at ho' ⊢
    rcases ho with ⟨ho⟩ | _
    · obtain ⟨ho'⟩ := ho'
      exact .some (ho.trans ho')
    · exact ho'
  case mint => exact (HashTable.rel_equivalence alike_equivalence).trans h.mint h'.mint
  case scripts => exact htable h.scripts h'.scripts
  case datums => exact htable h.datums h'.datums
  case redeemers => exact htable h.redeemers h'.redeemers
  case version => exact h.version.trans h'.version
  case status => exact h.status.trans h'.status
  case inputs => exact h.inputs.trans h'.inputs
  case referenceInputs => exact h.referenceInputs.trans h'.referenceInputs
  case fee => exact h.fee.trans h'.fee
  case validFromSlot => exact h.validFromSlot.trans h'.validFromSlot
  case invalidFromSlot => exact h.invalidFromSlot.trans h'.invalidFromSlot
  case networkId => exact h.networkId.trans h'.networkId
  case collateralInputs => exact h.collateralInputs.trans h'.collateralInputs
  case disclosedSigners => exact h.disclosedSigners.trans h'.disclosedSigners
  case scriptDataHash => exact h.scriptDataHash.trans h'.scriptDataHash
  case signatureAmountOverride => exact h.signatureAmountOverride.trans h'.signatureAmountOverride
  case changeAddress => exact h.changeAddress.trans h'.changeAddress
  case languageViews => exact h.languageViews.trans h'.languageViews
  case auxiliaryData => exact h.auxiliaryData.trans h'.auxiliaryData

theorem StagingTransaction.Same.bare {s t : StagingTransaction} (h : s.Same t) : s.bare.Same t.bare :=
  { h with mint := .none, scripts := .none, datums := .none, redeemers := .none }

theorem StagingTransaction.Like.trans_same {S : Script → Script → Prop} {D : Bytes → Bytes → Prop}
    {R : Bytes × Option ExUnits → Bytes × Option ExUnits → Prop} {s t u : StagingTransaction} (hS : Equivalence S)
    (hD : Equivalence D) (hR : Equivalence R) (h : s.Like S D R t) (h' : t.Same u) : s.Like S D R u := by
  have htable : ∀ {κ ν : Type} [DecidableEq κ] {T : ν → ν → Prop} {a b c : Option (HashTable κ ν)}, Equivalence T →
      Option.Rel (HashTable.Alike T) a b → Option.Rel (HashTable.Alike Eq) b c →
        Option.Rel (HashTable.Alike T) a c := by
    intro κ ν _ T a b c hT hab hbc
    refine (HashTable.rel_equivalence (HashTable.Alike.equivalence hT)).trans hab ?_
    rcases hbc with ⟨hbc⟩ | _
    · refine .some (HashTable.Alike.imp (fun v w hvw => ?_) hbc)
      rw [hvw]
      exact hT.refl w
    · exact .none
  exact ⟨h.bare.trans h'.bare, (HashTable.rel_equivalence alike_equivalence).trans h.mint h'.mint,
    htable hS h.scripts h'.scripts,
    htable hD h.datums h'.datums, htable hR h.redeemers h'.redeemers⟩

theorem Reordered.refl (calls : List Call) : Reordered calls calls :=
  ⟨.refl _, List.forall₂_same.2 fun c _ => .refl c⟩

section Every
variable {s₀ s : StagingTransaction} {calls : List Call} {b : BuiltTransaction}

theorem Reproducible.left (h : Reproducible p s₀ calls b) (hs : fold (step p) s₀ calls = ok s) :
    ∀ t, s.Same t → Builds p b t := fun t hst => h s₀ calls s t (.refl s₀) (.refl calls) hs hst

theorem Reproducible.orderFree (h : Reproducible p s₀ calls b) (hs : fold (step p) s₀ calls = ok s)
    (hstorable : s.Storable) :
    OrderFree p s := by
  have htwins : Twins p b s s := ⟨h.left hs, h.left hs, rfl, rfl, hstorable, hstorable⟩
  have hfirst : ∀ {κ ν : Type} [DecidableEq κ] {o : Option (HashTable κ ν)} {k : κ} {v : ν},
      (o.getD ∅).lookup k = some v →
      ∃ (a : HashTable κ ν) (es : List ((_ : κ) × ν)), Option.Rel (HashTable.Alike Eq) o (some a) ∧
        a.entries = ⟨k, v⟩ :: es := by
    intro κ ν _ o k v hv
    obtain ⟨a, -, es, ha, hes, -⟩ := HashTable.exists_replaced hv v
    exact ⟨a, es, ha, hes⟩
  constructor
  · intro k k' x x' hx hx' hkind
    obtain ⟨a, es, ha, hes⟩ := hfirst hx
    obtain ⟨a', es', ha', hes'⟩ := hfirst hx'
    exact htwins.scripts_written ha ha' hes hes' hkind
  · intro k k' x x' hx hx'
    obtain ⟨a, es, ha, hes⟩ := hfirst hx
    obtain ⟨a', es', ha', hes'⟩ := hfirst hx'
    exact htwins.datums_written ha ha' hes hes'
  · intro k k' x x' hx hx'
    obtain ⟨a, es, ha, hes⟩ := hfirst hx
    obtain ⟨a', es', ha', hes'⟩ := hfirst hx'
    exact htwins.redeemers_written ha ha' hes hes'

theorem Reproducible.exists_twin (h : Reproducible p s₀ calls b) (hkeep : ∀ c ∈ calls, c.isRemoval = false)
    (hs : fold (step p) s₀ calls = ok s) (hstorable : s.Storable) {c : Call} (hc : c ∈ calls) (hcs : c.Storable p)
    (hadd : c.isAddition = true) (hminted : c.minted = none) : ∃ s', Twins p b s s' ∧
      Option.Rel (HashTable.Alike Eq) s'.scripts (HashTable.stored HashTable.put s.scripts (c.scriptAdded p).toList) ∧
      Option.Rel (HashTable.Alike Eq) s'.datums (HashTable.stored HashTable.put s.datums (c.datumAdded p).toList) ∧
      Option.Rel (HashTable.Alike Eq) s'.redeemers
        (HashTable.stored HashTable.put s.redeemers c.redeemerAdded.toList) := by
  obtain ⟨calls', s', hcalls, hs', hbare, hmint, hscripts, hdatums, hredeemers⟩ := exists_last hkeep hs hc hadd hminted
  obtain ⟨-, hsc, hda, hre, -⟩ := (fold_step_eq_ok hkeep).1 hs
  have hpresent : ∀ {κ ν : Type} [DecidableEq κ] {o o₀ : Option (HashTable κ ν)} (f : Call → Option (κ × ν)),
      o = HashTable.stored HashTable.put o₀ (calls.filterMap f) → ∀ e ∈ f c, ∃ v, (o.getD ∅).lookup e.1 = some v := by
    rintro κ ν _ o o₀ f rfl e he
    exact HashTable.lookup_stored_some (List.mem_filterMap.2 ⟨c, hc, he⟩)
  have hlen : ∀ {κ ν : Type} [DecidableEq κ] {a b : Option (HashTable κ ν)}, Option.Rel (HashTable.Alike Eq) a b →
      (a.getD ∅).entries.length = (b.getD ∅).entries.length := by
    intro κ ν _ a b hab
    exact (HashTable.alike_eq_iff_perm.1 (HashTable.Alike.getD (fun _ => rfl) hab)).length_eq
  obtain ⟨⟨h₁, h₂, h₃⟩, hss, hsd, hsr⟩ := hstorable
  refine ⟨s', ⟨h.left hs, fun t hst => h s₀ calls' s' t (.refl s₀) hcalls hs' hst, hbare.symm, hmint.symm,
    ⟨⟨h₁, h₂, h₃⟩, hss, hsd, hsr⟩, ⟨⟨?_, ?_, ?_⟩, fun k x hx => ?_, fun k x hx => ?_, fun k x hx => ?_⟩⟩,
      hscripts, hdatums,
    hredeemers⟩
  · rw [hlen hscripts, HashTable.length_stored (hpresent _ hsc)]
    exact h₁
  · rw [hlen hdatums, HashTable.length_stored (hpresent _ hda)]
    exact h₂
  · rw [hlen hredeemers, HashTable.length_stored (hpresent _ hre)]
    exact h₃
  · rw [lookup_getD hscripts] at hx
    rcases HashTable.lookup_stored hx with ⟨e, he, rfl⟩ | hx
    · exact hcs.script e he
    · exact hss k x hx
  · rw [lookup_getD hdatums] at hx
    rcases HashTable.lookup_stored hx with ⟨e, he, rfl⟩ | hx
    · exact hcs.datum e he
    · exact hsd k x hx
  · rw [lookup_getD hredeemers] at hx
    rcases HashTable.lookup_stored hx with ⟨e, he, rfl⟩ | hx
    · exact hcs.redeemer e he
    · exact hsr k x hx

theorem Reproducible.consistent (h : Reproducible p s₀ calls b) (hkeep : ∀ c ∈ calls, c.isRemoval = false)
    (hs : fold (step p) s₀ calls = ok s) (hstorable : s.Storable) (hcalls : ∀ c ∈ calls, c.Storable p) :
    Consistent p calls := by
  obtain ⟨-, hsc, hda, hre, -⟩ := (fold_step_eq_ok hkeep).1 hs
  -- what is added at a key is written as what is held there in the end
  have hscript : ∀ e ∈ calls.filterMap (Call.scriptAdded p), ∀ z, (s.scripts.getD ∅).lookup e.1 = some z →
      z.Written p e.2 := by
    intro e he z hz
    obtain ⟨c, hc, hce⟩ := List.mem_filterMap.1 he
    have hadd : c.isAddition = true ∧ c.minted = none := by cases c <;> first | exact ⟨rfl, rfl⟩ | cases hce
    obtain ⟨s', htwins, htable, -, -⟩ := h.exists_twin hkeep hs hstorable hc (hcalls c hc) hadd.1 hadd.2
    obtain ⟨a, a', es, ha, hes, ha', hes'⟩ := HashTable.exists_replaced hz e.2
    rw [hce] at htable
    have ha'' := (HashTable.rel_equivalence (HashTable.Alike.equivalence eq_equivalence)).trans htable ha'
    exact htwins.scripts_written ha ha'' hes hes' (htwins.scripts_kind ha ha'' hes hes')
  have hdatum : ∀ e ∈ calls.filterMap (Call.datumAdded p), ∀ z, (s.datums.getD ∅).lookup e.1 = some z →
      DatumWritten p z e.2 := by
    intro e he z hz
    obtain ⟨c, hc, hce⟩ := List.mem_filterMap.1 he
    have hadd : c.isAddition = true ∧ c.minted = none := by cases c <;> first | exact ⟨rfl, rfl⟩ | cases hce
    obtain ⟨s', htwins, -, htable, -⟩ := h.exists_twin hkeep hs hstorable hc (hcalls c hc) hadd.1 hadd.2
    obtain ⟨a, a', es, ha, hes, ha', hes'⟩ := HashTable.exists_replaced hz e.2
    rw [hce] at htable
    exact htwins.datums_written ha
      ((HashTable.rel_equivalence (HashTable.Alike.equivalence eq_equivalence)).trans htable ha') hes hes'
  have hredeemer : ∀ e ∈ calls.filterMap Call.redeemerAdded, ∀ z, (s.redeemers.getD ∅).lookup e.1 = some z →
      RedeemerWritten p z e.2 := by
    intro e he z hz
    obtain ⟨c, hc, hce⟩ := List.mem_filterMap.1 he
    have hadd : c.isAddition = true ∧ c.minted = none := by cases c <;> first | exact ⟨rfl, rfl⟩ | cases hce
    obtain ⟨s', htwins, -, -, htable⟩ := h.exists_twin hkeep hs hstorable hc (hcalls c hc) hadd.1 hadd.2
    obtain ⟨a, a', es, ha, hes, ha', hes'⟩ := HashTable.exists_replaced hz e.2
    rw [hce] at htable
    exact (htwins.redeemers_written ha
      ((HashTable.rel_equivalence (HashTable.Alike.equivalence eq_equivalence)).trans htable ha') hes hes').2
  constructor
  · intro e he e' he' hkey
    obtain ⟨z, hz⟩ := HashTable.lookup_stored_some (o := s₀.scripts) he
    rw [← hsc] at hz
    exact scriptWritten_equivalence.trans (scriptWritten_equivalence.symm (hscript e he z hz))
      (hscript e' he' z (hkey ▸ hz))
  · intro e he e' he' hkey
    obtain ⟨z, hz⟩ := HashTable.lookup_stored_some (o := s₀.datums) he
    rw [← hda] at hz
    exact datumWritten_equivalence.trans (datumWritten_equivalence.symm (hdatum e he z hz))
      (hdatum e' he' z (hkey ▸ hz))
  · intro e he e' he' hkey
    obtain ⟨z, hz⟩ := HashTable.lookup_stored_some (o := s₀.redeemers) he
    rw [← hre] at hz
    exact redeemerWritten_equivalence.trans (redeemerWritten_equivalence.symm (hredeemer e he z hz))
      (hredeemer e' he' z (hkey ▸ hz))

/-- Building is reproducible exactly for what is written alike in every order. -/
theorem reproducible_iff (hkeep : ∀ c ∈ calls, c.isRemoval = false) (hs : fold (step p) s₀ calls = ok s)
    (hb : buildConwayRaw p s = ok b) (hstorable : s.Storable) (hcalls : ∀ c ∈ calls, c.Storable p) :
    Reproducible p s₀ calls b ↔ OrderFree p s ∧ Consistent p calls := by
  constructor
  · intro h
    exact ⟨h.orderFree hs hstorable, h.consistent hkeep hs hstorable hcalls⟩
  · rintro ⟨hfree, hscripts, hdatums, hredeemers⟩ s₀' calls' s' t hs₀ hreordered hs' hst
    have hlike : s.Like (Script.Written p) (DatumWritten p) (RedeemerWritten p) s' :=
      hreordered.like scriptWritten_equivalence datumWritten_equivalence redeemerWritten_equivalence hkeep hs₀ hs hs'
        (fun e he e' he' hk => hscripts e' he' e he hk.symm) (fun e he e' he' hk => hdatums e' he' e he hk.symm)
        fun e he e' he' hk => hredeemers e' he' e he hk.symm
    exact hfree.builds hb (hlike.trans_same scriptWritten_equivalence datumWritten_equivalence redeemerWritten_equivalence hst)

end Every

end Source

/-- The builder with the hashes of three scripts. -/
def hashing : Platform String :=
  { plain with crypto := .ofTables [([1, 1], 0x66dd6ffa0c0844c705c9f42a60858f7924f47b71660156e96ef5cfbe),
      ([1, 2], 0xfe0e6d6312ffb2055509b8815ddd36e01f7c696f6e2e88d7fe4bc1f6),
      ([2, 1], 0x12eb8f0d4ceadf3abc028b6c1900ccdde0d2ef5b4951c0aaba78a257)] [] [] [] }

/-- Two scripts, of one language each. -/
def twoLanguages : List Call := [.script .plutusV1 [1], .script .plutusV2 [1]]

theorem twoLanguages_reproducible : Reordered twoLanguages twoLanguages.reverse ∧
    ∃ s b, run hashing twoLanguages = ok s ∧ buildConwayRaw hashing s = ok b ∧
      Reproducible hashing .new twoLanguages b := by
  have hscripts : ∀ {k k' h : ScriptHash} {v v' x : Script},
      (AList.insert k v (AList.insert k' v' ∅) : HashTable ScriptHash Script).lookup h = some x → x = v ∨ x = v' := by
    intro k k' h v v' x hx
    rw [HashTable.lookup_insert_ite, HashTable.lookup_insert_ite] at hx
    split_ifs at hx
    · exact .inl (Option.some.inj hx).symm
    · exact .inr (Option.some.inj hx).symm
    · simp at hx
  have hnone : ∀ {κ ν : Type} [DecidableEq κ] (k : κ) (v : ν), (∅ : HashTable κ ν).lookup k ≠ some v := by simp
  have hkinds : ∀ x x', x = (⟨.plutusV2, [1]⟩ : Script) ∨ x = ⟨.plutusV1, [1]⟩ →
      x' = (⟨.plutusV2, [1]⟩ : Script) ∨ x' = ⟨.plutusV1, [1]⟩ → x.kind = x'.kind → x.Written hashing x' := by
    rintro x x' (rfl | rfl) (rfl | rfl) hkind
    · exact scriptWritten_equivalence.refl _
    · cases hkind
    · cases hkind
    · exact scriptWritten_equivalence.refl _
  refine ⟨⟨twoLanguages.reverse_perm.symm.filter _, .nil⟩, _, _, rfl, rfl,
    (reproducible_iff ?_ rfl rfl ⟨?_, ?_, ?_, ?_⟩ ?_).2 ⟨⟨?_, ?_, ?_⟩, ⟨?_, ?_, ?_⟩⟩⟩
  · simp [twoLanguages, Call.isRemoval]
  · decide
  · intro h x hx
    rcases hscripts hx with rfl | rfl <;> decide
  · exact fun h bytes hbytes => absurd hbytes (hnone h bytes)
  · exact fun a x hx => absurd hx (hnone a x)
  · intro c hc
    obtain rfl | rfl : c = .script .plutusV1 [1] ∨ c = .script .plutusV2 [1] := by simpa [twoLanguages] using hc
    · exact ⟨by simp [Call.scriptAdded], by simp [Call.datumAdded], by simp [Call.redeemerAdded]⟩
    · exact ⟨by simp [Call.scriptAdded], by simp [Call.datumAdded], by simp [Call.redeemerAdded]⟩
  · intro h h' x x' hx hx' hkind
    exact hkinds x x' (hscripts hx) (hscripts hx') hkind
  · exact fun h h' bytes bytes' hbytes => absurd hbytes (hnone h bytes)
  · exact fun a a' x x' hx => absurd hx (hnone a x)
  · have hkeys : ∀ e ∈ twoLanguages.filterMap (Call.scriptAdded hashing),
        ∀ e' ∈ twoLanguages.filterMap (Call.scriptAdded hashing), e.1 = e'.1 → e.2 = e'.2 := by decide
    intro e he e' he' hkey
    rw [hkeys e he e' he' hkey]
    exact scriptWritten_equivalence.refl _
  · exact fun e he => absurd he List.not_mem_nil
  · exact fun e he => absurd he List.not_mem_nil

/-- Two scripts of one language. -/
def twoScripts : List Call := [.script .plutusV1 [1], .script .plutusV1 [2]]

theorem twoScripts_not_reproducible :
    ¬ ∀ s₀ calls s b, fold (step hashing) s₀ calls = ok s → buildConwayRaw hashing s = ok b →
    Reproducible hashing s₀ calls b := by
  intro h
  have hreordered : Reordered twoScripts twoScripts.reverse := ⟨twoScripts.reverse_perm.symm.filter _, .nil⟩
  obtain ⟨b, hb, hbytes, -⟩ :=
    h .new twoScripts _ _ rfl rfl .new twoScripts.reverse _ _ (.refl _) hreordered rfl (.refl _)
  cases hb
  revert hbytes
  decide

end TxBuilder
end Pallas
