import Pallas.TxBuilder.Panics

/-!
# Calls in another order

The additions of scripts, datums, redeemers and minted assets each work on a table of their own, and every other call that
takes nothing out of a table works on what remains of the staging transaction. So what a chain of calls gives can be said table
by table (`fold_step_eq_ok`), and additions may change places with each other and with other calls (`Reordered`). Sums of
quantities come out the same in every order, whether they wrap around or not (`credit_comm`), if they come out at all: one order
may panic where another one does not.
-/

namespace Pallas
namespace TxBuilder
open Outcome HashTable

/-! ### Quantities -/

section Quantities
variable {A : Type} [MachineInt A]

/-- The sum with what is held, wrapped around. -/
def credit (held : Option A) (amount : A) : A :=
  held.elim amount fun h => MachineInt.wrap (MachineInt.toInt h + MachineInt.toInt amount)

def creditAsset (names : Option (HashTable AssetName A)) (e : AssetName × A) : HashTable AssetName A :=
  update credit (names.getD ∅) e

theorem accumulate_eq_ok {ε' : Profile} {assets r : Assets A} {policy : PolicyId} {name : AssetName} {amount : A}
    (h : accumulate ε' assets policy name amount = ok r) : r = update creditAsset assets (policy, name, amount) := by
  unfold accumulate at h
  unfold update
  cases hnames : assets.lookup policy with
  | none =>
    simp only [hnames, ok.injEq] at h
    simp [← h, creditAsset, update, credit]
  | some names =>
    simp only [hnames] at h
    cases hheld : names.lookup name with
    | none =>
      simp only [hheld, ok.injEq] at h
      simp [← h, creditAsset, update, credit, hheld]
    | some held =>
      simp only [hheld, bind_eq_ok, ok.injEq] at h
      obtain ⟨sum, hsum, rfl⟩ := h
      have hwrap : sum = MachineInt.wrap (MachineInt.toInt held + MachineInt.toInt amount) :=
        MachineInt.toInt_injective (MachineInt.eq_of_modEq
          ((MachineInt.exact_modEq hsum).trans (MachineInt.toInt_wrap_modEq _).symm))
      simp [creditAsset, update, credit, hheld, hwrap]

theorem credit_comm (o : Option A) (x y : A) : credit (some (credit o x)) y = credit (some (credit o y)) x := by
  have hadd : ∀ a b c : A, MachineInt.toInt (MachineInt.wrap (MachineInt.toInt (MachineInt.wrap
      (MachineInt.toInt a + MachineInt.toInt b) : A) + MachineInt.toInt c) : A) ≡
      MachineInt.toInt a + MachineInt.toInt b + MachineInt.toInt c [ZMOD MachineInt.card A] := fun a b c =>
    (MachineInt.toInt_wrap_modEq _).trans ((MachineInt.toInt_wrap_modEq _).add_right _)
  cases o with
  | none => simp [credit, add_comm]
  | some held =>
    refine MachineInt.toInt_injective (MachineInt.eq_of_modEq ((hadd held x y).trans ?_))
    rw [add_right_comm]
    exact (hadd held y x).symm

omit [MachineInt A] in
theorem alike_equivalence : Equivalence (Assets.Alike : Assets A → Assets A → Prop) :=
  Alike.equivalence (Alike.equivalence eq_equivalence)

theorem stored_assets {es es' : List (PolicyId × AssetName × A)} (hperm : es.Perm es') {o o' : Option (Assets A)}
    (h : Option.Rel Assets.Alike o o') :
    Option.Rel Assets.Alike (stored creditAsset o es) (stored creditAsset o' es') := by
  have hcredit : ∀ (o o' : Option A) (x : A), Option.Rel Eq o o' → credit o x = credit o' x := by
    rintro o o' x hoo'
    rw [rel_eq_iff.1 hoo']
  refine stored_perm (Alike.equivalence eq_equivalence) (fun o o' e hoo' => ?_) hperm (fun e _ e' _ _ o => ?_) h
  · exact (Alike.getD (fun _ => rfl) hoo').update hcredit e
  · exact update_swap eq_equivalence (fun _ o => credit_comm o _ _) _

end Quantities

/-! ### Outputs -/

section Source
variable {ε : Type} {p : Platform ε}

/-- The asset that a call adds. -/
def OutputCall.asset : OutputCall → Option (PolicyId × AssetName × UInt64)
  | .addAsset policy name amount => some (policy, name, amount)
  | _ => none

/-- The same calls on an output, but for the order in which assets are added. -/
structure OutputCall.Reordered (cs cs' : List OutputCall) : Prop where
  assets : (cs.filterMap OutputCall.asset).Perm (cs'.filterMap OutputCall.asset)
  others : (cs.filter fun c => c.asset.isNone) = cs'.filter fun c => c.asset.isNone

theorem fold_outputStep {o r : Output} {cs : List OutputCall} (h : fold (Output.step p) o cs = ok r) :
    r.assets = stored creditAsset o.assets (cs.filterMap OutputCall.asset) ∧
      fold (Output.step p) { o with assets := none } (cs.filter fun c => c.asset.isNone) =
        ok { r with assets := none } := by
  induction cs generalizing o with
  | nil =>
    cases h
    exact ⟨rfl, rfl⟩
  | cons c cs ih =>
    rw [fold_cons, bind_eq_ok] at h
    obtain ⟨t, ht, h⟩ := h
    obtain ⟨hassets, hothers⟩ := ih h
    cases c with
    | addAsset policy name amount =>
      simp only [Output.step, Output.addAsset] at ht
      split at ht
      · cases ht
      · simp only [bind_eq_ok, ok.injEq] at ht
        obtain ⟨assets, hacc, rfl⟩ := ht
        rw [hassets, accumulate_eq_ok hacc]
        exact ⟨rfl, hothers⟩
    | _ =>
      cases ht
      exact ⟨hassets, hothers⟩

theorem Output.Same.refl (o : Output) : o.Same o :=
  ⟨rfl, rfl, rel_refl (fun a => alike_equivalence.refl a) _, rfl, rfl⟩

theorem OutputCall.Reordered.same {o r r' : Output} {cs cs' : List OutputCall} (hcs : Reordered cs cs')
    (h : fold (Output.step p) o cs = ok r) (h' : fold (Output.step p) o cs' = ok r') : r.Same r' := by
  obtain ⟨hassets, hothers⟩ := fold_outputStep h
  obtain ⟨hassets', hothers'⟩ := fold_outputStep h'
  rw [hcs.others, hothers', ok.injEq, Output.mk.injEq] at hothers
  obtain ⟨haddress, hlovelace, -, hdatum, hscript⟩ := hothers
  refine ⟨haddress.symm, hlovelace.symm, ?_, hdatum.symm, hscript.symm⟩
  rw [hassets, hassets']
  exact stored_assets hcs.assets (rel_refl (fun a => alike_equivalence.refl a) _)

/-! ### Staging transactions -/

/-- The asset that a call mints. -/
def Call.minted : Call → Option (PolicyId × AssetName × Int64)
  | .mintAsset policy name amount => some (policy, name, amount)
  | _ => none

/-- The redeemer that a call adds. -/
def Call.redeemerAdded : Call → Option (RedeemerPurpose × Bytes × Option ExUnits)
  | .addSpendRedeemer i plutusData exUnits => some (.spend i, plutusData, exUnits)
  | .addMintRedeemer policy plutusData exUnits => some (.mint policy, plutusData, exUnits)
  | _ => none

variable (p) in
/-- The script that a call adds. -/
def Call.scriptAdded : Call → Option (ScriptHash × Script)
  | .script language bytes => some (p.crypto.blake2b224 (StagingTransaction.hashTag language :: bytes), ⟨language, bytes⟩)
  | _ => none

variable (p) in
/-- The datum that a call adds. -/
def Call.datumAdded : Call → Option (DatumHash × Bytes)
  | .datum bytes => some (StagingTransaction.datumKey p bytes, bytes)
  | _ => none

/-- A script, a datum, a redeemer or an asset to mint is added. -/
def Call.isAddition : Call → Bool
  | .mintAsset .. | .script .. | .datum .. | .addSpendRedeemer .. | .addMintRedeemer .. => true
  | _ => false

/-- One of these is taken out. -/
def Call.isRemoval : Call → Bool
  | .removeMintAsset .. | .removeScriptByHash .. | .removeDatum .. | .removeDatumByHash .. | .removeSpendRedeemer ..
  | .removeMintRedeemer .. => true
  | _ => false

/-- What is staged besides them. -/
def StagingTransaction.bare (s : StagingTransaction) : StagingTransaction :=
  { s with mint := none, scripts := none, datums := none, redeemers := none }

variable (p) in
/-- One more asset to mint. -/
def mintOne (mint : Option (Assets Int64)) (e : PolicyId × AssetName × Int64) :
    Outcome TxBuilderError (Option (Assets Int64)) :=
  if 32 < e.2.1.length then .err .assetNameTooLong
  else do
    let mint ← accumulate p.profile (mint.getD ∅) e.1 e.2.1 e.2.2
    .ok (some mint)

theorem ok_bare_iff {s t u : StagingTransaction}
    (hu : u.mint = s.mint ∧ u.scripts = s.scripts ∧ u.datums = s.datums ∧ u.redeemers = s.redeemers) :
    (ok u : Outcome TxBuilderError _) = ok t ↔ (ok u.bare : Outcome TxBuilderError _) = ok t.bare ∧
      t.mint = s.mint ∧ t.scripts = s.scripts ∧ t.datums = s.datums ∧ t.redeemers = s.redeemers := by
  rw [ok.injEq, ok.injEq]
  constructor
  · rintro rfl
    exact ⟨rfl, hu⟩
  · rintro ⟨hbare, hmint, hscripts, hdatums, hredeemers⟩
    obtain ⟨hmint', hscripts', hdatums', hredeemers'⟩ := hu
    cases t
    cases u
    simp_all [StagingTransaction.bare]

/-- A call that neither adds to a table nor takes anything out does not look at them. -/
theorem step_bare_iff {s t : StagingTransaction} {c : Call} (hadd : c.isAddition = false)
    (hremove : c.isRemoval = false) :
    step p s c = ok t ↔ step p s.bare c = ok t.bare ∧ t.mint = s.mint ∧ t.scripts = s.scripts ∧ t.datums = s.datums ∧
      t.redeemers = s.redeemers := by
  cases c with
  | output o calls =>
    simp only [step, bind_eq_ok, ← exists_and_right, and_assoc]
    exact exists_congr fun o => and_congr_right fun _ => ok_bare_iff ⟨rfl, rfl, rfl, rfl⟩
  | collateralOutput o calls =>
    simp only [step, bind_eq_ok, ← exists_and_right, and_assoc]
    exact exists_congr fun o => and_congr_right fun _ => ok_bare_iff ⟨rfl, rfl, rfl, rfl⟩
  | removeOutput index =>
    by_cases hlt : index < (s.outputs.getD []).length
    · have hlt' : index < (s.bare.outputs.getD []).length := hlt
      simp only [step, StagingTransaction.removeOutput, if_pos hlt, if_pos hlt']
      exact ok_bare_iff ⟨rfl, rfl, rfl, rfl⟩
    · have hlt' : ¬ index < (s.bare.outputs.getD []).length := hlt
      simp only [step, StagingTransaction.removeOutput, if_neg hlt, if_neg hlt', reduceCtorEq, false_and]
  | addLanguage plutusVersion costModel =>
    simp only [step, StagingTransaction.addLanguage]
    cases StagingTransaction.viewKey plutusVersion with
    | none => exact ok_bare_iff ⟨rfl, rfl, rfl, rfl⟩
    | some version => exact ok_bare_iff ⟨rfl, rfl, rfl, rfl⟩
  | addAuxiliaryData data =>
    simp only [step, StagingTransaction.addAuxiliaryData]
    cases p.decodeAuxiliaryData data with
    | none => exact ok_bare_iff ⟨rfl, rfl, rfl, rfl⟩
    | some aux => exact ok_bare_iff ⟨rfl, rfl, rfl, rfl⟩
  | mintAsset | script | datum | addSpendRedeemer | addMintRedeemer => cases hadd
  | removeMintAsset | removeScriptByHash | removeDatum | removeDatumByHash | removeSpendRedeemer | removeMintRedeemer =>
    cases hremove
  | _ => exact ok_bare_iff ⟨rfl, rfl, rfl, rfl⟩

theorem step_bare_lift {s u : StagingTransaction} {c : Call} (hadd : c.isAddition = false)
    (hremove : c.isRemoval = false)
    (h : step p s.bare c = ok u) : ∃ t, step p s c = ok t ∧ t.bare = u := by
  obtain ⟨-, hmint, hscripts, hdatums, hredeemers⟩ := (step_bare_iff hadd hremove).1 h
  have hu : StagingTransaction.bare
      { u with mint := s.mint, scripts := s.scripts, datums := s.datums, redeemers := s.redeemers } = u := by
    cases u
    simp_all [StagingTransaction.bare]
  refine ⟨{ u with mint := s.mint, scripts := s.scripts, datums := s.datums, redeemers := s.redeemers },
    (step_bare_iff hadd hremove).2 ⟨?_, rfl, rfl, rfl, rfl⟩, hu⟩
  rw [hu]
  exact h

theorem fold_step_eq_ok {s t : StagingTransaction} {calls : List Call} (hkeep : ∀ c ∈ calls, c.isRemoval = false) :
    fold (step p) s calls = ok t ↔ fold (mintOne p) s.mint (calls.filterMap Call.minted) = ok t.mint ∧
      t.scripts = stored put s.scripts (calls.filterMap (Call.scriptAdded p)) ∧
      t.datums = stored put s.datums (calls.filterMap (Call.datumAdded p)) ∧
      t.redeemers = stored put s.redeemers (calls.filterMap Call.redeemerAdded) ∧
      fold (step p) s.bare (calls.filter fun c => !c.isAddition) = ok t.bare := by
  induction calls generalizing s with
  | nil =>
    show ok s = ok t ↔ ok s.mint = ok t.mint ∧ t.scripts = s.scripts ∧ t.datums = s.datums ∧ t.redeemers = s.redeemers ∧
      ok s.bare = ok t.bare
    rw [ok_bare_iff ⟨rfl, rfl, rfl, rfl⟩]
    simp only [ok.injEq, eq_comm (a := s.mint)]
    tauto
  | cons c calls ih =>
    obtain ⟨hc, hkeep⟩ := List.forall_mem_cons.1 hkeep
    rw [fold_cons, bind_eq_ok]
    simp only [ih hkeep]
    cases hadd : c.isAddition with
    | false =>
      have hnone : Call.minted c = none ∧ Call.scriptAdded p c = none ∧ Call.datumAdded p c = none ∧
          Call.redeemerAdded c = none := by
        cases c <;> first | exact ⟨rfl, rfl, rfl, rfl⟩ | cases hadd
      obtain ⟨hm, hs, hd, hr⟩ := hnone
      simp only [List.filterMap_cons, hm, hs, hd, hr, List.filter_cons, hadd, Bool.not_false, if_true,
        fold_cons, bind_eq_ok]
      constructor
      · rintro ⟨u, hstep, h₁, h₂, h₃, h₄, h₅⟩
        obtain ⟨hu, hm, hs, hd, hr⟩ := (step_bare_iff hadd hc).1 hstep
        exact ⟨hm ▸ h₁, hs ▸ h₂, hd ▸ h₃, hr ▸ h₄, _, hu, h₅⟩
      · rintro ⟨h₁, h₂, h₃, h₄, v, hv, h₅⟩
        obtain ⟨u, hu, rfl⟩ := step_bare_lift hadd hc hv
        obtain ⟨-, hm, hs, hd, hr⟩ := (step_bare_iff hadd hc).1 hu
        exact ⟨u, hu, hm.symm ▸ h₁, hs.symm ▸ h₂, hd.symm ▸ h₃, hr.symm ▸ h₄, h₅⟩
    | true =>
      cases c with
      | mintAsset policy name amount =>
        have hfirst : ∀ u, step p s (.mintAsset policy name amount) = ok u ↔
            ∃ m, mintOne p s.mint (policy, name, amount) = ok m ∧ u = { s with mint := m } := by
          intro u
          simp only [step, StagingTransaction.mintAsset, mintOne]
          by_cases hlen : 32 < name.length
          · simp [hlen]
          · simp only [if_neg hlen, bind_eq_ok, ok.injEq]
            constructor
            · rintro ⟨m, hm, rfl⟩
              exact ⟨_, ⟨m, hm, rfl⟩, rfl⟩
            · rintro ⟨_, ⟨m, hm, rfl⟩, rfl⟩
              exact ⟨m, hm, rfl⟩
        simp only [hfirst]
        show (∃ u, (∃ m, _ ∧ u = _) ∧ _) ↔ (mintOne p s.mint (policy, name, amount) >>= fun m => _) = _ ∧ _
        rw [bind_eq_ok]
        constructor
        · rintro ⟨_, ⟨m, hm, rfl⟩, h, htables⟩
          exact ⟨⟨m, hm, h⟩, htables⟩
        · rintro ⟨⟨m, hm, h⟩, htables⟩
          exact ⟨_, ⟨m, hm, rfl⟩, h, htables⟩
      | script | datum | addSpendRedeemer | addMintRedeemer =>
        simp only [step, ok.injEq, exists_eq_left']
        rfl
      | _ => cases hadd

/-! ### Chains -/

/-- The same call, but for the order in which an output gets its assets. -/
inductive Call.Alike : Call → Call → Prop
  | refl (c : Call) : Call.Alike c c
  | output (o : Output) {cs cs' : List OutputCall} (h : OutputCall.Reordered cs cs') : Call.Alike (.output o cs) (.output o cs')
  | collateralOutput (o : Output) {cs cs' : List OutputCall} (h : OutputCall.Reordered cs cs') :
      Call.Alike (.collateralOutput o cs) (.collateralOutput o cs')

/-- The same calls, but for the order of additions. -/
structure Reordered (calls calls' : List Call) : Prop where
  additions : (calls.filter Call.isAddition).Perm (calls'.filter Call.isAddition)
  others : List.Forall₂ Call.Alike (calls.filter fun c => !c.isAddition) (calls'.filter fun c => !c.isAddition)

/-- Equal staging transactions, with tables that `S`, `D` and `R` relate. -/
structure StagingTransaction.Like (S : Script → Script → Prop) (D : Bytes → Bytes → Prop)
    (R : Bytes × Option ExUnits → Bytes × Option ExUnits → Prop) (s t : StagingTransaction) : Prop where
  bare : s.bare.Same t.bare
  mint : Option.Rel Assets.Alike s.mint t.mint
  scripts : Option.Rel (HashTable.Alike S) s.scripts t.scripts
  datums : Option.Rel (HashTable.Alike D) s.datums t.datums
  redeemers : Option.Rel (HashTable.Alike R) s.redeemers t.redeemers

theorem StagingTransaction.Same.push_outputs {outputs outputs' : Option (List Output)}
    (h : Option.Rel (List.Forall₂ Output.Same) outputs outputs') {o o' : Output} (ho : o.Same o') :
    Option.Rel (List.Forall₂ Output.Same) (push outputs o) (push outputs' o') := by
  rcases h with ⟨h⟩ | _
  · exact .some (List.rel_append h (.cons ho .nil))
  · exact .some (.cons ho .nil)

theorem forall₂_getD {outputs outputs' : Option (List Output)}
    (h : Option.Rel (List.Forall₂ Output.Same) outputs outputs') :
    List.Forall₂ Output.Same (outputs.getD []) (outputs'.getD []) := by
  rcases h with ⟨h⟩ | _
  · exact h
  · exact .nil

theorem forall₂_eraseIdx {os os' : List Output} (h : List.Forall₂ Output.Same os os') (i : ℕ) :
    List.Forall₂ Output.Same (os.eraseIdx i) (os'.eraseIdx i) := by
  rw [List.eraseIdx_eq_take_drop_succ, List.eraseIdx_eq_take_drop_succ]
  exact List.rel_append (List.forall₂_take i h) (List.forall₂_drop (i + 1) h)

theorem step_same {s s' t t' : StagingTransaction} {c c' : Call} (hc : c.Alike c') (hadd : c.isAddition = false)
    (hremove : c.isRemoval = false) (hs : s.Same s') (h : step p s c = ok t) (h' : step p s' c' = ok t') :
    t.Same t' := by
  rcases hc with _ | ⟨o, hcs⟩ | ⟨o, hcs⟩
  · cases c with
    | mintAsset | script | datum | addSpendRedeemer | addMintRedeemer => cases hadd
    | removeMintAsset | removeScriptByHash | removeDatum | removeDatumByHash | removeSpendRedeemer | removeMintRedeemer =>
      cases hremove
    | output o cs =>
      simp only [step, bind_eq_ok, ok.injEq] at h h'
      obtain ⟨r, hr, rfl⟩ := h
      obtain ⟨r', hr', rfl⟩ := h'
      rw [hr, ok.injEq] at hr'
      exact { hs with outputs := StagingTransaction.Same.push_outputs hs.outputs (hr' ▸ .refl r) }
    | collateralOutput o cs =>
      simp only [step, bind_eq_ok, ok.injEq] at h h'
      obtain ⟨r, hr, rfl⟩ := h
      obtain ⟨r', hr', rfl⟩ := h'
      rw [hr, ok.injEq] at hr'
      exact { hs with collateralOutput := .some (hr' ▸ .refl r) }
    | input | removeInput =>
      cases h
      cases h'
      exact { hs with inputs := by rw [hs.inputs] }
    | referenceInput | removeReferenceInput =>
      cases h
      cases h'
      exact { hs with referenceInputs := by rw [hs.referenceInputs] }
    | fee | clearFee =>
      cases h
      cases h'
      exact { hs with fee := rfl }
    | validFromSlot | clearValidFromSlot =>
      cases h
      cases h'
      exact { hs with validFromSlot := rfl }
    | invalidFromSlot | clearInvalidFromSlot =>
      cases h
      cases h'
      exact { hs with invalidFromSlot := rfl }
    | networkId | clearNetworkId =>
      cases h
      cases h'
      exact { hs with networkId := rfl }
    | collateralInput | removeCollateralInput =>
      cases h
      cases h'
      exact { hs with collateralInputs := by rw [hs.collateralInputs] }
    | clearCollateralOutput =>
      cases h
      cases h'
      exact { hs with collateralOutput := .none }
    | disclosedSigner | removeDisclosedSigner =>
      cases h
      cases h'
      exact { hs with disclosedSigners := by rw [hs.disclosedSigners] }
    | languageViews =>
      cases h
      cases h'
      exact { hs with languageViews := rfl }
    | signatureAmountOverride | clearSignatureAmountOverride =>
      cases h
      cases h'
      exact { hs with signatureAmountOverride := rfl }
    | changeAddress | clearChangeAddress =>
      cases h
      cases h'
      exact { hs with changeAddress := rfl }
    | clearAuxiliaryData =>
      cases h
      cases h'
      exact { hs with auxiliaryData := rfl }
    | addLanguage plutusVersion costModel =>
      simp only [step, StagingTransaction.addLanguage] at h h'
      cases hkey : StagingTransaction.viewKey plutusVersion with
      | none =>
        simp only [hkey, ok.injEq] at h h'
        exact h ▸ h' ▸ hs
      | some version =>
        simp only [hkey, ok.injEq] at h h'
        subst h h'
        exact { hs with languageViews := by rw [hs.languageViews] }
    | addAuxiliaryData data =>
      simp only [step, StagingTransaction.addAuxiliaryData] at h h'
      cases haux : p.decodeAuxiliaryData data with
      | none =>
        simp only [haux, ok.injEq] at h h'
        exact h ▸ h' ▸ hs
      | some aux =>
        simp only [haux, ok.injEq] at h h'
        subst h h'
        exact { hs with auxiliaryData := rfl }
    | removeOutput index =>
      simp only [step, StagingTransaction.removeOutput] at h h'
      split at h
      · split at h'
        · cases h
          cases h'
          exact { hs with outputs := .some (forall₂_eraseIdx (forall₂_getD hs.outputs) index) }
        · cases h'
      · cases h
  · simp only [step, bind_eq_ok, ok.injEq] at h h'
    obtain ⟨r, hr, rfl⟩ := h
    obtain ⟨r', hr', rfl⟩ := h'
    exact { hs with outputs := StagingTransaction.Same.push_outputs hs.outputs (hcs.same hr hr') }
  · simp only [step, bind_eq_ok, ok.injEq] at h h'
    obtain ⟨r, hr, rfl⟩ := h
    obtain ⟨r', hr', rfl⟩ := h'
    exact { hs with collateralOutput := .some (hcs.same hr hr') }

theorem fold_step_same {cs cs' : List Call} (hcs : List.Forall₂ Call.Alike cs cs') {s s' t t' : StagingTransaction}
    (hcalls : ∀ c ∈ cs, c.isAddition = false ∧ c.isRemoval = false) (hs : s.Same s') (h : fold (step p) s cs = ok t)
    (h' : fold (step p) s' cs' = ok t') : t.Same t' := by
  induction hcs generalizing s s' with
  | nil =>
    cases h
    cases h'
    exact hs
  | cons hc _ ih =>
    obtain ⟨⟨hadd, hremove⟩, hcalls⟩ := List.forall_mem_cons.1 hcalls
    rw [fold_cons, bind_eq_ok] at h h'
    obtain ⟨u, hu, h⟩ := h
    obtain ⟨u', hu', h'⟩ := h'
    exact ih hcalls (step_same hc hadd hremove hs hu hu') h h'

theorem fold_mintOne {o o' : Option (Assets Int64)} {es : List (PolicyId × AssetName × Int64)}
    (h : fold (mintOne p) o es = ok o') : o' = stored creditAsset o es := by
  induction es generalizing o with
  | nil =>
    cases h
    rfl
  | cons e es ih =>
    rw [fold_cons, bind_eq_ok] at h
    obtain ⟨m, hm, h⟩ := h
    simp only [mintOne] at hm
    split at hm
    · cases hm
    · simp only [bind_eq_ok, ok.injEq] at hm
      obtain ⟨assets, hacc, rfl⟩ := hm
      rw [ih h, accumulate_eq_ok hacc]
      rfl

namespace Reordered
variable {calls calls' : List Call}

theorem filterMap_perm {β : Type} {f : Call → Option β} (hf : ∀ c, c.isAddition = false → f c = none)
    (h : Reordered calls calls') : (calls.filterMap f).Perm (calls'.filterMap f) := by
  have hall : ∀ cs : List Call, (cs.filter Call.isAddition).filterMap f = cs.filterMap f := by
    intro cs
    rw [List.filterMap_filter]
    refine congrArg (fun g => List.filterMap g cs) (funext fun c => ?_)
    cases hc : c.isAddition with
    | true => rfl
    | false => exact (hf c hc).symm
  rw [← hall calls, ← hall calls']
  exact h.additions.filterMap f

theorem keep (h : Reordered calls calls') (hkeep : ∀ c ∈ calls, c.isRemoval = false) :
    ∀ c ∈ calls', c.isRemoval = false := by
  intro c hc
  cases hadd : c.isAddition with
  | true => exact hkeep c (List.mem_of_mem_filter (h.additions.mem_iff.2 (List.mem_filter.2 ⟨hc, hadd⟩)))
  | false =>
    have hmem : c ∈ calls'.filter fun c => !c.isAddition := List.mem_filter.2 ⟨hc, by simp [hadd]⟩
    obtain ⟨i, hi, heq⟩ := List.getElem_of_mem hmem
    have hi' := h.others.length_eq ▸ hi
    have halike := h.others.get hi' hi
    have hkeep' := hkeep _ (List.mem_of_mem_filter (List.getElem_mem hi'))
    simp only [List.get_eq_getElem, heq] at halike
    generalize (calls.filter _)[i] = c' at halike hkeep'
    rcases halike with _ | _ | _
    · exact hkeep'
    · rfl
    · rfl

/-- What two chains give that differ in the order of additions. -/
theorem like {s₀ s₀' s s' : StagingTransaction} {S : Script → Script → Prop} {D : Bytes → Bytes → Prop}
    {R : Bytes × Option ExUnits → Bytes × Option ExUnits → Prop} (hS : Equivalence S) (hD : Equivalence D)
    (hR : Equivalence R)
    (h : Reordered calls calls') (hkeep : ∀ c ∈ calls, c.isRemoval = false) (hs₀ : s₀.Same s₀')
    (hs : fold (step p) s₀ calls = ok s) (hs' : fold (step p) s₀' calls' = ok s')
    (hscripts : ∀ e ∈ calls.filterMap (Call.scriptAdded p), ∀ e' ∈ calls.filterMap (Call.scriptAdded p), e.1 = e'.1 →
      S e'.2 e.2)
    (hdatums : ∀ e ∈ calls.filterMap (Call.datumAdded p), ∀ e' ∈ calls.filterMap (Call.datumAdded p), e.1 =
      e'.1 → D e'.2 e.2)
    (hredeemers : ∀ e ∈ calls.filterMap Call.redeemerAdded, ∀ e' ∈ calls.filterMap Call.redeemerAdded, e.1 = e'.1 →
      R e'.2 e.2) : s.Like S D R s' := by
  obtain ⟨hmint, hsc, hda, hre, hbare⟩ := (fold_step_eq_ok hkeep).1 hs
  obtain ⟨hmint', hsc', hda', hre', hbare'⟩ := (fold_step_eq_ok (h.keep hkeep)).1 hs'
  have hnone : ∀ {κ ν : Type} [DecidableEq κ] {T : ν → ν → Prop} {a b : Option (HashTable κ ν)}, Equivalence T →
      Option.Rel (HashTable.Alike Eq) a b → Option.Rel (HashTable.Alike T) a b := by
    rintro κ ν _ T a b hT (⟨hab⟩ | _)
    · refine .some (Alike.imp (fun v w hvw => ?_) hab)
      rw [hvw]
      exact hT.refl w
    · exact .none
  refine ⟨?_, ?_, ?_, ?_, ?_⟩
  · refine fold_step_same h.others (fun c hc => ?_) ?_ hbare hbare'
    · obtain ⟨hmem, hadd⟩ := List.mem_filter.1 hc
      exact ⟨by simpa using hadd, hkeep c hmem⟩
    · exact { hs₀ with mint := .none, scripts := .none, datums := .none, redeemers := .none }
  · rw [fold_mintOne hmint, fold_mintOne hmint']
    exact stored_assets (h.filterMap_perm fun c hc => by cases c <;> first | rfl | cases hc) hs₀.mint
  · rw [hsc, hsc']
    exact stored_perm hS (fun _ _ x _ => hS.refl x)
      (h.filterMap_perm fun c hc => by cases c <;> first | rfl | cases hc)
      (fun e he e' he' hk _ => hscripts e he e' he' hk) (hnone hS hs₀.scripts)
  · rw [hda, hda']
    exact stored_perm hD (fun _ _ x _ => hD.refl x)
      (h.filterMap_perm fun c hc => by cases c <;> first | rfl | cases hc)
      (fun e he e' he' hk _ => hdatums e he e' he' hk) (hnone hD hs₀.datums)
  · rw [hre, hre']
    exact stored_perm hR (fun _ _ x _ => hR.refl x)
      (h.filterMap_perm fun c hc => by cases c <;> first | rfl | cases hc)
      (fun e he e' he' hk _ => hredeemers e he e' he' hk) (hnone hR hs₀.redeemers)

end Reordered

theorem exists_last {s₀ s : StagingTransaction} {calls : List Call} (hkeep : ∀ c ∈ calls, c.isRemoval = false)
    (hs : fold (step p) s₀ calls = ok s) {c : Call} (hc : c ∈ calls) (hadd : c.isAddition = true)
    (hminted : c.minted = none) :
    ∃ calls' s', Reordered calls calls' ∧ fold (step p) s₀ calls' = ok s' ∧ s'.bare = s.bare ∧ s'.mint = s.mint ∧
      Option.Rel (HashTable.Alike Eq) s'.scripts (stored put s.scripts (c.scriptAdded p).toList) ∧
      Option.Rel (HashTable.Alike Eq) s'.datums (stored put s.datums (c.datumAdded p).toList) ∧
      Option.Rel (HashTable.Alike Eq) s'.redeemers (stored put s.redeemers c.redeemerAdded.toList) := by
  obtain ⟨pre, post, rfl⟩ := List.append_of_mem hc
  obtain ⟨hmint, hscripts, hdatums, hredeemers, hbare⟩ := (fold_step_eq_ok hkeep).1 hs
  have hlast : ∀ {κ ν : Type} [DecidableEq κ] (o : Option (HashTable κ ν)) (f : Call → Option (κ × ν)),
      Option.Rel (HashTable.Alike Eq) (stored put o ((pre ++ post ++ [c]).filterMap f))
        (stored put (stored put o ((pre ++ c :: post).filterMap f)) (f c).toList) := by
    intro κ ν _ o f
    simp only [List.filterMap_append, List.filterMap_cons, List.filterMap_nil]
    cases f c with
    | none =>
      rw [List.append_nil]
      exact rel_refl (Alike.refl fun _ => rfl) _
    | some e => exact stored_put_last o _ _ e
  have hothers : (pre ++ post ++ [c]).filter (fun c => !c.isAddition) =
      (pre ++ c :: post).filter fun c => !c.isAddition := by
    simp [hadd]
  refine ⟨pre ++ post ++ [c], { s with
    scripts := stored put s₀.scripts ((pre ++ post ++ [c]).filterMap (Call.scriptAdded p))
    datums := stored put s₀.datums ((pre ++ post ++ [c]).filterMap (Call.datumAdded p))
    redeemers := stored put s₀.redeemers ((pre ++ post ++ [c]).filterMap Call.redeemerAdded) },
    ⟨?_, ?_⟩, (fold_step_eq_ok ?_).2 ⟨?_, rfl, rfl, rfl, ?_⟩, rfl, rfl, ?_, ?_, ?_⟩
  · exact (by simpa using List.perm_middle.trans (List.perm_append_singleton c (pre ++ post)).symm :
      (pre ++ c :: post).Perm (pre ++ post ++ [c])).filter _
  · rw [hothers]
    exact List.forall₂_same.2 fun c _ => .refl c
  · intro c' hc'
    exact hkeep c' (by
      simp only [List.mem_append, List.mem_cons] at hc' ⊢
      tauto)
  · have hmints : (pre ++ post ++ [c]).filterMap Call.minted = (pre ++ c :: post).filterMap Call.minted := by
      simp [hminted]
    rw [hmints]
    exact hmint
  · rw [hothers]
    exact hbare
  · rw [hscripts]
    exact hlast s₀.scripts _
  · rw [hdatums]
    exact hlast s₀.datums _
  · rw [hredeemers]
    exact hlast s₀.redeemers _

end Source
end TxBuilder
end Pallas
