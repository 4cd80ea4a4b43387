import Pallas.Validate.ExUnits

/-!
# Plutus languages of a Conway transaction (`pallas-validate/src/phase1/conway.rs`)

What the ledger asks of the languages of a transaction, over outputs of any era: each one that a script of the witness set or a
reference script is written in has a cost model (`costModel`), and is allowed by the outputs (`Allowed`). `check_languages` joins
the two lists by a disjunction, and looks at Conway outputs only.
-/

namespace Pallas
namespace MultiEraOutput

/-- The language of the script that an output carries, if it is a Plutus script. -/
def scriptLanguage : MultiEraOutput → Option Conway.Language
  | babbage (.postAlonzo o) => match o.scriptRef with
    | some (.plutusV1Script _) => some .plutusV1
    | some (.plutusV2Script _) => some .plutusV2
    | _ => none
  | conway (.postAlonzo o) => o.scriptRef.bind Conway.scriptRefLanguage
  | _ => none

/-- The output is at a Byron address. -/
def atByron : MultiEraOutput → Bool
  | byron _ => true
  | alonzoCompatible o _ => isByronAddress o.address
  | babbage (.legacy o) => isByronAddress o.address
  | babbage (.postAlonzo o) => isByronAddress o.address
  | conway o => isByronAddress (Conway.outputAddress o)

/-- The output has an inline datum or carries a script. -/
def bearsDatumOrScript : MultiEraOutput → Bool
  | babbage (.postAlonzo o) => o.scriptRef.isSome || match o.datumOption with
    | some (.data _) => true
    | _ => false
  | conway o => Conway.hasDatumOrScriptRef o
  | _ => false

/-- A language that the output forbids: any at a Byron address, the first one with a datum or a script. -/
def forbids (o : MultiEraOutput) (l : Conway.Language) : Bool :=
  o.atByron || (l = .plutusV1 && o.bearsDatumOrScript)

end MultiEraOutput

namespace Conway
variable (mtx : Tx) (utxos : UTxOs)

/-- A language that the transaction uses, in a script of the witness set or in a reference script. -/
inductive Uses : Language → Prop
  | plutusV1 {s : PlutusScript 1} (h : s ∈ mtx.transactionWitnessSet.inner.plutusV1Script.getD []) : Uses .plutusV1
  | plutusV2 {s : PlutusScript 2} (h : s ∈ mtx.transactionWitnessSet.inner.plutusV2Script.getD []) : Uses .plutusV2
  | plutusV3 {s : PlutusScript 3} (h : s ∈ mtx.transactionWitnessSet.inner.plutusV3Script.getD []) : Uses .plutusV3
  | reference {i : TransactionInput} {o : MultiEraOutput} {l : Language}
      (hi : i ∈ mtx.transactionBody.inner.referenceInputs.getD []) (ho : utxos (.alonzoCompatible i) = some o)
      (hl : o.scriptLanguage = some l) : Uses l

/-- An output that the transaction spends, refers to or produces. -/
def Touches (o : MultiEraOutput) : Prop :=
  (∃ i ∈ mtx.transactionBody.inner.inputs ++ mtx.transactionBody.inner.referenceInputs.getD [],
    utxos (.alonzoCompatible i) = some o) ∨ ∃ out ∈ mtx.transactionBody.inner.outputs, o = .conway out

/-- What the outputs allow: nothing if one is at a Byron address, and no PlutusV1 if there is an inline datum, a script that an
output carries, or a reference input. -/
def Allowed (l : Language) : Prop :=
  (∀ o, Touches mtx utxos o → o.atByron = false) ∧ (l = .plutusV1 →
    (∀ o, Touches mtx utxos o → o.bearsDatumOrScript = false) ∧ mtx.transactionBody.inner.referenceInputs.getD [] = [])

/-- An output of another era, which `as_conway` passes over, that an input or a reference input finds. -/
def Overlooked (o : MultiEraOutput) : Prop :=
  (∃ i ∈ mtx.transactionBody.inner.inputs ++ mtx.transactionBody.inner.referenceInputs.getD [],
    utxos (.alonzoCompatible i) = some o) ∧ o.asConway = none

/-- Of the languages that the check collects one is on neither list, or each of them that is on one list is on the other; then
also a used language that it does not collect is on both, and no output that it overlooks forbids a used language. -/
def LanguagesSettled (pps : ConwayProtParams) : Prop :=
  (∃ l ∈ txLanguages mtx utxos, l ∉ availableLangs pps ∧ l ∉ allowedTxLangs mtx utxos) ∨
    ((∀ l ∈ txLanguages mtx utxos, l ∈ availableLangs pps ↔ l ∈ allowedTxLangs mtx utxos) ∧
      (∀ l, Uses mtx utxos l → l ∉ txLanguages mtx utxos → l ∈ availableLangs pps ∧ l ∈ allowedTxLangs mtx utxos) ∧
      ∀ o, Overlooked mtx utxos o → ∀ l, Uses mtx utxos l → o.forbids l = false)

variable {mtx utxos} {pps : ConwayProtParams}

theorem mem_availableLangs {l : Language} : l ∈ availableLangs pps ↔ (costModel pps l).isSome := by
  rw [availableLangs, List.mem_filter]
  cases l <;> simp

theorem checkLanguages_eq_ok : checkLanguages mtx utxos pps = .ok () ↔
    ∀ l ∈ txLanguages mtx utxos, l ∈ availableLangs pps ∨ l ∈ allowedTxLangs mtx utxos := by
  rw [checkLanguages, Outcome.forEach_eq_ok]
  refine forall₂_congr fun l _ => ?_
  rw [check, Outcome.ensure_eq_ok, Bool.or_eq_true, List.contains_iff_mem, List.contains_iff_mem]

/-! ### What the check collects -/

theorem touches_iff {o : MultiEraOutput} :
    Touches mtx utxos o ↔ (∃ out ∈ computeAllOutputs mtx utxos, o = .conway out) ∨ Overlooked mtx utxos o := by
  simp only [computeAllOutputs, List.mem_append, List.mem_filterMap, Option.bind_eq_some_iff, asConway_eq_some]
  constructor
  · rintro (⟨i, hi, ho⟩ | ⟨out, hout, rfl⟩)
    · cases hera : o.asConway with
      | none => exact .inr ⟨⟨i, hi, ho⟩, hera⟩
      | some out =>
        obtain rfl := asConway_eq_some.1 hera
        exact .inl ⟨out, .inl ⟨i, List.mem_append.1 hi, _, ho, rfl⟩, rfl⟩
    · exact .inl ⟨out, .inr hout, rfl⟩
  · rintro (⟨out, ⟨i, hi, o', ho, rfl⟩ | hout, rfl⟩ | ⟨hfound, -⟩)
    · exact .inl ⟨i, List.mem_append.2 hi, ho⟩
    · exact .inr ⟨out, hout, rfl⟩
    · exact .inl hfound

theorem mem_allowedTxLangs {l : Language} : l ∈ allowedTxLangs mtx utxos ↔
    ((computeAllOutputs mtx utxos).any fun o => isByronAddress (outputAddress o)) = false ∧ (l = .plutusV1 →
      (computeAllOutputs mtx utxos).any hasDatumOrScriptRef = false ∧
        mtx.transactionBody.inner.referenceInputs.getD [] = []) := by
  rw [allowedTxLangs]
  cases (computeAllOutputs mtx utxos).any fun o => isByronAddress (outputAddress o) with
  | true => simp
  | false =>
    cases (computeAllOutputs mtx utxos).any hasDatumOrScriptRef with
    | true => cases l <;> simp
    | false =>
      by_cases hrefs : mtx.transactionBody.inner.referenceInputs.getD [] = []
      · cases l <;> simp [hrefs]
      · cases l <;> simp [hrefs]

theorem allowed_iff {l : Language} : Allowed mtx utxos l ↔
    l ∈ allowedTxLangs mtx utxos ∧ ∀ o, Overlooked mtx utxos o → o.forbids l = false := by
  have hall : ∀ (f : TransactionOutput → Bool) (g : MultiEraOutput → Bool), (∀ out, g (.conway out) = f out) →
      ((∀ o, Touches mtx utxos o → g o = false) ↔
        (computeAllOutputs mtx utxos).any f = false ∧ ∀ o, Overlooked mtx utxos o → g o = false) := by
    intro f g hfg
    rw [List.any_eq_false]
    constructor
    · intro hg
      refine ⟨fun out hout => ?_, fun o ho => hg o (touches_iff.2 (.inr ho))⟩
      rw [← hfg, hg _ (touches_iff.2 (.inl ⟨out, hout, rfl⟩))]
      decide
    · rintro ⟨hf, hg⟩ o ho
      rcases touches_iff.1 ho with ⟨out, hout, rfl⟩ | ho
      · rw [hfg]
        exact Bool.eq_false_iff.2 (hf out hout)
      · exact hg o ho
  rw [Allowed, hall (fun o => isByronAddress (outputAddress o)) MultiEraOutput.atByron fun _ => rfl,
    hall hasDatumOrScriptRef MultiEraOutput.bearsDatumOrScript fun _ => rfl, mem_allowedTxLangs]
  simp only [MultiEraOutput.forbids, Bool.or_eq_false_iff, Bool.and_eq_false_iff, decide_eq_false_iff_not]
  constructor
  · rintro ⟨⟨hbyron, hothers⟩, hfirst⟩
    refine ⟨⟨hbyron, fun hl => ⟨(hfirst hl).1.1, (hfirst hl).2⟩⟩, fun o ho => ⟨hothers o ho, ?_⟩⟩
    by_cases hl : l = .plutusV1
    · exact .inr ((hfirst hl).1.2 o ho)
    · exact .inl hl
  · rintro ⟨⟨hbyron, hfirst⟩, hothers⟩
    refine ⟨⟨hbyron, fun o ho => (hothers o ho).1⟩, fun hl => ⟨⟨(hfirst hl).1, fun o ho => ?_⟩, (hfirst hl).2⟩⟩
    exact (hothers o ho).2.resolve_left (not_not.2 hl)

theorem uses_of_mem_txLanguages {l : Language} (hl : l ∈ txLanguages mtx utxos) : Uses mtx utxos l := by
  have hnonempty : ∀ {α : Type} (xs : List α), (!xs.isEmpty) = true → ∃ x, x ∈ xs := by
    intro α xs h
    cases xs with
    | nil => cases h
    | cons x _ => exact ⟨x, List.mem_cons_self⟩
  simp only [txLanguages, List.mem_filter, Bool.or_eq_true, List.contains_iff_mem, List.mem_filterMap] at hl
  obtain ⟨-, hwits | ⟨i, hi, href⟩⟩ := hl
  · cases l with
    | plutusV1 =>
      obtain ⟨s, hs⟩ := hnonempty _ hwits
      exact .plutusV1 hs
    | plutusV2 =>
      obtain ⟨s, hs⟩ := hnonempty _ hwits
      exact .plutusV2 hs
    | plutusV3 =>
      obtain ⟨s, hs⟩ := hnonempty _ hwits
      exact .plutusV3 hs
  · obtain ⟨script, hscript, hlang⟩ := Option.bind_eq_some_iff.1 href
    unfold referenceScript at hscript
    split at hscript
    next o heq =>
      obtain ⟨o', ho', hera⟩ := Option.bind_eq_some_iff.1 heq
      obtain rfl := asConway_eq_some.1 hera
      exact .reference hi ho' (by simp [MultiEraOutput.scriptLanguage, hscript, hlang])
    next => cases hscript

/-! ### The check -/

/-- The check is enough exactly where the languages are settled. -/
theorem languages_iff : (checkLanguages mtx utxos pps = .ok () → ∀ l, Uses mtx utxos l →
    (costModel pps l).isSome ∧ Allowed mtx utxos l) ↔ LanguagesSettled mtx utxos pps := by
  simp only [checkLanguages_eq_ok, LanguagesSettled, ← mem_availableLangs, allowed_iff]
  constructor
  · intro h
    refine or_iff_not_imp_left.2 fun hneither => ?_
    have hok : ∀ l ∈ txLanguages mtx utxos, l ∈ availableLangs pps ∨ l ∈ allowedTxLangs mtx utxos := by
      intro l hl
      by_contra hnot
      exact hneither ⟨l, hl, not_or.1 hnot⟩
    refine ⟨fun l hl => ?_, fun l hl _ => ⟨(h hok l hl).1, (h hok l hl).2.1⟩, fun o ho l hl => (h hok l hl).2.2 o ho⟩
    have hboth := h hok l (uses_of_mem_txLanguages hl)
    exact iff_of_true hboth.1 hboth.2.1
  · rintro (⟨l, hl, hmodel, hallowed⟩ | ⟨hagree, hmissed, hothers⟩) hok l' hl'
    · exact absurd (hok l hl) (not_or.2 ⟨hmodel, hallowed⟩)
    · have hboth : l' ∈ availableLangs pps ∧ l' ∈ allowedTxLangs mtx utxos := by
        by_cases hseen : l' ∈ txLanguages mtx utxos
        · rcases hok l' hseen with hmodel | hallowed
          · exact ⟨hmodel, (hagree l' hseen).1 hmodel⟩
          · exact ⟨(hagree l' hseen).2 hallowed, hallowed⟩
        · exact hmissed l' hl' hseen
      exact ⟨hboth.1, hboth.2, fun o ho => hothers o ho l' hl'⟩

/-- A transaction with a script of the first version, and nothing else. -/
def scriptOnly : Tx where
  transactionBody := ⟨[0xa3], { inputs := [], outputs := [], fee := 0 }, by simp⟩
  transactionWitnessSet := ⟨[0xa1], { plutusV1Script := some [⟨[1]⟩] }, by simp⟩
  success := true
  auxiliaryData := .null

/-- Without a cost model for it the check returns `Ok`. -/
theorem scriptOnly_unsupported : ¬ ∀ mtx utxos pps, checkLanguages mtx utxos pps = .ok () → ∀ l, Uses mtx utxos l →
    (costModel pps l).isSome ∧ Allowed mtx utxos l := by
  intro h
  obtain ⟨hmodel, -⟩ := h scriptOnly (fun _ => none) conwayPps rfl .plutusV1 (.plutusV1 List.mem_cons_self)
  cases hmodel

end Conway
end Pallas
