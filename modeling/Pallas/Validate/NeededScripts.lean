import Pallas.Validate.Conway

/-!
# The scripts a Conway transaction needs

`check_needed_scripts` walks the needed hashes twice, first those that lock inputs and then the minted policies, and
marks in four lists what it meets. After both walks a script is marked exactly where its hash was among them
(`foldl_coverScripts`); so the marks say who needs a script, and neither the order of the walks nor that of the lists
shows in the answer.
-/

namespace Pallas

section
variable {missing : PolicyId → ValidationError} {reference needed : List PolicyId}
  {lists : List (List (Bool × PolicyId))} {scripts : List (List PolicyId)}

/-- A script is marked where it was, or where its hash is one of those met. -/
def markNeeded (needed : List PolicyId) (s : Bool × PolicyId) : Bool × PolicyId := (s.1 || needed.contains s.2, s.2)

def markAll (needed : List PolicyId) (lists : List (List (Bool × PolicyId))) : List (List (Bool × PolicyId)) :=
  lists.map fun l => l.map (markNeeded needed)

/-- The lists before any mark, without the scripts that a reference input provides. -/
def unmarked (reference : List PolicyId) (scripts : List (List PolicyId)) : List (List (Bool × PolicyId)) :=
  scripts.map fun hashes => (hashes.map fun h => (false, h)).filter fun s => !reference.contains s.2

theorem markNeeded_comp (first second : List PolicyId) :
    markNeeded second ∘ markNeeded first = markNeeded (first ++ second) := by
  funext s
  simp [markNeeded, Bool.or_assoc]

theorem markAll_markAll (first second : List PolicyId) (lists : List (List (Bool × PolicyId))) :
    markAll second (markAll first lists) = markAll (first ++ second) lists := by
  simp [markAll, Function.comp_def, ← markNeeded_comp]

theorem foldl_coverScripts (needed : List PolicyId) (lists : List (List (Bool × PolicyId))) :
    needed.foldl coverScripts lists = markAll needed lists := by
  have hstep : ∀ hash lists, coverScripts lists hash = markAll [hash] lists := by
    intro hash lists
    simp [coverScripts, markAll, markNeeded, Bool.beq_eq_decide_eq]
  induction needed generalizing lists with
  | nil =>
    have hid : markNeeded [] = id := by
      funext s
      simp [markNeeded]
    simp [markAll, hid]
  | cons hash needed ih =>
    rw [List.foldl_cons, ih, hstep, markAll_markAll]
    rfl

theorem inLists_markAll (hash : PolicyId) : inLists (markAll needed lists) hash = inLists lists hash := by
  simp [inLists, markAll, markNeeded, List.any_map, Function.comp_def]

theorem inLists_unmarked {hash : PolicyId} :
    inLists (unmarked reference scripts) hash = true ↔ hash ∈ scripts.flatten ∧ hash ∉ reference := by
  simp only [inLists, unmarked, List.any_map, List.any_eq_true, Function.comp_apply, List.mem_filter, List.mem_map,
    List.mem_flatten, Bool.not_eq_true', beq_iff_eq]
  constructor
  · rintro ⟨l, hl, _, ⟨⟨h, hh, rfl⟩, hnot⟩, rfl⟩
    exact ⟨⟨l, hl, hh⟩, by simpa using hnot⟩
  · rintro ⟨⟨l, hl, hh⟩, hnot⟩
    exact ⟨l, hl, _, ⟨⟨hash, hh, rfl⟩, by simpa using hnot⟩, rfl⟩

theorem checkCovered_eq_ok {r : List (List (Bool × PolicyId))} : checkCovered missing reference lists needed = .ok r ↔
    (∀ hash ∈ needed, inLists lists hash = true ∨ hash ∈ reference) ∧ r = markAll needed lists := by
  rw [checkCovered, Outcome.seq_eq_ok, Outcome.forEach_eq_ok, foldl_coverScripts, Outcome.ok.injEq, eq_comm (a := r)]
  simp only [Outcome.ensure_eq_ok, Bool.or_eq_true, List.contains_iff_mem]

theorem all_marked_iff {unneeded : List ValidationError} (hlen : unneeded.length = scripts.length) :
    Outcome.forEach (fun (e, scripts) => Outcome.forEach (fun s => check e s.1) scripts)
        (unneeded.zip (markAll needed (unmarked reference scripts))) = .ok () ↔
      ∀ h ∈ scripts.flatten, h ∉ reference → h ∈ needed := by
  have hsnd : (unneeded.zip (markAll needed (unmarked reference scripts))).map Prod.snd =
      markAll needed (unmarked reference scripts) := List.map_snd_zip (by simp [markAll, unmarked, hlen])
  rw [Outcome.forEach_eq_ok]
  simp only [Outcome.forEach_eq_ok, Outcome.ensure_eq_ok]
  rw [← List.forall_mem_map (f := Prod.snd) (P := fun l : List (Bool × PolicyId) => ∀ s ∈ l, s.1 = true), hsnd]
  simp only [markAll, unmarked, List.forall_mem_map, List.mem_filter, List.mem_flatten]
  constructor
  · rintro h hash ⟨hashes, hhashes, hhash⟩ href
    have := h hashes hhashes (false, hash) ⟨List.mem_map_of_mem hhash, by simpa using href⟩
    simpa [markNeeded] using this
  · rintro h hashes hhashes s ⟨hs, href⟩
    obtain ⟨hash, hhash, rfl⟩ := List.mem_map.1 hs
    simpa [markNeeded] using h hash ⟨hashes, hhashes, hhash⟩ (by simpa using href)

theorem checkNeededScripts_eq_ok {inputMissing : ValidationError} {policyMissing : PolicyId → ValidationError}
    {unneeded : List ValidationError} {inputHashes policies : List PolicyId} (hlen : unneeded.length = scripts.length) :
    checkNeededScripts inputMissing policyMissing unneeded scripts reference inputHashes policies = .ok () ↔
      (∀ h ∈ inputHashes ++ policies, h ∈ scripts.flatten ∨ h ∈ reference) ∧
        ∀ h ∈ scripts.flatten, h ∉ reference → h ∈ inputHashes ++ policies := by
  have hfound : ∀ h : PolicyId, inLists (unmarked reference scripts) h = true ∨ h ∈ reference ↔
      h ∈ scripts.flatten ∨ h ∈ reference := by
    intro h
    rw [inLists_unmarked]
    tauto
  rw [← all_marked_iff hlen, checkNeededScripts, ← unmarked, Outcome.bind_eq_ok]
  simp only [Outcome.bind_eq_ok, checkCovered_eq_ok]
  constructor
  · rintro ⟨_, ⟨hinputs, rfl⟩, _, ⟨hpolicies, rfl⟩, hmarks⟩
    rw [markAll_markAll] at hmarks
    refine ⟨fun h hh => (hfound h).1 ?_, hmarks⟩
    rcases List.mem_append.1 hh with hin | hpol
    · exact hinputs h hin
    · have := hpolicies h hpol
      rwa [inLists_markAll] at this
  · rintro ⟨hfind, hmarks⟩
    refine ⟨_, ⟨fun h hh => (hfound h).2 (hfind h (List.mem_append_left _ hh)), rfl⟩, _, ⟨fun h hh => ?_, rfl⟩, ?_⟩
    · rw [inLists_markAll]
      exact (hfound h).2 (hfind h (List.mem_append_right _ hh))
    · rwa [markAll_markAll]

end

namespace Conway
open Std
variable (c : Crypto) (body : TransactionBody) (utxos : UTxOs) (wits : WitnessSet) (h : PolicyId)

/-- The hash locks a spent input, or is a minted policy. -/
def NeededScript : Prop :=
  (∃ i ∈ body.inputs, ∃ o, utxos (.alonzoCompatible i) = some (.conway o) ∧
    getPaymentPart (outputAddress o) = some (.script h)) ∨ ∃ minted ∈ body.mint, h ∈ minted

/-- The hash is that of a script of the witness set. -/
def WitnessScript : Prop :=
  (∃ scripts ∈ wits.nativeScript, ∃ s ∈ scripts, computeNativeScriptHash c s.inner = h) ∨
    (∃ scripts ∈ wits.plutusV1Script, ∃ s ∈ scripts, computePlutusV1ScriptHash c s = h) ∨
    (∃ scripts ∈ wits.plutusV2Script, ∃ s ∈ scripts, computePlutusV2ScriptHash c s = h) ∨
    ∃ scripts ∈ wits.plutusV3Script, ∃ s ∈ scripts, computePlutusV3ScriptHash c s = h

/-- The hash is that of the script of a reference input. -/
def ReferenceScript : Prop :=
  ∃ inputs ∈ body.referenceInputs, ∃ i ∈ inputs, ∃ o script,
    utxos (.alonzoCompatible i) = some (.conway (.postAlonzo o)) ∧ o.scriptRef = some script ∧ scriptRefHash c script = h

variable {c body utxos wits h}

theorem mem_neededHashes : h ∈ (body.inputs.filterMap fun i => getScriptHashFromInput i utxos) ++
    (body.mint.map ExtTreeMap.keys).getD [] ↔ NeededScript body utxos h := by
  rw [List.mem_append, List.mem_filterMap, NeededScript]
  refine or_congr ⟨?_, ?_⟩ ?_
  · rintro ⟨i, hi, hhash⟩
    rw [getScriptHashFromInput] at hhash
    split at hhash
    · next address haddress =>
      obtain ⟨output, houtput, hconway⟩ := Option.bind_eq_some_iff.1 haddress
      obtain ⟨o, ho, rfl⟩ := Option.map_eq_some_iff.1 hconway
      rw [asConway_eq_some] at ho
      subst ho
      refine ⟨i, hi, o, houtput, ?_⟩
      split at hhash
      · next hpart =>
        rw [hpart]
        simpa using hhash
      · cases hhash
    · cases hhash
  · rintro ⟨i, hi, o, houtput, hpart⟩
    refine ⟨i, hi, ?_⟩
    rw [getScriptHashFromInput, houtput]
    simp only [Option.bind_some, conwayAddress, MultiEraOutput.asConway, Option.map_some, hpart]
  · cases body.mint with
    | none => simp
    | some minted => simp

theorem mem_witnessHashes :
    h ∈ (nativeScriptHashes c wits :: plutusScriptHashes c wits).flatten ↔ WitnessScript c wits h := by
  simp only [nativeScriptHashes, plutusScriptHashes, List.flatten_cons, List.flatten_nil, List.append_nil, List.mem_append,
    List.mem_map, WitnessScript]
  refine or_congr ?_ (or_congr ?_ (or_congr ?_ ?_))
  · cases wits.nativeScript <;> simp
  · cases wits.plutusV1Script <;> simp
  · cases wits.plutusV2Script <;> simp
  · cases wits.plutusV3Script <;> simp

theorem mem_referenceHashes : h ∈ getReferenceScriptHashes c body utxos ↔ ReferenceScript c body utxos h := by
  have hinput : ∀ i, getScriptHashFromReferenceInput c i utxos = some h ↔ ∃ o script,
      utxos (.alonzoCompatible i) = some (.conway (.postAlonzo o)) ∧ o.scriptRef = some script ∧
        scriptRefHash c script = h := by
    intro i
    rw [getScriptHashFromReferenceInput, Option.map_eq_some_iff, referenceScript]
    constructor
    · rintro ⟨script, hscript, hhash⟩
      split at hscript
      · next o ho =>
        obtain ⟨output, houtput, hconway⟩ := Option.bind_eq_some_iff.1 ho
        rw [asConway_eq_some] at hconway
        subst hconway
        exact ⟨o, script, houtput, hscript, hhash⟩
      · cases hscript
    · rintro ⟨o, script, houtput, hscript, hhash⟩
      refine ⟨script, ?_, hhash⟩
      rw [houtput]
      exact hscript
  simp only [getReferenceScriptHashes, List.mem_filterMap, hinput, ReferenceScript]
  cases body.referenceInputs <;> simp

/-- The scripts of the witness set are the needed ones, reference scripts aside. -/
theorem checkNeeded_ok_iff : checkNeeded c body utxos wits = .ok () ↔
    (∀ h, NeededScript body utxos h → WitnessScript c wits h ∨ ReferenceScript c body utxos h) ∧
      ∀ h, WitnessScript c wits h → ¬ ReferenceScript c body utxos h → NeededScript body utxos h := by
  rw [checkNeeded, checkNeededScripts_eq_ok rfl]
  simp only [mem_neededHashes, mem_witnessHashes, mem_referenceHashes]

end Conway
end Pallas
