import Pallas.Validate.Holdings
import Pallas.Validate.Alonzo
import Pallas.Validate.Babbage
import Pallas.Validate.Conway

/-!
# Preservation of value

The ledger rule: what the inputs of a transaction hold, each counted once, plus what is minted, is
what the outputs hold plus the fee. The validators establish this much: the lovelace agrees, counting
an input as often as the list has it, and every asset agrees modulo `2 ^ 64`
(`checkPreservationOfValue_congruent`, for each era). `balanced_iff` is the gap between the two: the
rule holds when what repeated inputs count again makes up exactly for what the sums lose by wrapping.
-/

namespace Pallas
open Std MachineInt

/-! ### What inputs and outputs hold -/

/-- The quantities of a value of any era. -/
def MultiEraValue.holding : MultiEraValue → Holding
  | .byron n => lovelaceHolding n
  | .alonzoCompatible v => v.holding
  | .conway v => v.holding

/-- Some lovelace, and no asset in a quantity of zero. -/
def MultiEraValue.Positive : MultiEraValue → Prop
  | .byron n => 0 < toInt n
  | .alonzoCompatible v => v.Positive
  | .conway v => v.Positive

theorem MultiEraValue.Positive.lovelace_pos {v : MultiEraValue} (h : v.Positive) : 0 < v.holding.1 := by
  rcases v with n | v | v
  · exact h
  · exact h.1
  · exact h.1

/-- What an input spends: nothing when the UTxO map does not have it. -/
def inputHolding (utxos : UTxOs) (input : TransactionInput) : Holding :=
  (utxos (.alonzoCompatible input)).elim 0 fun output => output.value.holding

theorem inputHolding_eq {utxos : UTxOs} {input : TransactionInput} {output : MultiEraOutput}
    (h : utxos (.alonzoCompatible input) = some output) : inputHolding utxos input = output.value.holding := by
  rw [inputHolding, h, Option.elim_some]

/-! ### The gap between the list and its set -/

/-- What a transaction moves: the inputs it spends, what else it takes in, and what it puts out. -/
structure Flow where
  inputs : List TransactionInput
  income : Holding
  produced : Holding

namespace Flow
variable {flow : Flow} {utxos : UTxOs}

/-- What the inputs of the list hold, each as often as it is there, and the other income. -/
def consumed (flow : Flow) (utxos : UTxOs) : Holding :=
  (flow.inputs.map (inputHolding utxos)).sum + flow.income

/-- What the occurrences of inputs after their first hold. -/
def countedAgain (flow : Flow) (utxos : UTxOs) : Holding := Tally.countedAgain (inputHolding utxos) flow.inputs

/-- Preservation of value: every distinct input counts once. -/
def Balanced (flow : Flow) (utxos : UTxOs) : Prop :=
  Tally.distinct (inputHolding utxos) flow.inputs + flow.income = flow.produced

theorem balanced_iff_countedAgain :
    flow.Balanced utxos ↔ flow.countedAgain utxos = flow.consumed utxos - flow.produced :=
  Tally.distinct_add_eq_iff

/-- What repeated inputs count again is no lovelace, and of every asset what the carries of the two
totals differ by. -/
def RepeatsMatchCarries (flow : Flow) (utxos : UTxOs) : Prop :=
  (flow.countedAgain utxos).1 = 0 ∧ ∀ p a, (flow.countedAgain utxos).2 p a =
    wordCard * ((flow.consumed utxos).2 p a / wordCard - flow.produced.2 p a / wordCard)

/-- Totals that are congruent over the list balance over its distinct entries exactly when the repeats
match the carries. -/
theorem balanced_iff (h : Congruent (flow.consumed utxos) flow.produced) :
    flow.Balanced utxos ↔ flow.RepeatsMatchCarries utxos := by
  obtain ⟨hl, ha⟩ := h
  rw [balanced_iff_countedAgain, RepeatsMatchCarries, Prod.ext_iff, Prod.fst_sub, hl, sub_self]
  refine and_congr_right fun _ => ?_
  simp only [funext_iff, Prod.snd_sub, Pi.sub_apply, Tally.sub_eq_carries (ha _ _)]

theorem countedAgain_fst : (flow.countedAgain utxos).1 =
    Tally.countedAgain (fun i => (inputHolding utxos i).1) flow.inputs := by
  simp only [countedAgain, Tally.countedAgain, Prod.fst_sum, Prod.smul_fst]

/-- When every input has some lovelace, the repeats match the carries exactly when there are none, and
no asset's carries differ. -/
theorem repeatsMatchCarries_iff (hpos : ∀ i ∈ flow.inputs, 0 < (inputHolding utxos i).1) :
    flow.RepeatsMatchCarries utxos ↔ flow.inputs.Nodup ∧
      ∀ p a, (flow.consumed utxos).2 p a / wordCard = flow.produced.2 p a / wordCard := by
  rw [RepeatsMatchCarries, countedAgain_fst, Tally.countedAgain_eq_zero_iff hpos]
  refine and_congr_right fun hnd => ?_
  rw [countedAgain, Tally.countedAgain_of_nodup _ hnd]
  have hcard : wordCard ≠ 0 := by decide
  refine forall₂_congr fun p a => ?_
  rw [Prod.snd_zero, Pi.zero_apply, Pi.zero_apply, eq_comm, mul_eq_zero, or_iff_right hcard, sub_eq_zero]

end Flow

/-- A bundle of one asset. -/
def singleAsset {A : Type} (policy : PolicyId) (name : AssetName) (n : A) : Multiasset A :=
  (∅ : Multiasset A).insert policy ((∅ : FinMap AssetName A).insert name n)

/-! ### Conway -/

theorem positiveAssets_nameQty (names : FinMap AssetName Coin) (a : AssetName) :
    nameQty (MultiEraValue.positiveAssets names) a = nameQty names a := by
  simp only [nameQty, FinMap.look, MultiEraValue.positiveAssets, ExtTreeMap.getElem?_filterMap']
  cases names[a]? with
  | none => rfl
  | some n =>
    by_cases hn : n = 0
    · subst hn
      rfl
    · simp [PositiveCoin.tryFrom, hn, Quantity.amount]

/-- `into_conway` drops only what is nothing. -/
theorem intoConway_represents (v : MultiEraValue) : Represents v.intoConway v.holding := by
  rcases v with n | v | v
  · exact represents_coin n
  · cases v with
    | coin n => exact represents_coin n
    | multiasset n assets =>
      have hkept : ∀ p a, qty (assets.filterMap fun _ names =>
          if (MultiEraValue.positiveAssets names).isEmpty then none
          else some (MultiEraValue.positiveAssets names)) p a = qty assets p a := fun p a =>
        qty_filterMap (fun names => (nameQty_dropEmpty _ a).trans (positiveAssets_nameQty names a)) p
      simp only [MultiEraValue.intoConway]
      split
      · next hempty =>
        refine ⟨rfl, fun p a => ?_⟩
        rw [ExtTreeMap.isEmpty_iff.1 hempty] at hkept
        rw [assets_coin, hkept]
        rfl
      · exact ⟨rfl, fun p a => by rw [assets_multiasset, hkept]; rfl⟩
  · exact represents_holding v

namespace Conway
variable {pr : Profile} {body : TransactionBody} {utxos : UTxOs}

/-- What an output of the transaction holds. -/
def outputHolding : TransactionOutput → Holding
  | .legacy o => o.amount.holding
  | .postAlonzo o => o.value.holding

/-- What a body moves. -/
def flow (body : TransactionBody) : Flow where
  inputs := body.inputs
  income := mintHolding body.mint
  produced := (body.outputs.map outputHolding).sum + lovelaceHolding body.fee

theorem outputValue_represents {o : TransactionOutput} {v : ConwayValue} (h : outputValue o = .ok v) :
    Represents v (outputHolding o) := by
  rcases o with ⟨_, amount, _⟩ | o
  · cases amount with
    | coin n =>
      obtain rfl : GenValue.coin n = v := by simpa [outputValue, legacyValue] using h
      exact represents_coin n
    | multiasset n assets =>
      obtain ⟨ma, hma, h⟩ := Outcome.bind_eq_ok.1 h
      obtain rfl : GenValue.multiasset n ma = v := by simpa using h
      refine ⟨rfl, fun p a => qty_mapM_modEq (fun x y hxy => ?_) hma p a⟩
      exact congrArg (toInt · % wordCard) (tryFrom_val (Outcome.unwrap_eq_ok.1 hxy))
  · obtain rfl : o.value = v := by simpa [outputValue] using h
    exact represents_holding _

theorem valFromMultiEraOutput_represents {input : TransactionInput} {output : MultiEraOutput}
    (h : utxos (.alonzoCompatible input) = some output) :
    Represents (valFromMultiEraOutput output) (inputHolding utxos input) := by
  rw [inputHolding_eq h]
  exact intoConway_represents _

theorem getConsumed_represents {v : ConwayValue} (h : getConsumed pr body utxos = .ok v) :
    Represents v (body.inputs.map (inputHolding utxos)).sum := by
  rw [getConsumed] at h
  split at h
  · cases h
  · next first rest hin =>
    obtain ⟨output, ho, h⟩ := Outcome.bind_eq_ok.1 h
    have hfirst := valFromMultiEraOutput_represents (Outcome.ofOption_eq_ok.1 ho)
    rw [hin, List.map_cons, List.sum_cons]
    refine fold_represents (fun w i w' x hw hx => ?_) hfirst h
    obtain ⟨output, ho, hw⟩ := Outcome.bind_eq_ok.1 hw
    exact conwayAddValues_represents hw hx (valFromMultiEraOutput_represents (Outcome.ofOption_eq_ok.1 ho))

theorem getProduced_represents {v : ConwayValue} (h : getProduced pr body = .ok v) :
    Represents v (body.outputs.map outputHolding).sum := by
  rw [getProduced] at h
  split at h
  · cases h
  · next first rest hout =>
    obtain ⟨res, hres, h⟩ := Outcome.bind_eq_ok.1 h
    rw [hout, List.map_cons, List.sum_cons]
    refine fold_represents (fun w o w' x hw hx => ?_) (outputValue_represents hres) h
    obtain ⟨val, hval, hw⟩ := Outcome.bind_eq_ok.1 hw
    exact conwayAddValues_represents hw hx (outputValue_represents hval)

/-- What the check establishes. -/
theorem checkPreservationOfValue_congruent (h : checkPreservationOfValue pr body utxos = .ok ()) :
    Congruent ((flow body).consumed utxos) (flow body).produced := by
  obtain ⟨input, hin, h⟩ := Outcome.bind_eq_ok.1 h
  obtain ⟨sum, hsum, h⟩ := Outcome.bind_eq_ok.1 h
  obtain ⟨output, hout, h⟩ := Outcome.bind_eq_ok.1 h
  obtain ⟨input', hmint, h⟩ := Outcome.bind_eq_ok.1 h
  have hin := getConsumed_represents hin
  have hout := conwayAddValues_represents hout (getProduced_represents hsum) (represents_coin body.fee)
  exact Represents.congruent (conwayAddMint_represents hmint hin) hout
    (conwayValuesAreEqual_holding (Outcome.ensure_eq_ok.1 h))

theorem getConsumed_mem {v : ConwayValue} (h : getConsumed pr body utxos = .ok v) {i : TransactionInput}
    (hi : i ∈ body.inputs) : ∃ output, utxos (.alonzoCompatible i) = some output := by
  rw [getConsumed] at h
  split at h
  · cases h
  · next first rest hin =>
    obtain ⟨output, ho, h⟩ := Outcome.bind_eq_ok.1 h
    rw [hin] at hi
    rcases List.mem_cons.1 hi with rfl | hi
    · exact ⟨output, Outcome.ofOption_eq_ok.1 ho⟩
    · obtain ⟨w, w', hw⟩ := Outcome.fold_mem_ok h i hi
      obtain ⟨output, ho, -⟩ := Outcome.bind_eq_ok.1 hw
      exact ⟨output, Outcome.ofOption_eq_ok.1 ho⟩

theorem outputHolding_nonneg (o : TransactionOutput) (p : PolicyId) (a : AssetName) :
    0 ≤ (outputHolding o).2 p a := by
  cases o with
  | legacy o => exact qty_nonneg (fun x => MachineInt.lo_le x) _ p a
  | postAlonzo o => exact qty_nonneg (fun x => MachineInt.lo_le x.val) _ p a

theorem produced_nonneg (body : TransactionBody) (p : PolicyId) (a : AssetName) :
    0 ≤ (flow body).produced.2 p a := by
  have hsum : ∀ os : List TransactionOutput, 0 ≤ (os.map outputHolding).sum.2 p a := fun os => by
    induction os with
    | nil => exact le_rfl
    | cons o os ih => exact add_nonneg (outputHolding_nonneg o p a) ih
  exact add_nonneg (hsum body.outputs) le_rfl

/-- Every output of the UTxO map carries lovelace, and positive quantities. -/
def PositiveOutputs (utxos : UTxOs) : Prop :=
  ∀ i output, utxos i = some output → output.value.Positive

/-- No asset is burned that no input holds any of. -/
def BurnsHeld (body : TransactionBody) (utxos : UTxOs) : Prop :=
  ∀ p a, (∀ i ∈ body.inputs, (inputHolding utxos i).2 p a = 0) → 0 ≤ (mintHolding body.mint).2 p a

theorem burnsHeld_of_balanced (h : (flow body).Balanced utxos) : BurnsHeld body utxos := by
  intro p a hnone
  have hheld : (Tally.distinct (inputHolding utxos) body.inputs).2 p a = 0 := by
    simp only [Tally.distinct, Prod.snd_sum, Finset.sum_apply]
    exact Finset.sum_eq_zero fun i hi => hnone i (List.mem_toFinset.1 hi)
  have hbal := congrFun (congrFun (congrArg Prod.snd h) p) a
  have hminted : (mintHolding body.mint).2 p a = (flow body).produced.2 p a := by
    rw [← hbal, Prod.snd_add, Pi.add_apply, Pi.add_apply]
    exact (zero_add _).symm.trans (congrArg (· + _) hheld.symm)
  rw [hminted]
  exact produced_nonneg body p a

/-- An accepted body preserves value, repeats no input and burns only what it holds, exactly when it
repeats no input and no asset's total leaves the range of `u64` on one side only. -/
theorem checkPreservationOfValue_balanced_iff (hpos : PositiveOutputs utxos)
    (h : checkPreservationOfValue pr body utxos = .ok ()) :
    ((flow body).Balanced utxos ∧ body.inputs.Nodup ∧ BurnsHeld body utxos) ↔
      body.inputs.Nodup ∧
        ∀ p a, ((flow body).consumed utxos).2 p a / wordCard = (flow body).produced.2 p a / wordCard := by
  have hcong := checkPreservationOfValue_congruent h
  have hin : ∀ i ∈ body.inputs, 0 < (inputHolding utxos i).1 := fun i hi => by
    obtain ⟨v, hv, -⟩ := Outcome.bind_eq_ok.1 h
    obtain ⟨output, ho⟩ := getConsumed_mem hv hi
    rw [inputHolding_eq ho]
    exact (hpos _ _ ho).lovelace_pos
  have hbal := (Flow.balanced_iff hcong).trans (Flow.repeatsMatchCarries_iff hin)
  exact ⟨fun hb => hbal.1 hb.1, fun hc => ⟨hbal.2 hc, hc.1, burnsHeld_of_balanced (hbal.2 hc)⟩⟩

/-- A body with the given inputs, outputs, fee and mint field, and nothing else. -/
def bodyOf (inputs : List TransactionInput) (outputs : List TransactionOutput) (fee : Coin) (mint : Option Mint) :
    TransactionBody :=
  { inputs, outputs, fee, mint }

/-- A UTxO map with one output of lovelace only, at the input `⟨0, 0⟩`. -/
def coinUtxos (n : Coin) : UTxOs := fun i =>
  if i = .alonzoCompatible ⟨0, 0⟩ then some (.conway (.postAlonzo ⟨[], .coin n, none, none⟩)) else none

theorem coinUtxos_positive {n : Coin} (hn : 0 < toInt n) : PositiveOutputs (coinUtxos n) := by
  intro i output h
  rw [coinUtxos] at h
  split at h
  · obtain rfl := Option.some.inj h
    exact ⟨hn, fun p names hp => by simp at hp⟩
  · cases h

/-- A UTxO map with one output of 10 lovelace and 5 of an asset, at the input `⟨0, 0⟩`. -/
def assetUtxos : UTxOs := fun i =>
  if i = .alonzoCompatible ⟨0, 0⟩ then
    some (.conway (.postAlonzo ⟨[], .multiasset 10 (singleAsset 7 [1] ⟨5⟩), none, none⟩)) else none

theorem assetUtxos_positive : PositiveOutputs assetUtxos := by
  intro i output h
  rw [assetUtxos] at h
  split at h
  · obtain rfl := Option.some.inj h
    refine ⟨by decide, fun p names hp a n hn => ?_⟩
    rw [show GenValue.assets _ = singleAsset 7 [1] (⟨5⟩ : PositiveCoin) from rfl, singleAsset, FinMap.getElem?_insert_ite] at hp
    split at hp
    · obtain rfl := Option.some.inj hp
      rw [FinMap.getElem?_insert_ite] at hn
      split at hn
      · obtain rfl := Option.some.inj hn
        decide
      · simp at hn
    · simp at hp
  · cases h

/-- A payment of 9 lovelace and 3 of the asset at a fee of 1. The other 2 are burned. -/
def payment : TransactionBody :=
  bodyOf [⟨0, 0⟩] [.postAlonzo ⟨[], .multiasset 9 (singleAsset 7 [1] ⟨3⟩), none, none⟩] 1
    (some (singleAsset 7 [1] ⟨-2, by decide⟩))

theorem payment_balanced_iff : PositiveOutputs assetUtxos ∧
    checkPreservationOfValue .release payment assetUtxos = .ok () ∧
    (((flow payment).Balanced assetUtxos ∧ payment.inputs.Nodup ∧ BurnsHeld payment assetUtxos) ↔
      payment.inputs.Nodup ∧ ∀ p a, ((flow payment).consumed assetUtxos).2 p a / wordCard =
        (flow payment).produced.2 p a / wordCard) :=
  have hok : checkPreservationOfValue .release payment assetUtxos = .ok () := by decide +kernel
  ⟨assetUtxos_positive, hok, checkPreservationOfValue_balanced_iff assetUtxos_positive hok⟩

/-- Burns 5 of an asset that no input holds, and pays out `2 ^ 64 - 5` of it. -/
def burn : TransactionBody :=
  bodyOf [⟨0, 0⟩] [.postAlonzo ⟨[], .multiasset 9 (singleAsset 7 [1] ⟨18446744073709551611⟩), none, none⟩] 1
    (some (singleAsset 7 [1] ⟨-5, by decide⟩))

/-- The minted `-5` becomes `2 ^ 64 - 5` when it is read as a `u64`, and the burn is accepted. -/
theorem burn_accepted : PositiveOutputs (coinUtxos 10) ∧
    (∀ pr, checkPreservationOfValue pr burn (coinUtxos 10) = .ok ()) ∧
    ¬ (flow burn).Balanced (coinUtxos 10) ∧ ¬ BurnsHeld burn (coinUtxos 10) := by
  refine ⟨coinUtxos_positive (by decide), fun pr => by cases pr <;> rfl, fun h => ?_, fun h => ?_⟩
  · have hbal := congrFun (congrFun (congrArg Prod.snd h) 7) [1]
    revert hbal
    decide
  · have hheld := h 7 [1] (by decide)
    revert hheld
    decide

end Conway

/-! ### Alonzo and Babbage -/

theorem emptyValue_represents : Represents emptyValue 0 := ⟨rfl, fun _ _ => by simp [emptyValue]⟩

/-- The end of `check_preservation_of_value`, which the two eras have in common. -/
theorem congruent_of_valuesAreEqual {pr : Profile} {e e' : ValidationError} {input input' sum output : Value}
    {hi ho : Holding} {fee : Coin} {mint : Option (Multiasset Int64)}
    (hin : Represents input hi) (hsum : Represents sum ho) (hout : addValues pr sum (.coin fee) e = .ok output)
    (hmint : addMint pr input mint e' = .ok input') (heq : valuesAreEqual input' output = true) :
    Congruent (hi + mintHolding mint) (ho + lovelaceHolding fee) :=
  (addMint_represents hmint hin).congruent (addValues_represents hout hsum (represents_coin fee))
    (valuesAreEqual_holding heq)

namespace Alonzo
variable {pr : Profile} {body : TransactionBody} {utxos : UTxOs}

/-- What a body moves. -/
def flow (body : TransactionBody) : Flow where
  inputs := body.inputs
  income := mintHolding body.mint
  produced := (body.outputs.map fun o => o.amount.holding).sum + lovelaceHolding body.fee

theorem inputValue_represents {output : MultiEraOutput} {v : Value} (h : inputValue output = some v) :
    Represents v output.value.holding := by
  cases output with
  | alonzoCompatible o era =>
    obtain rfl : o.amount = v := by simpa [inputValue, MultiEraOutput.asAlonzo] using h
    exact represents_holding _
  | byron o =>
    obtain rfl : GenValue.coin o.amount = v := by
      simpa [inputValue, MultiEraOutput.asAlonzo, MultiEraOutput.asByron] using h
    exact represents_coin _
  | babbage o => simp [inputValue, MultiEraOutput.asAlonzo, MultiEraOutput.asByron] at h
  | conway o => simp [inputValue, MultiEraOutput.asAlonzo, MultiEraOutput.asByron] at h

theorem getConsumed_represents {v : Value} (h : getConsumed pr body utxos = .ok v) :
    Represents v (body.inputs.map (inputHolding utxos)).sum := by
  rw [← zero_add (List.sum _)]
  refine fold_represents (fun w i w' x hw hx => ?_) emptyValue_represents h
  obtain ⟨output, ho, hw⟩ := Outcome.bind_eq_ok.1 hw
  obtain ⟨val, hval, hw⟩ := Outcome.bind_eq_ok.1 hw
  rw [inputHolding_eq (Outcome.ofOption_eq_ok.1 ho)]
  exact addValues_represents hw hx (inputValue_represents (Outcome.ofOption_eq_ok.1 hval))

theorem getProduced_represents {v : Value} (h : getProduced pr body = .ok v) :
    Represents v (body.outputs.map fun o => o.amount.holding).sum := by
  rw [← zero_add (List.sum _)]
  refine fold_represents (fun w o w' x hw hx => ?_) emptyValue_represents h
  exact addValues_represents hw hx (represents_holding _)

/-- What the check establishes. -/
theorem checkPreservationOfValue_congruent (h : checkPreservationOfValue pr body utxos = .ok ()) :
    Congruent ((flow body).consumed utxos) (flow body).produced := by
  obtain ⟨input, hin, h⟩ := Outcome.bind_eq_ok.1 h
  obtain ⟨sum, hsum, h⟩ := Outcome.bind_eq_ok.1 h
  obtain ⟨output, hout, h⟩ := Outcome.bind_eq_ok.1 h
  obtain ⟨input', hmint, h⟩ := Outcome.bind_eq_ok.1 h
  exact congruent_of_valuesAreEqual (getConsumed_represents hin) (getProduced_represents hsum) hout hmint
    (Outcome.ensure_eq_ok.1 h)

end Alonzo

namespace Babbage
variable {pr : Profile} {body : TransactionBody} {utxos : UTxOs}

/-- What a body moves. -/
def flow (body : TransactionBody) : Flow where
  inputs := body.inputs
  income := mintHolding body.mint
  produced := (body.outputs.map fun o => (outputValue o).holding).sum + lovelaceHolding body.fee

theorem valFromMultiEraOutput_represents {output : MultiEraOutput} {v : Value}
    (h : valFromMultiEraOutput output = .ok v) : Represents v output.value.holding := by
  cases output with
  | byron o =>
    obtain rfl : GenValue.coin o.amount = v := by simpa [valFromMultiEraOutput] using h
    exact represents_coin _
  | alonzoCompatible o era =>
    obtain rfl : o.amount = v := by simpa [valFromMultiEraOutput] using h
    exact represents_holding _
  | babbage o =>
    obtain rfl : outputValue o = v := by simpa [valFromMultiEraOutput] using h
    cases o <;> exact represents_holding _
  | conway o => cases h

theorem getConsumed_represents {v : Value} (h : getConsumed pr body utxos = .ok v) :
    Represents v (body.inputs.map (inputHolding utxos)).sum := by
  rw [← zero_add (List.sum _)]
  refine fold_represents (fun w i w' x hw hx => ?_) emptyValue_represents h
  obtain ⟨output, ho, hw⟩ := Outcome.bind_eq_ok.1 hw
  obtain ⟨val, hval, hw⟩ := Outcome.bind_eq_ok.1 hw
  rw [inputHolding_eq (Outcome.ofOption_eq_ok.1 ho)]
  exact addValues_represents hw hx (valFromMultiEraOutput_represents hval)

theorem getProduced_represents {v : Value} (h : getProduced pr body = .ok v) :
    Represents v (body.outputs.map fun o => (outputValue o).holding).sum := by
  rw [← zero_add (List.sum _)]
  refine fold_represents (fun w o w' x hw hx => ?_) emptyValue_represents h
  exact addValues_represents hw hx (represents_holding _)

/-- What the check establishes. -/
theorem checkPreservationOfValue_congruent (h : checkPreservationOfValue pr body utxos = .ok ()) :
    Congruent ((flow body).consumed utxos) (flow body).produced := by
  obtain ⟨input, hin, h⟩ := Outcome.bind_eq_ok.1 h
  obtain ⟨sum, hsum, h⟩ := Outcome.bind_eq_ok.1 h
  obtain ⟨output, hout, h⟩ := Outcome.bind_eq_ok.1 h
  obtain ⟨input', hmint, h⟩ := Outcome.bind_eq_ok.1 h
  exact congruent_of_valuesAreEqual (getConsumed_represents hin) (getProduced_represents hsum) hout hmint
    (Outcome.ensure_eq_ok.1 h)

end Babbage

/-- Accepted Alonzo and Babbage bodies preserve value exactly when what repeated inputs count again is
no lovelace, and of every asset what the carries of the two totals differ by. -/
theorem alonzo_babbage_balanced_iff (pr : Profile) (utxos : UTxOs) :
    (∀ body : Alonzo.TransactionBody, Alonzo.checkPreservationOfValue pr body utxos = .ok () →
      ((Alonzo.flow body).Balanced utxos ↔ (Alonzo.flow body).RepeatsMatchCarries utxos)) ∧
    (∀ body : Babbage.TransactionBody, Babbage.checkPreservationOfValue pr body utxos = .ok () →
      ((Babbage.flow body).Balanced utxos ↔ (Babbage.flow body).RepeatsMatchCarries utxos)) :=
  ⟨fun _ h => Flow.balanced_iff (Alonzo.checkPreservationOfValue_congruent h),
    fun _ h => Flow.balanced_iff (Babbage.checkPreservationOfValue_congruent h)⟩

namespace Alonzo

/-- A body with the given inputs and outputs, a fee of 1, and nothing else. -/
def bodyOf (inputs : List TransactionInput) (outputs : List TransactionOutput) : TransactionBody :=
  { inputs, outputs, fee := 1 }

end Alonzo

namespace Babbage

/-- A body with the given inputs and outputs, a fee of 1, and nothing else. -/
def bodyOf (inputs : List TransactionInput) (outputs : List TransactionOutput) : TransactionBody :=
  { inputs, outputs, fee := 1 }

end Babbage

/-- An output of 10 lovelace and 2 of an asset, at the input `⟨0, 0⟩`. -/
def assetUtxos : UTxOs := fun i =>
  if i = .alonzoCompatible ⟨0, 0⟩ then
    some (.alonzoCompatible ⟨[], .multiasset 10 (singleAsset 7 [1] 2), none⟩ .mary)
  else none

/-- Outputs that keep the 2 of the asset. -/
def honestOutputs : List Alonzo.TransactionOutput := [⟨[], .multiasset 9 (singleAsset 7 [1] 2), none⟩]

/-- The Alonzo body that pays them. -/
def honestAlonzo : Alonzo.TransactionBody := Alonzo.bodyOf [⟨0, 0⟩] honestOutputs

/-- The Babbage body that pays them. -/
def honestBabbage : Babbage.TransactionBody := Babbage.bodyOf [⟨0, 0⟩] (honestOutputs.map .legacy)

theorem honest_balanced_iff :
    Alonzo.checkPreservationOfValue .debug honestAlonzo assetUtxos = .ok () ∧
    ((Alonzo.flow honestAlonzo).Balanced assetUtxos ↔
      (Alonzo.flow honestAlonzo).RepeatsMatchCarries assetUtxos) ∧
    Babbage.checkPreservationOfValue .debug honestBabbage assetUtxos = .ok () ∧
    ((Babbage.flow honestBabbage).Balanced assetUtxos ↔
      (Babbage.flow honestBabbage).RepeatsMatchCarries assetUtxos) :=
  ⟨rfl, (alonzo_babbage_balanced_iff .debug assetUtxos).1 honestAlonzo rfl,
    rfl, (alonzo_babbage_balanced_iff .debug assetUtxos).2 honestBabbage rfl⟩

/-- Outputs of 5 and of `2 ^ 64 - 3` of the asset. -/
def inflatedOutputs : List Alonzo.TransactionOutput :=
  [⟨[], .multiasset 4 (singleAsset 7 [1] 5), none⟩,
    ⟨[], .multiasset 5 (singleAsset 7 [1] 18446744073709551613), none⟩]

/-- The Alonzo body that pays them. -/
def inflatedAlonzo : Alonzo.TransactionBody := Alonzo.bodyOf [⟨0, 0⟩] inflatedOutputs

/-- The Babbage body that pays them. -/
def inflatedBabbage : Babbage.TransactionBody := Babbage.bodyOf [⟨0, 0⟩] (inflatedOutputs.map .legacy)

/-- Read as an `i64`, `2 ^ 64 - 3` is `-3`, and the two outputs together compare equal to the 2 that
were spent. -/
theorem inflated_accepted :
    (∀ pr, Alonzo.checkPreservationOfValue pr inflatedAlonzo assetUtxos = .ok () ∧
      Babbage.checkPreservationOfValue pr inflatedBabbage assetUtxos = .ok ()) ∧
    ¬ (Alonzo.flow inflatedAlonzo).Balanced assetUtxos ∧
    ¬ (Babbage.flow inflatedBabbage).Balanced assetUtxos := by
  refine ⟨fun pr => by cases pr <;> exact ⟨rfl, rfl⟩, fun h => ?_, fun h => ?_⟩
  · have hbal := congrFun (congrFun (congrArg Prod.snd h) 7) [1]
    revert hbal
    decide
  · have hbal := congrFun (congrFun (congrArg Prod.snd h) 7) [1]
    revert hbal
    decide

end Pallas
