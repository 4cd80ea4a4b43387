import Pallas.Lib.Builds
import Pallas.Validate.Balance
import Pallas.Validate.ValueEquality
import Pallas.Validate.ValueSums

/-!
# The minimum fee and the collateral of Conway (`phase1/conway.rs`)

`check_min_fee` computes the fee that is asked for in a `u32`, and `check_collaterals_assets` multiplies in a `u64` what it
compares; the lovelace of the collaterals is added with a check, and their assets without one. `FeeChecksFit` says of the
transaction and of the parameters that none of these operations leaves its type, and only then are both checks what they
should be.
-/

namespace Pallas.Conway
open Std MachineInt

variable {pr : Profile} {err : ValidationError}

/-! ### One addition in a debug build -/

theorem addPositiveAssets_sure (f s : Multiasset PositiveCoin) : (addPositiveAssets .debug err f s).Sure :=
  (conwayAddMultiassetValues_sure _ _).bind fun sum => conwayCoerceToCoin_sure sum

theorem addPositiveAssets_debug {f s : Multiasset PositiveCoin} :
    addPositiveAssets .debug err f s ≠ .panic ↔ PositiveSums f s := by
  constructor
  · intro hne
    obtain ⟨r, hr⟩ := (addPositiveAssets_sure f s).isOk.1 hne
    obtain ⟨sum, hsum, hr⟩ := Outcome.bind_eq_ok.1 hr
    refine positiveSums_iff.2 ⟨(conwayAddMultiassetValues_ok.1 ⟨sum, hsum⟩).resolve_left nofun, fun p a m hm => ?_⟩
    rw [← (conwayAddMultiassetValues_entry hsum).2] at hm
    exact conwayCoerceToCoin_ok.1 ⟨r, hr⟩ p a m hm
  · intro hsums
    rcases (@addPositiveAssets_sum err f s).2 hsums .debug with ⟨r, hr, -⟩ | herr
    · rw [hr]
      nofun
    · rw [herr]
      nofun

/-- Two values have bundles to be added, and these do not add up. -/
def Clash (first second : ConwayValue) :
    Prop := ¬ first.Bare ∧ ¬ second.Bare ∧ ¬ PositiveSums first.assets second.assets

theorem conwayAddValues_debug {first second : ConwayValue} :
    (¬ LovelaceFits first second ∧ conwayAddValues .debug first second err = .err err) ∨
    (LovelaceFits first second ∧ Clash first second ∧ conwayAddValues .debug first second err = .panic) ∨
    (LovelaceFits first second ∧ ¬ Clash first second ∧
      ∃ sum, conwayAddValues .debug first second err = .ok sum ∧ sum.holding = first.holding + second.holding) := by
  by_cases hlove : LovelaceFits first second
  · refine .inr ?_
    obtain ⟨n, hn, hsum⟩ := addLovelace_fits err hlove
    have hcoin : ∀ v : ConwayValue, toInt v.lovelace = toInt n →
        (∀ p a, qty v.assets p a = qty first.assets p a + qty second.assets p a) →
        v.holding = first.holding + second.holding := fun v hv hqty =>
      Prod.ext (hv.trans hsum) (funext fun p => funext fun a => hqty p a)
    rcases first with f | ⟨f, fma⟩
    · refine .inr ⟨hlove, fun h => h.1 trivial, ?_⟩
      rcases second with s | ⟨s, sma⟩
      · exact ⟨.coin n, by simp_all [conwayAddValues, genAddValues], hcoin _ rfl fun p a => by simp⟩
      · exact ⟨.multiasset n sma, by simp_all [conwayAddValues, genAddValues], hcoin _ rfl fun p a => by simp⟩
    · rcases second with s | ⟨s, sma⟩
      · refine .inr ⟨hlove, fun h => h.2.1 trivial, ?_⟩
        exact ⟨.multiasset n fma, by simp_all [conwayAddValues, genAddValues], hcoin _ rfl fun p a => by simp⟩
      · rw [lovelace_multiasset, lovelace_multiasset] at hn
        by_cases hsums : PositiveSums fma sma
        · refine .inr ⟨hlove, fun h => h.2.2 hsums, ?_⟩
          rcases (@addPositiveAssets_sum err fma sma).2 hsums .debug with ⟨r, hr, hqty⟩ | herr
          · refine ⟨.multiasset n r, by rw [conwayAddValues, genAddValues, hn, Outcome.ok_bind, hr, Outcome.ok_bind],
              hcoin _ rfl fun p a => ?_⟩
            exact congrFun (congrFun hqty p) a
          · exact absurd herr (addPositiveAssets_sure fma sma err)
        · refine .inl ⟨hlove, ⟨id, id, hsums⟩, ?_⟩
          have hpanic : addPositiveAssets .debug err fma sma = .panic :=
            Classical.byContradiction fun hne => hsums (addPositiveAssets_debug.1 hne)
          rw [conwayAddValues, genAddValues, hn, Outcome.ok_bind, hpanic, Outcome.panic_bind]
  · refine .inl ⟨hlove, ?_⟩
    have hover := addLovelace_over err hlove
    cases first <;> cases second <;> simp_all [conwayAddValues, genAddValues]

/-! ### A running sum -/

/-- What the values hold together. -/
def total (vs : List ConwayValue) : Holding := (vs.map GenValue.holding).sum

/-- The bundle of some value lists the asset. -/
def Lists (vs : List ConwayValue) (p : PolicyId) (a : AssetName) : Prop := ∃ v ∈ vs, (listedQty v.assets p a).isSome

/-- A value that stands for the sum of the values, with a bundle and its policies and assets where one of them has these. -/
structure IsSum (vs : List ConwayValue) (sum : ConwayValue) : Prop where
  holding : sum.holding = total vs
  bare : sum.Bare ↔ ∀ v ∈ vs, v.Bare
  policies : ∀ p, p ∈ sum.assets ↔ ∃ v ∈ vs, p ∈ v.assets
  lists : ∀ p a, (listedQty sum.assets p a).isSome ↔ Lists vs p a

/-- The next value can be added to the sum of those before it: the lovelace overflows, which is refused, or one of the sides
has no bundle, or of every asset in the bundles there is some, and not too much. -/
def NextFits (before : List ConwayValue) (v : ConwayValue) : Prop :=
  (total (before ++ [v])).1 < 2 ^ 64 → (∃ w ∈ before, ¬ w.Bare) → ¬ v.Bare →
    ∀ p a, Lists (before ++ [v]) p a → 0 < (total (before ++ [v])).2 p a ∧ (total (before ++ [v])).2 p a < 2 ^ 64

/-- Every value can be added to the sum of those before it. -/
def SumsFit (before : List ConwayValue) : List ConwayValue → Prop
  | [] => True
  | v :: vs => NextFits before v ∧ SumsFit (before ++ [v]) vs

variable {vs before : List ConwayValue} {v sum : ConwayValue}

theorem total_append (vs ws : List ConwayValue) : total (vs ++ ws) = total vs + total ws := by
  rw [total, total, total, List.map_append, List.sum_append]

theorem total_singleton (v : ConwayValue) : total [v] = v.holding := by
  rw [total, List.map_singleton, List.sum_singleton]

theorem total_lovelace_nonneg (vs : List ConwayValue) : 0 ≤ (total vs).1 := by
  induction vs with
  | nil => exact le_rfl
  | cons v vs ih => exact add_nonneg (lo_le v.lovelace) ih

theorem isSum_singleton (v : ConwayValue) : IsSum [v] v :=
  ⟨(total_singleton v).symm, by simp, by simp, by simp [Lists]⟩

theorem IsSum.lovelaceFits (h : IsSum before sum) : LovelaceFits sum v ↔ (total (before ++ [v])).1 < 2 ^ 64 := by
  rw [total_append, total_singleton, ← h.holding]
  rfl

theorem IsSum.clash_iff (h : IsSum before sum) (hlove : LovelaceFits sum v) :
    Clash sum v ↔ ¬ NextFits before v := by
  have hbare : ¬ sum.Bare ↔ ∃ w ∈ before, ¬ w.Bare := by
    rw [h.bare]
    push Not
    rfl
  have hqty : ∀ p a, qty sum.assets p a + qty v.assets p a = (total (before ++ [v])).2 p a := fun p a => by
    rw [total_append, total_singleton, ← h.holding]
    rfl
  have hlists : ∀ p a, Lists (before ++ [v]) p a ↔
      (listedQty sum.assets p a).isSome ∨ (listedQty v.assets p a).isSome := by
    intro p a
    rw [h.lists]
    simp only [Lists, List.mem_append, List.mem_singleton, or_and_right, exists_or, exists_eq_left]
  have hsums : PositiveSums sum.assets v.assets ↔ ∀ p a, Lists (before ++ [v]) p a →
      0 < (total (before ++ [v])).2 p a ∧ (total (before ++ [v])).2 p a < 2 ^ 64 := by
    simp only [PositiveSums, hqty, hlists]
  rw [Clash, NextFits, ← h.lovelaceFits, ← hbare, ← hsums]
  constructor
  · rintro ⟨hs, hv, hclash⟩ hfits
    exact hclash (hfits hlove hs hv)
  · intro hclash
    push Not at hclash
    exact ⟨hclash.2.1, hclash.2.2⟩

theorem IsSum.add (h : IsSum before sum) {next : ConwayValue} (hadd : conwayAddValues pr sum v err = .ok next)
    (hheld : next.holding = sum.holding + v.holding) : IsSum (before ++ [v]) next := by
  obtain ⟨-, hadds, hbare⟩ := conwayAddValues_adds hadd
  refine ⟨?_, ?_, fun p => ?_, fun p a => ?_⟩
  · rw [hheld, total_append, total_singleton, h.holding]
  · rw [hbare, h.bare]
    simp [or_imp, forall_and]
  · rw [hadds.listed, h.policies]
    simp [or_and_right, exists_or]
  · have hsum := congrArg Option.isSome (hadds.sums p a)
    have hsome : (listedQty next.assets p a).isSome ↔
        (listedQty sum.assets p a).isSome ∨ (listedQty v.assets p a).isSome := by
      rw [Option.isSome_map] at hsum
      rw [hsum]
      cases listedQty sum.assets p a <;> cases listedQty v.assets p a <;> simp [Option.merge]
    rw [hsome, h.lists]
    simp [Lists, or_and_right, exists_or]

theorem sumsFit_of_over (h : ¬ (total before).1 < 2 ^ 64) : SumsFit before vs := by
  induction vs generalizing before with
  | nil => trivial
  | cons v vs ih =>
    have hover : ¬ (total (before ++ [v])).1 < 2 ^ 64 := by
      have hv := total_lovelace_nonneg [v]
      rw [total_append, Prod.fst_add]
      omega
    exact ⟨fun hlt => absurd hlt hover, ih hover⟩

/-! ### The collaterals -/

section collaterals
variable (utxos : UTxOs)

/-- The values of the inputs, up to the first that is not in the UTxO map. -/
def resolvedValues : List TransactionInput → List ConwayValue
  | [] => []
  | input :: inputs => match utxos (.alonzoCompatible input) with
    | some output => valFromMultiEraOutput output :: resolvedValues inputs
    | none => []

/-- Every input is in the UTxO map. -/
def AllResolved (inputs : List TransactionInput) : Prop := ∀ input ∈ inputs, (utxos (.alonzoCompatible input)).isSome

variable {utxos} {inputs : List TransactionInput} {acc : ConwayValue}

theorem allResolved_cons_none {input : TransactionInput} (h : utxos (.alonzoCompatible input) = none) :
    ¬ AllResolved utxos (input :: inputs) := fun hall => by
  have hsome := hall input (List.mem_cons_self ..)
  rw [h] at hsome
  cases hsome

theorem allResolved_cons_some {input : TransactionInput} {output : MultiEraOutput}
    (h : utxos (.alonzoCompatible input) = some output) :
    AllResolved utxos (input :: inputs) ↔ AllResolved utxos inputs := by
  simp [AllResolved, h]

/-- Summing the collaterals in a debug build: it does not panic where each of them fits, it then gives a sum where all of
them are found and the lovelace does not overflow, and only such a sum. -/
theorem fold_addCollateral (h : IsSum before acc) :
    (Outcome.fold (addCollateral .debug utxos) acc inputs ≠ .panic ↔ SumsFit before (resolvedValues utxos inputs)) ∧
    (SumsFit before (resolvedValues utxos inputs) → AllResolved utxos inputs →
      (total (before ++ resolvedValues utxos inputs)).1 < 2 ^ 64 →
        ∃ sum, Outcome.fold (addCollateral .debug utxos) acc inputs = .ok sum) ∧
    ∀ sum, Outcome.fold (addCollateral .debug utxos) acc inputs = .ok sum →
      AllResolved utxos inputs ∧ IsSum (before ++ resolvedValues utxos inputs) sum := by
  induction inputs generalizing before acc with
  | nil =>
    simp only [Outcome.fold_nil, resolvedValues, List.append_nil, SumsFit, Outcome.ok.injEq]
    exact ⟨iff_of_true nofun trivial, fun _ _ _ => ⟨acc, rfl⟩, fun sum hsum => ⟨nofun, hsum ▸ h⟩⟩
  | cons input inputs ih =>
    rw [Outcome.fold_cons, addCollateral, resolvedValues]
    cases hout : utxos (.alonzoCompatible input) with
    | none =>
      exact ⟨iff_of_true nofun trivial, fun _ hall => absurd hall (allResolved_cons_none hout), nofun⟩
    | some output =>
      simp only [allResolved_cons_some hout, SumsFit]
      rcases @conwayAddValues_debug (.postAlonzo .negativeValue) acc (valFromMultiEraOutput output) with
        ⟨hlove, herr⟩ | ⟨hlove, hclash, hpanic⟩ | ⟨hlove, hclash, next, hnext, hheld⟩
      · -- refused, and what comes after is not looked at
        have hover : ¬ (total (before ++ [valFromMultiEraOutput output])).1 < 2 ^ 64 := h.lovelaceFits.not.1 hlove
        rw [herr, Outcome.err_bind]
        refine ⟨iff_of_true nofun ⟨fun hlt => absurd hlt hover, sumsFit_of_over hover⟩, fun _ _ hlt => ?_, nofun⟩
        rw [List.append_cons, total_append, Prod.fst_add] at hlt
        have hrest := total_lovelace_nonneg (resolvedValues utxos inputs)
        omega
      · rw [hpanic, Outcome.panic_bind]
        have hnot := (h.clash_iff hlove).1 hclash
        exact ⟨iff_of_false (fun hne => hne rfl) fun hfits => hnot hfits.1, fun hfits => absurd hfits.1 hnot, nofun⟩
      · rw [hnext, Outcome.ok_bind, List.append_cons before _ (resolvedValues utxos inputs)]
        have hfits : NextFits before (valFromMultiEraOutput output) :=
          Classical.byContradiction fun hnot => hclash ((h.clash_iff hlove).2 hnot)
        simp only [hfits, true_and]
        exact ih (h.add hnext hheld)

theorem collateralInput_debug (hne : inputs ≠ []) :
    (collateralInput .debug utxos inputs ≠ .panic ↔ SumsFit [] (resolvedValues utxos inputs)) ∧
    (SumsFit [] (resolvedValues utxos inputs) → AllResolved utxos inputs →
      (total (resolvedValues utxos inputs)).1 < 2 ^ 64 → ∃ sum, collateralInput .debug utxos inputs = .ok sum) ∧
    ∀ sum, collateralInput .debug utxos inputs = .ok sum →
      AllResolved utxos inputs ∧ IsSum (resolvedValues utxos inputs) sum := by
  obtain ⟨input, inputs, rfl⟩ := List.exists_cons_of_ne_nil hne
  rw [collateralInput, resolvedValues]
  cases hout : utxos (.alonzoCompatible input) with
  | none => exact ⟨iff_of_true nofun trivial, fun _ hall => absurd hall (allResolved_cons_none hout), nofun⟩
  | some output =>
    have hfirst : NextFits [] (valFromMultiEraOutput output) := fun _ hbefore => by simp at hbefore
    simp only [allResolved_cons_some hout, SumsFit, Outcome.ofOption, Outcome.ok_bind, hfirst, true_and]
    exact fold_addCollateral (isSum_singleton _)

end collaterals

/-! ### What is left of the collaterals -/

/-- What is left when the return is taken from the values is lovelace, and not less than none of it; and there is a bundle to
compare the return's with. -/
structure OnlyLovelace (vs : List ConwayValue) (ret : ConwayValue) : Prop where
  lovelace : toInt ret.lovelace ≤ (total vs).1
  bare : (∀ v ∈ vs, v.Bare) → ret.Bare
  policies : ∀ p, (∃ v ∈ vs, p ∈ v.assets) ↔ p ∈ ret.assets
  quantities : ∀ p a, (total vs).2 p a = qty ret.assets p a

/-- The return of the collaterals, none being no lovelace. -/
def collateralReturn (body : TransactionBody) : Outcome ValidationError ConwayValue :=
  match body.collateralReturn with
  | some output => outputValue output
  | none => .ok (.coin 0)

/-- A return in the form of the earlier eras lists an asset of which there is nothing. -/
def ReturnsNothingOf (body : TransactionBody) : Prop :=
  ∃ o, body.collateralReturn = some (.legacy o) ∧ ∃ p a, listedQty o.amount.assets p a = some 0

theorem collateralReturn_eq_panic {body : TransactionBody} :
    collateralReturn body = .panic ↔ ReturnsNothingOf body := by
  have hmultiasset : ∀ (n : Coin) (ma : Multiasset Coin),
      legacyValue (.multiasset n ma) = .panic ↔ ∃ p a, listedQty ma p a = some 0 := by
    intro n ma
    have hcoerce : legacyValue (.multiasset n ma) =
        conwayCoerceToCoin ma (.postAlonzo .negativeValue) >>= fun ma => .ok (.multiasset n ma) := rfl
    have hok := (@conwayCoerceToCoin_ok (.postAlonzo .negativeValue) ma).not
    rw [← (conwayCoerceToCoin_sure ma).isOk, not_not] at hok
    rw [hcoerce, Outcome.bind_eq_panic, hok]
    simp
  rw [collateralReturn, ReturnsNothingOf]
  rcases body.collateralReturn with _ | ⟨_, n | ⟨n, ma⟩, _⟩ | o
  · simp
  · simp [outputValue, legacyValue]
  · simp [outputValue, hmultiasset]
  · simp [outputValue]

theorem diff_eq_ok {n m paid : UInt64} {c : Prop} [Decidable c] :
    (if m ≤ n ∧ c then .ok (n - m) else .err err : Outcome ValidationError UInt64) = .ok paid ↔
      (toInt m ≤ toInt n ∧ c) ∧ toInt paid = toInt n - toInt m := by
  rw [← uInt64_le]
  by_cases h : m ≤ n ∧ c
  · have hsub : toInt (n - m) = toInt n - toInt m := by
      show ((n - m).toNat : ℤ) = n.toNat - m.toNat
      rw [UInt64.toNat_sub_of_le n m h.1]
      exact Int.ofNat_sub (UInt64.le_iff_toNat_le.1 h.1)
    rw [if_pos h, Outcome.ok.injEq, ← toInt_inj, hsub, eq_comm, and_iff_right h]
  · rw [if_neg h]
    exact iff_of_false nofun fun hc => h hc.1

theorem conwayLovelaceDiffOrFail_ne_panic {first second : ConwayValue} :
    conwayLovelaceDiffOrFail first second err ≠ .panic := by
  have hite : ∀ (c : Prop) [Decidable c] (n : UInt64),
      (if c then .ok n else .err err : Outcome ValidationError UInt64) ≠ .panic := fun c _ n => by
    split_ifs <;> nofun
  rcases first with n | ⟨n, fma⟩ <;> rcases second with m | ⟨m, sma⟩
  · exact hite _ _
  · nofun
  · exact hite _ _
  · exact hite _ _

theorem conwayLovelaceDiffOrFail_eq_ok {ret : ConwayValue} {paid : UInt64} (h : IsSum vs sum) :
    conwayLovelaceDiffOrFail sum ret err = .ok paid ↔
      OnlyLovelace vs ret ∧ toInt paid = (total vs).1 - toInt ret.lovelace := by
  have hlove : (total vs).1 = toInt sum.lovelace := (congrArg Prod.fst h.holding).symm
  have hqty : (total vs).2 = qty sum.assets := (congrArg Prod.snd h.holding).symm
  have honly : OnlyLovelace vs ret ↔ toInt ret.lovelace ≤ toInt sum.lovelace ∧ (sum.Bare → ret.Bare) ∧
      qty sum.assets = qty ret.assets ∧ ∀ p, p ∈ sum.assets ↔ p ∈ ret.assets := by
    rw [h.bare, ← hlove, ← hqty]
    constructor
    · intro ho
      exact ⟨ho.lovelace, ho.bare, funext fun p => funext fun a => ho.quantities p a,
        fun p => (h.policies p).trans (ho.policies p)⟩
    · rintro ⟨hle, hbare, hheld, hpolicies⟩
      exact ⟨hle, hbare, fun p => (h.policies p).symm.trans (hpolicies p), fun p a => by rw [hheld]⟩
  have hempty : ∀ ma : Multiasset PositiveCoin, ma.isEmpty = true ↔
      qty ma = qty (∅ : Multiasset PositiveCoin) ∧ ∀ p, p ∈ ma ↔ p ∈ (∅ : Multiasset PositiveCoin) := by
    intro ma
    rw [isEmpty_iff_forall]
    constructor
    · intro hall
      have hma : ma = ∅ := ExtTreeMap.isEmpty_iff.1 (isEmpty_iff_forall.2 hall)
      exact ⟨by rw [hma], fun p => by rw [hma]⟩
    · rintro ⟨-, hpolicies⟩ p hp
      exact ExtTreeMap.not_mem_empty ((hpolicies p).1 hp)
  rw [honly, hlove]
  rcases sum with n | ⟨n, fma⟩ <;> rcases ret with m | ⟨m, sma⟩ <;>
    simp only [conwayLovelaceDiffOrFail, genLovelaceDiffOrFail, GenValue.Bare, lovelace_coin, lovelace_multiasset,
      assets_coin, assets_multiasset]
  · have hcoins := @diff_eq_ok err n m paid True _
    simpa using hcoins
  · simp
  · rw [diff_eq_ok, hempty]
    simp
  · rw [diff_eq_ok, genMultiAssetsAreEqual_iff fun _ => rfl]
    simp

/-! ### The two checks -/

section checks
variable (body : TransactionBody) (size : UInt32) (utxos : UTxOs) (pps : ConwayProtParams)

/-- The lovelace of the collaterals, each as often as it is listed, less that of the return. -/
def collateralBalance : ℤ :=
  ((body.collateral.getD []).map fun input => (inputHolding utxos input).1).sum -
    (body.collateralReturn.elim 0 outputHolding).1

/-- Both checks compare what they should, in both builds, and a debug build does not panic, so that nothing wraps in a release
build: where there is a first collateral, which is unwrapped. -/
structure FeeChecksExact : Prop where
  minFee : ∀ pr, checkMinFee pr (.postAlonzo .feeBelowMin) body.fee pps.minfeeA pps.minfeeB size = .ok () ↔
    toInt pps.minfeeB + toInt pps.minfeeA * toInt size ≤ toInt body.fee
  collateral : ∀ pr, checkCollateralsAssets pr body utxos pps = .ok () →
    toInt body.fee * toInt pps.collateralPercentage ≤ collateralBalance body utxos * 100
  minFeeReturns : checkMinFee .debug (.postAlonzo .feeBelowMin) body.fee pps.minfeeA pps.minfeeB size ≠ .panic
  collateralReturns : body.collateral ≠ some [] → checkCollateralsAssets .debug body utxos pps ≠ .panic

/-- What the check of these collaterals computes stays in its types. -/
structure CollateralsFit (collaterals : List TransactionInput) : Prop where
  sums : SumsFit [] (resolvedValues utxos collaterals)
  balance : AllResolved utxos collaterals → (total (resolvedValues utxos collaterals)).1 < 2 ^ 64 →
    ¬ ReturnsNothingOf body ∧
    ∀ ret, collateralReturn body = .ok ret → OnlyLovelace (resolvedValues utxos collaterals) ret →
      toInt body.fee * toInt pps.collateralPercentage < 2 ^ 64 ∧
      ((total (resolvedValues utxos collaterals)).1 - toInt ret.lovelace) * 100 < 2 ^ 64

/-- What the two checks compute stays in its types. -/
structure FeeChecksFit : Prop where
  minFee : toInt pps.minfeeB + toInt pps.minfeeA * toInt size < 2 ^ 32
  collaterals : ∀ collaterals, body.collateral = some collaterals → collaterals ≠ [] →
    CollateralsFit body utxos pps collaterals

variable {body size utxos pps} {collaterals : List TransactionInput}

theorem fits_u64 {z : ℤ} (h : 0 ≤ z) : Fits UInt64 z ↔ z < 2 ^ 64 := by
  show 0 ≤ z ∧ z ≤ 2 ^ 64 - 1 ↔ _
  omega

theorem fits_u32 {z : ℤ} (h : 0 ≤ z) : Fits UInt32 z ↔ z < 2 ^ 32 := by
  show 0 ≤ z ∧ z ≤ 2 ^ 32 - 1 ↔ _
  omega

theorem toInt_toUInt64 (n : UInt32) : toInt n.toUInt64 = toInt n := by
  show (n.toUInt64.toNat : ℤ) = n.toNat
  rw [UInt32.toNat_toUInt64]

theorem minFee_debug_ne_panic {minfeeA minfeeB : UInt32} :
    minFee .debug minfeeA minfeeB size ≠ .panic ↔ toInt minfeeB + toInt minfeeA * toInt size < 2 ^ 32 := by
  have hlinear : 0 ≤ toInt minfeeA * toInt size := mul_nonneg (lo_le minfeeA) (lo_le size)
  have hb : 0 ≤ toInt minfeeB := lo_le minfeeB
  rw [minFee, ne_eq, Outcome.bind_eq_panic, mul, exact_eq_panic, fits_u32 hlinear]
  by_cases hfits : toInt minfeeA * toInt size < 2 ^ 32
  · have hprod : (exact .debug (toInt minfeeA * toInt size) : Outcome ValidationError UInt32) = .ok
        (wrap (toInt minfeeA * toInt size)) := exact_of_fits ((fits_u32 hlinear).2 hfits)
    simp only [hprod, Outcome.ok.injEq, exists_eq_left', add, exact_eq_panic,
      toInt_wrap_of_fits ((fits_u32 hlinear).2 hfits), fits_u32 (add_nonneg hb hlinear)]
    simp
    omega
  · refine iff_of_false (fun h => h (.inl ⟨rfl, hfits⟩)) ?_
    omega

theorem minFee_fits {minfeeA minfeeB : UInt32} (h : toInt minfeeB + toInt minfeeA * toInt size < 2 ^ 32) :
    ∃ fees, minFee pr minfeeA minfeeB size = .ok fees ∧ toInt fees = toInt minfeeB + toInt minfeeA * toInt size := by
  have hlinear : 0 ≤ toInt minfeeA * toInt size := mul_nonneg (lo_le minfeeA) (lo_le size)
  have hb : 0 ≤ toInt minfeeB := lo_le minfeeB
  have hprod : Fits UInt32 (toInt minfeeA * toInt size) := (fits_u32 hlinear).2 (by omega)
  have hsum : Fits UInt32 (toInt minfeeB + toInt minfeeA * toInt size) := (fits_u32 (add_nonneg hb hlinear)).2 h
  refine ⟨wrap (toInt minfeeB + toInt minfeeA * toInt size), ?_, toInt_wrap_of_fits hsum⟩
  rw [minFee, mul, exact_of_fits hprod, Outcome.ok_bind, add, toInt_wrap_of_fits hprod, exact_of_fits hsum]

theorem checkMinFee_debug_ne_panic {minfeeA minfeeB : UInt32} {fee : UInt64} :
    checkMinFee .debug err fee minfeeA minfeeB size ≠ .panic ↔
      toInt minfeeB + toInt minfeeA * toInt size < 2 ^ 32 := by
  rw [← minFee_debug_ne_panic, checkMinFee, ne_eq, ne_eq, Outcome.bind_eq_panic]
  simp [check]

theorem checkMinFee_fits {minfeeA minfeeB : UInt32} {fee : UInt64}
    (h : toInt minfeeB + toInt minfeeA * toInt size < 2 ^ 32) :
    checkMinFee pr err fee minfeeA minfeeB size = .ok () ↔
      toInt minfeeB + toInt minfeeA * toInt size ≤ toInt fee := by
  obtain ⟨fees, hfees, heq⟩ := @minFee_fits pr size minfeeA minfeeB h
  rw [checkMinFee, hfees, Outcome.ok_bind, Outcome.ensure_eq_ok, decide_eq_true_iff, uInt64_le, toInt_toUInt64, heq]

theorem balance_nonneg {ret : ConwayValue} (h : OnlyLovelace vs ret) : 0 ≤ (total vs).1 - toInt ret.lovelace := by
  have hle := h.lovelace
  omega

/-- `check_collaterals_assets`, once it is known what is paid. -/
def checkPaid (pr : Profile) (body : TransactionBody) (pps : ConwayProtParams) (paid : UInt64) : ValidationResult := do
  let feePercentage : UInt64 ← mul pr body.fee pps.collateralPercentage.toUInt64
  let paid100 : UInt64 ← mul pr paid 100
  check (.postAlonzo .collateralMinLovelace) (feePercentage ≤ paid100)
  match body.totalCollateral with
  | some annotated => check (.postAlonzo .collateralAnnotationErr) (paid == annotated)
  | none => .ok ()

theorem checkCollateralsAssets_eq (hcoll : body.collateral = some collaterals) :
    checkCollateralsAssets pr body utxos pps = (collateralInput pr utxos collaterals >>= fun sum =>
      collateralReturn body >>= fun ret =>
        conwayLovelaceDiffOrFail sum ret (.postAlonzo .nonLovelaceCollateral) >>= checkPaid pr body pps) := by
  rw [checkCollateralsAssets, hcoll, collateralReturn]
  cases body.collateralReturn <;> rfl

theorem feePercentage_nonneg (fee : UInt64) (percentage : UInt32) : 0 ≤ toInt fee * toInt percentage :=
  mul_nonneg (lo_le fee) (lo_le percentage)

theorem checkPaid_debug {paid : UInt64} : checkPaid .debug body pps paid ≠ .panic ↔
    toInt body.fee * toInt pps.collateralPercentage < 2 ^ 64 ∧ toInt paid * 100 < 2 ^ 64 := by
  have hpaid : 0 ≤ toInt paid := lo_le paid
  have hpaid100 : 0 ≤ toInt paid * 100 := by omega
  rw [checkPaid, mul, toInt_toUInt64, ← fits_u64 (feePercentage_nonneg _ _), ← fits_u64 hpaid100]
  by_cases hfee : Fits UInt64 (toInt body.fee * toInt pps.collateralPercentage)
  · rw [exact_of_fits hfee, Outcome.ok_bind, mul]
    by_cases hfits : Fits UInt64 (toInt paid * 100)
    · have hmul : (exact .debug (toInt paid * toInt (100 : UInt64)) : Outcome ValidationError UInt64) =
          .ok (wrap (toInt paid * 100)) := exact_of_fits hfits
      rw [hmul, Outcome.ok_bind]
      refine iff_of_true (fun hpanic => ?_) ⟨hfee, hfits⟩
      rcases Outcome.seq_eq_panic.1 hpanic with hpanic | ⟨-, hpanic⟩
      · exact Outcome.ensure_ne_panic hpanic
      · cases htotal : body.totalCollateral <;> simp [htotal, check] at hpanic
    · have hmul : (exact .debug (toInt paid * toInt (100 : UInt64)) : Outcome ValidationError UInt64) = .panic :=
        exact_eq_panic.2 ⟨rfl, hfits⟩
      rw [hmul, Outcome.panic_bind]
      exact iff_of_false (fun h => h rfl) fun h => hfits h.2
  · have hmul : (exact .debug (toInt body.fee * toInt pps.collateralPercentage) : Outcome ValidationError UInt64) =
        .panic := exact_eq_panic.2 ⟨rfl, hfee⟩
    rw [hmul, Outcome.panic_bind]
    exact iff_of_false (fun h => h rfl) fun h => hfee h.1

theorem checkPaid_ok {paid : UInt64} (h : checkPaid .debug body pps paid = .ok ()) :
    toInt body.fee * toInt pps.collateralPercentage ≤ toInt paid * 100 := by
  obtain ⟨percentage, hpercentage, h⟩ := Outcome.bind_eq_ok.1 h
  obtain ⟨paid100, hpaid100, h⟩ := Outcome.bind_eq_ok.1 h
  have hle := uInt64_le.1 (of_decide_eq_true (Outcome.ensure_eq_ok.1 (Outcome.seq_eq_ok.1 h).1))
  rw [exact_debug.1 hpercentage, exact_debug.1 hpaid100, toInt_toUInt64] at hle
  exact hle

theorem checkCollateralsAssets_debug (hcoll : body.collateral = some collaterals) (hne : collaterals ≠ []) :
    checkCollateralsAssets .debug body utxos pps ≠ .panic ↔ CollateralsFit body utxos pps collaterals := by
  obtain ⟨hpanics, hgives, hsums⟩ := @collateralInput_debug utxos collaterals hne
  rw [checkCollateralsAssets_eq hcoll]
  constructor
  · intro hreturns
    have hfits : SumsFit [] (resolvedValues utxos collaterals) :=
      hpanics.1 fun hpanic => hreturns (Outcome.bind_eq_panic.2 (.inl hpanic))
    refine ⟨hfits, fun hall hlt => ?_⟩
    obtain ⟨sum, hsum⟩ := hgives hfits hall hlt
    rw [hsum, Outcome.ok_bind] at hreturns
    refine ⟨fun hzero => hreturns ?_, fun ret hret honly => ?_⟩
    · rw [collateralReturn_eq_panic.2 hzero, Outcome.panic_bind]
    · -- what is paid is at most the sum of the lovelace, so it is a `u64`
      have hpaid : Fits UInt64 ((total (resolvedValues utxos collaterals)).1 - toInt ret.lovelace) := by
        have hlo : 0 ≤ toInt ret.lovelace := lo_le ret.lovelace
        refine (fits_u64 (balance_nonneg honly)).2 ?_
        omega
      have hdiff : conwayLovelaceDiffOrFail sum ret (.postAlonzo .nonLovelaceCollateral) = .ok (wrap _) :=
        (conwayLovelaceDiffOrFail_eq_ok (hsums sum hsum).2).2 ⟨honly, toInt_wrap_of_fits hpaid⟩
      rw [hret, Outcome.ok_bind, hdiff, Outcome.ok_bind, checkPaid_debug, toInt_wrap_of_fits hpaid] at hreturns
      exact hreturns
  · intro hfit hpanic
    rcases Outcome.bind_eq_panic.1 hpanic with hpanic | ⟨sum, hsum, hpanic⟩
    · exact hpanics.2 hfit.sums hpanic
    · obtain ⟨hall, hissum⟩ := hsums sum hsum
      have hlt : (total (resolvedValues utxos collaterals)).1 < 2 ^ 64 := by
        have hhi : toInt sum.lovelace ≤ 2 ^ 64 - 1 := le_hi sum.lovelace
        rw [← hissum.holding]
        show toInt sum.lovelace < 2 ^ 64
        omega
      obtain ⟨hnonzero, hproducts⟩ := hfit.balance hall hlt
      rcases Outcome.bind_eq_panic.1 hpanic with hpanic | ⟨ret, hret, hpanic⟩
      · exact hnonzero (collateralReturn_eq_panic.1 hpanic)
      · rcases Outcome.bind_eq_panic.1 hpanic with hpanic | ⟨paid, hpaid, hpanic⟩
        · exact conwayLovelaceDiffOrFail_ne_panic hpanic
        · obtain ⟨honly, hpaid⟩ := (conwayLovelaceDiffOrFail_eq_ok hissum).1 hpaid
          refine checkPaid_debug.2 ?_ hpanic
          rw [hpaid]
          exact hproducts ret hret honly

/-! ### What a debug build says of a release build -/

theorem below_addPositiveAssets (pr : Profile) (f s : Multiasset PositiveCoin) :
    (addPositiveAssets .debug err f s).Below (addPositiveAssets pr err f s) := by
  have hnames : ∀ (old : Option UInt64) (new : UInt64),
      Outcome.Below (addAmount .debug old new : Outcome ValidationError UInt64) (addAmount pr old new) :=
        fun old new => by
    cases old with
    | none => exact .refl _
    | some old => exact below_exact pr _
  have hpolicies : ∀ m new : Multiasset UInt64,
      Outcome.Below (FinMap.upsert (addPolicy .debug) m new) (FinMap.upsert (addPolicy pr) m new) :=
    FinMap.below_upsert fun old new => FinMap.below_upsert hnames _ _
  exact ((hpolicies ∅ _).bind fun res => hpolicies res _).bind fun sum => .refl _

theorem below_conwayAddValues (pr : Profile) (first second : ConwayValue) :
    (conwayAddValues .debug first second err).Below (conwayAddValues pr first second err) := by
  rcases first with n | ⟨n, fma⟩ <;> rcases second with m | ⟨m, sma⟩
  · exact .refl _
  · exact .refl _
  · exact .refl _
  · exact (Outcome.Below.refl _).bind fun _ => (below_addPositiveAssets pr fma sma).bind fun _ => .refl _

theorem below_collateralInput (pr : Profile) (inputs : List TransactionInput) :
    (collateralInput .debug utxos inputs).Below (collateralInput pr utxos inputs) := by
  cases inputs with
  | nil => exact .refl _
  | cons input inputs =>
    refine (Outcome.Below.refl _).bind fun output => .fold (fun acc collateral => ?_) inputs _
    rw [addCollateral, addCollateral]
    cases utxos (.alonzoCompatible collateral) with
    | none => exact .refl _
    | some output => exact below_conwayAddValues pr acc _

theorem below_checkCollateralsAssets (pr : Profile) :
    (checkCollateralsAssets .debug body utxos pps).Below (checkCollateralsAssets pr body utxos pps) := by
  cases hcoll : body.collateral with
  | none =>
    rw [checkCollateralsAssets, checkCollateralsAssets, hcoll]
    exact .refl _
  | some collaterals =>
    rw [checkCollateralsAssets_eq hcoll, checkCollateralsAssets_eq hcoll]
    refine (below_collateralInput pr collaterals).bind fun sum => (Outcome.Below.refl _).bind fun ret => ?_
    exact (Outcome.Below.refl _).bind fun paid => (below_exact pr _).bind fun _ => (below_exact pr _).bind
      fun _ => .refl _

/-! ### What is accepted -/

theorem total_resolvedValues (h : AllResolved utxos collaterals) :
    (total (resolvedValues utxos collaterals)).1 = (collaterals.map fun input => (inputHolding utxos input).1).sum := by
  induction collaterals with
  | nil => rfl
  | cons input inputs ih =>
    obtain ⟨output, hout⟩ := Option.isSome_iff_exists.1 (h input (List.mem_cons_self ..))
    have hfirst : toInt (valFromMultiEraOutput output).lovelace = (inputHolding utxos input).1 :=
      (valFromMultiEraOutput_represents hout).1
    rw [resolvedValues, hout, List.map_cons, List.sum_cons, ← ih ((allResolved_cons_some hout).1 h), ← hfirst]
    simp [total, GenValue.holding]

theorem collateralReturn_lovelace {ret : ConwayValue} (h : collateralReturn body = .ok ret) :
    toInt ret.lovelace = (body.collateralReturn.elim 0 outputHolding).1 := by
  rw [collateralReturn] at h
  cases hout : body.collateralReturn with
  | none =>
    rw [hout] at h
    cases h
    rfl
  | some output =>
    rw [hout] at h
    exact (outputValue_represents h).1

theorem checkCollateralsAssets_ok (h : checkCollateralsAssets .debug body utxos pps = .ok ()) :
    toInt body.fee * toInt pps.collateralPercentage ≤ collateralBalance body utxos * 100 := by
  cases hcoll : body.collateral with
  | none =>
    rw [checkCollateralsAssets, hcoll] at h
    cases h
  | some collaterals =>
    rw [checkCollateralsAssets_eq hcoll] at h
    obtain ⟨sum, hsum, h⟩ := Outcome.bind_eq_ok.1 h
    obtain ⟨ret, hret, h⟩ := Outcome.bind_eq_ok.1 h
    obtain ⟨paid, hpaid, h⟩ := Outcome.bind_eq_ok.1 h
    have hne : collaterals ≠ [] := by
      rintro rfl
      cases hsum
    obtain ⟨hall, hissum⟩ := (collateralInput_debug hne).2.2 sum hsum
    have hbalance : toInt paid = collateralBalance body utxos := by
      rw [((conwayLovelaceDiffOrFail_eq_ok hissum).1 hpaid).2, total_resolvedValues hall,
        collateralReturn_lovelace hret,
        collateralBalance, hcoll, Option.getD_some]
    rw [← hbalance]
    exact checkPaid_ok h

/-- The two checks of a body are exact, and return, where nothing that they compute leaves its type. -/
theorem feeChecksExact_iff (body : TransactionBody) (size : UInt32) (utxos : UTxOs) (pps : ConwayProtParams) :
    FeeChecksExact body size utxos pps ↔ FeeChecksFit body size utxos pps := by
  constructor
  · intro h
    refine ⟨checkMinFee_debug_ne_panic.1 h.minFeeReturns, fun collaterals hcoll hne => ?_⟩
    refine (checkCollateralsAssets_debug hcoll hne).1 (h.collateralReturns fun hnil => hne ?_)
    exact Option.some.inj (hcoll.symm.trans hnil)
  · intro h
    have hreturns : body.collateral ≠ some [] → checkCollateralsAssets .debug body utxos pps ≠ .panic := by
      intro hne
      cases hcoll : body.collateral with
      | none =>
        rw [checkCollateralsAssets, hcoll]
        nofun
      | some collaterals =>
        have hne' : collaterals ≠ [] := fun hnil => hne (hnil ▸ hcoll)
        exact (checkCollateralsAssets_debug hcoll hne').2 (h.collaterals collaterals hcoll hne')
    refine ⟨fun pr => checkMinFee_fits h.minFee, fun pr hok => ?_, checkMinFee_debug_ne_panic.2 h.minFee, hreturns⟩
    have hne : body.collateral ≠ some [] := fun hnil => by
      rw [checkCollateralsAssets_eq hnil] at hok
      cases hok
    rw [below_checkCollateralsAssets pr (hreturns hne)] at hok
    exact checkCollateralsAssets_ok hok

end checks

/-- A transaction of 64 KiB, at 64 KiB lovelace for a byte: it passes without a fee. -/
theorem free_transaction_passes : ¬ ∀ body size utxos pps, FeeChecksExact body size utxos pps := by
  intro h
  let pps : ConwayProtParams :=
    { minfeeA := 65536, minfeeB := 0, maxTransactionSize := 65536, adaPerUtxoByte := 0, maxTxExUnits := ⟨0, 0⟩
      maxValueSize := 0, collateralPercentage := 150, maxCollateralInputs := 3
      costModelsForScriptLanguages := ⟨none, none, none⟩ }
  have hpasses : checkMinFee .release (.postAlonzo .feeBelowMin) 0 pps.minfeeA pps.minfeeB 65536 = .ok () := by decide
  have hfee := ((h { inputs := [], outputs := [], fee := 0 } 65536 (fun _ => none) pps).minFee .release).1 hpasses
  exact absurd hfee (by decide)

end Pallas.Conway
