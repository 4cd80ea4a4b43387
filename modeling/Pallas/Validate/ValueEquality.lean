import Pallas.Validate.Holdings

/-!
# When two values compare equal

`values_are_equal` asks for the same lovelace and for two one-way inclusions. An amount of zero is passed over, a policy is
not: the other value must list it too. So values are equal where they hold the same and list the same policies.
-/

namespace Pallas
open Std MachineInt
open Quantity (amount)

section comparison
variable {A : Type} [Quantity A] {word : A → UInt64}

theorem qty_of_getElem? {ma : Multiasset A} {p : PolicyId} {names : FinMap AssetName A} (h : ma[p]? = some names)
    (a : AssetName) : qty ma p a = names[a]?.elim 0 amount := by
  simp only [qty, FinMap.look, h, Option.elim_some]

/-- One half of the comparison: every policy is listed, with as much of every asset that is there at all. -/
theorem genMultiAssetIncluded_iff (hword : ∀ x, amount x = toInt (word x)) {fma sma : Multiasset A} :
    genMultiAssetIncluded word fma sma = true ↔
      (∀ p ∈ fma, p ∈ sma) ∧ ∀ p a, qty fma p a = 0 ∨ qty fma p a = qty sma p a := by
  constructor
  · intro h
    refine ⟨fun p hp => ?_, genMultiAssetIncluded_qty hword h⟩
    obtain ⟨names, hnames⟩ := FinMap.exists_of_mem hp
    have hpolicy := List.all_eq_true.1 h _ (FinMap.mem_toList.2 hnames)
    cases hs : sma[p]? with
    | none => simp [hs] at hpolicy
    | some sassets => exact FinMap.mem_of_getElem? hs
  · rintro ⟨hlisted, hqty⟩
    refine List.all_eq_true.2 ?_
    rintro ⟨p, fassets⟩ hp
    rw [FinMap.mem_toList] at hp
    obtain ⟨sassets, hs⟩ := FinMap.exists_of_mem (hlisted p (FinMap.mem_of_getElem? hp))
    simp only [hs]
    refine List.all_eq_true.2 ?_
    rintro ⟨a, x⟩ ha
    rw [FinMap.mem_toList] at ha
    rw [Bool.or_eq_true, beq_iff_eq]
    by_cases hzero : word x = 0
    · exact .inl hzero
    · refine .inr ?_
      have hne : amount x ≠ 0 := by
        rw [hword]
        exact fun h => hzero (toInt_inj.1 h)
      have hx : qty fma p a = amount x := by rw [qty_of_getElem? hp, ha, Option.elim_some]
      have hsame : qty sma p a = amount x := by
        rcases hqty p a with h | h
        · exact absurd (hx.symm.trans h) hne
        · exact h.symm.trans hx
      rw [qty_of_getElem? hs] at hsame
      cases hy : sassets[a]? with
      | none =>
        rw [hy, Option.elim_none] at hsame
        exact absurd hsame.symm hne
      | some y =>
        rw [hy, Option.elim_some, hword, hword, toInt_inj] at hsame
        simp only [beq_iff_eq]
        exact hsame.symm

theorem genMultiAssetsAreEqual_iff (hword : ∀ x, amount x = toInt (word x)) {fma sma : Multiasset A} :
    genMultiAssetsAreEqual word fma sma = true ↔ qty fma = qty sma ∧ ∀ p, p ∈ fma ↔ p ∈ sma := by
  constructor
  · intro h
    obtain ⟨hfs, hsf⟩ := Bool.and_eq_true_iff.1 h
    exact ⟨genMultiAssetsAreEqual_qty hword h,
      fun p => ⟨((genMultiAssetIncluded_iff hword).1 hfs).1 p, ((genMultiAssetIncluded_iff hword).1 hsf).1 p⟩⟩
  · rintro ⟨hqty, hlisted⟩
    refine Bool.and_eq_true_iff.2 ⟨?_, ?_⟩
    · exact (genMultiAssetIncluded_iff hword).2 ⟨fun p => (hlisted p).1, fun p a => .inr (by rw [hqty])⟩
    · exact (genMultiAssetIncluded_iff hword).2 ⟨fun p => (hlisted p).2, fun p a => .inr (by rw [hqty])⟩

/-- The two values list the same policies. -/
def SamePolicies (first second : GenValue A) : Prop := ∀ p, p ∈ first.assets ↔ p ∈ second.assets

omit [Quantity A] in
theorem isEmpty_iff_forall {ma : Multiasset A} : ma.isEmpty = true ↔ ∀ p, p ∉ ma := by
  rw [ExtTreeMap.isEmpty_iff]
  constructor
  · rintro rfl p
    exact ExtTreeMap.not_mem_empty
  · intro h
    refine ExtTreeMap.ext_getElem? fun p => ?_
    by_contra hne
    obtain ⟨names, hnames⟩ :=
      Option.ne_none_iff_exists'.1 (fun hnone => hne (hnone.trans ExtTreeMap.getElem?_empty.symm))
    exact h p (FinMap.mem_of_getElem? hnames)

theorem genValuesAreEqual_iff (hword : ∀ x, amount x = toInt (word x)) {f s : GenValue A} :
    genValuesAreEqual word f s = true ↔ f.holding = s.holding ∧ SamePolicies f s := by
  have hcoin : ∀ n m : Coin, n = m ↔ toInt n = toInt m := fun n m => toInt_inj.symm
  cases f with
  | coin n =>
    cases s with
    | coin m => simp [genValuesAreEqual, GenValue.holding, SamePolicies, hcoin]
    | multiasset m sma =>
      simp only [genValuesAreEqual, Bool.and_eq_true, beq_iff_eq]
      constructor
      · rintro ⟨rfl, hempty⟩
        refine ⟨?_, fun p => iff_of_false ExtTreeMap.not_mem_empty (isEmpty_iff_forall.1 hempty p)⟩
        rw [ExtTreeMap.isEmpty_iff] at hempty
        rw [hempty]
        rfl
      · rintro ⟨hheld, hlisted⟩
        exact ⟨(hcoin n m).2 (congrArg Prod.fst hheld),
          isEmpty_iff_forall.2 fun p hp => ExtTreeMap.not_mem_empty ((hlisted p).2 hp)⟩
  | multiasset n fma =>
    cases s with
    | coin m =>
      simp only [genValuesAreEqual, Bool.and_eq_true, beq_iff_eq]
      constructor
      · rintro ⟨rfl, hempty⟩
        refine ⟨?_, fun p => iff_of_false (isEmpty_iff_forall.1 hempty p) ExtTreeMap.not_mem_empty⟩
        rw [ExtTreeMap.isEmpty_iff] at hempty
        rw [hempty]
        rfl
      · rintro ⟨hheld, hlisted⟩
        exact ⟨(hcoin n m).2 (congrArg Prod.fst hheld),
          isEmpty_iff_forall.2 fun p hp => ExtTreeMap.not_mem_empty ((hlisted p).1 hp)⟩
    | multiasset m sma =>
      simp only [genValuesAreEqual, Bool.and_eq_true, beq_iff_eq, genMultiAssetsAreEqual_iff hword]
      constructor
      · rintro ⟨rfl, hqty, hlisted⟩
        exact ⟨Prod.ext rfl hqty, hlisted⟩
      · rintro ⟨hheld, hlisted⟩
        exact ⟨(hcoin n m).2 (congrArg Prod.fst hheld), congrArg Prod.snd hheld, hlisted⟩

end comparison

theorem valuesAreEqual_iff {first second : Value} :
    valuesAreEqual first second = true ↔ first.holding = second.holding ∧ SamePolicies first second :=
  genValuesAreEqual_iff fun _ => rfl

/-- `values_are_equal` compares what two values hold, unless these are the same and one of them lists a policy that the
other does not; and it is an equivalence. -/
theorem valuesAreEqual_holding_iff (first second : Value) :
    (((valuesAreEqual first second = true) ↔ first.holding = second.holding) ↔
      (first.holding = second.holding → SamePolicies first second)) ∧
    Equivalence fun first second : Value => valuesAreEqual first second = true := by
  constructor
  · rw [valuesAreEqual_iff]
    exact ⟨fun h hheld => (h.2 hheld).2, fun h => ⟨And.left, fun hheld => ⟨hheld, h hheld⟩⟩⟩
  · refine ⟨fun v => ?_, fun {v w} h => ?_, fun {u v w} h h' => ?_⟩
    · exact valuesAreEqual_iff.2 ⟨rfl, fun _ => Iff.rfl⟩
    · obtain ⟨hheld, hlisted⟩ := valuesAreEqual_iff.1 h
      exact valuesAreEqual_iff.2 ⟨hheld.symm, fun p => (hlisted p).symm⟩
    · obtain ⟨hheld, hlisted⟩ := valuesAreEqual_iff.1 h
      obtain ⟨hheld', hlisted'⟩ := valuesAreEqual_iff.1 h'
      exact valuesAreEqual_iff.2 ⟨hheld.trans hheld', fun p => (hlisted p).trans (hlisted' p)⟩

/-- Five of an asset, all of them burnt: the value that is left is not equal to its lovelace. -/
theorem burnt_value_not_equal :
    ∃ left : Value, addMintedValue .debug
        (.multiasset 7 ((∅ : Multiasset Coin).insert 1 ((∅ : FinMap AssetName Coin).insert [] 5)))
        ((∅ : Multiasset Int64).insert 1 ((∅ : FinMap AssetName Int64).insert [] (-5)))
          (.shelleyMA .preservationOfValue) =
        .ok left ∧
      ¬ (valuesAreEqual left (.coin 7) = true ↔ left.holding = (GenValue.coin 7 : Value).holding) := by
  refine ⟨.multiasset 7 ((∅ : Multiasset Coin).insert 1 ((∅ : FinMap AssetName Coin).insert [] 0)), rfl, fun h => ?_⟩
  have hheld : (GenValue.multiasset 7
      ((∅ : Multiasset Coin).insert 1 ((∅ : FinMap AssetName Coin).insert [] 0)) : Value).holding =
      (GenValue.coin 7 : Value).holding := by
    refine Prod.ext rfl (funext fun p => funext fun a => ?_)
    show qty ((∅ : Multiasset Coin).insert 1 ((∅ : FinMap AssetName Coin).insert [] 0)) p a =
      qty (∅ : Multiasset Coin) p a
    rw [qty_empty, qty, FinMap.look, FinMap.getElem?_insert_ite]
    split_ifs
    · rw [Option.elim_some, nameQty, FinMap.look, FinMap.getElem?_insert_ite]
      split_ifs
      · rfl
      · rw [ExtTreeMap.getElem?_empty, Option.elim_none]
    · rw [ExtTreeMap.getElem?_empty, Option.elim_none]
  cases h.2 hheld

end Pallas
