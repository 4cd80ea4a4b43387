import Pallas.Lib.Tally
import Pallas.Validate.Utils

/-!
# Values as integer quantities

`Holding` is what a value means: lovelace, and a quantity for every asset, all unbounded integers. It
is a commutative group, so that the ledger's balance is an equation between sums.

The arithmetic of `Utils` computes on lovelace with checked additions, and on assets with casts between
`u64` and `i64` and additions that may wrap. `Represents v h` says what survives of that: the lovelace
of `v` is that of `h`, and every asset quantity is right modulo `2 ^ 64`. Each operation on values
that returns keeps it (`addValues_represents` and its companions), and so do the loops.
-/

namespace Pallas
open Std MachineInt

/-- Lovelace, and the quantity of every asset. -/
abbrev Holding := ℤ × (PolicyId → AssetName → ℤ)

/-- The number of values of `u64` and of `i64`. -/
def wordCard : ℤ := 2 ^ 64

/-- The types that quantities of an asset come in. -/
class Quantity (A : Type) where
  /-- The quantity as an integer. -/
  amount : A → ℤ

instance {T : Type} [MachineInt T] : Quantity T := ⟨toInt⟩
instance : Quantity PositiveCoin := ⟨fun n => toInt n.val⟩
instance : Quantity NonZeroInt := ⟨fun n => toInt n.1⟩

open Quantity (amount)

section Bundles
variable {A B : Type} [Quantity A] [Quantity B]

/-- What one policy of a bundle holds of an asset name. -/
abbrev nameQty (names : FinMap AssetName A) (name : AssetName) : ℤ := FinMap.look amount names name

/-- What a bundle holds of an asset. -/
def qty (ma : Multiasset A) (policy : PolicyId) (name : AssetName) : ℤ :=
  FinMap.look (fun names => nameQty names name) ma policy

@[simp] theorem qty_empty (p : PolicyId) (a : AssetName) : qty (∅ : Multiasset A) p a = 0 :=
  FinMap.look_empty _ _

/-- A change of representation that is right modulo `n` on single quantities. -/
theorem qty_map_modEq {f : A → B} {n : ℤ} (hf : ∀ x, amount (f x) ≡ amount x [ZMOD n])
    (ma : Multiasset A) (p : PolicyId) (a : AssetName) :
    qty (ma.map fun _ names => names.map fun _ x => f x) p a ≡ qty ma p a [ZMOD n] := by
  simp only [qty, FinMap.look, ExtTreeMap.getElem?_map]
  cases ma[p]? with
  | none => rfl
  | some names =>
    simp only [Option.map_some, Option.elim_some, ExtTreeMap.getElem?_map]
    cases names[a]? with
    | none => rfl
    | some x => exact hf x

/-- The same for a fallible change of representation. -/
theorem qty_mapM_modEq {f : A → Outcome ValidationError B} {n : ℤ}
    (hf : ∀ x y, f x = .ok y → amount y ≡ amount x [ZMOD n]) {ma : Multiasset A} {r : Multiasset B}
    (h : FinMap.mapM (fun names => FinMap.mapM f names) ma = .ok r) (p : PolicyId) (a : AssetName) :
    qty r p a ≡ qty ma p a [ZMOD n] :=
  FinMap.mapM_look_modEq (fun _ _ hn => FinMap.mapM_look_modEq hf hn a) h p

/-- Adding one bundle to another policy by policy, when a policy's assets are added right. -/
theorem qty_upsert_modEq {g : Option (FinMap AssetName A) → FinMap AssetName B →
      Outcome ValidationError (FinMap AssetName A)} {n : ℤ}
    (hg : ∀ old new v, g old new = .ok v →
      ∀ a, nameQty v a ≡ nameQty (old.getD ∅) a + nameQty new a [ZMOD n])
    {first r : Multiasset A} {second : Multiasset B} (h : FinMap.upsert g first second = .ok r)
    (p : PolicyId) (a : AssetName) : qty r p a ≡ qty first p a + qty second p a [ZMOD n] := by
  refine FinMap.upsert_look_modEq (fun old new v hv => ?_) h p
  have hv := hg old new v hv a
  cases old with
  | none => simpa using hv
  | some old => exact hv

theorem qty_nonneg (hA : ∀ x : A, 0 ≤ amount x) (ma : Multiasset A) (p : PolicyId) (a : AssetName) :
    0 ≤ qty ma p a := by
  simp only [qty, FinMap.look]
  cases ma[p]? with
  | none => exact le_rfl
  | some names =>
    simp only [Option.elim_some]
    cases names[a]? with
    | none => exact le_rfl
    | some x => exact hA x

theorem nameQty_dropEmpty (names : FinMap AssetName A) (a : AssetName) :
    ((if names.isEmpty then none else some names).elim 0 fun kept => nameQty kept a) = nameQty names a := by
  split
  · next hempty =>
    rw [ExtTreeMap.isEmpty_iff.1 hempty]
    simp [nameQty]
  · rfl

/-- Changing or dropping policies without losing any quantity. -/
theorem qty_filterMap {g : FinMap AssetName A → Option (FinMap AssetName B)} {ma : Multiasset A}
    {a : AssetName} (hg : ∀ names, ((g names).elim 0 fun kept => nameQty kept a) = nameQty names a) (p : PolicyId) :
    qty (ma.filterMap fun _ names => g names) p a = qty ma p a := by
  simp only [qty, FinMap.look, ExtTreeMap.getElem?_filterMap']
  cases ma[p]? with
  | none => rfl
  | some names => exact hg names

end Bundles

/-! ### Sums of bundles -/

section Sums
variable {T : Type} [MachineInt T] {pr : Profile}

theorem addAmount_modEq {old : Option T} {new r : T} (h : addAmount pr old new = .ok r) :
    amount r ≡ old.elim 0 amount + amount new [ZMOD card T] := by
  cases old with
  | none =>
    obtain rfl : new = r := by simpa [addAmount] using h
    simp
  | some old => exact exact_modEq h

theorem addPolicy_modEq {old : Option (FinMap AssetName T)} {new v : FinMap AssetName T}
    (h : addPolicy pr old new = .ok v) (a : AssetName) :
    nameQty v a ≡ nameQty (old.getD ∅) a + nameQty new a [ZMOD card T] :=
  FinMap.upsert_look_modEq (fun _ _ _ hv => addAmount_modEq hv) h a

/-- `conway_add_multiasset_values` adds quantities up to wrapping. -/
theorem conwayAddMultiassetValues_modEq {first second r : Multiasset T}
    (h : conwayAddMultiassetValues pr first second = .ok r) (p : PolicyId) (a : AssetName) :
    qty r p a ≡ qty first p a + qty second p a [ZMOD card T] := by
  obtain ⟨res, hres, hr⟩ := Outcome.bind_eq_ok.1 h
  have h₁ := qty_upsert_modEq (fun _ _ _ hv => addPolicy_modEq hv) hres p a
  have h₂ := qty_upsert_modEq (fun _ _ _ hv => addPolicy_modEq hv) hr p a
  rw [qty_empty, zero_add] at h₁
  exact h₂.trans (h₁.add_right _)

theorem addNonZeroAmount_modEq {old : Option UInt64} {new : NonZeroInt} {r : UInt64}
    (h : addNonZeroAmount pr old new = .ok r) :
    amount r ≡ old.elim 0 amount + amount new [ZMOD wordCard] := by
  cases old with
  | none =>
    obtain rfl : cast new.1 = r := by simpa [addNonZeroAmount] using h
    rw [Option.elim_none, zero_add]
    exact cast_modEq (β := UInt64) new.1
  | some old =>
    simp only [addNonZeroAmount, Outcome.bind_eq_ok] at h
    obtain ⟨sum, hsum, h⟩ := h
    split at h
    · cases h
    · obtain rfl : cast sum = r := by simpa using h
      have hold : toInt (cast old : Int64) ≡ toInt old [ZMOD wordCard] := cast_modEq old
      have hadd : toInt sum ≡ toInt (cast old : Int64) + toInt new.1 [ZMOD wordCard] := exact_modEq hsum
      exact (cast_modEq sum).trans (hadd.trans (hold.add_right _))

theorem retainPositive_nameQty (assets : FinMap AssetName UInt64) (a : AssetName) :
    ((retainPositive assets).elim 0 fun names => nameQty names a) = nameQty assets a := by
  have hkept : nameQty (assets.filter fun _ n => 0 < n) a = nameQty assets a := by
    simp only [nameQty, FinMap.look, ExtTreeMap.getElem?_filter']
    cases h : assets[a]? with
    | none => rfl
    | some n =>
      by_cases hn : 0 < n
      · simp [Option.filter, hn]
      · have hn : n = 0 := UInt64.le_zero_iff.1 (UInt64.not_lt.1 hn)
        subst hn
        rfl
  rw [← hkept]
  exact nameQty_dropEmpty _ a

/-- `conway_add_multiasset_non_negative_values` adds quantities up to wrapping. -/
theorem conwayAddMultiassetNonNegativeValues_modEq {first r : Multiasset UInt64}
    {second : Multiasset NonZeroInt} (h : conwayAddMultiassetNonNegativeValues pr first second = .ok r)
    (p : PolicyId) (a : AssetName) : qty r p a ≡ qty first p a + qty second p a [ZMOD wordCard] := by
  obtain ⟨res, hres, h⟩ := Outcome.bind_eq_ok.1 h
  obtain ⟨sum, hsum, h⟩ := Outcome.bind_eq_ok.1 h
  have h₁ := qty_upsert_modEq (fun _ _ _ hv => addPolicy_modEq hv) hres p a
  have h₂ := qty_upsert_modEq
    (fun _ _ _ hv a => FinMap.upsert_look_modEq (fun _ _ _ hv => addNonZeroAmount_modEq hv) hv a) hsum p a
  have hkeep : qty r p a = qty sum p a := by
    obtain rfl : sum.filterMap (fun _ assets => retainPositive assets) = r := by simpa using h
    exact qty_filterMap (fun assets => retainPositive_nameQty assets a) p
  rw [qty_empty, zero_add] at h₁
  rw [hkeep]
  exact h₂.trans (h₁.add_right _)

end Sums

/-! ### Conversions of quantities -/

theorem coerceToI64_modEq (ma : Multiasset Coin) (p : PolicyId) (a : AssetName) :
    qty (coerceToI64 ma) p a ≡ qty ma p a [ZMOD wordCard] :=
  qty_map_modEq (fun x => cast_modEq (β := Int64) x) ma p a

theorem coerceToU64_modEq (ma : Multiasset PositiveCoin) (p : PolicyId) (a : AssetName) :
    qty (coerceToU64 ma) p a ≡ qty ma p a [ZMOD wordCard] :=
  qty_map_modEq (f := PositiveCoin.val) (fun _ => Int.ModEq.rfl) ma p a

theorem coerceToCoin_modEq {ma : Multiasset Int64} {e : ValidationError} {r : Multiasset Coin}
    (h : coerceToCoin ma e = .ok r) (p : PolicyId) (a : AssetName) :
    qty r p a ≡ qty ma p a [ZMOD wordCard] := by
  refine qty_mapM_modEq (fun x y hxy => ?_) h p a
  have hxy := tryFrom_eq_some.1 (Outcome.ofOption_eq_ok.1 hxy)
  exact congrArg (· % wordCard) hxy

theorem tryFrom_val {n : UInt64} {c : PositiveCoin} (h : PositiveCoin.tryFrom n = some c) : c.val = n := by
  rw [PositiveCoin.tryFrom] at h
  split at h
  · cases h
  · obtain rfl : (⟨n⟩ : PositiveCoin) = c := by simpa using h
    rfl

theorem conwayCoerceToCoin_modEq {ma : Multiasset UInt64} {e : ValidationError} {r : Multiasset PositiveCoin}
    (h : conwayCoerceToCoin ma e = .ok r) (p : PolicyId) (a : AssetName) :
    qty r p a ≡ qty ma p a [ZMOD wordCard] := by
  refine qty_mapM_modEq (fun x y hxy => ?_) h p a
  exact congrArg (toInt · % wordCard) (tryFrom_val (Outcome.unwrap_eq_ok.1 hxy))

theorem conwayCoerceToNonZeroCoin_modEq {ma : Multiasset NonZeroInt} {e : ValidationError}
    {r : Multiasset PositiveCoin} (h : conwayCoerceToNonZeroCoin ma e = .ok r) (p : PolicyId) (a : AssetName) :
    qty r p a ≡ qty ma p a [ZMOD wordCard] := by
  refine qty_mapM_modEq (fun x y hxy => ?_) h p a
  have hval : amount y = toInt (cast x.1 : UInt64) := congrArg toInt (tryFrom_val (Outcome.unwrap_eq_ok.1 hxy))
  rw [hval]
  exact cast_modEq (β := UInt64) x.1

/-! ### What a value stands for -/

section Parts
variable {A : Type}

/-- The bundle of a value. -/
def GenValue.assets : GenValue A → Multiasset A
  | .coin _ => ∅
  | .multiasset _ ma => ma

@[simp] theorem assets_coin (n : Coin) : (GenValue.coin n : GenValue A).assets = ∅ := rfl

@[simp] theorem assets_multiasset (n : Coin) (ma : Multiasset A) : (GenValue.multiasset n ma).assets = ma := rfl

@[simp] theorem lovelace_coin (n : Coin) : (GenValue.coin n : GenValue A).lovelace = n := rfl

@[simp] theorem lovelace_multiasset (n : Coin) (ma : Multiasset A) : (GenValue.multiasset n ma).lovelace = n := rfl

end Parts

section Values
variable {A : Type} [Quantity A]

/-- The quantities of a value. -/
def GenValue.holding (v : GenValue A) : Holding := (toInt v.lovelace, qty v.assets)

/-- The value has some lovelace, and no asset in a quantity of zero. -/
def GenValue.Positive (v : GenValue A) : Prop :=
  0 < toInt v.lovelace ∧
    ∀ (p : PolicyId) (names : FinMap AssetName A), v.assets[p]? = some names →
      ∀ (a : AssetName) (n : A), names[a]? = some n → 0 < amount n

/-- The value has the lovelace of the holding, and its assets modulo `2 ^ 64`. -/
def Represents (v : GenValue A) (h : Holding) : Prop :=
  toInt v.lovelace = h.1 ∧ ∀ p a, qty v.assets p a ≡ h.2 p a [ZMOD wordCard]

theorem represents_holding (v : GenValue A) : Represents v v.holding := ⟨rfl, fun _ _ => Int.ModEq.rfl⟩

/-- A fee, or any amount of lovelace. -/
def lovelaceHolding (n : Coin) : Holding := (toInt n, 0)

theorem represents_coin (n : Coin) : Represents (GenValue.coin n : GenValue A) (lovelaceHolding n) :=
  ⟨rfl, fun p a => by simp [lovelaceHolding]⟩

theorem addLovelace_eq_ok {f s n : Coin} {e : ValidationError} (h : addLovelace f s e = .ok n) :
    toInt n = toInt f + toInt s :=
  checkedAdd_eq_some.1 (Outcome.ofOption_eq_ok.1 h)

/-- Both copies of `add_values` add what values stand for. -/
theorem genAddValues_represents {addAssets : Multiasset A → Multiasset A → Outcome ValidationError (Multiasset A)}
    (hadd : ∀ f s r, addAssets f s = .ok r → ∀ p a, qty r p a ≡ qty f p a + qty s p a [ZMOD wordCard])
    {f s r : GenValue A} {e : ValidationError} (h : genAddValues addAssets f s e = .ok r) {hf hs : Holding}
    (hfr : Represents f hf) (hsr : Represents s hs) : Represents r (hf + hs) := by
  obtain ⟨hfl, hfa⟩ := hfr
  obtain ⟨hsl, hsa⟩ := hsr
  -- in every case the lovelace is a checked sum, and the bundles are added or one of them is empty
  have hsum : toInt r.lovelace = toInt f.lovelace + toInt s.lovelace ∧
      ∀ p a, qty r.assets p a ≡ qty f.assets p a + qty s.assets p a [ZMOD wordCard] := by
    cases f <;> cases s <;> simp only [genAddValues, Outcome.bind_eq_ok, Outcome.ok.injEq] at h
    · obtain ⟨n, hn, rfl⟩ := h
      exact ⟨addLovelace_eq_ok hn, fun p a => by simp⟩
    · obtain ⟨n, hn, rfl⟩ := h
      exact ⟨addLovelace_eq_ok hn, fun p a => by simp⟩
    · obtain ⟨n, hn, rfl⟩ := h
      exact ⟨addLovelace_eq_ok hn, fun p a => by simp⟩
    · obtain ⟨n, hn, ma, hma, rfl⟩ := h
      exact ⟨addLovelace_eq_ok hn, hadd _ _ _ hma⟩
  exact ⟨by rw [hsum.1, hfl, hsl]; rfl, fun p a => (hsum.2 p a).trans ((hfa p a).add (hsa p a))⟩

end Values

section Operations
variable {pr : Profile} {e : ValidationError} {hf hs : Holding}

/-- `add_values`. -/
theorem addValues_represents {f s r : Value} (h : addValues pr f s e = .ok r)
    (hfr : Represents f hf) (hsr : Represents s hs) : Represents r (hf + hs) := by
  refine genAddValues_represents (fun f s r h p a => ?_) h hfr hsr
  obtain ⟨sum, hsum, h⟩ := Outcome.bind_eq_ok.1 h
  have hadd : qty sum p a ≡ _ [ZMOD wordCard] := conwayAddMultiassetValues_modEq hsum p a
  exact (coerceToCoin_modEq h p a).trans
    (hadd.trans ((coerceToI64_modEq f p a).add (coerceToI64_modEq s p a)))

/-- `conway_add_values`. -/
theorem conwayAddValues_represents {f s r : ConwayValue} (h : conwayAddValues pr f s e = .ok r)
    (hfr : Represents f hf) (hsr : Represents s hs) : Represents r (hf + hs) := by
  refine genAddValues_represents (fun f s r h p a => ?_) h hfr hsr
  obtain ⟨sum, hsum, h⟩ := Outcome.bind_eq_ok.1 h
  have hadd : qty sum p a ≡ _ [ZMOD wordCard] := conwayAddMultiassetValues_modEq hsum p a
  exact (conwayCoerceToCoin_modEq h p a).trans
    (hadd.trans ((coerceToU64_modEq f p a).add (coerceToU64_modEq s p a)))

/-- What a mint field stands for: no lovelace, and signed quantities. -/
def mintHolding {A : Type} [Quantity A] (mint : Option (Multiasset A)) : Holding :=
  (0, fun p a => mint.elim 0 fun m => qty m p a)

theorem mintHolding_none {A : Type} [Quantity A] : mintHolding (none : Option (Multiasset A)) = 0 := rfl

theorem Represents.add_mint {A B : Type} [Quantity A] [Quantity B] {base r : GenValue A} {minted : Multiasset B}
    (hb : Represents base hf) (hl : r.lovelace = base.lovelace)
    (ha : ∀ p a, qty r.assets p a ≡ qty base.assets p a + qty minted p a [ZMOD wordCard]) :
    Represents r (hf + mintHolding (some minted)) := by
  refine ⟨?_, fun p a => (ha p a).trans ((hb.2 p a).add_right _)⟩
  rw [hl, hb.1]
  exact (add_zero _).symm

/-- `add_minted_value`. -/
theorem addMintedValue_represents {base r : Value} {minted : Multiasset Int64}
    (h : addMintedValue pr base minted e = .ok r) (hb : Represents base hf) :
    Represents r (hf + mintHolding (some minted)) := by
  cases base with
  | coin n =>
    obtain ⟨ma, hma, h⟩ := Outcome.bind_eq_ok.1 h
    obtain rfl : GenValue.multiasset n ma = r := by simpa using h
    exact hb.add_mint rfl fun p a => by simpa using coerceToCoin_modEq hma p a
  | multiasset n assets =>
    obtain ⟨sum, hsum, h⟩ := Outcome.bind_eq_ok.1 h
    obtain ⟨ma, hma, h⟩ := Outcome.bind_eq_ok.1 h
    obtain rfl : GenValue.multiasset n ma = r := by simpa using h
    refine hb.add_mint rfl fun p a => ?_
    have hadd : qty sum p a ≡ _ [ZMOD wordCard] := conwayAddMultiassetValues_modEq hsum p a
    exact (coerceToCoin_modEq hma p a).trans (hadd.trans ((coerceToI64_modEq assets p a).add_right _))

/-- `conway_add_minted_non_zero`. -/
theorem conwayAddMintedNonZero_represents {base r : ConwayValue} {minted : Multiasset NonZeroInt}
    (h : conwayAddMintedNonZero pr base minted e = .ok r) (hb : Represents base hf) :
    Represents r (hf + mintHolding (some minted)) := by
  cases base with
  | coin n =>
    obtain ⟨ma, hma, h⟩ := Outcome.bind_eq_ok.1 h
    obtain rfl : GenValue.multiasset n ma = r := by simpa using h
    exact hb.add_mint rfl fun p a => by simpa using conwayCoerceToNonZeroCoin_modEq hma p a
  | multiasset n assets =>
    obtain ⟨sum, hsum, h⟩ := Outcome.bind_eq_ok.1 h
    obtain ⟨ma, hma, h⟩ := Outcome.bind_eq_ok.1 h
    obtain rfl : GenValue.multiasset n ma = r := by simpa using h
    refine hb.add_mint rfl fun p a => ?_
    have hadd : qty sum p a ≡ _ [ZMOD wordCard] := conwayAddMultiassetNonNegativeValues_modEq hsum p a
    exact (conwayCoerceToCoin_modEq hma p a).trans (hadd.trans ((coerceToU64_modEq assets p a).add_right _))

theorem addMint_represents {base r : Value} {mint : Option (Multiasset Int64)}
    (h : addMint pr base mint e = .ok r) (hb : Represents base hf) : Represents r (hf + mintHolding mint) := by
  cases mint with
  | none =>
    obtain rfl : base = r := by simpa [addMint] using h
    rwa [mintHolding_none, add_zero]
  | some m => exact addMintedValue_represents h hb

theorem conwayAddMint_represents {base r : ConwayValue} {mint : Option (Multiasset NonZeroInt)}
    (h : conwayAddMint pr base mint e = .ok r) (hb : Represents base hf) :
    Represents r (hf + mintHolding mint) := by
  cases mint with
  | none =>
    obtain rfl : base = r := by simpa [conwayAddMint] using h
    rwa [mintHolding_none, add_zero]
  | some m => exact conwayAddMintedNonZero_represents h hb

end Operations

/-! ### Loops and comparisons -/

section Loops
variable {A σ : Type} [Quantity A]

theorem fold_represents {f : GenValue A → σ → Outcome ValidationError (GenValue A)} {hold : σ → Holding}
    (hf : ∀ v x w h, f v x = .ok w → Represents v h → Represents w (h + hold x))
    {xs : List σ} {v r : GenValue A} {h₀ : Holding} (hv : Represents v h₀)
    (h : Outcome.fold f v xs = .ok r) : Represents r (h₀ + (xs.map hold).sum) := by
  refine Outcome.fold_inv (fun pre w => Represents w (h₀ + (pre.map hold).sum)) ?_ ?_ h
  · intro pre x w w' hR hw
    have hstep := hf _ _ _ _ hw hR
    rwa [List.map_append, List.sum_append, ← add_assoc, List.map_singleton, List.sum_singleton]
  · simpa using hv

end Loops

section Comparison
variable {A : Type} [Quantity A] {word : A → UInt64}

/-- One half of the comparison of bundles: what the first holds any of, the second holds as much of. -/
theorem genMultiAssetIncluded_qty (hword : ∀ x, amount x = toInt (word x)) {fma sma : Multiasset A}
    (h : genMultiAssetIncluded word fma sma = true) (p : PolicyId) (a : AssetName) :
    qty fma p a = 0 ∨ qty fma p a = qty sma p a := by
  simp only [qty, nameQty, FinMap.look]
  cases hp : fma[p]? with
  | none => exact .inl rfl
  | some fassets =>
    have hfp := List.all_eq_true.1 h _ (FinMap.mem_toList.2 hp)
    cases hs : sma[p]? with
    | none => simp [hs] at hfp
    | some sassets =>
      simp only [Option.elim_some]
      cases ha : fassets[a]? with
      | none => exact .inl rfl
      | some x =>
        simp only [hs] at hfp
        have hfa := List.all_eq_true.1 hfp _ (FinMap.mem_toList.2 ha)
        rcases Bool.or_eq_true_iff.1 hfa with h0 | heq
        · exact .inl (by rw [Option.elim_some, hword, beq_iff_eq.1 h0]; rfl)
        · cases hy : sassets[a]? with
          | none => simp [hy] at heq
          | some y =>
            simp only [hy, beq_iff_eq] at heq
            exact .inr (by rw [Option.elim_some, Option.elim_some, hword, hword, heq])

theorem genMultiAssetsAreEqual_qty (hword : ∀ x, amount x = toInt (word x)) {fma sma : Multiasset A}
    (h : genMultiAssetsAreEqual word fma sma = true) : qty fma = qty sma := by
  obtain ⟨hfs, hsf⟩ := Bool.and_eq_true_iff.1 h
  funext p a
  rcases genMultiAssetIncluded_qty hword hfs p a with hf | hf
  · rcases genMultiAssetIncluded_qty hword hsf p a with hs | hs
    · rw [hf, hs]
    · exact hs.symm
  · exact hf

theorem genValuesAreEqual_holding (hword : ∀ x, amount x = toInt (word x)) {f s : GenValue A}
    (h : genValuesAreEqual word f s = true) : f.holding = s.holding := by
  cases f <;> cases s <;>
    simp only [genValuesAreEqual, Bool.and_eq_true_iff, beq_iff_eq, ExtTreeMap.isEmpty_iff] at h
  · rw [h]
  · rw [h.1, h.2]; rfl
  · rw [h.1, h.2]; rfl
  · exact Prod.ext (congrArg toInt h.1) (genMultiAssetsAreEqual_qty hword h.2)

theorem valuesAreEqual_holding {f s : Value} (h : valuesAreEqual f s = true) : f.holding = s.holding :=
  genValuesAreEqual_holding (fun _ => rfl) h

theorem conwayValuesAreEqual_holding {f s : ConwayValue} (h : conwayValuesAreEqual f s = true) :
    f.holding = s.holding :=
  genValuesAreEqual_holding (fun _ => rfl) h

end Comparison

/-- Holdings with one lovelace, and asset quantities that agree modulo `2 ^ 64`. -/
def Congruent (x y : Holding) : Prop := x.1 = y.1 ∧ ∀ p a, x.2 p a ≡ y.2 p a [ZMOD wordCard]

theorem Represents.congruent {A : Type} [Quantity A] {v w : GenValue A} {x y : Holding}
    (hv : Represents v x) (hw : Represents w y) (h : v.holding = w.holding) : Congruent x y := by
  refine ⟨?_, fun p a => ?_⟩
  · rw [← hv.1, ← hw.1]
    exact congrArg Prod.fst h
  · have hq : qty v.assets p a = qty w.assets p a := congrFun (congrFun (congrArg Prod.snd h) p) a
    exact (hv.2 p a).symm.trans (hq ▸ hw.2 p a)

end Pallas
