import Pallas.Validate.Holdings

/-!
# What adding two values gives

Lovelace is added with a check. Quantities of assets are added without one: `add_values` and `add_minted_value` read them as
signed first, and refuse a sum that is negative; `conway_add_values` keeps them unsigned, and panics at a sum of zero. So a sum
is the sum of the integers, or the error that was asked for, exactly where no addition leaves its type and no reading has
changed a quantity whose sum is then accepted.
-/

namespace Pallas
open Std MachineInt
open Quantity (amount)

/-! ### The assets of a bundle, one by one -/

section entries
variable {A : Type}

/-- The quantity of an asset, if the bundle lists it. -/
def listedQty (ma : Multiasset A) (p : PolicyId) (a : AssetName) : Option A := ma[p]?.bind fun names => names[a]?

@[simp] theorem listedQty_empty (p : PolicyId) (a : AssetName) : listedQty (∅ : Multiasset A) p a = none := by
  rw [listedQty, ExtTreeMap.getElem?_empty, Option.bind_none]

theorem listedQty_of_getElem? {ma : Multiasset A} {p : PolicyId} {names : FinMap AssetName A} (h : ma[p]? = some names)
    (a : AssetName) : listedQty ma p a = names[a]? := by
  rw [listedQty, h, Option.bind_some]

theorem listedQty_getD (ma : Multiasset A) (p : PolicyId) (a : AssetName) : listedQty ma p a = (ma[p]?.getD ∅)[a]? := by
  rw [listedQty]
  cases ma[p]? with
  | none => rw [Option.bind_none, Option.getD_none, ExtTreeMap.getElem?_empty]
  | some names => rfl

/-- Bundles with the same policies and the same assets are equal. -/
theorem multiasset_ext {m n : Multiasset A} (hkeys : ∀ p, p ∈ m ↔ p ∈ n)
    (hentries : ∀ p a, listedQty m p a = listedQty n p a) :
    m = n := by
  refine ExtTreeMap.ext_getElem? fun p => ?_
  cases hm : m[p]? with
  | none =>
    cases hn : n[p]? with
    | none => rfl
    | some names =>
      obtain ⟨names', hnames'⟩ := FinMap.exists_of_mem ((hkeys p).2 (FinMap.mem_of_getElem? hn))
      cases hm.symm.trans hnames'
  | some names =>
    obtain ⟨names', hn⟩ := FinMap.exists_of_mem ((hkeys p).1 (FinMap.mem_of_getElem? hm))
    rw [hn, Option.some.injEq]
    refine ExtTreeMap.ext_getElem? fun a => ?_
    rw [← listedQty_of_getElem? hm, ← listedQty_of_getElem? hn, hentries]

theorem qty_eq_listedQty [Quantity A] (ma : Multiasset A) (p : PolicyId) (a : AssetName) :
    qty ma p a = (listedQty ma p a).elim 0 amount := by
  simp only [qty, nameQty, FinMap.look, listedQty]
  cases ma[p]? with
  | none => rfl
  | some names => rfl

end entries

/-! ### Sums of bundles -/

section sums
variable {T : Type} [MachineInt T] {pr : Profile}

/-- The sum of two quantities, as a release build computes it. -/
def wrapAdd (x y : T) : T := wrap (toInt x + toInt y)

/-- No sum of two quantities of one asset leaves the type. -/
def Room (first second : Multiasset T) : Prop :=
  ∀ p a x y, listedQty first p a = some x → listedQty second p a = some y → Fits T (toInt x + toInt y)

theorem addPolicy_getElem? {old : Option (FinMap AssetName T)} {new v : FinMap AssetName T}
    (h : addPolicy pr old new = .ok v)
    (a : AssetName) : v[a]? = Option.merge wrapAdd (old.getD ∅)[a]? new[a]? := by
  cases hnew : new[a]? with
  | none =>
    rw [FinMap.upsert_getElem?_none h hnew]
    cases (old.getD ∅)[a]? <;> rfl
  | some y =>
    obtain ⟨z, hz, hv⟩ := FinMap.upsert_getElem?_some h hnew
    rw [hv]
    cases hold : (old.getD ∅)[a]? with
    | none =>
      rw [hold] at hz
      rw [← Outcome.ok.inj hz]
      rfl
    | some x =>
      rw [hold] at hz
      obtain ⟨rfl, -⟩ := exact_eq_ok.1 hz
      rfl

theorem addPolicy_ok {old : Option (FinMap AssetName T)} {new : FinMap AssetName T} :
    (∃ v, addPolicy pr old new = .ok v) ↔
      pr = .release ∨ ∀ (a : AssetName) (x y : T), (old.getD ∅)[a]? = some x → new[a]? = some y →
        Fits T (toInt x + toInt y) := by
  refine FinMap.upsert_ok_iff.trans ?_
  constructor
  · intro h
    by_cases hpr : pr = .release
    · exact .inl hpr
    · refine .inr fun a x y hx hy => ?_
      obtain ⟨z, hz⟩ := h a y hy
      simp only [hx, addAmount] at hz
      exact (exact_eq_ok.1 hz).2.resolve_right hpr
  · intro h a y hy
    cases hx : (old.getD ∅)[a]? with
    | none => exact ⟨y, rfl⟩
    | some x =>
      refine ⟨wrapAdd x y, exact_eq_ok.2 ⟨rfl, ?_⟩⟩
      rcases h with hpr | hfits
      · exact .inr hpr
      · exact .inl (hfits a x y hx hy)

theorem upsert_addPolicy_entry {m new r : Multiasset T} (h : FinMap.upsert (addPolicy pr) m new = .ok r) :
    (∀ p, p ∈ r ↔ p ∈ m ∨ p ∈ new) ∧
      ∀ p a, listedQty r p a = Option.merge wrapAdd (listedQty m p a) (listedQty new p a) := by
  constructor
  · intro p
    simp only [ExtTreeMap.mem_iff_isSome_getElem?]
    cases hnew : new[p]? with
    | none => simp [FinMap.upsert_getElem?_none h hnew]
    | some names =>
      obtain ⟨v, -, hr⟩ := FinMap.upsert_getElem?_some h hnew
      simp [hr]
  · intro p a
    cases hnew : new[p]? with
    | none =>
      rw [listedQty, FinMap.upsert_getElem?_none h hnew, ← listedQty, listedQty, listedQty, hnew, Option.bind_none]
      cases m[p]?.bind fun names => names[a]? <;> rfl
    | some names =>
      obtain ⟨v, hv, hr⟩ := FinMap.upsert_getElem?_some h hnew
      rw [listedQty_of_getElem? hr, addPolicy_getElem? hv, listedQty_of_getElem? hnew, listedQty_getD m]

theorem upsert_addPolicy_ok {m new : Multiasset T} :
    (∃ r, FinMap.upsert (addPolicy pr) m new = .ok r) ↔ pr = .release ∨ Room m new := by
  refine FinMap.upsert_ok_iff.trans ?_
  simp only [addPolicy_ok]
  constructor
  · intro h
    by_cases hpr : pr = .release
    · exact .inl hpr
    · refine .inr fun p a x y hx hy => ?_
      obtain ⟨names, hnames, hy⟩ := Option.bind_eq_some_iff.1 hy
      rw [listedQty_getD] at hx
      exact (h p names hnames).resolve_left hpr a x y hx hy
  · rintro (hpr | hroom) p names hnames
    · exact .inl hpr
    · refine .inr fun a x y hx hy => hroom p a x y ?_ ?_
      · rw [listedQty_getD]
        exact hx
      · rw [listedQty_of_getElem? hnames]
        exact hy

/-- Every asset of either bundle is in the sum, with the sum of its quantities. -/
theorem conwayAddMultiassetValues_entry {first second r : Multiasset T}
    (h : conwayAddMultiassetValues pr first second = .ok r) :
    (∀ p, p ∈ r ↔ p ∈ first ∨ p ∈ second) ∧
      ∀ p a, listedQty r p a = Option.merge wrapAdd (listedQty first p a) (listedQty second p a) := by
  obtain ⟨res, hres, hr⟩ := Outcome.bind_eq_ok.1 h
  obtain ⟨hkeys, hentries⟩ := upsert_addPolicy_entry hres
  obtain ⟨hkeys', hentries'⟩ := upsert_addPolicy_entry hr
  refine ⟨fun p => ?_, fun p a => ?_⟩
  · rw [hkeys', hkeys]
    simp
  · rw [hentries', hentries, listedQty_empty]
    cases listedQty first p a <;> rfl

theorem conwayAddMultiassetValues_ok {first second : Multiasset T} :
    (∃ r, conwayAddMultiassetValues pr first second = .ok r) ↔ pr = .release ∨ Room first second := by
  obtain ⟨res, hres⟩ := (@upsert_addPolicy_ok T _ pr ∅ first).2 (.inr fun p a x y hx => by simp at hx)
  obtain ⟨-, hentries⟩ := upsert_addPolicy_entry hres
  have hsame : ∀ p a, listedQty res p a = listedQty first p a := fun p a => by
    rw [hentries, listedQty_empty]
    cases listedQty first p a <;> rfl
  have hroom : Room res second ↔ Room first second := by simp only [Room, hsame]
  rw [← hroom, ← upsert_addPolicy_ok, conwayAddMultiassetValues, hres, Outcome.ok_bind]

theorem addAmount_sure (old : Option T) (new : T) : (addAmount pr old new).Sure := by
  cases old with
  | none => exact .of_ok _
  | some old => exact fun _ => exact_ne_err

/-- A sum of bundles is a bundle, or a debug build panics. -/
theorem conwayAddMultiassetValues_sure (first second : Multiasset T) :
    (conwayAddMultiassetValues pr first second).Sure := by
  have hnames : ∀ (old : Option (FinMap AssetName T)) (new : FinMap AssetName T),
      (addPolicy pr old new).Sure := fun old new =>
    Outcome.Sure.fold (fun m e => (addAmount_sure _ _).bind fun _ => .of_ok _) _
  have hpolicies : ∀ m new : Multiasset T, (FinMap.upsert (addPolicy pr) m new).Sure := fun m new =>
    Outcome.Sure.fold (fun m e => (hnames _ _).bind fun _ => .of_ok _) _
  exact (hpolicies ∅ first).bind fun res => hpolicies res second

theorem conwayAddMultiassetValues_qty {first second r : Multiasset T} (hroom : Room first second)
    (h : conwayAddMultiassetValues pr first second = .ok r) (p : PolicyId) (a : AssetName) :
    qty r p a = qty first p a + qty second p a := by
  rw [qty_eq_listedQty, qty_eq_listedQty, qty_eq_listedQty, (conwayAddMultiassetValues_entry h).2]
  cases hx : listedQty first p a with
  | none =>
    cases listedQty second p a with
    | none => rfl
    | some y => exact (zero_add _).symm
  | some x =>
    cases hy : listedQty second p a with
    | none => exact (add_zero _).symm
    | some y => exact toInt_wrap_of_fits (hroom p a x y hx hy)

end sums

/-! ### Changes of representation -/

section conversions
variable {A B : Type} {f : A → Outcome ValidationError B} {ma : Multiasset A} {r : Multiasset B} {e : ValidationError}

theorem listedQty_map (g : A → B) (ma : Multiasset A) (p : PolicyId) (a : AssetName) :
    listedQty (ma.map fun _ names => names.map fun _ x => g x) p a = (listedQty ma p a).map g := by
  simp only [listedQty, ExtTreeMap.getElem?_map]
  cases ma[p]? with
  | none => rfl
  | some names => simp only [Option.map_some, Option.bind_some, ExtTreeMap.getElem?_map]

/-- Every asset of a bundle is converted on its own. -/
theorem mapM_entry (h : FinMap.mapM (fun names => FinMap.mapM f names) ma = .ok r) :
    (∀ p, p ∈ r ↔ p ∈ ma) ∧ ∀ p a, (listedQty ma p a = none → listedQty r p a = none) ∧
      ∀ x, listedQty ma p a = some x → ∃ y, f x = .ok y ∧ listedQty r p a = some y := by
  constructor
  · intro p
    simp only [ExtTreeMap.mem_iff_isSome_getElem?]
    cases hp : ma[p]? with
    | none => simp [FinMap.upsert_getElem?_none h hp]
    | some names =>
      obtain ⟨v, -, hr⟩ := FinMap.upsert_getElem?_some h hp
      simp [hr]
  · intro p a
    cases hp : ma[p]? with
    | none =>
      have hr := FinMap.upsert_getElem?_none h hp
      simp [listedQty, hp, hr]
    | some names =>
      obtain ⟨v, hv, hr⟩ := FinMap.upsert_getElem?_some h hp
      rw [listedQty_of_getElem? hp, listedQty_of_getElem? hr]
      refine ⟨fun hnone => ?_, fun x hx => FinMap.upsert_getElem?_some hv hx⟩
      rw [FinMap.upsert_getElem?_none hv hnone, ExtTreeMap.getElem?_empty]

theorem mapM_ok : (∃ r, FinMap.mapM (fun names => FinMap.mapM f names) ma = .ok r) ↔
    ∀ p a x, listedQty ma p a = some x → ∃ y, f x = .ok y := by
  refine FinMap.mapM_ok_iff.trans ?_
  constructor
  · intro h p a x hx
    obtain ⟨names, hnames, hx⟩ := Option.bind_eq_some_iff.1 hx
    exact FinMap.mapM_ok_iff.1 (h p names hnames) a x hx
  · intro h p names hnames
    refine FinMap.mapM_ok_iff.2 fun a x hx => h p a x ?_
    rw [listedQty_of_getElem? hnames]
    exact hx

/-- A call that gives a value, or this error. -/
def OkOr {α : Type} (e : ValidationError) (x : Outcome ValidationError α) : Prop := (∃ a, x = .ok a) ∨ x = .err e

/-- A call that gives such a value, or this error. -/
def GivesOr {α : Type} (e : ValidationError) (P : α → Prop) (x : Outcome ValidationError α) : Prop :=
  (∃ a, x = .ok a ∧ P a) ∨ x = .err e

theorem givesOr_bind_ok {α β : Type} {P : β → Prop} {x : Outcome ValidationError α} {g : α → β} :
    GivesOr e P (x >>= fun a => .ok (g a)) ↔ GivesOr e (fun a => P (g a)) x := by
  cases x with
  | ok a => simp [GivesOr]
  | err e' => simp [GivesOr]
  | panic => simp [GivesOr]

theorem OkOr.bind {α β : Type} {x : Outcome ValidationError α} {g : α → Outcome ValidationError β} (hx : OkOr e x)
    (hg : ∀ a, OkOr e (g a)) : OkOr e (x >>= g) := by
  rcases hx with ⟨a, rfl⟩ | rfl
  · exact hg a
  · exact .inr rfl

theorem OkOr.fold {α σ : Type} {g : σ → α → Outcome ValidationError σ} (hg : ∀ s x, OkOr e (g s x))
    (xs : List α) (s : σ) :
    OkOr e (Outcome.fold g s xs) := by
  induction xs generalizing s with
  | nil => exact .inl ⟨s, rfl⟩
  | cons x xs ih => exact (hg s x).bind ih

theorem OkOr.mapM {K V W : Type} [Ord K] [TransOrd K] {g : V → Outcome ValidationError W} (hg : ∀ v, OkOr e (g v))
    (m : FinMap K V) : OkOr e (FinMap.mapM g m) :=
  OkOr.fold (g := FinMap.upsertAt fun _ v => g v) (fun _ t => (hg t.2).bind fun _ => .inl ⟨_, rfl⟩) _ _

end conversions

section coin
variable {e : ValidationError}

theorem tryFrom_ok {n : Int64} (h : 0 ≤ toInt n) :
    ∃ c : Coin, Outcome.ofOption e (tryFrom n) = .ok c ∧ toInt c = toInt n := by
  have hhi : toInt n ≤ 2 ^ 63 - 1 := le_hi n
  have hfits : Fits Coin (toInt n) := ⟨h, by show toInt n ≤ 2 ^ 64 - 1; omega⟩
  refine ⟨wrap (toInt n), ?_, toInt_wrap_of_fits hfits⟩
  rw [tryFrom, if_pos hfits, Outcome.ofOption]

theorem coerceToCoin_cases (ma : Multiasset Int64) :
    ((∀ p a, 0 ≤ qty ma p a) ∧ ∃ r, coerceToCoin ma e = .ok r ∧ qty r = qty ma) ∨
      ((∃ p a, qty ma p a < 0) ∧ coerceToCoin ma e = .err e) := by
  have hcoin : ∀ n : Int64, OkOr e (Outcome.ofOption e (tryFrom n : Option Coin)) := fun n => by
    cases (tryFrom n : Option Coin) with
    | none => exact .inr rfl
    | some c => exact .inl ⟨c, rfl⟩
  have hokOr : OkOr e (coerceToCoin ma e) := OkOr.mapM (OkOr.mapM hcoin) ma
  by_cases hneg : ∀ p a, 0 ≤ qty ma p a
  · refine .inl ⟨hneg, ?_⟩
    obtain ⟨r, hr⟩ := mapM_ok.2 fun p a x hx => by
      have hx' := hneg p a
      rw [qty_eq_listedQty, hx, Option.elim_some] at hx'
      obtain ⟨c, hc, -⟩ := @tryFrom_ok e x hx'
      exact ⟨c, hc⟩
    refine ⟨r, hr, funext fun p => funext fun a => ?_⟩
    obtain ⟨-, hentries⟩ := mapM_entry hr
    obtain ⟨hnone, hsome⟩ := hentries p a
    rw [qty_eq_listedQty, qty_eq_listedQty]
    cases hx : listedQty ma p a with
    | none => rw [hnone hx]; rfl
    | some x =>
      obtain ⟨y, hy, hry⟩ := hsome x hx
      rw [hry]
      exact tryFrom_eq_some.1 (Outcome.ofOption_eq_ok.1 hy)
  · push Not at hneg
    refine .inr ⟨hneg, hokOr.resolve_left ?_⟩
    rintro ⟨r, hr⟩
    obtain ⟨p, a, hneg⟩ := hneg
    rw [qty_eq_listedQty] at hneg
    cases hx : listedQty ma p a with
    | none =>
      rw [hx] at hneg
      exact absurd hneg (lt_irrefl 0)
    | some x =>
      obtain ⟨-, hentries⟩ := mapM_entry hr
      obtain ⟨y, hy, -⟩ := (hentries p a).2 x hx
      have hsame : toInt y = toInt x := tryFrom_eq_some.1 (Outcome.ofOption_eq_ok.1 hy)
      have hlo : 0 ≤ toInt y := lo_le y
      rw [hx] at hneg
      have hneg' : toInt x < 0 := hneg
      omega

/-- The quantity of some asset in the two bundles together is negative. -/
def Negative (first second : Multiasset Int64) : Prop := ∃ p a, qty first p a + qty second p a < 0

/-- Adding signed bundles, and reading the sum as coins, gives these quantities or the error exactly where there is room, and
the sums are these quantities or one of them is negative. -/
theorem signedSum_iff {first second : Multiasset Int64} {h : PolicyId → AssetName → ℤ} :
    (∀ pr, GivesOr e (fun r => qty r = h) (addMultiassetValues pr first second >>= fun sum => coerceToCoin sum e)) ↔
      Room first second ∧ ((fun p a => qty first p a + qty second p a) = h ∨ Negative first second) := by
  constructor
  · intro hall
    have hroom : Room first second := by
      have hdebug := hall .debug
      cases hsum : addMultiassetValues .debug first second with
      | ok sum => exact (conwayAddMultiassetValues_ok.1 ⟨sum, hsum⟩).resolve_left nofun
      | err e' => exact absurd hsum (conwayAddMultiassetValues_sure first second e')
      | panic =>
        rw [hsum, Outcome.panic_bind] at hdebug
        rcases hdebug with ⟨r, hr, -⟩ | herr
        · cases hr
        · cases herr
    refine ⟨hroom, ?_⟩
    obtain ⟨sum, hsum⟩ := (@conwayAddMultiassetValues_ok Int64 _ .release first second).2 (.inl rfl)
    have hqty : qty sum = fun p a => qty first p a + qty second p a :=
      funext fun p => funext fun a => conwayAddMultiassetValues_qty hroom hsum p a
    have hrelease := hall .release
    rw [addMultiassetValues, hsum, Outcome.ok_bind] at hrelease
    rcases coerceToCoin_cases (e := e) sum with ⟨-, r, hr, hrqty⟩ | ⟨⟨p, a, hneg⟩, -⟩
    · refine .inl ?_
      rcases hrelease with ⟨r', hr', hh⟩ | herr
      · obtain rfl := Outcome.ok.inj (hr.symm.trans hr')
        rw [← hqty, ← hrqty, hh]
      · cases hr.symm.trans herr
    · rw [hqty] at hneg
      exact .inr ⟨p, a, hneg⟩
  · rintro ⟨hroom, hcases⟩ pr
    obtain ⟨sum, hsum⟩ := (@conwayAddMultiassetValues_ok Int64 _ pr first second).2 (.inr hroom)
    have hqty : qty sum = fun p a => qty first p a + qty second p a :=
      funext fun p => funext fun a => conwayAddMultiassetValues_qty hroom hsum p a
    rw [addMultiassetValues, hsum, Outcome.ok_bind]
    rcases coerceToCoin_cases (e := e) sum with ⟨hnonneg, r, hr, hrqty⟩ | ⟨-, herr⟩
    · refine .inl ⟨r, hr, ?_⟩
      rcases hcases with hh | ⟨p, a, hneg⟩
      · rw [hrqty, hqty, hh]
      · have hsum := hnonneg p a
        rw [hqty] at hsum
        exact absurd hneg (Int.not_lt.2 hsum)
    · exact .inr herr

end coin

/-! ### `add_values` and `add_minted_value` -/

/-- The call gives a value that stands for the holding, or this error. -/
def SumOrError {A : Type} [Quantity A] (err : ValidationError) (h : Holding)
    (out : Outcome ValidationError (GenValue A)) :
    Prop :=
  GivesOr err (fun v => v.holding = h) out

/-- A bundle put beside some lovelace. -/
theorem sumOrError_bind_multiasset {A : Type} [Quantity A] {err : ValidationError} {n : Coin} {z : ℤ}
    {q : PolicyId → AssetName → ℤ} {x : Outcome ValidationError (Multiasset A)} (hn : toInt n = z) :
    SumOrError err (z, q) (x >>= fun ma => .ok (.multiasset n ma)) ↔ GivesOr err (fun ma => qty ma = q) x := by
  have hiff : ∀ ma : Multiasset A, (GenValue.multiasset n ma).holding = (z, q) ↔ qty ma = q := fun ma =>
    ⟨fun h => congrArg Prod.snd h, fun h => Prod.ext hn h⟩
  simp only [SumOrError, givesOr_bind_ok, hiff]

section signed
variable {err : ValidationError}

/-- Every quantity of the bundle can be read as an `i64`. -/
def Small (ma : Multiasset Coin) : Prop := ∀ p a n, listedQty ma p a = some n → toInt n < 2 ^ 63

theorem toInt_cast_le (n : Coin) :
    toInt (cast n : Int64) ≤ toInt n ∧ (toInt (cast n : Int64) = toInt n ↔ toInt n < 2 ^ 63) := by
  have hnonneg : 0 ≤ toInt n := lo_le n
  have hlow : -2 ^ 63 ≤ toInt (cast n : Int64) := lo_le (cast n : Int64)
  have hhigh : toInt (cast n : Int64) ≤ 2 ^ 63 - 1 := le_hi (cast n : Int64)
  by_cases hn : toInt n < 2 ^ 63
  · have hsame : toInt (cast n : Int64) = toInt n :=
      toInt_cast_of_fits ⟨by show -2 ^ 63 ≤ toInt n; omega, by show toInt n ≤ 2 ^ 63 - 1; omega⟩
    exact ⟨hsame.le, iff_of_true hsame hn⟩
  · exact ⟨by omega, iff_of_false (by omega) hn⟩

/-- Read as signed, a quantity is never more than it was. -/
theorem qty_coerceToI64_le (ma : Multiasset Coin) (p : PolicyId) (a : AssetName) :
    qty (coerceToI64 ma) p a ≤ qty ma p a := by
  rw [qty_eq_listedQty, qty_eq_listedQty, coerceToI64, listedQty_map]
  cases listedQty ma p a with
  | none => exact le_rfl
  | some n => exact (toInt_cast_le n).1

theorem qty_coerceToI64_eq_iff (ma : Multiasset Coin) : (∀ p a, qty (coerceToI64 ma) p a = qty ma p a) ↔ Small ma := by
  constructor
  · intro h p a n hn
    have hpa := h p a
    rw [qty_eq_listedQty, qty_eq_listedQty, coerceToI64, listedQty_map, hn] at hpa
    exact (toInt_cast_le n).2.1 hpa
  · intro h p a
    rw [qty_eq_listedQty, qty_eq_listedQty, coerceToI64, listedQty_map]
    cases hn : listedQty ma p a with
    | none => rfl
    | some n => exact (toInt_cast_le n).2.2 (h p a n hn)

/-- The lovelaces of two values add up in a `u64`. -/
def LovelaceFits {A : Type} (first second : GenValue A) : Prop := toInt first.lovelace + toInt second.lovelace < 2 ^ 64

theorem addLovelace_fits (err : ValidationError) {f s : Coin} (h : toInt f + toInt s < 2 ^ 64) :
    ∃ n, addLovelace f s err = .ok n ∧ toInt n = toInt f + toInt s := by
  have hf : 0 ≤ toInt f := lo_le f
  have hs : 0 ≤ toInt s := lo_le s
  have hfits : Fits Coin (toInt f + toInt s) :=
    ⟨by show 0 ≤ toInt f + toInt s; omega, by show _ ≤ (2 ^ 64 - 1 : ℤ); omega⟩
  refine ⟨wrap (toInt f + toInt s), ?_, toInt_wrap_of_fits hfits⟩
  rw [addLovelace, checkedAdd, if_pos hfits, Outcome.ofOption]

theorem addLovelace_over (err : ValidationError) {f s : Coin} (h : ¬ toInt f + toInt s < 2 ^ 64) :
    addLovelace f s err = .err err := by
  have hfits : ¬ Fits Coin (toInt f + toInt s) := fun hfits => by
    have hhi : toInt f + toInt s ≤ 2 ^ 64 - 1 := hfits.2
    omega
  rw [addLovelace, checkedAdd, if_neg hfits, Outcome.ofOption]

theorem genAddValues_sumOrError {A : Type} [Quantity A] {first second : GenValue A}
    {addAssets : Profile → Multiasset A → Multiasset A → Outcome ValidationError (Multiasset A)} :
    (∀ pr, SumOrError err (first.holding + second.holding) (genAddValues (addAssets pr) first second err)) ↔
      (LovelaceFits first second → ∀ f s fma sma, first = .multiasset f fma → second = .multiasset s sma →
        ∀ pr, GivesOr err (fun r => qty r = fun p a => qty fma p a + qty sma p a) (addAssets pr fma sma)) := by
  by_cases hlove : LovelaceFits first second
  · obtain ⟨n, hn, hsum⟩ := addLovelace_fits err hlove
    have hcoin : ∀ (v : GenValue A), toInt v.lovelace = toInt n →
        (∀ p a, qty v.assets p a = qty first.assets p a + qty second.assets p a) →
        SumOrError err (first.holding + second.holding) (.ok v) := fun v hv hqty =>
      .inl ⟨v, rfl, Prod.ext (hv.trans hsum) (funext fun p => funext fun a => hqty p a)⟩
    simp only [hlove, true_imp_iff]
    cases first with
    | coin f =>
      refine iff_of_true (fun pr => ?_) fun _ _ _ _ hf => by cases hf
      cases second with
      | coin s =>
        rw [lovelace_coin, lovelace_coin] at hn
        rw [genAddValues, hn, Outcome.ok_bind]
        exact hcoin _ rfl fun p a => by simp
      | multiasset s sma =>
        rw [lovelace_coin, lovelace_multiasset] at hn
        rw [genAddValues, hn, Outcome.ok_bind]
        exact hcoin _ rfl fun p a => by simp
    | multiasset f fma =>
      cases second with
      | coin s =>
        refine iff_of_true (fun pr => ?_) fun _ _ _ _ _ hs => by cases hs
        rw [lovelace_multiasset, lovelace_coin] at hn
        rw [genAddValues, hn, Outcome.ok_bind]
        exact hcoin _ rfl fun p a => by simp
      | multiasset s sma =>
        rw [lovelace_multiasset, lovelace_multiasset] at hn
        have hassets : ∀ pr, SumOrError err ((GenValue.multiasset f fma).holding + (GenValue.multiasset s sma).holding)
            (genAddValues (addAssets pr) (.multiasset f fma) (.multiasset s sma) err) ↔
            GivesOr err (fun r => qty r = fun p a => qty fma p a + qty sma p a) (addAssets pr fma sma) := fun pr => by
          rw [genAddValues, hn, Outcome.ok_bind]
          exact sumOrError_bind_multiasset hsum
        simp only [hassets]
        exact ⟨fun h _ _ _ _ hf hs => by cases hf; cases hs; exact h, fun h => h f s fma sma rfl rfl⟩
  · refine iff_of_true (fun pr => .inr ?_) fun h => absurd h hlove
    have hover := addLovelace_over err hlove
    cases first <;> cases second <;> simp only [lovelace_coin, lovelace_multiasset] at hover <;>
      simp only [genAddValues, hover] <;>
      rfl

/-- Every quantity of two bundles can be read as an `i64` and the sums stay in it, or the sums stay in it and one is negative,
which is refused. -/
def SignedSumsRight (fma sma : Multiasset Coin) : Prop :=
  Room (coerceToI64 fma) (coerceToI64 sma) ∧ (Small fma ∧ Small sma ∨ Negative (coerceToI64 fma) (coerceToI64 sma))

/-- What was minted stays in the type when it is added to a base whose quantities can be read as `i64`, or a sum that stays in
it is negative, which is refused. -/
def MintedSumsRight (base : Multiasset Coin) (minted : Multiasset Int64) : Prop :=
  Room (coerceToI64 base) minted ∧ (Small base ∨ Negative (coerceToI64 base) minted)

theorem signedSums_eq_iff (fma sma : Multiasset Coin) :
    ((fun p a => qty (coerceToI64 fma) p a + qty (coerceToI64 sma) p a) = fun p a => qty fma p a + qty sma p a) ↔
      Small fma ∧ Small sma := by
  rw [← qty_coerceToI64_eq_iff, ← qty_coerceToI64_eq_iff]
  constructor
  · intro h
    have hpa := fun p a => congrFun (congrFun h p) a
    have hf := qty_coerceToI64_le fma
    have hs := qty_coerceToI64_le sma
    exact ⟨fun p a => by linarith [hpa p a, hf p a, hs p a], fun p a => by linarith [hpa p a, hf p a, hs p a]⟩
  · rintro ⟨hf, hs⟩
    funext p a
    rw [hf, hs]

/-- `add_values` gives the sum or the error, in both builds, exactly where the lovelaces overflow or the signed sums are
right. -/
theorem addValues_sumOrError (first second : Value) :
    (∀ pr, SumOrError err (first.holding + second.holding) (addValues pr first second err)) ↔
      (LovelaceFits first second →
        ∀ f s fma sma, first = .multiasset f fma → second = .multiasset s sma → SignedSumsRight fma sma) := by
  refine genAddValues_sumOrError.trans ?_
  simp only [SignedSumsRight, ← signedSums_eq_iff, ← signedSum_iff (e := err)]
  rfl

/-- The same of `add_minted_value`. -/
theorem addMintedValue_sumOrError (base : Value) (minted : Multiasset Int64) :
    (∀ pr, SumOrError err (base.holding + mintHolding (some minted)) (addMintedValue pr base minted err)) ↔
      ∀ n ma, base = .multiasset n ma → MintedSumsRight ma minted := by
  cases base with
  | coin n =>
    refine iff_of_true (fun pr => ?_) nofun
    refine (sumOrError_bind_multiasset (add_zero _).symm).2 ?_
    rcases coerceToCoin_cases (e := err) minted with ⟨-, r, hr, hqty⟩ | ⟨-, herr⟩
    · refine .inl ⟨r, hr, ?_⟩
      funext p a
      have hnothing : qty (∅ : Multiasset Coin) p a = 0 := qty_empty p a
      rw [hqty]
      show qty minted p a = qty (∅ : Multiasset Coin) p a + qty minted p a
      rw [hnothing, zero_add]
    · exact .inr herr
  | multiasset n ma =>
    have heq : ((fun p a => qty (coerceToI64 ma) p a + qty minted p a) =
        fun p a => qty ma p a + qty minted p a) ↔ Small ma := by
      rw [← qty_coerceToI64_eq_iff]
      constructor
      · intro h p a
        exact add_right_cancel (congrFun (congrFun h p) a)
      · intro h
        funext p a
        rw [h]
    have hbind : ∀ pr, addMintedValue pr (.multiasset n ma) minted err =
        (addMultiassetValues pr (coerceToI64 ma) minted >>= fun sum => coerceToCoin sum err) >>=
          fun ma => .ok (.multiasset n ma) :=
      fun pr => by rw [addMintedValue, bind_assoc]
    have hassets : ∀ pr, SumOrError err ((GenValue.multiasset n ma).holding + mintHolding (some minted))
        (addMintedValue pr (.multiasset n ma) minted err) ↔
        GivesOr err (fun r => qty r = fun p a => qty ma p a + qty minted p a)
          (addMultiassetValues pr (coerceToI64 ma) minted >>= fun sum => coerceToCoin sum err) := fun pr => by
      rw [hbind]
      exact sumOrError_bind_multiasset (add_zero _).symm
    simp only [hassets, signedSum_iff, heq]
    exact ⟨fun h _ _ hbase => by cases hbase; exact h, fun h => h n ma rfl⟩

/-- `add_values` and `add_minted_value` give the sum or the error in both builds exactly where the signed sums are right. -/
theorem addValues_addMintedValue_sum_iff (first second : Value) (base : Value) (minted : Multiasset Int64)
    (err : ValidationError) :
    ((∀ pr, SumOrError err (first.holding + second.holding) (addValues pr first second err)) ↔
      (LovelaceFits first second →
        ∀ f s fma sma, first = .multiasset f fma → second = .multiasset s sma → SignedSumsRight fma sma)) ∧
    ((∀ pr, SumOrError err (base.holding + mintHolding (some minted)) (addMintedValue pr base minted err)) ↔
      ∀ n ma, base = .multiasset n ma → MintedSumsRight ma minted) :=
  ⟨addValues_sumOrError first second, addMintedValue_sumOrError base minted⟩

/-- All the coins of an asset that there can be, and two more: the sum has one. -/
theorem wrapped_quantity_returned :
    let most : Value := .multiasset 0
      ((∅ : Multiasset Coin).insert 1 ((∅ : FinMap AssetName Coin).insert [] 18446744073709551615))
    let two : Value := .multiasset 0 ((∅ : Multiasset Coin).insert 1 ((∅ : FinMap AssetName Coin).insert [] 2))
    let one : Value := .multiasset 0 ((∅ : Multiasset Coin).insert 1 ((∅ : FinMap AssetName Coin).insert [] 1))
    (∀ pr, addValues pr most two (.shelleyMA .preservationOfValue) = .ok one) ∧
      ∀ pr, ¬ SumOrError (.shelleyMA .preservationOfValue) (most.holding + two.holding)
        (addValues pr most two (.shelleyMA .preservationOfValue)) := by
  intro most two one
  have hone : ∀ pr, addValues pr most two (.shelleyMA .preservationOfValue) = .ok one := fun pr => by
    cases pr <;> rfl
  refine ⟨hone, fun pr => ?_⟩
  rw [hone]
  rintro (⟨v, hv, hhold⟩ | herr)
  · obtain rfl := Outcome.ok.inj hv
    have hqty : (1 : ℤ) = 18446744073709551615 + 2 := congrFun (congrFun (congrArg Prod.snd hhold) 1) []
    omega
  · cases herr

end signed

/-! ### `conway_add_values` -/

section conway
variable {pr : Profile} {err : ValidationError} {f s t r r' x y : Multiasset PositiveCoin}

theorem positiveCoin_tryFrom_ok {n : UInt64} :
    (∃ c, (.unwrap (PositiveCoin.tryFrom n) : Outcome ValidationError PositiveCoin) = .ok c) ↔ n ≠ 0 := by
  simp only [Outcome.unwrap_eq_ok, PositiveCoin.tryFrom]
  split_ifs with hn
  · simp [hn]
  · simp [hn]

theorem conwayCoerceToCoin_ok {ma : Multiasset UInt64} :
    (∃ r, conwayCoerceToCoin ma err = .ok r) ↔ ∀ p a n, listedQty ma p a = some n → n ≠ 0 := by
  refine mapM_ok.trans ?_
  simp only [positiveCoin_tryFrom_ok]

theorem conwayCoerceToCoin_sure (ma : Multiasset UInt64) : (conwayCoerceToCoin ma err).Sure := by
  have hcoin : ∀ n : UInt64,
      (.unwrap (PositiveCoin.tryFrom n) : Outcome ValidationError PositiveCoin).Sure := fun n => by
    rw [PositiveCoin.tryFrom]
    split_ifs
    · exact .of_panic
    · exact .of_ok _
  have hnames : ∀ names : FinMap AssetName UInt64,
      (names.mapM fun n => (.unwrap
        (PositiveCoin.tryFrom n) : Outcome ValidationError PositiveCoin)).Sure := fun names =>
    FinMap.mapM_sure hcoin names
  exact FinMap.mapM_sure hnames ma

theorem conwayCoerceToCoin_entry {ma : Multiasset UInt64} (h : conwayCoerceToCoin ma err = .ok r) :
    (∀ p, p ∈ r ↔ p ∈ ma) ∧ ∀ p a, (listedQty r p a).map PositiveCoin.val = listedQty ma p a := by
  obtain ⟨hkeys, hentries⟩ := mapM_entry h
  refine ⟨hkeys, fun p a => ?_⟩
  obtain ⟨hnone, hsome⟩ := hentries p a
  cases hn : listedQty ma p a with
  | none => rw [hnone hn, Option.map_none]
  | some n =>
    obtain ⟨c, hc, hr⟩ := hsome n hn
    rw [hr, Option.map_some, tryFrom_val (Outcome.unwrap_eq_ok.1 hc)]

/-- `r` lists what either bundle lists, in the sums of the quantities. -/
structure Adds (f s r : Multiasset PositiveCoin) : Prop where
  listed : ∀ p, p ∈ r ↔ p ∈ f ∨ p ∈ s
  sums : ∀ p a, (listedQty r p a).map PositiveCoin.val =
    Option.merge wrapAdd ((listedQty f p a).map PositiveCoin.val) ((listedQty s p a).map PositiveCoin.val)

theorem listedQty_coerceToU64 (ma : Multiasset PositiveCoin) (p : PolicyId) (a : AssetName) :
    listedQty (coerceToU64 ma) p a = (listedQty ma p a).map PositiveCoin.val := listedQty_map PositiveCoin.val ma p a

theorem mem_coerceToU64 {ma : Multiasset PositiveCoin} {p : PolicyId} : p ∈ coerceToU64 ma ↔ p ∈ ma := by
  simp [coerceToU64]

theorem addPositiveAssets_adds (h : addPositiveAssets pr err f s = .ok r) : Adds f s r := by
  obtain ⟨sum, hsum, hr⟩ := Outcome.bind_eq_ok.1 h
  obtain ⟨hlisted, hsums⟩ := conwayAddMultiassetValues_entry hsum
  obtain ⟨hkeys, hentries⟩ := conwayCoerceToCoin_entry hr
  refine ⟨fun p => ?_, fun p a => ?_⟩
  · rw [hkeys, hlisted, mem_coerceToU64, mem_coerceToU64]
  · rw [hentries, hsums, listedQty_coerceToU64, listedQty_coerceToU64]

theorem Adds.empty_left (s : Multiasset PositiveCoin) : Adds ∅ s s := by
  refine ⟨fun p => by simp, fun p a => ?_⟩
  rw [listedQty_empty, Option.map_none]
  cases listedQty s p a <;> rfl

theorem Adds.empty_right (f : Multiasset PositiveCoin) : Adds f ∅ f := by
  refine ⟨fun p => by simp, fun p a => ?_⟩
  rw [listedQty_empty, Option.map_none]
  cases listedQty f p a <;> rfl

theorem wrapAdd_comm (m n : UInt64) : wrapAdd m n = wrapAdd n m := by
  rw [wrapAdd, wrapAdd, add_comm]

theorem wrapAdd_assoc (l m n : UInt64) : wrapAdd (wrapAdd l m) n = wrapAdd l (wrapAdd m n) := by
  have hleft : toInt (wrapAdd l m) + toInt n ≡ toInt l + toInt m + toInt n [ZMOD card UInt64] :=
    (toInt_wrap_modEq _).add_right _
  have hright : toInt l + toInt (wrapAdd m n) ≡ toInt l + (toInt m + toInt n) [ZMOD card UInt64] :=
    (toInt_wrap_modEq _).add_left _
  rw [← add_assoc] at hright
  exact wrap_eq_of_modEq (hleft.trans hright.symm)

/-- Three bundles have one sum, whichever two are added first. -/
theorem Adds.assoc (hx : Adds f s x) (hr : Adds x t r) (hy : Adds s t y) (hr' : Adds f y r') : r = r' := by
  refine multiasset_ext (fun p => ?_) fun p a => ?_
  · rw [hr.listed, hx.listed, hr'.listed, hy.listed, or_assoc]
  · have hval : Function.Injective PositiveCoin.val := fun c d h => by
      cases c
      cases d
      exact congrArg _ h
    refine Option.map_injective hval ?_
    rw [hr.sums, hx.sums, hr'.sums, hy.sums]
    cases listedQty f p a with
    | none => cases listedQty s p a <;> cases listedQty t p a <;> rfl
    | some l =>
      cases listedQty s p a with
      | none => cases listedQty t p a <;> rfl
      | some m =>
        cases listedQty t p a with
        | none => rfl
        | some n => exact congrArg some (wrapAdd_assoc _ _ _)

theorem conwayAddMultiassetValues_comm (f s : Multiasset UInt64) :
    conwayAddMultiassetValues pr f s = conwayAddMultiassetValues pr s f := by
  have hroom : ∀ f s : Multiasset UInt64, Room f s → Room s f := fun f s h p a m n hm hn => by
    rw [add_comm]
    exact h p a n m hn hm
  have hok : (∃ r, conwayAddMultiassetValues pr f s = .ok r) ↔ ∃ r, conwayAddMultiassetValues pr s f = .ok r := by
    rw [conwayAddMultiassetValues_ok, conwayAddMultiassetValues_ok]
    exact or_congr_right ⟨hroom f s, hroom s f⟩
  cases hfs : conwayAddMultiassetValues pr f s with
  | ok r =>
    obtain ⟨r', hsf⟩ := hok.1 ⟨r, hfs⟩
    obtain ⟨hkeys, hentries⟩ := conwayAddMultiassetValues_entry hfs
    obtain ⟨hkeys', hentries'⟩ := conwayAddMultiassetValues_entry hsf
    have hr : r = r' := multiasset_ext (fun p => by rw [hkeys, hkeys', or_comm]) fun p a => by
      rw [hentries, hentries']
      cases listedQty f p a with
      | none => cases listedQty s p a <;> rfl
      | some m =>
        cases listedQty s p a with
        | none => rfl
        | some n => exact congrArg some (wrapAdd_comm m n)
    rw [hsf, hr]
  | err e => exact absurd hfs (conwayAddMultiassetValues_sure f s e)
  | panic =>
    cases hsf : conwayAddMultiassetValues pr s f with
    | ok r' =>
      obtain ⟨r, hr⟩ := hok.2 ⟨r', hsf⟩
      cases hfs.symm.trans hr
    | err e => exact absurd hsf (conwayAddMultiassetValues_sure s f e)
    | panic => rfl

theorem conwayAddValues_comm (first second : ConwayValue) :
    conwayAddValues pr first second err = conwayAddValues pr second first err := by
  have hlove : ∀ n m : Coin, addLovelace n m err = addLovelace m n err := fun n m => by
    rw [addLovelace, addLovelace, checkedAdd, checkedAdd, add_comm]
  cases first <;> cases second <;>
    simp only [conwayAddValues, genAddValues, hlove, addPositiveAssets, conwayAddMultiassetValues_comm]

/-- No bundle. -/
def GenValue.Bare {A : Type} : GenValue A → Prop
  | .coin _ => True
  | .multiasset _ _ => False

theorem conwayAddValues_adds {first second sum : ConwayValue} (h : conwayAddValues pr first second err = .ok sum) :
    toInt sum.lovelace = toInt first.lovelace + toInt second.lovelace ∧ Adds first.assets second.assets sum.assets ∧
      (sum.Bare ↔ first.Bare ∧ second.Bare) := by
  cases first <;> cases second <;> simp only [conwayAddValues, genAddValues, Outcome.bind_eq_ok, Outcome.ok.injEq] at h
  · obtain ⟨n, hn, rfl⟩ := h
    exact ⟨addLovelace_eq_ok hn, Adds.empty_left _, by simp [GenValue.Bare]⟩
  · obtain ⟨n, hn, rfl⟩ := h
    exact ⟨addLovelace_eq_ok hn, Adds.empty_left _, by simp [GenValue.Bare]⟩
  · obtain ⟨n, hn, rfl⟩ := h
    exact ⟨addLovelace_eq_ok hn, Adds.empty_right _, by simp [GenValue.Bare]⟩
  · obtain ⟨n, hn, ma, hma, rfl⟩ := h
    exact ⟨addLovelace_eq_ok hn, addPositiveAssets_adds hma, by simp [GenValue.Bare]⟩

theorem value_ext {v w : ConwayValue} (hlove : toInt v.lovelace = toInt w.lovelace) (hassets : v.assets = w.assets)
    (hbare : v.Bare ↔ w.Bare) : v = w := by
  have hsame := toInt_injective hlove
  cases v with
  | coin n =>
    cases w with
    | coin m => exact congrArg _ hsame
    | multiasset m ma => exact (hbare.1 trivial).elim
  | multiasset n ma =>
    cases w with
    | coin m => exact (hbare.2 trivial).elim
    | multiasset m ma' => exact congrArg₂ _ hsame hassets

theorem conwayAddValues_assoc {u v w uv vw l l' : ConwayValue} (huv : conwayAddValues pr u v err = .ok uv)
    (hl : conwayAddValues pr uv w err = .ok l) (hvw : conwayAddValues pr v w err = .ok vw)
    (hl' : conwayAddValues pr u vw err = .ok l') : l = l' := by
  obtain ⟨huvn, huva, huvb⟩ := conwayAddValues_adds huv
  obtain ⟨hln, hla, hlb⟩ := conwayAddValues_adds hl
  obtain ⟨hvwn, hvwa, hvwb⟩ := conwayAddValues_adds hvw
  obtain ⟨hln', hla', hlb'⟩ := conwayAddValues_adds hl'
  refine value_ext ?_ (huva.assoc hla hvwa hla') ?_
  · rw [hln, huvn, hln', hvwn, add_assoc]
  · rw [hlb, huvb, hlb', hvwb, and_assoc]

/-- Of every asset that either bundle lists there is some in the sum, and no more than a `u64` holds. -/
def PositiveSums (f s : Multiasset PositiveCoin) : Prop :=
  ∀ p a, (listedQty f p a).isSome ∨ (listedQty s p a).isSome →
    0 < qty f p a + qty s p a ∧ qty f p a + qty s p a < 2 ^ 64

theorem qty_coerceToU64 (ma : Multiasset PositiveCoin) (p : PolicyId) (a : AssetName) :
    qty (coerceToU64 ma) p a = qty ma p a := by
  rw [qty_eq_listedQty, qty_eq_listedQty, listedQty_coerceToU64]
  cases listedQty ma p a <;> rfl

theorem positiveSums_iff : PositiveSums f s ↔ Room (coerceToU64 f) (coerceToU64 s) ∧
    ∀ p a m, Option.merge wrapAdd (listedQty (coerceToU64 f) p a) (listedQty (coerceToU64 s) p a) = some m → m ≠ 0 := by
  have hzero : ∀ m : UInt64, m = 0 ↔ toInt m = 0 := fun m => ⟨fun h => h ▸ rfl, fun h => toInt_injective h⟩
  have hqty : ∀ ma : Multiasset PositiveCoin, ∀ p a, qty ma p a =
      ((listedQty ma p a).map PositiveCoin.val).elim 0 toInt := by
    intro ma p a
    rw [qty_eq_listedQty]
    cases listedQty ma p a <;> rfl
  have hlo : ∀ m : UInt64, 0 ≤ toInt m := fun m => lo_le m
  have hhi : ∀ m : UInt64, toInt m ≤ 2 ^ 64 - 1 := fun m => le_hi m
  simp only [PositiveSums, Room, hqty, listedQty_coerceToU64, ← forall_and]
  refine forall₂_congr fun p a => ?_
  cases listedQty f p a with
  | none =>
    cases listedQty s p a with
    | none => simp [Option.merge]
    | some n =>
      have hn := hhi n.val
      have hn' := hlo n.val
      simp [Option.merge, hzero]
      omega
  | some m =>
    have hm := hhi m.val
    have hm' := hlo m.val
    cases listedQty s p a with
    | none =>
      simp [Option.merge, hzero]
      omega
    | some n =>
      have hn' := hlo n.val
      have hfits : Fits UInt64 (toInt m.val + toInt n.val) ↔ toInt m.val + toInt n.val < 2 ^ 64 := by
        show 0 ≤ toInt m.val + toInt n.val ∧ toInt m.val + toInt n.val ≤ 2 ^ 64 - 1 ↔ _
        omega
      have hsum : toInt m.val + toInt n.val < 2 ^ 64 → toInt (wrapAdd m.val n.val) = toInt m.val + toInt n.val :=
        fun h => toInt_wrap_of_fits (hfits.2 h)
      simp only [Option.map_some, Option.elim_some, Option.isSome_some, true_or, true_imp_iff,
        Option.some.injEq, Option.merge,
        hzero, ne_eq]
      constructor
      · rintro ⟨hpos, hlt⟩ c
        refine ⟨?_, ?_⟩
        · rintro d rfl rfl
          exact hfits.2 hlt
        · rintro rfl
          rw [hsum hlt]
          omega
      · intro h
        have hlt := hfits.1 ((h m.val).1 n.val rfl rfl)
        have hne := (h (wrapAdd m.val n.val)).2 rfl
        rw [hsum hlt] at hne
        omega

theorem addPositiveAssets_sum :
    (∀ pr, GivesOr err (fun r => qty r = fun p a => qty f p a + qty s p a) (addPositiveAssets pr err f s)) ↔
      PositiveSums f s := by
  rw [positiveSums_iff]
  constructor
  · intro h
    rcases h .debug with ⟨r, hr, -⟩ | herr
    · obtain ⟨sum, hsum, hr⟩ := Outcome.bind_eq_ok.1 hr
      have hroom := (conwayAddMultiassetValues_ok.1 ⟨sum, hsum⟩).resolve_left nofun
      refine ⟨hroom, fun p a m hm => ?_⟩
      rw [← (conwayAddMultiassetValues_entry hsum).2] at hm
      exact conwayCoerceToCoin_ok.1 ⟨r, hr⟩ p a m hm
    · rcases Outcome.bind_eq_err.1 herr with herr | ⟨sum, -, herr⟩
      · exact absurd herr (conwayAddMultiassetValues_sure _ _ err)
      · exact absurd herr (conwayCoerceToCoin_sure sum err)
  · rintro ⟨hroom, hpos⟩ pr
    obtain ⟨sum, hsum⟩ := (@conwayAddMultiassetValues_ok UInt64 _ pr _ _).2 (.inr hroom)
    have hentries := (conwayAddMultiassetValues_entry hsum).2
    obtain ⟨r, hr⟩ := (@conwayCoerceToCoin_ok err sum).2 fun p a m hm => hpos p a m (hentries p a ▸ hm)
    refine .inl ⟨r, Outcome.bind_eq_ok.2 ⟨sum, hsum, hr⟩, funext fun p => funext fun a => ?_⟩
    have hqty : qty r p a = qty sum p a := by
      rw [qty_eq_listedQty, qty_eq_listedQty, ← (conwayCoerceToCoin_entry hr).2]
      cases listedQty r p a <;> rfl
    rw [hqty, conwayAddMultiassetValues_qty hroom hsum, qty_coerceToU64, qty_coerceToU64]

/-- `conway_add_values` gives the sum or the error, in both builds, exactly where the lovelaces overflow or no asset is lost
to an overflow or a zero; and sums do not depend on the order of the values, nor on which two are added first. -/
theorem conwayAddValues_sum_iff (first second : ConwayValue) (err : ValidationError) :
    ((∀ pr, SumOrError err (first.holding + second.holding) (conwayAddValues pr first second err)) ↔
      (LovelaceFits first second →
        ∀ f s fma sma, first = .multiasset f fma → second = .multiasset s sma → PositiveSums fma sma)) ∧
    (∀ pr, conwayAddValues pr first second err = conwayAddValues pr second first err) ∧
    ∀ pr third sum left sum' right, conwayAddValues pr first second err = .ok sum →
      conwayAddValues pr sum third err = .ok left → conwayAddValues pr second third err = .ok sum' →
      conwayAddValues pr first sum' err = .ok right → left = right := by
  refine ⟨genAddValues_sumOrError.trans ?_, fun pr => conwayAddValues_comm first second,
    fun pr third sum left sum' right => conwayAddValues_assoc⟩
  simp only [addPositiveAssets_sum]

/-- All the coins of an asset that there can be, and one more: neither build gives the sum or the error. -/
theorem overflow_not_refused :
    let most : ConwayValue := .multiasset 0
      ((∅ : Multiasset PositiveCoin).insert 1 ((∅ : FinMap AssetName PositiveCoin).insert [] ⟨18446744073709551615⟩))
    let one : ConwayValue := .multiasset 0
      ((∅ : Multiasset PositiveCoin).insert 1 ((∅ : FinMap AssetName PositiveCoin).insert [] ⟨1⟩))
    (∀ pr, conwayAddValues pr most one (.postAlonzo .preservationOfValue) = .panic) ∧
      ∀ pr, ¬ SumOrError (.postAlonzo .preservationOfValue) (most.holding + one.holding)
        (conwayAddValues pr most one (.postAlonzo .preservationOfValue)) := by
  intro most one
  have hpanic : ∀ pr, conwayAddValues pr most one (.postAlonzo .preservationOfValue) = .panic := fun pr => by
    cases pr <;> rfl
  refine ⟨hpanic, fun pr => ?_⟩
  rw [hpanic]
  rintro (⟨v, hv, -⟩ | herr)
  · cases hv
  · cases herr

end conway

end Pallas
