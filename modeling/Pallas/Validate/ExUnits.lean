import Pallas.Validate.Alonzo
import Pallas.Validate.Conway

/-!
# The limit on execution units

`check_tx_ex_units` is there to accept a transaction with Plutus scripts exactly when it has redeemers
and their memory and step units add up to at most the limits (`ExUnitsDecided`, over integer sums).
The Alonzo loop is one addition of the exact sums (`addExUnits_eq_ok`), so it decides that up to a
carry out of 64 bits. The Conway closures never run: there only the presence of redeemers counts.
-/

namespace Pallas
open MachineInt

/-- The sum of the memory units. -/
def memSum (units : List ExUnits) : ℤ := (units.map fun u => toInt u.mem).sum

/-- The sum of the step units. -/
def stepsSum (units : List ExUnits) : ℤ := (units.map fun u => toInt u.steps).sum

/-- Both sums are at most the limit. -/
def WithinLimit (units : List ExUnits) (max : ExUnits) : Prop :=
  memSum units ≤ toInt max.mem ∧ stepsSum units ≤ toInt max.steps

/-- What 64 bits keep of the sums is at most the limit. -/
def ResiduesWithinLimit (units : List ExUnits) (max : ExUnits) : Prop :=
  memSum units % 2 ^ 64 ≤ toInt max.mem ∧ stepsSum units % 2 ^ 64 ≤ toInt max.steps

instance (units : List ExUnits) (max : ExUnits) : Decidable (WithinLimit units max) :=
  inferInstanceAs (Decidable (_ ∧ _))

instance (units : List ExUnits) (max : ExUnits) : Decidable (ResiduesWithinLimit units max) :=
  inferInstanceAs (Decidable (_ ∧ _))

/-- The result accepts exactly when there are redeemers and their units are within the limit. -/
def ExUnitsDecided (r : ValidationResult) (redeemers : Option (List ExUnits)) (max : ExUnits) : Prop :=
  r = .ok () ↔ ∃ units, redeemers = some units ∧ WithinLimit units max

section Sums
variable {pr : Profile} {units : List ExUnits} {max : ExUnits}

theorem sum_units_nonneg (g : ExUnits → UInt64) : 0 ≤ (units.map fun u => toInt (g u)).sum := by
  apply List.sum_nonneg
  intro z hz
  obtain ⟨u, -, rfl⟩ := List.mem_map.1 hz
  exact lo_le (g u)

theorem memSum_nonneg : 0 ≤ memSum units := sum_units_nonneg ExUnits.mem

theorem stepsSum_nonneg : 0 ≤ stepsSum units := sum_units_nonneg ExUnits.steps

theorem toInt_wrap_uInt64 (z : ℤ) : toInt (wrap z : UInt64) = z % 2 ^ 64 := by
  show ((UInt64.ofNat (z % 2 ^ 64).toNat).toNat : ℤ) = z % 2 ^ 64
  rw [UInt64.toNat_ofNat']
  omega

theorem add_then_rest {a b t : UInt64} {rest : ℤ} (hrest : 0 ≤ rest) :
    (exact pr (toInt a + (toInt b + rest)) : Outcome ValidationError UInt64) = .ok t ↔
      ∃ m, (add pr a b : Outcome ValidationError UInt64) = .ok m ∧
        (exact pr (toInt m + rest) : Outcome ValidationError UInt64) = .ok t := by
  have ha : 0 ≤ toInt a := lo_le a
  have hb : 0 ≤ toInt b := lo_le b
  have hlo : lo UInt64 ≤ toInt a + toInt b := show (0 : ℤ) ≤ _ by omega
  rw [← add_assoc, ← exact_bind_exact hlo hrest, Outcome.bind_eq_ok]
  rfl

theorem addExUnits_eq_ok {sums t : ExUnits} :
    Outcome.fold (addExUnits pr) sums units = .ok t ↔
      (exact pr (toInt sums.mem + memSum units) : Outcome ValidationError UInt64) = .ok t.mem ∧
      (exact pr (toInt sums.steps + stepsSum units) : Outcome ValidationError UInt64) = .ok t.steps := by
  induction units generalizing sums with
  | nil =>
    have hm : (exact pr (toInt sums.mem + memSum []) : Outcome ValidationError UInt64) = .ok sums.mem := by
      rw [show memSum [] = 0 from rfl, add_zero, exact_of_fits (fits_toInt _), wrap_toInt]
    have hs : (exact pr (toInt sums.steps + stepsSum []) : Outcome ValidationError UInt64) = .ok sums.steps := by
      rw [show stepsSum [] = 0 from rfl, add_zero, exact_of_fits (fits_toInt _), wrap_toInt]
    rw [Outcome.fold_nil, hm, hs]
    cases sums
    cases t
    simp
  | cons u units ih =>
    rw [show memSum (u :: units) = toInt u.mem + memSum units from List.sum_cons,
      show stepsSum (u :: units) = toInt u.steps + stepsSum units from List.sum_cons,
      add_then_rest memSum_nonneg, add_then_rest stepsSum_nonneg, Outcome.fold_cons, addExUnits]
    simp only [Outcome.bind_eq_ok, Outcome.ok.injEq, ih]
    constructor
    · rintro ⟨_, ⟨m, hadd, s, hadd', rfl⟩, hmem, hsteps⟩
      exact ⟨⟨m, hadd, hmem⟩, s, hadd', hsteps⟩
    · rintro ⟨⟨m, hadd, hmem⟩, s, hadd', hsteps⟩
      exact ⟨⟨m, s⟩, ⟨m, hadd, s, hadd', rfl⟩, hmem, hsteps⟩

/-- With overflow checks the comparison is made on the exact sums or not at all; without them, on what
64 bits keep of the sums. -/
theorem checkExUnitsSum_ok_iff {e : ValidationError} :
    checkExUnitsSum pr e units max = .ok () ↔
      match pr with
      | .debug => WithinLimit units max
      | .release => ResiduesWithinLimit units max := by
  have hle : ∀ t : ExUnits, (if t.mem > max.mem ∨ t.steps > max.steps then (.err e : ValidationResult) else .ok ()) =
      .ok () ↔ toInt t.mem ≤ toInt max.mem ∧ toInt t.steps ≤ toInt max.steps := by
    intro t
    rw [← uInt64_le, ← uInt64_le]
    split
    · next h => rcases h with h | h <;> simp [h]
    · next h => simpa [not_or] using h
  have h0 : toInt (0 : UInt64) = 0 := rfl
  unfold checkExUnitsSum
  simp only [Outcome.bind_eq_ok, addExUnits_eq_ok, hle, h0, zero_add]
  cases pr with
  | release =>
    simp only [exact_release, Outcome.ok.injEq, ResiduesWithinLimit]
    constructor
    · rintro ⟨t, ⟨hm, hs⟩, h⟩
      rwa [← hm, ← hs, toInt_wrap_uInt64, toInt_wrap_uInt64] at h
    · intro h
      exact ⟨⟨wrap (memSum units), wrap (stepsSum units)⟩, ⟨rfl, rfl⟩, by rwa [toInt_wrap_uInt64, toInt_wrap_uInt64]⟩
  | debug =>
    simp only [exact_debug, WithinLimit]
    constructor
    · rintro ⟨t, ⟨hm, hs⟩, h⟩
      rwa [hm, hs] at h
    · rintro ⟨hm, hs⟩
      -- sums below a limit fit the width of the limit
      have hfm : Fits UInt64 (memSum units) := ⟨memSum_nonneg, le_trans hm (le_hi _)⟩
      have hfs : Fits UInt64 (stepsSum units) := ⟨stepsSum_nonneg, le_trans hs (le_hi _)⟩
      have htm := toInt_wrap_of_fits hfm
      have hts := toInt_wrap_of_fits hfs
      exact ⟨⟨wrap (memSum units), wrap (stepsSum units)⟩, ⟨htm, hts⟩, htm.trans_le hm, hts.trans_le hs⟩

theorem WithinLimit.residues (h : WithinLimit units max) : ResiduesWithinLimit units max := by
  obtain ⟨hm, hs⟩ := h
  have hm0 : 0 ≤ memSum units := memSum_nonneg
  have hs0 : 0 ≤ stepsSum units := stepsSum_nonneg
  have hmax : toInt max.mem < 2 ^ 64 := lt_of_le_of_lt (le_hi _) (by decide)
  have hmax' : toInt max.steps < 2 ^ 64 := lt_of_le_of_lt (le_hi _) (by decide)
  exact ⟨by omega, by omega⟩

end Sums

/-! ### The two eras -/

/-- The units of the redeemers of an Alonzo transaction. -/
def Alonzo.redeemerUnits (mtx : Alonzo.Tx) : Option (List ExUnits) :=
  mtx.transactionWitnessSet.inner.redeemer.map (·.map Alonzo.Redeemer.exUnits)

/-- The units of the redeemers of a Conway transaction, in either form. -/
def Conway.redeemerUnits (mtx : Conway.Tx) : Option (List ExUnits) :=
  mtx.transactionWitnessSet.inner.redeemer.map fun redeemers => match redeemers.inner with
    | .list rs => rs.map Conway.Redeemer.exUnits
    | .map rs => rs.toList.map fun kv => kv.2.exUnits

theorem Alonzo.checkTxExUnits_decided_iff {pr : Profile} {mtx : Alonzo.Tx} {pps : AlonzoProtParams}
    (hplutus : Alonzo.presenceOfPlutusScripts mtx = true) :
    ExUnitsDecided (Alonzo.checkTxExUnits pr mtx pps) (Alonzo.redeemerUnits mtx) pps.maxTxExUnits ↔
      ∀ units, Alonzo.redeemerUnits mtx = some units → pr = .release →
        ResiduesWithinLimit units pps.maxTxExUnits → WithinLimit units pps.maxTxExUnits := by
  unfold ExUnitsDecided Alonzo.checkTxExUnits Alonzo.redeemerUnits
  rw [if_pos hplutus]
  cases mtx.transactionWitnessSet.inner.redeemer with
  | none => simp
  | some redeemers =>
    simp only [checkExUnitsSum_ok_iff, Option.map_some, Option.some.injEq, exists_eq_left', forall_eq']
    cases pr with
    | debug => simp
    | release =>
      constructor
      · intro h _ hres
        exact h.1 hres
      · intro h
        exact ⟨h rfl, WithinLimit.residues⟩

theorem Conway.checkTxExUnits_decided_iff {mtx : Conway.Tx} {pps : ConwayProtParams}
    (hplutus : Conway.presenceOfPlutusScripts mtx = true) :
    ExUnitsDecided (Conway.checkTxExUnits mtx pps) (Conway.redeemerUnits mtx) pps.maxTxExUnits ↔
      ∀ units, Conway.redeemerUnits mtx = some units → WithinLimit units pps.maxTxExUnits := by
  unfold ExUnitsDecided Conway.checkTxExUnits Conway.redeemerUnits
  rw [if_pos hplutus]
  cases mtx.transactionWitnessSet.inner.redeemer with
  | none => simp
  | some redeemers => simp

/-- With Plutus scripts present, the Conway check decides the limit exactly when there are no redeemers
or their units are within it. The Alonzo check does so unless a release build carries a sum over the
limit past `2 ^ 64` and back below it. -/
theorem exUnits_decided_iff (pr : Profile) (conwayTx : Conway.Tx) (cpp : ConwayProtParams) (alonzoTx : Alonzo.Tx)
    (app : AlonzoProtParams) :
    (Conway.presenceOfPlutusScripts conwayTx = true →
      (ExUnitsDecided (Conway.checkTxExUnits conwayTx cpp) (Conway.redeemerUnits conwayTx) cpp.maxTxExUnits ↔
        ∀ units, Conway.redeemerUnits conwayTx = some units → WithinLimit units cpp.maxTxExUnits)) ∧
    (Alonzo.presenceOfPlutusScripts alonzoTx = true →
      (ExUnitsDecided (Alonzo.checkTxExUnits pr alonzoTx app) (Alonzo.redeemerUnits alonzoTx) app.maxTxExUnits ↔
        ∀ units, Alonzo.redeemerUnits alonzoTx = some units → pr = .release →
          ResiduesWithinLimit units app.maxTxExUnits → WithinLimit units app.maxTxExUnits)) :=
  ⟨Conway.checkTxExUnits_decided_iff, Alonzo.checkTxExUnits_decided_iff⟩

/-! ### Transactions over the limit

The limits are 14000000 memory units and 10000000000 steps. -/

/-- The parameters of the main network at the start of the Alonzo era. -/
def alonzoPps : AlonzoProtParams :=
  { minfeeA := 44, minfeeB := 155381, maxTransactionSize := 16384, adaPerUtxoByte := 34482,
    maxTxExUnits := ⟨14000000, 10000000000⟩, maxValueSize := 5000, collateralPercentage := 150,
    maxCollateralInputs := 3 }

/-- The same limits for Conway transactions. -/
def conwayPps : ConwayProtParams := { alonzoPps with costModelsForScriptLanguages := ⟨none, none, none⟩ }

/-- A Plutus script of the first version. -/
def plutusScript : PlutusScript 1 := ⟨Cbor.bigEndian 15 0x4e4d01000033222220051200120011⟩

/-- One redeemer of 14000001 memory units, in the list form. -/
def overLimitListTx : Conway.Tx := Conway.transferTx
  ⟨Cbor.bigEndian 32 0xa203814f4e4d01000033222220051200120011058184000040821a00d59f8101,
    { plutusV1Script := some [plutusScript]
      redeemer := some ⟨Cbor.bigEndian 12 0x8184000040821a00d59f8101,
        .list [⟨.spend, 0, .boundedBytes [], ⟨14000001, 1⟩⟩], by decide⟩ }, by decide⟩

/-- The same redeemer in the map form. -/
def overLimitMapTx : Conway.Tx := Conway.transferTx
  ⟨Cbor.bigEndian 33 0xa203814f4e4d0100003322222005120012001105a18200008240821a00d59f8101,
    { plutusV1Script := some [plutusScript]
      redeemer := some ⟨Cbor.bigEndian 13 0xa18200008240821a00d59f8101,
        .map ((∅ : FinMap _ _).insert ⟨.spend, 0⟩ ⟨.boundedBytes [], ⟨14000001, 1⟩⟩), by decide⟩ }, by decide⟩

/-- Two redeemers of `2 ^ 63` memory units each. -/
def wrappingTx : Alonzo.Tx := Alonzo.transferTx
  ⟨Cbor.bigEndian 40 0xa203814f4e4d01000033222220051200120011058284000040821b80000000000000000184000140 ++
      Cbor.bigEndian 11 0x821b800000000000000001,
    { plutusScript := some [plutusScript]
      redeemer := some [⟨.spend, 0, .boundedBytes [], ⟨9223372036854775808, 1⟩⟩,
        ⟨.spend, 1, .boundedBytes [], ⟨9223372036854775808, 1⟩⟩] }, by decide⟩

/-- Redeemers over the limit are accepted: by Conway in both forms, and by a release build of Alonzo when
the sum comes to a multiple of `2 ^ 64`. -/
theorem overLimit_accepted :
    (∀ mtx ∈ [overLimitListTx, overLimitMapTx], Conway.presenceOfPlutusScripts mtx = true ∧
      Conway.checkTxExUnits mtx conwayPps = .ok () ∧
      ¬ ExUnitsDecided (Conway.checkTxExUnits mtx conwayPps) (Conway.redeemerUnits mtx) conwayPps.maxTxExUnits) ∧
    Alonzo.presenceOfPlutusScripts wrappingTx = true ∧
    Alonzo.checkTxExUnits .release wrappingTx alonzoPps = .ok () ∧
    ¬ ExUnitsDecided (Alonzo.checkTxExUnits .release wrappingTx alonzoPps) (Alonzo.redeemerUnits wrappingTx)
      alonzoPps.maxTxExUnits := by
  -- in each case the only list of units there is is over the limit
  have hfalse : ∀ {r : ValidationResult} {units : List ExUnits} {max : ExUnits}, r = .ok () →
      ¬ WithinLimit units max → ¬ ExUnitsDecided r (some units) max := by
    intro r units max hr hover h
    obtain ⟨units', hunits, hwithin⟩ := h.1 hr
    exact hover (Option.some.inj hunits ▸ hwithin)
  refine ⟨?_, rfl, rfl, hfalse rfl (by decide)⟩
  intro mtx hmtx
  simp only [List.mem_cons, List.not_mem_nil, or_false] at hmtx
  rcases hmtx with rfl | rfl
  · exact ⟨rfl, rfl, hfalse rfl (by decide)⟩
  · exact ⟨rfl, rfl, hfalse rfl (by decide +kernel)⟩

/-- The checks of the transactions above, through the general statement. -/
theorem overLimit_decided_iff :
    (ExUnitsDecided (Conway.checkTxExUnits overLimitMapTx conwayPps) (Conway.redeemerUnits overLimitMapTx)
        conwayPps.maxTxExUnits ↔
      ∀ units, Conway.redeemerUnits overLimitMapTx = some units → WithinLimit units conwayPps.maxTxExUnits) ∧
    (ExUnitsDecided (Alonzo.checkTxExUnits .release wrappingTx alonzoPps) (Alonzo.redeemerUnits wrappingTx)
        alonzoPps.maxTxExUnits ↔
      ∀ units, Alonzo.redeemerUnits wrappingTx = some units → Profile.release = .release →
        ResiduesWithinLimit units alonzoPps.maxTxExUnits → WithinLimit units alonzoPps.maxTxExUnits) :=
  have h := exUnits_decided_iff .release overLimitMapTx conwayPps wrappingTx alonzoPps
  ⟨h.1 rfl, h.2 rfl⟩

end Pallas
