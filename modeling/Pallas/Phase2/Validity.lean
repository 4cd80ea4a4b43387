import Pallas.Phase2.ToPlutusData
import Pallas.Validate.Conway

/-!
# The validity interval in both phases

Phase 1 checks the slot of the block against the two optional bounds of a transaction; phase 2 turns the bounds into times, which a
script context shows as an interval with a closure flag at each end. `Interval.Holds` says what a script reads in the flags. The two
phases differ at one slot, the upper bound itself (`sameInterval_iff`).
-/

namespace Pallas.Phase2
open Conway MachineInt

/-! ### What a script reads -/

/-- An end of an interval of times. -/
inductive Extended where
  | negInf
  | finite (time : ℤ)
  | posInf
  deriving DecidableEq

/-- An interval of times, each end with its closure flag. -/
structure Interval where
  lower : Extended
  lowerClosed : Bool
  upper : Extended
  upperClosed : Bool
  deriving DecidableEq

/-- The time lies in the interval. -/
def Interval.Holds (i : Interval) (time : ℤ) : Prop :=
  (match i.lower with
    | .negInf => True
    | .finite bound => if i.lowerClosed then bound ≤ time else bound < time
    | .posInf => False) ∧
  match i.upper with
    | .negInf => False
    | .finite bound => if i.upperClosed then time ≤ bound else time < bound
    | .posInf => True

/-- The end that Plutus data show: constructor 0, 1 or 2. -/
def readExtended : PlutusData → Option Extended
  | .constr 121 none _ [] => some .negInf
  | .constr 122 none _ [.bigInt (.int time)] => some (.finite time)
  | .constr 123 none _ [] => some .posInf
  | _ => none

/-- The flag that Plutus data show. -/
def readBool : PlutusData → Option Bool
  | .constr 121 none _ [] => some false
  | .constr 122 none _ [] => some true
  | _ => none

/-- An end with its flag. -/
def readBound : PlutusData → Option (Extended × Bool)
  | .constr 121 none _ [bound, closed] => do
    let bound ← readExtended bound
    let closed ← readBool closed
    some (bound, closed)
  | _ => none

/-- The interval that Plutus data show. -/
def readInterval : PlutusData → Option Interval
  | .constr 121 none _ [lower, upper] => do
    let (lower, lowerClosed) ← readBound lower
    let (upper, upperClosed) ← readBound upper
    some ⟨lower, lowerClosed, upper, upperClosed⟩
  | _ => none

/-- The interval of a range: closed below and open above where there is a bound. -/
def TimeRange.interval (range : TimeRange) : Interval where
  lower := range.lowerBound.elim .negInf fun time => .finite time.toNat
  lowerClosed := true
  upper := range.upperBound.elim .posInf fun time => .finite time.toNat
  upperClosed := range.upperBound.isNone

theorem readInterval_toPlutusData (range : TimeRange) :
    readInterval (TimeRange.toPlutusData range) = some range.interval := by
  obtain ⟨lower, upper⟩ := range
  cases lower <;> cases upper <;> rfl

/-! ### Slots and times -/

/-- The time at which a slot begins. -/
def startTime (sc : SlotConfig) (slot : UInt64) : ℤ :=
  toInt sc.zeroTime + (toInt slot - toInt sc.zeroSlot) * toInt sc.slotLength

variable {pr : Profile} {sc : SlotConfig} {body : GovTransactionBody} {slot : UInt64} {range : TimeRange}

theorem startTime_lt_iff (hlen : 0 < sc.slotLength) {a b : UInt64} : startTime sc a < startTime sc b ↔ a < b := by
  have hpos : (0 : ℤ) < toInt sc.slotLength := Int.natCast_pos.2 (UInt64.lt_iff_toNat_lt.1 hlen)
  rw [startTime, startTime, add_lt_add_iff_left, mul_lt_mul_iff_left₀ hpos, sub_lt_sub_iff_right]
  exact Int.ofNat_lt.trans UInt64.lt_iff_toNat_lt.symm

theorem startTime_le_iff (hlen : 0 < sc.slotLength) {a b : UInt64} : startTime sc a ≤ startTime sc b ↔ a ≤ b := by
  rw [← not_lt, startTime_lt_iff hlen, UInt64.not_lt]

/-- Where the time fits its word, it is the one that a successful conversion gives; a debug build gives no other. -/
theorem slotToBeginPosixTime_eq_ok {time : UInt64} (h : slotToBeginPosixTime pr slot sc = .ok time)
    (hfits : pr = .release → startTime sc slot < 2 ^ 64) : toInt time = startTime sc slot := by
  unfold slotToBeginPosixTime at h
  split_ifs at h with hslot
  obtain ⟨slots, hslots, h⟩ := Outcome.bind_eq_ok.1 h
  obtain ⟨ms, hms, htime⟩ := Outcome.bind_eq_ok.1 h
  cases pr with
  | debug =>
    rw [startTime, exact_debug.1 htime, exact_debug.1 hms, exact_debug.1 hslots]
  | release =>
    -- each step is right modulo the word, and the whole fits
    have hmod := (exact_modEq htime).trans ((exact_modEq hms).trans ((exact_modEq hslots).mul_right _) |>.add_left _)
    have hge : toInt sc.zeroSlot ≤ toInt slot := uInt64_le.1 (UInt64.not_lt.1 hslot)
    have hnonneg : 0 ≤ startTime sc slot :=
      add_nonneg (lo_le sc.zeroTime) (mul_nonneg (sub_nonneg.2 hge) (lo_le sc.slotLength))
    have hlt := hfits rfl
    have hfit : Fits UInt64 (startTime sc slot) := ⟨hnonneg, show startTime sc slot ≤ 2 ^ 64 - 1 by omega⟩
    rw [← toInt_wrap_of_fits hfit]
    exact eq_of_modEq (hmod.trans (toInt_wrap_modEq (startTime sc slot)).symm)

theorem posixBound_eq_ok {bound time : Option UInt64} (h : posixBound pr sc bound = .ok time)
    (hfits : pr = .release → ∀ slot, bound = some slot → startTime sc slot < 2 ^ 64) :
    time.map toInt = bound.map (startTime sc) := by
  cases bound with
  | none =>
    cases h
    rfl
  | some slot =>
    obtain ⟨time, htime, h⟩ := Outcome.bind_eq_ok.1 h
    cases h
    exact congrArg some (slotToBeginPosixTime_eq_ok htime fun hpr => hfits hpr slot rfl)

/-- The slot begins in the interval that scripts are shown, and lies in the half-open one of the two bounds. -/
structure ReadAlike (sc : SlotConfig) (body : GovTransactionBody) (slot : UInt64) (range : TimeRange) : Prop where
  shown : ∃ i, readInterval (TimeRange.toPlutusData range) = some i ∧ i.Holds (startTime sc slot)
  start_le : ∀ start, body.validityIntervalStart = some start → start ≤ slot
  lt_ttl : ∀ ttl, body.ttl = some ttl → slot < ttl

/-- A slot that phase 1 accepts is read alike unless it is the upper bound. -/
theorem sameInterval_iff (hlen : 0 < sc.slotLength)
    (hcheck : checkTxValidityInterval body.toTransactionBody slot = .ok ())
    (hrange : getValidityRangeInfo pr body sc = .ok range)
    (hfits : pr = .release → ∀ bound, body.validityIntervalStart = some bound ∨ body.ttl = some bound →
      startTime sc bound < 2 ^ 64) :
    ReadAlike sc body slot range ↔ body.ttl ≠ some slot := by
  obtain ⟨lower, hlower, h⟩ := Outcome.bind_eq_ok.1 hrange
  obtain ⟨upper, hupper, h⟩ := Outcome.bind_eq_ok.1 h
  cases h
  have hlower := posixBound_eq_ok hlower fun hpr bound hbound => hfits hpr bound (.inl hbound)
  have hupper := posixBound_eq_ok hupper fun hpr bound hbound => hfits hpr bound (.inr hbound)
  obtain ⟨hstart, httl⟩ := Outcome.seq_eq_ok.1 hcheck
  have hstart : ∀ start, body.validityIntervalStart = some start → start ≤ slot := fun start hsome => by
    rw [checkLowerBound.eq_def, hsome] at hstart
    exact of_decide_eq_true (Outcome.ensure_eq_ok.1 hstart)
  have httl : ∀ ttl, body.ttl = some ttl → slot ≤ ttl := fun ttl hsome => by
    rw [checkUpperBound.eq_def, hsome] at httl
    exact of_decide_eq_true (Outcome.ensure_eq_ok.1 httl)
  constructor
  · rintro ⟨-, -, hlt⟩ hslot
    exact absurd (hlt slot hslot) (UInt64.lt_irrefl slot)
  · intro hne
    have hlt : ∀ ttl, body.ttl = some ttl → slot < ttl := fun ttl hsome =>
      UInt64.lt_of_le_of_ne (httl ttl hsome) fun heq => hne (heq ▸ hsome)
    refine ⟨⟨_, readInterval_toPlutusData _, ?_, ?_⟩, hstart, hlt⟩
    · cases lower with
      | none => trivial
      | some time =>
        obtain ⟨start, hsome, htime⟩ := Option.map_eq_some_iff.1 hlower.symm
        show toInt time ≤ startTime sc slot
        rw [← htime]
        exact (startTime_le_iff hlen).2 (hstart start hsome)
    · cases upper with
      | none => trivial
      | some time =>
        obtain ⟨ttl, hsome, htime⟩ := Option.map_eq_some_iff.1 hupper.symm
        show startTime sc slot < toInt time
        rw [← htime]
        exact (startTime_lt_iff hlen).2 (hlt ttl hsome)

/-- A body with an upper bound. -/
def untilBody (ttl : UInt64) : GovTransactionBody where
  inputs := []
  outputs := []
  fee := 0
  ttl := some ttl

theorem until_readAlike : ReadAlike ⟨1, 0, 0⟩ (untilBody 8) 7 ⟨none, some 8⟩ ↔ (untilBody 8).ttl ≠ some 7 :=
  @sameInterval_iff .release ⟨1, 0, 0⟩ (untilBody 8) 7 ⟨none, some 8⟩ (by decide) rfl rfl fun _ bound hbound => by
    rcases hbound with h | h
    · cases h
    · cases h
      decide

/-- At the upper bound phase 1 accepts the transaction, and its script is shown an interval that is over. -/
theorem until_not_readAlike : checkTxValidityInterval (untilBody 8).toTransactionBody 8 = .ok () ∧
    getValidityRangeInfo .debug (untilBody 8) ⟨1, 0, 0⟩ = .ok ⟨none, some 8⟩ ∧
      ¬ ReadAlike ⟨1, 0, 0⟩ (untilBody 8) 8 ⟨none, some 8⟩ := by
  refine ⟨rfl, rfl, fun h => ?_⟩
  obtain ⟨i, hi, -, hupper⟩ := h.shown
  obtain rfl := Option.some.inj ((readInterval_toPlutusData _).symm.trans hi)
  have hover : ¬ startTime ⟨1, 0, 0⟩ 8 < (8 : ℤ) := by decide
  exact hover hupper

end Pallas.Phase2
