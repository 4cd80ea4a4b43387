import Pallas.Lib.Machine
import Pallas.Validate.ShelleyMa

/-!
# Slots, epochs and times (`pallas-traverse/src/{time,wellknown}.rs`)

The lengths of epochs are in seconds. Dividing by one, the code first multiplies the slot by its length, but the slot
within the epoch is the remainder of the slot itself. In the Shelley era a slot is a second and nothing is wrong. In the
Byron era, where it is twenty, the remainder runs through twenty epochs before it starts again, so what it gives for a
slot is right in every twentieth epoch only (`relative_iff`). The pair still grows with the slot.

The times grow with the slot as well, save on the testnet, whose Byron era is given a start that puts its last three
hours behind the beginning of the Shelley era, and behind the last slot whose time fits.
-/

namespace Pallas

/-- The fields that the conversions read. -/
structure GenesisValues where
  byronEpochLength : UInt32
  byronSlotLength : UInt32
  byronKnownSlot : UInt64
  byronKnownTime : UInt64
  shelleyEpochLength : UInt32
  shelleySlotLength : UInt32
  shelleyKnownSlot : UInt64
  shelleyKnownTime : UInt64
  deriving DecidableEq

namespace GenesisValues

def mainnet : GenesisValues := ⟨432000, 20, 0, 1506203091, 432000, 1, 4492800, 1596059091⟩

def testnet : GenesisValues := ⟨432000, 20, 0, 1564010416, 432000, 1, 1598400, 1595967616⟩

def preview : GenesisValues := ⟨86400, 20, 0, 1666656000, 86400, 1, 0, 1666656000⟩

def preprod : GenesisValues := ⟨432000, 20, 0, 1654041600, 432000, 1, 86400, 1655769600⟩

/-- The networks that `from_magic` knows. -/
def wellknown : List GenesisValues := [mainnet, testnet, preview, preprod]

end GenesisValues

/-! ### The conversions -/

section Conversions
variable {ε : Type} (pr : Profile)

def computeLinearTimestamp (knownSlot knownTime slotLength querySlot : UInt64) : Outcome ε UInt64 := do
  let slots ← MachineInt.sub pr querySlot knownSlot
  let seconds ← MachineInt.mul pr slots slotLength
  MachineInt.add pr knownTime seconds

/-- `compute_era_epoch`, which asserts that the epoch has a length. -/
def computeEraEpoch (eraSlot : Slot) (eraSlotLength eraEpochLength : UInt64) : Outcome ε (Epoch × Slot) :=
  if eraEpochLength = 0 then .panic
  else do
    let seconds ← MachineInt.mul pr eraSlot eraSlotLength
    .ok (seconds / eraEpochLength, eraSlot % eraEpochLength)

def computeAbsoluteSlotWithinEra (subEraEpoch : Epoch) (subEpochSlot : Slot)
    (eraEpochLength eraSlotLength : UInt32) : Outcome ε UInt64 := do
  let seconds ← MachineInt.mul pr subEraEpoch eraEpochLength.toUInt64
  if eraSlotLength = 0 then .panic
  else MachineInt.add pr (seconds / eraSlotLength.toUInt64) subEpochSlot

namespace GenesisValues
variable (self : GenesisValues)

def shelleyStartEpoch : Outcome ε Epoch := do
  let (epoch, _) ← computeEraEpoch pr self.shelleyKnownSlot self.byronSlotLength.toUInt64
    self.byronEpochLength.toUInt64
  .ok epoch

def slotToWallclock (slot : UInt64) : Outcome ε UInt64 :=
  if slot < self.shelleyKnownSlot then
    computeLinearTimestamp pr self.byronKnownSlot self.byronKnownTime self.byronSlotLength.toUInt64 slot
  else
    computeLinearTimestamp pr self.shelleyKnownSlot self.shelleyKnownTime self.shelleySlotLength.toUInt64 slot

def absoluteSlotToRelative (slot : UInt64) : Outcome ε (UInt64 × UInt64) :=
  if slot < self.shelleyKnownSlot then
    computeEraEpoch pr slot self.byronSlotLength.toUInt64 self.byronEpochLength.toUInt64
  else do
    let eraSlot ← MachineInt.sub pr slot self.shelleyKnownSlot
    let (eraEpoch, reminder) ← computeEraEpoch pr eraSlot self.shelleySlotLength.toUInt64
      self.shelleyEpochLength.toUInt64
    let start ← self.shelleyStartEpoch pr
    let epoch ← MachineInt.add pr start eraEpoch
    .ok (epoch, reminder)

def relativeSlotToAbsolute (epoch : Epoch) (slot : Slot) : Outcome ε Slot := do
  let shelleyStartEpoch ← self.shelleyStartEpoch pr
  if epoch < shelleyStartEpoch then
    computeAbsoluteSlotWithinEra pr epoch slot self.byronEpochLength self.byronSlotLength
  else
    let byronSlots ← computeAbsoluteSlotWithinEra pr shelleyStartEpoch 0 self.byronEpochLength self.byronSlotLength
    let epochs ← MachineInt.sub pr epoch shelleyStartEpoch
    let shelleySlots ← computeAbsoluteSlotWithinEra pr epochs slot self.shelleyEpochLength self.shelleySlotLength
    MachineInt.add pr byronSlots shelleySlots

end GenesisValues

end Conversions

/-! ### The conversions of the certificate checks -/

namespace GenesisValues

/-- What the checks of certificates use of it. -/
def ofCertificates (g : GenesisValues) : ShelleyMa.GenesisValues :=
  ⟨g.byronEpochLength, g.byronSlotLength, g.shelleyEpochLength, g.shelleySlotLength, g.shelleyKnownSlot⟩

theorem computeEraEpoch_fst (pr : Profile) (slot : Slot) (slotLength : UInt32) {epochLength : UInt32}
    (h : epochLength.toUInt64 ≠ 0) :
    ShelleyMa.computeEraEpoch pr slot slotLength epochLength =
      Prod.fst <$> computeEraEpoch pr slot slotLength.toUInt64 epochLength.toUInt64 := by
  rw [computeEraEpoch, if_neg h, map_bind]
  rfl

theorem toEpoch_eq (pr : Profile) {g : GenesisValues} (hbyron : g.byronEpochLength.toUInt64 ≠ 0)
    (hshelley : g.shelleyEpochLength.toUInt64 ≠ 0) (slot : Slot) :
    ShelleyMa.toEpoch pr g.ofCertificates slot = Prod.fst <$> g.absoluteSlotToRelative pr slot := by
  have hstart : ShelleyMa.shelleyStartEpoch pr g.ofCertificates = g.shelleyStartEpoch pr := by
    rw [ShelleyMa.shelleyStartEpoch, shelleyStartEpoch]
    exact (computeEraEpoch_fst pr _ _ hbyron).trans (map_eq_pure_bind _ _)
  rw [ShelleyMa.toEpoch, absoluteSlotToRelative, hstart]
  by_cases hslot : slot < g.shelleyKnownSlot
  · rw [if_pos hslot]
    exact (if_pos hslot).trans (computeEraEpoch_fst pr slot _ hbyron)
  · rw [if_neg hslot, map_bind]
    refine (if_neg hslot).trans (bind_congr fun eraSlot => ?_)
    rw [map_bind, show ShelleyMa.computeEraEpoch pr eraSlot g.ofCertificates.shelleySlotLength
      g.ofCertificates.shelleyEpochLength = _ from computeEraEpoch_fst pr eraSlot _ hshelley, bind_map_left]
    refine bind_congr fun era => ?_
    rw [map_bind]
    refine bind_congr fun start => ?_
    rw [map_bind]
    exact (bind_pure _).symm

example : mainnet.ofCertificates = ShelleyMa.mainnet := rfl

end GenesisValues

/-! ### Operators that do not overflow -/

section Operators
variable {ε : Type} {pr : Profile} {a b : UInt64}

theorem exact_u64 {n : ℕ} (h : n < 2 ^ 64) : (MachineInt.exact pr n : Outcome ε UInt64) = .ok (UInt64.ofNat n) := by
  have hfits : MachineInt.Fits UInt64 n := by
    show (0 : ℤ) ≤ n ∧ (n : ℤ) ≤ 2 ^ 64 - 1
    omega
  rw [MachineInt.exact_of_fits hfits]
  show Outcome.ok (UInt64.ofNat ((n : ℤ) % 2 ^ 64).toNat) = _
  congr 2
  omega

theorem add_u64 (h : a.toNat + b.toNat < 2 ^ 64) :
    (MachineInt.add pr a b : Outcome ε UInt64) = .ok (UInt64.ofNat (a.toNat + b.toNat)) := by
  rw [MachineInt.add, ← exact_u64 h]
  congr 1

theorem mul_u64 (h : a.toNat * b.toNat < 2 ^ 64) :
    (MachineInt.mul pr a b : Outcome ε UInt64) = .ok (UInt64.ofNat (a.toNat * b.toNat)) := by
  rw [MachineInt.mul, ← exact_u64 h]
  congr 1

theorem sub_u64 (h : b.toNat ≤ a.toNat) :
    (MachineInt.sub pr a b : Outcome ε UInt64) = .ok (UInt64.ofNat (a.toNat - b.toNat)) := by
  have hlt := a.toNat_lt
  rw [MachineInt.sub, ← exact_u64 (show a.toNat - b.toNat < 2 ^ 64 by omega)]
  congr 1
  exact (Int.ofNat_sub h).symm

theorem toNat_u64 {n : ℕ} (h : n < 2 ^ 64) : (UInt64.ofNat n).toNat = n := UInt64.toNat_ofNat_of_lt' h

theorem computeLinearTimestamp_eq {knownSlot knownTime slotLength slot : UInt64} (hle : knownSlot.toNat ≤ slot.toNat)
    (hfits : knownTime.toNat + (slot.toNat - knownSlot.toNat) * slotLength.toNat < 2 ^ 64) :
    (computeLinearTimestamp pr knownSlot knownTime slotLength slot : Outcome ε UInt64) =
      .ok (UInt64.ofNat (knownTime.toNat + (slot.toNat - knownSlot.toNat) * slotLength.toNat)) := by
  have hlt := slot.toNat_lt
  have hslots := toNat_u64 (show slot.toNat - knownSlot.toNat < 2 ^ 64 by omega)
  have hseconds := toNat_u64 (show (slot.toNat - knownSlot.toNat) * slotLength.toNat < 2 ^ 64 by omega)
  rw [computeLinearTimestamp, sub_u64 hle, Outcome.ok_bind, mul_u64 (by rw [hslots]; omega), Outcome.ok_bind, hslots,
    add_u64 (by rw [hseconds]; omega), hseconds]

theorem computeEraEpoch_eq {slot slotLength epochLength : UInt64} (hpos : 0 < epochLength.toNat)
    (hfits : slot.toNat * slotLength.toNat < 2 ^ 64) :
    (computeEraEpoch pr slot slotLength epochLength : Outcome ε (Epoch × Slot)) =
      .ok (UInt64.ofNat (slot.toNat * slotLength.toNat / epochLength.toNat),
        UInt64.ofNat (slot.toNat % epochLength.toNat)) := by
  have hne : epochLength ≠ 0 := fun h => by simp [h] at hpos
  have hquotient := Nat.div_le_self (slot.toNat * slotLength.toNat) epochLength.toNat
  have hremainder := Nat.mod_le slot.toNat epochLength.toNat
  have hlt := slot.toNat_lt
  rw [computeEraEpoch, if_neg hne, mul_u64 hfits, Outcome.ok_bind, Outcome.ok.injEq, Prod.mk.injEq]
  constructor
  · apply UInt64.toNat_inj.1
    rw [UInt64.toNat_div, toNat_u64 hfits, toNat_u64 (by omega)]
  · apply UInt64.toNat_inj.1
    rw [UInt64.toNat_mod, toNat_u64 (by omega)]

theorem computeAbsoluteSlotWithinEra_eq {epoch slot : UInt64} {epochLength slotLength : UInt32}
    (hpos : 0 < slotLength.toNat) (hseconds : epoch.toNat * epochLength.toNat < 2 ^ 64)
    (hfits : epoch.toNat * epochLength.toNat / slotLength.toNat + slot.toNat < 2 ^ 64) :
    (computeAbsoluteSlotWithinEra pr epoch slot epochLength slotLength : Outcome ε UInt64) =
      .ok (UInt64.ofNat (epoch.toNat * epochLength.toNat / slotLength.toNat + slot.toNat)) := by
  have hne : slotLength ≠ 0 := fun h => by simp [h] at hpos
  have hslots : (UInt64.ofNat (epoch.toNat * epochLength.toNat) / slotLength.toUInt64).toNat =
      epoch.toNat * epochLength.toNat / slotLength.toNat := by
    rw [UInt64.toNat_div, toNat_u64 hseconds, UInt32.toNat_toUInt64]
  rw [computeAbsoluteSlotWithinEra, mul_u64 (by rwa [UInt32.toNat_toUInt64]), Outcome.ok_bind, if_neg hne,
    UInt32.toNat_toUInt64, add_u64 (by rwa [hslots]), hslots]

end Operators

/-! ### Quotients and remainders -/

theorem div_lt_u64 (a : UInt64) (n : ℕ) : a.toNat / n < 2 ^ 64 := (Nat.div_le_self ..).trans_lt a.toNat_lt

theorem sub_mod_lt_u64 (a : UInt64) (m n : ℕ) : (a.toNat - m) % n < 2 ^ 64 :=
  ((Nat.mod_le ..).trans (Nat.sub_le ..)).trans_lt a.toNat_lt

theorem mod_lt_u64 (a : UInt64) (n : ℕ) : a.toNat % n < 2 ^ 64 := sub_mod_lt_u64 a 0 n

/-- A quotient and a remainder by a multiple of the divisor grow with the number: with the same quotient, the multiples
of the divisor that the remainders lack are the same. -/
theorem div_mod_lt {a b n k : ℕ} (h : a < b) : a / n < b / n ∨ a / n = b / n ∧ a % (n * k) < b % (n * k) := by
  rcases (Nat.div_le_div_right h.le : a / n ≤ b / n).lt_or_eq with hlt | heq
  · exact .inl hlt
  · refine .inr ⟨heq, ?_⟩
    have ha := Nat.div_add_mod a n
    have hb := Nat.div_add_mod b n
    rw [Nat.mod_mul, Nat.mod_mul, heq]
    rw [heq] at ha
    omega

/-- A number is put together from a quotient and the remainder by a multiple of the divisor only where that is the remainder. -/
theorem div_mul_add_mod_eq_iff {a n k : ℕ} (hn : 0 < n) : a / n * n + a % (n * k) = a ↔ a % (n * k) < n := by
  have hsplit := Nat.div_add_mod' a n
  have hmod : a % (n * k) % n = a % n := Nat.mod_mul_right_mod a n k
  constructor
  · intro heq
    have hlast : a % (n * k) = a % n := by omega
    rw [hlast]
    exact Nat.mod_lt _ hn
  · intro hsmall
    rw [Nat.mod_eq_of_lt hsmall] at hmod
    omega

namespace GenesisValues

/-- The slots in an epoch of the Byron era. -/
def byronSlots (g : GenesisValues) : ℕ := g.byronEpochLength.toNat / g.byronSlotLength.toNat

/-- The slots in an epoch of the era of a slot. -/
def slotsPerEpoch (g : GenesisValues) (slot : UInt64) : ℕ :=
  if slot < g.shelleyKnownSlot then g.byronSlots else g.shelleyEpochLength.toNat / g.shelleySlotLength.toNat

/-- The epoch the Shelley era starts with. -/
def startEpoch (g : GenesisValues) : ℕ := g.shelleyKnownSlot.toNat / g.byronSlots

theorem startEpoch_lt (g : GenesisValues) : g.startEpoch < 2 ^ 64 :=
  (Nat.div_le_self ..).trans_lt g.shelleyKnownSlot.toNat_lt

theorem shelleyEpoch_lt {s : UInt64} (g : GenesisValues) (hs : g.shelleyKnownSlot ≤ s) :
    g.startEpoch + (s.toNat - g.shelleyKnownSlot.toNat) / g.shelleyEpochLength.toNat < 2 ^ 64 := by
  have hge := UInt64.le_iff_toNat_le.1 hs
  have hlt := s.toNat_lt
  have hstart : g.startEpoch ≤ g.shelleyKnownSlot.toNat := Nat.div_le_self ..
  have hquotient := Nat.div_le_self (s.toNat - g.shelleyKnownSlot.toNat) g.shelleyEpochLength.toNat
  omega

/-- The slot within the epoch is right: always in the Shelley era, in every so many Byron epochs as a slot has
seconds. -/
def Settled (g : GenesisValues) (s : UInt64) : Prop :=
  g.shelleyKnownSlot ≤ s ∨ s.toNat % g.byronEpochLength.toNat < g.byronSlots

/-- The time of a slot fits. -/
def TimeFits (g : GenesisValues) (s : UInt64) : Prop :=
  s < g.shelleyKnownSlot ∨ g.shelleyKnownTime.toNat + (s.toNat - g.shelleyKnownSlot.toNat) < 2 ^ 64

/-- A slot of the Byron era whose time is not before that of a slot of the Shelley era. -/
def Overlaps (g : GenesisValues) (s t : UInt64) : Prop :=
  s < g.shelleyKnownSlot ∧ g.shelleyKnownSlot ≤ t ∧
    g.shelleyKnownTime.toNat + (t.toNat - g.shelleyKnownSlot.toNat) ≤
      g.byronKnownTime.toNat + s.toNat * g.byronSlotLength.toNat

/-- What the four networks have in common. -/
structure Aligned (g : GenesisValues) : Prop where
  byronSlot_pos : 0 < g.byronSlotLength.toNat
  byronSlots_pos : 0 < g.byronSlots
  byronEpoch : g.byronEpochLength.toNat = g.byronSlots * g.byronSlotLength.toNat
  boundary : g.byronSlots ∣ g.shelleyKnownSlot.toNat
  shelleySlot : g.shelleySlotLength = 1
  shelleyEpoch_pos : 0 < g.shelleyEpochLength.toNat
  byronStart : g.byronKnownSlot = 0
  byronEnd : g.byronKnownTime.toNat + g.shelleyKnownSlot.toNat * g.byronSlotLength.toNat < 2 ^ 64

theorem wellknown_aligned {g : GenesisValues} (hg : g ∈ wellknown) : g.Aligned := by
  have hall : ∀ g ∈ wellknown, 0 < g.byronSlotLength.toNat ∧ 0 < g.byronSlots ∧
      g.byronEpochLength.toNat = g.byronSlots * g.byronSlotLength.toNat ∧
      g.byronSlots ∣ g.shelleyKnownSlot.toNat ∧ g.shelleySlotLength = 1 ∧ 0 < g.shelleyEpochLength.toNat ∧
      g.byronKnownSlot = 0 ∧
      g.byronKnownTime.toNat + g.shelleyKnownSlot.toNat * g.byronSlotLength.toNat < 2 ^ 64 := by decide +kernel
  obtain ⟨h1, h2, h3, h4, h5, h6, h7, h8⟩ := hall g hg
  exact ⟨h1, h2, h3, h4, h5, h6, h7, h8⟩

/-! ### Slots and epochs -/

namespace Aligned
variable {ε : Type} {pr : Profile} {g : GenesisValues} {s : UInt64}

theorem mul_byronSlot_lt (h : g.Aligned) {n : ℕ} (hn : n ≤ g.shelleyKnownSlot.toNat) :
    n * g.byronSlotLength.toNat < 2 ^ 64 := by
  have hle := Nat.mul_le_mul_right g.byronSlotLength.toNat hn
  have hend := h.byronEnd
  omega

theorem byronEpochLength_pos (h : g.Aligned) : 0 < g.byronEpochLength.toNat := by
  rw [h.byronEpoch]
  exact Nat.mul_pos h.byronSlots_pos h.byronSlot_pos

theorem slots_div (h : g.Aligned) (n : ℕ) :
    n * g.byronSlotLength.toNat / g.byronEpochLength.toNat = n / g.byronSlots := by
  rw [h.byronEpoch, Nat.mul_div_mul_right _ _ h.byronSlot_pos]

theorem mul_epoch_div (h : g.Aligned) (n : ℕ) :
    n * g.byronEpochLength.toNat / g.byronSlotLength.toNat = n * g.byronSlots := by
  rw [h.byronEpoch, ← mul_assoc, Nat.mul_div_cancel _ h.byronSlot_pos]

theorem shelleySlotLength_eq (h : g.Aligned) : g.shelleySlotLength.toNat = 1 := by
  rw [h.shelleySlot]
  rfl

theorem startEpoch_mul (h : g.Aligned) : g.startEpoch * g.byronSlots = g.shelleyKnownSlot.toNat :=
  Nat.div_mul_cancel h.boundary

theorem shelleyStartEpoch_eq (h : g.Aligned) :
    (g.shelleyStartEpoch pr : Outcome ε Epoch) = .ok (UInt64.ofNat (g.startEpoch)) := by
  rw [shelleyStartEpoch, computeEraEpoch_eq, Outcome.ok_bind]
  · rw [UInt32.toNat_toUInt64, UInt32.toNat_toUInt64, h.slots_div]
    rfl
  · exact h.byronEpochLength_pos
  · exact h.mul_byronSlot_lt le_rfl

theorem relative_byron (h : g.Aligned) (hs : s < g.shelleyKnownSlot) :
    (g.absoluteSlotToRelative pr s : Outcome ε _) =
      .ok (UInt64.ofNat (s.toNat / g.byronSlots), UInt64.ofNat (s.toNat % g.byronEpochLength.toNat)) := by
  rw [absoluteSlotToRelative, if_pos hs, computeEraEpoch_eq]
  · rw [UInt32.toNat_toUInt64, UInt32.toNat_toUInt64, h.slots_div]
  · exact h.byronEpochLength_pos
  · exact h.mul_byronSlot_lt (UInt64.lt_iff_toNat_lt.1 hs).le

theorem relative_shelley (h : g.Aligned) (hs : ¬ s < g.shelleyKnownSlot) :
    (g.absoluteSlotToRelative pr s : Outcome ε _) =
      .ok (UInt64.ofNat (g.startEpoch + (s.toNat - g.shelleyKnownSlot.toNat) / g.shelleyEpochLength.toNat),
        UInt64.ofNat ((s.toNat - g.shelleyKnownSlot.toNat) % g.shelleyEpochLength.toNat)) := by
  have hle := UInt64.le_iff_toNat_le.1 (UInt64.not_lt.1 hs)
  have hlt := s.toNat_lt
  have hepoch := g.shelleyEpoch_lt (UInt64.not_lt.1 hs)
  have hpassed := toNat_u64 (show s.toNat - g.shelleyKnownSlot.toNat < 2 ^ 64 by omega)
  have hstart := toNat_u64 g.startEpoch_lt
  have hera := toNat_u64 ((Nat.le_add_left ..).trans_lt hepoch)
  rw [absoluteSlotToRelative, if_neg hs, sub_u64 hle, Outcome.ok_bind, computeEraEpoch_eq, Outcome.ok_bind]
  · dsimp only
    rw [h.shelleyStartEpoch_eq, Outcome.ok_bind, hpassed, UInt32.toNat_toUInt64, UInt32.toNat_toUInt64,
      h.shelleySlotLength_eq, mul_one, add_u64 (by rwa [hstart, hera]), hstart, hera, Outcome.ok_bind]
  · exact h.shelleyEpoch_pos
  · rw [hpassed, UInt32.toNat_toUInt64, h.shelleySlotLength_eq]
    omega

theorem absolute_byron {epoch slot : UInt64} (h : g.Aligned) (hepoch : epoch.toNat < g.startEpoch)
    (hfits : epoch.toNat * g.byronSlots + slot.toNat < 2 ^ 64) :
    (g.relativeSlotToAbsolute pr epoch slot : Outcome ε _) =
      .ok (UInt64.ofNat (epoch.toNat * g.byronSlots + slot.toNat)) := by
  have hlt : epoch < UInt64.ofNat g.startEpoch := UInt64.lt_iff_toNat_lt.2 (by rwa [toNat_u64 (startEpoch_lt g)])
  have hle : epoch.toNat * g.byronSlots ≤ g.shelleyKnownSlot.toNat := by
    rw [← h.startEpoch_mul]
    exact Nat.mul_le_mul_right _ hepoch.le
  rw [relativeSlotToAbsolute, h.shelleyStartEpoch_eq, Outcome.ok_bind, if_pos hlt,
    computeAbsoluteSlotWithinEra_eq h.byronSlot_pos, h.mul_epoch_div]
  · rw [h.byronEpoch, ← mul_assoc]
    exact h.mul_byronSlot_lt hle
  · rwa [h.mul_epoch_div]

theorem absolute_shelley {epoch slot : UInt64} (h : g.Aligned) (hepoch : g.startEpoch ≤ epoch.toNat)
    (hfits : g.shelleyKnownSlot.toNat + ((epoch.toNat - g.startEpoch) * g.shelleyEpochLength.toNat + slot.toNat) <
      2 ^ 64) :
    (g.relativeSlotToAbsolute pr epoch slot : Outcome ε _) =
      .ok (UInt64.ofNat (g.shelleyKnownSlot.toNat +
        ((epoch.toNat - g.startEpoch) * g.shelleyEpochLength.toNat + slot.toNat))) := by
  have hstart := toNat_u64 (startEpoch_lt g)
  have hge : ¬ epoch < UInt64.ofNat g.startEpoch := by
    rw [UInt64.lt_iff_toNat_lt, hstart]
    omega
  have hlt := epoch.toNat_lt
  have hepochs := toNat_u64 (show epoch.toNat - g.startEpoch < 2 ^ 64 by omega)
  have hknown := toNat_u64 g.shelleyKnownSlot.toNat_lt
  have hbyron : (computeAbsoluteSlotWithinEra pr (UInt64.ofNat g.startEpoch) 0 g.byronEpochLength g.byronSlotLength :
      Outcome ε _) = .ok g.shelleyKnownSlot := by
    rw [computeAbsoluteSlotWithinEra_eq h.byronSlot_pos, hstart, h.mul_epoch_div, h.startEpoch_mul]
    · exact congrArg _ (UInt64.toNat_inj.1 hknown)
    · rw [hstart, h.byronEpoch, ← mul_assoc, h.startEpoch_mul]
      exact h.mul_byronSlot_lt le_rfl
    · rw [hstart, h.mul_epoch_div, h.startEpoch_mul]
      exact g.shelleyKnownSlot.toNat_lt
  have hshelley := toNat_u64
    (show (epoch.toNat - g.startEpoch) * g.shelleyEpochLength.toNat + slot.toNat < 2 ^ 64 by omega)
  rw [relativeSlotToAbsolute, h.shelleyStartEpoch_eq, Outcome.ok_bind, if_neg hge, hbyron, Outcome.ok_bind,
    sub_u64 (by rwa [hstart]), Outcome.ok_bind, hstart, computeAbsoluteSlotWithinEra_eq, Outcome.ok_bind, hepochs,
    h.shelleySlotLength_eq, Nat.div_one, add_u64 (by rwa [hshelley]), hshelley]
  · rw [h.shelleySlotLength_eq]
    exact Nat.one_pos
  · rw [hepochs]
    omega
  · rw [hepochs, h.shelleySlotLength_eq, Nat.div_one]
    omega

theorem relative_iff (h : g.Aligned) (pr : Profile) (s : UInt64) :
    ∃ epoch slot, (g.absoluteSlotToRelative pr s : Outcome ε _) = .ok (epoch, slot) ∧
      ((g.relativeSlotToAbsolute pr epoch slot : Outcome ε _) = .ok s ↔ g.Settled s) ∧
      (slot.toNat < g.slotsPerEpoch s ↔ g.Settled s) := by
  have hlt := s.toNat_lt
  by_cases hs : s < g.shelleyKnownSlot
  · have hsettled : g.Settled s ↔ s.toNat % g.byronEpochLength.toNat < g.byronSlots :=
      or_iff_right (UInt64.not_le.2 hs)
    have hknown := UInt64.lt_iff_toNat_lt.1 hs
    have hquotient := Nat.div_le_self s.toNat g.byronSlots
    have hremainder := Nat.mod_le s.toNat g.byronEpochLength.toNat
    have hepoch := toNat_u64 (div_lt_u64 s g.byronSlots)
    have hslot := toNat_u64 (mod_lt_u64 s g.byronEpochLength.toNat)
    refine ⟨_, _, h.relative_byron hs, ?_, ?_⟩
    · have hfits : s.toNat / g.byronSlots * g.byronSlots + s.toNat % g.byronEpochLength.toNat < 2 ^ 64 := by
        rcases Nat.lt_or_ge g.byronSlotLength.toNat 2 with hone | htwo
        · have hlength : g.byronSlotLength.toNat = 1 := by
            have hpos := h.byronSlot_pos
            omega
          rw [h.byronEpoch, hlength, mul_one, Nat.div_add_mod']
          exact hlt
        · have hle := Nat.div_mul_le_self s.toNat g.byronSlots
          have hdouble := Nat.mul_le_mul_left s.toNat htwo
          have hproduct := h.mul_byronSlot_lt hknown.le
          omega
      rw [h.absolute_byron, hepoch, hslot, Outcome.ok.injEq, hsettled]
      · rw [← UInt64.toNat_inj, toNat_u64 hfits, h.byronEpoch]
        exact div_mul_add_mod_eq_iff h.byronSlots_pos
      · rw [hepoch]
        exact Nat.div_lt_div_of_lt_of_dvd h.boundary hknown
      · rwa [hepoch, hslot]
    · rw [hslot, slotsPerEpoch, if_pos hs, hsettled]
  · have hsettled : g.Settled s := .inl (UInt64.not_lt.1 hs)
    have hge := UInt64.le_iff_toNat_le.1 (UInt64.not_lt.1 hs)
    have hremainder := Nat.mod_lt (s.toNat - g.shelleyKnownSlot.toNat) h.shelleyEpoch_pos
    have hsplit := Nat.div_add_mod' (s.toNat - g.shelleyKnownSlot.toNat) g.shelleyEpochLength.toNat
    have hepoch := toNat_u64 (g.shelleyEpoch_lt (UInt64.not_lt.1 hs))
    have hslot := toNat_u64 (sub_mod_lt_u64 s g.shelleyKnownSlot.toNat g.shelleyEpochLength.toNat)
    refine ⟨_, _, h.relative_shelley hs, ?_, ?_⟩
    · have hsum : g.shelleyKnownSlot.toNat + ((s.toNat - g.shelleyKnownSlot.toNat) / g.shelleyEpochLength.toNat *
          g.shelleyEpochLength.toNat + (s.toNat - g.shelleyKnownSlot.toNat) % g.shelleyEpochLength.toNat) =
          s.toNat := by omega
      rw [h.absolute_shelley, hepoch, hslot, Nat.add_sub_cancel_left, hsum]
      · exact iff_of_true (congrArg _ (UInt64.toNat_inj.1 (toNat_u64 hlt))) hsettled
      · rw [hepoch]
        exact Nat.le_add_right ..
      · rw [hepoch, hslot, Nat.add_sub_cancel_left, hsum]
        exact hlt
    · rw [hslot, slotsPerEpoch, if_neg hs, h.shelleySlotLength_eq, Nat.div_one]
      exact iff_of_true hremainder hsettled

theorem relative_lt {t : UInt64} (h : g.Aligned) (pr : Profile) (hst : s < t) :
    ∃ a b, (g.absoluteSlotToRelative pr s : Outcome ε _) = .ok a ∧
      (g.absoluteSlotToRelative pr t : Outcome ε _) = .ok b ∧
      toLex (a.1.toNat, a.2.toNat) < toLex (b.1.toNat, b.2.toNat) := by
  have hless := UInt64.lt_iff_toNat_lt.1 hst
  by_cases hs : s < g.shelleyKnownSlot
  · have hknown := UInt64.lt_iff_toNat_lt.1 hs
    by_cases ht : t < g.shelleyKnownSlot
    · refine ⟨_, _, h.relative_byron hs, h.relative_byron ht, Prod.Lex.toLex_lt_toLex.2 ?_⟩
      dsimp only
      rw [toNat_u64 (div_lt_u64 s _), toNat_u64 (div_lt_u64 t _), toNat_u64 (mod_lt_u64 s _),
        toNat_u64 (mod_lt_u64 t _), h.byronEpoch]
      exact div_mod_lt hless
    · have hbefore : s.toNat / g.byronSlots < g.startEpoch := Nat.div_lt_div_of_lt_of_dvd h.boundary hknown
      refine ⟨_, _, h.relative_byron hs, h.relative_shelley ht, Prod.Lex.toLex_lt_toLex.2 (.inl ?_)⟩
      dsimp only
      rw [toNat_u64 (div_lt_u64 s _), toNat_u64 (g.shelleyEpoch_lt (UInt64.not_lt.1 ht))]
      exact hbefore.trans_le (Nat.le_add_right ..)
  · have hge := UInt64.le_iff_toNat_le.1 (UInt64.not_lt.1 hs)
    have ht : ¬ t < g.shelleyKnownSlot := fun ht => hs (UInt64.lt_trans hst ht)
    refine ⟨_, _, h.relative_shelley hs, h.relative_shelley ht, Prod.Lex.toLex_lt_toLex.2 ?_⟩
    dsimp only
    rw [toNat_u64 (g.shelleyEpoch_lt (UInt64.not_lt.1 hs)), toNat_u64 (g.shelleyEpoch_lt (UInt64.not_lt.1 ht)),
      toNat_u64 (sub_mod_lt_u64 s _ _), toNat_u64 (sub_mod_lt_u64 t _ _), add_lt_add_iff_left, add_right_inj]
    have hpair := div_mod_lt (n := g.shelleyEpochLength.toNat) (k := 1)
      (show s.toNat - g.shelleyKnownSlot.toNat < t.toNat - g.shelleyKnownSlot.toNat by omega)
    rwa [mul_one] at hpair

/-! ### Times -/

theorem wallclock_byron (h : g.Aligned) (hs : s < g.shelleyKnownSlot) :
    (g.slotToWallclock pr s : Outcome ε _) =
      .ok (UInt64.ofNat (g.byronKnownTime.toNat + s.toNat * g.byronSlotLength.toNat)) := by
  have hend := h.byronEnd
  have hle := Nat.mul_le_mul_right g.byronSlotLength.toNat (UInt64.lt_iff_toNat_lt.1 hs).le
  rw [slotToWallclock, if_pos hs, h.byronStart, computeLinearTimestamp_eq (Nat.zero_le _)]
  · rw [UInt32.toNat_toUInt64, UInt64.toNat_zero, Nat.sub_zero]
  · rw [UInt32.toNat_toUInt64, UInt64.toNat_zero, Nat.sub_zero]
    omega

theorem wallclock_shelley (h : g.Aligned) (hs : ¬ s < g.shelleyKnownSlot)
    (hfits : g.shelleyKnownTime.toNat + (s.toNat - g.shelleyKnownSlot.toNat) < 2 ^ 64) :
    (g.slotToWallclock pr s : Outcome ε _) =
      .ok (UInt64.ofNat (g.shelleyKnownTime.toNat + (s.toNat - g.shelleyKnownSlot.toNat))) := by
  rw [slotToWallclock, if_neg hs, computeLinearTimestamp_eq (UInt64.le_iff_toNat_le.1 (UInt64.not_lt.1 hs))]
  · rw [UInt32.toNat_toUInt64, h.shelleySlotLength_eq, mul_one]
  · rwa [UInt32.toNat_toUInt64, h.shelleySlotLength_eq, mul_one]

theorem wallclock_panic (h : g.Aligned) (hs : ¬ s < g.shelleyKnownSlot)
    (hover : 2 ^ 64 ≤ g.shelleyKnownTime.toNat + (s.toNat - g.shelleyKnownSlot.toNat)) :
    (g.slotToWallclock .debug s : Outcome ε _) = .panic := by
  have hle := UInt64.le_iff_toNat_le.1 (UInt64.not_lt.1 hs)
  have hlt := s.toNat_lt
  have hpassed := toNat_u64 (show s.toNat - g.shelleyKnownSlot.toNat < 2 ^ 64 by omega)
  have hlength : g.shelleySlotLength.toUInt64.toNat = 1 := by rw [UInt32.toNat_toUInt64, h.shelleySlotLength_eq]
  rw [slotToWallclock, if_neg hs, computeLinearTimestamp, sub_u64 hle, Outcome.ok_bind, mul_u64, Outcome.ok_bind,
    hpassed, hlength, mul_one]
  · refine MachineInt.exact_eq_panic.2 ⟨rfl, fun hfits => ?_⟩
    have hhi : (g.shelleyKnownTime.toNat : ℤ) + (UInt64.ofNat (s.toNat - g.shelleyKnownSlot.toNat)).toNat ≤
      2 ^ 64 - 1 := hfits.2
    rw [hpassed] at hhi
    omega
  · rw [hpassed, hlength]
    omega

theorem wallclock_lt_iff {t : UInt64} (h : g.Aligned) (hst : s < t) :
    (∀ pr, ∃ a b, (g.slotToWallclock pr s : Outcome ε _) = .ok a ∧ (g.slotToWallclock pr t : Outcome ε _) = .ok b ∧
      a < b) ↔ g.TimeFits t ∧ ¬ g.Overlaps s t := by
  have hless := UInt64.lt_iff_toNat_lt.1 hst
  have hend := h.byronEnd
  by_cases ht : t < g.shelleyKnownSlot
  · have hs := UInt64.lt_trans hst ht
    have hgrow := Nat.mul_lt_mul_of_pos_right hless h.byronSlot_pos
    have hle := Nat.mul_le_mul_right g.byronSlotLength.toNat (UInt64.lt_iff_toNat_lt.1 ht).le
    refine iff_of_true (fun pr => ⟨_, _, h.wallclock_byron hs, h.wallclock_byron ht, ?_⟩)
      ⟨.inl ht, fun hover => UInt64.not_le.2 ht hover.2.1⟩
    rw [UInt64.lt_iff_toNat_lt, toNat_u64 (by omega), toNat_u64 (by omega)]
    omega
  have hge := UInt64.le_iff_toNat_le.1 (UInt64.not_lt.1 ht)
  by_cases hfits : g.shelleyKnownTime.toNat + (t.toNat - g.shelleyKnownSlot.toNat) < 2 ^ 64
  · rw [and_iff_right (show g.TimeFits t from .inr hfits)]
    by_cases hs : s < g.shelleyKnownSlot
    · have hle := Nat.mul_le_mul_right g.byronSlotLength.toNat (UInt64.lt_iff_toNat_lt.1 hs).le
      have hbyron := toNat_u64 (show g.byronKnownTime.toNat + s.toNat * g.byronSlotLength.toNat < 2 ^ 64 by omega)
      simp only [h.wallclock_byron hs, h.wallclock_shelley ht hfits, Outcome.ok.injEq, Overlaps, hs,
        UInt64.not_lt.1 ht, true_and, not_le]
      have hlt : UInt64.ofNat (g.byronKnownTime.toNat + s.toNat * g.byronSlotLength.toNat) <
          UInt64.ofNat (g.shelleyKnownTime.toNat + (t.toNat - g.shelleyKnownSlot.toNat)) ↔
          g.byronKnownTime.toNat + s.toNat * g.byronSlotLength.toNat <
            g.shelleyKnownTime.toNat + (t.toNat - g.shelleyKnownSlot.toNat) := by
        rw [UInt64.lt_iff_toNat_lt, hbyron, toNat_u64 hfits]
      rw [← hlt]
      constructor
      · intro hall
        obtain ⟨_, _, rfl, rfl, hab⟩ := hall .debug
        exact hab
      · intro hab pr
        exact ⟨_, _, rfl, rfl, hab⟩
    · have hsfits : g.shelleyKnownTime.toNat + (s.toNat - g.shelleyKnownSlot.toNat) < 2 ^ 64 := by omega
      refine iff_of_true (fun pr => ⟨_, _, h.wallclock_shelley hs hsfits, h.wallclock_shelley ht hfits, ?_⟩)
        fun hover => hs hover.1
      have hsge := UInt64.le_iff_toNat_le.1 (UInt64.not_lt.1 hs)
      rw [UInt64.lt_iff_toNat_lt, toNat_u64 hsfits, toNat_u64 hfits]
      omega
  · refine iff_of_false (fun hall => ?_) fun hcond => hcond.1.elim ht hfits
    obtain ⟨a, b, -, hb, -⟩ := hall .debug
    rw [h.wallclock_panic ht (not_lt.1 hfits)] at hb
    cases hb

end Aligned

theorem overlaps_iff {g : GenesisValues} (hg : g ∈ wellknown) (s t : UInt64) :
    g.Overlaps s t ↔ g = testnet ∧ s < 1598400 ∧ 1598400 ≤ t ∧ t.toNat + 30358800 ≤ 20 * s.toNat := by
  simp only [wellknown, List.mem_cons, List.not_mem_nil, or_false] at hg
  simp only [Overlaps, UInt64.lt_iff_toNat_lt, UInt64.le_iff_toNat_le]
  rcases hg with rfl | rfl | rfl | rfl
  · refine iff_of_false (fun hover => ?_) fun h => absurd h.1 (by decide)
    simp [mainnet] at hover
    omega
  · simp [testnet]
    omega
  · refine iff_of_false (fun hover => ?_) fun h => absurd h.1 (by decide)
    simp [preview] at hover
  · refine iff_of_false (fun hover => ?_) fun h => absurd h.1 (by decide)
    simp [preprod] at hover
    omega

/-! ### The four networks -/

/-- On each of the networks: a slot is recovered from its epoch and its slot therein, and that slot is one of the epoch,
in the Shelley era and in every twentieth epoch of the Byron era; the pairs are in order; and so are the times that fit,
save for the last slots of the testnet's Byron era. -/
theorem wellknown_conversions {g : GenesisValues} (hg : g ∈ wellknown) :
    (∀ pr s, ∃ epoch slot, (g.absoluteSlotToRelative pr s : Outcome Empty _) = .ok (epoch, slot) ∧
      ((g.relativeSlotToAbsolute pr epoch slot : Outcome Empty _) = .ok s ↔ g.Settled s) ∧
      (slot.toNat < g.slotsPerEpoch s ↔ g.Settled s)) ∧
    (∀ pr s t, s < t → ∃ a b, (g.absoluteSlotToRelative pr s : Outcome Empty _) = .ok a ∧
      (g.absoluteSlotToRelative pr t : Outcome Empty _) = .ok b ∧
      toLex (a.1.toNat, a.2.toNat) < toLex (b.1.toNat, b.2.toNat)) ∧
    ∀ s t, s < t → ((∀ pr, ∃ a b, (g.slotToWallclock pr s : Outcome Empty _) = .ok a ∧
      (g.slotToWallclock pr t : Outcome Empty _) = .ok b ∧ a < b) ↔
      g.TimeFits t ∧ ¬ (g = testnet ∧ s < 1598400 ∧ 1598400 ≤ t ∧ t.toNat + 30358800 ≤ 20 * s.toNat)) := by
  have h := wellknown_aligned hg
  refine ⟨h.relative_iff, fun pr s t => h.relative_lt pr, fun s t hst => ?_⟩
  rw [h.wallclock_lt_iff hst, overlaps_iff hg]

/-- The mainnet, at the last slot of the Byron era and the first of the Shelley era. -/
theorem wellknown_conversions_mainnet :
    (∃ epoch slot, (mainnet.absoluteSlotToRelative .debug 4492800 : Outcome Empty _) = .ok (epoch, slot) ∧
      (mainnet.relativeSlotToAbsolute .debug epoch slot : Outcome Empty _) = .ok 4492800) ∧
    (∀ pr, ∃ a b, (mainnet.slotToWallclock pr 4492799 : Outcome Empty _) = .ok a ∧
      (mainnet.slotToWallclock pr 4492800 : Outcome Empty _) = .ok b ∧ a < b) := by
  obtain ⟨hround, -, htime⟩ := wellknown_conversions (g := mainnet) (by simp [wellknown])
  obtain ⟨epoch, slot, hrelative, habsolute, -⟩ := hround .debug 4492800
  exact ⟨⟨epoch, slot, hrelative, habsolute.2 (.inl (by decide))⟩,
    (htime 4492799 4492800 (by decide)).2 ⟨.inr (by decide), fun h => absurd h.1 (by decide)⟩⟩

/-- The first slot of the second epoch of the mainnet, and the last of the testnet's Byron era. -/
theorem conversions_disagree :
    (mainnet.absoluteSlotToRelative .debug 21600 : Outcome Empty _) = .ok (1, 21600) ∧
    (mainnet.relativeSlotToAbsolute .debug 1 21600 : Outcome Empty _) = .ok 43200 ∧
    mainnet.slotsPerEpoch 21600 = 21600 ∧
    (testnet.slotToWallclock .debug 1598399 : Outcome Empty _) = .ok 1595978396 ∧
    (testnet.slotToWallclock .debug 1598400 : Outcome Empty _) = .ok 1595967616 := by decide +kernel

end GenesisValues

end Pallas
