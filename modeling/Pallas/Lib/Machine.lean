import Pallas.Lib.Outcome

/-!
# Fixed-width arithmetic under a build profile

Rust's `+`, `-` and `*` on machine integers give the exact result where it fits. Where it does not,
a debug build panics and a release build keeps the result modulo the width. `Profile` picks the
build, and every operator goes through `Profile.exact`: one integer result, one range test. So the
rules are stated once, for all widths: a release run is congruent to the exact result modulo
`card α`, a debug run that does not panic is equal to it, and a debug run panics exactly when the
exact result does not fit.
-/

/-- The build the code is compiled in: with overflow checks or without. -/
inductive Profile where
  | debug
  | release
  deriving DecidableEq

/-- A machine integer type: a range of integers, and the wrapping map onto it. -/
class MachineInt (α : Type) where
  toInt : α → ℤ
  lo : ℤ
  hi : ℤ
  wrap : ℤ → α
  lo_le : ∀ a : α, lo ≤ toInt a
  le_hi : ∀ a : α, toInt a ≤ hi
  wrap_toInt : ∀ a : α, wrap (toInt a) = a
  toInt_wrap : ∀ z : ℤ, lo ≤ z → z ≤ hi → toInt (wrap z) = z
  wrap_modEq : ∀ z : ℤ, toInt (wrap z) ≡ z [ZMOD hi - lo + 1]

namespace MachineInt
variable {ε α β : Type} [MachineInt α] [MachineInt β] {pr : Profile}

attribute [simp] wrap_toInt

/-- The number of values of the type. -/
def card (α : Type) [MachineInt α] : ℤ := hi α - lo α + 1

/-- The integer has a representative of the type. -/
def Fits (α : Type) [MachineInt α] (z : ℤ) : Prop := lo α ≤ z ∧ z ≤ hi α

instance (z : ℤ) : Decidable (Fits α z) := inferInstanceAs (Decidable (_ ∧ _))

theorem fits_toInt (a : α) : Fits α (toInt a) := ⟨lo_le a, le_hi a⟩

theorem toInt_wrap_of_fits {z : ℤ} (h : Fits α z) : toInt (wrap z : α) = z := toInt_wrap z h.1 h.2

theorem toInt_wrap_modEq (z : ℤ) : toInt (wrap z : α) ≡ z [ZMOD card α] := wrap_modEq z

theorem toInt_injective : Function.Injective (toInt : α → ℤ) := fun a b h => by
  rw [← wrap_toInt a, h, wrap_toInt]

theorem toInt_inj {a b : α} : toInt a = toInt b ↔ a = b := toInt_injective.eq_iff

/-- Two representatives of one residue are the same value. -/
theorem eq_of_modEq {a b : α} (h : toInt a ≡ toInt b [ZMOD card α]) : toInt a = toInt b := by
  obtain ⟨k, hk⟩ := h.dvd
  have ha := fits_toInt a
  have hb := fits_toInt b
  simp only [Fits, card] at ha hb hk
  have hk0 : k = 0 := by nlinarith
  rw [hk0] at hk
  linarith

/-- The value of an operator whose exact result is `z`. -/
def exact (pr : Profile) (z : ℤ) : Outcome ε α :=
  if Fits α z then .ok (wrap z) else match pr with
    | .debug => .panic
    | .release => .ok (wrap z)

/-- `a + b`. -/
def add (pr : Profile) (a b : α) : Outcome ε α := exact pr (toInt a + toInt b)

/-- `a - b`. -/
def sub (pr : Profile) (a b : α) : Outcome ε α := exact pr (toInt a - toInt b)

/-- `a * b`. -/
def mul (pr : Profile) (a b : α) : Outcome ε α := exact pr (toInt a * toInt b)

/-- `a as β`. -/
def cast (a : α) : β := wrap (toInt a)

/-- `β::try_from(a).ok()`. -/
def tryFrom (a : α) : Option β := if Fits β (toInt a) then some (wrap (toInt a)) else none

/-- `a.checked_add(b)`. -/
def checkedAdd (a b : α) : Option α :=
  if Fits α (toInt a + toInt b) then some (wrap (toInt a + toInt b)) else none

/-! ### What one operator gives -/

theorem exact_eq_ok {z : ℤ} {c : α} :
    (exact pr z : Outcome ε α) = .ok c ↔ wrap z = c ∧ (Fits α z ∨ pr = .release) := by
  unfold exact
  split
  · next h => simp [h]
  · next h => cases pr <;> simp [h]

theorem exact_eq_panic {z : ℤ} :
    (exact pr z : Outcome ε α) = .panic ↔ pr = .debug ∧ ¬ Fits α z := by
  unfold exact
  split
  · next h => simp [h]
  · next h => cases pr <;> simp [h]

theorem exact_ne_err {z : ℤ} {e : ε} : (exact pr z : Outcome ε α) ≠ .err e := by
  unfold exact
  split
  · simp
  · cases pr <;> simp

theorem exact_modEq {z : ℤ} {c : α} (h : (exact pr z : Outcome ε α) = .ok c) :
    toInt c ≡ z [ZMOD card α] := by
  obtain ⟨rfl, _⟩ := exact_eq_ok.1 h
  exact toInt_wrap_modEq z

theorem exact_debug {z : ℤ} {c : α} :
    (exact .debug z : Outcome ε α) = .ok c ↔ toInt c = z := by
  rw [exact_eq_ok]
  constructor
  · rintro ⟨rfl, h | h⟩
    · exact toInt_wrap_of_fits h
    · simp at h
  · rintro rfl
    exact ⟨wrap_toInt c, .inl (fits_toInt c)⟩

theorem exact_release {z : ℤ} : (exact .release z : Outcome ε α) = .ok (wrap z) := by
  simp [exact]

theorem exact_of_fits {z : ℤ} (h : Fits α z) : (exact pr z : Outcome ε α) = .ok (wrap z) := by
  simp [exact, h]

theorem checkedAdd_eq_some {a b c : α} : checkedAdd a b = some c ↔ toInt c = toInt a + toInt b := by
  unfold checkedAdd
  split
  · next h =>
    rw [Option.some.injEq]
    exact ⟨fun hc => hc ▸ toInt_wrap_of_fits h, fun hc => hc ▸ wrap_toInt c⟩
  · next h => exact ⟨fun hc => by simp at hc, fun hc => absurd (hc ▸ fits_toInt c) h⟩

theorem tryFrom_eq_some {a : α} {b : β} : tryFrom a = some b ↔ toInt b = toInt a := by
  unfold tryFrom
  split
  · next h =>
    rw [Option.some.injEq]
    exact ⟨fun hc => hc ▸ toInt_wrap_of_fits h, fun hc => hc ▸ wrap_toInt b⟩
  · next h => exact ⟨fun hc => by simp at hc, fun hc => absurd (hc ▸ fits_toInt b) h⟩

theorem cast_modEq (a : α) : toInt (cast a : β) ≡ toInt a [ZMOD card β] := toInt_wrap_modEq _

theorem toInt_cast_of_fits {a : α} (h : Fits β (toInt a)) : toInt (cast a : β) = toInt a :=
  toInt_wrap_of_fits h

/-! ### Running sums -/

theorem wrap_eq_of_modEq {x y : ℤ} (h : x ≡ y [ZMOD card α]) : (wrap x : α) = wrap y := by
  have hx := toInt_wrap_modEq (α := α) x
  have hy := toInt_wrap_modEq (α := α) y
  exact toInt_injective (eq_of_modEq (hx.trans (h.trans hy.symm)))

/-- Adding in two steps is adding once: after a first step that wrapped, the second goes on from the
same residue, and after one that panicked the sum, which only grows, does not fit either. -/
theorem exact_bind_exact {y z : ℤ} (hlo : lo α ≤ y) (hz : 0 ≤ z) :
    ((exact pr y : Outcome ε α) >>= fun s => (exact pr (toInt s + z) : Outcome ε α)) = exact pr (y + z) := by
  by_cases hy : Fits α y
  · rw [exact_of_fits hy, Outcome.ok_bind, toInt_wrap_of_fits hy]
  · have hyz : ¬ Fits α (y + z) := fun h => hy ⟨hlo, le_trans (by omega) h.2⟩
    cases pr with
    | debug => rw [exact_eq_panic.2 ⟨rfl, hy⟩, exact_eq_panic.2 ⟨rfl, hyz⟩, Outcome.panic_bind]
    | release =>
      rw [exact_release, exact_release, Outcome.ok_bind, exact_release,
        wrap_eq_of_modEq ((toInt_wrap_modEq y).add_right z)]

/-- A loop that adds up unsigned quantities is one addition of their exact sum: it wraps as often as
the sum does, and panics exactly when the sum does not fit. -/
theorem fold_add {γ : Type} (hlo : lo α = 0) (g : γ → α) (xs : List γ) (s : α) :
    Outcome.fold (fun s x => (add pr s (g x) : Outcome ε α)) s xs =
      exact pr (toInt s + (xs.map fun x => toInt (g x)).sum) := by
  induction xs generalizing s with
  | nil => rw [List.map_nil, List.sum_nil, add_zero, exact_of_fits (fits_toInt s), wrap_toInt, Outcome.fold_nil]
  | cons x xs ih =>
    have hs := lo_le s
    have hx := lo_le (g x)
    have hsum : 0 ≤ (xs.map fun x => toInt (g x)).sum :=
      List.sum_nonneg (List.forall_mem_map.2 fun y _ => hlo ▸ lo_le (g y))
    rw [Outcome.fold_cons, List.map_cons, List.sum_cons, ← add_assoc]
    simp only [ih]
    exact exact_bind_exact (by omega) hsum

end MachineInt

/-! ### The widths the code uses -/

instance : MachineInt UInt8 where
  toInt a := a.toNat
  lo := 0
  hi := 2 ^ 8 - 1
  wrap z := UInt8.ofNat (z % 2 ^ 8).toNat
  lo_le a := by omega
  le_hi a := by have := a.toNat_lt; omega
  wrap_toInt a := by apply UInt8.toNat_inj.1; have := a.toNat_lt; simp; omega
  toInt_wrap z h h' := by simp; omega
  wrap_modEq z := by simp [Int.ModEq]; omega

instance : MachineInt UInt16 where
  toInt a := a.toNat
  lo := 0
  hi := 2 ^ 16 - 1
  wrap z := UInt16.ofNat (z % 2 ^ 16).toNat
  lo_le a := by omega
  le_hi a := by have := a.toNat_lt; omega
  wrap_toInt a := by apply UInt16.toNat_inj.1; have := a.toNat_lt; simp; omega
  toInt_wrap z h h' := by simp; omega
  wrap_modEq z := by simp [Int.ModEq]; omega

instance : MachineInt UInt32 where
  toInt a := a.toNat
  lo := 0
  hi := 2 ^ 32 - 1
  wrap z := UInt32.ofNat (z % 2 ^ 32).toNat
  lo_le a := by omega
  le_hi a := by have := a.toNat_lt; omega
  wrap_toInt a := by apply UInt32.toNat_inj.1; have := a.toNat_lt; simp; omega
  toInt_wrap z h h' := by simp; omega
  wrap_modEq z := by simp [Int.ModEq]; omega

instance : MachineInt UInt64 where
  toInt a := a.toNat
  lo := 0
  hi := 2 ^ 64 - 1
  wrap z := UInt64.ofNat (z % 2 ^ 64).toNat
  lo_le a := by omega
  le_hi a := by have := a.toNat_lt; omega
  wrap_toInt a := by apply UInt64.toNat_inj.1; have := a.toNat_lt; simp; omega
  toInt_wrap z h h' := by simp; omega
  wrap_modEq z := by simp [Int.ModEq]; omega

theorem uInt64_le {a b : UInt64} : a ≤ b ↔ MachineInt.toInt a ≤ MachineInt.toInt b := Int.ofNat_le.symm

instance : MachineInt Int64 where
  toInt a := a.toInt
  lo := -2 ^ 63
  hi := 2 ^ 63 - 1
  wrap z := Int64.ofInt z
  lo_le a := by have := a.le_toInt; omega
  le_hi a := by have := a.toInt_lt; omega
  wrap_toInt a := by simp
  toInt_wrap z h h' := by rw [Int64.toInt_ofInt]; exact Int.bmod_eq_of_le (by simp; omega) (by simp; omega)
  wrap_modEq z := by rw [Int64.toInt_ofInt]; exact Int.bmod_emod
