import Pallas.Lib.FinMap
import Pallas.Lib.Machine

/-!
# What a debug build says of a release build

The two builds of a program part only where an operator of the debug build panics. So a debug build is below its release
build (`Below`): it panics, or it ends as the other does. Sequencing and loops keep the relation, and a call that does not
panic in a debug build has neither panicked nor wrapped anywhere in either.
-/

open Std

namespace Outcome
variable {ε α β σ : Type}

/-- `x` panics, or ends as `y` does. -/
def Below (x y : Outcome ε α) : Prop := x ≠ panic → y = x

namespace Below
variable {x y : Outcome ε α}

theorem refl (x : Outcome ε α) : Below x x := fun _ => rfl

theorem bind {f g : α → Outcome ε β} (h : Below x y) (hfg : ∀ a, Below (f a) (g a)) : Below (x >>= f) (y >>= g) := by
  intro hne
  cases x with
  | ok a =>
    rw [h nofun]
    exact hfg a hne
  | err e => rw [h nofun, err_bind, err_bind]
  | panic => exact absurd rfl hne

theorem fold {f g : σ → α → Outcome ε σ} (hfg : ∀ s a, Below (f s a) (g s a)) (xs : List α) (s : σ) :
    Below (Outcome.fold f s xs) (Outcome.fold g s xs) := by
  induction xs generalizing s with
  | nil => exact refl _
  | cons a xs ih => exact (hfg s a).bind ih

end Below

end Outcome

theorem FinMap.below_upsert {ε K V W : Type} [Ord K] [TransOrd K] {f g : Option V → W → Outcome ε V}
    (hfg : ∀ old w, (f old w).Below (g old w)) (m : FinMap K V) (new : FinMap K W) :
    (FinMap.upsert f m new).Below (FinMap.upsert g m new) :=
  .fold (fun m (k, w) => (hfg m[k]? w).bind fun _ => .refl _) _ m

namespace MachineInt
variable {ε α : Type} [MachineInt α]

theorem below_exact (pr : Profile) (z : ℤ) : Outcome.Below (exact .debug z : Outcome ε α) (exact pr z) := by
  intro hne
  have hfits : Fits α z := by
    by_contra hfits
    exact hne (exact_eq_panic.2 ⟨rfl, hfits⟩)
  rw [exact_of_fits hfits, exact_of_fits hfits]

end MachineInt
