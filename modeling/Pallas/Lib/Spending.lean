import Mathlib.Data.List.Nodup
import Mathlib.Data.Set.Basic

/-!
# Items that can be spent once

A state is the set of items that are still unspent. A step takes a list of items out of it: they must
all be there, and no item may be listed twice. A run is a sequence of steps. Runs are exactly the
sequences of lists that draw on the initial set and never repeat an item (`exists_run_iff`).
-/

namespace Spending
variable {ι : Type} {s s' t : Set ι} {xs : List ι} {xss : List (List ι)}

/-- Spending the items `xs` leads from `s` to `s'`. -/
structure Step (s : Set ι) (xs : List ι) (s' : Set ι) : Prop where
  distinct : xs.Nodup
  unspent : ∀ x ∈ xs, x ∈ s
  rest : ∀ x, x ∈ s' ↔ x ∈ s ∧ x ∉ xs

/-- Spending one list after another. -/
inductive Run : Set ι → List (List ι) → Set ι → Prop
  | done {s : Set ι} : Run s [] s
  | step {s t s' : Set ι} {xs : List ι} {xss : List (List ι)} : Step s xs t → Run t xss s' → Run s (xs :: xss) s'

theorem Run.unspent (h : Run s xss s') : ∀ x ∈ xss.flatten, x ∈ s := by
  induction h with
  | done => simp
  | step hstep _ ih =>
    intro x hx
    rcases List.mem_append.1 hx with hx | hx
    · exact hstep.unspent x hx
    · exact ((hstep.rest x).1 (ih x hx)).1

theorem Run.nodup (h : Run s xss s') : xss.flatten.Nodup := by
  induction h with
  | done => exact List.nodup_nil
  | step hstep hrun ih =>
    refine List.nodup_append.2 ⟨hstep.distinct, ih, ?_⟩
    rintro x hx y hy rfl
    exact ((hstep.rest x).1 (hrun.unspent x hy)).2 hx

/-- A sequence of lists can be run exactly when it draws on the set and repeats nothing. -/
theorem exists_run_iff : (∃ s', Run s xss s') ↔ xss.flatten.Nodup ∧ ∀ x ∈ xss.flatten, x ∈ s := by
  constructor
  · rintro ⟨s', h⟩
    exact ⟨h.nodup, h.unspent⟩
  · induction xss generalizing s with
    | nil => exact fun _ => ⟨s, .done⟩
    | cons xs xss ih =>
      rintro ⟨hnodup, hmem⟩
      obtain ⟨hxs, hxss, hdisj⟩ := List.nodup_append.1 hnodup
      have hrest : ∀ x ∈ xss.flatten, x ∈ {x | x ∈ s ∧ x ∉ xs} := by
        intro x hx
        exact ⟨hmem x (List.mem_append_right _ hx), fun hx' => hdisj x hx' x hx rfl⟩
      obtain ⟨s', hrun⟩ := ih ⟨hxss, hrest⟩
      exact ⟨s', .step ⟨hxs, fun x hx => hmem x (List.mem_append_left _ hx), fun _ => Iff.rfl⟩ hrun⟩

end Spending
