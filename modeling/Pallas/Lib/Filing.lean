import Mathlib.Data.Finset.Disjoint
import Mathlib.Data.Fintype.Basic

/-!
# A classification kept twice

Keys can be classified by labels in two ways at once: one set of keys for each label, and one label for each key. The two
records `Agree` when no key is in two sets and the set of a key is that of its label. Moving a key from set to set and
writing the label with it keeps the agreement (`Agree.refile`); writing the label alone keeps it exactly when no other
set has the key (`Agree.relabel_iff`).
-/

namespace Filing
variable {K L : Type*} [DecidableEq K]

/-- The sets are disjoint, and a labelled key is in no set but that of its label. -/
structure Agree (sets : L → Finset K) (label : K → Option L) : Prop where
  disjoint : ∀ a b, a ≠ b → Disjoint (sets a) (sets b)
  label : ∀ k a, label k = some a → ∀ b, k ∈ sets b → b = a

/-- Every labelled key is in the set of its label. -/
def Filed (sets : L → Finset K) (label : K → Option L) : Prop := ∀ k a, label k = some a → k ∈ sets a

/-- The sets have labelled keys only. -/
def Within (sets : L → Finset K) (label : K → Option L) : Prop := ∀ a, ∀ k ∈ sets a, label k ≠ none

/-- `k` is in the set of `a`, if it is in any. -/
def OnlyIn (sets : L → Finset K) (k : K) (a : L) : Prop := ∀ b, k ∈ sets b → b = a

instance [Fintype L] [DecidableEq L] (sets : L → Finset K) (k : K) (a : L) : Decidable (OnlyIn sets k a) :=
  inferInstanceAs (Decidable (∀ b, k ∈ sets b → b = a))

/-- `k` is taken out of the set it is in and put in that of `a`. -/
def Refiled (sets sets' : L → Finset K) (k : K) (a : L) : Prop :=
  ∀ b x, x ∈ sets' b ↔ x = k ∧ b = a ∨ x ≠ k ∧ x ∈ sets b

variable {sets sets' : L → Finset K} {label : K → Option L} {k : K} {a : L}

omit [DecidableEq K] in
theorem Agree.eq_of_mem (h : Agree sets label) {b : L} (ha : k ∈ sets a) (hb : k ∈ sets b) : a = b := by
  by_contra hne
  exact Finset.disjoint_left.1 (h.disjoint a b hne) ha hb

theorem Agree.refile (h : Agree sets label) (hr : Refiled sets sets' k a) :
    Agree sets' (Function.update label k (some a)) := by
  refine ⟨fun b c hbc => Finset.disjoint_left.2 fun x hb hc => ?_, fun x c hx b hb => ?_⟩
  · rcases (hr b x).1 hb with ⟨rfl, rfl⟩ | ⟨hne, hb⟩
    · rcases (hr c x).1 hc with ⟨-, rfl⟩ | ⟨hne, -⟩
      · exact hbc rfl
      · exact hne rfl
    · rcases (hr c x).1 hc with ⟨rfl, -⟩ | ⟨-, hc⟩
      · exact hne rfl
      · exact hbc (h.eq_of_mem hb hc)
  · rcases (hr b x).1 hb with ⟨rfl, rfl⟩ | ⟨hne, hb⟩
    · simpa using hx
    · rw [Function.update_of_ne hne] at hx
      exact h.label x c hx b hb

theorem Agree.relabel_iff (h : Agree sets label) : Agree sets (Function.update label k (some a)) ↔ OnlyIn sets k a := by
  constructor
  · intro h' b hb
    exact h'.label k a (by simp) b hb
  · intro hk
    refine ⟨h.disjoint, fun x c hx b hb => ?_⟩
    by_cases hxk : x = k
    · subst hxk
      obtain rfl : a = c := by simpa using hx
      exact hk b hb
    · rw [Function.update_of_ne hxk] at hx
      exact h.label x c hx b hb

theorem Filed.refile (h : Filed sets label) (hr : Refiled sets sets' k a) :
    Filed sets' (Function.update label k (some a)) := by
  intro x c hx
  by_cases hxk : x = k
  · subst hxk
    obtain rfl : a = c := by simpa using hx
    exact (hr a x).2 (.inl ⟨rfl, rfl⟩)
  · rw [Function.update_of_ne hxk] at hx
    exact (hr c x).2 (.inr ⟨hxk, h x c hx⟩)

theorem Filed.relabel (h : Filed sets label) (hk : OnlyIn sets k a) (hl : label k ≠ none) :
    Filed sets (Function.update label k (some a)) := by
  intro x c hx
  by_cases hxk : x = k
  · subst hxk
    obtain rfl : a = c := by simpa using hx
    obtain ⟨b, hb⟩ := Option.ne_none_iff_exists'.1 hl
    exact hk b (h x b hb) ▸ h x b hb
  · rw [Function.update_of_ne hxk] at hx
    exact h x c hx

theorem Within.refile (h : Within sets label) (hr : Refiled sets sets' k a) :
    Within sets' (Function.update label k (some a)) := by
  intro b x hx
  rcases (hr b x).1 hx with ⟨rfl, -⟩ | ⟨hne, hx⟩
  · simp
  · rw [Function.update_of_ne hne]
    exact h b x hx

theorem Within.relabel (h : Within sets label) : Within sets (Function.update label k (some a)) := by
  intro b x hx
  by_cases hxk : x = k
  · subst hxk
    simp
  · rw [Function.update_of_ne hxk]
    exact h b x hx

omit [DecidableEq K] in
theorem Within.onlyIn_of_none (h : Within sets label) (hk : label k = none) (a : L) : OnlyIn sets k a :=
  fun b hb => absurd hk (h b k hb)

end Filing
