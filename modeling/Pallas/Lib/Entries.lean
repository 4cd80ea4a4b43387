import Mathlib.Data.List.Induction
import Mathlib.Tactic.Common

/-!
# Entries in the order of their keys

A map that is only built and iterated is the list of its entries, sorted by key. `insert` keeps it sorted, and a list that
is sorted already is what its entries give when they are inserted one after the other.
-/

namespace Entries
variable {κ ν : Type} [LT κ] [DecidableLT κ] [DecidableEq κ]

/-- A key that is there already gets the new value. -/
def insert (key : κ) (value : ν) : List (κ × ν) → List (κ × ν)
  | [] => [(key, value)]
  | (k, v) :: entries =>
    if key < k then (key, value) :: (k, v) :: entries
    else if key = k then (key, value) :: entries
    else (k, v) :: insert key value entries

/-- The map of these entries, inserted one after the other. -/
def collect (entries : List (κ × ν)) : List (κ × ν) := entries.foldl (fun es e => insert e.1 e.2 es) []

def Sorted (entries : List (κ × ν)) : Prop := entries.Pairwise fun e e' => e.1 < e'.1

instance (entries : List (κ × ν)) : Decidable (Sorted entries) := inferInstanceAs (Decidable (entries.Pairwise _))

variable [Std.Asymm fun a b : κ => a < b]

theorem insert_last {key : κ} {value : ν} {entries : List (κ × ν)} (h : ∀ e ∈ entries, e.1 < key) :
    insert key value entries = entries ++ [(key, value)] := by
  induction entries with
  | nil => rfl
  | cons e entries ih =>
    have hlt := h e List.mem_cons_self
    have hnot : ¬ key < e.1 := Std.Asymm.asymm _ _ hlt
    have hne : key ≠ e.1 := by
      intro heq
      exact hnot (heq ▸ hlt)
    rw [insert, if_neg hnot, if_neg hne, ih fun e he => h e (List.mem_cons_of_mem _ he), List.cons_append]

theorem collect_of_sorted {entries : List (κ × ν)} (h : Sorted entries) : collect entries = entries := by
  induction entries using List.reverseRecOn with
  | nil => rfl
  | append_singleton entries e ih =>
    obtain ⟨hsorted, -, hlast⟩ := List.pairwise_append.1 h
    have hinsert : insert e.1 e.2 entries = entries ++ [e] :=
      insert_last fun e' he' => hlast e' he' e (List.mem_singleton.2 rfl)
    rw [collect, List.foldl_append]
    exact (congrArg (insert e.1 e.2) (ih hsorted)).trans hinsert

/-! ### What a sorted list holds -/

section Order
variable [Std.Trichotomous fun a b : κ => a < b] [IsTrans κ fun a b => a < b]
variable {key : κ} {value : ν} {entries entries' : List (κ × ν)}

omit [DecidableLT κ] [DecidableEq κ] [Std.Trichotomous fun a b : κ => a < b] [IsTrans κ fun a b => a < b] in
theorem Sorted.ne {e e' : κ × ν} (h : e.1 < e'.1) : e.1 ≠ e'.1 :=
  fun heq => Std.Asymm.asymm (r := fun a b : κ => a < b) _ _ h (heq ▸ h)

omit [Std.Trichotomous fun a b : κ => a < b] in
theorem mem_insert (h : Sorted entries) {e : κ × ν} :
    e ∈ insert key value entries ↔ e = (key, value) ∨ e ∈ entries ∧ e.1 ≠ key := by
  induction entries with
  | nil => simp [insert]
  | cons e' entries ih =>
    obtain ⟨hfirst, hrest⟩ := List.pairwise_cons.1 h
    rw [insert]
    split_ifs with hlt heq
    · have hne : ∀ e ∈ e' :: entries, e.1 ≠ key := by
        rintro e (_ | ⟨_, he⟩)
        · exact (Sorted.ne (e := (key, value)) hlt).symm
        · exact (Sorted.ne (e := (key, value)) (IsTrans.trans _ _ _ hlt (hfirst e he))).symm
      rw [List.mem_cons]
      exact or_congr_right ⟨fun he => ⟨he, hne e he⟩, fun he => he.1⟩
    · have hne : ∀ e ∈ entries, e.1 ≠ key := fun e he => heq ▸ (Sorted.ne (hfirst e he)).symm
      rw [List.mem_cons, List.mem_cons]
      refine or_congr_right ⟨fun he => ⟨.inr he, hne e he⟩, ?_⟩
      rintro ⟨rfl | he, hkey⟩
      exacts [absurd heq.symm hkey, he]
    · rw [List.mem_cons, List.mem_cons, ih hrest]
      constructor
      · rintro (rfl | rfl | ⟨he, hkey⟩)
        exacts [.inr ⟨.inl rfl, fun hkey => heq hkey.symm⟩, .inl rfl, .inr ⟨.inr he, hkey⟩]
      · rintro (rfl | ⟨rfl | he, hkey⟩)
        exacts [.inr (.inl rfl), .inl rfl, .inr (.inr ⟨he, hkey⟩)]

theorem Sorted.insert (h : Sorted entries) : Sorted (insert key value entries) := by
  induction entries with
  | nil => exact List.pairwise_singleton _ _
  | cons e' entries ih =>
    obtain ⟨hfirst, hrest⟩ := List.pairwise_cons.1 h
    rw [Entries.insert]
    split_ifs with hlt heq
    · refine List.pairwise_cons.2 ⟨?_, h⟩
      rintro e (_ | ⟨_, he⟩)
      exacts [hlt, IsTrans.trans _ _ _ hlt (hfirst e he)]
    · exact List.pairwise_cons.2 ⟨fun e he => heq ▸ hfirst e he, hrest⟩
    · refine List.pairwise_cons.2 ⟨fun e he => ?_, ih hrest⟩
      rcases (mem_insert hrest).1 he with rfl | ⟨he, -⟩
      · by_contra hnot
        exact heq (Std.Trichotomous.trichotomous (r := fun a b : κ => a < b) _ _ hlt hnot)
      · exact hfirst e he

omit [DecidableLT κ] [DecidableEq κ] [Std.Trichotomous fun a b : κ => a < b] [IsTrans κ fun a b => a < b] in
theorem Sorted.nodup_keys (h : Sorted entries) : (entries.map Prod.fst).Nodup :=
  List.pairwise_map.2 (h.imp fun hlt => Sorted.ne hlt)

omit [DecidableLT κ] [DecidableEq κ] [Std.Trichotomous fun a b : κ => a < b] [IsTrans κ fun a b => a < b] in
theorem Sorted.ext (h : Sorted entries) (h' : Sorted entries') (hmem : ∀ e, e ∈ entries ↔ e ∈ entries') :
    entries = entries' := by
  have hnodup : entries.Nodup := h.imp fun hlt heq => Sorted.ne hlt (congrArg Prod.fst heq)
  have hnodup' : entries'.Nodup := h'.imp fun hlt heq => Sorted.ne hlt (congrArg Prod.fst heq)
  have hperm := (List.perm_ext_iff_of_nodup hnodup hnodup').2 hmem
  exact hperm.eq_of_pairwise (fun e e' _ _ hlt hlt' => absurd hlt' (Std.Asymm.asymm (r := fun a b : κ => a < b) _ _ hlt))
    h h'

omit [DecidableLT κ] [Std.Trichotomous fun a b : κ => a < b] [IsTrans κ fun a b => a < b] in
theorem Sorted.lookup_eq_some (h : Sorted entries) : entries.lookup key = some value ↔ (key, value) ∈ entries := by
  induction entries with
  | nil => simp
  | cons e entries ih =>
    obtain ⟨hfirst, hrest⟩ := List.pairwise_cons.1 h
    rw [List.lookup_cons, List.mem_cons]
    by_cases hkey : key = e.1
    · subst hkey
      have hnot : (e.1, value) ∉ entries := fun he => Sorted.ne (hfirst _ he) rfl
      simp [or_iff_left hnot, Prod.ext_iff, eq_comm]
    · have hne : (key, value) ≠ e := fun heq => hkey (congrArg Prod.fst heq)
      rw [beq_false_of_ne hkey, or_iff_right hne]
      exact ih hrest

end Order
end Entries
