import Mathlib

/-!
# Sorting by a key

A stable sort whose order is that of a key gives the same for every listing of the same elements, up to elements that share a key
(`map_insertionSort_perm`); where no two do, the very same list (`insertionSort_perm`). The order only has to be that of the key on
the elements at hand. Of a sorted list, dropping each element with the key of the one before leaves every key once and in order
(`pairwise_dedupByKey`).
-/

namespace List
variable {α β κ : Type} [LinearOrder κ] {r s : α → α → Prop} [DecidableRel r] [DecidableRel s]
  {xs ys : List α} {f : α → κ}

theorem insertionSort_congr (h : ∀ a ∈ xs, ∀ b ∈ xs, r a b ↔ s a b) : xs.insertionSort r = xs.insertionSort s := by
  simpa using List.map_insertionSort r s id xs h

/-- Elements that are told apart by their keys come out in one order. -/
theorem insertionSort_perm (hr : ∀ a ∈ xs, ∀ b ∈ xs, r a b ↔ f a ≤ f b) (hperm : xs.Perm ys)
    (hinj : ∀ a ∈ xs, ∀ b ∈ xs, f a = f b → a = b) : xs.insertionSort r = ys.insertionSort r := by
  have hr' : ∀ a ∈ ys, ∀ b ∈ ys, r a b ↔ f a ≤ f b := fun a ha b hb => hr a (hperm.mem_iff.2 ha) b (hperm.mem_iff.2 hb)
  have htotal : Std.Total fun a b : α => f a ≤ f b := ⟨fun a b => le_total _ _⟩
  have htrans : IsTrans α fun a b => f a ≤ f b := ⟨fun a b c => le_trans⟩
  rw [insertionSort_congr hr, insertionSort_congr hr']
  refine List.Perm.eq_of_pairwise (fun a b ha hb hab hba => ?_) (List.pairwise_insertionSort _ xs)
    (List.pairwise_insertionSort _ ys) ?_
  · exact hinj a ((List.mem_insertionSort _).1 ha) b (hperm.mem_iff.2 ((List.mem_insertionSort _).1 hb))
      (le_antisymm hab hba)
  · exact (List.perm_insertionSort _ xs).trans (hperm.trans (List.perm_insertionSort _ ys).symm)

/-- What the key decides about the elements comes out in one order. -/
theorem map_insertionSort_perm {g : α → β} (hr : ∀ a ∈ xs, ∀ b ∈ xs, r a b ↔ f a ≤ f b) (hperm : xs.Perm ys)
    (hkey : ∀ a ∈ xs, ∀ b ∈ xs, f a = f b → g a = g b) : (xs.insertionSort r).map g = (ys.insertionSort r).map g := by
  have hr' : ∀ a ∈ ys, ∀ b ∈ ys, r a b ↔ f a ≤ f b := fun a ha b hb => hr a (hperm.mem_iff.2 ha) b (hperm.mem_iff.2 hb)
  -- the pairs of a key and what it decides are told apart by their keys
  have hpairs : ∀ zs : List α, (∀ a ∈ zs, ∀ b ∈ zs, r a b ↔ f a ≤ f b) →
      (zs.insertionSort r).map (fun a => (f a, g a)) =
        List.insertionSort (fun p q : κ × β => p.1 ≤ q.1) (zs.map fun a => (f a, g a)) := fun zs hz =>
    List.map_insertionSort r (fun p q : κ × β => p.1 ≤ q.1) (fun a => (f a, g a)) zs hz
  have hsame : (xs.insertionSort r).map (fun a => (f a, g a)) = (ys.insertionSort r).map fun a => (f a, g a) := by
    rw [hpairs xs hr, hpairs ys hr']
    refine insertionSort_perm (f := Prod.fst) (fun _ _ _ _ => Iff.rfl) (hperm.map _) ?_
    rintro _ hp _ hq hpq
    obtain ⟨a, ha, rfl⟩ := List.mem_map.1 hp
    obtain ⟨b, hb, rfl⟩ := List.mem_map.1 hq
    exact Prod.ext hpq (hkey a ha b hb hpq)
  have hsnd := congrArg (List.map Prod.snd) hsame
  rw [List.map_map, List.map_map] at hsnd
  exact hsnd

/-! ### One element for each key -/

/-- Behind an element with the key `last`, each element with the key of the one before is dropped. -/
def dedupFrom (f : α → κ) (last : κ) : List α → List α
  | [] => []
  | x :: xs => if f x = last then dedupFrom f last xs else x :: dedupFrom f (f x) xs

def dedupByKey (f : α → κ) : List α → List α
  | [] => []
  | x :: xs => x :: dedupFrom f (f x) xs

theorem dedupFrom_sublist (last : κ) (xs : List α) : (dedupFrom f last xs).Sublist xs := by
  induction xs generalizing last with
  | nil => exact .slnil
  | cons x xs ih =>
    rw [dedupFrom]
    split
    · exact (ih last).cons x
    · exact (ih (f x)).cons_cons x

theorem dedupByKey_sublist (xs : List α) : (dedupByKey f xs).Sublist xs := by
  cases xs with
  | nil => exact .slnil
  | cons x xs => exact (dedupFrom_sublist (f x) xs).cons_cons x

/-- No key is lost. -/
theorem exists_mem_dedupFrom {last : κ} {x : α} (h : x ∈ xs) : f x = last ∨ ∃ y ∈ dedupFrom f last xs, f y = f x := by
  induction xs generalizing last with
  | nil => cases h
  | cons y xs ih =>
    rw [dedupFrom]
    split
    · next hy =>
      rcases List.mem_cons.1 h with rfl | hmem
      · exact .inl hy
      · exact ih hmem
    · rcases List.mem_cons.1 h with rfl | hmem
      · exact .inr ⟨x, List.mem_cons_self, rfl⟩
      rcases @ih (f y) hmem with hx | ⟨z, hz, hx⟩
      · exact .inr ⟨y, List.mem_cons_self, hx.symm⟩
      · exact .inr ⟨z, List.mem_cons_of_mem y hz, hx⟩

theorem exists_mem_dedupByKey {x : α} (h : x ∈ xs) : ∃ y ∈ dedupByKey f xs, f y = f x := by
  cases xs with
  | nil => cases h
  | cons y xs =>
    rcases List.mem_cons.1 h with rfl | hmem
    · exact ⟨x, List.mem_cons_self, rfl⟩
    have hx : f x = f y ∨ ∃ z ∈ dedupFrom f (f y) xs, f z = f x := exists_mem_dedupFrom hmem
    rcases hx with hx | ⟨z, hz, hx⟩
    · exact ⟨y, List.mem_cons_self, hx.symm⟩
    · exact ⟨z, List.mem_cons_of_mem y hz, hx⟩

/-- What is left of a sorted list behind the key `last` has greater keys, in order. -/
theorem pairwise_dedupFrom {last : κ} (hsorted : xs.Pairwise fun a b => f a ≤ f b) (hlast : ∀ x ∈ xs, last ≤ f x) :
    (last :: (dedupFrom f last xs).map f).Pairwise (· < ·) := by
  induction xs generalizing last with
  | nil => exact List.pairwise_singleton _ _
  | cons x xs ih =>
    obtain ⟨hx, hsorted⟩ := List.pairwise_cons.1 hsorted
    rw [dedupFrom]
    split
    · exact ih hsorted fun y hy => hlast y (List.mem_cons_of_mem x hy)
    · next hne =>
      have hlt : last < f x := lt_of_le_of_ne (hlast x List.mem_cons_self) (Ne.symm hne)
      have htail := ih hsorted hx
      rw [List.map_cons]
      refine List.pairwise_cons.2 ⟨fun k hk => ?_, htail⟩
      rcases List.mem_cons.1 hk with rfl | hmem
      · exact hlt
      · exact hlt.trans ((List.pairwise_cons.1 htail).1 k hmem)

theorem pairwise_dedupByKey (hsorted : xs.Pairwise fun a b => f a ≤ f b) :
    ((dedupByKey f xs).map f).Pairwise (· < ·) := by
  cases xs with
  | nil => exact List.Pairwise.nil
  | cons x xs =>
    obtain ⟨hx, hsorted⟩ := List.pairwise_cons.1 hsorted
    exact pairwise_dedupFrom hsorted hx

end List
