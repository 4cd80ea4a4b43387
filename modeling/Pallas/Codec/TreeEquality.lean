import Pallas.Codec.TreeOrder

/-!
# Equality of trees, and the laws of both comparisons (`pallas-codec/src/tree.rs`)

`eq_tree` pops pairs of nodes from a stack until one of them differs, in its own data or in its child count. What it
decides is `Alike`: the same shape, with nodes that match in the same places. The stack takes the last pair of children
first, so only the pairs that are on it count, not their order.

A total order on the data of the nodes makes `cmp_tree` a total order on trees, where the trees that are equal are those
that are alike.
-/

namespace Pallas

open IndexedNode FiniteTree

variable {S : Type} [FiniteTree S]

/-- The same shape, with related nodes in the same places. -/
inductive Alike (R : S → S → Prop) : S → S → Prop where
  | node {left right : S} (here : R left right) (below : List.Forall₂ (Alike R) (children left) (children right)) :
      Alike R left right

theorem alike_iff {R : S → S → Prop} {left right : S} :
    Alike R left right ↔ R left right ∧ List.Forall₂ (Alike R) (children left) (children right) := by
  constructor
  · rintro ⟨here, below⟩
    exact ⟨here, below⟩
  · rintro ⟨here, below⟩
    exact .node here below

namespace EqTree

/-- `(0..n).map(|i| (left.child(i), right.child(i)))`, one after the other onto the stack. -/
def pushPairs (left right : S) : (n : ℕ) → List (S × S) → Option (List (S × S))
  | 0, pending => some pending
  | i + 1, pending => do
    let pending ← pushPairs left right i pending
    let l ← child left i
    let r ← child right i
    some ((l, r) :: pending)

theorem pushPairs_eq_some {left right : S} {n : ℕ} {pending stack : List (S × S)} :
    pushPairs left right n pending = some stack ↔ n ≤ ((children left).zip (children right)).length ∧
      stack = (((children left).zip (children right)).take n).reverse ++ pending := by
  induction n generalizing stack with
  | zero => simp [pushPairs, eq_comm]
  | succ n ih =>
    simp only [pushPairs, Option.bind_eq_bind, Option.bind_eq_some_iff, ih, child_eq, Option.some.injEq]
    constructor
    · rintro ⟨_, ⟨-, rfl⟩, l, hl, r, hr, rfl⟩
      have hpair : ((children left).zip (children right))[n]? = some (l, r) := List.getElem?_zip_eq_some.2 ⟨hl, hr⟩
      obtain ⟨hlt, -⟩ := List.getElem?_eq_some_iff.1 hpair
      refine ⟨hlt, ?_⟩
      rw [List.take_add_one, hpair, Option.toList_some, List.reverse_append]
      rfl
    · rintro ⟨hlt, rfl⟩
      obtain ⟨⟨l, r⟩, hpair⟩ : ∃ p, ((children left).zip (children right))[n]? = some p :=
        ⟨_, List.getElem?_eq_getElem hlt⟩
      obtain ⟨hl, hr⟩ := List.getElem?_zip_eq_some.1 hpair
      refine ⟨_, ⟨by omega, rfl⟩, l, hl, r, hr, ?_⟩
      rw [List.take_add_one, hpair, Option.toList_some, List.reverse_append]
      rfl

/-- What the pairs still take. -/
def work (pending : List (S × S)) : ℕ := (pending.map fun p => nodes p.1).sum

theorem work_zip_take (ls rs : List S) (n : ℕ) : work ((ls.zip rs).take n) ≤ (ls.map nodes).sum := by
  induction ls generalizing rs n with
  | nil => simp [work]
  | cons l ls ih =>
    cases rs with
    | nil => simp [work]
    | cons r rs =>
      cases n with
      | zero => simp [work]
      | succ n =>
        have htail := ih rs n
        simp only [work, List.zip_cons_cons, List.take_succ_cons, List.map_cons, List.sum_cons] at htail ⊢
        omega

theorem work_children {left right : S} {n : ℕ} {pending stack : List (S × S)}
    (h : pushPairs left right n pending = some stack) : work stack < work ((left, right) :: pending) := by
  obtain ⟨-, rfl⟩ := pushPairs_eq_some.1 h
  have hzip := work_zip_take (children left) (children right) n
  have hnodes := nodes_eq left
  simp only [work, List.map_append, List.sum_append, List.map_reverse, List.sum_reverse, List.map_cons,
    List.sum_cons] at hzip ⊢
  omega

/-- The loop of `eq_tree`. -/
def loop (sameNode : S → S → Exit Bool) (pending : List (S × S)) : Exit Bool :=
  match pending with
  | [] => .done true
  | (left, right) :: pending =>
    let count := childCount left
    match sameNode left right with
    | .panicked => .panicked
    | .done same =>
      if !same || count != childCount right then .done false
      else match _hpush : pushPairs left right count pending with
        | none => .panicked
        | some pending => loop sameNode pending
termination_by work pending
decreasing_by exact work_children _hpush

theorem loop_eq {same : S → S → Bool} {pending : List (S × S)} :
    ∃ b, loop (fun a b => .done (same a b)) pending = .done b ∧
      (b = true ↔ ∀ p ∈ pending, Alike (fun a b => same a b = true) p.1 p.2) := by
  induction hw : work pending using Nat.strong_induction_on generalizing pending with
  | _ w ih =>
    match pending with
    | [] =>
      refine ⟨true, ?_, by simp⟩
      rw [loop]
    | (left, right) :: pending =>
      rw [loop]
      simp only [List.forall_mem_cons]
      rw [alike_iff]
      split_ifs with hdiffer
      · refine ⟨false, rfl, iff_of_false Bool.false_ne_true ?_⟩
        rintro ⟨⟨hsame, hbelow⟩, -⟩
        have hcount : childCount left = childCount right := by
          rw [childCount_eq, childCount_eq, hbelow.length_eq]
        simp [hsame, hcount] at hdiffer
      · simp only [Bool.or_eq_true, Bool.not_eq_true', bne_iff_ne, ne_eq, not_or, Bool.not_eq_false, not_not] at hdiffer
        obtain ⟨hsame, hcount⟩ := hdiffer
        have hlength : (children left).length = (children right).length := by
          rw [← childCount_eq, ← childCount_eq, hcount]
        have hzip : childCount left = ((children left).zip (children right)).length := by
          rw [List.length_zip, ← hlength, min_self, childCount_eq]
        have hpush : pushPairs left right (childCount left) pending =
            some (((children left).zip (children right)).reverse ++ pending) :=
          pushPairs_eq_some.2 ⟨hzip.le, by rw [hzip, List.take_length]⟩
        obtain ⟨b, hloop, hb⟩ := ih _ (hw ▸ work_children hpush) rfl
        split
        · next hnone =>
          rw [hpush] at hnone
          cases hnone
        · next stack hsome =>
          rw [hpush] at hsome
          obtain rfl := Option.some.inj hsome
          refine ⟨b, hloop, hb.trans ?_⟩
          simp only [List.mem_append, List.mem_reverse, or_imp, forall_and, List.forall₂_iff_zip, Prod.forall, hsame,
            hlength, true_and]

end EqTree

def eqTree (left right : S) (sameNode : S → S → Exit Bool) : Exit Bool := EqTree.loop sameNode [(left, right)]

theorem eqTree_eq {same : S → S → Bool} {R : S → S → Prop} (hsame : ∀ a b, same a b = true ↔ R a b) (left right : S) :
    ∃ b, eqTree left right (fun a b => .done (same a b)) = .done b ∧ (b = true ↔ Alike R left right) := by
  obtain rfl : (fun a b => same a b = true) = R := funext fun a => funext fun b => propext (hsame a b)
  obtain ⟨b, hloop, hb⟩ := @EqTree.loop_eq S _ same [(left, right)]
  exact ⟨b, hloop, hb.trans (List.forall_mem_singleton)⟩

/-! ### The order of trees -/

namespace CmpTree

omit [FiniteTree S] in
theorem cmpEach_eq_eq {fs : List (S → Ordering)} {rs : List S} :
    cmpEach fs rs = .eq ↔ List.Forall₂ (fun f r => f r = .eq) fs rs := by
  induction fs generalizing rs with
  | nil => cases rs <;> simp [cmpEach]
  | cons f fs ih =>
    cases rs with
    | nil => simp [cmpEach]
    | cons r rs => rw [cmpEach, Ordering.then_eq_eq, ih, List.forall₂_cons]

theorem cmpRec_eq_eq {cmpNode : S → S → Ordering} {left right : S} :
    cmpRec cmpNode left right = .eq ↔ Alike (fun a b => cmpNode a b = .eq) left right := by
  induction left using FiniteTree.induction generalizing right with
  | h left ih =>
    have hchildren : ∀ {ls rs : List S}, (∀ l ∈ ls, l ∈ children left) →
        (List.Forall₂ (fun l r => cmpRec cmpNode l r = .eq) ls rs ↔
          List.Forall₂ (Alike fun a b => cmpNode a b = .eq) ls rs) := by
      intro ls rs hmem
      rw [List.forall₂_iff_zip, List.forall₂_iff_zip]
      exact and_congr_right fun _ => ⟨fun h l r hp => (ih l (hmem l (List.of_mem_zip hp).1)).1 (h hp),
        fun h l r hp => (ih l (hmem l (List.of_mem_zip hp).1)).2 (h hp)⟩
    rw [cmpRec_eq, Ordering.then_eq_eq, alike_iff, cmpEach_eq_eq, List.forall₂_map_left_iff, hchildren fun _ hl => hl]

section Data
variable {D : Type} [Ord D] (data : S → D)

/-- The order on trees that an order on the data of their nodes gives. -/
def order (left right : S) : Ordering := cmpRec (fun a b => compare (data a) (data b)) left right

theorem order_eq_compare (left right : S) :
    order data left right = compare (treeKeys data left) (treeKeys data right) := by
  have hkeys := compare_treeKeys data left right [] []
  rw [List.append_nil, List.append_nil, show compare ([] : List (Option D)) [] = .eq from rfl,
    Ordering.then_eq] at hkeys
  exact hkeys.symm

theorem order_trans [Std.TransOrd D] : Std.TransCmp (order data) where
  eq_swap {left right} := by
    rw [order_eq_compare, order_eq_compare]
    exact Std.OrientedCmp.eq_swap
  isLE_trans {left middle right} h h' := by
    rw [order_eq_compare] at h h' ⊢
    exact Std.TransCmp.isLE_trans h h'

theorem order_eq_eq [Std.LawfulEqOrd D] {left right : S} :
    order data left right = .eq ↔ Alike (fun a b => data a = data b) left right := by
  rw [order, cmpRec_eq_eq]
  simp only [Std.LawfulEqCmp.compare_eq_iff_eq]

end Data
end CmpTree

/-- With a total order on the data of nodes, `cmp_tree` is the lexicographic recursion, which is a total order whose
equal trees are alike; and `eq_tree` says which trees are alike. -/
theorem tree_comparisons {D : Type} [Ord D] [Std.TransOrd D] [Std.LawfulEqOrd D] (data : S → D) {same : S → S → Bool}
    (hsame : ∀ a b, same a b = true ↔ data a = data b) :
    (∀ left right, cmpTree left right (fun a b => .done (compare (data a) (data b))) =
      .done (CmpTree.order data left right)) ∧
    Std.TransCmp (CmpTree.order data) ∧
    (∀ left right, CmpTree.order data left right = .eq ↔ Alike (fun a b => data a = data b) left right) ∧
    ∀ left right, ∃ b, eqTree left right (fun a b => .done (same a b)) = .done b ∧
      (b = true ↔ Alike (fun a b => data a = data b) left right) := by
  refine ⟨fun left right => ?_, CmpTree.order_trans data, fun left right => CmpTree.order_eq_eq data,
    eqTree_eq hsame⟩
  have heverywhere : ∀ s : S, Everywhere (fun _ => True) s := fun s => by
    induction s using FiniteTree.induction with
    | h s ih => exact .node trivial ih
  exact cmpTree_eq_cmpRec (fun _ _ _ _ => rfl) (heverywhere left) (heverywhere right)

namespace TestNode

/-- What the tests compare of a node: a leaf is below a list. -/
def data : TestNode → List ℕ
  | leaf n => [0, n.toNat]
  | list _ => [1]

/-- A shared prefix decides before the length does, and the shape tells two trees apart. -/
theorem tests_comparisons :
    (∀ left right, cmpTree left right (fun a b => .done (compare (data a) (data b))) =
      .done (CmpTree.order data left right)) ∧
    CmpTree.order data (list [leaf 2]) (list [leaf 1, leaf 9]) = .gt ∧
    eqTree mixed (list []) (fun a b => .done (data a == data b)) = .done false := by
  have hsame : ∀ a b : TestNode, (data a == data b) = true ↔ data a = data b := fun _ _ => beq_iff_eq
  obtain ⟨hcmp, -, -, heq⟩ := tree_comparisons data hsame
  refine ⟨hcmp, ?_, ?_⟩
  · simp [CmpTree.order, CmpTree.cmpRec_eq, CmpTree.cmpEach, FiniteTree.children, TestNode.children, data]
    rfl
  · obtain ⟨b, hb, halike⟩ := heq mixed (list [])
    rw [hb]
    have hnot : ¬ Alike (fun a b => data a = data b) mixed (list []) := by
      rw [alike_iff]
      rintro ⟨-, hbelow⟩
      cases hbelow
    cases b with
    | false => rfl
    | true => exact absurd (halike.1 rfl) hnot

end TestNode
end Pallas
