import Pallas.Codec.Tree

/-!
# Comparing trees with a stack (`pallas-codec/src/tree.rs`)

`cmp_tree` orders two trees by `cmp_node` at the roots, then by their children pairwise, then by the child counts.
`cmpTree` is its loop, `cmpRec` the recursion: an order on nodes, lexicographic over the children.

Where `cmp_node` compares a key of each node, the order of the trees is the lexicographic order of their keys in
preorder, with a mark after the last child of each node that is below every key (`cmpTree_eq_compare`). So it has
the laws that the order of the keys has, and two trees with the same keys are equal in it.
-/

namespace Pallas

open IndexedNode FiniteTree

variable {S : Type} [FiniteTree S]

namespace CmpTree

/-- One step of a comparison. -/
inductive Step (S : Type) where
  | pair (left right : S)
  /-- Child counts, decided once every shared child compared equal. -/
  | counts (left right : ℕ)

/-- `(0..n).rev().map(|i| Pair(left.child(i), right.child(i)))`, the top of the stack first. -/
def pushPairs (left right : S) : (n : ℕ) → List (Step S) → Option (List (Step S))
  | 0, pending => some pending
  | i + 1, pending => do
    let l ← child left i
    let r ← child right i
    pushPairs left right i (.pair l r :: pending)

theorem pushPairs_eq {left right : S} {n : ℕ} (hl : n ≤ childCount left) (hr : n ≤ childCount right)
    (pending : List (Step S)) : pushPairs left right n pending =
      some ((((children left).zip (children right)).take n).map (fun p => Step.pair p.1 p.2) ++ pending) := by
  induction n generalizing pending with
  | zero => simp [pushPairs]
  | succ n ih =>
    have hltl : n < (children left).length := childCount_eq left ▸ hl
    have hltr : n < (children right).length := childCount_eq right ▸ hr
    have hlt : n < ((children left).zip (children right)).length := by
      rw [List.length_zip]
      omega
    rw [pushPairs, child_eq, child_eq, List.getElem?_eq_getElem hltl, List.getElem?_eq_getElem hltr]
    simp only [Option.bind_eq_bind, Option.bind_some]
    rw [ih (by omega) (by omega), List.take_succ_eq_append_getElem hlt, List.map_append, List.append_assoc,
      List.getElem_zip]
    rfl

/-- What the steps still take. -/
def work (pending : List (Step S)) : ℕ :=
  (pending.map fun
    | .pair l _ => 2 * nodes l
    | .counts _ _ => 1).sum

theorem work_lt (step : Step S) (pending : List (Step S)) : work pending < work (step :: pending) := by
  cases step with
  | pair l r =>
    have hpos := nodes_pos l
    simp only [work, List.map_cons, List.sum_cons]
    omega
  | counts a b => simp [work]

theorem work_zip (ls rs : List S) :
    work ((ls.zip rs).map fun p => Step.pair p.1 p.2) ≤ 2 * (ls.map nodes).sum := by
  induction ls generalizing rs with
  | nil => simp [work]
  | cons l ls ih =>
    cases rs with
    | nil => simp [work]
    | cons r rs =>
      have htail := ih rs
      simp only [work, List.zip_cons_cons, List.map_cons, List.sum_cons] at htail ⊢
      omega

/-- The shared children, and then the counts. -/
def childSteps (left right : S) : List (Step S) :=
  ((children left).zip (children right)).map (fun p => .pair p.1 p.2) ++
    [.counts (childCount left) (childCount right)]

theorem pushPairs_min {left right : S} {pending : List (Step S)} :
    pushPairs left right (min (childCount left) (childCount right))
      (.counts (childCount left) (childCount right) :: pending) = some (childSteps left right ++ pending) := by
  have hlen : ((children left).zip (children right)).length = min (childCount left) (childCount right) := by
    rw [List.length_zip, childCount_eq, childCount_eq]
  rw [pushPairs_eq (min_le_left _ _) (min_le_right _ _), ← hlen, List.take_length, childSteps, List.append_assoc]
  rfl

theorem work_children {left right : S} {pending : List (Step S)} :
    work (childSteps left right ++ pending) < work (.pair left right :: pending) := by
  have hzip := work_zip (children left) (children right)
  have hnodes := nodes_eq left
  simp only [work, childSteps, List.map_append, List.sum_append, List.map_cons, List.sum_cons, List.map_nil,
    List.sum_nil] at hzip ⊢
  omega

/-- The loop of `cmp_tree`. -/
def loop (cmpNode : S → S → Exit Ordering) (pending : List (Step S)) : Exit Ordering :=
  match pending with
  | [] => .done .eq
  | .counts left right :: pending =>
    match compare left right with
    | .eq => loop cmpNode pending
    | ordering => .done ordering
  | .pair left right :: pending =>
    match cmpNode left right with
    | .panicked => .panicked
    | .done .eq =>
      let counts := (childCount left, childCount right)
      match _hpush : pushPairs left right (min counts.1 counts.2) (.counts counts.1 counts.2 :: pending) with
      | none => .panicked
      | some pending => loop cmpNode pending
    | .done ordering => .done ordering
termination_by work pending
decreasing_by
  · exact work_lt _ _
  · rw [pushPairs_min] at _hpush
    obtain rfl := Option.some.inj _hpush
    exact work_children

/-! ### The recursion -/

/-- Children pairwise, then the counts. -/
def cmpEach : List (S → Ordering) → List S → Ordering
  | [], [] => .eq
  | [], _ :: _ => .lt
  | _ :: _, [] => .gt
  | f :: fs, r :: rs => (f r).then (cmpEach fs rs)

/-- The nodes' own data, then the children. -/
def cmpRec (cmpNode : S → S → Ordering) (left right : S) : Ordering :=
  (cmpNode left right).then
    (cmpEach ((children left).attach.map fun ⟨c, _⟩ => cmpRec cmpNode c) (children right))
termination_by nodes left
decreasing_by exact nodes_lt ‹_›

theorem cmpRec_eq (cmpNode : S → S → Ordering) (left right : S) : cmpRec cmpNode left right =
    (cmpNode left right).then (cmpEach ((children left).map (cmpRec cmpNode)) (children right)) := by
  rw [cmpRec]
  simp only [List.map_subtype, List.unattach_attach]

/-- How a step decides, by the recursion. -/
def Step.order (cmpNode : S → S → Ordering) : Step S → Ordering
  | pair left right => cmpRec cmpNode left right
  | counts left right => compare left right

/-- The first step that decides. -/
def firstOf (cmpNode : S → S → Ordering) (pending : List (Step S)) : Ordering :=
  pending.foldr (fun step rest => (step.order cmpNode).then rest) .eq

theorem compare_add (a b k : ℕ) : compare (a + k) (b + k) = compare a b := by
  simp only [Nat.compare_eq_ite_lt, Nat.add_lt_add_iff_right]

/-- The shared children and the counts decide as the children do. Children in front of them on both sides add the same
number to both counts. -/
theorem firstOf_children (cmpNode : S → S → Ordering) (ls rs : List S) (k : ℕ) (pending : List (Step S)) :
    firstOf cmpNode ((ls.zip rs).map (fun p => .pair p.1 p.2) ++ .counts (ls.length + k) (rs.length + k) :: pending) =
      (cmpEach (ls.map (cmpRec cmpNode)) rs).then (firstOf cmpNode pending) := by
  have hcons : ∀ step pending, firstOf cmpNode (step :: pending) =
      (step.order cmpNode).then (firstOf cmpNode pending) :=
    fun _ _ => rfl
  induction ls generalizing rs k with
  | nil =>
    have hzip : ([] : List S).zip rs = [] := List.zip_nil_left
    rw [hzip, List.map_nil, List.nil_append, hcons, Step.order, compare_add]
    cases rs with
    | nil => rfl
    | cons r rs =>
      rw [List.length_cons, List.length_nil, Nat.compare_eq_lt.2 (Nat.succ_pos _)]
      rfl
  | cons l ls ih =>
    cases rs with
    | nil =>
      rw [List.zip_nil_right, List.map_nil, List.nil_append, hcons, Step.order, compare_add, List.length_cons,
        List.length_nil, Nat.compare_eq_gt.2 (Nat.succ_pos _)]
      rfl
    | cons r rs =>
      have hlen : ∀ n : ℕ, n + 1 + k = n + (k + 1) := fun n => by omega
      rw [List.zip_cons_cons, List.map_cons, List.cons_append, hcons, List.length_cons, List.length_cons,
        hlen, hlen, ih,
        List.map_cons, cmpEach, Ordering.then_assoc]
      rfl

/-- The invariant: the loop returns what the first step of the stack that decides says, as long as `cmp_node` does not
panic at the nodes it is given. -/
theorem loop_eq {P : S → Prop} {cmpNode : S → S → Exit Ordering} {order : S → S → Ordering}
    (h : ∀ a b, P a → P b → cmpNode a b = .done (order a b)) {pending : List (Step S)}
    (hpending : ∀ l r, .pair l r ∈ pending → Everywhere P l ∧ Everywhere P r) :
    loop cmpNode pending = .done (firstOf order pending) := by
  induction hw : work pending using Nat.strong_induction_on generalizing pending with
  | _ w ih =>
    match pending with
    | [] =>
      rw [loop]
      rfl
    | .counts a b :: pending =>
      have hrest : loop cmpNode pending = .done (firstOf order pending) :=
        ih _ (hw ▸ work_lt _ _) (fun l r hmem => hpending l r (List.mem_cons_of_mem _ hmem)) rfl
      rw [loop, show firstOf order (.counts a b :: pending) = (compare a b).then (firstOf order pending) from rfl]
      cases compare a b with
      | lt => rfl
      | eq => exact hrest
      | gt => rfl
    | .pair left right :: pending =>
      obtain ⟨hleft, hright⟩ := hpending left right List.mem_cons_self
      have hchildren : ∀ l r, .pair l r ∈ childSteps left right ++ pending → Everywhere P l ∧ Everywhere P r := by
        intro l r hmem
        rcases List.mem_append.1 hmem with hmem | hmem
        · rcases List.mem_append.1 hmem with hmem | hmem
          · obtain ⟨⟨l', r'⟩, hzip, heq⟩ := List.mem_map.1 hmem
            cases heq
            obtain ⟨hl, hr⟩ := List.of_mem_zip hzip
            exact ⟨hleft.child hl, hright.child hr⟩
          · cases List.mem_singleton.1 hmem
        · exact hpending l r (List.mem_cons_of_mem _ hmem)
      have hrest := ih _ (hw ▸ work_children) hchildren rfl
      have hfirst : firstOf order (childSteps left right ++ pending) =
          (cmpEach ((children left).map (cmpRec order)) (children right)).then (firstOf order pending) := by
        have hall := firstOf_children order (children left) (children right) 0 pending
        rwa [childSteps, List.append_assoc, childCount_eq, childCount_eq]
      rw [loop, h left right hleft.here hright.here, show firstOf order (.pair left right :: pending) =
        (cmpRec order left right).then (firstOf order pending) from rfl, cmpRec_eq, Ordering.then_assoc, ← hfirst]
      cases order left right with
      | lt => rfl
      | gt => rfl
      | eq =>
        show (match _hpush : pushPairs left right (min (childCount left) (childCount right))
            (.counts (childCount left) (childCount right) :: pending) with
          | none => Exit.panicked
          | some pending => loop cmpNode pending) = _
        split
        · next hnone =>
          rw [pushPairs_min] at hnone
          cases hnone
        · next steps hsome =>
          rw [pushPairs_min] at hsome
          obtain rfl := Option.some.inj hsome
          exact hrest

end CmpTree

def cmpTree (left right : S) (cmpNode : S → S → Exit Ordering) :
    Exit Ordering := CmpTree.loop cmpNode [.pair left right]

theorem cmpTree_eq_cmpRec {P : S → Prop} {cmpNode : S → S → Exit Ordering} {order : S → S → Ordering}
    (h : ∀ a b, P a → P b → cmpNode a b = .done (order a b)) {left right : S} (hleft : Everywhere P left)
    (hright : Everywhere P right) : cmpTree left right cmpNode = .done (CmpTree.cmpRec order left right) := by
  have hloop : CmpTree.loop cmpNode [.pair left right] = .done (CmpTree.firstOf order [.pair left right]) := by
    refine CmpTree.loop_eq h fun l r hmem => ?_
    cases List.mem_singleton.1 hmem
    exact ⟨hleft, hright⟩
  rw [cmpTree, hloop]
  exact congrArg Exit.done Ordering.then_eq

/-! ### Order by keys -/

/-- The keys of a tree in preorder, with a mark after the last child of each node. -/
def treeKeys {K : Type} (key : S → K) (s : S) : List (Option K) :=
  some (key s) :: ((children s).attach.flatMap (fun ⟨c, _⟩ => treeKeys key c) ++ [none])
termination_by nodes s
decreasing_by exact nodes_lt ‹_›

theorem treeKeys_eq {K : Type} (key : S → K) (s : S) :
    treeKeys key s = some (key s) :: ((children s).flatMap (treeKeys key) ++ [none]) := by
  rw [treeKeys]
  simp only [List.flatMap_subtype, List.unattach_attach]

theorem compare_children {K : Type} [Ord K] {key : S → K} {ls rs : List S} {ks ks' : List (Option K)}
    (ih : ∀ l ∈ ls, ∀ (r : S) (ks ks' : List (Option K)), compare (treeKeys key l ++ ks) (treeKeys key r ++ ks') =
      (CmpTree.cmpRec (fun a b => compare (key a) (key b)) l r).then (compare ks ks')) :
    compare (ls.flatMap (treeKeys key) ++ none :: ks) (rs.flatMap (treeKeys key) ++ none :: ks') =
      (CmpTree.cmpEach (ls.map (CmpTree.cmpRec fun a b => compare (key a) (key b))) rs).then (compare ks ks') := by
  induction ls generalizing rs with
  | nil =>
    cases rs with
    | nil => rfl
    | cons r rs =>
      rw [List.flatMap_cons, treeKeys_eq, List.flatMap_nil]
      rfl
  | cons l ls ihls =>
    cases rs with
    | nil =>
      rw [List.flatMap_cons, treeKeys_eq, List.flatMap_nil]
      rfl
    | cons r rs =>
      have htail := @ihls rs fun x hx => ih x (List.mem_cons_of_mem l hx)
      rw [List.flatMap_cons, List.flatMap_cons, List.append_assoc, List.append_assoc, ih l List.mem_cons_self, htail,
        List.map_cons, CmpTree.cmpEach, Ordering.then_assoc]

/-- The order of trees by the keys of their nodes is the order of their key lists, whatever follows them: no key list
is the beginning of another. -/
theorem compare_treeKeys {K : Type} [Ord K] (key : S → K) (left right : S) (ks ks' : List (Option K)) :
    compare (treeKeys key left ++ ks) (treeKeys key right ++ ks') =
      (CmpTree.cmpRec (fun a b => compare (key a) (key b)) left right).then (compare ks ks') := by
  induction left using FiniteTree.induction generalizing right ks ks' with
  | h left ih =>
    rw [treeKeys_eq, treeKeys_eq, CmpTree.cmpRec_eq, Ordering.then_assoc, ← compare_children ih, List.cons_append,
      List.cons_append, List.append_assoc, List.append_assoc, List.compare_cons_cons]
    rfl

theorem cmpTree_eq_compare {K : Type} [Ord K] {P : S → Prop} {cmpNode : S → S → Exit Ordering} {key : S → K}
    (h : ∀ a b, P a → P b → cmpNode a b = .done (compare (key a) (key b))) {left right : S} (hleft : Everywhere P left)
    (hright : Everywhere P right) :
    cmpTree left right cmpNode = .done (compare (treeKeys key left) (treeKeys key right)) := by
  have hkeys := compare_treeKeys key left right [] []
  rw [List.append_nil, List.append_nil, show compare ([] : List (Option K)) [] =
    .eq from rfl, Ordering.then_eq] at hkeys
  rw [cmpTree_eq_cmpRec h hleft hright, hkeys]

theorem treeKeys_congr {K : Type} {key : S → K} {R : S → S → Prop} (hkey : ∀ a b, R a b → key a = key b)
    (hchildren : ∀ a b, R a b → List.Forall₂ R (children a) (children b)) {left right : S} (h : R left right) :
    treeKeys key left = treeKeys key right := by
  induction left using FiniteTree.induction generalizing right with
  | h left ih =>
    have hall : ∀ {ls rs : List S}, (∀ l ∈ ls, l ∈ children left) → List.Forall₂ R ls rs →
        ls.flatMap (treeKeys key) = rs.flatMap (treeKeys key) := by
      intro ls rs hmem hforall
      induction hforall with
      | nil => rfl
      | cons hlr _ ihlist =>
        rw [List.flatMap_cons, List.flatMap_cons, ih _ (hmem _ List.mem_cons_self) hlr,
          ihlist fun x hx => hmem x (List.mem_cons_of_mem _ hx)]
    rw [treeKeys_eq, treeKeys_eq, hkey _ _ h, hall (fun _ hx => hx) (hchildren _ _ h)]

end Pallas
