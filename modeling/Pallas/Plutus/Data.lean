import Pallas.Primitives
import Pallas.Codec.Tree

/-!
# Plutus data as a tree (`pallas-primitives/src/plutus_data.rs`)

The codec, `clone`, the order and the JSON rendering of `PlutusData` never recurse: they run the loops of
`tree.rs` over its nodes. Here are the nodes (`IndexedNode for PlutusData`), the encoder, which is a walk, and
`clone`, which is a fold. Both do what the recursion over the type does (`encodeTree_eq`, `clone_eq`).

What a value of the Rust type is beyond its shape is `Fits`: a `minicbor` integer has a 64-bit argument, and no
vector is longer than `isize::MAX`. `ConstrOk` is what makes a constructor well formed.
-/

namespace Pallas

/-- The items of a list of pairs, alternately. -/
def alternate {α : Type} (entries : List (α × α)) : List α := entries.flatMap fun e => [e.1, e.2]

/-- `pairs`: pairs up an alternating key, value list. -/
def pairs {α : Type} : List α → List (α × α)
  | k :: v :: items => (k, v) :: pairs items
  | _ => []

section Alternate
variable {α : Type}

@[simp] theorem alternate_nil : alternate ([] : List (α × α)) = [] := rfl

@[simp] theorem alternate_cons (e : α × α) (es : List (α × α)) : alternate (e :: es) = e.1 :: e.2 :: alternate es := rfl

theorem pairs_alternate (es : List (α × α)) : pairs (alternate es) = es := by
  induction es with
  | nil => rfl
  | cons e es ih => rw [alternate_cons, pairs, ih]

theorem alternate_pairs {xs : List α} (h : xs.length % 2 = 0) : alternate (pairs xs) = xs := by
  induction xs using pairs.induct with
  | case1 k v items ih =>
    have heven : items.length % 2 = 0 := by
      simp only [List.length_cons] at h
      omega
    rw [pairs, alternate_cons, ih heven]
  | case2 xs hshort =>
    match xs with
    | [] => rfl
    | [_] => cases h
    | k :: v :: items => exact absurd rfl (hshort k v items)

theorem map_alternate {β : Type} (f : α → β) (es : List (α × α)) :
    (alternate es).map f = alternate (es.map fun e => (f e.1, f e.2)) := by
  induction es with
  | nil => rfl
  | cons e es ih => rw [alternate_cons, List.map_cons, List.map_cons, ih, List.map_cons, alternate_cons]

theorem length_alternate (es : List (α × α)) : (alternate es).length = es.length * 2 := by
  induction es with
  | nil => rfl
  | cons e es ih =>
    simp only [alternate_cons, List.length_cons, ih]
    omega

/-- An item by its index: of pair `i / 2`, the key where `i` is even. -/
theorem getElem?_alternate (es : List (α × α)) (i : ℕ) :
    (alternate es)[i]? = es[i / 2]?.map fun e => if i % 2 = 0 then e.1 else e.2 := by
  induction es generalizing i with
  | nil => simp
  | cons e es ih =>
    match i with
    | 0 => rfl
    | 1 => rfl
    | i + 2 =>
      have hdiv : (i + 2) / 2 = i / 2 + 1 := by omega
      have hmod : (i + 2) % 2 = i % 2 := by omega
      rw [alternate_cons, List.getElem?_cons_succ, List.getElem?_cons_succ, ih, hdiv, hmod, List.getElem?_cons_succ]

theorem mem_alternate {es : List (α × α)} {a : α} : a ∈ alternate es ↔ ∃ e ∈ es, a = e.1 ∨ a = e.2 := by
  simp [alternate]

end Alternate

namespace PlutusData

/-! ### Nodes -/

/-- The children of a node: fields, items, or keys and values alternately. -/
def children : PlutusData → List PlutusData
  | constr _ _ _ fields => fields
  | map _ entries => alternate entries
  | array _ items => items
  | bigInt _ => []
  | boundedBytes _ => []

def childCount : PlutusData → ℕ
  | constr _ _ _ fields => fields.length
  | map _ entries => entries.length * 2
  | array _ items => items.length
  | bigInt _ => 0
  | boundedBytes _ => 0

/-- `child`; it panics at an index out of range, and at a leaf. -/
def child : PlutusData → ℕ → Option PlutusData
  | constr _ _ _ fields, i => fields[i]?
  | map _ entries, i => entries[i / 2]?.map fun e => if i % 2 = 0 then e.1 else e.2
  | array _ items, i => items[i]?
  | bigInt _, _ => none
  | boundedBytes _, _ => none

mutual

/-- The number of nodes of a tree. -/
def nodes : PlutusData → ℕ
  | constr _ _ _ fields => 1 + nodesAll fields
  | map _ entries => 1 + nodesEntries entries
  | array _ items => 1 + nodesAll items
  | bigInt _ => 1
  | boundedBytes _ => 1

def nodesAll : List PlutusData → ℕ
  | [] => 0
  | x :: xs => nodes x + nodesAll xs

def nodesEntries : List (PlutusData × PlutusData) → ℕ
  | [] => 0
  | (k, v) :: es => nodes k + (nodes v + nodesEntries es)

end

theorem nodesAll_eq (xs : List PlutusData) : nodesAll xs = (xs.map nodes).sum := by
  induction xs with
  | nil => rfl
  | cons x xs ih => rw [nodesAll, ih, List.map_cons, List.sum_cons]

theorem nodesEntries_eq (es : List (PlutusData × PlutusData)) : nodesEntries es = ((alternate es).map nodes).sum := by
  induction es with
  | nil => rfl
  | cons e es ih => rw [nodesEntries, ih, alternate_cons, List.map_cons, List.map_cons, List.sum_cons, List.sum_cons]

/-- `IndexedNode for PlutusData`. -/
instance : FiniteTree PlutusData where
  childCount := childCount
  child := child
  children := children
  nodes := nodes
  childCount_eq x := by
    cases x with
    | map definite entries => exact (length_alternate entries).symm
    | _ => rfl
  child_eq x i := by
    cases x with
    | map definite entries => exact (getElem?_alternate entries i).symm
    | bigInt z => simp [child, children]
    | boundedBytes bs => simp [child, children]
    | _ => rfl
  nodes_eq x := by
    cases x with
    | constr tag anyConstructor definite fields => exact congrArg (1 + ·) (nodesAll_eq fields)
    | map definite entries => exact congrArg (1 + ·) (nodesEntries_eq entries)
    | array definite items => exact congrArg (1 + ·) (nodesAll_eq items)
    | bigInt z => rfl
    | boundedBytes bs => rfl

theorem induction {P : PlutusData → Prop} (h : ∀ x, (∀ c ∈ children x, P c) → P x) (x : PlutusData) : P x :=
  FiniteTree.induction h x

/-! ### What the Rust type holds -/

/-- The node's own part: the range of a `minicbor::data::Int`, and the length of a vector. -/
def FitsNode : PlutusData → Prop
  | constr _ _ _ fields => fields.length < 2 ^ 63
  | map _ entries => entries.length < 2 ^ 63
  | array _ items => items.length < 2 ^ 63
  | bigInt (.int z) => -2 ^ 64 ≤ z ∧ z < 2 ^ 64
  | bigInt (.bigUInt bs) => bs.length < 2 ^ 63
  | bigInt (.bigNInt bs) => bs.length < 2 ^ 63
  | boundedBytes bs => bs.length < 2 ^ 63

/-- A value that the Rust type holds. -/
def Fits : PlutusData → Prop := FiniteTree.Everywhere FitsNode

/-- A compact tag with no `any_constructor`, or tag 102 with one. -/
def ConstrOkNode : PlutusData → Prop
  | constr tag anyConstructor _ _ =>
    ((121 ≤ tag ∧ tag ≤ 127) ∨ (1280 ≤ tag ∧ tag ≤ 1400)) ∧ anyConstructor = none ∨ tag = 102 ∧ anyConstructor.isSome
  | _ => True

/-- Every constructor is well formed. -/
def ConstrOk : PlutusData → Prop := FiniteTree.Everywhere ConstrOkNode

/-! ### The encoder -/

def arrayHeader (definite : Bool) (n : ℕ) : Bytes := if definite then Cbor.array n else Cbor.beginArray

/-- What `encode` writes at each visit. -/
def encodeVisit : Visit PlutusData → Bytes
  | .enter (constr tag anyConstructor definite fields) =>
    Cbor.tag tag.toNat ++ (if tag = 102 then Cbor.array 2 ++ Cbor.uint (anyConstructor.getD 0).toNat else []) ++
      arrayHeader definite fields.length
  | .enter (array definite items) => arrayHeader definite items.length
  | .enter (map true entries) => Cbor.map entries.length
  | .enter (map false _) => Cbor.beginMap
  | .enter (bigInt z) => z.encode
  | .enter (boundedBytes bs) => encodeBoundedBytes bs
  | .exit (constr _ _ false _) => Cbor.endIndef
  | .exit (array false _) => Cbor.endIndef
  | .exit (map false _) => Cbor.endIndef
  | .between _ => []
  | .exit _ => []

/-- `Encode for PlutusData`: what the walk writes. -/
def encodeTree (x : PlutusData) : Exit Unit × Bytes :=
  (walkTree (fun v => modify (· ++ encodeVisit v)) x : StateM Bytes (Exit Unit)).run []

theorem encodeAll_eq (xs : List PlutusData) : encodeAll xs = xs.flatMap encode := by
  induction xs with
  | nil => rfl
  | cons x xs ih => rw [encodeAll, ih, List.flatMap_cons]

theorem encodeEntries_eq (es : List (PlutusData × PlutusData)) : encodeEntries es = (alternate es).flatMap encode := by
  induction es with
  | nil => rfl
  | cons e es ih =>
    rw [encodeEntries, ih, alternate_cons, List.flatMap_cons, List.flatMap_cons, List.append_assoc]

/-- A node is written as its header, its children one after the other, and for a container of indefinite length
the break. -/
theorem encode_eq (x : PlutusData) :
    encode x = encodeVisit (.enter x) ++ (children x).flatMap encode ++ encodeVisit (.exit x) := by
  cases x with
  | constr tag anyConstructor definite fields =>
    rw [encode, encodeAll_eq, encodeArray]
    cases definite <;> simp [encodeVisit, arrayHeader, children]
  | map definite entries =>
    rw [encode, encodeEntries_eq, encodeMap]
    cases definite <;> simp [encodeVisit, children]
  | array definite items =>
    rw [encode, encodeAll_eq, encodeArray]
    cases definite <;> simp [encodeVisit, arrayHeader, children]
  | bigInt z => simp [encode, encodeVisit, children]
  | boundedBytes bs => simp [encode, encodeVisit, children]

theorem flatMap_encodeVisit (x : PlutusData) : (WalkTree.events x).flatMap encodeVisit = encode x := by
  induction x using induction with
  | h x ih =>
    rw [flatMap_events rfl, encode_eq]
    congr 2
    exact List.flatMap_congr ih

theorem encodeTree_eq (x : PlutusData) : encodeTree x = (.done (), encode x) := by
  rw [encodeTree, walkTree_writes, List.nil_append, flatMap_encodeVisit]

/-! ### `clone` -/

/-- A copy of a node, from the copies of its children. -/
def cloneNode : PlutusData → List PlutusData → PlutusData
  | constr tag anyConstructor definite _, children => constr tag anyConstructor definite children
  | map definite _, children => map definite (pairs children)
  | array definite _, children => array definite children
  | bigInt z, _ => bigInt z
  | boundedBytes bs, _ => boundedBytes bs

/-- `Clone for PlutusData`. -/
def clone (x : PlutusData) : Exit PlutusData := foldTree (m := Id) cloneNode x

theorem cloneNode_children (x : PlutusData) : cloneNode x (children x) = x := by
  cases x with
  | map definite entries => rw [children, cloneNode, pairs_alternate]
  | _ => rfl

/-- A copy is the value itself: its tags, flags, keys and bytes. -/
theorem clone_eq (x : PlutusData) : clone x = .done x := by
  have hfold : FoldTree.foldRec (m := Id) cloneNode x = x := by
    induction x using induction with
    | h x ih =>
      have hchildren : (children x).map (FoldTree.foldRec (m := Id) cloneNode) = children x := by
        rw [List.map_congr_left ih, List.map_id']
      rw [FoldTree.foldRec_id]
      exact (congrArg (cloneNode x) hchildren).trans (cloneNode_children x)
  rw [clone, foldTree_eq_foldRec (m := Id)]
  exact congrArg Exit.done hfold

end PlutusData
end Pallas
