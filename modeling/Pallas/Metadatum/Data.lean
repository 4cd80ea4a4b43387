import Pallas.Codec.Text
import Pallas.Plutus.Data

/-!
# Metadata as a tree (`Metadatum` in `pallas-primitives/src/lib.rs`, `metadatum.rs`)

The nodes of a metadatum (`IndexedNode for Metadatum`) and its encoder, a walk over them. A map holds its keys and
values alternately for the traversals, and `pairs` puts them together again; an array is always written with a definite
length, a map in the form that it holds (`KeyValuePairs`).

`Fits` is what a value of the Rust type is beyond its shape: a `minicbor` integer has a 64-bit argument, and no vector or
string is longer than `isize::MAX`.
-/

namespace Pallas

/-- `Metadatum`; the flag of a map says whether it is `KeyValuePairs::Def`. -/
inductive Metadatum where
  | int (z : ℤ)
  | bytes (bs : Bytes)
  | text (s : String)
  | array (xs : List Metadatum)
  | map (definite : Bool) (kvs : List (Metadatum × Metadatum))

namespace Metadatum

/-! ### Nodes -/

/-- The children of a node: items, or keys and values alternately. -/
def children : Metadatum → List Metadatum
  | array xs => xs
  | map _ kvs => alternate kvs
  | int _ => []
  | bytes _ => []
  | text _ => []

def childCount : Metadatum → ℕ
  | array xs => xs.length
  | map _ kvs => kvs.length * 2
  | int _ => 0
  | bytes _ => 0
  | text _ => 0

/-- `child`; it panics at an index out of range, and at a leaf. -/
def child : Metadatum → ℕ → Option Metadatum
  | array xs, i => xs[i]?
  | map _ kvs, i => kvs[i / 2]?.map fun e => if i % 2 = 0 then e.1 else e.2
  | int _, _ => none
  | bytes _, _ => none
  | text _, _ => none

mutual

/-- The number of nodes of a tree. -/
def nodes : Metadatum → ℕ
  | array xs => 1 + nodesAll xs
  | map _ kvs => 1 + nodesEntries kvs
  | int _ => 1
  | bytes _ => 1
  | text _ => 1

def nodesAll : List Metadatum → ℕ
  | [] => 0
  | x :: xs => nodes x + nodesAll xs

def nodesEntries : List (Metadatum × Metadatum) → ℕ
  | [] => 0
  | (k, v) :: kvs => nodes k + (nodes v + nodesEntries kvs)

end

theorem nodesAll_eq (xs : List Metadatum) : nodesAll xs = (xs.map nodes).sum := by
  induction xs with
  | nil => rfl
  | cons x xs ih => rw [nodesAll, ih, List.map_cons, List.sum_cons]

theorem nodesEntries_eq (kvs : List (Metadatum × Metadatum)) : nodesEntries kvs = ((alternate kvs).map nodes).sum := by
  induction kvs with
  | nil => rfl
  | cons e kvs ih => rw [nodesEntries, ih, alternate_cons, List.map_cons, List.map_cons, List.sum_cons, List.sum_cons]

/-- `IndexedNode for Metadatum`. -/
instance : FiniteTree Metadatum where
  childCount := childCount
  child := child
  children := children
  nodes := nodes
  childCount_eq x := by
    cases x with
    | map definite kvs => exact (length_alternate kvs).symm
    | _ => rfl
  child_eq x i := by
    cases x with
    | map definite kvs => exact (getElem?_alternate kvs i).symm
    | array xs => rfl
    | int z => simp [child, children]
    | bytes bs => simp [child, children]
    | text s => simp [child, children]
  nodes_eq x := by
    cases x with
    | array xs => exact congrArg (1 + ·) (nodesAll_eq xs)
    | map definite kvs => exact congrArg (1 + ·) (nodesEntries_eq kvs)
    | int z => rfl
    | bytes bs => rfl
    | text s => rfl

/-! ### What the Rust type holds -/

/-- The node's own part: the range of a `minicbor::data::Int`, and the length of a vector or a string. -/
def FitsNode : Metadatum → Prop
  | int z => -2 ^ 64 ≤ z ∧ z < 2 ^ 64
  | bytes bs => bs.length < 2 ^ 63
  | text s => (utf8 s).length < 2 ^ 63
  | array xs => xs.length < 2 ^ 63
  | map _ kvs => kvs.length < 2 ^ 63

instance : DecidablePred FitsNode
  | int z => inferInstanceAs (Decidable (-2 ^ 64 ≤ z ∧ z < 2 ^ 64))
  | bytes bs => inferInstanceAs (Decidable (bs.length < 2 ^ 63))
  | text s => inferInstanceAs (Decidable ((utf8 s).length < 2 ^ 63))
  | array xs => inferInstanceAs (Decidable (xs.length < 2 ^ 63))
  | map _ kvs => inferInstanceAs (Decidable (kvs.length < 2 ^ 63))

/-- A value that the Rust type holds. -/
def Fits : Metadatum → Prop := FiniteTree.Everywhere FitsNode

/-! ### The encoder -/

/-- What `encode` writes at each visit. -/
def encodeVisit : Visit Metadatum → Bytes
  | .enter (int z) => Cbor.int z
  | .enter (bytes bs) => Cbor.bytes bs
  | .enter (text s) => encodeText s
  | .enter (array xs) => Cbor.array xs.length
  | .enter (map true kvs) => Cbor.map kvs.length
  | .enter (map false _) => Cbor.beginMap
  | .exit (map false _) => Cbor.endIndef
  | .between _ => []
  | .exit _ => []

/-- `Encode for Metadatum`: what the walk writes. -/
def encodeTree (x : Metadatum) : Exit Unit × Bytes :=
  (walkTree (fun v => modify (· ++ encodeVisit v)) x : StateM Bytes (Exit Unit)).run []

/-- The bytes of a metadatum, by the sequence of its visits. -/
def encode (x : Metadatum) : Bytes := (WalkTree.events x).flatMap encodeVisit

theorem encodeTree_eq (x : Metadatum) : encodeTree x = (.done (), encode x) := by
  rw [encodeTree, walkTree_writes, List.nil_append, encode]

theorem encode_eq (x : Metadatum) :
    encode x = encodeVisit (.enter x) ++ (children x).flatMap encode ++ encodeVisit (.exit x) := flatMap_events rfl

end Metadatum
end Pallas
