import Pallas.Plutus.Decode
import Pallas.Plutus.BigInt
import Pallas.Codec.TreeOrder

/-!
# The order of Plutus data (`pallas-primitives/src/plutus_data.rs`)

`Ord for PlutusData` runs `cmp_tree` with a comparison of variants and of a node's own data. On values whose
constructors are well formed that comparison does not panic, and it compares a key of each node: the variant's rank,
the constructor index or the signed magnitude, the bytes. So the order of the values is the order of their key lists
(`cmp_eq_compare`), and the spelling of a value, which its keys do not show, does not take part.
-/

namespace Pallas
open FiniteTree (Everywhere)

/-- `Constr::constr_index`; it panics at a tag that is none, and at tag 102 with no constructor given. -/
def constrIndex (tag : UInt64) (anyConstructor : Option UInt64) : Option UInt64 :=
  if 121 ≤ tag ∧ tag ≤ 127 then some (tag - 121)
  else if 1280 ≤ tag ∧ tag ≤ 1400 then some (tag - 1280 + 7)
  else if tag = 102 then anyConstructor
  else none

namespace PlutusData

def rank : PlutusData → ℕ
  | constr _ _ _ _ => 0
  | map _ _ => 1
  | array _ _ => 2
  | bigInt _ => 3
  | boundedBytes _ => 4

/-- The comparison of two nodes that `cmp` hands to `cmp_tree`. -/
def cmpNode : PlutusData → PlutusData → Exit Ordering
  | constr tag anyConstructor _ _, constr tag' anyConstructor' _ _ =>
    match constrIndex tag anyConstructor, constrIndex tag' anyConstructor' with
    | some i, some j => .done (compare i j)
    | _, _ => .panicked
  | bigInt a, bigInt b => .done (a.cmp b)
  | boundedBytes a, boundedBytes b => .done (compare a b)
  | left, right => .done (compare left.rank right.rank)

/-- `Ord for PlutusData`. -/
def cmp (x y : PlutusData) : Exit Ordering := cmpTree x y cmpNode

/-- `PartialEq for PlutusData`. -/
def eq (x y : PlutusData) : Exit Bool :=
  match cmp x y with
  | .done ordering => .done (ordering == .eq)
  | .panicked => .panicked

/-! ### Keys -/

/-- What the order looks at in a node. -/
structure NodeKey where
  rank : ℕ
  number : ℤ
  bytes : Bytes
  deriving DecidableEq

instance : Ord NodeKey :=
  ⟨compareLex (compareOn NodeKey.rank) (compareLex (compareOn NodeKey.number) (compareOn NodeKey.bytes))⟩

instance : Std.TransOrd NodeKey :=
  inferInstanceAs (Std.TransCmp (compareLex (compareOn NodeKey.rank)
    (compareLex (compareOn NodeKey.number) (compareOn NodeKey.bytes))))

/-- The key of a node. -/
def key : PlutusData → NodeKey
  | constr tag anyConstructor _ _ => ⟨0, ((constrIndex tag anyConstructor).getD 0).toNat, []⟩
  | map _ _ => ⟨1, 0, []⟩
  | array _ _ => ⟨2, 0, []⟩
  | bigInt z => ⟨3, z.signedMagnitude, []⟩
  | boundedBytes bs => ⟨4, 0, bs⟩

theorem compare_key {k k' : NodeKey} : compare k k' =
    (compare k.rank k'.rank).then ((compare k.number k'.number).then (compare k.bytes k'.bytes)) := rfl

/-- The node's own integer is one that its type holds. -/
def InRangeNode : PlutusData → Prop
  | bigInt z => z.InRange
  | _ => True

/-- A node that is compared without a panic. -/
def SoundNode (x : PlutusData) : Prop := ConstrOkNode x ∧ InRangeNode x

/-- Well-formed constructors, over integers that their type holds. -/
def Sound : PlutusData → Prop := Everywhere SoundNode

theorem constrIndex_isSome {tag : UInt64} {anyConstructor : Option UInt64} {definite : Bool} {fields : List PlutusData}
    (h : ConstrOkNode (constr tag anyConstructor definite fields)) : ∃ i, constrIndex tag anyConstructor = some i := by
  unfold constrIndex
  rcases h with ⟨hsmall | hlarge, -⟩ | ⟨rfl, hany⟩
  · rw [if_pos hsmall]
    exact ⟨_, rfl⟩
  · have hnot : ¬ (121 ≤ tag ∧ tag ≤ 127) := by
      rintro ⟨-, hle⟩
      exact absurd (UInt64.le_trans hlarge.1 hle) (by decide)
    rw [if_neg hnot, if_pos hlarge]
    exact ⟨_, rfl⟩
  · obtain ⟨i, rfl⟩ := Option.isSome_iff_exists.1 hany
    exact ⟨i, rfl⟩

theorem compare_uint64 (i j : UInt64) : compare i j = compare (i.toNat : ℤ) (j.toNat : ℤ) := by
  rw [BigInt.compare_cast]
  rcases lt_trichotomy i.toNat j.toNat with h | h | h
  · rw [Nat.compare_eq_lt.2 h]
    exact Std.compare_eq_lt.2 h
  · obtain rfl := UInt64.toNat_inj.1 h
    rw [Nat.compare_eq_eq.2 rfl]
    exact Std.ReflCmp.compare_self
  · rw [Nat.compare_eq_gt.2 h]
    exact Std.compare_eq_gt.2 h

theorem cmpNode_eq {x y : PlutusData} (hx : SoundNode x) (hy : SoundNode y) :
    cmpNode x y = .done (compare (key x) (key y)) := by
  cases x with
  | constr tag anyConstructor definite fields =>
    cases y with
    | constr tag' anyConstructor' definite' fields' =>
      obtain ⟨i, hi⟩ := constrIndex_isSome hx.1
      obtain ⟨j, hj⟩ := constrIndex_isSome hy.1
      rw [cmpNode, hi, hj, key, key, hi, hj, compare_key]
      exact congrArg Exit.done ((compare_uint64 i j).trans Ordering.then_eq.symm)
    | _ => rfl
  | map definite entries =>
    cases y with
    | map definite' entries' => rfl
    | _ => rfl
  | array definite items =>
    cases y with
    | array definite' items' => rfl
    | _ => rfl
  | bigInt a =>
    cases y with
    | bigInt b =>
      rw [cmpNode, BigInt.cmp_eq_compare hx.2 hy.2]
      exact congrArg Exit.done Ordering.then_eq.symm
    | _ => rfl
  | boundedBytes bs =>
    cases y with
    | boundedBytes bs' => rfl
    | _ => rfl

theorem cmp_eq_compare {x y : PlutusData} (hx : Sound x) (hy : Sound y) :
    cmp x y = .done (compare (treeKeys key x) (treeKeys key y)) := by
  have hnode : ∀ a b, SoundNode a → SoundNode b → cmpNode a b = .done (compare (key a) (key b)) :=
    fun _ _ ha hb => cmpNode_eq ha hb
  exact cmpTree_eq_compare hnode hx hy

/-! ### Spelling -/

/-- The same value in another spelling: containers of definite or indefinite length, and constructors in the compact or
in the general form, anywhere in the value. -/
inductive Respelled : PlutusData → PlutusData → Prop where
  | constr {tag tag' : UInt64} {anyConstructor anyConstructor' : Option UInt64} {definite definite' : Bool}
      {fields fields' : List PlutusData} (hindex : constrIndex tag anyConstructor = constrIndex tag' anyConstructor')
      (hfields : List.Forall₂ Respelled fields fields') :
      Respelled (constr tag anyConstructor definite fields) (constr tag' anyConstructor' definite' fields')
  | map {definite definite' : Bool} {entries entries' : List (PlutusData × PlutusData)}
      (hentries : List.Forall₂ Respelled (alternate entries) (alternate entries')) :
      Respelled (map definite entries) (map definite' entries')
  | array {definite definite' : Bool} {items items' : List PlutusData} (hitems : List.Forall₂ Respelled items items') :
      Respelled (array definite items) (array definite' items')
  | bigInt {z : BigInt} : Respelled (bigInt z) (bigInt z)
  | boundedBytes {bs : Bytes} : Respelled (boundedBytes bs) (boundedBytes bs)

theorem Respelled.key_eq {x y : PlutusData} (h : Respelled x y) : key x = key y := by
  cases h with
  | constr hindex hfields => rw [key, key, hindex]
  | map hentries => rfl
  | array hitems => rfl
  | bigInt => rfl
  | boundedBytes => rfl

theorem Respelled.children {x y : PlutusData} (h : Respelled x y) :
    List.Forall₂ Respelled (PlutusData.children x) (PlutusData.children y) := by
  cases h with
  | constr hindex hfields => exact hfields
  | map hentries => exact hentries
  | array hitems => exact hitems
  | bigInt => exact .nil
  | boundedBytes => exact .nil

theorem Respelled.treeKeys_eq {x y : PlutusData} (h : Respelled x y) : treeKeys key x = treeKeys key y :=
  treeKeys_congr (fun _ _ h => h.key_eq) (fun _ _ h => h.children) h

theorem Respelled.sound {x y : PlutusData} (h : Respelled x y) (hx : Sound x) (hy : ConstrOk y) : Sound y := by
  have hrange : Everywhere InRangeNode x := hx.imp fun _ hs => hs.2
  have hrange' : Everywhere InRangeNode y := by
    refine hrange.of_related (R := Respelled) ?_ (fun _ _ h => h.children) h
    intro a b hab ha
    cases hab with
    | bigInt => exact ha
    | _ => trivial
  exact hy.and hrange'

/-! ### Decoded values -/

section Decoded
open TreeDecode
variable {C ε : Type} {m : Minicbor ε} {hm : m.Lawful}

/-- The node under construction is sound, as far as it is known. -/
def Partial.SoundPart : Partial → Prop
  | .leaf x => Sound x
  | .array _ items => ∀ x ∈ items, Sound x
  | .map _ items => ∀ x ∈ items, Sound x
  | .constr tag anyConstructor indefinite fields =>
    ConstrOkNode (PlutusData.constr tag anyConstructor (!indefinite) fields) ∧ ∀ x ∈ fields, Sound x

theorem sound_leaf {x : PlutusData} (hx : SoundNode x) (hleaf : children x = []) : Sound x := by
  refine .node hx fun c hc => ?_
  rw [show FiniteTree.children x = [] from hleaf] at hc
  cases hc

theorem bigInt_inRange {z : BigInt} {bs rest : Bytes} (h : z.Reads bs rest) : z.InRange := by
  cases h with
  | uint hhead =>
    have hlt := Cbor.header_lt hhead
    unfold BigInt.InRange
    omega
  | nint hhead =>
    have hlt := Cbor.header_lt hhead
    unfold BigInt.InRange
    omega
  | bigUInt _ _ => trivial
  | bigNInt _ _ => trivial

theorem begins_sound {p : Partial} {a : Arity} {bs rest : Bytes} (h : Begins bs p a rest) : p.SoundPart := by
  cases h with
  | bigInt hz => exact sound_leaf ⟨trivial, bigInt_inRange hz⟩ rfl
  | boundedBytes hs => exact sound_leaf ⟨trivial, trivial⟩ rfl
  | array hhead => exact fun x hx => nomatch hx
  | map hhead hlen => exact fun x hx => nomatch hx
  | mapIndef hhead => exact fun x hx => nomatch hx
  | compact htag hcompact hfields => exact ⟨.inl ⟨of_decide_eq_true hcompact, rfl⟩, fun x hx => nomatch hx⟩
  | general htag houter hindex hfields => exact ⟨.inr ⟨rfl, rfl⟩, fun x hx => nomatch hx⟩

theorem child_sound {p p' : Partial} {x : PlutusData} (h : p.child x = (.ok p' : Except (Fault ε) Partial))
    (hp : p.SoundPart) (hx : Sound x) : p'.SoundPart := by
  have hpush : ∀ {xs : List PlutusData}, (∀ y ∈ xs, Sound y) → ∀ y ∈ xs ++ [x], Sound y := by
    intro xs hxs y hy
    rcases List.mem_append.1 hy with hy | hy
    · exact hxs y hy
    · rw [List.mem_singleton.1 hy]
      exact hx
  cases p with
  | leaf y => cases h
  | array indefinite items =>
    cases h
    exact hpush hp
  | map indefinite items =>
    cases h
    exact hpush hp
  | constr tag anyConstructor indefinite fields =>
    cases h
    exact ⟨hp.1, hpush hp.2⟩

theorem mem_pairs {xs : List PlutusData} {c : PlutusData} (h : c ∈ alternate (pairs xs)) : c ∈ xs := by
  induction xs using pairs.induct with
  | case1 k v xs ih =>
    rw [pairs, alternate_cons] at h
    rcases List.mem_cons.1 h with rfl | h
    · exact List.mem_cons_self
    rcases List.mem_cons.1 h with rfl | h
    · exact List.mem_cons_of_mem _ List.mem_cons_self
    · exact List.mem_cons_of_mem _ (List.mem_cons_of_mem _ (ih h))
  | case2 xs hxs =>
    rw [pairs] at h
    · cases h
    · exact hxs

theorem end_sound {p : Partial} {x : PlutusData} (h : p.end m = .ok x) (hp : p.SoundPart) : Sound x := by
  cases p with
  | leaf y =>
    cases h
    exact hp
  | array indefinite items =>
    cases h
    exact .node ⟨trivial, trivial⟩ hp
  | map indefinite items =>
    rw [Partial.end] at h
    split at h
    · cases h
    · cases h
      exact .node ⟨trivial, trivial⟩ fun c hc => hp c (mem_pairs hc)
  | constr tag anyConstructor indefinite fields =>
    cases h
    exact .node ⟨hp.1, trivial⟩ hp.2

/-- What the recursion returns is sound. -/
structure GivesSound (hm : m.Lawful) (fuel : ℕ) : Prop where
  node : ∀ {ctx ctx' : C} {bs x rest}, (decodeRec (node hm) m fuel ctx).run bs = (.ok (x, ctx'), rest) → Sound x
  children : ∀ {a : Arity} {p p' : Partial} {ctx ctx' : C} {bs rest}, p.SoundPart →
    (decodeChildren (PlutusData.node hm) m fuel a p ctx).run bs = (.ok (p', ctx'), rest) → p'.SoundPart

theorem GivesSound.child {fuel : ℕ} (ih : GivesSound (C := C) hm fuel) {a : Arity} {p p' : Partial} {ctx ctx' : C}
    {bs rest : Bytes} (hp : p.SoundPart)
    (h : (do
      let (x, ctx) ← decodeRec (PlutusData.node hm) m fuel ctx
      let p ← .ofExcept (p.child x)
      decodeChildren (PlutusData.node hm) m fuel a p ctx : Reader (Fault ε) (Partial × C)).run bs =
        (.ok (p', ctx'), rest)) :
    p'.SoundPart := by
  obtain ⟨⟨x, ctx₁⟩, mid, hx, hafter⟩ := Reader.bind_eq_ok.1 h
  obtain ⟨p₁, mid', hchild, hothers⟩ := Reader.bind_eq_ok.1 hafter
  exact ih.children (child_sound (Prod.mk.inj hchild).1 hp (ih.node hx)) hothers

theorem givesSound (fuel : ℕ) : GivesSound (C := C) hm fuel := by
  induction fuel with
  | zero =>
    refine ⟨?_, ?_⟩
    · intro ctx ctx' bs x rest h
      cases h
    · intro a p p' ctx ctx' bs rest hp h
      cases h
  | succ fuel ih =>
    refine ⟨?_, ?_⟩
    · intro ctx ctx' bs x rest h
      obtain ⟨⟨⟨p, a⟩, ctx₁⟩, mid, hbegin, hafter⟩ := Reader.bind_eq_ok.1 h
      obtain ⟨⟨p', ctx₂⟩, mid', hchildren, hclose⟩ := Reader.bind_eq_ok.1 hafter
      obtain ⟨x', mid'', hend, hreturn⟩ := Reader.bind_eq_ok.1 hclose
      cases hreturn
      have hopened := begins_sound ((run_node_begin hm).1 hbegin).1
      exact end_sound (Prod.mk.inj hend).1 (ih.children hopened hchildren)
    · intro a p p' ctx ctx' bs rest hp h
      match a with
      | .leaf =>
        cases h
        exact hp
      | .fixed 0 =>
        cases h
        exact hp
      | .fixed (k + 1) => exact ih.child hp h
      | .indefinite =>
        obtain ⟨t, mid, hpeek, hafter⟩ := Reader.bind_eq_ok.1 h
        split at hafter
        · obtain ⟨u, mid', hskip, hreturn⟩ := Reader.bind_eq_ok.1 hafter
          cases hreturn
          exact hp
        · exact ih.child hp hafter

/-- Every value that `decode` returns is sound. -/
theorem decode_sound {ctx ctx' : C} {bs rest : Bytes} {x : PlutusData} (h : decode hm ctx bs = (.ok (x, ctx'), rest)) :
    Sound x := by
  rw [decode, decodeTree_eq_decodeRec _ _ _ _ 0] at h
  exact (givesSound _).node h

end Decoded

/-! ### The order -/

/-- `cmp` on values with well-formed constructors, decoded ones among them: it does not panic; it is reflexive,
antisymmetric up to `==` and transitive; no spelling of either value takes part; and a clone takes the place of the value
in it, with the same encoding. -/
theorem cmp_total_preorder {x y z : PlutusData} (hx : Sound x) (hy : Sound y) (hz : Sound z) :
    (∃ o, cmp x y = .done o ∧ cmp y x = .done o.swap) ∧ cmp x x = .done .eq ∧
    (∀ o o', cmp x y = .done o → cmp y x = .done o' → o.isLE → o'.isLE → eq x y = .done true) ∧
    (∀ o o', cmp x y = .done o → cmp y z = .done o' → o.isLE → o'.isLE → ∃ o'', cmp x z = .done o'' ∧ o''.isLE) ∧
    (∀ x' y', Respelled x x' → Respelled y y' → ConstrOk x' → ConstrOk y' → cmp x' y' = cmp x y) ∧
    (∃ x', clone x = .done x' ∧ cmp x' y = cmp x y ∧ cmp x x' = .done .eq ∧ encodeTree x' = encodeTree x) ∧
    (∀ {C ε : Type} {m : Minicbor ε} (hm : m.Lawful) (ctx ctx' : C) (bs rest : Bytes) (v : PlutusData),
      decode hm ctx bs = (.ok (v, ctx'), rest) → Sound v) := by
  have hself : cmp x x = .done .eq := by
    rw [cmp_eq_compare hx hx]
    exact congrArg Exit.done Std.ReflCmp.compare_self
  have hswap : cmp y x = .done (compare (treeKeys key x) (treeKeys key y)).swap := by
    rw [cmp_eq_compare hy hx]
    exact congrArg Exit.done Std.OrientedCmp.eq_swap
  refine ⟨⟨_, cmp_eq_compare hx hy, hswap⟩, hself, ?_, ?_, ?_, ?_, ?_⟩
  · intro o o' ho ho' hle hle'
    rw [cmp_eq_compare hx hy] at ho
    rw [hswap] at ho'
    cases ho
    cases ho'
    rw [eq, cmp_eq_compare hx hy]
    have hboth : ∀ o : Ordering, o.isLE → o.swap.isLE → o = .eq := by decide
    rw [hboth _ hle hle']
    rfl
  · intro o o' ho ho' hle hle'
    rw [cmp_eq_compare hx hy] at ho
    rw [cmp_eq_compare hy hz] at ho'
    cases ho
    cases ho'
    exact ⟨_, cmp_eq_compare hx hz, Std.TransCmp.isLE_trans hle hle'⟩
  · intro x' y' hx' hy' hokx hoky
    rw [cmp_eq_compare (hx'.sound hx hokx) (hy'.sound hy hoky), cmp_eq_compare hx hy, hx'.treeKeys_eq, hy'.treeKeys_eq]
  · exact ⟨x, clone_eq x, rfl, hself, rfl⟩
  · intro C ε m hm ctx ctx' bs rest v h
    exact decode_sound h

/-- The unit constructor in its two spellings, and a bignum with leading zeros. -/
theorem unit_cmp_total_preorder :
    let unit := constr 121 none true []
    let unit' := constr 102 (some 0) false []
    let one := bigInt (.bigUInt [0, 0, 1])
    (∃ o, cmp unit unit' = .done o ∧ cmp unit' unit = .done o.swap) ∧
    (∀ o o', cmp unit unit' = .done o → cmp unit' one = .done o' → o.isLE → o'.isLE →
      ∃ o'', cmp unit one = .done o'' ∧ o''.isLE) := by
  intro unit unit' one
  have hunit : Sound unit := sound_leaf ⟨.inl ⟨.inl ⟨by decide, by decide⟩, rfl⟩, trivial⟩ rfl
  have hunit' : Sound unit' := sound_leaf ⟨.inr ⟨rfl, rfl⟩, trivial⟩ rfl
  have hone : Sound one := sound_leaf ⟨trivial, trivial⟩ rfl
  obtain ⟨hswap, -, -, htrans, -⟩ := cmp_total_preorder hunit hunit' hone
  exact ⟨hswap, htrans⟩

end PlutusData
end Pallas
