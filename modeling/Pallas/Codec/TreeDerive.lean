import Pallas.Codec.TreeDecode
import Pallas.Codec.Tree

/-!
# What a tree decoder has done, as a derivation

`Decodes` says how a decoded node comes about: its header, its children one by one, and what `end` reads behind them,
with one rule for each branch of the driver and no stack and no fuel. A decoding call succeeds exactly if there is a
derivation (`decodeTree_iff`), so what holds of every decoded node is an induction on derivations, and a round trip
builds one (`Written.decodes`). The list of a derivation has an entry for each call of `end`: the builder, and the bytes
in front of which it was called and those it left.
-/

namespace Pallas
namespace TreeDecode
open FiniteTree
variable {C ε T : Type}

/-- A node to decode, or the children that are to follow in one. -/
inductive Task (t : TreeDecode C ε T) where
  | node (x : T)
  | children (a : Arity) (builder builder' : t.Builder)

/-- A call of `end`. -/
structure Ending (t : TreeDecode C ε T) where
  builder : t.Builder
  start : Bytes
  stop : Bytes

section Rules
variable (t : TreeDecode C ε T) (m : Minicbor ε)

/-- A decoder reads this over the bytes, with these contexts in front and behind. -/
inductive Decodes : Task t → (ctx ctx' : C) → (bs rest : Bytes) → List (Ending t) → Prop where
  | node {p p' : t.Builder} {a : Arity} {x : T} {ctx ctx₁ ctx₂ ctx₃ : C} {bs mid mid' rest : Bytes} {ends : List (Ending t)}
      (hbegin : (t.begin ctx).run bs = (.ok ((p, a), ctx₁), mid))
        (h : Decodes (.children a p p') ctx₁ ctx₂ mid mid' ends)
      (hend : (t.endNode p' ctx₂).run mid' = (.ok (x, ctx₃), rest)) :
      Decodes (.node x) ctx ctx₃ bs rest (⟨p', mid', rest⟩ :: ends)
  | leaf {p : t.Builder} {ctx : C} {bs : Bytes} : Decodes (.children .leaf p p) ctx ctx bs bs []
  | done {p : t.Builder} {ctx : C} {bs : Bytes} : Decodes (.children (.fixed 0) p p) ctx ctx bs bs []
  | next {n : ℕ} {x : T} {p p₁ p' : t.Builder} {ctx ctx₁ ctx' : C} {bs mid rest : Bytes} {ends ends' : List (Ending t)}
      (hnode : Decodes (.node x) ctx ctx₁ bs mid ends) (hchild : t.child p x = .ok p₁)
      (h : Decodes (.children (.fixed n) p₁ p') ctx₁ ctx' mid rest ends') :
      Decodes (.children (.fixed (n + 1)) p p') ctx ctx' bs rest (ends ++ ends')
  | stop {p : t.Builder} {ctx : C} {bs rest : Bytes} (htype : m.datatype bs = .ok .break)
      (hskip : m.skip.run bs = (.ok (), rest)) : Decodes (.children .indefinite p p) ctx ctx bs rest []
  | more {x : T} {ty : CborType} {p p₁ p' : t.Builder} {ctx ctx₁ ctx' : C} {bs mid rest : Bytes}
      {ends ends' : List (Ending t)} (htype : m.datatype bs = .ok ty) (hty : ty ≠ .break)
      (hnode : Decodes (.node x) ctx ctx₁ bs mid ends) (hchild : t.child p x = .ok p₁)
      (h : Decodes (.children .indefinite p₁ p') ctx₁ ctx' mid rest ends') :
      Decodes (.children .indefinite p p') ctx ctx' bs rest (ends ++ ends')

end Rules

section Derivations
variable {t : TreeDecode C ε T} {m : Minicbor ε}

/-- What the recursion returns has a derivation. -/
structure Derived (t : TreeDecode C ε T) (m : Minicbor ε) (fuel : ℕ) : Prop where
  node : ∀ {ctx ctx' : C} {bs x rest}, (decodeRec t m fuel ctx).run bs = (.ok (x, ctx'), rest) →
    ∃ ends, Decodes t m (.node x) ctx ctx' bs rest ends
  children : ∀ {a : Arity} {p p' : t.Builder} {ctx ctx' : C} {bs rest},
    (decodeChildren t m fuel a p ctx).run bs = (.ok (p', ctx'), rest) →
    ∃ ends, Decodes t m (.children a p p') ctx ctx' bs rest ends

theorem derived (fuel : ℕ) : Derived t m fuel := by
  induction fuel with
  | zero =>
    refine ⟨?_, ?_⟩
    · intro ctx ctx' bs x rest h
      cases h
    · intro a p p' ctx ctx' bs rest h
      cases h
  | succ fuel ih =>
    refine ⟨?_, ?_⟩
    · intro ctx ctx' bs x rest h
      obtain ⟨⟨⟨p, a⟩, ctx₁⟩, mid, hbegin, hafter⟩ := Reader.bind_eq_ok.1 h
      obtain ⟨⟨p', ctx₂⟩, mid', hchildren, hend⟩ := Reader.bind_eq_ok.1 hafter
      obtain ⟨ends, hderived⟩ := ih.children hchildren
      exact ⟨_, .node hbegin hderived hend⟩
    · intro a p p' ctx ctx' bs rest h
      match a with
      | .leaf =>
        cases h
        exact ⟨[], .leaf⟩
      | .fixed 0 =>
        cases h
        exact ⟨[], .done⟩
      | .fixed (n + 1) =>
        obtain ⟨⟨x, ctx₁⟩, mid, hnode, hafter⟩ := Reader.bind_eq_ok.1 h
        obtain ⟨p₁, mid', hrun, hothers⟩ := Reader.bind_eq_ok.1 hafter
        obtain ⟨hchild, rfl⟩ := Prod.mk.inj hrun
        obtain ⟨ends, hx⟩ := ih.node hnode
        obtain ⟨ends', hrest⟩ := ih.children hothers
        exact ⟨_, .next hx hchild hrest⟩
      | .indefinite =>
        obtain ⟨ty, mid, hpeek, hafter⟩ := Reader.bind_eq_ok.1 h
        obtain ⟨htype, rfl⟩ := Minicbor.run_peekType_eq_ok.1 (Minicbor.run_lift_eq_ok.1 hpeek)
        split at hafter
        · next hbreak =>
          obtain ⟨u, mid', hskip, hreturn⟩ := Reader.bind_eq_ok.1 hafter
          cases hreturn
          rw [hbreak] at htype
          exact ⟨[], .stop htype (Minicbor.run_lift_eq_ok.1 hskip)⟩
        · next hbreak =>
          obtain ⟨⟨x, ctx₁⟩, mid', hnode, hchildren⟩ := Reader.bind_eq_ok.1 hafter
          obtain ⟨p₁, mid'', hrun, hothers⟩ := Reader.bind_eq_ok.1 hchildren
          obtain ⟨hchild, rfl⟩ := Prod.mk.inj hrun
          obtain ⟨ends, hx⟩ := ih.node hnode
          obtain ⟨ends', hrest⟩ := ih.children hothers
          exact ⟨_, .more htype hbreak hx hchild hrest⟩

/-- What a task returns in the recursion. -/
def Task.Returns (m : Minicbor ε) (fuel : ℕ) (ctx ctx' : C) (bs rest : Bytes) : Task t → Prop
  | .node x => (decodeRec t m fuel ctx).run bs = (.ok (x, ctx'), rest)
  | .children a p p' => (decodeChildren t m fuel a p ctx).run bs = (.ok (p', ctx'), rest)

theorem Task.Returns.mono {task : Task t} {fuel k : ℕ} {ctx ctx' : C} {bs rest : Bytes}
    (h : task.Returns m fuel ctx ctx' bs rest) (hk : fuel ≤ k) : task.Returns m k ctx ctx' bs rest := by
  induction hk with
  | refl => exact h
  | @step k _ ih =>
    cases task with
    | node x => exact (grows k).node ih
    | children a p p' => exact (grows k).children ih

theorem Decodes.returns {task : Task t} {ctx ctx' : C} {bs rest : Bytes} {ends : List (Ending t)}
    (h : Decodes t m task ctx ctx' bs rest ends) : ∃ fuel, task.Returns m fuel ctx ctx' bs rest := by
  induction h with
  | node hbegin _ hend ih =>
    obtain ⟨fuel, hchildren⟩ := ih
    exact ⟨fuel + 1, Reader.bind_eq_ok.2 ⟨_, _, hbegin, Reader.bind_eq_ok.2 ⟨_, _, hchildren, hend⟩⟩⟩
  | leaf => exact ⟨1, rfl⟩
  | done => exact ⟨1, rfl⟩
  | next _ hchild _ ihnode ih =>
    obtain ⟨fuel, hnode⟩ := ihnode
    obtain ⟨fuel', hrest⟩ := ih
    have hnode' := hnode.mono (Nat.le_max_left fuel fuel')
    have hrest' := hrest.mono (Nat.le_max_right fuel fuel')
    exact ⟨max fuel fuel' + 1,
      Reader.bind_eq_ok.2 ⟨_, _, hnode', Reader.bind_eq_ok.2 ⟨_, _, congrArg (·, _) hchild, hrest'⟩⟩⟩
  | stop htype hskip =>
    refine ⟨1, Reader.bind_eq_ok.2 ⟨_, _, Minicbor.run_lift_eq_ok.2 (Minicbor.run_peekType_eq_ok.2 ⟨htype, rfl⟩), ?_⟩⟩
    rw [if_pos rfl]
    exact Reader.bind_eq_ok.2 ⟨(), _, Minicbor.run_lift_eq_ok.2 hskip, rfl⟩
  | more htype hty _ hchild _ ihnode ih =>
    obtain ⟨fuel, hnode⟩ := ihnode
    obtain ⟨fuel', hrest⟩ := ih
    have hnode' := hnode.mono (Nat.le_max_left fuel fuel')
    have hrest' := hrest.mono (Nat.le_max_right fuel fuel')
    refine ⟨max fuel fuel' + 1,
      Reader.bind_eq_ok.2 ⟨_, _, Minicbor.run_lift_eq_ok.2 (Minicbor.run_peekType_eq_ok.2 ⟨htype, rfl⟩), ?_⟩⟩
    rw [if_neg hty]
    exact Reader.bind_eq_ok.2 ⟨_, _, hnode', Reader.bind_eq_ok.2 ⟨_, _, congrArg (·, _) hchild, hrest'⟩⟩

theorem decodeTree_iff {x : T} {ctx ctx' : C} {bs rest : Bytes} :
    decodeTree t m ctx bs = (.ok (x, ctx'), rest) ↔ ∃ ends, Decodes t m (.node x) ctx ctx' bs rest ends := by
  constructor
  · intro h
    rw [decodeTree_eq_decodeRec _ _ _ _ 0] at h
    exact (derived _).node h
  · rintro ⟨ends, h⟩
    obtain ⟨fuel, hrun⟩ := h.returns
    exact decodeTree_of_decodeRec hrun

/-! ### Induction on nodes -/

/-- These children of a node stand at the bytes, each as `P` says, and end as the arity of the node asks. -/
inductive Siblings (m : Minicbor ε) (P : T → (bs rest : Bytes) → List (Ending t) → Prop) :
    Arity → List T → (bs rest : Bytes) → List (Ending t) → Prop where
  | leaf {bs : Bytes} : Siblings m P .leaf [] bs bs []
  | done {bs : Bytes} : Siblings m P (.fixed 0) [] bs bs []
  | next {n : ℕ} {x : T} {xs : List T} {bs mid rest : Bytes} {ends ends' : List (Ending t)} (hnode : P x bs mid ends)
      (h : Siblings m P (.fixed n) xs mid rest ends') : Siblings m P (.fixed (n + 1)) (x :: xs) bs rest (ends ++ ends')
  | stop {bs rest : Bytes} (htype : m.datatype bs = .ok .break) (hskip : m.skip.run bs = (.ok (), rest)) :
      Siblings m P .indefinite [] bs rest []
  | more {x : T} {xs : List T} {ty : CborType} {bs mid rest : Bytes} {ends ends' : List (Ending t)}
      (htype : m.datatype bs = .ok ty) (hty : ty ≠ .break) (hnode : P x bs mid ends)
      (h : Siblings m P .indefinite xs mid rest ends') : Siblings m P .indefinite (x :: xs) bs rest (ends ++ ends')

/-- What `P` says of a task: of a node, or of the children that turn one builder into another. -/
def Task.Holds (m : Minicbor ε) (P : T → (bs rest : Bytes) → List (Ending t) → Prop) (bs rest : Bytes)
    (ends : List (Ending t)) : Task t → Prop
  | .node x => P x bs rest ends
  | .children a p p' => ∃ xs, xs.foldlM t.child p = .ok p' ∧ Siblings m P a xs bs rest ends

/-- What holds of a node whenever it holds of its children holds of every node that is decoded. -/
theorem Decodes.induction {P : T → (bs rest : Bytes) → List (Ending t) → Prop} {task : Task t} {ctx ctx' : C}
    {bs rest : Bytes} {ends : List (Ending t)}
    (hnode : ∀ {p p' : t.Builder} {a : Arity} {x : T} {xs : List T} {ctx ctx₁ ctx₂ ctx₃ : C} {bs mid mid' rest : Bytes}
      {ends : List (Ending t)}, (t.begin ctx).run bs = (.ok ((p, a), ctx₁), mid) → xs.foldlM t.child p = .ok p' →
      Siblings m P a xs mid mid' ends → (t.endNode p' ctx₂).run mid' = (.ok (x, ctx₃), rest) →
      P x bs rest (⟨p', mid', rest⟩ :: ends))
    (h : Decodes t m task ctx ctx' bs rest ends) : task.Holds m P bs rest ends := by
  induction h with
  | node hbegin _ hend ih =>
    obtain ⟨xs, hgiven, hxs⟩ := ih
    exact hnode hbegin hgiven hxs hend
  | leaf => exact ⟨[], rfl, .leaf⟩
  | done => exact ⟨[], rfl, .done⟩
  | @next n x _ _ _ _ _ _ _ _ _ _ _ _ hchild _ ihnode ih =>
    obtain ⟨xs, hgiven, hxs⟩ := ih
    refine ⟨x :: xs, ?_, .next ihnode hxs⟩
    rw [List.foldlM_cons, hchild]
    exact hgiven
  | stop htype hskip => exact ⟨[], rfl, .stop htype hskip⟩
  | @more x _ _ _ _ _ _ _ _ _ _ _ _ htype hty _ hchild _ ihnode ih =>
    obtain ⟨xs, hgiven, hxs⟩ := ih
    refine ⟨x :: xs, ?_, .more htype hty ihnode hxs⟩
    rw [List.foldlM_cons, hchild]
    exact hgiven

theorem decodeTree_induction {P : T → (bs rest : Bytes) → List (Ending t) → Prop} {x : T} {ctx ctx' : C}
    {bs rest : Bytes}
    (hnode : ∀ {p p' : t.Builder} {a : Arity} {x : T} {xs : List T} {ctx ctx₁ ctx₂ ctx₃ : C} {bs mid mid' rest : Bytes}
      {ends : List (Ending t)}, (t.begin ctx).run bs = (.ok ((p, a), ctx₁), mid) → xs.foldlM t.child p = .ok p' →
      Siblings m P a xs mid mid' ends → (t.endNode p' ctx₂).run mid' = (.ok (x, ctx₃), rest) →
      P x bs rest (⟨p', mid', rest⟩ :: ends))
    (h : decodeTree t m ctx bs = (.ok (x, ctx'), rest)) : ∃ ends, P x bs rest ends := by
  obtain ⟨ends, hderived⟩ := decodeTree_iff.1 h
  exact ⟨ends, hderived.induction hnode⟩

open Cbor Cbor.Decoder in
/-- So many data items stand at the bytes, and end as the arity asks. -/
def Fills (bs rest : Bytes) (n : ℕ) : Arity → Prop
  | .leaf => n = 0 ∧ rest = bs
  | .fixed k => n = k ∧ Reads (.items n) bs rest
  | .indefinite => Reads (.items n) bs (0xff :: rest)

open Cbor Cbor.Decoder in
theorem Siblings.fills {P : T → (bs rest : Bytes) → List (Ending t) → Prop} {a : Arity} {xs : List T} {bs rest : Bytes}
    {ends : List (Ending t)} (hm : m.Lawful) (h : Siblings m P a xs bs rest ends)
    (hitem : ∀ {x bs rest ends'}, P x bs rest ends' → ends' ⊆ ends → Reads .item bs rest) :
    Fills bs rest xs.length a := by
  induction h with
  | leaf => exact ⟨rfl, rfl⟩
  | done => exact ⟨rfl, .none⟩
  | next hnode _ ih =>
    have hfirst := hitem hnode (List.subset_append_left _ _)
    obtain ⟨hlen, hrest⟩ := ih fun hx hsub => hitem hx (List.subset_append_of_subset_right _ hsub)
    exact ⟨congrArg (· + 1) hlen, .next hfirst hrest⟩
  | stop htype hskip =>
    obtain ⟨tail, rfl⟩ := (hm.datatype_break _).1 htype
    rw [hm.skip_break] at hskip
    cases hskip
    exact .none
  | more _ _ hnode _ ih =>
    have hfirst := hitem hnode (List.subset_append_left _ _)
    have hrest := ih fun hx hsub => hitem hx (List.subset_append_of_subset_right _ hsub)
    exact .next hfirst hrest

open Cbor Cbor.Decoder in
theorem Siblings.fills_iff {P : T → (bs rest : Bytes) → List (Ending t) → Prop} {good : Ending t → Prop} {a : Arity}
    {xs : List T} {bs rest stop : Bytes} {ends : List (Ending t)} (hm : m.Lawful) (h : Siblings m P a xs bs rest ends)
    (hP : ∀ {x bs rest ends'}, P x bs rest ends' → ∀ stop, Reads .item bs stop ↔ stop = rest ∧ ∀ e ∈ ends', good e) :
    (∃ n, Fills bs stop n a) ↔ stop = rest ∧ ∀ e ∈ ends, good e := by
  induction h with
  | leaf => simp [Fills]
  | done =>
    constructor
    · rintro ⟨n, rfl, h⟩
      cases h with
      | none => simp
      | stop hg => cases hg
    · rintro ⟨rfl, -⟩
      exact ⟨0, rfl, .none⟩
  | next hnode _ ih =>
    simp only [List.mem_append, or_imp, forall_and]
    constructor
    · rintro ⟨n, rfl, h⟩
      cases h with
      | next hitem h =>
        obtain ⟨rfl, hgood⟩ := (hP hnode _).1 hitem
        obtain ⟨rfl, hgood'⟩ := ih.1 ⟨_, rfl, h⟩
        exact ⟨rfl, hgood, hgood'⟩
      | stop hg => cases hg
    · rintro ⟨rfl, hgood, hgood'⟩
      obtain ⟨n, rfl, h⟩ := ih.2 ⟨rfl, hgood'⟩
      exact ⟨_, rfl, .next ((hP hnode _).2 ⟨rfl, hgood⟩) h⟩
  | stop htype hskip =>
    obtain ⟨tail, rfl⟩ := (hm.datatype_break _).1 htype
    rw [hm.skip_break] at hskip
    cases hskip
    constructor
    · rintro ⟨n, h⟩
      have h' : Reads (.items n) (0xff :: _) (0xff :: stop) := h
      cases h' with
      | none => simp
      | next hitem _ => exact absurd hitem Reads.not_break
      | stop hg => cases hg
    · rintro ⟨rfl, -⟩
      exact ⟨0, .none⟩
  | more htype hty hnode _ ih =>
    simp only [List.mem_append, or_imp, forall_and]
    constructor
    · rintro ⟨n, h⟩
      have h' : Reads (.items n) _ (0xff :: stop) := h
      cases h' with
      | none =>
        rw [(hm.datatype_break _).2 ⟨stop, rfl⟩] at htype
        cases htype
        exact absurd rfl hty
      | next hitem h =>
        obtain ⟨rfl, hgood⟩ := (hP hnode _).1 hitem
        obtain ⟨rfl, hgood'⟩ := ih.1 ⟨_, h⟩
        exact ⟨rfl, hgood, hgood'⟩
      | stop hg => cases hg
    · rintro ⟨rfl, hgood, hgood'⟩
      obtain ⟨n, h⟩ := ih.2 ⟨rfl, hgood'⟩
      have h' : Reads (.items n) _ (0xff :: stop) := h
      exact ⟨n + 1, .next ((hP hnode _).2 ⟨rfl, hgood⟩) h'⟩

section Lengths
variable {P : T → (bs rest : Bytes) → List (Ending t) → Prop} {a : Arity} {xs : List T} {bs rest : Bytes}
  {ends : List (Ending t)}

/-- Children that consume input are not more than there are bytes. -/
theorem Siblings.length_le (h : Siblings m P a xs bs rest ends)
    (hlt : ∀ {x bs rest ends}, P x bs rest ends → rest.length < bs.length) : xs.length + rest.length ≤ bs.length := by
  induction h with
  | leaf => simp
  | done => simp
  | next hnode _ ih =>
    have hfirst := hlt hnode
    rw [List.length_cons]
    omega
  | stop _ hskip =>
    have hle := Reader.length_le hskip
    rw [List.length_nil]
    omega
  | more _ _ hnode _ ih =>
    have hfirst := hlt hnode
    rw [List.length_cons]
    omega

/-- Each child stands somewhere in those bytes. -/
theorem Siblings.mem (h : Siblings m P a xs bs rest ends)
    (hlt : ∀ {x bs rest ends}, P x bs rest ends → rest.length < bs.length) :
    ∀ x ∈ xs, ∃ bs' rest' ends', P x bs' rest' ends' ∧ bs'.length ≤ bs.length := by
  induction h with
  | leaf => simp
  | done => simp
  | stop _ _ => simp
  | next hnode _ ih | more _ _ hnode _ ih =>
    have hfirst := hlt hnode
    intro y hy
    rcases List.mem_cons.1 hy with rfl | hy
    · exact ⟨_, _, _, hnode, le_refl _⟩
    · obtain ⟨bs', rest', ends', hy', hle⟩ := ih y hy
      exact ⟨bs', rest', ends', hy', by omega⟩

end Lengths

end Derivations

/-! ### Failing -/

/-- A reader fails with an error of the format only. -/
def Proper {α : Type} (x : Reader (Fault ε) α) : Prop := ∀ bs f rest, x.run bs = (.error f, rest) → ∃ e, f = .error e

section Proper
variable {α β : Type}

theorem proper_pure (a : α) : Proper (pure a : Reader (Fault ε) α) := fun _ _ _ h => nomatch h

theorem proper_lift (x : Reader ε α) : Proper (Minicbor.lift x) := fun _ _ _ h => Reader.mapError_eq_error h

theorem Proper.bind {x : Reader (Fault ε) α} {k : α → Reader (Fault ε) β} (hx : Proper x) (hk : ∀ a, Proper (k a)) :
    Proper (x >>= k) := by
  intro bs f rest h
  rcases Reader.bind_eq_error h with hfail | ⟨a, mid, -, hfail⟩
  · exact hx _ _ _ hfail
  · exact hk a _ _ _ hfail

end Proper

/-- Callbacks that do not panic: `takes` says of a builder that it takes children, as the builders of nodes do that
announce some. -/
structure Tame (t : TreeDecode C ε T) (takes : t.Builder → Prop) : Prop where
  begin_proper : ∀ ctx, Proper (t.begin ctx)
  begin_takes : ∀ {ctx bs p a ctx' rest}, (t.begin ctx).run bs = (.ok ((p, a), ctx'), rest) → a ≠ .leaf → takes p
  child_takes : ∀ {p x}, takes p → ∃ p', t.child p x = .ok p' ∧ takes p'
  end_proper : ∀ p ctx, Proper (t.endNode p ctx)

section Failing
variable {t : TreeDecode C ε T} {m : Minicbor ε} {takes : t.Builder → Prop}

/-- The recursion, with enough fuel, fails with an error of the format only. -/
structure FailsProperly (m : Minicbor ε) (takes : t.Builder → Prop) (fuel : ℕ) : Prop where
  node : ∀ {ctx bs f rest}, 2 * bs.length + 1 ≤ fuel → (decodeRec t m fuel ctx).run bs = (.error f, rest) →
    ∃ e, f = .error e
  children : ∀ {a p ctx bs f rest}, 2 * bs.length + 2 ≤ fuel → (a ≠ .leaf → takes p) →
    (decodeChildren t m fuel a p ctx).run bs = (.error f, rest) → ∃ e, f = .error e

theorem FailsProperly.child (ht : Tame t takes) {fuel : ℕ} (ih : FailsProperly m takes fuel) {a : Arity} {p : t.Builder}
    {ctx : C} {bs rest : Bytes} {f : Fault ε} (hfuel : 2 * bs.length + 1 ≤ fuel) (hp : takes p)
    (h : (do
      let (x, ctx) ← decodeRec t m fuel ctx
      let p ← .ofExcept (t.child p x)
      decodeChildren t m fuel a p ctx :
    Reader (Fault ε) (t.Builder × C)).run bs = (.error f, rest)) : ∃ e, f = .error e := by
  rcases Reader.bind_eq_error h with hnode | ⟨⟨x, ctx'⟩, mid, hnode, hafter⟩
  · exact ih.node hfuel hnode
  obtain ⟨p', hchild, hp'⟩ := ht.child_takes (x := x) hp
  have hlt := decodeRec_consumes hnode
  rcases Reader.bind_eq_error hafter with hfail | ⟨p₁, mid', hrun, hothers⟩
  · rw [hchild] at hfail
    cases hfail
  · rw [hchild] at hrun
    cases hrun
    exact ih.children (by omega) (fun _ => hp') hothers

theorem failsProperly (ht : Tame t takes) (fuel : ℕ) : FailsProperly m takes fuel := by
  induction fuel with
  | zero =>
    refine ⟨?_, ?_⟩
    · intro ctx bs f rest hfuel
      omega
    · intro a p ctx bs f rest hfuel
      omega
  | succ fuel ih =>
    refine ⟨?_, ?_⟩
    · intro ctx bs f rest hfuel h
      rcases Reader.bind_eq_error h with hbegin | ⟨⟨⟨p, a⟩, ctx₁⟩, mid, hbegin, hafter⟩
      · exact ht.begin_proper _ _ _ _ hbegin
      have hlt := t.begin_consumes _ _ _ _ hbegin
      rcases Reader.bind_eq_error hafter with hchildren | ⟨⟨p', ctx₂⟩, mid', -, hend⟩
      · exact ih.children (by omega) (ht.begin_takes hbegin) hchildren
      · exact ht.end_proper _ _ _ _ _ hend
    · intro a p ctx bs f rest hfuel hp h
      match a with
      | .leaf => cases h
      | .fixed 0 => cases h
      | .fixed (n + 1) => exact ih.child ht (by omega) (hp (by simp)) h
      | .indefinite =>
        rcases Reader.bind_eq_error h with hpeek | ⟨ty, mid, hpeek, hafter⟩
        · exact proper_lift _ _ _ _ hpeek
        obtain ⟨-, rfl⟩ := Minicbor.run_peekType_eq_ok.1 (Minicbor.run_lift_eq_ok.1 hpeek)
        split at hafter
        · exact (proper_lift _).bind (fun _ => proper_pure _) _ _ _ hafter
        · exact ih.child ht (by omega) (hp (by simp)) hafter

theorem decodeTree_proper (ht : Tame t takes) {ctx : C} {bs : Bytes}
    (h : ∀ r rest, decodeTree t m ctx bs ≠ (.ok r, rest)) :
    ∃ e rest, decodeTree t m ctx bs = (.error (.error e), rest) := by
  rcases hrun : decodeTree t m ctx bs with ⟨f | r, rest⟩
  · rw [decodeTree_eq_decodeRec _ _ _ _ 0] at hrun
    obtain ⟨e, rfl⟩ := (failsProperly ht _).node (by omega) hrun
    exact ⟨e, rest, rfl⟩
  · exact absurd hrun (h r rest)

end Failing

/-! ### Reading back what was written -/

/-- What follows the children of a node, by the arity that its header announces. -/
inductive Closing : Arity → (count : ℕ) → Bytes → Prop where
  | leaf : Closing .leaf 0 []
  | fixed (n : ℕ) : Closing (.fixed n) n []
  | indefinite (n : ℕ) : Closing .indefinite n [0xff]

/-- A way to write nodes that the callbacks of a tree decoder read back: the bytes in front of the children and behind
them, the arity that the header gives, and the builder of a node that has been given some of its children. `ok` is what
is asked of a node. -/
structure Written [FiniteTree T] (t : TreeDecode C ε T) (m : Minicbor ε) (ok : T → Prop) where
  enter : T → Bytes
  exit : T → Bytes
  announced : T → Arity
  opened : T → List T → t.Builder
  begin_enter : ∀ x ctx rest, ok x → (t.begin ctx).run (enter x ++ rest) = (.ok ((opened x [], announced x), ctx), rest)
  child_opened : ∀ x xs y, y ∈ children x → t.child (opened x xs) y = .ok (opened x (xs ++ [y]))
  end_opened : ∀ x ctx rest, ok x → (t.endNode (opened x (children x)) ctx).run rest = (.ok (x, ctx), rest)
  closing : ∀ x, ok x → Closing (announced x) (children x).length (exit x)
  not_break : ∀ x rest, ok x → ∃ ty, m.datatype (enter x ++ rest) = .ok ty ∧ ty ≠ .break

namespace Written
variable [FiniteTree T] {t : TreeDecode C ε T} {m : Minicbor ε} {ok : T → Prop} (w : Written t m ok)
  {encode : T → Bytes}

theorem children_fixed {x : T} {xs ys : List T} (ctx : C) (rest : Bytes) (hx : ∀ y ∈ ys, y ∈ children x)
    (ih : ∀ y ∈ ys, ∀ rest, ∃ ends, Decodes t m (.node y) ctx ctx (encode y ++ rest) rest ends) :
    ∃ ends, Decodes t m (.children (.fixed ys.length) (w.opened x xs) (w.opened x (xs ++ ys))) ctx ctx
      (ys.flatMap encode ++ rest) rest ends := by
  induction ys generalizing xs with
  | nil => exact ⟨[], by rw [List.append_nil]; exact .done⟩
  | cons y ys ihys =>
    obtain ⟨ends, hy⟩ := ih y List.mem_cons_self (ys.flatMap encode ++ rest)
    obtain ⟨ends', hys⟩ := @ihys (xs ++ [y]) (fun z hz => hx z (List.mem_cons_of_mem y hz))
      fun z hz => ih z (List.mem_cons_of_mem y hz)
    rw [List.append_assoc, List.singleton_append] at hys
    rw [List.flatMap_cons, List.append_assoc]
    exact ⟨_, .next hy (w.child_opened x xs y (hx y List.mem_cons_self)) hys⟩

/-- Those of a node of indefinite length: none of them begins with a break, and one follows them. -/
theorem children_indefinite (hm : m.Lawful)
    (hencode : ∀ x, encode x = w.enter x ++ (children x).flatMap encode ++ w.exit x) {x : T} {xs ys : List T} (ctx : C)
    (rest : Bytes) (hx : ∀ y ∈ ys, y ∈ children x) (hok : ∀ y ∈ ys, ok y)
    (ih : ∀ y ∈ ys, ∀ rest, ∃ ends, Decodes t m (.node y) ctx ctx (encode y ++ rest) rest ends) :
    ∃ ends, Decodes t m (.children .indefinite (w.opened x xs) (w.opened x (xs ++ ys))) ctx ctx
      (ys.flatMap encode ++ 0xff :: rest) rest ends := by
  induction ys generalizing xs with
  | nil =>
    rw [List.append_nil]
    exact ⟨[], .stop ((hm.datatype_break _).2 ⟨rest, rfl⟩) (hm.skip_break rest)⟩
  | cons y ys ihys =>
    obtain ⟨ends, hy⟩ := ih y List.mem_cons_self (ys.flatMap encode ++ 0xff :: rest)
    obtain ⟨ends', hys⟩ := @ihys (xs ++ [y]) (fun z hz => hx z (List.mem_cons_of_mem y hz))
      (fun z hz => hok z (List.mem_cons_of_mem y hz)) fun z hz => ih z (List.mem_cons_of_mem y hz)
    obtain ⟨ty, htype, hty⟩ :=
      w.not_break y ((children y).flatMap encode ++ (w.exit y ++ (ys.flatMap encode ++ 0xff :: rest)))
      (hok y List.mem_cons_self)
    simp only [← List.append_assoc] at htype
    rw [← hencode] at htype
    simp only [List.append_assoc] at htype
    rw [List.append_assoc, List.singleton_append] at hys
    rw [List.flatMap_cons, List.append_assoc]
    exact ⟨_, .more htype hty hy (w.child_opened x xs y (hx y List.mem_cons_self)) hys⟩

theorem decodes (hm : m.Lawful) (hencode : ∀ x, encode x = w.enter x ++ (children x).flatMap encode ++ w.exit x) {x : T}
    (hok : Everywhere ok x) (ctx : C) (rest : Bytes) :
    ∃ ends, Decodes t m (.node x) ctx ctx (encode x ++ rest) rest ends := by
  induction x using FiniteTree.induction generalizing rest with
  | h x ih =>
    have hbelow : ∀ y ∈ children x, ∀ rest, ∃ ends, Decodes t m (.node y) ctx ctx (encode y ++ rest) rest ends :=
      fun y hy rest => ih y hy (hok.child hy) rest
    have hchildren : ∃ ends, Decodes t m (.children (w.announced x) (w.opened x []) (w.opened x (children x))) ctx ctx
        ((children x).flatMap encode ++ w.exit x ++ rest) rest ends := by
      have hclosing := w.closing x hok.here
      generalize hlen : (children x).length = n at hclosing
      generalize w.announced x = a at hclosing ⊢
      generalize w.exit x = close at hclosing ⊢
      cases hclosing with
      | leaf =>
        rw [List.length_eq_zero_iff.1 hlen]
        exact ⟨[], .leaf⟩
      | fixed =>
        obtain ⟨ends, h⟩ := @children_fixed _ _ _ _ _ _ _ w encode x [] (children x) ctx rest (fun _ hy => hy) hbelow
        rw [List.nil_append, hlen] at h
        rw [List.append_nil]
        exact ⟨ends, h⟩
      | indefinite =>
        obtain ⟨ends, h⟩ := @children_indefinite _ _ _ _ _ _ _ w encode hm hencode x []
          (children x) ctx rest (fun _ hy => hy)
          (fun y hy => (hok.child hy).here) hbelow
        rw [List.nil_append] at h
        rw [List.append_assoc]
        exact ⟨ends, h⟩
    obtain ⟨ends, h⟩ := hchildren
    have hbegin := w.begin_enter x ctx ((children x).flatMap encode ++ w.exit x ++ rest) hok.here
    rw [hencode x, List.append_assoc, List.append_assoc, ← List.append_assoc _ _ rest]
    exact ⟨_, .node hbegin h (w.end_opened x ctx rest hok.here)⟩

theorem decodeTree (hm : m.Lawful)
    (hencode : ∀ x, encode x = w.enter x ++ (children x).flatMap encode ++ w.exit x) {x : T}
    (hok : Everywhere ok x) (ctx : C) (rest : Bytes) :
    TreeDecode.decodeTree t m ctx (encode x ++ rest) = (.ok (x, ctx), rest) :=
  decodeTree_iff.2 (w.decodes hm hencode hok ctx rest)

end Written
end TreeDecode
end Pallas
