import Pallas.NativeScript.RoundTrip
import Pallas.Plutus.Items
import Pallas.Plutus.Order
import Pallas.TxBuilder.Conway

/-!
# The data and the scripts that the builder decodes

Datums, redeemers and native scripts are given as bytes, and `decode_fragment` is run on them. It does not panic, whatever
the bytes (`decodePlutusData_ne_panic`, `decodeNativeScript_ne_panic`). A value it returns is one that the Rust type holds, and
is read back from the bytes it is written out as; so no such encoding begins another one (`encode_append_inj`).
-/

namespace Pallas
open Cbor Cbor.Decoder TreeDecode

/-! ### Plutus data -/

namespace PlutusData
variable {C ε : Type} {m : Minicbor ε}

theorem tame (hm : m.Lawful) : Tame (node (C := C) hm) fun p => ∀ y, p ≠ .leaf y where
  begin_proper ctx := (proper_lift _).bind fun _ => proper_pure _
  begin_takes h ha := by
    obtain ⟨hbegins, -⟩ := (run_node_begin hm).1 h
    intro y hy
    cases hbegins with
    | bigInt | boundedBytes => exact ha rfl
    | _ => cases hy
  child_takes {p x} hp := by
    cases p with
    | leaf y => exact absurd rfl (hp y)
    | array indefinite items => exact ⟨_, rfl, fun _ => Partial.noConfusion⟩
    | map indefinite items => exact ⟨_, rfl, fun _ => Partial.noConfusion⟩
    | constr tag anyConstructor indefinite fields => exact ⟨_, rfl, fun _ => Partial.noConfusion⟩
  end_proper p ctx := by
    intro bs f rest h
    rcases Reader.bind_eq_error h with hend | ⟨x, mid, -, hreturn⟩
    · have hfail : p.end m = .error f := (Prod.mk.inj hend).1
      cases p with
      | map indefinite items =>
        rw [Partial.end] at hfail
        split at hfail
        · cases hfail
          exact ⟨_, rfl⟩
        · cases hfail
      | _ => cases hfail
    · cases hreturn

/-- A builder with these children more. -/
def Partial.push : Partial → List PlutusData → Partial
  | .leaf x, _ => .leaf x
  | .array indefinite items, xs => .array indefinite (items ++ xs)
  | .map indefinite items, xs => .map indefinite (items ++ xs)
  | .constr t i indefinite fields, xs => .constr t i indefinite (fields ++ xs)

theorem push_of_child {p p' : Partial} {xs : List PlutusData}
    (h : xs.foldlM Partial.child p = (.ok p' : Except (Fault ε) Partial)) : p' = p.push xs := by
  induction xs generalizing p with
  | nil =>
    cases h
    cases p' <;> simp [Partial.push]
  | cons x xs ih =>
    rw [List.foldlM_cons] at h
    cases p with
    | leaf y => cases h
    | _ =>
      rw [ih h]
      simp [Partial.push]

theorem fits_leaf {x : PlutusData} (hx : FitsNode x) (hleaf : children x = []) : Fits x := by
  refine .node hx fun c hc => ?_
  rw [show FiniteTree.children x = [] from hleaf] at hc
  cases hc

/-- A node that the builder ends with is one that the Rust type holds, given that its children are and are not too many. -/
theorem fits_of_begins {p : Partial} {a : Arity} {bs mid : Bytes} {x : PlutusData} {xs : List PlutusData}
    (hbegins : Begins bs p a mid) (hend : (p.push xs).end m = .ok x) (hbs : bs.length < 2 ^ 63)
    (hlen : xs.length ≤ bs.length) (hxs : ∀ y ∈ xs, Fits y) : Fits x := by
  -- the items of a map, in pairs
  have hmap : ∀ {indefinite : Bool}, (Partial.map indefinite xs).end m = .ok x → Fits x := by
    intro indefinite h
    have heven : xs.length % 2 = 0 := end_ok h rfl
    rw [Partial.end, if_neg (not_not.2 heven)] at h
    cases h
    have hitems := alternate_pairs heven
    have hcount := length_alternate (pairs xs)
    rw [hitems] at hcount
    refine .node (show (pairs xs).length < 2 ^ 63 by omega) fun c hc => hxs c ?_
    rwa [← hitems]
  cases hbegins with
  | bigInt h =>
    cases hend
    refine fits_leaf ?_ rfl
    cases h with
    | uint hhead =>
      have hlt := header_lt hhead
      exact ⟨by omega, by omega⟩
    | nint hhead =>
      have hlt := header_lt hhead
      exact ⟨by omega, by omega⟩
    | bigUInt htag hs =>
      have hle := hs.length_le
      have htaglen := header_length htag
      exact show _ < 2 ^ 63 by omega
    | bigNInt htag hs =>
      have hle := hs.length_le
      have htaglen := header_length htag
      exact show _ < 2 ^ 63 by omega
  | boundedBytes hs =>
    cases hend
    have hle := hs.length_le
    exact fits_leaf (show _ < 2 ^ 63 by omega) rfl
  | array hhead =>
    cases hend
    exact .node (show xs.length < 2 ^ 63 by omega) hxs
  | map hhead _ => exact hmap hend
  | mapIndef hhead => exact hmap hend
  | compact =>
    cases hend
    exact .node (show xs.length < 2 ^ 63 by omega) hxs
  | general =>
    cases hend
    exact .node (show xs.length < 2 ^ 63 by omega) hxs

theorem decode_fits (hm : m.Lawful) {ctx ctx' : C} {bs rest : Bytes} {x : PlutusData}
    (h : decode hm ctx bs = (.ok (x, ctx'), rest)) (hbs : bs.length < 2 ^ 63) : Fits x := by
  have hnodes := decodeTree_induction
    (P := fun x bs rest _ => rest.length < bs.length ∧ (bs.length < 2 ^ 63 → Fits x)) ?_ h
  · obtain ⟨-, -, hfits⟩ := hnodes
    exact hfits hbs
  intro p p' a x xs ctx ctx₁ ctx₂ ctx₃ bs mid mid' rest ends hbegin hgiven hxs hend
  obtain ⟨hbegins, -⟩ := (run_node_begin hm).1 hbegin
  obtain ⟨x', mid'', hclose, hreturn⟩ := Reader.bind_eq_ok.1 hend
  obtain ⟨hclose', rfl⟩ := Prod.mk.inj hclose
  cases hreturn
  obtain rfl := push_of_child hgiven
  have hlt := hbegins.length_lt
  have hlen := hxs.length_le fun hx => hx.1
  refine ⟨by omega, fun hbs => fits_of_begins hbegins hclose' hbs (by omega) ?_⟩
  intro y hy
  obtain ⟨bs', rest', ends', ⟨-, hfits⟩, hle'⟩ := hxs.mem (fun hx => hx.1) y hy
  exact hfits (by omega)

theorem decode_encode_decoded (hm : m.Lawful) {ctx ctx' : C} {bs rest : Bytes} {x : PlutusData}
    (h : decode hm ctx bs = (.ok (x, ctx'), rest)) (hbs : bs.length < 2 ^ 63) (rest' : Bytes) :
    decode hm ctx (encode x ++ rest') = (.ok (x, ctx), rest') := by
  have hok : ConstrOk x := (decode_sound h).imp fun y hy => hy.1
  have hback := (decode_encode hm (decode_fits hm h hbs) hok ctx rest').2
  rwa [encodeTree_eq] at hback

end PlutusData

/-! ### Native scripts -/

namespace NativeScript
variable {C ε : Type} {m : MinicborScript ε}

theorem proper_beginFields {variant : Int64} {required : UInt64} (h : fieldCount variant = some required) :
    Proper (beginFields m variant) := by
  unfold beginFields
  repeat' split
  · exact (proper_lift _).bind fun _ => proper_pure _
  · exact proper_pure _
  · exact proper_pure _
  · exact (proper_lift _).bind fun _ => proper_pure _
  · exact (proper_lift _).bind fun _ => proper_pure _
  · exact (proper_lift _).bind fun _ => proper_pure _
  · simp_all [fieldCount]

theorem proper_throw {α : Type} (e : ε) : Proper (.throw (.error e) : Reader (Fault ε) α) := by
  intro bs f rest h
  cases h
  exact ⟨e, rfl⟩

theorem proper_position : Proper (Minicbor.position : Reader (Fault ε) Bytes) := fun _ _ _ h => nomatch h

theorem proper_beginVariant (start : Bytes) (len : UInt64) : Proper (beginVariant m start len) := by
  refine proper_position.bind fun variantPosition => (proper_lift _).bind fun variant => ?_
  cases hcount : fieldCount variant with
  | none => exact proper_throw _
  | some required =>
    show Proper (if len < required then _ else _)
    split
    · exact proper_throw _
    · exact (proper_beginFields hcount).bind fun script => (proper_lift _).bind fun _ => proper_pure _

theorem proper_begin : Proper (begin m) := by
  refine proper_position.bind fun position => (proper_lift _).bind fun len => ?_
  cases len with
  | none => exact proper_throw _
  | some len =>
    show Proper (if len = 0 then _ else _)
    split
    · exact proper_throw _
    · exact proper_beginVariant position len

theorem tame (hm : m.Lawful) : Tame (node (C := C) hm) fun b : Builder => b.script.childrenMut.isSome where
  begin_proper ctx := proper_begin.bind fun _ => proper_pure _
  begin_takes h ha := by
    obtain ⟨hbegins, -⟩ := (run_node_begin hm).1 h
    cases hbegins with
    | intro hlen hvariant hcount henough hfields hopens =>
      cases hopens with
      | leaf => exact absurd rfl ha
      | list hchildren => exact Option.isSome_of_eq_some hchildren
  child_takes {b x} hb := by
    obtain ⟨xs, hxs⟩ := Option.isSome_iff_exists.1 hb
    refine ⟨{ b with script := b.script.rebuild (xs ++ [x]) }, child_of_some hxs x, ?_⟩
    show (b.script.rebuild (xs ++ [x])).childrenMut.isSome
    cases hscript : b.script <;> simp_all [childrenMut, rebuild]
  end_proper b ctx := (proper_lift _).bind fun _ => proper_pure _

end NativeScript

/-! ### What the builder is given -/

namespace TxBuilder
variable {ε : Type} (p : Platform ε)

theorem decodeFragment_eq_ok {T : Type} {e : TxBuilderError} {r : Decoded Unit ε T} {x : T} :
    decodeFragment e r = .ok x ↔ ∃ rest, r = (.ok (x, ()), rest) := by
  rcases r with ⟨(_ | _ | _) | ⟨y, ⟨⟩⟩, rest⟩ <;> simp [decodeFragment]

theorem decodeFragment_ne_panic {T : Type} {t : TreeDecode Unit ε T} {m : Minicbor ε} {takes : t.Builder → Prop}
    (ht : Tame t takes) {e : TxBuilderError} {bs : Bytes} : decodeFragment e (decodeTree t m () bs) ≠ .panic := by
  rcases hrun : decodeTree t m () bs with ⟨f | r, rest⟩
  · have hne : ∀ r rest', decodeTree t m () bs ≠ (.ok r, rest') := fun r rest' h => by simp [hrun] at h
    obtain ⟨e', rest', heq⟩ := decodeTree_proper ht hne
    rw [hrun] at heq
    cases heq
    simp [decodeFragment]
  · simp [decodeFragment]

@[simp] theorem decodePlutusData_ne_panic (bytes : Bytes) : decodePlutusData p bytes ≠ .panic :=
  decodeFragment_ne_panic (PlutusData.tame p.lawful.toLawful)

@[simp] theorem decodeNativeScript_ne_panic (bytes : Bytes) : decodeNativeScript p bytes ≠ .panic :=
  decodeFragment_ne_panic (NativeScript.tame p.lawful)

end TxBuilder
end Pallas
