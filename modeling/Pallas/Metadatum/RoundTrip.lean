import Pallas.Metadatum.Decode

/-!
# Metadata there and back

What the encoder writes at its visits is what the callbacks of the decoder read (`written`), so a metadatum is read back
from its bytes in front of anything. In the other direction, everything that is decoded is one data item and a value that
the Rust type holds, so it is read back as well.
-/

namespace Pallas
open Cbor Cbor.Decoder TreeDecode
namespace Metadatum

/-! ### What the encoder writes -/

/-- The children that the header of a node announces. -/
def announced : Metadatum → Arity
  | array xs => .fixed xs.length
  | map true kvs => .fixed (2 * kvs.length)
  | map false _ => .indefinite
  | int _ => .leaf
  | bytes _ => .leaf
  | text _ => .leaf

/-- The builder of a node that has been given some children. -/
def opened : Metadatum → List Metadatum → Partial
  | array _, xs => .array xs
  | map definite _, xs => .map (!definite) xs
  | int z, _ => .leaf (int z)
  | bytes bs, _ => .leaf (bytes bs)
  | text s, _ => .leaf (text s)

theorem begins_encode (rest : Bytes) {x : Metadatum} (hfits : FitsNode x) :
    Begins (encodeVisit (.enter x) ++ rest) (opened x []) (announced x) rest := by
  cases x with
  | int z =>
    obtain ⟨hlow, hhigh⟩ := hfits
    rw [encodeVisit, Cbor.int]
    split
    · have hz : ((z.toNat : ℕ) : ℤ) = z := by omega
      have hhead : header 0 (Cbor.head 0 z.toNat ++ rest) = some (some z.toNat, rest) :=
        header_head (by omega) (by omega)
      have hbegins := Begins.uint hhead
      rwa [hz] at hbegins
    · have hz : -1 - (((-1 - z).toNat : ℕ) : ℤ) = z := by omega
      have hhead : header 1 (Cbor.head 1 (-1 - z).toNat ++ rest) = some (some (-1 - z).toNat, rest) :=
        header_head (by omega) (by omega)
      have hbegins := Begins.nint hhead
      rwa [hz] at hbegins
  | bytes bs =>
    have hlen : bs.length < 2 ^ 63 := hfits
    rw [encodeVisit, Cbor.bytes, List.append_assoc]
    exact .bytes (.definite (header_head (by omega) (by omega)) (take_append bs rest))
  | text s =>
    have hlen : (utf8 s).length < 2 ^ 63 := hfits
    exact .text (.of_encodeText rest (by omega))
  | array xs =>
    have hlen : xs.length < 2 ^ 63 := hfits
    have htoNat : (UInt64.ofNat xs.length).toNat = xs.length :=
      UInt64.toNat_ofNat_of_lt' (show xs.length < 2 ^ 64 by omega)
    have hhead : header 4 (Cbor.array xs.length ++ rest) =
        some ((some (UInt64.ofNat xs.length)).map UInt64.toNat, rest) := by
      rw [Cbor.array, header_head (by omega) (by omega), Option.map_some, htoNat]
    have hbegins := Begins.array hhead
    rwa [Arity.ofLen, htoNat] at hbegins
  | map definite kvs =>
    have hlen : kvs.length < 2 ^ 63 := hfits
    cases definite with
    | true =>
      have htoNat : (UInt64.ofNat kvs.length).toNat = kvs.length :=
        UInt64.toNat_ofNat_of_lt' (show kvs.length < 2 ^ 64 by omega)
      have hhead : header 5 (Cbor.map kvs.length ++ rest) = some (some (UInt64.ofNat kvs.length).toNat, rest) := by
        rw [Cbor.map, header_head (by omega) (by omega), htoNat]
      have hbegins := Begins.map hhead (by omega)
      rwa [htoNat] at hbegins
    | false => exact .mapIndef (header_indef 5 (by omega))

section Ends
variable {ε : Type} {m : MinicborText ε}

theorem child_opened {x y : Metadatum} (h : y ∈ children x) (xs : List Metadatum) :
    (opened x xs).child y = (.ok (opened x (xs ++ [y])) : Except (Fault ε) Partial) := by
  cases x with
  | array _ => rfl
  | map _ _ => rfl
  | _ => exact absurd h (by simp [children])

theorem end_opened (x : Metadatum) : (opened x (children x)).end m = .ok x := by
  cases x with
  | map definite kvs =>
    have heven : ¬ (alternate kvs).length % 2 ≠ 0 := by
      rw [length_alternate]
      omega
    rw [opened, children, Partial.end, if_neg heven, pairs_alternate, Bool.not_not]
  | _ => rfl

theorem closing (x : Metadatum) : Closing (announced x) (children x).length (encodeVisit (.exit x)) := by
  cases x with
  | array xs => exact .fixed xs.length
  | map definite kvs =>
    cases definite with
    | true =>
      rw [children, length_alternate, mul_comm]
      exact .fixed _
    | false => exact .indefinite _
  | _ => exact .leaf

end Ends

variable {C ε : Type} {m : MinicborText ε}

/-- The callbacks of the decoder read what the visits of the encoder write. -/
def written (hm : m.Lawful) : Written (node (C := C) hm) m.toMinicbor FitsNode where
  enter x := encodeVisit (.enter x)
  exit x := encodeVisit (.exit x)
  announced := announced
  opened := opened
  begin_enter _ _ rest hx := (run_node_begin hm).2 ⟨begins_encode rest hx, rfl⟩
  child_opened _ xs _ hy := child_opened hy xs
  end_opened x _ _ _ := (run_node_end hm).2 ⟨end_opened x, rfl, rfl⟩
  closing x _ := closing x
  not_break _ rest hx := (begins_encode rest hx).datatype hm

theorem decode_encoded (hm : m.Lawful) {x : Metadatum} (hx : Fits x) (ctx : C) (rest : Bytes) :
    decode hm ctx (encode x ++ rest) = (.ok (x, ctx), rest) :=
  (written hm).decodeTree hm.toLawful encode_eq hx ctx rest

/-! ### What is decoded -/

/-- A map. -/
def Partial.isMap : Partial → Bool
  | .map _ _ => true
  | _ => false

/-- A builder with these children more. -/
def Partial.push : Partial → List Metadatum → Partial
  | .leaf x, _ => .leaf x
  | .array items, xs => .array (items ++ xs)
  | .map indefinite items, xs => .map indefinite (items ++ xs)

section Nodes
variable {bs mid rest : Bytes} {p p' : Partial} {a : Arity} {x : Metadatum} {xs : List Metadatum}

theorem push_of_child (h : xs.foldlM Partial.child p = (.ok p' : Except (Fault ε) Partial)) :
    p' = p.push xs ∧ (xs ≠ [] → ∀ y, p ≠ .leaf y) := by
  induction xs generalizing p with
  | nil =>
    cases h
    cases p' <;> simp [Partial.push]
  | cons x xs ih =>
    rw [List.foldlM_cons] at h
    cases p with
    | leaf y => cases h
    | array items =>
      obtain ⟨rfl, -⟩ := ih h
      simp [Partial.push]
    | map indefinite items =>
      obtain ⟨rfl, -⟩ := ih h
      simp [Partial.push]

theorem even_of_end {indefinite : Bool} {items : List Metadatum} (h : (Partial.map indefinite items).end m = .ok x) :
    items.length % 2 = 0 ∧ x = map (!indefinite) (pairs items) := by
  rw [Partial.end] at h
  split at h
  · cases h
  · next heven =>
    cases h
    exact ⟨not_not.1 heven, rfl⟩

theorem item_of_begins (hbegins : Begins bs p a mid) (hpairs : p.isMap = true → xs.length % 2 = 0)
    (h : Fills mid rest xs.length a) : Reads .item bs rest := by
  cases hbegins with
  | uint hhead =>
    obtain ⟨-, rfl⟩ := h
    exact .of_head hhead (by omega) rfl .none
  | nint hhead =>
    obtain ⟨-, rfl⟩ := h
    exact .of_head hhead (by omega) rfl .none
  | bytes hs =>
    obtain ⟨-, rfl⟩ := h
    exact .of_byteString hs
  | text hs =>
    obtain ⟨-, rfl⟩ := h
    exact hs.reads_item
  | @array len _ hhead =>
    cases len with
    | some n =>
      obtain ⟨hlen, h⟩ := h
      rw [hlen] at h
      exact .of_head hhead (by omega) rfl h
    | none => exact .of_head hhead (by omega) rfl (Reads.untilBreak_of_items h)
  | map hhead hlen =>
    obtain ⟨hlen, h⟩ := h
    rw [hlen] at h
    exact .of_head hhead (by omega) rfl h
  | mapIndef hhead =>
    have heven := hpairs rfl
    obtain ⟨n, hn⟩ : ∃ n, xs.length = 2 * n := ⟨xs.length / 2, by omega⟩
    have h' : Reads (.items xs.length) mid (0xff :: rest) := h
    rw [hn] at h'
    exact .of_head hhead (by omega) rfl h'.pairsUntilBreak_of_items

/-- A node that the builder ends with is one that the Rust type holds, given that its children are and are not too many. -/
theorem fits_of_begins (hbegins : Begins bs p a mid) (hend : (p.push xs).end m = .ok x) (hbs : bs.length < 2 ^ 63)
    (hlen : xs.length ≤ bs.length) (hxs : ∀ y ∈ xs, Fits y) : Fits x := by
  have hleaf : ∀ {y : Metadatum}, FitsNode y → children y = [] → Fits y := fun hy hnone =>
    .node hy fun c hc => absurd hc (by rw [show FiniteTree.children _ = [] from hnone]; simp)
  -- the items of a map, in pairs
  have hmap : ∀ {definite : Bool}, xs.length % 2 = 0 → Fits (map definite (pairs xs)) := by
    intro definite heven
    have hitems := alternate_pairs heven
    have hcount := length_alternate (pairs xs)
    rw [hitems] at hcount
    refine .node (show (pairs xs).length < 2 ^ 63 by omega) fun c hc => hxs c ?_
    rwa [← hitems]
  cases hbegins with
  | uint hhead =>
    cases hend
    have hlt := header_lt hhead
    exact hleaf ⟨by omega, by omega⟩ rfl
  | nint hhead =>
    cases hend
    have hlt := header_lt hhead
    exact hleaf ⟨by omega, by omega⟩ rfl
  | bytes hs =>
    cases hend
    have hle := hs.length_le
    exact hleaf (show _ < 2 ^ 63 by omega) rfl
  | text hs =>
    cases hend
    have hle := hs.length_utf8
    exact hleaf (show _ < 2 ^ 63 by omega) rfl
  | array hhead =>
    cases hend
    exact .node (show xs.length < 2 ^ 63 by omega) hxs
  | map hhead _ =>
    obtain ⟨heven, rfl⟩ := even_of_end hend
    exact hmap heven
  | mapIndef hhead =>
    obtain ⟨heven, rfl⟩ := even_of_end hend
    exact hmap heven

end Nodes

theorem decode_item (hm : m.Lawful) {ctx ctx' : C} {bs rest : Bytes} {x : Metadatum}
    (h : decode hm ctx bs = (.ok (x, ctx'), rest)) : Reads .item bs rest ∧ (bs.length < 2 ^ 63 → Fits x) := by
  have hnodes := decodeTree_induction (P := fun x bs rest _ => Reads .item bs rest ∧ (bs.length < 2 ^ 63 → Fits x)) ?_ h
  · obtain ⟨-, hx⟩ := hnodes
    exact hx
  intro p p' a x xs ctx ctx₁ ctx₂ ctx₃ bs mid mid' rest ends hbegin hgiven hxs hend
  obtain ⟨hbegins, -⟩ := (run_node_begin hm).1 hbegin
  obtain ⟨hclose, -, rfl⟩ := (run_node_end hm).1 hend
  obtain ⟨rfl, -⟩ := push_of_child hgiven
  have hitems := hxs.fills hm.toLawful fun hx _ => hx.1
  have hlen := hxs.length_le fun hx => hx.1.length_lt
  have hlt := hbegins.length_lt
  refine ⟨item_of_begins hbegins ?_ hitems, fun hbs => fits_of_begins hbegins hclose hbs (by omega) ?_⟩
  · intro hmap
    cases hbegins with
    | map | mapIndef => exact (even_of_end hclose).1
    | _ => cases hmap
  · intro y hy
    obtain ⟨bs', rest', ends', ⟨-, hfits⟩, hle⟩ := hxs.mem (fun hx => hx.1.length_lt) y hy
    exact hfits (by omega)

/-! ### Both directions -/

/-- The builders of arrays and maps take children, and nothing in the callbacks panics. -/
theorem tame (hm : m.Lawful) : Tame (node (C := C) hm) fun p => ∀ y, p ≠ .leaf y where
  begin_proper ctx := (proper_lift _).bind fun _ => proper_pure _
  begin_takes h ha := by
    obtain ⟨hbegins, -⟩ := (run_node_begin hm).1 h
    intro y hy
    cases hbegins with
    | array | map | mapIndef => cases hy
    | _ => exact ha rfl
  child_takes {p x} hp := by
    cases p with
    | leaf y => exact absurd rfl (hp y)
    | array items => exact ⟨_, rfl, fun _ hy => nomatch hy⟩
    | map indefinite items => exact ⟨_, rfl, fun _ hy => nomatch hy⟩
  end_proper p ctx := by
    intro bs f rest h
    rcases Reader.bind_eq_error h with hend | ⟨x, mid, -, hreturn⟩
    · have hfail : p.end m = .error f := (Prod.mk.inj hend).1
      cases p with
      | map indefinite items =>
        rw [Partial.end] at hfail
        split at hfail
        · cases hfail
          exact ⟨_, rfl⟩
        · cases hfail
      | _ => cases hfail
    · cases hreturn

/-- Every metadatum is read back from its bytes in front of any others. Whatever is decoded is one data item, and is read
back from its own bytes in turn. A map that ends after a key, wherever it stands in the bytes, is an error. -/
theorem codec_round_trip (hm : m.Lawful) (ctx : C) :
    (∀ x, Fits x → ∃ bs, encodeTree x = (.done (), bs) ∧ ∀ rest, decode hm ctx (bs ++ rest) = (.ok (x, ctx), rest)) ∧
    (∀ bs x ctx' rest, bs.length < 2 ^ 63 → decode hm ctx bs = (.ok (x, ctx'), rest) → Reads .item bs rest ∧
      ∃ bs', encodeTree x = (.done (), bs') ∧ ∀ rest', decode hm ctx (bs' ++ rest') = (.ok (x, ctx), rest')) ∧
    (∀ bs pos, Inside bs pos → OddMap pos → ∃ e rest, decode hm ctx bs = (.error (.error e), rest)) := by
  refine ⟨?_, ?_, ?_⟩
  · intro x hx
    exact ⟨encode x, encodeTree_eq x, decode_encoded hm hx ctx⟩
  · intro bs x ctx' rest hbs h
    obtain ⟨hitem, hfits⟩ := decode_item hm h
    exact ⟨hitem, encode x, encodeTree_eq x, decode_encoded hm (hfits hbs) ctx⟩
  · intro bs pos hinside hodd
    refine decodeTree_proper (tame hm) ?_
    rintro ⟨x, ctx'⟩ rest h
    exact hinside.not_item hodd (decode_item hm h).1

/-- A map of indefinite length with a string for its key, and an array with a negative integer and a map in it. -/
def nested : Metadatum := map false [(text "k", array [int (-1), map true []])]

theorem fits_nested : Fits nested := by
  have hleaf : ∀ {x : Metadatum}, FitsNode x → children x = [] → Fits x := fun hx hnone =>
    .node hx fun c hc => absurd hc (by rw [show FiniteTree.children _ = [] from hnone]; simp)
  have hitems : Fits (array [int (-1), map true []]) := by
    refine .node (by decide) fun c hc => ?_
    rcases List.mem_cons.1 hc with rfl | hc
    · exact hleaf ⟨by norm_num, by norm_num⟩ rfl
    · rw [List.mem_singleton.1 hc]
      exact hleaf (by decide) rfl
  refine .node (by decide) fun c hc => ?_
  rcases List.mem_cons.1 hc with rfl | hc
  · exact hleaf (by decide) rfl
  · rw [List.mem_singleton.1 hc]
    exact hitems

/-- An array of indefinite length, and inside one of definite length a map that ends after its key. -/
theorem nested_round_trip :
    (∃ bs, encodeTree nested = (.done (), bs) ∧
      ∀ rest, decode MinicborText.reference_lawful () (bs ++ rest) = (.ok (nested, ()), rest)) ∧
    (Reads .item [0x9f, 0x00, 0xff, 0x07] [0x07] ∧ ∃ bs', encodeTree (array [int 0]) = (.done (), bs') ∧
      ∀ rest', decode MinicborText.reference_lawful () (bs' ++ rest') = (.ok (array [int 0], ()), rest')) ∧
    ∃ e rest, decode MinicborText.reference_lawful () [0x81, 0xbf, 0x00, 0xff] = (.error (.error e), rest) := by
  obtain ⟨hencode, hdecode, hodd⟩ := codec_round_trip MinicborText.reference_lawful ()
  refine ⟨hencode nested fits_nested, hdecode _ _ () _ (by decide) ?_, ?_⟩
  · rw [decode, TreeDecode.decodeTree_eq_decodeRec _ _ _ _ 0]
    rfl
  · have hmap : header 5 [0xbf, 0x00, 0xff] = some (none, [0x00, 0xff]) := rfl
    have hkey : header 0 [0x00, 0xff] = some (some 0, [0xff]) := rfl
    have harray : header 4 [0x81, 0xbf, 0x00, 0xff] = some (some 1, [0xbf, 0x00, 0xff]) := rfl
    have hitems : Reads (.items 1) [0x00, 0xff] [0xff] := .next (.of_head hkey (by omega) rfl .none) .none
    have hinside : Inside [0x81, 0xbf, 0x00, 0xff] [0xbf, 0x00, 0xff] :=
      .nested harray rfl .none Nat.zero_lt_one (by decide) .here
    exact hodd _ _ hinside (.indefinite hmap hitems rfl)

end Metadatum
end Pallas
