import Pallas.NativeScript.Decode
import Pallas.Lib.CborNest
import Pallas.Lib.CborSkip

/-!
# Native scripts there and back

A script is read back from what the encoder writes (`decode_encoded`), and so is every script that is decoded.

What is decoded is not always one data item. The fields that trail behind those of the variant are skipped, and `skip` goes
over a break where the array still wants an item, so `83 04 00 ff` is decoded although no item starts there. That is the
only way: a script is read from exactly one data item if and only if, for it and for every script in it, the trailing
fields are as many items (`reads_item_iff`).
-/

namespace Pallas
open Cbor Cbor.Decoder TreeDecode
namespace NativeScript

/-! ### The encoder -/

def writeHeader : NativeScript → Bytes
  | scriptPubkey h => Cbor.array 2 ++ Cbor.uint 0 ++ Hash.encode h
  | scriptAll xs => Cbor.array 2 ++ Cbor.uint 1 ++ Cbor.array xs.length
  | scriptAny xs => Cbor.array 2 ++ Cbor.uint 2 ++ Cbor.array xs.length
  | scriptNOfK n xs => Cbor.array 3 ++ Cbor.uint 3 ++ Cbor.int n.toInt ++ Cbor.array xs.length
  | invalidBefore slot => Cbor.array 2 ++ Cbor.uint 4 ++ Cbor.uint slot.toNat
  | invalidHereafter slot => Cbor.array 2 ++ Cbor.uint 5 ++ Cbor.uint slot.toNat

/-- What `encode` writes at each visit. -/
def encodeVisit : Visit NativeScript → Bytes
  | .enter script => writeHeader script
  | .between _ => []
  | .exit _ => []

/-- `encode`: what the walk writes. -/
def encodeTree (x : NativeScript) : Exit Unit × Bytes :=
  (walkTree (fun v => modify (· ++ encodeVisit v)) x : StateM Bytes (Exit Unit)).run []

theorem encodeAll_eq (xs : List NativeScript) : encodeAll xs = xs.flatMap encode := by
  induction xs with
  | nil => rfl
  | cons x xs ih => rw [encodeAll, ih, List.flatMap_cons]

theorem encode_eq (x : NativeScript) : encode x = writeHeader x ++ (children x).flatMap encode ++ [] := by
  rw [List.append_nil]
  cases x with
  | scriptAll xs => rw [encode, encodeAll_eq, writeHeader, children]
  | scriptAny xs => rw [encode, encodeAll_eq, writeHeader, children]
  | scriptNOfK n xs => rw [encode, encodeAll_eq, writeHeader, children]
  | scriptPubkey h => simp [encode, writeHeader, children]
  | invalidBefore slot => simp [encode, writeHeader, children]
  | invalidHereafter slot => simp [encode, writeHeader, children]

theorem encodeTree_eq (x : NativeScript) : encodeTree x = (.done (), encode x) := by
  have hevents : (WalkTree.events x).flatMap encodeVisit = encode x := by
    induction x using FiniteTree.induction with
    | h x ih =>
      rw [flatMap_events rfl, encode_eq]
      congr 2
      exact List.flatMap_congr ih
  rw [encodeTree, walkTree_writes, List.nil_append, hevents]

/-! ### Reading what was written -/

/-- A vector is no longer than `isize::MAX`. -/
def FitsNode (x : NativeScript) : Prop := x.children.length < 2 ^ 63

instance : DecidablePred FitsNode := fun x => inferInstanceAs (Decidable (x.children.length < 2 ^ 63))

/-- A script that the Rust type holds. -/
def Fits : NativeScript → Prop := FiniteTree.Everywhere FitsNode

/-- The children that the header of a script announces. -/
def announced (x : NativeScript) : Arity :=
  match x.childrenMut with
  | some xs => .fixed xs.length
  | none => .leaf

/-- The builder of a script that has been given some children. -/
def opened (x : NativeScript) (xs : List NativeScript) : Builder := ⟨x.rebuild xs, 0⟩

theorem header_uint {n : ℕ} (rest : Bytes) (h : n < 2 ^ 64) : header 0 (Cbor.uint n ++ rest) = some (some n, rest) :=
  header_head (by omega) h

theorem header_array {n : ℕ} (rest : Bytes) (h : n < 2 ^ 64) : header 4 (Cbor.array n ++ rest) = some (some n, rest) :=
  header_head (by omega) h

theorem signedInt_int (z : Int64) (rest : Bytes) : SignedInt (Cbor.int z.toInt ++ rest) z rest := by
  have hlow := z.le_toInt
  have hhigh := z.toInt_lt
  rw [Cbor.int]
  split
  · exact ⟨z.toInt.toNat, .inl ⟨header_head (by omega) (by omega), by omega⟩⟩
  · exact ⟨(-1 - z.toInt).toNat, .inr ⟨header_head (by omega) (by omega), by omega⟩⟩

theorem signedInt_uint {n : ℕ} {z : Int64} (rest : Bytes) (h : z.toInt = n) :
    SignedInt (Cbor.uint n ++ rest) z rest := by
  have hhigh := z.toInt_lt
  exact ⟨n, .inl ⟨header_uint rest (by omega), h⟩⟩

theorem opens_array {script : NativeScript} {xs : List NativeScript} (rest : Bytes)
    (h : script.childrenMut = some xs) {n : ℕ}
    (hn : n < 2 ^ 63) : Opens script (Cbor.array n ++ rest) (.fixed n) rest := by
  have htoNat : (UInt64.ofNat n).toNat = n := UInt64.toNat_ofNat_of_lt' (show n < 2 ^ 64 by omega)
  have hhead : header 4 (Cbor.array n ++ rest) = some ((some (UInt64.ofNat n)).map UInt64.toNat, rest) := by
    rw [header_array rest (by omega), Option.map_some, htoNat]
  have hopens := Opens.list h hhead
  rwa [Arity.ofLen, htoNat] at hopens

theorem begins_header {required : UInt64} {variant : Int64} {script : NativeScript} {a : Arity}
    {fields mid rest : Bytes}
    {n k : ℕ} (hn : n = required.toNat) (hk : variant.toInt = k) (hcount : fieldCount variant = some required)
    (hfields : Fields fields variant script mid) (hopens : Opens script mid a rest) :
    Begins (Cbor.array n ++ (Cbor.uint k ++ fields)) ⟨script, 0⟩ a rest := by
  have hlt := required.toNat_lt
  have hlen : header 4 (Cbor.array n ++ (Cbor.uint k ++ fields)) =
      some (some required.toNat, Cbor.uint k ++ fields) := by
    rw [hn]
    exact header_array _ (by omega)
  have hbegins := Begins.intro hlen (signedInt_uint fields hk) hcount (UInt64.le_refl _) hfields hopens
  rwa [UInt64.sub_self] at hbegins

theorem begins_encode (rest : Bytes) {x : NativeScript} (hfits : FitsNode x) :
    Begins (writeHeader x ++ rest) (opened x []) (announced x) rest := by
  cases x with
  | scriptPubkey h =>
    have hlen := Hash.length_toBytes h
    have hbytes : ByteString (Hash.encode h ++ rest) h.toBytes rest := by
      rw [Hash.encode, Cbor.bytes, List.append_assoc]
      exact .definite (header_head (by omega) (by omega)) (take_append _ rest)
    have hfields := Fields.pubkey hbytes hlen
    rw [Hash.ofBytes_toBytes] at hfields
    rw [writeHeader, List.append_assoc, List.append_assoc]
    exact begins_header rfl rfl rfl hfields (.leaf rfl)
  | scriptAll xs =>
    rw [writeHeader, List.append_assoc, List.append_assoc]
    exact begins_header rfl rfl rfl .all (opens_array rest rfl hfits)
  | scriptAny xs =>
    rw [writeHeader, List.append_assoc, List.append_assoc]
    exact begins_header rfl rfl rfl .any (opens_array rest rfl hfits)
  | scriptNOfK n xs =>
    rw [writeHeader, List.append_assoc, List.append_assoc, List.append_assoc]
    exact begins_header rfl rfl rfl (.nOfK (signedInt_int n _)) (opens_array rest rfl hfits)
  | invalidBefore slot =>
    rw [writeHeader, List.append_assoc, List.append_assoc]
    exact begins_header rfl rfl rfl (.before (header_uint rest slot.toNat_lt)) (.leaf rfl)
  | invalidHereafter slot =>
    rw [writeHeader, List.append_assoc, List.append_assoc]
    exact begins_header rfl rfl rfl (.hereafter (header_uint rest slot.toNat_lt)) (.leaf rfl)

theorem rebuild_rebuild (x : NativeScript) (xs ys : List NativeScript) : (x.rebuild xs).rebuild ys = x.rebuild ys := by
  cases x <;> rfl

theorem rebuild_children (x : NativeScript) : x.rebuild (children x) = x := by
  cases x <;> rfl

theorem childrenMut_eq (x : NativeScript) : (x.childrenMut = none ∧ children x = []) ∨
    x.childrenMut = some (children x) ∧ ∀ xs, (x.rebuild xs).childrenMut = some xs := by
  cases x with
  | scriptAll | scriptAny | scriptNOfK => exact .inr ⟨rfl, fun _ => rfl⟩
  | _ => exact .inl ⟨rfl, rfl⟩

section Ends
variable {ε : Type}

theorem child_opened {x y : NativeScript} (h : y ∈ children x) (xs : List NativeScript) :
    (opened x xs).child y = (.ok (opened x (xs ++ [y])) : Except (Fault ε) Builder) := by
  obtain ⟨-, hnone⟩ | ⟨-, hlist⟩ := childrenMut_eq x
  · rw [hnone] at h
    cases h
  · simp only [Builder.child, opened, hlist, rebuild_rebuild]

theorem closing (x : NativeScript) : Closing (announced x) (children x).length [] := by
  unfold announced
  obtain ⟨hnone, hempty⟩ | ⟨hlist, -⟩ := childrenMut_eq x
  · rw [hnone, hempty]
    exact .leaf
  · rw [hlist]
    exact .fixed _

end Ends

variable {C ε : Type} {m : MinicborScript ε}

/-- The callbacks of the decoder read what the walk of the encoder writes. -/
def written (hm : m.Lawful) : Written (node (C := C) hm) m.toMinicbor FitsNode where
  enter := writeHeader
  exit _ := []
  announced := announced
  opened := opened
  begin_enter _ _ rest hx := (run_node_begin hm).2 ⟨begins_encode rest hx, rfl⟩
  child_opened _ xs _ hy := child_opened hy xs
  end_opened x _ _ _ := (run_node_end hm).2 ⟨rfl, (rebuild_children x).symm, rfl⟩
  closing x _ := closing x
  not_break _ rest hx := (begins_encode rest hx).datatype hm

theorem decode_encoded (hm : m.Lawful) {x : NativeScript} (hx : Fits x) (ctx : C) (rest : Bytes) :
    decode hm ctx (encode x ++ rest) = (.ok (x, ctx), rest) :=
  (written hm).decodeTree hm.toLawful encode_eq hx ctx rest

/-! ### What is decoded -/

section Items
variable {bs mid rest stop : Bytes} {n k : ℕ}

theorem items_add : Reads (.items (n + k)) bs rest ↔ ∃ mid, Reads (.items n) bs mid ∧ Reads (.items k) mid rest := by
  constructor
  · intro h
    induction n generalizing bs with
    | zero =>
      rw [zero_add] at h
      exact ⟨bs, .none, h⟩
    | succ n ih =>
      rw [show n + 1 + k = n + k + 1 by omega] at h
      cases h with
      | next hitem h =>
        obtain ⟨mid, hfirst, hrest⟩ := ih h
        exact ⟨mid, .next hitem hfirst, hrest⟩
      | stop hg => cases hg
  · rintro ⟨mid, hfirst, hrest⟩
    exact hfirst.items_append hrest

theorem items_succ (h : Reads .item bs mid) : Reads (.items (n + 1)) bs rest ↔ Reads (.items n) mid rest := by
  constructor
  · intro hitems
    cases hitems with
    | next hitem hrest =>
      obtain rfl := hitem.unique h
      exact hrest
    | stop hg => cases hg
  · exact .next h

theorem items_zero : Reads (.items 0) bs rest ↔ rest = bs := by
  constructor
  · intro h
    cases h with
    | none => rfl
    | stop hg => cases hg
  · rintro rfl
    exact .none

theorem item_of_signedInt {z : Int64} (h : SignedInt bs z rest) : Reads .item bs rest := by
  obtain ⟨n, ⟨hhead, -⟩ | ⟨hhead, -⟩⟩ := h
  · exact .of_head hhead (by omega) rfl .none
  · exact .of_head hhead (by omega) rfl .none

theorem item_iff_fills {len : Option UInt64} (hhead : header 4 bs = some (len.map UInt64.toNat, mid)) :
    Reads .item bs stop ↔ ∃ n, Fills mid stop n (.ofLen len) := by
  constructor
  · intro h
    obtain ⟨g, hg, hread⟩ := h.content_of_item hhead
    cases len with
    | some k =>
      cases hg
      exact ⟨k.toNat, rfl, hread⟩
    | none =>
      cases hg
      exact hread.items_of_untilBreak
  · rintro ⟨n, h⟩
    cases len with
    | some k =>
      obtain ⟨rfl, h⟩ := h
      exact .of_head hhead (by omega) rfl h
    | none => exact .of_head hhead (by omega) rfl (Reads.untilBreak_of_items h)

variable {variant : Int64} {required : UInt64} {script : NativeScript} {a : Arity}

theorem item_leaf (hitem : Reads .item bs mid) (hopens : Opens script mid a rest) (hnone : script.childrenMut = none) :
    Reads (.items 1) bs stop ↔ ∃ n, Fills rest stop n a := by
  cases hopens with
  | leaf =>
    rw [items_succ hitem, items_zero]
    simp [Fills]
  | list h => simp [hnone] at h

theorem item_list {xs : List NativeScript} (hopens : Opens script mid a rest) (hsome : script.childrenMut = some xs) :
    Reads (.items 1) mid stop ↔ ∃ n, Fills rest stop n a := by
  cases hopens with
  | leaf h => simp [hsome] at h
  | list _ hhead =>
    rw [← item_iff_fills hhead]
    exact ⟨Reads.items_one, fun hitem => .next hitem .none⟩

theorem items_of_fields (hcount : fieldCount variant = some required) (hfields : Fields bs variant script mid)
    (hopens : Opens script mid a rest) : ∃ k, required.toNat = 1 + k ∧
      ∀ stop, Reads (.items k) bs stop ↔ ∃ n, Fills rest stop n a := by
  cases hfields with
  | pubkey hs _ =>
    cases hcount
    exact ⟨1, rfl, fun _ => item_leaf (.of_byteString hs) hopens rfl⟩
  | all =>
    cases hcount
    exact ⟨1, rfl, fun _ => item_list hopens rfl⟩
  | any =>
    cases hcount
    exact ⟨1, rfl, fun _ => item_list hopens rfl⟩
  | nOfK hn =>
    cases hcount
    exact ⟨2, rfl, fun _ => (items_succ (item_of_signedInt hn)).trans (item_list hopens rfl)⟩
  | before hhead =>
    cases hcount
    exact ⟨1, rfl, fun _ => item_leaf (.of_head hhead (by omega) rfl .none) hopens rfl⟩
  | hereafter hhead =>
    cases hcount
    exact ⟨1, rfl, fun _ => item_leaf (.of_head hhead (by omega) rfl .none) hopens rfl⟩

theorem Begins.item_iff {b : Builder} (h : Begins bs b a mid) : Reads .item bs rest ↔
    ∃ stop, (∃ n, Fills mid stop n a) ∧ Reads (.items b.trailingFields.toNat) stop rest := by
  cases h with
  | @intro len required variant script _ start mid' mid'' _ hlen hvariant hcount henough hfields hopens =>
    obtain ⟨k, hk, hitems⟩ := items_of_fields hcount hfields hopens
    have hle := UInt64.le_iff_toNat_le.1 henough
    have htotal : len.toNat = k + (len - required).toNat + 1 := by
      rw [UInt64.toNat_sub_of_le _ _ henough]
      omega
    have harray : Reads .item bs rest ↔ Reads (.items len.toNat) start rest := by
      constructor
      · intro h
        obtain ⟨g, hg, hread⟩ := h.content_of_item hlen
        cases hg
        exact hread
      · exact .of_head hlen (by omega) rfl
    rw [harray, htotal, items_succ (item_of_signedInt hvariant), items_add]
    simp only [hitems]

end Items

theorem run_skipFields (hm : m.Lawful) {n : ℕ} {bs rest : Bytes} (h : Reads (.items n) bs rest) :
    (skipFields m n).run bs = (.ok (), rest) := by
  induction n generalizing bs with
  | zero =>
    rw [items_zero.1 h]
    rfl
  | succ n ih =>
    cases h with
    | next hitem h => exact Reader.bind_eq_ok.2 ⟨(), _, hm.skip_item _ _ hitem, ih h⟩
    | stop hg => cases hg

theorem rebuild_of_child {b b' : Builder} {xs : List NativeScript}
    (h : xs.foldlM Builder.child b = (.ok b' : Except (Fault ε) Builder)) :
    b' = ⟨b.script.rebuild (children b.script ++ xs), b.trailingFields⟩ := by
  induction xs generalizing b with
  | nil =>
    cases h
    rw [List.append_nil, rebuild_children]
  | cons x xs ih =>
    rw [List.foldlM_cons] at h
    obtain ⟨hnone, -⟩ | ⟨hlist, hrebuilt⟩ := childrenMut_eq b.script
    · simp only [Builder.child, hnone] at h
      cases h
    · rw [child_of_some hlist x] at h
      have hchildren : children (b.script.rebuild (children b.script ++ [x])) = children b.script ++ [x] := by
        obtain ⟨hnone, -⟩ | ⟨hlist', -⟩ := childrenMut_eq (b.script.rebuild (children b.script ++ [x]))
        · rw [hrebuilt] at hnone
          cases hnone
        · rw [hrebuilt] at hlist'
          exact (Option.some.inj hlist').symm
      have hpushed := ih h
      rwa [hchildren, rebuild_rebuild, List.append_assoc, List.singleton_append] at hpushed

/-- The trailing fields that a script ended with are as many data items. -/
def TrailingItems {hm : m.Lawful} (e : Ending (node (C := C) hm)) : Prop :=
  ∃ stop, Reads (.items (Builder.trailingFields e.builder).toNat) e.start stop

theorem Decodes.item_iff (hm : m.Lawful) {ctx ctx' : C} {bs rest : Bytes} {x : NativeScript}
    {ends : List (Ending (node (C := C) hm))} (h : Decodes (node hm) m.toMinicbor (.node x) ctx ctx' bs rest ends) :
    ∀ stop, Reads .item bs stop ↔ stop = rest ∧ ∀ e ∈ ends, TrailingItems e := by
  refine h.induction (P := fun _ bs rest ends => ∀ stop, Reads .item bs stop ↔
    stop = rest ∧ ∀ e ∈ ends, TrailingItems e) ?_
  intro b b' a x xs ctx ctx₁ ctx₂ ctx₃ bs mid mid' rest ends hbegin hgiven hxs hend stop
  obtain ⟨hbegins, -⟩ := (run_node_begin hm).1 hbegin
  obtain ⟨hskip, -, -⟩ := (run_node_end hm).1 hend
  have hfills : ∀ stop, (∃ n, Fills mid stop n a) ↔ stop = mid' ∧ ∀ e ∈ ends, TrailingItems e :=
    fun stop => hxs.fills_iff hm.toLawful id
  have htrailing : b'.trailingFields = b.trailingFields := by rw [rebuild_of_child hgiven]
  rw [hbegins.item_iff, List.forall_mem_cons]
  constructor
  · rintro ⟨mid'', hcontent, htrail⟩
    obtain ⟨rfl, hgood⟩ := (hfills _).1 hcontent
    rw [← htrailing] at htrail
    have hrun := run_skipFields hm htrail
    rw [hskip] at hrun
    cases hrun
    exact ⟨rfl, ⟨_, htrail⟩, hgood⟩
  · rintro ⟨rfl, ⟨end', htrail⟩, hgood⟩
    have hrun := run_skipFields hm htrail
    rw [hskip] at hrun
    cases hrun
    rw [← htrailing]
    exact ⟨mid', (hfills _).2 ⟨rfl, hgood⟩, htrail⟩

theorem Begins.no_children {bs mid : Bytes} {b : Builder} {a : Arity} (h : Begins bs b a mid) :
    children b.script = [] := by
  cases h with
  | intro hlen hvariant hcount henough hfields hopens => cases hfields <;> rfl

theorem decode_fits (hm : m.Lawful) {ctx ctx' : C} {bs rest : Bytes} {x : NativeScript}
    (h : decode hm ctx bs = (.ok (x, ctx'), rest)) (hbs : bs.length < 2 ^ 63) : Fits x := by
  have hnodes := decodeTree_induction
    (P := fun x bs rest _ => rest.length < bs.length ∧ (bs.length < 2 ^ 63 → Fits x)) ?_ h
  · obtain ⟨-, -, hfits⟩ := hnodes
    exact hfits hbs
  intro b b' a x xs ctx ctx₁ ctx₂ ctx₃ bs mid mid' rest ends hbegin hgiven hxs hend
  obtain ⟨hbegins, -⟩ := (run_node_begin hm).1 hbegin
  obtain ⟨hskip, rfl, -⟩ := (run_node_end hm).1 hend
  have hlt := hbegins.length_lt
  have hlen := hxs.length_le fun hx => hx.1
  have hle := Reader.length_le hskip
  refine ⟨by omega, fun hbs => ?_⟩
  have hchildren : children (b.script.rebuild xs) = xs ∨ children (b.script.rebuild xs) = [] := by
    cases b.script <;> simp [rebuild, children]
  rw [rebuild_of_child hgiven, hbegins.no_children, List.nil_append]
  refine .node ?_ fun c hc => ?_
  · rcases hchildren with heq | heq
    · show (children _).length < 2 ^ 63
      rw [heq]
      omega
    · show (children _).length < 2 ^ 63
      rw [heq]
      simp
  · have hmem : c ∈ xs := by
      rcases hchildren with heq | heq
      · rwa [← heq]
      · rw [show FiniteTree.children (b.script.rebuild xs) = [] from heq] at hc
        cases hc
    obtain ⟨bs', rest', ends', ⟨-, hfits⟩, hle'⟩ := hxs.mem (fun hx => hx.1) c hmem
    exact hfits (by omega)

/-! ### Both directions -/

/-- Every script is read back from its bytes. Whatever is decoded is read back from its own bytes in turn; and it was read
from one data item exactly if the trailing fields of every script in it are as many data items. -/
theorem codec_round_trip_iff (hm : m.Lawful) (ctx : C) :
    (∀ x, Fits x → ∃ bs, encodeTree x = (.done (), bs) ∧ ∀ rest, decode hm ctx (bs ++ rest) = (.ok (x, ctx), rest)) ∧
    ∀ bs x ctx' rest, bs.length < 2 ^ 63 → decode hm ctx bs = (.ok (x, ctx'), rest) →
      ∃ ends, Decodes (node hm) m.toMinicbor (.node x) ctx ctx' bs rest ends ∧
        ((Reads .item bs rest ∧ ∃ bs', encodeTree x = (.done (), bs') ∧
          ∀ rest', decode hm ctx (bs' ++ rest') = (.ok (x, ctx), rest')) ↔ ∀ e ∈ ends, TrailingItems e) := by
  refine ⟨?_, ?_⟩
  · intro x hx
    exact ⟨encode x, encodeTree_eq x, decode_encoded hm hx ctx⟩
  · intro bs x ctx' rest hbs h
    obtain ⟨ends, hderived⟩ := decodeTree_iff.1 h
    have hagain := decode_encoded hm (decode_fits hm h hbs) ctx
    refine ⟨ends, hderived, ?_⟩
    constructor
    · rintro ⟨hitem, -⟩
      obtain ⟨-, hgood⟩ := (Decodes.item_iff hm hderived rest).1 hitem
      exact hgood
    · intro hgood
      exact ⟨(Decodes.item_iff hm hderived rest).2 ⟨rfl, hgood⟩, encode x, encodeTree_eq x, hagain⟩

/-- An array of three that ends with a break behind the second. -/
def brokenScript : Bytes := [0x83, 0x04, 0x00, 0xff]

theorem decode_brokenScript :
    decode MinicborScript.reference_lawful () brokenScript = (.ok (invalidBefore 0, ()), []) := by
  rw [decode, TreeDecode.decodeTree_eq_decodeRec _ _ _ _ 0]
  rfl

/-- Decoding goes over what is no data item. -/
theorem decode_beyond_item : ¬ ∀ (bs rest : Bytes) (x : NativeScript),
    decode MinicborScript.reference_lawful () bs = (.ok (x, ()), rest) → Reads .item bs rest := by
  intro hclaim
  have hitem := hclaim _ _ _ decode_brokenScript
  have hhead : header 4 brokenScript = some (some 3, [0x04, 0x00, 0xff]) := rfl
  obtain ⟨g, hg, hread⟩ := hitem.content_of_item hhead
  cases hg
  have hfour : header 0 [0x04, 0x00, 0xff] = some (some 4, [0x00, 0xff]) := rfl
  have hzero : header 0 [0x00, 0xff] = some (some 0, [0xff]) := rfl
  rw [items_succ (.of_head hfour (by omega) rfl .none), items_succ (.of_head hzero (by omega) rfl .none)] at hread
  exact Reads.not_break hread.items_one

/-- A threshold below zero, and a list of indefinite length in a script with a trailing field. -/
theorem broken_round_trip_iff :
    (∃ bs, encodeTree (scriptNOfK (-1) [scriptAll []]) = (.done (), bs) ∧
      ∀ rest, decode MinicborScript.reference_lawful () (bs ++ rest) =
        (.ok (scriptNOfK (-1) [scriptAll []], ()), rest)) ∧
    ∃ ends, Decodes (node MinicborScript.reference_lawful) MinicborScript.reference.toMinicbor
      (.node (invalidBefore 0)) ()
        () brokenScript [] ends ∧
      ((Reads .item brokenScript [] ∧ ∃ bs', encodeTree (invalidBefore 0) = (.done (), bs') ∧
        ∀ rest', decode MinicborScript.reference_lawful () (bs' ++ rest') = (.ok (invalidBefore 0, ()), rest')) ↔
          ∀ e ∈ ends, TrailingItems e) := by
  obtain ⟨hencode, hdecode⟩ := codec_round_trip_iff MinicborScript.reference_lawful ()
  refine ⟨hencode _ ?_, hdecode _ _ () _ (by decide) decode_brokenScript⟩
  have hinner : Fits (scriptAll []) := .node (by decide) fun c hc => absurd hc (by simp [FiniteTree.children, children])
  refine .node (by decide) fun c hc => ?_
  rw [List.mem_singleton.1 hc]
  exact hinner

end NativeScript
end Pallas
