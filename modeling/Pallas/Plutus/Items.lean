import Pallas.Plutus.Decode

/-!
# What decoding Plutus data consumes

A tree decoder is used inside other decoders, so it has to stop where the data item ends that it started at.
`Spans` says, by the headers alone, which nodes are laid out over the bytes and where each starts and ends; it is
what the decoder follows (`spans_of_decode`).

Each node is one data item exactly if no constructor in the general spelling has an outer array that is not of
length two (`reads_iff_outerPair`): the length of that array is read and then ignored, so one that announces more
or fewer items, or that ends with a break, leaves the decoder at another place than the item does.
-/

namespace Pallas
namespace PlutusData
open Cbor Cbor.Decoder

/-- A map. -/
def Partial.isMap : Partial → Bool
  | .map _ _ => true
  | _ => false

/-- The children so far. -/
def Partial.items : Partial → List PlutusData
  | .leaf _ => []
  | .array _ items => items
  | .map _ items => items
  | .constr _ _ _ fields => fields

/-- A node, or the children that are still to follow in one, with their number. -/
inductive Part where
  | node
  | children (a : Arity) (n : ℕ)

/-- The layout of a node over the bytes, with the start and the end of every node in it. -/
inductive Spans : Part → (bs rest : Bytes) → List (Bytes × Bytes) → Prop where
  | node {p : Partial} {a : Arity} {n : ℕ} {bs mid rest : Bytes} {spans : List (Bytes × Bytes)}
      (hbegins : Begins bs p a mid) (hpairs : p.isMap = true → n % 2 = 0) (h : Spans (.children a n) mid rest spans) :
      Spans .node bs rest ((bs, rest) :: spans)
  | leaf {bs : Bytes} : Spans (.children .leaf 0) bs bs []
  | done {bs : Bytes} : Spans (.children (.fixed 0) 0) bs bs []
  | next {k n : ℕ} {bs mid rest : Bytes} {spans spans' : List (Bytes × Bytes)} (hnode : Spans .node bs mid spans)
      (h : Spans (.children (.fixed k) n) mid rest spans') :
      Spans (.children (.fixed (k + 1)) (n + 1)) bs rest (spans ++ spans')
  | stop {rest : Bytes} : Spans (.children .indefinite 0) (0xff :: rest) rest []
  | more {n : ℕ} {bs mid rest : Bytes} {spans spans' : List (Bytes × Bytes)} (hnode : Spans .node bs mid spans)
      (h : Spans (.children .indefinite n) mid rest spans') :
      Spans (.children .indefinite (n + 1)) bs rest (spans ++ spans')

/-- The array behind tag 102, if one starts here, announces two items. -/
def OuterPair (bs : Bytes) : Prop :=
  ∀ outer mid mid', header 6 bs = some (some 102, mid) → header 4 mid = some (outer, mid') → outer = some 2

/-! ### The decoder follows the layout -/

section Follows
open TreeDecode
variable {C ε : Type} {m : Minicbor ε} {hm : m.Lawful}

theorem child_ok {p p' : Partial} {x : PlutusData} (h : p.child x = (.ok p' : Except (Fault ε) Partial)) :
    p'.isMap = p.isMap ∧ p'.items.length = p.items.length + 1 := by
  cases p with
  | leaf y => cases h
  | array indefinite items =>
    cases h
    exact ⟨rfl, List.length_append⟩
  | map indefinite items =>
    cases h
    exact ⟨rfl, List.length_append⟩
  | constr tag anyConstructor indefinite fields =>
    cases h
    exact ⟨rfl, List.length_append⟩

theorem end_ok {p : Partial} {x : PlutusData} (h : p.end m = .ok x) (hmap : p.isMap = true) :
    p.items.length % 2 = 0 := by
  cases p with
  | map indefinite items =>
    rw [Partial.end] at h
    split at h
    · cases h
    · next heven => exact not_not.1 heven
  | _ => cases hmap

theorem begins_items {p : Partial} {a : Arity} {bs rest : Bytes} (h : Begins bs p a rest) : p.items = [] := by
  cases h <;> rfl

/-- What the recursion has read was laid out, and each node of it is decoded by the loop. -/
structure Laid (hm : m.Lawful) (fuel : ℕ) : Prop where
  node : ∀ {ctx ctx' : C} {bs x rest}, (decodeRec (node hm) m fuel ctx).run bs = (.ok (x, ctx'), rest) →
    ctx' = ctx ∧ ∃ spans, Spans .node bs rest spans ∧ ∀ s ∈ spans, ∃ y, decode hm ctx s.1 = (.ok (y, ctx), s.2)
  children : ∀ {a : Arity} {p p' : Partial} {ctx ctx' : C} {bs rest},
    (decodeChildren (PlutusData.node hm) m fuel a p ctx).run bs = (.ok (p', ctx'), rest) →
    ctx' = ctx ∧ ∃ n spans, p'.isMap = p.isMap ∧ p'.items.length = p.items.length + n ∧
      Spans (.children a n) bs rest spans ∧ ∀ s ∈ spans, ∃ y, decode hm ctx s.1 = (.ok (y, ctx), s.2)

theorem Laid.child {fuel : ℕ} (ih : Laid (C := C) hm fuel) {a : Arity} {p p' : Partial} {ctx ctx' : C} {bs rest : Bytes}
    (h : (do
      let (x, ctx) ← decodeRec (PlutusData.node hm) m fuel ctx
      let p ← .ofExcept (p.child x)
      decodeChildren (PlutusData.node hm) m fuel a p ctx : Reader (Fault ε) (Partial × C)).run bs =
        (.ok (p', ctx'), rest)) :
    ctx' = ctx ∧ ∃ n mid spans spans', p'.isMap = p.isMap ∧ p'.items.length = p.items.length + (n + 1) ∧
      Spans .node bs mid spans ∧ Spans (.children a n) mid rest spans' ∧
      ∀ s ∈ spans ++ spans', ∃ y, decode hm ctx s.1 = (.ok (y, ctx), s.2) := by
  obtain ⟨⟨x, ctx₁⟩, mid, hx, hafter⟩ := Reader.bind_eq_ok.1 h
  obtain ⟨p₁, mid', hchild, hothers⟩ := Reader.bind_eq_ok.1 hafter
  obtain ⟨hchild', rfl⟩ := Prod.mk.inj hchild
  obtain ⟨rfl, spans, hspans, hdecode⟩ := ih.node hx
  obtain ⟨rfl, n, spans', hmap, hlen, hspans', hdecode'⟩ := ih.children hothers
  obtain ⟨hmap₁, hlen₁⟩ := child_ok hchild'
  refine ⟨rfl, n, mid, spans, spans', hmap.trans hmap₁, by omega, hspans, hspans', ?_⟩
  intro s hs
  rcases List.mem_append.1 hs with hs | hs
  · exact hdecode s hs
  · exact hdecode' s hs

theorem laid (fuel : ℕ) : Laid (C := C) hm fuel := by
  induction fuel with
  | zero =>
    refine ⟨?_, ?_⟩
    · intro ctx ctx' bs x rest h
      cases h
    · intro a p p' ctx ctx' bs rest h
      cases h
  | succ fuel ih =>
    refine ⟨?_, ?_⟩
    · intro ctx ctx' bs x rest hrun
      obtain ⟨⟨⟨p, a⟩, ctx₁⟩, mid, hbegin, hafter⟩ := Reader.bind_eq_ok.1 hrun
      obtain ⟨⟨p', ctx₂⟩, mid', hchildren, hclose⟩ := Reader.bind_eq_ok.1 hafter
      obtain ⟨x', mid'', hend, hreturn⟩ := Reader.bind_eq_ok.1 hclose
      obtain ⟨hend', rfl⟩ := Prod.mk.inj hend
      cases hreturn
      obtain ⟨hbegins, rfl⟩ := (run_node_begin hm).1 hbegin
      obtain ⟨rfl, n, spans, hmap, hlen, hspans, hdecode⟩ := ih.children hchildren
      rw [begins_items hbegins, List.length_nil, zero_add] at hlen
      refine ⟨rfl, _, .node hbegins ?_ hspans, ?_⟩
      · intro hp
        rw [← hlen]
        exact end_ok hend' (hmap.trans hp)
      · intro s hs
        rcases List.mem_cons.1 hs with rfl | hs
        · exact ⟨x, decodeTree_of_decodeRec hrun⟩
        · exact hdecode s hs
    · intro a p p' ctx ctx' bs rest h
      match a with
      | .leaf =>
        cases h
        exact ⟨rfl, 0, [], rfl, rfl, .leaf, by simp⟩
      | .fixed 0 =>
        cases h
        exact ⟨rfl, 0, [], rfl, rfl, .done, by simp⟩
      | .fixed (k + 1) =>
        obtain ⟨hctx, n, mid, spans, spans', hmap, hlen, hnode, hrest, hdecode⟩ := ih.child h
        exact ⟨hctx, n + 1, _, hmap, hlen, .next hnode hrest, hdecode⟩
      | .indefinite =>
        obtain ⟨t, mid, hpeek, hafter⟩ := Reader.bind_eq_ok.1 h
        obtain ⟨htype, rfl⟩ := Minicbor.run_peekType_eq_ok.1 (Minicbor.run_lift_eq_ok.1 hpeek)
        split at hafter
        · next hbreak =>
          subst hbreak
          obtain ⟨tail, rfl⟩ := (hm.datatype_break _).1 htype
          obtain ⟨u, mid', hskip, hreturn⟩ := Reader.bind_eq_ok.1 hafter
          rw [Minicbor.run_lift_eq_ok, hm.skip_break tail] at hskip
          cases hskip
          cases hreturn
          exact ⟨rfl, 0, [], rfl, rfl, .stop, by simp⟩
        · obtain ⟨hctx, n, mid, spans, spans', hmap, hlen, hnode, hrest, hdecode⟩ := ih.child hafter
          exact ⟨hctx, n + 1, _, hmap, hlen, .more hnode hrest, hdecode⟩

/-- Bytes on which decoding succeeds are laid out as Plutus data up to where it stops, and every node in them is what
decoding there decodes. -/
theorem spans_of_decode {ctx ctx' : C} {bs rest : Bytes} {x : PlutusData}
    (h : decode hm ctx bs = (.ok (x, ctx'), rest)) :
    ∃ spans, Spans .node bs rest spans ∧ ∀ s ∈ spans, ∃ y, decode hm ctx s.1 = (.ok (y, ctx), s.2) := by
  rw [decode, decodeTree_eq_decodeRec _ _ _ _ 0] at h
  exact ((laid _).node h).2

end Follows

/-! ### Nodes and data items -/

/-- The bytes of a part are what the headers in front of it ask for. -/
def Filled : Part → (bs rest : Bytes) → Prop
  | .node, bs, rest => Reads .item bs rest
  | .children .leaf _, bs, rest => rest = bs
  | .children (.fixed k) _, bs, rest => Reads (.items k) bs rest
  | .children .indefinite n, bs, rest => Reads .untilBreak bs rest ∧ (n % 2 = 0 → Reads .pairsUntilBreak bs rest) ∧
    (n % 2 = 1 → ∃ mid, Reads .item bs mid ∧ Reads .pairsUntilBreak mid rest)

section Items
variable {bs mid rest : Bytes} {spans : List (Bytes × Bytes)}

theorem Filled.more {n : ℕ} (hnode : Filled .node bs mid) (h : Filled (.children .indefinite n) mid rest) :
    Filled (.children .indefinite (n + 1)) bs rest := by
  obtain ⟨hbreak, heven, hodd⟩ := h
  refine ⟨.more hnode hbreak, ?_, ?_⟩
  · intro hn
    obtain ⟨mid', hkey, hpairs⟩ := hodd (by omega)
    exact .pair hnode hkey hpairs
  · intro hn
    exact ⟨mid, hnode, heven (by omega)⟩

theorem Spans.filled {part : Part} (h : Spans part bs rest spans) (hitems : ∀ s ∈ spans, Reads .item s.1 s.2) :
    Filled part bs rest := by
  induction h with
  | node hbegins hpairs h ih => exact hitems _ List.mem_cons_self
  | leaf => rfl
  | done => exact .none
  | next hnode h ihnode ih =>
    have hfirst := ihnode fun s hs => hitems s (List.mem_append_left _ hs)
    have hrest := ih fun s hs => hitems s (List.mem_append_right _ hs)
    exact .next hfirst hrest
  | stop => exact ⟨.stop rfl, fun _ => .stop rfl, fun hn => absurd hn (by decide)⟩
  | more hnode h ihnode ih =>
    have hfirst := ihnode fun s hs => hitems s (List.mem_append_left _ hs)
    have hrest := ih fun s hs => hitems s (List.mem_append_right _ hs)
    exact Filled.more hfirst hrest

theorem item_of_bigInt {z : BigInt} (h : z.Reads bs rest) : Reads .item bs rest := by
  cases h with
  | uint hhead => exact .of_head hhead (by omega) rfl .none
  | nint hhead => exact .of_head hhead (by omega) rfl .none
  | bigUInt htag hs => exact .of_head htag (by omega) rfl (.next (.of_byteString hs) .none)
  | bigNInt htag hs => exact .of_head htag (by omega) rfl (.next (.of_byteString hs) .none)

theorem item_of_array {len : Option UInt64} {n : ℕ} (hhead : header 4 bs = some (len.map UInt64.toNat, mid))
    (h : Filled (.children (.ofLen len) n) mid rest) : Reads .item bs rest := by
  cases len with
  | some k => exact .of_head hhead (by omega) rfl h
  | none => exact .of_head hhead (by omega) rfl h.1

theorem item_of_begins {p : Partial} {a : Arity} {n : ℕ} (hbegins : Begins bs p a mid)
    (hpairs : p.isMap = true → n % 2 = 0) (h : Filled (.children a n) mid rest) (hpair : OuterPair bs) :
    Reads .item bs rest := by
  cases hbegins with
  | bigInt hz =>
    obtain rfl : rest = mid := h
    exact item_of_bigInt hz
  | boundedBytes hs =>
    obtain rfl : rest = mid := h
    exact .of_byteString hs
  | array hhead => exact item_of_array hhead h
  | map hhead hlen => exact .of_head hhead (by omega) rfl h
  | mapIndef hhead => exact .of_head hhead (by omega) rfl (h.2.1 (hpairs rfl))
  | compact htag hcompact hfields => exact .of_head htag (by omega) rfl (.next (item_of_array hfields h) .none)
  | @general outer index len mid₁ mid₂ mid₃ _ htag houter hindex hfields =>
    have htwo := hpair _ _ _ htag houter
    have hindex' : Reads .item mid₂ mid₃ := .of_head hindex (by omega) rfl .none
    have hconstr : Reads .item mid₁ rest := by
      rw [htwo] at houter
      exact .of_head houter (by omega) rfl (.next hindex' (.next (item_of_array hfields h) .none))
    exact .of_head htag (by omega) rfl (.next hconstr .none)

theorem outerPair_of_item {p : Partial} {a : Arity} {n : ℕ} (hbegins : Begins bs p a mid)
    (h : Filled (.children a n) mid rest) (hitem : Reads .item bs rest) : OuterPair bs := by
  intro outer mid₁ mid₂ htag houter
  have hone : ∀ {tag : ℕ} {mid' : Bytes}, header 6 bs = some (some tag, mid') → tag = 102 ∧ mid' = mid₁ := by
    intro tag mid' htag'
    rw [htag] at htag'
    cases htag'
    exact ⟨rfl, rfl⟩
  have hmajor : ∀ {major : ℕ} {arg : Option ℕ} {mid' : Bytes}, major ≠ 6 → header major bs ≠ some (arg, mid') :=
    fun hne hhead => hne (Reads.header_unique hhead htag).1
  cases hbegins with
  | bigInt hz =>
    cases hz with
    | uint hhead => exact absurd hhead (hmajor (by omega))
    | nint hhead => exact absurd hhead (hmajor (by omega))
    | bigUInt htag' hs => exact absurd (hone htag').1 (by omega)
    | bigNInt htag' hs => exact absurd (hone htag').1 (by omega)
  | boundedBytes hs =>
    cases hs with
    | definite hhead _ => exact absurd hhead (hmajor (by omega))
    | chunked hhead _ => exact absurd hhead (hmajor (by omega))
  | array hhead => exact absurd hhead (hmajor (by omega))
  | map hhead hlen => exact absurd hhead (hmajor (by omega))
  | mapIndef hhead => exact absurd hhead (hmajor (by omega))
  | @compact tag len mid' _ htag' hcompact hfields =>
    have htag102 : tag = 102 := UInt64.toNat_inj.1 (hone htag').1
    rw [htag102] at hcompact
    exact absurd hcompact (by decide)
  | @general outer' index len _ mid₂' mid₃ _ htag' houter' hindex hfields =>
    obtain ⟨-, rfl⟩ := hone htag'
    rw [houter] at houter'
    cases houter'
    -- two items stand where the outer array has its content
    have hindex' : Reads .item mid₂ mid₃ := .of_head hindex (by omega) rfl .none
    have htwo : Reads (.items 2) mid₂ rest := .next hindex' (.next (item_of_array hfields h) .none)
    obtain ⟨g, hg, hcontent⟩ := hitem.content_of_item htag
    cases hg
    obtain ⟨g, hg, hcontent⟩ := hcontent.items_one.content_of_item houter
    cases houter'' : outer'.map UInt64.toNat with
    | none =>
      rw [houter''] at hg
      cases hg
      exact absurd hcontent htwo.items_not_untilBreak
    | some k =>
      rw [houter''] at hg
      cases hg
      rw [hcontent.items_unique htwo]

theorem Spans.reads {part : Part} (h : Spans part bs rest spans) (hpair : ∀ s ∈ spans, OuterPair s.1) :
    ∀ s ∈ spans, Reads .item s.1 s.2 := by
  induction h with
  | node hbegins hpairs h ih =>
    have hinner := ih fun s hs => hpair s (List.mem_cons_of_mem _ hs)
    intro s hs
    rcases List.mem_cons.1 hs with rfl | hs
    · exact item_of_begins hbegins hpairs (h.filled hinner) (hpair _ List.mem_cons_self)
    · exact hinner s hs
  | leaf => simp
  | done => simp
  | stop => simp
  | next hnode h ihnode ih =>
    intro s hs
    rcases List.mem_append.1 hs with hs | hs
    · exact ihnode (fun s hs => hpair s (List.mem_append_left _ hs)) s hs
    · exact ih (fun s hs => hpair s (List.mem_append_right _ hs)) s hs
  | more hnode h ihnode ih =>
    intro s hs
    rcases List.mem_append.1 hs with hs | hs
    · exact ihnode (fun s hs => hpair s (List.mem_append_left _ hs)) s hs
    · exact ih (fun s hs => hpair s (List.mem_append_right _ hs)) s hs

/-- And only there. -/
theorem Spans.outerPair {part : Part} (h : Spans part bs rest spans) (hitems : ∀ s ∈ spans, Reads .item s.1 s.2) :
    ∀ s ∈ spans, OuterPair s.1 := by
  induction h with
  | node hbegins hpairs h ih =>
    have hinner := fun s hs => hitems s (List.mem_cons_of_mem _ hs)
    intro s hs
    rcases List.mem_cons.1 hs with rfl | hs
    · exact outerPair_of_item hbegins (h.filled hinner) (hitems _ List.mem_cons_self)
    · exact ih hinner s hs
  | leaf => simp
  | done => simp
  | stop => simp
  | next hnode h ihnode ih =>
    intro s hs
    rcases List.mem_append.1 hs with hs | hs
    · exact ihnode (fun s hs => hitems s (List.mem_append_left _ hs)) s hs
    · exact ih (fun s hs => hitems s (List.mem_append_right _ hs)) s hs
  | more hnode h ihnode ih =>
    intro s hs
    rcases List.mem_append.1 hs with hs | hs
    · exact ihnode (fun s hs => hitems s (List.mem_append_left _ hs)) s hs
    · exact ih (fun s hs => hitems s (List.mem_append_right _ hs)) s hs

theorem Begins.unique {p p' : Partial} {a a' : Arity} {mid' : Bytes} (h : Begins bs p a mid)
    (h' : Begins bs p' a' mid') :
    a = a' ∧ mid = mid' := by
  have hrun := run_of_begins Minicbor.reference_lawful h
  rw [run_of_begins Minicbor.reference_lawful h'] at hrun
  cases hrun
  exact ⟨rfl, rfl⟩

theorem Spans.not_break : ¬ Spans .node (0xff :: bs) rest spans := by
  intro h
  cases h with
  | node hbegins hpairs h =>
    obtain ⟨t, htype, ht⟩ := hbegins.datatype Minicbor.reference_lawful
    cases htype
    exact ht rfl

/-- The arity whose children are to follow. -/
def Part.arity : Part → Option Arity
  | .node => none
  | .children a _ => some a

theorem Spans.unique {part part' : Part} {rest' : Bytes} {spans' : List (Bytes × Bytes)} (h : Spans part bs rest spans)
    (h' : Spans part' bs rest' spans') (hpart : part.arity = part'.arity) : rest = rest' ∧ spans = spans' := by
  induction h generalizing part' rest' spans' with
  | node hbegins hpairs h ih =>
    cases h' with
    | node hbegins' hpairs' h' =>
      obtain ⟨rfl, rfl⟩ := hbegins.unique hbegins'
      obtain ⟨rfl, rfl⟩ := ih h' rfl
      exact ⟨rfl, rfl⟩
    | _ => cases hpart
  | leaf =>
    cases h' with
    | leaf => exact ⟨rfl, rfl⟩
    | _ => cases hpart
  | done =>
    cases h' with
    | done => exact ⟨rfl, rfl⟩
    | _ => cases hpart
  | next hnode h ihnode ih =>
    cases h' with
    | next hnode' h' =>
      cases hpart
      obtain ⟨rfl, rfl⟩ := ihnode hnode' rfl
      obtain ⟨rfl, rfl⟩ := ih h' rfl
      exact ⟨rfl, rfl⟩
    | _ => cases hpart
  | stop =>
    cases h' with
    | stop => exact ⟨rfl, rfl⟩
    | more hnode' h' => exact absurd hnode' Spans.not_break
    | _ => cases hpart
  | more hnode h ihnode ih =>
    cases h' with
    | stop => exact absurd hnode Spans.not_break
    | more hnode' h' =>
      obtain ⟨rfl, rfl⟩ := ihnode hnode' rfl
      obtain ⟨rfl, rfl⟩ := ih h' rfl
      exact ⟨rfl, rfl⟩
    | _ => cases hpart

end Items

/-! ### One item for each node -/

/-- On bytes that decode, the value and every value nested in it were each read from exactly one data item if and only
if every constructor in the general spelling that is laid out there has a pair as its outer array. For the value itself
that condition is exact as soon as the values in it meet it. -/
theorem reads_iff_outerPair {C ε : Type} {m : Minicbor ε} (hm : m.Lawful) {ctx ctx' : C} {bs rest : Bytes}
    {x : PlutusData} (h : decode hm ctx bs = (.ok (x, ctx'), rest)) :
    ∃ inner, Spans .node bs rest ((bs, rest) :: inner) ∧
      (∀ s ∈ (bs, rest) :: inner, ∃ y, decode hm ctx s.1 = (.ok (y, ctx), s.2)) ∧
      ((∀ s ∈ (bs, rest) :: inner, Reads .item s.1 s.2) ↔ ∀ s ∈ (bs, rest) :: inner, OuterPair s.1) ∧
      ((∀ s ∈ inner, OuterPair s.1) → (Reads .item bs rest ↔ OuterPair bs)) := by
  obtain ⟨spans, hspans, hdecode⟩ := spans_of_decode h
  obtain ⟨inner, rfl⟩ : ∃ inner, spans = (bs, rest) :: inner := by
    cases hspans with
    | node hbegins hpairs h => exact ⟨_, rfl⟩
  refine ⟨inner, hspans, hdecode, ⟨hspans.outerPair, hspans.reads⟩, ?_⟩
  intro hinner
  cases hspans with
  | node hbegins hpairs hchildren =>
    have hfilled := hchildren.filled (hchildren.reads hinner)
    exact ⟨outerPair_of_item hbegins hfilled, item_of_begins hbegins hpairs hfilled⟩

/-- Tag 102 with an array of three: the index, the fields, and one item more. -/
def overlongConstr : Bytes := [0xd8, 0x66, 0x83, 0x00, 0x80, 0x05]

theorem decode_overlongConstr : decode Minicbor.reference_lawful () overlongConstr =
    (.ok (constr 102 (some 0) true [], ()), [0x05]) := by
  rw [decode, TreeDecode.decodeTree_eq_decodeRec _ _ _ _ 0]
  rfl

theorem reads_overlongConstr : Reads .item overlongConstr [] := by
  have huint : ∀ {b : UInt8} {tail : Bytes}, header 0 (b :: tail) = some (some b.toNat, tail) →
      Reads .item (b :: tail) tail :=
    fun hhead => .of_head hhead (by omega) rfl .none
  have hempty : header 4 [0x80, 0x05] = some (some 0, [0x05]) := rfl
  have harray : header 4 [0x83, 0x00, 0x80, 0x05] = some (some 3, [0x00, 0x80, 0x05]) := rfl
  have htag : header 6 overlongConstr = some (some 102, [0x83, 0x00, 0x80, 0x05]) := rfl
  have hitems : Reads (.items 3) [0x00, 0x80, 0x05] [] :=
    .next (huint rfl) (.next (.of_head hempty (by omega) rfl .none) (.next (huint rfl) .none))
  exact .of_head htag (by omega) rfl (.next (.of_head harray (by omega) rfl hitems) .none)

/-- Decoding does not always stop where the item ends. -/
theorem decode_not_item : ¬ ∀ (bs rest : Bytes) (x : PlutusData),
    decode Minicbor.reference_lawful () bs = (.ok (x, ()), rest) → Reads .item bs rest := by
  intro hclaim
  have hitem := hclaim _ _ _ decode_overlongConstr
  cases hitem.unique reads_overlongConstr

theorem overlongConstr_iff : ∃ inner, Spans .node overlongConstr [0x05] ((overlongConstr, [0x05]) :: inner) ∧
    (∀ s ∈ (overlongConstr, [0x05]) :: inner, ∃ y, decode Minicbor.reference_lawful () s.1 = (.ok (y, ()), s.2)) ∧
    ((∀ s ∈ (overlongConstr, [0x05]) :: inner, Reads .item s.1 s.2) ↔
      ∀ s ∈ (overlongConstr, [0x05]) :: inner, OuterPair s.1) ∧
    ((∀ s ∈ inner, OuterPair s.1) → (Reads .item overlongConstr [0x05] ↔ OuterPair overlongConstr)) :=
  reads_iff_outerPair Minicbor.reference_lawful decode_overlongConstr

end PlutusData
end Pallas
