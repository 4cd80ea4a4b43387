import Pallas.CanonicalJson

/-!
# What canonical JSON tells apart

`denote` is the data a value stands for: the spelling of containers and constructors is gone, and an integer is the
number that CBOR has for it. `to_json` determines the value up to that, but for one overlap: an integer beyond `i64` is
rendered as `bignint` with the sixteen bytes of its two's complement, and so is the `BigNInt` of those bytes, which is
another number. `collide` exchanges the two all over a value; it keeps the JSON, and it keeps the data only where there
is nothing to exchange.
-/

namespace Pallas
open FiniteTree (Everywhere)

/-- Plutus data without its spelling; a malformed constructor has no index. -/
inductive Datum where
  | constr (index : Option UInt64) (fields : List Datum)
  | map (entries : List (Datum × Datum))
  | list (items : List Datum)
  | integer (z : ℤ)
  | bytes (bs : Bytes)

/-! ### Integers beyond `i64` -/

/-- The integer that sixteen bytes stand for as an `i128`. -/
def ofI128Bytes (bs : Bytes) : ℤ :=
  if Cbor.ofBigEndian bs < 2 ^ 127 then Cbor.ofBigEndian bs else Cbor.ofBigEndian bs - 2 ^ 128

theorem length_i128Bytes (z : ℤ) : (i128Bytes z).length = 16 := Cbor.length_bigEndian 16 _

theorem ofI128Bytes_i128Bytes {z : ℤ} (hlow : -2 ^ 127 ≤ z) (hhigh : z < 2 ^ 127) : ofI128Bytes (i128Bytes z) = z := by
  have hmod : Cbor.ofBigEndian (i128Bytes z) = (z % 2 ^ 128).toNat := by
    have hlt : (z % 2 ^ 128).toNat < 256 ^ 16 := by omega
    exact Cbor.ofBigEndian_bigEndian hlt
  rw [ofI128Bytes, hmod]
  split <;> omega

theorem i128Bytes_ofI128Bytes {bs : Bytes} (h : bs.length = 16) : i128Bytes (ofI128Bytes bs) = bs := by
  have hlt : Cbor.ofBigEndian bs < 256 ^ 16 := h ▸ Cbor.ofBigEndian_lt bs
  have hnat : (ofI128Bytes bs % 2 ^ 128).toNat = Cbor.ofBigEndian bs := by
    rw [ofI128Bytes]
    split <;> omega
  have hbytes := Cbor.bigEndian_ofBigEndian bs
  rw [h] at hbytes
  rw [i128Bytes, hnat, hbytes]

namespace BigInt

/-- Sixteen bytes that are the `i128` of a CBOR integer beyond `i64`. -/
def Beyond (bs : Bytes) : Prop :=
  bs.length = 16 ∧ -2 ^ 64 ≤ ofI128Bytes bs ∧ ofI128Bytes bs < 2 ^ 64 ∧ ¬ FitsI64 (ofI128Bytes bs)

instance (bs : Bytes) : Decidable (Beyond bs) := inferInstanceAs (Decidable (_ ∧ _ ∧ _ ∧ _))

/-- No other integer has the same JSON. -/
def Unambiguous : BigInt → Prop
  | int z => FitsI64 z
  | bigUInt _ => True
  | bigNInt bs => ¬ Beyond bs

/-- The other integer with the same JSON, where there is one. -/
def twin : BigInt → BigInt
  | int z => if FitsI64 z then int z else bigNInt (i128Bytes z)
  | bigUInt bs => bigUInt bs
  | bigNInt bs => if Beyond bs then int (ofI128Bytes bs) else bigNInt bs

theorem beyond_i128Bytes {z : ℤ} (hz : (int z).InRange) (hbeyond : ¬ FitsI64 z) : Beyond (i128Bytes z) := by
  obtain ⟨hlow, hhigh⟩ := hz
  have hback : ofI128Bytes (i128Bytes z) = z := ofI128Bytes_i128Bytes (by omega) (by omega)
  unfold Beyond
  rw [hback]
  exact ⟨length_i128Bytes z, hlow, hhigh, hbeyond⟩

theorem denote_twin_iff {a : BigInt} (ha : a.InRange) : a.twin.denote = a.denote ↔ a.Unambiguous := by
  cases a with
  | int z =>
    rw [twin, Unambiguous]
    split
    · next hfits => exact ⟨fun _ => hfits, fun _ => rfl⟩
    · next hbeyond =>
      obtain ⟨hlow, hhigh⟩ := ha
      have hback : ofI128Bytes (i128Bytes z) = z := ofI128Bytes_i128Bytes (by omega) (by omega)
      refine ⟨fun h => ?_, fun h => absurd h hbeyond⟩
      rw [denote, denote] at h
      rw [ofI128Bytes] at hback
      unfold FitsI64
      split at hback <;> omega
  | bigUInt bs => exact ⟨fun _ => trivial, fun _ => rfl⟩
  | bigNInt bs =>
    rw [twin, Unambiguous]
    split
    · next hbeyond =>
      refine ⟨fun h => ?_, fun h => absurd hbeyond h⟩
      rw [denote, denote, ofI128Bytes] at h
      split at h <;> omega
    · next hnot => exact ⟨fun _ => hnot, fun _ => rfl⟩

end BigInt
namespace PlutusData

mutual

/-- The data of a value. -/
def denote : PlutusData → Datum
  | constr tag anyConstructor _ fields => .constr (constrIndex tag anyConstructor) (denoteAll fields)
  | map _ entries => .map (denoteEntries entries)
  | array _ items => .list (denoteAll items)
  | bigInt z => .integer z.denote
  | boundedBytes bs => .bytes bs

def denoteAll : List PlutusData → List Datum
  | [] => []
  | x :: xs => denote x :: denoteAll xs

def denoteEntries : List (PlutusData × PlutusData) → List (Datum × Datum)
  | [] => []
  | (k, v) :: es => (denote k, denote v) :: denoteEntries es

end

theorem denoteAll_eq (xs : List PlutusData) : denoteAll xs = xs.map denote := by
  induction xs with
  | nil => rfl
  | cons x xs ih => rw [denoteAll, ih, List.map_cons]

theorem denoteEntries_eq (es : List (PlutusData × PlutusData)) :
    denoteEntries es = es.map fun e => (denote e.1, denote e.2) := by
  induction es with
  | nil => rfl
  | cons e es ih => rw [denoteEntries, ih, List.map_cons]

/-- The node's own integer shares its JSON with no other. -/
def UnambiguousNode : PlutusData → Prop
  | bigInt a => a.Unambiguous
  | _ => True

/-- No integer beyond `i64`, and no `BigNInt` over the sixteen bytes of one. -/
def Unambiguous : PlutusData → Prop := Everywhere UnambiguousNode

theorem inRange_of_fits {x : PlutusData} (h : Fits x) : Everywhere InRangeNode x := by
  refine h.imp fun s hs => ?_
  cases s with
  | bigInt a =>
    cases a with
    | int z => exact hs
    | _ => trivial
  | _ => trivial

/-! ### The JSON of leaves -/

section Leaves
variable {F : Formats}

theorem json_fitting {z : ℤ} (h : FitsI64 z) : json F (bigInt (.int z)) = .obj [("int", .num z)] := by
  refine json_leaf F ?_
  rw [leafJson, if_pos h]
  rfl

theorem json_beyond {z : ℤ} (h : ¬ FitsI64 z) :
    json F (bigInt (.int z)) = .obj [("bignint", .str (F.hex (i128Bytes z)))] := by
  refine json_leaf F ?_
  rw [leafJson, if_neg h]
  rfl

theorem json_bigUInt (bs : Bytes) : json F (bigInt (.bigUInt bs)) = .obj [("biguint", .str (F.hex bs))] :=
  json_leaf F rfl

theorem json_bigNInt (bs : Bytes) : json F (bigInt (.bigNInt bs)) = .obj [("bignint", .str (F.hex bs))] :=
  json_leaf F rfl

theorem json_boundedBytes (bs : Bytes) : json F (boundedBytes bs) = .obj [("bytes", .str (F.hex bs))] :=
  json_leaf F rfl

theorem json_twin {a : BigInt} (ha : a.InRange) : json F (bigInt a.twin) = json F (bigInt a) := by
  cases a with
  | int z =>
    rw [BigInt.twin]
    split
    · rfl
    · next hbeyond => rw [json_beyond hbeyond, json_bigNInt]
  | bigUInt bs => rfl
  | bigNInt bs =>
    rw [BigInt.twin]
    split
    · next hbeyond =>
      obtain ⟨hlen, -, -, hnot⟩ := hbeyond
      rw [json_beyond hnot, json_bigNInt, i128Bytes_ofI128Bytes hlen]
    · rfl

/-- The variant that a first key belongs to. -/
def keyRank (key : String) : ℕ :=
  if key = "constructor" then 0 else if key = "map" then 1 else if key = "list" then 2 else if key = "bytes" then 4 else 3

theorem json_rank (x : PlutusData) : ∃ key j rest, json F x = .obj ((key, j) :: rest) ∧ keyRank key = rank x := by
  cases x with
  | constr tag anyConstructor definite fields => exact ⟨_, _, _, json_constr F _ _ _ _, rfl⟩
  | map definite entries => exact ⟨_, _, _, json_map F _ _, rfl⟩
  | array definite items => exact ⟨_, _, _, json_array F _ _, rfl⟩
  | bigInt a =>
    cases a with
    | int z =>
      by_cases h : FitsI64 z
      · exact ⟨_, _, _, json_fitting h, rfl⟩
      · exact ⟨_, _, _, json_beyond h, rfl⟩
    | bigUInt bs => exact ⟨_, _, _, json_bigUInt bs, rfl⟩
    | bigNInt bs => exact ⟨_, _, _, json_bigNInt bs, rfl⟩
  | boundedBytes bs => exact ⟨_, _, _, json_boundedBytes bs, rfl⟩

theorem rank_eq {x y : PlutusData} (h : json F x = json F y) : rank x = rank y := by
  obtain ⟨key, j, rest, hx, hrank⟩ := json_rank (F := F) x
  obtain ⟨key', j', rest', hy, hrank'⟩ := json_rank (F := F) y
  rw [hx, hy] at h
  obtain ⟨hentry, -⟩ := List.cons.inj (Json.obj.inj h)
  rw [← hrank, ← hrank', (Prod.mk.inj hentry).1]

theorem entry_inj {key key' : String} {j j' : Json} (h : Json.obj [(key, j)] = .obj [(key', j')]) :
    key = key' ∧ j = j' :=
  Prod.mk.inj (List.cons.inj (Json.obj.inj h)).1

theorem bigInt_eq (hF : F.Lawful) {a b : BigInt} (ha : a.Unambiguous) (hb : b.InRange)
    (h : json F (bigInt a) = json F (bigInt b)) : a = b := by
  have hhex : ∀ {key key' : String} {bs bs' : Bytes},
      Json.obj [(key, .str (F.hex bs))] = .obj [(key', .str (F.hex bs'))] → key = key' ∧ bs = bs' := by
    intro key key' bs bs' h
    obtain ⟨hkey, hstr⟩ := entry_inj h
    exact ⟨hkey, hF.injective (Json.str.inj hstr)⟩
  cases a with
  | int z =>
    rw [json_fitting ha] at h
    cases b with
    | int z' =>
      by_cases hz' : FitsI64 z'
      · rw [json_fitting hz'] at h
        rw [Json.num.inj (entry_inj h).2]
      · rw [json_beyond hz'] at h
        exact absurd (entry_inj h).1 (by decide)
    | bigUInt bs =>
      rw [json_bigUInt] at h
      exact absurd (entry_inj h).1 (by decide)
    | bigNInt bs =>
      rw [json_bigNInt] at h
      exact absurd (entry_inj h).1 (by decide)
  | bigUInt bs =>
    rw [json_bigUInt] at h
    cases b with
    | int z' =>
      by_cases hz' : FitsI64 z'
      · rw [json_fitting hz'] at h
        exact absurd (entry_inj h).1 (by decide)
      · rw [json_beyond hz'] at h
        exact absurd (hhex h).1 (by decide)
    | bigUInt bs' =>
      rw [json_bigUInt] at h
      rw [(hhex h).2]
    | bigNInt bs' =>
      rw [json_bigNInt] at h
      exact absurd (hhex h).1 (by decide)
  | bigNInt bs =>
    rw [json_bigNInt] at h
    cases b with
    | int z' =>
      by_cases hz' : FitsI64 z'
      · rw [json_fitting hz'] at h
        exact absurd (entry_inj h).1 (by decide)
      · rw [json_beyond hz'] at h
        obtain rfl := (hhex h).2
        exact absurd (BigInt.beyond_i128Bytes hb hz') ha
    | bigUInt bs' =>
      rw [json_bigUInt] at h
      exact absurd (hhex h).1 (by decide)
    | bigNInt bs' =>
      rw [json_bigNInt] at h
      rw [(hhex h).2]

end Leaves

/-! ### One JSON, one data -/

theorem map_eq_map {α β γ : Type} {f : α → β} {g : α → γ} {as bs : List α} (h : as.map f = bs.map f)
    (hg : ∀ a ∈ as, ∀ b ∈ bs, f a = f b → g a = g b) : as.map g = bs.map g := by
  induction as generalizing bs with
  | nil =>
    cases bs with
    | nil => rfl
    | cons b bs => cases h
  | cons a as ih =>
    cases bs with
    | nil => cases h
    | cons b bs =>
      obtain ⟨hhead, htail⟩ := List.cons.inj h
      have hrest := ih htail fun a' ha' b' hb' => hg a' (List.mem_cons_of_mem _ ha') b' (List.mem_cons_of_mem _ hb')
      rw [List.map_cons, List.map_cons, hg a List.mem_cons_self b List.mem_cons_self hhead, hrest]

theorem optionJson_inj {n n' : Option UInt64} (h : optionJson n = optionJson n') : n = n' := by
  cases n with
  | none =>
    cases n' with
    | none => rfl
    | some i => cases h
  | some i =>
    cases n' with
    | none => cases h
    | some j =>
      have hnum := Json.num.inj h
      rw [UInt64.toNat_inj.1 (Int.ofNat.inj hnum)]

theorem denote_eq_of_json_eq {F : Formats} (hF : F.Lawful) {v w : PlutusData} (hv : Unambiguous v)
    (hw : Everywhere InRangeNode w) (h : json F v = json F w) : denote v = denote w := by
  have hrank := rank_eq h
  induction v using induction generalizing w with
  | h v ih =>
    have hchild : ∀ a ∈ children v, ∀ b ∈ children w, json F a = json F b → denote a = denote b :=
      fun a ha b hb hab => ih a ha (hv.child ha) (hw.child hb) hab (rank_eq hab)
    cases v with
    | constr tag anyConstructor definite fields =>
      cases w with
      | constr tag' anyConstructor' definite' fields' =>
        rw [json_constr, json_constr] at h
        obtain ⟨hindex, hrest⟩ := List.cons.inj (Json.obj.inj h)
        have hfields := Json.arr.inj (Prod.mk.inj (List.cons.inj hrest).1).2
        have hdata := map_eq_map hfields hchild
        rw [denote, denote, denoteAll_eq, denoteAll_eq, hdata]
        exact congrArg (Datum.constr · _) (optionJson_inj (Prod.mk.inj hindex).2)
      | _ => cases hrank
    | map definite entries =>
      cases w with
      | map definite' entries' =>
        rw [json_map, json_map] at h
        have hentries := Json.arr.inj (entry_inj h).2
        have hdata := map_eq_map (g := fun e => (denote e.1, denote e.2)) hentries fun e he e' he' hee => by
          obtain ⟨hkey, hvalue⟩ := List.cons.inj (Json.obj.inj hee)
          have hk := hchild e.1 (mem_alternate.2 ⟨e, he, .inl rfl⟩) e'.1 (mem_alternate.2 ⟨e', he', .inl rfl⟩)
            (Prod.mk.inj hkey).2
          have hv := hchild e.2 (mem_alternate.2 ⟨e, he, .inr rfl⟩) e'.2 (mem_alternate.2 ⟨e', he', .inr rfl⟩)
            (Prod.mk.inj (List.cons.inj hvalue).1).2
          rw [hk, hv]
        rw [denote, denote, denoteEntries_eq, denoteEntries_eq, hdata]
      | _ => cases hrank
    | array definite items =>
      cases w with
      | array definite' items' =>
        rw [json_array, json_array] at h
        have hdata := map_eq_map (Json.arr.inj (entry_inj h).2) hchild
        rw [denote, denote, denoteAll_eq, denoteAll_eq, hdata]
      | _ => cases hrank
    | bigInt a =>
      cases w with
      | bigInt b => rw [bigInt_eq hF hv.here hw.here h]
      | _ => cases hrank
    | boundedBytes bs =>
      cases w with
      | boundedBytes bs' =>
        rw [json_boundedBytes, json_boundedBytes] at h
        rw [hF.injective (Json.str.inj (entry_inj h).2)]
      | _ => cases hrank

/-! ### The other value with the same JSON -/

/-- A node over other children, with its integer exchanged for the twin. -/
def twinNode : PlutusData → List PlutusData → PlutusData
  | bigInt a, _ => bigInt a.twin
  | x, children => cloneNode x children

/-- Every integer exchanged for its twin. -/
def collide (x : PlutusData) : PlutusData := FoldTree.foldRec (m := Id) twinNode x

theorem collide_eq (x : PlutusData) : collide x = twinNode x ((children x).map collide) := FoldTree.foldRec_id _ x

theorem collide_map (definite : Bool) (entries : List (PlutusData × PlutusData)) :
    collide (map definite entries) = map definite (entries.map fun e => (collide e.1, collide e.2)) := by
  rw [collide_eq, children, map_alternate, twinNode, cloneNode, pairs_alternate]
  exact fun _ => PlutusData.noConfusion

theorem children_collide (x : PlutusData) : children (collide x) = (children x).map collide := by
  cases x with
  | map definite entries => rw [collide_map, children, children, map_alternate]
  | _ =>
    rw [collide_eq]
    rfl

theorem everywhere_collide {P : PlutusData → Prop} (hP : ∀ x, P x → P (collide x)) {x : PlutusData}
    (h : Everywhere P x) :
    Everywhere P (collide x) := by
  refine h.of_related (R := fun a b => b = collide a) ?_ ?_ rfl
  · rintro a b rfl ha
    exact hP a ha
  · rintro a b rfl
    have hchildren : FiniteTree.children (collide a) = (children a).map collide := children_collide a
    rw [hchildren, List.forall₂_map_right_iff]
    exact List.forall₂_same.2 fun _ _ => rfl

theorem constrOk_collide {x : PlutusData} (h : ConstrOk x) : ConstrOk (collide x) := by
  refine everywhere_collide (fun x hx => ?_) h
  cases x with
  | constr tag anyConstructor definite fields =>
    rw [collide_eq]
    exact hx
  | map definite entries =>
    rw [collide_map]
    trivial
  | _ =>
    rw [collide_eq]
    trivial

theorem fits_collide {x : PlutusData} (h : Fits x) : Fits (collide x) := by
  refine everywhere_collide (fun x hx => ?_) h
  cases x with
  | constr tag anyConstructor definite fields =>
    have hlen : (fields.map collide).length < 2 ^ 63 := by rwa [List.length_map]
    rw [collide_eq]
    exact hlen
  | map definite entries =>
    have hlen : (entries.map fun e => (collide e.1, collide e.2)).length < 2 ^ 63 := by rwa [List.length_map]
    rw [collide_map]
    exact hlen
  | array definite items =>
    have hlen : (items.map collide).length < 2 ^ 63 := by rwa [List.length_map]
    rw [collide_eq]
    exact hlen
  | bigInt a =>
    rw [collide_eq, twinNode]
    cases a with
    | int z =>
      rw [BigInt.twin]
      split
      · exact hx
      · have hlen : (i128Bytes z).length < 2 ^ 63 := by
          rw [length_i128Bytes]
          omega
        exact hlen
    | bigUInt bs => exact hx
    | bigNInt bs =>
      rw [BigInt.twin]
      split
      · next hbeyond =>
        obtain ⟨-, hlow, hhigh, -⟩ := hbeyond
        exact ⟨hlow, hhigh⟩
      · exact hx
  | boundedBytes bs =>
    rw [collide_eq]
    exact hx

theorem json_collide {F : Formats} {x : PlutusData} (h : Everywhere InRangeNode x) : json F (collide x) = json F x := by
  induction x using induction with
  | h x ih =>
    have hchild : ∀ c ∈ children x, json F (collide c) = json F c := fun c hc => ih c hc (h.child hc)
    cases x with
    | constr tag anyConstructor definite fields =>
      have hfields : (fields.map collide).map (json F) = fields.map (json F) := by
        rw [List.map_map]
        exact List.map_congr_left hchild
      rw [collide_eq, children, twinNode, cloneNode, json_constr, json_constr, hfields]
      exact fun _ => PlutusData.noConfusion
    | map definite entries =>
      have hentries : ∀ e ∈ entries, Json.obj [("k", json F (collide e.1)), ("v", json F (collide e.2))] =
          .obj [("k", json F e.1), ("v", json F e.2)] := by
        intro e he
        rw [hchild e.1 (mem_alternate.2 ⟨e, he, .inl rfl⟩), hchild e.2 (mem_alternate.2 ⟨e, he, .inr rfl⟩)]
      rw [collide_map, json_map, json_map, List.map_map]
      exact congrArg (fun js => Json.obj [("map", .arr js)]) (List.map_congr_left hentries)
    | array definite items =>
      have hitems : (items.map collide).map (json F) = items.map (json F) := by
        rw [List.map_map]
        exact List.map_congr_left hchild
      rw [collide_eq, children, twinNode, cloneNode, json_array, json_array, hitems]
      exact fun _ => PlutusData.noConfusion
    | bigInt a =>
      rw [collide_eq]
      exact json_twin h.here
    | boundedBytes bs =>
      rw [collide_eq]
      rfl

theorem unambiguous_of_denote_collide {x : PlutusData} (hx : Everywhere InRangeNode x)
    (h : denote (collide x) = denote x) : Unambiguous x := by
  induction x using induction with
  | h x ih =>
    cases x with
    | constr tag anyConstructor definite fields =>
      rw [collide_eq, children, twinNode, cloneNode, denote, denote, denoteAll_eq, denoteAll_eq, List.map_map] at h
      · have hfields := List.map_inj_left.1 (Datum.constr.inj h).2
        exact .node trivial fun c hc => ih c hc (hx.child hc) (hfields c hc)
      · exact fun _ => PlutusData.noConfusion
    | map definite entries =>
      rw [collide_map, denote, denote, denoteEntries_eq, denoteEntries_eq, List.map_map] at h
      have hentries := List.map_inj_left.1 (Datum.map.inj h)
      refine .node trivial fun c hc => ih c hc (hx.child hc) ?_
      obtain ⟨e, he, rfl | rfl⟩ := mem_alternate.1 hc
      · exact (Prod.mk.inj (hentries e he)).1
      · exact (Prod.mk.inj (hentries e he)).2
    | array definite items =>
      rw [collide_eq, children, twinNode, cloneNode, denote, denote, denoteAll_eq, denoteAll_eq, List.map_map] at h
      · have hitems := List.map_inj_left.1 (Datum.list.inj h)
        exact .node trivial fun c hc => ih c hc (hx.child hc) (hitems c hc)
      · exact fun _ => PlutusData.noConfusion
    | bigInt a =>
      rw [collide_eq, twinNode, denote, denote] at h
      have hnode : a.Unambiguous := (BigInt.denote_twin_iff hx.here).1 (Datum.integer.inj h)
      exact .node hnode fun c hc => absurd hc List.not_mem_nil
    | boundedBytes bs => exact .node trivial fun c hc => absurd hc List.not_mem_nil

/-! ### Plain text -/

theorem plain_map {α : Type} {f : α → Json} {as : List α} (h : ∀ a ∈ as, (f a).Plain) : Json.PlainAll (as.map f) := by
  induction as with
  | nil => trivial
  | cons a as ih =>
    exact ⟨h a List.mem_cons_self, ih fun b hb => h b (List.mem_cons_of_mem _ hb)⟩

theorem plain_json {F : Formats} (hF : F.Lawful) (x : PlutusData) : (json F x).Plain := by
  have hhex : ∀ {key : String}, Json.PlainText key → ∀ bs, (Json.obj [(key, .str (F.hex bs))]).Plain :=
    fun hkey bs => ⟨hkey, hF.plain bs, trivial⟩
  induction x using induction with
  | h x ih =>
    cases x with
    | constr tag anyConstructor definite fields =>
      have hindex : (optionJson (constructorValue tag anyConstructor)).Plain := by
        cases constructorValue tag anyConstructor with
        | none => trivial
        | some n => trivial
      rw [json_constr]
      exact ⟨by simp [Json.PlainText], hindex, by simp [Json.PlainText], plain_map ih, trivial⟩
    | map definite entries =>
      rw [json_map]
      refine ⟨by simp [Json.PlainText], plain_map fun e he => ?_, trivial⟩
      have hkey := ih e.1 (mem_alternate.2 ⟨e, he, .inl rfl⟩)
      have hvalue := ih e.2 (mem_alternate.2 ⟨e, he, .inr rfl⟩)
      exact ⟨by simp [Json.PlainText], hkey, by simp [Json.PlainText], hvalue, trivial⟩
    | array definite items =>
      rw [json_array]
      exact ⟨by simp [Json.PlainText], plain_map ih, trivial⟩
    | bigInt a =>
      cases a with
      | int z =>
        by_cases hz : FitsI64 z
        · rw [json_fitting hz]
          exact ⟨by simp [Json.PlainText], trivial, trivial⟩
        · rw [json_beyond hz]
          exact hhex (by simp [Json.PlainText]) _
      | bigUInt bs =>
        rw [json_bigUInt]
        exact hhex (by simp [Json.PlainText]) _
      | bigNInt bs =>
        rw [json_bigNInt]
        exact hhex (by simp [Json.PlainText]) _
    | boundedBytes bs =>
      rw [json_boundedBytes]
      exact hhex (by simp [Json.PlainText]) _

theorem toJson_eq_iff {F : Formats} {v w : PlutusData} : toJson F v = toJson F w ↔ json F v = json F w := by
  rw [toJson_eq, toJson_eq, Exit.done.injEq]

theorem toJsonString_eq_iff {F : Formats} (hF : F.Lawful) {v w : PlutusData} :
    toJsonString F v = toJsonString F w ↔ json F v = json F w := by
  rw [toJsonString_eq hF, toJsonString_eq hF, Exit.done.injEq]
  constructor
  · intro h
    exact Json.serialize_inj hF.leaves (plain_json hF v) (plain_json hF w) h
  · intro h
    rw [text, h]
    rfl

/-! ### Faithfulness -/

/-- The canonical JSON of a value, as a tree or as text, is that of no other data exactly if the value has no integer
beyond `i64`, and no `BigNInt` over the sixteen bytes of one. -/
theorem toJson_faithful_iff {F : Formats} (hF : F.Lawful) {v : PlutusData} (hok : ConstrOk v) (hfits : Fits v) :
    ((∀ w, ConstrOk w → Fits w → toJson F v = toJson F w → denote v = denote w) ↔ Unambiguous v) ∧
    ((∀ w, ConstrOk w → Fits w → toJsonString F v = toJsonString F w → denote v = denote w) ↔ Unambiguous v) := by
  have hrange := inRange_of_fits hfits
  have hcore : (∀ w, ConstrOk w → Fits w → json F v = json F w → denote v = denote w) ↔ Unambiguous v := by
    constructor
    · intro h
      have hcollide := h (collide v) (constrOk_collide hok) (fits_collide hfits) (json_collide hrange).symm
      exact unambiguous_of_denote_collide hrange hcollide.symm
    · intro h w _ hw hjson
      exact denote_eq_of_json_eq hF h (inRange_of_fits hw) hjson
  constructor
  · simpa only [toJson_eq_iff] using hcore
  · simpa only [toJsonString_eq_iff hF] using hcore

theorem leaf_everywhere {P : PlutusData → Prop} {x : PlutusData} (hx : P x) (hleaf : children x = []) :
    Everywhere P x := by
  refine .node hx fun c hc => ?_
  rw [show FiniteTree.children x = [] from hleaf] at hc
  cases hc

/-- The largest integers that are rendered as numbers are told apart from all else. -/
theorem largest_faithful_iff :
    let v := bigInt (.int (2 ^ 63 - 1))
    (∀ w, ConstrOk w → Fits w → toJson .reference v = toJson .reference w → denote v = denote w) ↔ Unambiguous v := by
  intro v
  have hok : ConstrOk v := leaf_everywhere trivial rfl
  have hfits : Fits v := leaf_everywhere ⟨by decide, by decide⟩ rfl
  exact (toJson_faithful_iff Formats.reference_lawful hok hfits).1

/-- The integer `2 ^ 63`, and the `BigNInt` of its sixteen bytes. -/
theorem toJson_not_faithful :
    ¬ ∀ v w, ConstrOk v → Fits v → ConstrOk w → Fits w → toJson .reference v = toJson .reference w →
      denote v = denote w := by
  intro h
  have hfits : Fits (bigInt (.int (2 ^ 63))) := leaf_everywhere ⟨by decide, by decide⟩ rfl
  have hlen : (i128Bytes (2 ^ 63)).length < 2 ^ 63 := by decide
  have hfits' : Fits (bigInt (.bigNInt (i128Bytes (2 ^ 63)))) := leaf_everywhere hlen rfl
  have hok : ∀ a, ConstrOk (bigInt a) := fun a => leaf_everywhere trivial rfl
  have hjson : json .reference (bigInt (.int (2 ^ 63))) = json .reference (bigInt (.bigNInt (i128Bytes (2 ^ 63)))) := by
    rw [json_beyond (by decide), json_bigNInt]
  have hdata := h _ _ (hok _) hfits (hok _) hfits' (toJson_eq_iff.2 hjson)
  rw [denote, denote] at hdata
  exact absurd (Datum.integer.inj hdata) (by decide)

end PlutusData
end Pallas
