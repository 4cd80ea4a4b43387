import Pallas.Lib.Json
import Pallas.Plutus.Order

/-!
# Canonical JSON (`pallas-primitives/src/alonzo/json.rs`)

`to_json` folds a tree into a JSON value; `to_json_string` walks it and writes the text as it goes, with a counter for
each open container. Neither panics, and the text written is that of the value (`PlutusData.runs_jsonVisit`,
`NativeScript.runs_jsonVisit`).

How a leaf is written is left to `serde_json` and `hex`: integers in decimal, plain strings in quotes, byte strings in
plain text that determines them.
-/

namespace Pallas
open FiniteTree WalkTree

/-- What the JSON library and the `hex` library write. -/
structure Formats where
  leaves : Json.Leaves
  /-- `hex::encode`. -/
  hex : Bytes → String

structure Formats.Lawful (F : Formats) : Prop where
  leaves : F.leaves.Lawful
  plain : ∀ bs, Json.PlainText (F.hex bs)
  injective : Function.Injective F.hex

namespace Formats

/-- Two lowercase digits for each byte. -/
def hexDigits (bs : Bytes) : List Char :=
  bs.flatMap fun b => [Nat.digitChar (b.toNat / 16), Nat.digitChar (b.toNat % 16)]

theorem hexDigits_cons (b : UInt8) (bs : Bytes) :
    hexDigits (b :: bs) = Nat.digitChar (b.toNat / 16) :: Nat.digitChar (b.toNat % 16) :: hexDigits bs := rfl

/-- Decimal numbers, strings in quotes, hex in lowercase. -/
def reference : Formats := ⟨⟨toString, fun s => "\"" ++ s ++ "\""⟩, fun bs => String.ofList (hexDigits bs)⟩

theorem digitChar_alphanum {n : ℕ} (h : n < 16) : (Nat.digitChar n).isAlphanum = true := by
  revert n
  decide

theorem digitChar_inj {m n : ℕ} (hm : m < 16) (hn : n < 16) (h : Nat.digitChar m = Nat.digitChar n) : m = n := by
  have hall : ∀ m < 16, ∀ n < 16, Nat.digitChar m = Nat.digitChar n → m = n := by decide
  exact hall m hm n hn h

theorem hexDigits_inj {bs bs' : Bytes} (h : hexDigits bs = hexDigits bs') : bs = bs' := by
  induction bs generalizing bs' with
  | nil =>
    cases bs' with
    | nil => rfl
    | cons b bs' => cases h
  | cons b bs ih =>
    cases bs' with
    | nil => cases h
    | cons c bs' =>
      have hb := b.toNat_lt
      have hc := c.toNat_lt
      rw [hexDigits_cons, hexDigits_cons] at h
      obtain ⟨hhigh, hrest⟩ := List.cons.inj h
      obtain ⟨hlow, htail⟩ := List.cons.inj hrest
      have hdiv := digitChar_inj (by omega) (by omega) hhigh
      have hmod := digitChar_inj (by omega) (by omega) hlow
      obtain rfl : b = c := UInt8.toNat_inj.1 (by omega)
      rw [ih htail]

theorem reference_lawful : reference.Lawful := by
  refine ⟨⟨fun _ => rfl, fun _ _ => rfl⟩, ?_, ?_⟩
  · intro bs c hc
    have htext : (reference.hex bs).toList = hexDigits bs := String.toList_ofList
    rw [htext] at hc
    obtain ⟨b, -, hb⟩ := List.mem_flatMap.1 hc
    have hlt := b.toNat_lt
    rcases List.mem_cons.1 hb with rfl | hb
    · exact digitChar_alphanum (by omega)
    · rw [List.mem_singleton.1 hb]
      exact digitChar_alphanum (by omega)
  · intro bs bs' h
    exact hexDigits_inj (String.ofList_injective h)

end Formats

/-- The result of a traversal whose callback may panic. -/
def Exit.ofOption {α : Type} : Option (Exit α) → Exit α
  | some ended => ended
  | none => .panicked

/-- A visitor from what each visit does to its state. -/
def stepping {S σ : Type} (step : Visit S → σ → Option σ) (v : Visit S) : StateT σ Option Unit :=
  fun st => (step v st).map fun st' => ((), st')

theorem run_stepping {S σ : Type} {step : Visit S → σ → Option σ} {v : Visit S} {st st' : σ}
    (h : step v st = some st') :
    (stepping step v).run st = some ((), st') := by
  unfold stepping
  rw [StateT.run, h]
  rfl

/-- `json!` of an optional number. -/
def optionJson : Option UInt64 → Json
  | some n => .num n.toNat
  | none => .null

/-- `i64::try_from` has a value. -/
def FitsI64 (z : ℤ) : Prop := -2 ^ 63 ≤ z ∧ z < 2 ^ 63

instance (z : ℤ) : Decidable (FitsI64 z) := inferInstanceAs (Decidable (_ ∧ _))

/-- `i128::to_be_bytes`. -/
def i128Bytes (z : ℤ) : Bytes := Cbor.bigEndian 16 (z % 2 ^ 128).toNat

def constructorValue (tag : UInt64) (anyConstructor : Option UInt64) : Option UInt64 :=
  if 121 ≤ tag ∧ tag ≤ 127 then some (tag - 121)
  else if 1280 ≤ tag ∧ tag ≤ 1400 then some (tag - 1280 + 7)
  else if tag = 102 then anyConstructor
  else none

/-! ### Text between commas -/

section Commas
variable {S σ : Type} [FiniteTree S] {visit : Visit S → StateT σ Option Unit}

theorem runs_commas {s : S} (put : String → σ) {text : S → String} {cs : List S}
    (hchild : ∀ c ∈ cs, ∀ out, Runs visit (events c) (put out) (put (out ++ text c)))
    (hbetween : ∀ out, (visit (.between s)).run (put out) = some ((), put (out ++ ","))) (out : String) :
    Runs visit ([Visit.between s].intercalate (cs.map events)) (put out) (put (out ++ Json.commas (cs.map text))) := by
  cases cs with
  | nil =>
    rw [List.map_nil, List.map_nil, Json.commas, String.append_empty]
    exact .nil
  | cons c cs =>
    have hrest : ∀ out, Runs visit ((cs.map events).flatMap ([Visit.between s] ++ ·)) (put out)
        (put (out ++ Json.commasBefore (cs.map text))) := by
      have hcs := fun d hd => hchild d (List.mem_cons_of_mem _ hd)
      clear hchild
      induction cs with
      | nil =>
        intro out
        rw [List.map_nil, List.map_nil, Json.commasBefore, String.append_empty]
        exact .nil
      | cons d ds ih =>
        intro out
        have hd := hcs d List.mem_cons_self (out ++ ",")
        have hds := ih (fun e he => hcs e (List.mem_cons_of_mem _ he)) (out ++ "," ++ text d)
        rw [List.map_cons, List.map_cons, List.flatMap_cons, Json.commasBefore, ← String.append_assoc,
          ← String.append_assoc]
        exact .append (.cons (hbetween out) hd) hds
    rw [List.map_cons, List.map_cons, intercalate_cons, Json.commas, ← String.append_assoc]
    exact .append (hchild c List.mem_cons_self out) (hrest _)

end Commas

/-! ### Plutus data -/

/-- The text written so far, and the children written of each open container, the innermost first. -/
structure Rendering where
  out : String
  rendered : List ℕ

/-- `write!`. -/
def Rendering.write (st : Rendering) (text : String) : Rendering := { st with out := st.out ++ text }

namespace PlutusData
variable (F : Formats)

/-- `plutus_leaf_json`. -/
def leafJson : PlutusData → Option Json
  | bigInt (.int z) =>
    some (if FitsI64 z then .object [("int", .num z)] else .object [("bignint", .str (F.hex (i128Bytes z)))])
  | bigInt (.bigUInt bs) => some (.object [("biguint", .str (F.hex bs))])
  | bigInt (.bigNInt bs) => some (.object [("bignint", .str (F.hex bs))])
  | boundedBytes bs => some (.object [("bytes", .str (F.hex bs))])
  | _ => none

/-- What `to_json` makes of a node and the JSON of its children. -/
def jsonNode : PlutusData → List Json → Option Json
  | constr tag anyConstructor _ _, children =>
    some (.object [("constructor", optionJson (constructorValue tag anyConstructor)), ("fields", .arr children)])
  | map _ _, children =>
    some (.object [("map", .arr ((pairs children).map fun e => .object [("k", e.1), ("v", e.2)]))])
  | array _ _, children => some (.object [("list", .arr children)])
  | leaf, _ => leafJson F leaf

def toJson (x : PlutusData) : Exit Json := .ofOption (foldTree (jsonNode F) x)

/-- What `to_json_string` does at each visit. -/
def jsonVisit : Visit PlutusData → Rendering → Option Rendering
  | .enter (constr tag anyConstructor _ _), st =>
    let st := { st with rendered := 0 :: st.rendered }
    match constructorValue tag anyConstructor with
    | some n => some (st.write ("\x7b\"constructor\":" ++ toString n.toNat ++ ",\"fields\":["))
    | none => some (st.write "\x7b\"constructor\":null,\"fields\":[")
  | .enter (map definite entries), st =>
    let st := ({ st with rendered := 0 :: st.rendered } : Rendering).write "\x7b\"map\":["
    some (if 0 < (map definite entries).childCount then st.write "\x7b\"k\":" else st)
  | .enter (array _ _), st => some (({ st with rendered := 0 :: st.rendered } : Rendering).write "\x7b\"list\":[")
  | .enter leaf, st => do
    let value ← leafJson F leaf
    some (st.write (value.serialize F.leaves))
  | .between (map _ _), st =>
    match st.rendered with
    | [] => none
    | count :: outer =>
      let st := { st with rendered := (count + 1) :: outer }
      some (if (count + 1) % 2 = 0 then st.write "\x7d,\x7b\"k\":" else st.write ",\"v\":")
  | .between _, st => some (st.write ",")
  | .exit (map definite entries), st =>
    let st := { st with rendered := st.rendered.tail }
    some (if 0 < (map definite entries).childCount then st.write "\x7d]\x7d" else st.write "]\x7d")
  | .exit (constr _ _ _ _), st | .exit (array _ _), st =>
    some (({ st with rendered := st.rendered.tail } : Rendering).write "]\x7d")
  | .exit _, st => some st

def toJsonString (x : PlutusData) : Exit String :=
  match (walkTree (stepping (jsonVisit F)) x).run ⟨"", []⟩ with
  | some (.done (), st) => .done st.out
  | _ => .panicked

/-! ### The value -/

theorem jsonNode_isSome (x : PlutusData) (js : List Json) : ∃ j, jsonNode F x js = some j := by
  cases x with
  | bigInt z => cases z <;> exact ⟨_, rfl⟩
  | _ => exact ⟨_, rfl⟩

/-- The JSON of a value, by recursion. -/
def json (x : PlutusData) : Json := FoldTree.foldRec (m := Id) (fun node js => (jsonNode F node js).getD .null) x

theorem json_eq (x : PlutusData) : jsonNode F x ((children x).map (json F)) = some (json F x) := by
  obtain ⟨j, hj⟩ := jsonNode_isSome F x ((children x).map (json F))
  have hrec : json F x = (jsonNode F x ((children x).map (json F))).getD .null := FoldTree.foldRec_id _ x
  rw [hrec, hj, Option.getD_some]

theorem mapM_some {α β : Type} {f : α → Option β} {g : α → β} {as : List α} (h : ∀ a ∈ as, f a = some (g a)) :
    as.mapM f = some (as.map g) := by
  induction as with
  | nil => rfl
  | cons a as ih =>
    rw [List.mapM_cons, h a List.mem_cons_self, ih fun b hb => h b (List.mem_cons_of_mem _ hb)]
    rfl

theorem toJson_eq (x : PlutusData) : toJson F x = .done (json F x) := by
  have hrec : FoldTree.foldRec (jsonNode F) x = some (json F x) := by
    induction x using induction with
    | h x ih =>
      rw [FoldTree.foldRec_eq, show FiniteTree.children x = children x from rfl, mapM_some ih]
      exact json_eq F x
  rw [toJson, foldTree_eq_foldRec, hrec]
  rfl

theorem json_constr (tag : UInt64) (anyConstructor : Option UInt64) (definite : Bool) (fields : List PlutusData) :
    json F (constr tag anyConstructor definite fields) =
      .obj [("constructor", optionJson (constructorValue tag anyConstructor)), ("fields", .arr (fields.map (json F)))] := by
  refine Option.some.inj ((json_eq F _).symm.trans ?_)
  exact congrArg some (Json.object_pair (by decide))

theorem json_map (definite : Bool) (entries : List (PlutusData × PlutusData)) :
    json F (map definite entries) =
      .obj [("map", .arr (entries.map fun e => .obj [("k", json F e.1), ("v", json F e.2)]))] := by
  have hpair : ∀ j j' : Json, Json.object [("k", j), ("v", j')] = .obj [("k", j), ("v", j')] :=
    fun _ _ => Json.object_pair (by decide)
  refine Option.some.inj ((json_eq F _).symm.trans ?_)
  rw [children, map_alternate, jsonNode, pairs_alternate, List.map_map]
  simp only [Function.comp_def, hpair]
  rfl

theorem json_array (definite : Bool) (items : List PlutusData) :
    json F (array definite items) = .obj [("list", .arr (items.map (json F)))] :=
  Option.some.inj (json_eq F _).symm

theorem json_leaf {x : PlutusData} {j : Json} (h : leafJson F x = some j) : json F x = j := by
  have hnode := json_eq F x
  cases x with
  | bigInt z =>
    rw [jsonNode] at hnode
    · exact Option.some.inj (hnode.symm.trans h)
    all_goals nofun
  | boundedBytes bs => exact Option.some.inj (hnode.symm.trans h)
  | _ => cases h

/-! ### The text -/

/-- The text of a value's JSON. -/
def text (x : PlutusData) : String := (json F x).serialize F.leaves

variable {F}

/-- What a map writes in front of its `count`-th child. -/
def keyOrValue (count : ℕ) : String := if count % 2 = 0 then "\x7d,\x7b\"k\":" else ",\"v\":"

theorem runs_next (definite : Bool) (entries : List (PlutusData × PlutusData)) (outer : List ℕ) {c : PlutusData}
    (hc : ∀ st, Runs (stepping (jsonVisit F)) (events c) st (st.write (text F c))) (out : String) (count : ℕ) :
    Runs (stepping (jsonVisit F)) ([.between (map definite entries)] ++ events c) ⟨out, count :: outer⟩
      ⟨out ++ keyOrValue (count + 1) ++ text F c, (count + 1) :: outer⟩ := by
  have hbetween : jsonVisit F (.between (map definite entries)) ⟨out, count :: outer⟩ =
      some ⟨out ++ keyOrValue (count + 1), (count + 1) :: outer⟩ := by
    by_cases heven : (count + 1) % 2 = 0
    · simp only [jsonVisit, keyOrValue, if_pos heven, Rendering.write]
    · simp only [jsonVisit, keyOrValue, if_neg heven, Rendering.write]
  exact .cons (run_stepping hbetween) (hc ⟨out ++ keyOrValue (count + 1), (count + 1) :: outer⟩)

/-- What a map writes for the entries after its first. -/
def moreText (F : Formats) : List (PlutusData × PlutusData) → String
  | [] => ""
  | e :: es => "\x7d,\x7b\"k\":" ++ text F e.1 ++ ",\"v\":" ++ text F e.2 ++ moreText F es

theorem runs_more (definite : Bool) (entries : List (PlutusData × PlutusData)) (outer : List ℕ)
    {es : List (PlutusData × PlutusData)}
    (hes : ∀ c ∈ alternate es, ∀ st, Runs (stepping (jsonVisit F)) (events c) st (st.write (text F c)))
    (out : String) {count : ℕ} (hodd : count % 2 = 1) :
    ∃ count', Runs (stepping (jsonVisit F))
      (((alternate es).map events).flatMap ([.between (map definite entries)] ++ ·))
      ⟨out, count :: outer⟩ ⟨out ++ moreText F es, count' :: outer⟩ := by
  induction es generalizing out count with
  | nil =>
    refine ⟨count, ?_⟩
    rw [moreText, String.append_empty]
    exact .nil
  | cons e es ih =>
    have hkey : keyOrValue (count + 1) = "\x7d,\x7b\"k\":" := if_pos (by omega)
    have hvalue : keyOrValue (count + 1 + 1) = ",\"v\":" := if_neg (by omega)
    have hk := runs_next definite entries outer (hes e.1 (by simp)) out count
    have hv := runs_next definite entries outer (hes e.2 (by simp))
      (out ++ keyOrValue (count + 1) ++ text F e.1) (count + 1)
    obtain ⟨count', hmore⟩ := ih (fun c hc => hes c (by simp [hc]))
      (out ++ keyOrValue (count + 1) ++ text F e.1 ++ keyOrValue (count + 1 + 1) ++ text F e.2)
      (show (count + 1 + 1) % 2 = 1 by omega)
    refine ⟨count', ?_⟩
    have hall := Runs.append hk (Runs.append hv hmore)
    rw [hkey, hvalue] at hall
    rw [alternate_cons, List.map_cons, List.map_cons, List.flatMap_cons, List.flatMap_cons, moreText]
    simpa only [String.append_assoc] using hall

theorem serializeAll_json (xs : List PlutusData) : Json.serializeAll F.leaves (xs.map (json F)) = xs.map (text F) := by
  rw [Json.serializeAll_eq, List.map_map]
  rfl

section Text
variable (hF : F.Lawful)
include hF

theorem text_listed {k : String} {fields : List PlutusData} (hk : Json.PlainText k) (j : Json) :
    Json.serialize F.leaves (.obj [(k, j), ("fields", .arr (fields.map (json F)))]) =
      "\x7b\"" ++ k ++ "\":" ++ j.serialize F.leaves ++ ",\"fields\":[" ++ Json.commas (fields.map (text F)) ++ "]\x7d" := by
  rw [Json.serialize_members hF.leaves hk (by simp [Json.PlainText]), Json.serialize, serializeAll_json, ← String.toList_inj]
  simp [String.toList_append]

theorem text_constr (tag : UInt64) (anyConstructor : Option UInt64) (definite : Bool) (fields : List PlutusData) :
    text F (constr tag anyConstructor definite fields) =
      "\x7b\"constructor\":" ++ (optionJson (constructorValue tag anyConstructor)).serialize F.leaves ++ ",\"fields\":[" ++
        Json.commas (fields.map (text F)) ++ "]\x7d" := by
  rw [text, json_constr, text_listed hF (by simp [Json.PlainText])]
  rfl

theorem text_array (definite : Bool) (items : List PlutusData) :
    text F (array definite items) = "\x7b\"list\":[" ++ Json.commas (items.map (text F)) ++ "]\x7d" := by
  rw [text, json_array, Json.serialize_member hF.leaves (by simp [Json.PlainText]), Json.serialize, serializeAll_json, ← String.toList_inj]
  simp [String.toList_append]

theorem text_entry (e : PlutusData × PlutusData) :
    Json.serialize F.leaves (.obj [("k", json F e.1), ("v", json F e.2)]) =
      "\x7b\"k\":" ++ text F e.1 ++ ",\"v\":" ++ text F e.2 ++ "\x7d" := by
  rw [Json.serialize_members hF.leaves (by simp [Json.PlainText]) (by simp [Json.PlainText]), ← String.toList_inj]
  simp [String.toList_append, text]

theorem moreText_eq (es : List (PlutusData × PlutusData)) :
    moreText F es ++ "\x7d" =
      "\x7d" ++ Json.commasBefore (es.map fun e => Json.serialize F.leaves (.obj [("k", json F e.1), ("v", json F e.2)])) := by
  induction es with
  | nil => rfl
  | cons e es ih =>
    rw [List.map_cons, Json.commasBefore, text_entry hF, moreText, String.append_assoc, ih, ← String.toList_inj]
    simp [String.toList_append]

theorem text_map_nil (definite : Bool) : text F (map definite []) = "\x7b\"map\":[" ++ "]\x7d" := by
  rw [text, json_map, Json.serialize_member hF.leaves (by simp [Json.PlainText]), List.map_nil, Json.serialize, Json.serializeAll,
    Json.commas]
  rfl

theorem text_map_cons (definite : Bool) (e : PlutusData × PlutusData) (es : List (PlutusData × PlutusData)) :
    text F (map definite (e :: es)) =
      "\x7b\"map\":[" ++ "\x7b\"k\":" ++ text F e.1 ++ ",\"v\":" ++ text F e.2 ++ moreText F es ++ "\x7d]\x7d" := by
  have hmore : moreText F es ++ "\x7d]\x7d" = "\x7d" ++
      Json.commasBefore (es.map fun e => Json.serialize F.leaves (.obj [("k", json F e.1), ("v", json F e.2)])) ++ "]\x7d" := by
    rw [← moreText_eq hF, String.append_assoc]
    rfl
  rw [text, json_map, Json.serialize_member hF.leaves (by simp [Json.PlainText]), List.map_cons, Json.serialize, Json.serializeAll_eq,
    List.map_cons, List.map_map, Json.commas, text_entry hF,
    @String.append_assoc _ (moreText F es), hmore, ← String.toList_inj]
  simp [String.toList_append, Function.comp_def]

end Text

theorem runs_listed {x : PlutusData} {st : Rendering} {header : String}
    (henter : jsonVisit F (.enter x) st = some ⟨st.out ++ header, 0 :: st.rendered⟩)
    (hbetween : ∀ st, jsonVisit F (.between x) st = some (st.write ","))
    (hexit : ∀ st, jsonVisit F (.exit x) st = some ⟨st.out ++ "]\x7d", st.rendered.tail⟩)
    (hx : text F x = header ++ Json.commas ((children x).map (text F)) ++ "]\x7d")
    (ih : ∀ c ∈ children x, ∀ st, Runs (stepping (jsonVisit F)) (events c) st (st.write (text F c))) :
    Runs (stepping (jsonVisit F)) (events x) st (st.write (text F x)) := by
  have hchildren := runs_commas (s := x) (fun out => (⟨out, 0 :: st.rendered⟩ : Rendering))
    (fun c hc out => ih c hc ⟨out, 0 :: st.rendered⟩) (fun out => run_stepping (hbetween ⟨out, 0 :: st.rendered⟩))
    (st.out ++ header)
  have hnode := Runs.node (run_stepping henter) hchildren (run_stepping (hexit _))
  rw [hx, Rendering.write]
  simpa only [String.append_assoc, List.tail_cons] using hnode

theorem runs_leaf {x : PlutusData} {j : Json} (h : leafJson F x = some j) (st : Rendering) :
    Runs (stepping (jsonVisit F)) (events x) st (st.write (text F x)) := by
  have hchildren : FiniteTree.children x = [] := by
    cases x with
    | bigInt z => rfl
    | boundedBytes bs => rfl
    | _ => cases h
  have henter : jsonVisit F (.enter x) st = some (st.write (text F x)) := by
    rw [text, json_leaf F h]
    cases x with
    | bigInt z =>
      rw [jsonVisit, h]
      · rfl
      all_goals nofun
    | boundedBytes bs =>
      rw [jsonVisit, h]
      · rfl
      all_goals nofun
    | _ => cases h
  have hexit : jsonVisit F (.exit x) (st.write (text F x)) = some (st.write (text F x)) := by
    cases x with
    | bigInt z => rfl
    | boundedBytes bs => rfl
    | _ => cases h
  refine .node (run_stepping henter) ?_ (run_stepping hexit)
  rw [hchildren]
  exact .nil

theorem runs_map_cons (hF : F.Lawful) {definite : Bool} {e : PlutusData × PlutusData}
    {es : List (PlutusData × PlutusData)}
    (st : Rendering)
    (ih : ∀ c ∈ alternate (e :: es), ∀ st, Runs (stepping (jsonVisit F)) (events c) st (st.write (text F c))) :
    Runs (stepping (jsonVisit F)) (events (map definite (e :: es))) st
      (st.write (text F (map definite (e :: es)))) := by
  have hpos : 0 < (map definite (e :: es)).childCount := by
    rw [childCount, List.length_cons]
    omega
  have henter : jsonVisit F (.enter (map definite (e :: es))) st =
      some ⟨st.out ++ "\x7b\"map\":[" ++ "\x7b\"k\":", 0 :: st.rendered⟩ := by
    rw [jsonVisit, if_pos hpos]
    rfl
  have hexit : ∀ st, jsonVisit F (.exit (map definite (e :: es))) st = some ⟨st.out ++ "\x7d]\x7d", st.rendered.tail⟩ := by
    intro st
    rw [jsonVisit, if_pos hpos]
    rfl
  -- the first key has no visit before it, and the counter is one where the other entries begin
  have hkey := ih e.1 List.mem_cons_self ⟨st.out ++ "\x7b\"map\":[" ++ "\x7b\"k\":", 0 :: st.rendered⟩
  have hvalue := runs_next definite (e :: es) st.rendered
    (ih e.2 (List.mem_cons_of_mem _ List.mem_cons_self)) (st.out ++ "\x7b\"map\":[" ++ "\x7b\"k\":" ++ text F e.1) 0
  have hfirst : keyOrValue (0 + 1) = ",\"v\":" := rfl
  rw [hfirst] at hvalue
  obtain ⟨count, hmore⟩ := runs_more definite (e :: es) st.rendered
    (fun c hc => ih c (List.mem_cons_of_mem _ (List.mem_cons_of_mem _ hc)))
    (st.out ++ "\x7b\"map\":[" ++ "\x7b\"k\":" ++ text F e.1 ++ ",\"v\":" ++ text F e.2)
    (show (0 + 1) % 2 = 1 from rfl)
  have hchildren : [Visit.between (map definite (e :: es))].intercalate
      ((FiniteTree.children (map definite (e :: es))).map events) =
        events e.1 ++ (([Visit.between (map definite (e :: es))] ++ events e.2) ++
          ((alternate es).map events).flatMap ([Visit.between (map definite (e :: es))] ++ ·)) := by
    rw [show FiniteTree.children (map definite (e :: es)) = e.1 :: e.2 :: alternate es from rfl, List.map_cons,
      List.map_cons, intercalate_cons, List.flatMap_cons]
  have hnode := Runs.node (run_stepping henter) (hchildren ▸ hkey.append (hvalue.append hmore)) (run_stepping (hexit _))
  rw [text_map_cons hF, Rendering.write]
  simpa only [String.append_assoc, List.tail_cons] using hnode

theorem runs_jsonVisit (hF : F.Lawful) (x : PlutusData) (st : Rendering) :
    Runs (stepping (jsonVisit F)) (events x) st (st.write (text F x)) := by
  induction x using induction generalizing st with
  | h x ih =>
    cases x with
    | constr tag anyConstructor definite fields =>
      refine runs_listed ?_ (fun _ => rfl) (fun _ => rfl) (text_constr hF _ _ _ _) ih
      rw [jsonVisit]
      cases constructorValue tag anyConstructor with
      | none =>
        rw [optionJson, Json.serialize]
        rfl
      | some n =>
        rw [optionJson, Json.serialize, hF.leaves.number]
        rfl
    | array definite items => exact runs_listed rfl (fun _ => rfl) (fun _ => rfl) (text_array hF _ _) ih
    | map definite entries =>
      cases entries with
      | nil =>
        have henter : jsonVisit F (.enter (map definite [])) st = some ⟨st.out ++ "\x7b\"map\":[", 0 :: st.rendered⟩ := rfl
        have hexit : jsonVisit F (.exit (map definite [])) ⟨st.out ++ "\x7b\"map\":[", 0 :: st.rendered⟩ =
            some ⟨st.out ++ "\x7b\"map\":[" ++ "]\x7d", st.rendered⟩ := rfl
        rw [text_map_nil hF, Rendering.write, ← String.append_assoc]
        exact .node (run_stepping henter) .nil (run_stepping hexit)
      | cons e es => exact runs_map_cons hF st ih
    | bigInt z =>
      cases z with
      | int z => exact runs_leaf rfl st
      | bigUInt bs => exact runs_leaf rfl st
      | bigNInt bs => exact runs_leaf rfl st
    | boundedBytes bs => exact runs_leaf rfl st

theorem toJsonString_eq (hF : F.Lawful) (x : PlutusData) : toJsonString F x = .done (text F x) := by
  have hrun := Runs.walkTree (runs_jsonVisit hF x ⟨"", []⟩)
  rw [toJsonString, hrun]
  exact congrArg Exit.done (String.empty_append ..)

end PlutusData

/-! ### Native scripts -/

namespace NativeScript

def children : NativeScript → List NativeScript
  | scriptAll xs | scriptAny xs | scriptNOfK _ xs => xs
  | _ => []

mutual

def nodes : NativeScript → ℕ
  | scriptAll xs | scriptAny xs | scriptNOfK _ xs => 1 + nodesAll xs
  | _ => 1

def nodesAll : List NativeScript → ℕ
  | [] => 0
  | x :: xs => nodes x + nodesAll xs

end

theorem nodesAll_eq (xs : List NativeScript) : nodesAll xs = (xs.map nodes).sum := by
  induction xs with
  | nil => rfl
  | cons x xs ih => rw [nodesAll, ih, List.map_cons, List.sum_cons]

/-- `TreeNode for NativeScript`. -/
instance : FiniteTree NativeScript where
  childCount x := x.children.length
  child x i := x.children[i]?
  children := children
  nodes := nodes
  childCount_eq _ := rfl
  child_eq _ _ := rfl
  nodes_eq x := by
    cases x with
    | scriptAll xs => rw [nodes, nodesAll_eq, children]
    | scriptAny xs => rw [nodes, nodesAll_eq, children]
    | scriptNOfK n xs => rw [nodes, nodesAll_eq, children]
    | _ => rfl

variable (F : Formats)

/-- What `to_json` makes of a node and the JSON of its children. -/
def jsonNode : NativeScript → List Json → Json
  | scriptPubkey x, _ => .object [("keyHash", .str (F.hex x.toBytes)), ("type", .str "sig")]
  | scriptAll _, children => .object [("scripts", .arr children), ("type", .str "all")]
  | scriptAny _, children => .object [("scripts", .arr children), ("type", .str "any")]
  | scriptNOfK n _, children =>
    .object [("required", .num n.toInt), ("scripts", .arr children), ("type", .str "atLeast")]
  | invalidBefore slot, _ => .object [("type", .str "after"), ("slot", .num slot.toNat)]
  | invalidHereafter slot, _ => .object [("type", .str "before"), ("slot", .num slot.toNat)]

def toJson (s : NativeScript) : Exit Json := foldTree (m := Id) (jsonNode F) s

/-- What `to_json_string` writes at each visit. -/
def jsonText : Visit NativeScript → String
  | .enter (scriptPubkey x) => "\x7b\"keyHash\":\"" ++ F.hex x.toBytes ++ "\",\"type\":\"sig\"\x7d"
  | .enter (scriptAll _) | .enter (scriptAny _) => "\x7b\"scripts\":["
  | .enter (scriptNOfK n _) => "\x7b\"required\":" ++ toString n.toInt ++ ",\"scripts\":["
  | .enter (invalidBefore slot) => "\x7b\"slot\":" ++ toString slot.toNat ++ ",\"type\":\"after\"\x7d"
  | .enter (invalidHereafter slot) => "\x7b\"slot\":" ++ toString slot.toNat ++ ",\"type\":\"before\"\x7d"
  | .between _ => ","
  | .exit (scriptAll _) => "],\"type\":\"all\"\x7d"
  | .exit (scriptAny _) => "],\"type\":\"any\"\x7d"
  | .exit (scriptNOfK _ _) => "],\"type\":\"atLeast\"\x7d"
  | .exit _ => ""

def toJsonString (s : NativeScript) : Exit String :=
  match (walkTree (stepping fun v out => some (out ++ jsonText F v)) s).run "" with
  | some (.done (), out) => .done out
  | _ => .panicked

/-! ### The value and the text -/

/-- The JSON of a script, by recursion. -/
def json (s : NativeScript) : Json := FoldTree.foldRec (m := Id) (jsonNode F) s

theorem json_eq (s : NativeScript) : json F s = jsonNode F s ((children s).map (json F)) := FoldTree.foldRec_id _ s

theorem toJson_eq (s : NativeScript) : toJson F s = .done (json F s) := foldTree_eq_foldRec (m := Id) (jsonNode F) s

/-- The text of a script's JSON. -/
def text (s : NativeScript) : String := (json F s).serialize F.leaves

variable {F}

theorem serializeAll_json (xs : List NativeScript) :
    Json.serializeAll F.leaves (xs.map (json F)) = xs.map (text F) := by
  rw [Json.serializeAll_eq, List.map_map]
  rfl

section Text
variable (hF : F.Lawful)
include hF

theorem text_scripts {kind : String} (hkind : Json.PlainText kind) (xs : List NativeScript) :
    Json.serialize F.leaves (.object [("scripts", .arr (xs.map (json F))), ("type", .str kind)]) =
      "\x7b\"scripts\":[" ++ Json.commas (xs.map (text F)) ++ "],\"type\":\"" ++ kind ++ "\"\x7d" := by
  rw [Json.object_pair (by decide), Json.serialize_members hF.leaves (by simp [Json.PlainText]) (by simp [Json.PlainText]),
    Json.serialize, Json.serialize, serializeAll_json, hF.leaves.string _ hkind, ← String.toList_inj]
  simp [String.toList_append]

theorem text_slot {kind : String} (hkind : Json.PlainText kind) (slot : UInt64) :
    Json.serialize F.leaves (.object [("type", .str kind), ("slot", .num slot.toNat)]) =
      "\x7b\"slot\":" ++ toString slot.toNat ++ ",\"type\":\"" ++ kind ++ "\"\x7d" := by
  have hnumber : toString (slot.toNat : ℤ) = toString slot.toNat := rfl
  rw [Json.object_swapped (by decide), Json.serialize_members hF.leaves (by simp [Json.PlainText])
    (by simp [Json.PlainText]), Json.serialize, Json.serialize, hF.leaves.number, hnumber, hF.leaves.string _ hkind,
    ← String.toList_inj]
  simp [String.toList_append]

theorem text_eq (s : NativeScript) :
    text F s = jsonText F (.enter s) ++ Json.commas ((children s).map (text F)) ++ jsonText F (.exit s) := by
  rw [text, json_eq]
  cases s with
  | scriptPubkey x =>
    rw [jsonNode, Json.object_pair (by decide), Json.serialize_members hF.leaves (by simp [Json.PlainText])
      (by simp [Json.PlainText]), Json.serialize, Json.serialize, hF.leaves.string _ (hF.plain _),
      hF.leaves.string _ (by simp [Json.PlainText]), ← String.toList_inj]
    simp [String.toList_append, jsonText, children, Json.commas]
  | scriptAll xs =>
    rw [jsonNode, children, text_scripts hF (by simp [Json.PlainText]), ← String.toList_inj]
    simp [String.toList_append, jsonText]
  | scriptAny xs =>
    rw [jsonNode, children, text_scripts hF (by simp [Json.PlainText]), ← String.toList_inj]
    simp [String.toList_append, jsonText]
  | scriptNOfK n xs =>
    rw [jsonNode, children, Json.object_triple (by decide) (by decide), Json.serialize_members₃ hF.leaves
      (by simp [Json.PlainText]) (by simp [Json.PlainText]) (by simp [Json.PlainText]), Json.serialize, Json.serialize,
      Json.serialize, hF.leaves.number, serializeAll_json, hF.leaves.string _ (by simp [Json.PlainText]),
      ← String.toList_inj]
    simp [String.toList_append, jsonText]
  | invalidBefore slot =>
    rw [jsonNode, text_slot hF (by simp [Json.PlainText]), ← String.toList_inj]
    simp [String.toList_append, jsonText, children, Json.commas]
  | invalidHereafter slot =>
    rw [jsonNode, text_slot hF (by simp [Json.PlainText]), ← String.toList_inj]
    simp [String.toList_append, jsonText, children, Json.commas]

end Text

theorem runs_jsonVisit (hF : F.Lawful) (s : NativeScript) (out : String) :
    Runs (stepping fun v out => some (out ++ jsonText F v)) (events s) out (out ++ text F s) := by
  induction s using FiniteTree.induction generalizing out with
  | h s ih =>
    have hchildren := runs_commas (s := s) id ih (fun out => run_stepping rfl) (out ++ jsonText F (.enter s))
    have hnode := Runs.node (run_stepping rfl) hchildren (run_stepping rfl)
    rw [text_eq hF]
    simp only [id, String.append_assoc] at hnode ⊢
    exact hnode

theorem toJsonString_eq (hF : F.Lawful) (s : NativeScript) : toJsonString F s = .done (text F s) := by
  have hrun := Runs.walkTree (runs_jsonVisit hF s "")
  rw [toJsonString, hrun]
  exact congrArg Exit.done (String.empty_append ..)

end NativeScript

/-! ### One document -/

/-- `to_json_string` writes the text of what `to_json` builds, for Plutus data of any shape and for native scripts of any
shape, and neither panics. -/
theorem toJsonString_eq_serialize {F : Formats} (hF : F.Lawful) :
    (∀ x : PlutusData, ∃ j, x.toJson F = .done j ∧ x.toJsonString F = .done (j.serialize F.leaves)) ∧
    (∀ s : NativeScript, ∃ j, s.toJson F = .done j ∧ s.toJsonString F = .done (j.serialize F.leaves)) := by
  constructor
  · intro x
    exact ⟨_, PlutusData.toJson_eq F x, PlutusData.toJsonString_eq hF x⟩
  · intro s
    exact ⟨_, NativeScript.toJson_eq F s, NativeScript.toJsonString_eq hF s⟩

/-- A map with a list for a key, and a script of nested lists. -/
theorem nested_toJsonString_eq_serialize :
    let datum := PlutusData.map true
      [(.array true [], .map false []), (.bigInt (.int 1), .constr 102 (some 5) false [])]
    let script := NativeScript.scriptNOfK 1 [.scriptAll [.invalidBefore 7, .scriptAny []], .scriptPubkey 0]
    (∃ j, datum.toJson .reference = .done j ∧
      datum.toJsonString .reference = .done (j.serialize Formats.reference.leaves)) ∧
    (∃ j, script.toJson .reference = .done j ∧
      script.toJsonString .reference = .done (j.serialize Formats.reference.leaves)) := by
  intro datum script
  obtain ⟨hdata, hscripts⟩ := toJsonString_eq_serialize Formats.reference_lawful
  exact ⟨hdata datum, hscripts script⟩

end Pallas
