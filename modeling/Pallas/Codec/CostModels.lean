import Pallas.Codec.LedgerElements

/-!
# Cost models (`pallas-primitives/src/conway/model.rs`, `pallas-primitives/src/dijkstra/model.rs`)

A map from languages to cost models is read, and its entries are put under the names of the languages; the others are `unknown`. The
encoder of Dijkstra merges them again. That of Conway is derived and skips `unknown`: what is there is not written
(`conwayCostModels_takes_iff`).
-/

namespace Pallas
open Cbor Cbor.Decoder Std

namespace Conway

structure CostModels where
  plutusV1 : Option CostModel
  plutusV2 : Option CostModel
  plutusV3 : Option CostModel
  unknown : FinMap UInt64 CostModel

/-- The variables of the loop over the entries. -/
structure CostModels.Variables where
  plutusV1 : Option CostModel := none
  plutusV2 : Option CostModel := none
  plutusV3 : Option CostModel := none
  unknown : List (UInt64 × CostModel) := []

def CostModels.Variables.assign (s : Variables) (e : UInt64 × CostModel) : Variables := match e.1 with
  | 0 => { s with plutusV1 := some e.2 }
  | 1 => { s with plutusV2 := some e.2 }
  | 2 => { s with plutusV3 := some e.2 }
  | _ => { s with unknown := s.unknown ++ [e] }

/-- What `Decode` makes of the map. -/
def CostModels.ofModels (models : FinMap UInt64 CostModel) : CostModels :=
  let s := models.toList.foldl CostModels.Variables.assign {}
  ⟨s.plutusV1, s.plutusV2, s.plutusV3, ExtTreeMap.ofList s.unknown⟩

/-- The fields that the derived encoder writes: those that are there, `unknown` being skipped. -/
def CostModels.fields (self : CostModels) : List (UInt64 × CostModel) :=
  [((0 : UInt64), self.plutusV1), (1, self.plutusV2), (2, self.plutusV3)].filterMap fun e => e.2.map (Prod.mk e.1)

end Conway

namespace Dijkstra

structure CostModels where
  plutusV1 : Option CostModel
  plutusV2 : Option CostModel
  plutusV3 : Option CostModel
  plutusV4 : Option CostModel
  unknown : FinMap UInt64 CostModel

structure CostModels.Variables where
  plutusV1 : Option CostModel := none
  plutusV2 : Option CostModel := none
  plutusV3 : Option CostModel := none
  plutusV4 : Option CostModel := none
  unknown : List (UInt64 × CostModel) := []

def CostModels.Variables.assign (s : Variables) (e : UInt64 × CostModel) : Variables := match e.1 with
  | 0 => { s with plutusV1 := some e.2 }
  | 1 => { s with plutusV2 := some e.2 }
  | 2 => { s with plutusV3 := some e.2 }
  | 3 => { s with plutusV4 := some e.2 }
  | _ => { s with unknown := s.unknown ++ [e] }

/-- What `Decode` makes of the map. -/
def CostModels.ofModels (models : FinMap UInt64 CostModel) : CostModels :=
  let s := models.toList.foldl CostModels.Variables.assign {}
  ⟨s.plutusV1, s.plutusV2, s.plutusV3, s.plutusV4, ExtTreeMap.ofList s.unknown⟩

/-- A field that is there, among the entries. -/
def CostModels.insertNamed (entries : FinMap UInt64 CostModel) (e : UInt64 × Option CostModel) :
    FinMap UInt64 CostModel := match e.2 with
  | some model => entries.insert e.1 model
  | none => entries

def CostModels.entries (self : CostModels) : FinMap UInt64 CostModel :=
  [((0 : UInt64), self.plutusV1), (1, self.plutusV2), (2, self.plutusV3), (3, self.plutusV4)].foldl insertNamed
    (ExtTreeMap.ofList self.unknown.toList)

end Dijkstra

namespace Codec
variable {ε : Type} (m : MinicborLedger ε)

def costModel : Codec ε CostModel := vec m (i64 m)

/-- `BTreeMap<u64, CostModel>`. -/
def models : Codec ε (FinMap UInt64 CostModel) := btreeMap m (u64 m) (costModel m)

/-- `conway::CostModels`. -/
def conwayCostModels : Codec ε Conway.CostModels where
  decode := Conway.CostModels.ofModels <$> (models m).decode
  encode self := Cbor.map self.fields.length ++ self.fields.flatMap (pair (u64 m) (costModel m)).encode

/-- `dijkstra::CostModels`. -/
def dijkstraCostModels : Codec ε Dijkstra.CostModels where
  decode := Dijkstra.CostModels.ofModels <$> (models m).decode
  encode self := (models m).encode self.entries

end Codec

/-! ### The loops over the entries -/

/-- The last entry of the list with the key. -/
def pick (k : UInt64) (last : Option CostModel) (e : UInt64 × CostModel) :
    Option CostModel := if e.1 = k then some e.2 else last

theorem foldl_pick_of_forall {k : UInt64} {es : List (UInt64 × CostModel)} {last : Option CostModel}
    (h : ∀ e ∈ es, e.1 ≠ k) :
    es.foldl (pick k) last = last := by
  induction es generalizing last with
  | nil => rfl
  | cons e es ih =>
    obtain ⟨hne, h⟩ := List.forall_mem_cons.1 h
    rw [List.foldl_cons, pick, if_neg hne, ih h]

theorem foldl_pick_toList (models : FinMap UInt64 CostModel) (k : UInt64) :
    models.toList.foldl (pick k) none = models[k]? := by
  cases hk : models[k]? with
  | none =>
    refine foldl_pick_of_forall fun e he hek => ?_
    rw [← hek, FinMap.mem_toList.1 he] at hk
    cases hk
  | some v =>
    obtain ⟨before, behind, heq⟩ := List.append_of_mem (FinMap.mem_toList.2 hk)
    have hnodup := FinMap.nodup_keys models
    rw [heq, List.map_append, List.map_cons] at hnodup
    have hbehind : ∀ e ∈ behind, e.1 ≠ k := by
      intro e he hek
      have hnot := (List.nodup_cons.1 (List.Nodup.of_append_right hnodup)).1
      exact hnot (List.mem_map.2 ⟨e, he, hek⟩)
    rw [heq, List.foldl_append, List.foldl_cons, pick, if_pos rfl, foldl_pick_of_forall hbehind]

theorem named₂ {k : UInt64} (h : ¬ 2 < k) : k = 0 ∨ k = 1 ∨ k = 2 := by
  have hle : k.toNat ≤ 2 := Nat.le_of_not_lt h
  simp only [← UInt64.toNat_inj]
  show k.toNat = 0 ∨ k.toNat = 1 ∨ k.toNat = 2
  omega

/-- Those of Dijkstra. -/
theorem named₃ {k : UInt64} (h : ¬ 3 < k) : k = 0 ∨ k = 1 ∨ k = 2 ∨ k = 3 := by
  have hle : k.toNat ≤ 3 := Nat.le_of_not_lt h
  simp only [← UInt64.toNat_inj]
  show k.toNat = 0 ∨ k.toNat = 1 ∨ k.toNat = 2 ∨ k.toNat = 3
  omega

namespace Conway.CostModels

theorem foldl_assign (es : List (UInt64 × CostModel)) (s : Variables) : es.foldl Variables.assign s =
    ⟨es.foldl (pick 0) s.plutusV1, es.foldl (pick 1) s.plutusV2, es.foldl (pick 2) s.plutusV3,
      s.unknown ++ es.filter fun e => 2 < e.1⟩ := by
  induction es generalizing s with
  | nil => simp
  | cons e es ih =>
    obtain ⟨k, model⟩ := e
    rw [List.foldl_cons, ih]
    simp only [List.foldl_cons, pick, Variables.assign]
    split
    · simp
    · simp
    · simp
    · next h0 h1 h2 =>
      have hne : k ≠ 0 ∧ k ≠ 1 ∧ k ≠ 2 := ⟨h0, h1, h2⟩
      have hk : 2 < k := by
        by_contra hle
        obtain rfl | rfl | rfl := named₂ hle <;> contradiction
      simp [hne, hk]

theorem ofModels_eq (models : FinMap UInt64 CostModel) : ofModels models =
    ⟨models[(0 : UInt64)]?, models[(1 : UInt64)]?, models[(2 : UInt64)]?,
      ExtTreeMap.ofList (models.toList.filter fun e => 2 < e.1)⟩ := by
  rw [ofModels, foldl_assign]
  simp only [foldl_pick_toList, List.nil_append]

theorem ofModels_unknown (models : FinMap UInt64 CostModel) (k : UInt64) :
    (ofModels models).unknown[k]? = if 2 < k then models[k]? else none := by
  rw [ofModels_eq]
  simpa using FinMap.getElem?_ofList_filter models (fun k => 2 < k) k

end Conway.CostModels

namespace Dijkstra.CostModels

theorem foldl_assign (es : List (UInt64 × CostModel)) (s : Variables) : es.foldl Variables.assign s =
    ⟨es.foldl (pick 0) s.plutusV1, es.foldl (pick 1) s.plutusV2, es.foldl (pick 2) s.plutusV3,
      es.foldl (pick 3) s.plutusV4,
      s.unknown ++ es.filter fun e => 3 < e.1⟩ := by
  induction es generalizing s with
  | nil => simp
  | cons e es ih =>
    obtain ⟨k, model⟩ := e
    rw [List.foldl_cons, ih]
    simp only [List.foldl_cons, pick, Variables.assign]
    split
    · simp
    · simp
    · simp
    · simp
    · next h0 h1 h2 h3 =>
      have hne : k ≠ 0 ∧ k ≠ 1 ∧ k ≠ 2 ∧ k ≠ 3 := ⟨h0, h1, h2, h3⟩
      have hk : 3 < k := by
        by_contra hle
        obtain rfl | rfl | rfl | rfl := named₃ hle <;> contradiction
      simp [hne, hk]

theorem ofModels_eq (models : FinMap UInt64 CostModel) : ofModels models =
    ⟨models[(0 : UInt64)]?, models[(1 : UInt64)]?, models[(2 : UInt64)]?, models[(3 : UInt64)]?,
      ExtTreeMap.ofList (models.toList.filter fun e => 3 < e.1)⟩ := by
  rw [ofModels, foldl_assign]
  simp only [foldl_pick_toList, List.nil_append]

theorem ofModels_unknown (models : FinMap UInt64 CostModel) (k : UInt64) :
    (ofModels models).unknown[k]? = if 3 < k then models[k]? else none := by
  rw [ofModels_eq]
  simpa using FinMap.getElem?_ofList_filter models (fun k => 3 < k) k

theorem getElem?_insertNamed (entries : FinMap UInt64 CostModel) (e : UInt64 × Option CostModel) (k : UInt64) :
    (insertNamed entries e)[k]? = if e.1 = k then e.2.or entries[k]? else entries[k]? := by
  obtain ⟨key, _ | model⟩ := e
  · simp [insertNamed]
  · rw [insertNamed, FinMap.getElem?_insert_ite]
    rfl

theorem entries_ofModels (models : FinMap UInt64 CostModel) : (ofModels models).entries = models := by
  refine ExtTreeMap.ext_getElem? fun k => ?_
  have hunknown := ofModels_unknown models k
  rw [entries, FinMap.ofList_toList]
  simp only [List.foldl_cons, List.foldl_nil, getElem?_insertNamed, hunknown]
  simp only [ofModels_eq]
  by_cases hk : 3 < k
  · have hne : 0 ≠ k ∧ 1 ≠ k ∧ 2 ≠ k ∧ 3 ≠ k := by
      refine ⟨?_, ?_, ?_, ?_⟩ <;> rintro rfl <;> exact absurd hk (by decide)
    simp [hne, hk]
  · obtain rfl | rfl | rfl | rfl := named₃ hk <;> simp

end Dijkstra.CostModels

/-! ### Re-encoding -/

namespace Codec
variable {ε : Type} {m : MinicborLedger ε} (hm : m.Lawful)
include hm

theorem costModel_roundTrips : (costModel m).RoundTrips := vec_roundTrips hm (i64_roundTrips hm)

theorem dijkstraCostModels_inverts {bs rest : Bytes} {c : Dijkstra.CostModels}
    (h : (dijkstraCostModels m).decode.run bs = (.ok c, rest)) :
    (dijkstraCostModels m).decode.Inverts ((dijkstraCostModels m).encode c) c := by
  change (Dijkstra.CostModels.ofModels <$> (models m).decode).run bs = _ at h
  rw [← bind_pure_comp] at h
  obtain ⟨map, mid, hmap, h⟩ := Reader.bind_eq_ok.1 h
  cases h
  have hback := map_inverts
    (btreeMap_inverts hm (u64_roundTrips hm) (costModel_roundTrips hm) map) Dijkstra.CostModels.ofModels
  change (dijkstraCostModels m).decode.Inverts ((models m).encode (Dijkstra.CostModels.ofModels map).entries) _
  rwa [Dijkstra.CostModels.entries_ofModels]

omit hm in
theorem getElem?_fields (c : Conway.CostModels) (k : UInt64) :
    (c.fields.foldl (fun map e => map.insert e.1 e.2) (∅ : FinMap UInt64 CostModel))[k]? =
      if k = 0 then c.plutusV1 else if k = 1 then c.plutusV2 else if k = 2 then c.plutusV3 else none := by
  have hnamed : c.fields.foldl (fun map e => map.insert e.1 e.2) (∅ : FinMap UInt64 CostModel) =
      [((0 : UInt64), c.plutusV1), (1, c.plutusV2), (2, c.plutusV3)].foldl Dijkstra.CostModels.insertNamed ∅ := by
    rw [Conway.CostModels.fields, List.foldl_filterMap]
    congr 1
    funext map e
    obtain ⟨key, _ | model⟩ := e <;> rfl
  rw [hnamed]
  simp only [List.foldl_cons, List.foldl_nil, Dijkstra.CostModels.getElem?_insertNamed,
    ExtTreeMap.getElem?_empty, Option.or_none]
  by_cases hk : 2 < k
  · have hne : 0 ≠ k ∧ 1 ≠ k ∧ 2 ≠ k ∧ k ≠ 0 ∧ k ≠ 1 ∧ k ≠ 2 := by
      refine ⟨?_, ?_, ?_, ?_, ?_, ?_⟩ <;> rintro rfl <;> exact absurd hk (by decide)
    simp [hne]
  · obtain rfl | rfl | rfl := named₂ hk <;> simp

theorem conwayCostModels_inverts (c : Conway.CostModels) :
    (conwayCostModels m).decode.Inverts ((conwayCostModels m).encode c) { c with unknown := ∅ } := by
  have hentries := entries_inverts hm (u64_roundTrips hm) (costModel_roundTrips hm) c.fields
  have hmodels : (models m).decode.Inverts ((conwayCostModels m).encode c)
      (c.fields.foldl (fun map e => map.insert e.1 e.2) ∅) := hentries.last rfl
  have hback := map_inverts hmodels Conway.CostModels.ofModels
  have heq : Conway.CostModels.ofModels (c.fields.foldl (fun map e => map.insert e.1 e.2) ∅) =
      { c with unknown := ∅ } := by
    have hunknown : (Conway.CostModels.ofModels (c.fields.foldl (fun map e => map.insert e.1 e.2) ∅)).unknown = ∅ := by
      refine ExtTreeMap.ext_getElem? fun k => ?_
      rw [Conway.CostModels.ofModels_unknown, getElem?_fields]
      split
      · next hk =>
        have hne : k ≠ 0 ∧ k ≠ 1 ∧ k ≠ 2 := by
          refine ⟨?_, ?_, ?_⟩ <;> rintro rfl <;> exact absurd hk (by decide)
        simp [hne]
      · simp
    rw [Conway.CostModels.ofModels_eq] at hunknown ⊢
    simp only [getElem?_fields] at hunknown ⊢
    simpa using hunknown
  rwa [heq] at hback

omit hm in
/-- No entry of the map at the front has a key that Conway does not name. -/
def Named (m : MinicborLedger ε) (bs rest : Bytes) : Prop := ∀ len mid es, header 5 bs = some (len, mid) →
  Elements (entry m.u64 (costModel m).decode) len mid es rest → ∀ e ∈ es, e.1 ≤ 2

theorem conwayCostModels_takes_iff {bs rest : Bytes} {c : Conway.CostModels}
    (h : (conwayCostModels m).decode.run bs = (.ok c, rest))
    (hlt : ((conwayCostModels m).encode c).length < 2 ^ 64) :
    (conwayCostModels m).decode.Takes ((conwayCostModels m).encode c) c ↔ Named m bs rest := by
  change (Conway.CostModels.ofModels <$> (models m).decode).run bs = _ at h
  rw [← bind_pure_comp] at h
  obtain ⟨map, mid, hmap, h⟩ := Reader.bind_eq_ok.1 h
  obtain ⟨es, mid', hes, hmap⟩ := Reader.bind_eq_ok.1 hmap
  cases hmap
  cases h
  obtain ⟨len, start, hhead, helems⟩ := (hm.mapIter _ _ _ _ _).1 hes
  have hback := conwayCostModels_inverts hm _ hlt
  generalize hc : Conway.CostModels.ofModels (es.foldl (fun map e => map.insert e.1 e.2) ∅) = c at hback ⊢
  have hunknown : ∀ k : UInt64, c.unknown[k]? =
      if 2 < k then (es.foldl (fun map e => map.insert e.1 e.2) (∅ : FinMap UInt64 CostModel))[k]? else none := by
    intro k
    rw [← hc, Conway.CostModels.ofModels_unknown]
  constructor
  · intro htakes len' start' es' hhead' helems' e he
    have hsame : c = { c with unknown := ∅ } := by
      have hruns := (htakes []).symm.trans (hback [])
      exact Except.ok.inj (Prod.mk.inj hruns).1
    have hempty : c.unknown = ∅ := congrArg Conway.CostModels.unknown hsame
    have hrun' := (hm.mapIter _ _ _ _ _).2 ⟨len', start', hhead', helems'⟩
    cases hes.symm.trans hrun'
    by_contra hle
    have hlt : 2 < e.1 := Nat.lt_of_not_le hle
    have hnone := hunknown e.1
    rw [hempty, if_pos hlt, ExtTreeMap.getElem?_empty, ← ExtTreeMap.insertMany_list_eq_foldl] at hnone
    have hmem : e.1 ∈ (∅ : FinMap UInt64 CostModel).insertMany es := by
      rw [ExtTreeMap.mem_insertMany_list]
      refine .inr ?_
      simpa using ⟨e.2, he⟩
    obtain ⟨v, hv⟩ := FinMap.exists_of_mem hmem
    rw [← hnone] at hv
    cases hv
  · intro hnamed
    have hempty : c.unknown = ∅ := by
      refine ExtTreeMap.ext_getElem? fun k => ?_
      rw [hunknown, ExtTreeMap.getElem?_empty]
      split
      · next hk =>
        rw [Option.eq_none_iff_forall_ne_some]
        intro v hv
        obtain hmem | hnone := FinMap.getElem?_foldl_insert hv
        · exact absurd (hnamed _ _ _ hhead helems _ hmem) (Nat.not_le_of_lt hk)
        · simp at hnone
      · rfl
    have hsame : { c with unknown := ∅ } = c := by rw [← hempty]
    rwa [hsame] at hback

end Codec
end Pallas
