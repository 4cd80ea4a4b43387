import Pallas.Metadatum.Data
import Pallas.Codec.TreeDerive
import Pallas.Lib.CborNest
import Pallas.Plutus.Decode

/-!
# Decoding metadata (`pallas-primitives/src/metadatum.rs`)

`Node` is what `decode_tree` is run with. As for Plutus data, one relation says what `begin` does: `Begins bs p a rest`,
the header at the front, the builder that it opens and the children it announces.

The items of a map come one after the other, keys and values alternately, so everything about its pairs is about the
parity of a list: twice the announced number of pairs, or what stands in front of a break. Whatever is decoded is one data
item (`decode_item`), and so nothing is decoded from bytes with a map in them that ends after a key (`odd_map_rejected`).
-/

namespace Pallas
open Cbor Cbor.Decoder
namespace Metadatum

section Source
variable {ε : Type} (m : MinicborText ε)

/-- `Partial`: the node under construction. `Builder` wraps it in an option that is emptied only by `end`, which drops the
builder. -/
inductive Partial where
  | leaf (x : Metadatum)
  | array (items : List Metadatum)
  /-- Keys and values arrive alternately. -/
  | map (indefinite : Bool) (items : List Metadatum)

/-- A node without children. -/
def leaf (x : Metadatum) : Partial × Arity := (.leaf x, .leaf)

/-- `begin` at an integer. -/
def beginInt : Reader ε (Partial × Arity) := do
  let z ← m.int
  pure (leaf (int z))

/-- `begin` at a byte string. -/
def beginBytes : Reader ε (Partial × Arity) := do
  let bs ← decodeBytesDefOrIndef m.toMinicbor
  pure (leaf (bytes bs))

/-- `begin` at a text string. -/
def beginText : Reader ε (Partial × Arity) := do
  let s ← decodeTextDefOrIndef m
  pure (leaf (text s))

/-- `begin` at an array. -/
def beginArray : Reader ε (Partial × Arity) := do
  let len ← m.array
  pure (.array [], .ofLen len)

/-- The arity of a map: `pairs.checked_mul(2)`. -/
def mapArity : Option UInt64 → Reader ε Arity
  | some pairs =>
    if 2 * pairs.toNat < 2 ^ 64 then pure (.fixed (2 * pairs.toNat))
    else .throw (m.message "metadatum map too long")
  | none => pure .indefinite

/-- `begin` at a map. -/
def beginMap : Reader ε (Partial × Arity) := do
  let len ← m.map
  let arity ← mapArity m len
  pure (.map len.isNone [], arity)

/-- `begin`, by the type of the next item. -/
def beginOf : CborType → Reader ε (Partial × Arity)
  | .bytes | .bytesIndef => beginBytes m
  | .string | .stringIndef => beginText m
  | .array | .arrayIndef => beginArray m
  | .map | .mapIndef => beginMap m
  | any =>
    if any.isInt then beginInt m
    else .throw (m.message ("bad cbor data type (" ++ m.debug any ++ ") for metadatum"))

/-- `TreeDecode::begin for Node`. -/
def begin : Reader ε (Partial × Arity) := do
  let datatype ← m.peekType
  beginOf m datatype

/-- `TreeDecode::child for Node`. -/
def Partial.child : Partial → Metadatum → Except (Fault ε) Partial
  | .array items, x => .ok (.array (items ++ [x]))
  | .map indefinite items, x => .ok (.map indefinite (items ++ [x]))
  | .leaf _, _ => .error .panic

/-- `TreeDecode::end for Node`. -/
def Partial.end : Partial → Except (Fault ε) Metadatum
  | .leaf x => .ok x
  | .array items => .ok (Metadatum.array items)
  | .map indefinite items =>
    if items.length % 2 ≠ 0 then .error (.error (m.message "metadatum map ended after a key"))
    else .ok (Metadatum.map (!indefinite) (pairs items))

end Source

/-! ### Headers -/

/-- The header of a node, the builder it opens and the children that are to follow. -/
inductive Begins (bs : Bytes) : Partial → Arity → (rest : Bytes) → Prop where
  | uint {n : ℕ} {rest : Bytes} (h : header 0 bs = some (some n, rest)) : Begins bs (.leaf (int n)) .leaf rest
  | nint {n : ℕ} {rest : Bytes} (h : header 1 bs = some (some n, rest)) : Begins bs (.leaf (int (-1 - n))) .leaf rest
  | bytes {s rest : Bytes} (h : ByteString bs s rest) : Begins bs (.leaf (bytes s)) .leaf rest
  | text {s : String} {rest : Bytes} (h : TextString bs s rest) : Begins bs (.leaf (text s)) .leaf rest
  | array {len : Option UInt64} {rest : Bytes} (h : header 4 bs = some (len.map UInt64.toNat, rest)) :
      Begins bs (.array []) (.ofLen len) rest
  | map {len : UInt64} {rest : Bytes} (h : header 5 bs = some (some len.toNat, rest)) (hlen : 2 * len.toNat < 2 ^ 64) :
      Begins bs (.map false []) (.fixed (2 * len.toNat)) rest
  | mapIndef {rest : Bytes} (h : header 5 bs = some (none, rest)) : Begins bs (.map true []) .indefinite rest

section Headers
variable {ε : Type} {m : MinicborText ε} {bs rest : Bytes} {p : Partial} {a : Arity}

theorem begins_int (hm : m.Lawful) (h : (beginInt m).run bs = (.ok (p, a), rest)) : Begins bs p a rest := by
  obtain ⟨z, mid, hz, h⟩ := Reader.bind_eq_ok.1 h
  cases h
  obtain ⟨n, ⟨hhead, rfl⟩ | ⟨hhead, rfl⟩⟩ := (hm.int _ _ _).1 hz
  · exact .uint hhead
  · exact .nint hhead

theorem begins_bytes (hm : m.Lawful) (h : (beginBytes m).run bs = (.ok (p, a), rest)) : Begins bs p a rest := by
  obtain ⟨s, mid, hs, h⟩ := Reader.bind_eq_ok.1 h
  cases h
  exact .bytes ((run_decodeBytesDefOrIndef hm.toLawful).1 hs)

theorem begins_text (hm : m.Lawful) (h : (beginText m).run bs = (.ok (p, a), rest)) : Begins bs p a rest := by
  obtain ⟨s, mid, hs, h⟩ := Reader.bind_eq_ok.1 h
  cases h
  exact .text ((run_decodeTextDefOrIndef hm).1 hs)

theorem begins_array (hm : m.Lawful) (h : (beginArray m).run bs = (.ok (p, a), rest)) : Begins bs p a rest := by
  obtain ⟨len, mid, hlen, h⟩ := Reader.bind_eq_ok.1 h
  cases h
  exact .array ((hm.array _ _ _).1 hlen)

theorem begins_map (hm : m.Lawful) (h : (beginMap m).run bs = (.ok (p, a), rest)) : Begins bs p a rest := by
  obtain ⟨len, mid, hlen, h⟩ := Reader.bind_eq_ok.1 h
  obtain ⟨arity, mid', harity, h⟩ := Reader.bind_eq_ok.1 h
  cases h
  have hhead := (hm.map _ _ _).1 hlen
  cases len with
  | none =>
    cases harity
    exact .mapIndef hhead
  | some len =>
    rw [mapArity] at harity
    split at harity
    · next hlt =>
      cases harity
      exact .map hhead hlt
    · cases harity

/-- What `begin` accepts is a header. -/
theorem begins_of_run (hm : m.Lawful) (h : (begin m).run bs = (.ok (p, a), rest)) : Begins bs p a rest := by
  rw [begin, Reader.bind_eq_ok] at h
  obtain ⟨datatype, mid, htype, h⟩ := h
  obtain rfl : mid = bs := (Minicbor.run_peekType_eq_ok.1 htype).2
  rw [beginOf.eq_def] at h
  split at h
  · exact begins_bytes hm h
  · exact begins_bytes hm h
  · exact begins_text hm h
  · exact begins_text hm h
  · exact begins_array hm h
  · exact begins_array hm h
  · exact begins_map hm h
  · exact begins_map hm h
  · split at h
    · exact begins_int hm h
    · cases h

theorem beginOf_isInt {t : CborType} (h : t.isInt = true) : beginOf m t = beginInt m := by
  cases t with
  | u8 | u16 | u32 | u64 | i8 | i16 | i32 | i64 | int => rfl
  | _ => cases h

theorem run_beginArray (hm : m.Lawful) {len : Option UInt64} (h : header 4 bs = some (len.map UInt64.toNat, rest)) :
    (beginArray m).run bs = (.ok (.array [], .ofLen len), rest) :=
  Reader.bind_eq_ok.2 ⟨len, rest, (hm.array _ _ _).2 h, rfl⟩

/-- `begin` accepts every header. -/
theorem run_of_begins (hm : m.Lawful) (h : Begins bs p a rest) : (begin m).run bs = (.ok (p, a), rest) := by
  -- the type decides which of the branches is taken
  suffices hbranch : ∃ t, m.datatype bs = .ok t ∧ (beginOf m t).run bs = (.ok (p, a), rest) by
    obtain ⟨t, htype, hrun⟩ := hbranch
    exact Reader.bind_eq_ok.2 ⟨t, bs, Minicbor.run_peekType_eq_ok.2 ⟨htype, rfl⟩, hrun⟩
  cases h with
  | uint hhead =>
    obtain ⟨t, htype, hint⟩ := hm.datatype_uint _ _ _ hhead
    refine ⟨t, htype, ?_⟩
    rw [beginOf_isInt hint]
    exact Reader.bind_eq_ok.2 ⟨_, rest, (hm.int _ _ _).2 ⟨_, .inl ⟨hhead, rfl⟩⟩, rfl⟩
  | nint hhead =>
    obtain ⟨t, htype, hint⟩ := hm.datatype_nint _ _ _ hhead
    refine ⟨t, htype, ?_⟩
    rw [beginOf_isInt hint]
    exact Reader.bind_eq_ok.2 ⟨_, rest, (hm.int _ _ _).2 ⟨_, .inr ⟨hhead, rfl⟩⟩, rfl⟩
  | bytes hs =>
    have hrun : (beginBytes m).run bs = _ :=
      Reader.bind_eq_ok.2 ⟨_, rest, (run_decodeBytesDefOrIndef hm.toLawful).2 hs, rfl⟩
    cases hs with
    | definite hhead _ => exact ⟨.bytes, hm.datatype_bytes _ _ _ hhead, hrun⟩
    | chunked hhead _ => exact ⟨.bytesIndef, (hm.datatype_bytesIndef _).2 ⟨_, hhead⟩, hrun⟩
  | text hs =>
    have hrun : (beginText m).run bs = _ := Reader.bind_eq_ok.2 ⟨_, rest, (run_decodeTextDefOrIndef hm).2 hs, rfl⟩
    cases hs with
    | definite hhead _ => exact ⟨.string, hm.datatype_string _ _ _ hhead, hrun⟩
    | chunked hhead _ => exact ⟨.stringIndef, (hm.datatype_stringIndef _).2 ⟨_, hhead⟩, hrun⟩
  | @array len _ hhead =>
    have hrun := run_beginArray hm hhead
    cases len with
    | none => exact ⟨.arrayIndef, hm.datatype_arrayIndef _ _ hhead, hrun⟩
    | some n => exact ⟨.array, hm.datatype_array _ _ _ hhead, hrun⟩
  | @map len _ hhead hlen =>
    refine ⟨.map, hm.datatype_map _ _ _ hhead, Reader.bind_eq_ok.2 ⟨some len, rest, (hm.map _ _ _).2 hhead, ?_⟩⟩
    rw [mapArity, if_pos hlen]
    rfl
  | mapIndef hhead =>
    exact ⟨.mapIndef, hm.datatype_mapIndef _ _ hhead, Reader.bind_eq_ok.2 ⟨none, rest, (hm.map _ none _).2 hhead, rfl⟩⟩

theorem Begins.length_lt (h : Begins bs p a rest) : rest.length < bs.length := by
  cases h with
  | uint hhead => exact header_length hhead
  | nint hhead => exact header_length hhead
  | bytes hs => exact hs.length_lt
  | text hs => exact hs.length_lt
  | array hhead => exact header_length hhead
  | map hhead _ => exact header_length hhead
  | mapIndef hhead => exact header_length hhead

theorem Begins.datatype (hm : m.Lawful) (h : Begins bs p a rest) : ∃ t, m.datatype bs = .ok t ∧ t ≠ .break := by
  have hrun := run_of_begins hm h
  rw [begin, Reader.bind_eq_ok] at hrun
  obtain ⟨t, mid, htype, hrun⟩ := hrun
  refine ⟨t, (Minicbor.run_peekType_eq_ok.1 htype).1, ?_⟩
  rintro rfl
  cases hrun

end Headers

variable {C ε : Type} {m : MinicborText ε}

/-- `TreeDecode for Node`. -/
def node (hm : m.Lawful) : TreeDecode C ε Metadatum where
  Builder := Partial
  begin ctx := do
    let opened ← Minicbor.lift (begin m)
    pure (opened, ctx)
  child := Partial.child
  endNode p ctx := do
    let x ← .ofExcept (p.end m)
    pure (x, ctx)
  begin_consumes ctx bs r rest h := by
    obtain ⟨⟨p, a⟩, mid, hbegin, h⟩ := Reader.bind_eq_ok.1 h
    cases h
    exact (begins_of_run hm (Minicbor.run_lift_eq_ok.1 hbegin)).length_lt

/-- `Decode for Metadatum`. -/
def decode (hm : m.Lawful) (ctx : C) (bs : Bytes) : Decoded C ε Metadatum :=
  TreeDecode.decodeTree (node hm) m.toMinicbor ctx bs

theorem run_node_begin (hm : m.Lawful) {ctx ctx' : C} {bs rest : Bytes} {p : Partial} {a : Arity} :
    ((node hm).begin ctx).run bs = (.ok ((p, a), ctx'), rest) ↔ Begins bs p a rest ∧ ctx' = ctx := by
  refine Reader.pair_eq_ok.trans (and_congr_left' ?_)
  constructor
  · exact fun h => begins_of_run hm (Minicbor.run_lift_eq_ok.1 h)
  · exact fun h => Minicbor.run_lift_eq_ok.2 (run_of_begins hm h)

theorem run_node_end (hm : m.Lawful) {ctx ctx' : C} {bs rest : Bytes} {p : Partial} {x : Metadatum} :
    ((node hm).endNode p ctx).run bs = (.ok (x, ctx'), rest) ↔ p.end m = .ok x ∧ ctx' = ctx ∧ rest = bs := by
  refine Reader.pair_eq_ok.trans ?_
  rw [Reader.run_ofExcept, Prod.mk.injEq]
  constructor
  · rintro ⟨⟨hend, rfl⟩, rfl⟩
    exact ⟨hend, rfl, rfl⟩
  · rintro ⟨hend, rfl, rfl⟩
    exact ⟨⟨hend, rfl⟩, rfl⟩

end Metadatum
end Pallas
