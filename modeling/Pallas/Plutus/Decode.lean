import Pallas.Plutus.Data
import Pallas.Codec.TreeDecode

/-!
# Decoding Plutus data (`pallas-primitives/src/plutus_data.rs`)

`Node` is what `decode_tree` is run with: `begin` reads the header of a node, `child` collects its children, and
`end` builds the value. Every fact about the decoder goes through one relation: `Begins bs p a rest` says which
header stands at `bs`, what the builder then holds and how many children are to follow, and `begin` returns
exactly what it says (`run_begin`).

The encoder writes, at each visit, what `Begins` asks for, so decoding what was written gives the value back
(`decode_encode`).
-/

namespace Pallas

section Source
variable {ε : Type} (m : Minicbor ε)

def decodeBytesDefOrIndef : Reader ε Bytes := do
  if (← m.peekType) = .bytesIndef then
    let chunks ← m.bytesIter
    pure chunks.flatten
  else m.bytes

/-- `Decode for BigInt`. -/
def BigInt.decode : Reader ε BigInt := do
  let datatype ← m.peekType
  if datatype.isInt then
    let z ← m.int
    pure (.int z)
  else if datatype = .tag then
    let tag ← m.tag
    if tag = 2 then
      let bs ← decodeBytesDefOrIndef m
      pure (.bigUInt bs)
    else if tag = 3 then
      let bs ← decodeBytesDefOrIndef m
      pure (.bigNInt bs)
    else .throw (m.message "invalid cbor tag for big int")
  else .throw (m.message "invalid cbor data type for big int")

namespace PlutusData

/-- `Partial`: the node under construction. `Builder` wraps it in an option that is emptied only by `end`, which
drops the builder. -/
inductive Partial where
  | leaf (x : PlutusData)
  | array (indefinite : Bool) (items : List PlutusData)
  /-- Keys and values arrive alternately. -/
  | map (indefinite : Bool) (items : List PlutusData)
  | constr (tag : UInt64) (anyConstructor : Option UInt64) (indefinite : Bool) (fields : List PlutusData)

/-- The tags `121..=127 | 1280..=1400`. -/
def compactTag (tag : UInt64) : Bool := (121 ≤ tag ∧ tag ≤ 127) ∨ (1280 ≤ tag ∧ tag ≤ 1400)

/-- A node without children. -/
def leaf (x : PlutusData) : Partial × Arity := (.leaf x, .leaf)

/-- The part of a constructor between its tag and its fields. -/
def decodeAnyConstructor (tag : UInt64) : Reader ε (Option UInt64) :=
  if compactTag tag then pure none
  else if tag = 102 then do
    -- the length of this array is read, and not looked at
    let _ ← m.array
    let index ← m.u64
    pure (some index)
  else .throw (m.message "unknown tag for plutus data tag")

/-- The arity of a map: `pairs.checked_mul(2)`. -/
def mapArity : Option UInt64 → Reader ε Arity
  | some pairs =>
    if 2 * pairs.toNat < 2 ^ 64 then pure (.fixed (2 * pairs.toNat))
    else .throw (m.message "plutus data map too long")
  | none => pure .indefinite

/-- `begin` at an integer or a bignum. -/
def beginBigInt : Reader ε (Partial × Arity) := do
  let z ← BigInt.decode m
  pure (leaf (bigInt z))

/-- `begin` at a tag. -/
def beginTag : Reader ε (Partial × Arity) := do
  let tag ← .probe m.tag
  if tag = 2 ∨ tag = 3 then beginBigInt m
  else
    let tag ← m.tag
    let anyConstructor ← decodeAnyConstructor m tag
    let len ← m.array
    pure (.constr tag anyConstructor len.isNone [], .ofLen len)

/-- `begin` at a map. -/
def beginMap : Reader ε (Partial × Arity) := do
  let len ← m.map
  let arity ← mapArity m len
  pure (.map len.isNone [], arity)

/-- `begin` at a byte string. -/
def beginBytes : Reader ε (Partial × Arity) := do
  let bs ← decodeBytesDefOrIndef m
  pure (leaf (boundedBytes bs))

/-- `begin` at an array. -/
def beginArray : Reader ε (Partial × Arity) := do
  let len ← m.array
  pure (.array len.isNone [], .ofLen len)

/-- `begin`, by the type of the next item. -/
def beginOf : CborType → Reader ε (Partial × Arity)
  | .tag => beginTag m
  | .map | .mapIndef => beginMap m
  | .bytes | .bytesIndef => beginBytes m
  | .array | .arrayIndef => beginArray m
  | datatype =>
    if datatype.isInt then beginBigInt m
    else .throw (m.message ("bad cbor data type (" ++ m.debug datatype ++ ") for plutus data"))

/-- `TreeDecode::begin for Node`. -/
def begin : Reader ε (Partial × Arity) := do
  let datatype ← m.peekType
  beginOf m datatype

/-- `TreeDecode::child for Node`. -/
def Partial.child : Partial → PlutusData → Except (Fault ε) Partial
  | .array indefinite items, x => .ok (.array indefinite (items ++ [x]))
  | .map indefinite items, x => .ok (.map indefinite (items ++ [x]))
  | .constr tag anyConstructor indefinite fields, x => .ok (.constr tag anyConstructor indefinite (fields ++ [x]))
  | .leaf _, _ => .error .panic

/-- `TreeDecode::end for Node`. -/
def Partial.end : Partial → Except (Fault ε) PlutusData
  | .leaf x => .ok x
  | .array indefinite items => .ok (PlutusData.array (!indefinite) items)
  | .map indefinite items =>
    if items.length % 2 ≠ 0 then .error (.error (m.message "plutus data map ended after a key"))
    else .ok (PlutusData.map (!indefinite) (pairs items))
  | .constr tag anyConstructor indefinite fields => .ok (PlutusData.constr tag anyConstructor (!indefinite) fields)

end PlutusData

/-! ### Headers -/

open Cbor Cbor.Decoder

/-- The next bytes are the header of a big integer. -/
inductive BigInt.Reads (bs : Bytes) : BigInt → (rest : Bytes) → Prop where
  | uint {n : ℕ} {rest : Bytes} (h : header 0 bs = some (some n, rest)) : Reads bs (.int n) rest
  | nint {n : ℕ} {rest : Bytes} (h : header 1 bs = some (some n, rest)) : Reads bs (.int (-1 - n)) rest
  | bigUInt {mid s rest : Bytes} (htag : header 6 bs = some (some 2, mid)) (h : ByteString mid s rest) :
      Reads bs (.bigUInt s) rest
  | bigNInt {mid s rest : Bytes} (htag : header 6 bs = some (some 3, mid)) (h : ByteString mid s rest) :
      Reads bs (.bigNInt s) rest

namespace PlutusData

/-- The header of a node, the builder it opens and the children that are to follow. -/
inductive Begins (bs : Bytes) : Partial → Arity → (rest : Bytes) → Prop where
  | bigInt {z : BigInt} {rest : Bytes} (h : z.Reads bs rest) : Begins bs (.leaf (bigInt z)) .leaf rest
  | boundedBytes {s rest : Bytes} (h : ByteString bs s rest) : Begins bs (.leaf (boundedBytes s)) .leaf rest
  | array {len : Option UInt64} {rest : Bytes} (h : header 4 bs = some (len.map UInt64.toNat, rest)) :
      Begins bs (.array len.isNone []) (.ofLen len) rest
  | map {len : UInt64} {rest : Bytes} (h : header 5 bs = some (some len.toNat, rest)) (hlen : 2 * len.toNat < 2 ^ 64) :
      Begins bs (.map false []) (.fixed (2 * len.toNat)) rest
  | mapIndef {rest : Bytes} (h : header 5 bs = some (none, rest)) : Begins bs (.map true []) .indefinite rest
  | compact {tag : UInt64} {len : Option UInt64} {mid rest : Bytes} (htag : header 6 bs = some (some tag.toNat, mid))
      (hcompact : compactTag tag = true) (h : header 4 mid = some (len.map UInt64.toNat, rest)) :
      Begins bs (.constr tag none len.isNone []) (.ofLen len) rest
  | general {outer : Option UInt64} {index : UInt64} {len : Option UInt64} {mid mid' mid'' rest : Bytes}
      (htag : header 6 bs = some (some 102, mid)) (houter : header 4 mid = some (outer.map UInt64.toNat, mid'))
      (hindex : header 0 mid' = some (some index.toNat, mid''))
        (h : header 4 mid'' = some (len.map UInt64.toNat, rest)) :
      Begins bs (.constr 102 (some index) len.isNone []) (.ofLen len) rest

end PlutusData

section Headers
variable {m} {bs rest : Bytes}

theorem run_decodeBytesDefOrIndef (hm : m.Lawful) {s : Bytes} :
    (decodeBytesDefOrIndef m).run bs = (.ok s, rest) ↔ ByteString bs s rest := by
  rw [decodeBytesDefOrIndef, Reader.bind_eq_ok]
  constructor
  · rintro ⟨datatype, mid, htype, h⟩
    obtain ⟨htype, rfl⟩ := Minicbor.run_peekType_eq_ok.1 htype
    by_cases hindef : datatype = .bytesIndef
    · subst hindef
      obtain ⟨mid, hhead⟩ := (hm.datatype_bytesIndef _).1 htype
      rw [if_pos rfl, Reader.bind_eq_ok] at h
      obtain ⟨chunks, rest', hchunks, h⟩ := h
      cases h
      exact .chunked hhead ((hm.bytesIter _ _ _ _ hhead).1 hchunks)
    · rw [if_neg hindef] at h
      obtain ⟨n, mid, hhead, htake⟩ := (hm.bytes _ _ _).1 h
      exact .definite hhead htake
  · intro h
    cases h with
    | definite hhead htake =>
      have htype := hm.datatype_bytes _ _ _ hhead
      refine ⟨.bytes, bs, Minicbor.run_peekType_eq_ok.2 ⟨htype, rfl⟩, ?_⟩
      rw [if_neg (by simp)]
      exact (hm.bytes _ _ _).2 ⟨_, _, hhead, htake⟩
    | chunked hhead hchunks =>
      have htype := (hm.datatype_bytesIndef bs).2 ⟨_, hhead⟩
      refine ⟨.bytesIndef, bs, Minicbor.run_peekType_eq_ok.2 ⟨htype, rfl⟩, ?_⟩
      rw [if_pos rfl, Reader.bind_eq_ok]
      exact ⟨_, _, (hm.bytesIter _ _ _ _ hhead).2 hchunks, rfl⟩

theorem run_bigInt (hm : m.Lawful) {z : BigInt} : (BigInt.decode m).run bs = (.ok z, rest) ↔ z.Reads bs rest := by
  rw [BigInt.decode, Reader.bind_eq_ok]
  constructor
  · rintro ⟨datatype, mid, htype, h⟩
    obtain ⟨-, rfl⟩ := Minicbor.run_peekType_eq_ok.1 htype
    split at h
    · obtain ⟨i, mid', hint, h⟩ := Reader.bind_eq_ok.1 h
      cases h
      obtain ⟨n, ⟨hhead, rfl⟩ | ⟨hhead, rfl⟩⟩ := (hm.int _ _ _).1 hint
      · exact .uint hhead
      · exact .nint hhead
    split at h
    · obtain ⟨tag, mid', htag, h⟩ := Reader.bind_eq_ok.1 h
      have hhead := (hm.tag _ _ _).1 htag
      split at h
      · next htwo =>
        obtain ⟨s, mid'', hs, h⟩ := Reader.bind_eq_ok.1 h
        cases h
        subst htwo
        exact .bigUInt hhead ((run_decodeBytesDefOrIndef hm).1 hs)
      split at h
      · next hthree =>
        obtain ⟨s, mid'', hs, h⟩ := Reader.bind_eq_ok.1 h
        cases h
        subst hthree
        exact .bigNInt hhead ((run_decodeBytesDefOrIndef hm).1 hs)
      · cases h
    · cases h
  · intro h
    cases h with
    | uint hhead =>
      obtain ⟨t, htype, hint⟩ := hm.datatype_uint _ _ _ hhead
      refine ⟨t, bs, Minicbor.run_peekType_eq_ok.2 ⟨htype, rfl⟩, ?_⟩
      rw [if_pos hint, Reader.bind_eq_ok]
      exact ⟨_, _, (hm.int _ _ _).2 ⟨_, .inl ⟨hhead, rfl⟩⟩, rfl⟩
    | nint hhead =>
      obtain ⟨t, htype, hint⟩ := hm.datatype_nint _ _ _ hhead
      refine ⟨t, bs, Minicbor.run_peekType_eq_ok.2 ⟨htype, rfl⟩, ?_⟩
      rw [if_pos hint, Reader.bind_eq_ok]
      exact ⟨_, _, (hm.int _ _ _).2 ⟨_, .inr ⟨hhead, rfl⟩⟩, rfl⟩
    | bigUInt htag hs =>
      have htype := hm.datatype_tag _ _ _ htag
      refine ⟨.tag, bs, Minicbor.run_peekType_eq_ok.2 ⟨htype, rfl⟩, ?_⟩
      rw [if_neg (by decide), if_pos rfl, Reader.bind_eq_ok]
      refine ⟨2, _, (hm.tag _ _ _).2 htag, ?_⟩
      rw [if_pos rfl, Reader.bind_eq_ok]
      exact ⟨_, _, (run_decodeBytesDefOrIndef hm).2 hs, rfl⟩
    | bigNInt htag hs =>
      have htype := hm.datatype_tag _ _ _ htag
      refine ⟨.tag, bs, Minicbor.run_peekType_eq_ok.2 ⟨htype, rfl⟩, ?_⟩
      rw [if_neg (by decide), if_pos rfl, Reader.bind_eq_ok]
      refine ⟨3, _, (hm.tag _ _ _).2 htag, ?_⟩
      rw [if_neg (by decide), if_pos rfl, Reader.bind_eq_ok]
      exact ⟨_, _, (run_decodeBytesDefOrIndef hm).2 hs, rfl⟩

namespace PlutusData

theorem begins_constr (hm : m.Lawful) {tag : UInt64} {anyConstructor : Option UInt64} {len : Option UInt64}
    {mid mid' : Bytes} (htag : header 6 bs = some (some tag.toNat, mid))
    (hany : (decodeAnyConstructor m tag).run mid = (.ok anyConstructor, mid'))
    (hlen : m.array.run mid' = (.ok len, rest)) :
    Begins bs (.constr tag anyConstructor len.isNone []) (.ofLen len) rest := by
  have hfields := (hm.array _ _ _).1 hlen
  unfold decodeAnyConstructor at hany
  split at hany
  · next hcompact =>
    cases hany
    exact .compact htag hcompact hfields
  split at hany
  · next hgeneral =>
    subst hgeneral
    obtain ⟨outer, mid'', houter, hany⟩ := Reader.bind_eq_ok.1 hany
    obtain ⟨index, mid''', hindex, hany⟩ := Reader.bind_eq_ok.1 hany
    cases hany
    exact .general htag ((hm.array _ _ _).1 houter) ((hm.u64 _ _ _).1 hindex) hfields
  · cases hany

theorem begins_map (hm : m.Lawful) {p : Partial} {a : Arity} (h : (beginMap m).run bs = (.ok (p, a), rest)) :
    Begins bs p a rest := by
  obtain ⟨len, mid, hlen, h⟩ := Reader.bind_eq_ok.1 h
  obtain ⟨arity, mid', harity, h⟩ := Reader.bind_eq_ok.1 h
  cases h
  have hhead := (hm.map _ _ _).1 hlen
  cases len with
  | none =>
    cases harity
    exact .mapIndef hhead
  | some len =>
    rw [mapArity] at harity
    split at harity
    · next hlt =>
      cases harity
      exact .map hhead hlt
    · cases harity

theorem begins_bytes (hm : m.Lawful) {p : Partial} {a : Arity} (h : (beginBytes m).run bs = (.ok (p, a), rest)) :
    Begins bs p a rest := by
  obtain ⟨s, mid, hs, h⟩ := Reader.bind_eq_ok.1 h
  cases h
  exact .boundedBytes ((run_decodeBytesDefOrIndef hm).1 hs)

theorem begins_array (hm : m.Lawful) {p : Partial} {a : Arity} (h : (beginArray m).run bs = (.ok (p, a), rest)) :
    Begins bs p a rest := by
  obtain ⟨len, mid, hlen, h⟩ := Reader.bind_eq_ok.1 h
  cases h
  exact .array ((hm.array _ _ _).1 hlen)

theorem begins_bigInt (hm : m.Lawful) {p : Partial} {a : Arity} (h : (beginBigInt m).run bs = (.ok (p, a), rest)) :
    Begins bs p a rest := by
  obtain ⟨z, mid, hz, h⟩ := Reader.bind_eq_ok.1 h
  cases h
  exact .bigInt ((run_bigInt hm).1 hz)

theorem begins_tag (hm : m.Lawful) {p : Partial} {a : Arity} (h : (beginTag m).run bs = (.ok (p, a), rest)) :
    Begins bs p a rest := by
  rw [beginTag, Reader.bind_eq_ok] at h
  obtain ⟨tag, mid, hprobe, h⟩ := h
  obtain rfl : bs = mid := (Prod.mk.inj hprobe).2
  split at h
  · exact begins_bigInt hm h
  · rw [Reader.bind_eq_ok] at h
    obtain ⟨tag, mid', htag, h⟩ := h
    obtain ⟨anyConstructor, mid'', hany, h⟩ := Reader.bind_eq_ok.1 h
    obtain ⟨len, mid''', hlen, h⟩ := Reader.bind_eq_ok.1 h
    cases h
    exact begins_constr hm ((hm.tag _ _ _).1 htag) hany hlen

/-- What `begin` accepts is a header. -/
theorem begins_of_run (hm : m.Lawful) {p : Partial} {a : Arity} (h : (begin m).run bs = (.ok (p, a), rest)) :
    Begins bs p a rest := by
  rw [begin, Reader.bind_eq_ok] at h
  obtain ⟨datatype, mid, htype, h⟩ := h
  obtain rfl : mid = bs := (Minicbor.run_peekType_eq_ok.1 htype).2
  rw [beginOf.eq_def] at h
  split at h
  · exact begins_tag hm h
  · exact begins_map hm h
  · exact begins_map hm h
  · exact begins_bytes hm h
  · exact begins_bytes hm h
  · exact begins_array hm h
  · exact begins_array hm h
  · split at h
    · exact begins_bigInt hm h
    · cases h

theorem run_beginBigInt (hm : m.Lawful) {z : BigInt} (h : z.Reads bs rest) :
    (beginBigInt m).run bs = (.ok (leaf (.bigInt z)), rest) :=
  Reader.bind_eq_ok.2 ⟨z, rest, (run_bigInt hm).2 h, rfl⟩

theorem run_beginBytes (hm : m.Lawful) {s : Bytes} (h : ByteString bs s rest) :
    (beginBytes m).run bs = (.ok (leaf (.boundedBytes s)), rest) :=
  Reader.bind_eq_ok.2 ⟨s, rest, (run_decodeBytesDefOrIndef hm).2 h, rfl⟩

theorem run_beginArray (hm : m.Lawful) {len : Option UInt64} (h : header 4 bs = some (len.map UInt64.toNat, rest)) :
    (beginArray m).run bs = (.ok (.array len.isNone [], .ofLen len), rest) :=
  Reader.bind_eq_ok.2 ⟨len, rest, (hm.array _ _ _).2 h, rfl⟩

theorem run_beginTag_bignum (hm : m.Lawful) (tag : UInt64) {z : BigInt} {mid : Bytes} (hbig : tag = 2 ∨ tag = 3)
    (htag : header 6 bs = some (some tag.toNat, mid)) (h : z.Reads bs rest) :
    (beginTag m).run bs = (.ok (leaf (.bigInt z)), rest) := by
  rw [beginTag, Reader.bind_eq_ok]
  refine ⟨tag, bs, ?_, ?_⟩
  · rw [Reader.run_probe, (hm.tag _ _ _).2 htag]
  · rw [if_pos hbig]
    exact run_beginBigInt hm h

theorem run_beginTag_constr (hm : m.Lawful) (tag : UInt64) {anyConstructor len : Option UInt64} {mid mid' : Bytes}
    (hsmall : tag ≠ 2 ∧ tag ≠ 3) (htag : header 6 bs = some (some tag.toNat, mid))
    (hany : (decodeAnyConstructor m tag).run mid = (.ok anyConstructor, mid'))
    (hlen : header 4 mid' = some (len.map UInt64.toNat, rest)) :
    (beginTag m).run bs = (.ok (.constr tag anyConstructor len.isNone [], .ofLen len), rest) := by
  have hrun := (hm.tag _ _ _).2 htag
  rw [beginTag, Reader.bind_eq_ok]
  refine ⟨tag, bs, ?_, ?_⟩
  · rw [Reader.run_probe, hrun]
  rw [if_neg (by tauto), Reader.bind_eq_ok]
  refine ⟨tag, mid, hrun, ?_⟩
  rw [Reader.bind_eq_ok]
  refine ⟨anyConstructor, mid', hany, ?_⟩
  rw [Reader.bind_eq_ok]
  exact ⟨len, rest, (hm.array _ _ _).2 hlen, rfl⟩

theorem compactTag_small {tag : UInt64} (h : compactTag tag = true) : tag ≠ 2 ∧ tag ≠ 3 := by
  constructor
  · rintro rfl
    exact absurd h (by decide)
  · rintro rfl
    exact absurd h (by decide)

theorem beginOf_isInt {t : CborType} (h : t.isInt = true) : beginOf m t = beginBigInt m := by
  cases t with
  | u8 | u16 | u32 | u64 | i8 | i16 | i32 | i64 | int => rfl
  | _ => cases h

/-- `begin` accepts every header. -/
theorem run_of_begins (hm : m.Lawful) {p : Partial} {a : Arity} (h : Begins bs p a rest) :
    (begin m).run bs = (.ok (p, a), rest) := by
  -- the type decides which of the branches is taken
  suffices hbranch : ∃ t, m.datatype bs = .ok t ∧ (beginOf m t).run bs = (.ok (p, a), rest) by
    obtain ⟨t, htype, hrun⟩ := hbranch
    exact Reader.bind_eq_ok.2 ⟨t, bs, Minicbor.run_peekType_eq_ok.2 ⟨htype, rfl⟩, hrun⟩
  cases h with
  | bigInt hz =>
    have hrun := run_beginBigInt hm hz
    cases hz with
    | uint hhead =>
      obtain ⟨t, htype, hint⟩ := hm.datatype_uint _ _ _ hhead
      exact ⟨t, htype, by rw [beginOf_isInt hint]; exact hrun⟩
    | nint hhead =>
      obtain ⟨t, htype, hint⟩ := hm.datatype_nint _ _ _ hhead
      exact ⟨t, htype, by rw [beginOf_isInt hint]; exact hrun⟩
    | bigUInt htag hs =>
      exact ⟨.tag, hm.datatype_tag _ _ _ htag, run_beginTag_bignum hm 2 (.inl rfl) htag (.bigUInt htag hs)⟩
    | bigNInt htag hs =>
      exact ⟨.tag, hm.datatype_tag _ _ _ htag, run_beginTag_bignum hm 3 (.inr rfl) htag (.bigNInt htag hs)⟩
  | boundedBytes hs =>
    have hrun := run_beginBytes hm hs
    cases hs with
    | definite hhead _ => exact ⟨.bytes, hm.datatype_bytes _ _ _ hhead, hrun⟩
    | chunked hhead _ => exact ⟨.bytesIndef, (hm.datatype_bytesIndef _).2 ⟨_, hhead⟩, hrun⟩
  | @array len _ hhead =>
    have hrun := run_beginArray hm hhead
    cases len with
    | none => exact ⟨.arrayIndef, hm.datatype_arrayIndef _ _ hhead, hrun⟩
    | some n => exact ⟨.array, hm.datatype_array _ _ _ hhead, hrun⟩
  | @map len _ hhead hlen =>
    refine ⟨.map, hm.datatype_map _ _ _ hhead, Reader.bind_eq_ok.2 ⟨some len, rest, (hm.map _ _ _).2 hhead, ?_⟩⟩
    rw [mapArity, if_pos hlen]
    rfl
  | mapIndef hhead =>
    exact ⟨.mapIndef, hm.datatype_mapIndef _ _ hhead, Reader.bind_eq_ok.2 ⟨none, rest, (hm.map _ none _).2 hhead, rfl⟩⟩
  | compact htag hcompact hfields =>
    refine ⟨.tag, hm.datatype_tag _ _ _ htag, run_beginTag_constr hm _ (compactTag_small hcompact) htag ?_ hfields⟩
    rw [decodeAnyConstructor, if_pos hcompact]
    rfl
  | @general outer index len mid mid' mid'' _ htag houter hindex hfields =>
    refine ⟨.tag, hm.datatype_tag _ _ _ htag, run_beginTag_constr hm 102 (by decide) htag ?_ hfields⟩
    rw [decodeAnyConstructor, if_neg (by decide), if_pos rfl, Reader.bind_eq_ok]
    refine ⟨outer, mid', (hm.array _ _ _).2 houter, ?_⟩
    rw [Reader.bind_eq_ok]
    exact ⟨index, mid'', (hm.u64 _ _ _).2 hindex, rfl⟩

/-- What `begin` returns and where it stops: the header at the front, and nothing else. -/
theorem run_begin (hm : m.Lawful) {p : Partial} {a : Arity} :
    (begin m).run bs = (.ok (p, a), rest) ↔ Begins bs p a rest := ⟨begins_of_run hm, run_of_begins hm⟩

theorem Begins.length_lt {p : Partial} {a : Arity} (h : Begins bs p a rest) : rest.length < bs.length := by
  cases h with
  | bigInt hz =>
    cases hz with
    | uint hhead => exact header_length hhead
    | nint hhead => exact header_length hhead
    | bigUInt htag hs => exact hs.length_lt.trans (header_length htag)
    | bigNInt htag hs => exact hs.length_lt.trans (header_length htag)
  | boundedBytes hs => exact hs.length_lt
  | array hhead => exact header_length hhead
  | map hhead _ => exact header_length hhead
  | mapIndef hhead => exact header_length hhead
  | compact htag _ hfields => exact (header_length hfields).trans (header_length htag)
  | general htag houter hindex hfields =>
    exact (header_length hfields).trans
      ((header_length hindex).trans ((header_length houter).trans (header_length htag)))

theorem Begins.datatype (hm : m.Lawful) {p : Partial} {a : Arity} (h : Begins bs p a rest) :
    ∃ t, m.datatype bs = .ok t ∧ t ≠ .break := by
  have hrun := run_of_begins hm h
  rw [begin, Reader.bind_eq_ok] at hrun
  obtain ⟨t, mid, htype, hrun⟩ := hrun
  refine ⟨t, (Minicbor.run_peekType_eq_ok.1 htype).1, ?_⟩
  rintro rfl
  cases hrun

end PlutusData
end Headers
end Source

namespace PlutusData
variable {C ε : Type} {m : Minicbor ε}

/-- `TreeDecode for Node`. -/
def node (hm : m.Lawful) : TreeDecode C ε PlutusData where
  Builder := Partial
  begin ctx := do
    let opened ← Minicbor.lift (begin m)
    pure (opened, ctx)
  child := Partial.child
  endNode p ctx := do
    let x ← .ofExcept (p.end m)
    pure (x, ctx)
  begin_consumes ctx bs r rest h := by
    obtain ⟨⟨p, a⟩, mid, hbegin, h⟩ := Reader.bind_eq_ok.1 h
    cases h
    exact (begins_of_run hm (Minicbor.run_lift_eq_ok.1 hbegin)).length_lt

/-- `Decode for PlutusData`. -/
def decode (hm : m.Lawful) (ctx : C) (bs : Bytes) : Decoded C ε PlutusData := TreeDecode.decodeTree (node hm) m ctx bs

theorem run_node_begin (hm : m.Lawful) {ctx ctx' : C} {bs rest : Bytes} {p : Partial} {a : Arity} :
    ((node hm).begin ctx).run bs = (.ok ((p, a), ctx'), rest) ↔ Begins bs p a rest ∧ ctx' = ctx := by
  refine Reader.pair_eq_ok.trans (and_congr_left' ?_)
  constructor
  · exact fun h => begins_of_run hm (Minicbor.run_lift_eq_ok.1 h)
  · exact fun h => Minicbor.run_lift_eq_ok.2 (run_of_begins hm h)

/-! ### What the encoder writes -/

/-- The length of a container, as its header gives it. -/
def lenOf (definite : Bool) (n : ℕ) : Option UInt64 := if definite then some (UInt64.ofNat n) else none

/-- The arity that a container is given back. -/
def arityOf (definite : Bool) (n : ℕ) : Arity := if definite then .fixed n else .indefinite

/-- The builder of a node that has been given some children. -/
def partialOf : PlutusData → List PlutusData → Partial
  | constr tag anyConstructor definite _, xs => .constr tag anyConstructor (!definite) xs
  | map definite _, xs => .map (!definite) xs
  | array definite _, xs => .array (!definite) xs
  | bigInt z, _ => .leaf (bigInt z)
  | boundedBytes bs, _ => .leaf (boundedBytes bs)

/-- The children that the header of a node announces. -/
def announced : PlutusData → Arity
  | constr _ _ definite fields => arityOf definite fields.length
  | map definite entries => arityOf definite (2 * entries.length)
  | array definite items => arityOf definite items.length
  | bigInt _ => .leaf
  | boundedBytes _ => .leaf

section Written
open Cbor Cbor.Decoder
variable {rest : Bytes}

theorem chunks_encodeChunks (rest : Bytes) {fuel : ℕ} {bs : Bytes} (hfuel : bs.length ≤ fuel) :
    ∃ cs, Chunks 2 (encodeChunks fuel bs ++ Cbor.endIndef ++ rest) cs rest ∧ cs.flatten = bs := by
  induction fuel generalizing bs with
  | zero =>
    obtain rfl : bs = [] := List.length_eq_zero_iff.1 (by omega)
    exact ⟨[], .stop, rfl⟩
  | succ fuel ih =>
    cases bs with
    | nil => exact ⟨[], .stop, rfl⟩
    | cons b tail =>
      have hlen : (b :: tail).length = tail.length + 1 := rfl
      have hdrop : ((b :: tail).drop 64).length ≤ fuel := by
        rw [List.length_drop]
        omega
      have htake : ((b :: tail).take 64).length < 2 ^ 64 := by
        rw [List.length_take]
        omega
      obtain ⟨cs, hcs, hflat⟩ := ih hdrop
      refine ⟨(b :: tail).take 64 :: cs, ?_, ?_⟩
      · rw [encodeChunks, Cbor.bytes]
        · simp only [List.append_assoc] at hcs ⊢
          exact .chunk (header_head (by omega) htake) (take_append _ _) hcs
        · simp
      · rw [List.flatten_cons, hflat, List.take_append_drop]

/-- A string is written so that it is read back, in chunks when it is long. -/
theorem byteString_encode {bs : Bytes} (h : bs.length < 2 ^ 63) :
    ByteString (encodeBoundedBytes bs ++ rest) bs rest := by
  unfold encodeBoundedBytes
  split
  · rw [Cbor.bytes, List.append_assoc]
    exact .definite (header_head (by omega) (by omega)) (take_append bs rest)
  · obtain ⟨cs, hcs, hflat⟩ := chunks_encodeChunks rest (le_refl bs.length)
    have hstring := ByteString.chunked (header_indef 2 (by omega)) hcs
    rw [hflat] at hstring
    simpa [Cbor.beginBytes] using hstring

theorem bigInt_encode {z : BigInt} (h : FitsNode (bigInt z)) : z.Reads (z.encode ++ rest) rest := by
  cases z with
  | int z =>
    obtain ⟨hlow, hhigh⟩ := h
    rw [BigInt.encode, Cbor.int]
    split
    · have hz : ((z.toNat : ℕ) : ℤ) = z := by omega
      have hhead : header 0 (Cbor.head 0 z.toNat ++ rest) = some (some z.toNat, rest) :=
        header_head (by omega) (by omega)
      have hread := BigInt.Reads.uint hhead
      rwa [hz] at hread
    · have hz : -1 - (((-1 - z).toNat : ℕ) : ℤ) = z := by omega
      have hhead : header 1 (Cbor.head 1 (-1 - z).toNat ++ rest) = some (some (-1 - z).toNat, rest) :=
        header_head (by omega) (by omega)
      have hread := BigInt.Reads.nint hhead
      rwa [hz] at hread
  | bigUInt bs =>
    rw [BigInt.encode, Cbor.tag, List.append_assoc]
    exact .bigUInt (header_head (by omega) (by omega)) (byteString_encode h)
  | bigNInt bs =>
    rw [BigInt.encode, Cbor.tag, List.append_assoc]
    exact .bigNInt (header_head (by omega) (by omega)) (byteString_encode h)

theorem header_arrayHeader {definite : Bool} {n : ℕ} (h : n < 2 ^ 64) :
    header 4 (arrayHeader definite n ++ rest) = some ((lenOf definite n).map UInt64.toNat, rest) := by
  cases definite with
  | true =>
    rw [arrayHeader, if_pos rfl, Cbor.array, header_head (by omega) h, lenOf, if_pos rfl, Option.map_some,
      UInt64.toNat_ofNat_of_lt' h]
  | false => exact header_indef 4 (by omega)

theorem isNone_lenOf {definite : Bool} {n : ℕ} : (lenOf definite n).isNone = !definite := by
  cases definite <;> rfl

theorem ofLen_lenOf {definite : Bool} {n : ℕ} (h : n < 2 ^ 64) :
    Arity.ofLen (lenOf definite n) = arityOf definite n := by
  cases definite with
  | true =>
    rw [lenOf, if_pos rfl, Arity.ofLen, UInt64.toNat_ofNat_of_lt' h]
    rfl
  | false => rfl

theorem compactTag_of_ok {tag : UInt64} (h : (121 ≤ tag ∧ tag ≤ 127) ∨ (1280 ≤ tag ∧ tag ≤ 1400)) :
    compactTag tag = true := decide_eq_true h

theorem begins_encode (rest : Bytes) {x : PlutusData} (hfits : FitsNode x) (hok : ConstrOkNode x) :
    Begins (encodeVisit (.enter x) ++ rest) (partialOf x []) (announced x) rest := by
  cases x with
  | constr tag anyConstructor definite fields =>
    have hlen : fields.length < 2 ^ 63 := hfits
    have hfields : header 4 (arrayHeader definite fields.length ++ rest) =
        some ((lenOf definite fields.length).map UInt64.toNat, rest) := header_arrayHeader (by omega)
    rw [partialOf, announced, ← isNone_lenOf (n := fields.length), ← ofLen_lenOf (by omega)]
    rcases hok with ⟨htag, rfl⟩ | ⟨rfl, hany⟩
    · have hcompact := compactTag_of_ok htag
      have hne : tag ≠ 102 := by
        rintro rfl
        exact absurd hcompact (by decide)
      rw [encodeVisit, if_neg hne, List.append_nil, Cbor.tag, List.append_assoc]
      exact .compact (header_head (by omega) tag.toNat_lt) hcompact hfields
    · obtain ⟨index, rfl⟩ := Option.isSome_iff_exists.1 hany
      rw [encodeVisit, if_pos rfl, Option.getD_some, Cbor.tag, Cbor.array, Cbor.uint]
      simp only [List.append_assoc]
      have houter : ∀ tail, header 4 (Cbor.head 4 2 ++ tail) = some ((some (2 : UInt64)).map UInt64.toNat, tail) :=
        fun _ => header_head (by omega) (by omega)
      exact .general (header_head (by omega) (by decide)) (houter _) (header_head (by omega) index.toNat_lt) hfields
  | map definite entries =>
    have hlen : entries.length < 2 ^ 63 := hfits
    cases definite with
    | true =>
      have htoNat : (UInt64.ofNat entries.length).toNat = entries.length :=
        UInt64.toNat_ofNat_of_lt' (show entries.length < 2 ^ 64 by omega)
      have hhead : header 5 (Cbor.map entries.length ++ rest) =
          some (some (UInt64.ofNat entries.length).toNat, rest) := by
        rw [Cbor.map, header_head (by omega) (by omega), htoNat]
      have hbegins := Begins.map hhead (by omega)
      rwa [htoNat] at hbegins
    | false => exact .mapIndef (header_indef 5 (by omega))
  | array definite items =>
    have hlen : items.length < 2 ^ 63 := hfits
    rw [partialOf, announced, ← isNone_lenOf (n := items.length), ← ofLen_lenOf (by omega)]
    exact .array (header_arrayHeader (by omega))
  | bigInt z => exact .bigInt (bigInt_encode hfits)
  | boundedBytes bs => exact .boundedBytes (byteString_encode hfits)

theorem end_partialOf (x : PlutusData) : (partialOf x (children x)).end m = .ok x := by
  cases x with
  | map definite entries =>
    have heven : ¬ (alternate entries).length % 2 ≠ 0 := by
      rw [length_alternate]
      omega
    rw [partialOf, children, Partial.end, if_neg heven, pairs_alternate, Bool.not_not]
  | constr tag anyConstructor definite fields => simp [partialOf, children, Partial.end]
  | array definite items => simp [partialOf, children, Partial.end]
  | bigInt z => rfl
  | boundedBytes bs => rfl

theorem child_partialOf {x y : PlutusData} (h : children x ≠ []) (xs : List PlutusData) :
    (partialOf x xs).child y = (.ok (partialOf x (xs ++ [y])) : Except (Fault ε) Partial) := by
  cases x with
  | bigInt z => exact absurd rfl h
  | boundedBytes bs => exact absurd rfl h
  | _ => rfl

end Written

/-! ### Decoding what was written -/

section RoundTrip
open TreeDecode
variable {hm : m.Lawful}

/-- The value is read back from its encoding, in front of any other bytes. -/
def ReadsBack (hm : m.Lawful) (fuel : ℕ) (x : PlutusData) : Prop := ∀ (ctx : C) (rest : Bytes),
  (decodeRec (node hm) m fuel ctx).run (encode x ++ rest) = (.ok (x, ctx), rest)

theorem decodeChildren_fixed (ctx : C) (rest : Bytes) {fuel : ℕ} {x : PlutusData} (xs : List PlutusData)
    {ys : List PlutusData}
    (hx : ∀ y ∈ ys, y ∈ children x) (hfuel : (ys.map nodes).sum * 2 + 1 ≤ fuel)
    (ih : ∀ y ∈ ys, ∀ k, 2 * nodes y ≤ k → ReadsBack (C := C) hm k y) :
    (decodeChildren (node hm) m fuel (.fixed ys.length) (partialOf x xs) ctx).run (ys.flatMap encode ++ rest) =
      (.ok (partialOf x (xs ++ ys), ctx), rest) := by
  induction ys generalizing fuel xs with
  | nil =>
    obtain ⟨fuel, rfl⟩ : ∃ k, fuel = k + 1 := ⟨fuel - 1, by omega⟩
    rw [List.append_nil]
    rfl
  | cons y ys ihys =>
    obtain ⟨fuel, rfl⟩ : ∃ k, fuel = k + 1 := ⟨fuel - 1, by omega⟩
    have hpos : 0 < nodes y := FiniteTree.nodes_pos y
    have hx' : children x ≠ [] := List.ne_nil_of_mem (hx y List.mem_cons_self)
    have hrest := @ihys fuel (xs ++ [y]) (fun z hz => hx z (List.mem_cons_of_mem y hz))
      (by rw [List.map_cons, List.sum_cons] at hfuel; omega) (fun z hz => ih z (List.mem_cons_of_mem y hz))
    rw [List.map_cons, List.sum_cons] at hfuel
    refine Reader.bind_eq_ok.2 ⟨(y, ctx), ys.flatMap encode ++ rest, ?_, ?_⟩
    · rw [List.flatMap_cons, List.append_assoc]
      exact ih y List.mem_cons_self fuel (by omega) ctx _
    · refine Reader.bind_eq_ok.2 ⟨partialOf x (xs ++ [y]), _, congrArg (·, _) (child_partialOf hx' xs), ?_⟩
      rw [← List.append_cons] at hrest
      exact hrest

theorem decodeChildren_indefinite (ctx : C) (rest : Bytes) {fuel : ℕ} {x : PlutusData} (xs : List PlutusData)
    {ys : List PlutusData}
    (hx : ∀ y ∈ ys, y ∈ children x) (hfuel : (ys.map nodes).sum * 2 + 1 ≤ fuel)
    (ih : ∀ y ∈ ys, ∀ k, 2 * nodes y ≤ k → ReadsBack (C := C) hm k y) (hfits : ∀ y ∈ ys, FitsNode y)
    (hok : ∀ y ∈ ys, ConstrOkNode y) :
    (decodeChildren (node hm) m fuel .indefinite (partialOf x xs) ctx).run
      (ys.flatMap encode ++ Cbor.endIndef ++ rest) = (.ok (partialOf x (xs ++ ys), ctx), rest) := by
  induction ys generalizing fuel xs with
  | nil =>
    obtain ⟨fuel, rfl⟩ : ∃ k, fuel = k + 1 := ⟨fuel - 1, by omega⟩
    have htype := (hm.datatype_break (0xff :: rest)).2 ⟨rest, rfl⟩
    rw [List.append_nil]
    refine Reader.bind_eq_ok.2 ⟨.break, 0xff :: rest, ?_, ?_⟩
    · exact Minicbor.run_lift_eq_ok.2 (Minicbor.run_peekType_eq_ok.2 ⟨htype, rfl⟩)
    · rw [if_pos rfl, Reader.bind_eq_ok]
      exact ⟨(), rest, Minicbor.run_lift_eq_ok.2 (hm.skip_break rest), rfl⟩
  | cons y ys ihys =>
    obtain ⟨fuel, rfl⟩ : ∃ k, fuel = k + 1 := ⟨fuel - 1, by omega⟩
    have hpos : 0 < nodes y := FiniteTree.nodes_pos y
    have hx' : children x ≠ [] := List.ne_nil_of_mem (hx y List.mem_cons_self)
    have hrest := @ihys fuel (xs ++ [y]) (fun z hz => hx z (List.mem_cons_of_mem y hz))
      (by rw [List.map_cons, List.sum_cons] at hfuel; omega) (fun z hz => ih z (List.mem_cons_of_mem y hz))
      (fun z hz => hfits z (List.mem_cons_of_mem y hz)) (fun z hz => hok z (List.mem_cons_of_mem y hz))
    rw [List.map_cons, List.sum_cons] at hfuel
    have hbytes : (y :: ys).flatMap encode ++ Cbor.endIndef ++ rest =
        encode y ++ (ys.flatMap encode ++ Cbor.endIndef ++ rest) := by
      simp only [List.flatMap_cons, List.append_assoc]
    obtain ⟨t, htype, ht⟩ : ∃ t, m.datatype (encode y ++ (ys.flatMap encode ++ Cbor.endIndef ++ rest)) = .ok t ∧
        t ≠ .break := by
      rw [encode_eq, List.append_assoc, List.append_assoc]
      exact (begins_encode _ (hfits y List.mem_cons_self) (hok y List.mem_cons_self)).datatype hm
    rw [hbytes]
    refine Reader.bind_eq_ok.2 ⟨t, encode y ++ (ys.flatMap encode ++ Cbor.endIndef ++ rest), ?_, ?_⟩
    · exact Minicbor.run_lift_eq_ok.2 (Minicbor.run_peekType_eq_ok.2 ⟨htype, rfl⟩)
    rw [if_neg ht, Reader.bind_eq_ok]
    refine ⟨(y, ctx), _, ih y List.mem_cons_self fuel (by omega) ctx _, ?_⟩
    refine Reader.bind_eq_ok.2 ⟨partialOf x (xs ++ [y]), _, congrArg (·, _) (child_partialOf hx' xs), ?_⟩
    rw [← List.append_cons] at hrest
    exact hrest

theorem decodeChildren_announced (ctx : C) (rest : Bytes) {fuel : ℕ} {x : PlutusData} (hfuel : 2 * nodes x ≤ fuel + 1)
    (ih : ∀ y ∈ children x, ∀ k, 2 * nodes y ≤ k → ReadsBack (C := C) hm k y)
    (hfits : ∀ y ∈ children x, FitsNode y) (hok : ∀ y ∈ children x, ConstrOkNode y) :
    (decodeChildren (node hm) m fuel (announced x) (partialOf x []) ctx).run
      ((children x).flatMap encode ++ encodeVisit (.exit x) ++ rest) = (.ok (partialOf x (children x), ctx), rest) := by
  have hnodes : nodes x = 1 + ((children x).map nodes).sum := FiniteTree.nodes_eq x
  have hsum : ((children x).map nodes).sum * 2 + 1 ≤ fuel := by omega
  have hleaf : 1 ≤ fuel := by omega
  have hfixed := decodeChildren_fixed ctx rest [] (fun y hy => hy) hsum ih
  have hindef := decodeChildren_indefinite ctx rest [] (fun y hy => hy) hsum ih hfits hok
  rw [List.nil_append] at hfixed hindef
  cases x with
  | constr tag anyConstructor definite fields =>
    cases definite with
    | true =>
      rw [encodeVisit, List.append_nil]
      · exact hfixed
      all_goals simp
    | false => exact hindef
  | map definite entries =>
    cases definite with
    | true =>
      rw [encodeVisit, List.append_nil]
      · rw [show announced (map true entries) = .fixed (children (map true entries)).length by
          rw [children, length_alternate, mul_comm]; rfl]
        exact hfixed
      all_goals simp
    | false => exact hindef
  | array definite items =>
    cases definite with
    | true =>
      rw [encodeVisit, List.append_nil]
      · exact hfixed
      all_goals simp
    | false => exact hindef
  | bigInt z =>
    obtain ⟨fuel, rfl⟩ : ∃ k, fuel = k + 1 := ⟨fuel - 1, by omega⟩
    rfl
  | boundedBytes bs =>
    obtain ⟨fuel, rfl⟩ : ∃ k, fuel = k + 1 := ⟨fuel - 1, by omega⟩
    rfl

theorem readsBack {x : PlutusData} (hfits : Fits x) (hok : ConstrOk x) {fuel : ℕ} (hfuel : 2 * nodes x ≤ fuel) :
    ReadsBack (C := C) hm fuel x := by
  induction x using induction generalizing fuel with
  | h x ih =>
    intro ctx rest
    have hpos : 0 < nodes x := FiniteTree.nodes_pos x
    obtain ⟨fuel, rfl⟩ : ∃ k, fuel = k + 1 := ⟨fuel - 1, by omega⟩
    have hbegin := begins_encode ((children x).flatMap encode ++ encodeVisit (.exit x) ++ rest) hfits.here hok.here
    have hchildren := decodeChildren_announced ctx rest hfuel
      (fun y hy k hk => ih y hy (hfits.child hy) (hok.child hy) hk) (fun y hy => (hfits.child hy).here)
      (fun y hy => (hok.child hy).here)
    rw [encode_eq]
    simp only [List.append_assoc] at hbegin hchildren ⊢
    refine Reader.bind_eq_ok.2 ⟨((partialOf x [], announced x), ctx), _, (run_node_begin hm).2 ⟨hbegin, rfl⟩, ?_⟩
    refine Reader.bind_eq_ok.2 ⟨(partialOf x (children x), ctx), rest, hchildren, ?_⟩
    exact Reader.bind_eq_ok.2 ⟨x, rest, congrArg (·, rest) (end_partialOf x), rfl⟩

end RoundTrip

/-- Decoding what the encoder has written, in front of any other bytes, gives the value back, with its flags, tags
and bytes, and stops right behind its encoding. -/
theorem decode_encode (hm : m.Lawful) {x : PlutusData} (hfits : Fits x) (hok : ConstrOk x) (ctx : C) (rest : Bytes) :
    (encodeTree x).1 = .done () ∧ decode hm ctx ((encodeTree x).2 ++ rest) = (.ok (x, ctx), rest) := by
  rw [encodeTree_eq]
  refine ⟨rfl, ?_⟩
  rw [decode, TreeDecode.decodeTree_eq_decodeRec _ _ _ _ (2 * nodes x)]
  exact readsBack hfits hok (by omega) ctx rest

/-- A constructor in the general spelling, with a map in it whose key is a long string. -/
def nestedDatum : PlutusData :=
  constr 102 (some 130) false [map false [(boundedBytes (List.replicate 65 7), bigInt (.int (-2 ^ 64)))], array true []]

theorem nestedDatum_decode_encode : (encodeTree nestedDatum).1 = .done () ∧
    decode Minicbor.reference_lawful () ((encodeTree nestedDatum).2 ++ [0xff, 0]) =
      (.ok (nestedDatum, ()), [0xff, 0]) := by
  have hbelow : ∀ {P : PlutusData → Prop}, P (bigInt (.int (-2 ^ 64))) → P (boundedBytes (List.replicate 65 7)) →
      P (array true []) → P (map false [(boundedBytes (List.replicate 65 7), bigInt (.int (-2 ^ 64)))]) →
        P nestedDatum →
      FiniteTree.Everywhere P nestedDatum := by
    intro P hint hbytes harray hmap hnode
    have hleaf : ∀ {y : PlutusData}, children y = [] → P y → FiniteTree.Everywhere P y := by
      intro y hy hP
      refine .node hP fun c hc => ?_
      rw [show FiniteTree.children y = [] from hy] at hc
      cases hc
    refine .node hnode fun c hc => ?_
    rcases List.mem_pair.1 hc with rfl | rfl
    · refine .node hmap fun c hc => ?_
      rcases List.mem_pair.1 hc with rfl | rfl
      · exact hleaf rfl hbytes
      · exact hleaf rfl hint
    · exact hleaf rfl harray
  refine decode_encode Minicbor.reference_lawful (hbelow ?_ ?_ ?_ ?_ ?_) (hbelow ?_ ?_ ?_ ?_ ?_) () [0xff, 0]
  · exact ⟨le_refl _, by norm_num⟩
  · show (List.replicate 65 _).length < 2 ^ 63
    rw [List.length_replicate]
    norm_num
  · show 0 < 2 ^ 63
    norm_num
  · show 1 < 2 ^ 63
    norm_num
  · show 2 < 2 ^ 63
    norm_num
  · trivial
  · trivial
  · trivial
  · trivial
  · exact .inr ⟨rfl, rfl⟩

end PlutusData
end Pallas
