import Pallas.Lib.Reader
import Pallas.Lib.CborItem

/-!
# The decoder of `minicbor`

`minicbor` is not part of the repository. Its decoder is a parameter: `Minicbor ε` holds the methods of
`minicbor::Decoder` that the tree decoders call, as readers with errors `ε`. What the code relies on is
`Minicbor.Lawful`: every method reads one head, byte string or break as RFC 8949 lays it out, in whatever
width the length or the integer comes, and reads nothing else.
-/

namespace Pallas

/-- `minicbor::data::Type`. -/
inductive CborType where
  | bool
  | null
  | undefined
  | u8
  | u16
  | u32
  | u64
  | i8
  | i16
  | i32
  | i64
  | int
  | f16
  | f32
  | f64
  | simple
  | bytes
  | bytesIndef
  | string
  | stringIndef
  | array
  | arrayIndef
  | map
  | mapIndef
  | tag
  | «break»
  | unknown (b : UInt8)
  deriving DecidableEq

/-- The types that `datatype` reports for an integer. -/
def CborType.isInt : CborType → Bool
  | u8 => true
  | u16 => true
  | u32 => true
  | u64 => true
  | i8 => true
  | i16 => true
  | i32 => true
  | i64 => true
  | int => true
  | _ => false

/-- The methods of `minicbor::Decoder`. -/
structure Minicbor (ε : Type) where
  /-- `decode::Error::message`. -/
  message : String → ε
  /-- `Debug for Type`. -/
  debug : CborType → String
  /-- `datatype`: looks at the next item and does not move. -/
  datatype : Bytes → Except ε CborType
  tag : Reader ε UInt64
  array : Reader ε (Option UInt64)
  map : Reader ε (Option UInt64)
  u64 : Reader ε UInt64
  int : Reader ε ℤ
  bytes : Reader ε Bytes
  /-- The chunks that `bytes_iter` gives, up to the end of the string. -/
  bytesIter : Reader ε (List Bytes)
  skip : Reader ε Unit

namespace Minicbor
variable {ε α : Type}

/-- `d.datatype()?`. -/
def peekType (m : Minicbor ε) : Reader ε CborType := ⟨fun bs => (m.datatype bs, bs), fun bs => List.suffix_refl bs⟩

@[simp] theorem run_peekType {m : Minicbor ε} {bs : Bytes} : m.peekType.run bs = (m.datatype bs, bs) := rfl

theorem run_peekType_eq_ok {m : Minicbor ε} {bs rest : Bytes} {t : CborType} :
    m.peekType.run bs = (.ok t, rest) ↔ m.datatype bs = .ok t ∧ rest = bs := by
  rw [run_peekType, Prod.mk.injEq, eq_comm (a := bs)]

/-- A method called from code that may also panic. -/
def lift (x : Reader ε α) : Reader (Fault ε) α := x.mapError .error

@[simp] theorem run_lift_eq_ok {x : Reader ε α} {bs rest : Bytes} {a : α} :
    (lift x).run bs = (.ok a, rest) ↔ x.run bs = (.ok a, rest) := Reader.run_mapError_eq_ok

open Cbor Cbor.Decoder in
/-- What `minicbor` documents of these methods: which bytes each accepts, what it returns for them, and that
it stops right behind them. -/
structure Lawful (m : Minicbor ε) : Prop where
  tag : ∀ bs n rest, m.tag.run bs = (.ok n, rest) ↔ header 6 bs = some (some n.toNat, rest)
  array : ∀ bs n rest, m.array.run bs = (.ok n, rest) ↔ header 4 bs = some (n.map UInt64.toNat, rest)
  map : ∀ bs n rest, m.map.run bs = (.ok n, rest) ↔ header 5 bs = some (n.map UInt64.toNat, rest)
  u64 : ∀ bs n rest, m.u64.run bs = (.ok n, rest) ↔ header 0 bs = some (some n.toNat, rest)
  int : ∀ bs z rest, m.int.run bs = (.ok z, rest) ↔
    ∃ n : ℕ, header 0 bs = some (some n, rest) ∧ z = n ∨ header 1 bs = some (some n, rest) ∧ z = -1 - n
  bytes : ∀ bs s rest, m.bytes.run bs = (.ok s, rest) ↔
    ∃ n mid, header 2 bs = some (some n, mid) ∧ take n mid = some (s, rest)
  bytesIter : ∀ bs cs mid rest, header 2 bs = some (none, mid) →
    (m.bytesIter.run bs = (.ok cs, rest) ↔ Chunks 2 mid cs rest)
  skip_break : ∀ rest, m.skip.run (0xff :: rest) = (.ok (), rest)
  datatype_uint : ∀ bs n rest, header 0 bs = some (some n, rest) → ∃ t, m.datatype bs = .ok t ∧ t.isInt
  datatype_nint : ∀ bs n rest, header 1 bs = some (some n, rest) → ∃ t, m.datatype bs = .ok t ∧ t.isInt
  datatype_bytes : ∀ bs n rest, header 2 bs = some (some n, rest) → m.datatype bs = .ok .bytes
  datatype_bytesIndef : ∀ bs, m.datatype bs = .ok .bytesIndef ↔ ∃ rest, header 2 bs = some (none, rest)
  datatype_array : ∀ bs n rest, header 4 bs = some (some n, rest) → m.datatype bs = .ok .array
  datatype_arrayIndef : ∀ bs rest, header 4 bs = some (none, rest) → m.datatype bs = .ok .arrayIndef
  datatype_map : ∀ bs n rest, header 5 bs = some (some n, rest) → m.datatype bs = .ok .map
  datatype_mapIndef : ∀ bs rest, header 5 bs = some (none, rest) → m.datatype bs = .ok .mapIndef
  datatype_tag : ∀ bs n rest, header 6 bs = some (some n, rest) → m.datatype bs = .ok .tag
  datatype_break : ∀ bs, m.datatype bs = .ok .break ↔ ∃ rest, bs = 0xff :: rest

/-! ### A decoder by the standard

A decoder that does what the laws say, with one text for every error. -/

section Reference
open Cbor Cbor.Decoder

/-- What the decoder says where the bytes end too early. -/
def endOfInput : String := "end of input"

/-- The bytes end within the head of an item, or within its string. -/
def truncated : Bytes → Bool
  | [] => true
  | b :: tail => match argument (b.toNat % 32) tail with
    | none => 24 ≤ b.toNat % 32 ∧ b.toNat % 32 ≤ 27
    | some (n, mid) => (b.toNat / 32 = 2 ∨ b.toNat / 32 = 3) ∧ mid.length < n

def failure (bs : Bytes) : String := if truncated bs then endOfInput else "decode error"

/-- A reader from a decoder that moves forward. -/
def ofDecoder (d : Cbor.Decoder α) (h : ∀ bs a rest, d bs = some (a, rest) → rest <:+ bs) : Reader String α where
  run bs := match d bs with
    | some (a, rest) => (.ok a, rest)
    | none => (.error (failure bs), bs)
  forward bs := by
    cases hd : d bs with
    | none => exact List.suffix_refl bs
    | some r => exact h bs r.1 r.2 hd

theorem run_ofDecoder (d : Cbor.Decoder α) (h : ∀ bs a rest, d bs = some (a, rest) → rest <:+ bs) {bs rest : Bytes}
    {a : α} : (ofDecoder d h).run bs = (.ok a, rest) ↔ d bs = some (a, rest) := by
  show (match d bs with
    | some (a, rest) => ((.ok a, rest) : Except String α × Bytes)
    | none => (.error (failure bs), bs)) = _ ↔ _
  cases d bs with
  | none => simp
  | some r => simp [Prod.ext_iff]

theorem run_ofDecoder_none (d : Cbor.Decoder α) (h : ∀ bs a rest, d bs = some (a, rest) → rest <:+ bs) {bs : Bytes}
    (hnone : d bs = none) : (ofDecoder d h).run bs = (.error (failure bs), bs) := by
  simp only [ofDecoder, hnone]

/-- A definite head whose argument is returned as it is. -/
def definite (major : ℕ) : Cbor.Decoder UInt64 := fun bs => match header major bs with
  | some (some n, rest) => some (UInt64.ofNat n, rest)
  | _ => none

/-- The length of an array or of a map. -/
def length (major : ℕ) : Cbor.Decoder (Option UInt64) := fun bs => match header major bs with
  | some (n, rest) => some (n.map UInt64.ofNat, rest)
  | none => none

/-- An integer of either sign. -/
def signed : Cbor.Decoder ℤ := fun bs => match header 0 bs with
  | some (some n, rest) => some ((n : ℤ), rest)
  | _ => match header 1 bs with
    | some (some n, rest) => some (-1 - (n : ℤ), rest)
    | _ => none

/-- A byte string of definite length. -/
def definiteBytes : Cbor.Decoder Bytes := fun bs => match header 2 bs with
  | some (some n, mid) => take n mid
  | _ => none

/-- The chunks up to the break. -/
def chunkList : (fuel : ℕ) → Cbor.Decoder (List Bytes)
  | 0, _ => none
  | fuel + 1, bs =>
    if bs.head? = some 0xff then some ([], bs.tail)
    else match definiteBytes bs with
      | some (s, mid) => (chunkList fuel mid).map fun r => (s :: r.1, r.2)
      | none => none

/-- The chunks of a byte string in either form. -/
def chunksOf : Cbor.Decoder (List Bytes) := fun bs => match header 2 bs with
  | some (none, mid) => chunkList (mid.length + 1) mid
  | _ => (definiteBytes bs).map fun r => ([r.1], r.2)

/-- The type of an integer, by the width of its argument; a negative one whose argument has its top bit set
does not fit the signed type of that width. -/
def intType (types : CborType × CborType × CborType × CborType) (b : UInt8) (info : ℕ) : CborType :=
  if info ≤ 24 then types.1
  else if info = 25 then types.2.1
  else if info = 26 then types.2.2.1
  else if info = 27 then types.2.2.2
  else .unknown b

/-- The type of a string or a container, in either form. -/
def sizedType (definite indefinite : CborType) (b : UInt8) (info : ℕ) : CborType :=
  if info ≤ 27 then definite else if info = 31 then indefinite else .unknown b

/-- The type of a simple value or a float, and the break. -/
def simpleType (b : UInt8) (info : ℕ) : CborType :=
  if info ≤ 19 then .simple
  else if info ≤ 21 then .bool
  else if info = 22 then .null
  else if info = 23 then .undefined
  else if info = 24 then .simple
  else if info = 25 then .f16
  else if info = 26 then .f32
  else if info = 27 then .f64
  else if info = 31 then .break
  else .unknown b

/-- The type by major type and information. -/
def typeOfHead (b : UInt8) (wide : Bool) (info : ℕ) : (major : ℕ) → CborType
  | 0 => intType (.u8, .u16, .u32, .u64) b info
  | 1 => if wide ∧ 24 ≤ info then intType (.i16, .i32, .i64, .int) b info else intType (.i8, .i16, .i32, .i64) b info
  | 2 => sizedType .bytes .bytesIndef b info
  | 3 => sizedType .string .stringIndef b info
  | 4 => sizedType .array .arrayIndef b info
  | 5 => sizedType .map .mapIndef b info
  | 6 => if info ≤ 27 then .tag else .unknown b
  | _ => simpleType b info

/-- Whether the argument behind a first byte has its top bit set. -/
def wideArgument : Bytes → Bool
  | [] => false
  | c :: _ => 0x80 ≤ c.toNat

/-- The type of an item by its first byte, and for a long negative integer by the top bit of its argument. -/
def typeOf : Bytes → Except String CborType
  | [] => .error endOfInput
  | b :: tail => .ok (typeOfHead b (wideArgument tail) (b.toNat % 32) (b.toNat / 32))

section Steps
variable {bs rest : Bytes}

theorem definite_eq_some {major : ℕ} {n : UInt64} :
    definite major bs = some (n, rest) ↔ header major bs = some (some n.toNat, rest) := by
  unfold definite
  rcases hh : header major bs with _ | ⟨_ | k, mid⟩
  · simp
  · simp
  · have hk := header_lt hh
    simp only [Option.some.injEq, Prod.mk.injEq, and_congr_left_iff]
    rintro -
    constructor
    · rintro rfl
      rw [UInt64.toNat_ofNat_of_lt' hk]
    · rintro rfl
      exact UInt64.ofNat_toNat

theorem length_eq_some {major : ℕ} {n : Option UInt64} :
    length major bs = some (n, rest) ↔ header major bs = some (n.map UInt64.toNat, rest) := by
  unfold length
  rcases hh : header major bs with _ | ⟨_ | k, mid⟩
  · simp
  · cases n <;> simp
  · have hk := header_lt hh
    cases n with
    | none => simp
    | some n =>
      simp only [Option.map_some, Option.some.injEq, Prod.mk.injEq, and_congr_left_iff]
      rintro -
      constructor
      · rintro rfl
        rw [UInt64.toNat_ofNat_of_lt' hk]
      · rintro rfl
        exact UInt64.ofNat_toNat

theorem signed_eq_some {z : ℤ} : signed bs = some (z, rest) ↔
    ∃ n : ℕ, header 0 bs = some (some n, rest) ∧ z = n ∨ header 1 bs = some (some n, rest) ∧ z = -1 - n := by
  -- a head has one major type
  have hone : ∀ {arg arg' : Option ℕ} {mid mid' : Bytes}, header 0 bs = some (arg, mid) →
      header 1 bs = some (arg', mid') → False := by
    intro arg arg' mid mid' h h'
    exact absurd (Reads.header_unique h h').1 (by omega)
  unfold signed
  rcases h0 : header 0 bs with _ | ⟨_ | n, mid⟩
  · rcases h1 : header 1 bs with _ | ⟨_ | n, mid⟩
    · simp
    · simp
    · simp [eq_comm, and_comm]
  · rcases h1 : header 1 bs with _ | ⟨_ | n, mid⟩
    · simp
    · simp
    · exact (hone h0 h1).elim
  · rcases h1 : header 1 bs with _ | ⟨_ | n', mid'⟩
    · simp [eq_comm, and_comm]
    · simp [eq_comm, and_comm]
    · exact (hone h0 h1).elim

theorem definiteBytes_eq_some {s : Bytes} : definiteBytes bs = some (s, rest) ↔
    ∃ n mid, header 2 bs = some (some n, mid) ∧ take n mid = some (s, rest) := by
  unfold definiteBytes
  rcases hh : header 2 bs with _ | ⟨_ | n, mid⟩
  · simp
  · simp
  · simp

theorem definiteBytes_length {s : Bytes} (h : definiteBytes bs = some (s, rest)) : rest.length < bs.length := by
  obtain ⟨n, mid, hhead, htake⟩ := definiteBytes_eq_some.1 h
  obtain ⟨b, tail, rfl, htail⟩ := header_suffix hhead
  have hle := (take_suffix htake).length_le.trans htail.length_le
  rw [List.length_cons]
  omega

theorem chunkList_eq_some {fuel : ℕ} {cs : List Bytes} (hfuel : bs.length < fuel) :
    chunkList fuel bs = some (cs, rest) ↔ Chunks 2 bs cs rest := by
  induction fuel generalizing bs cs rest with
  | zero => omega
  | succ fuel ih =>
    unfold chunkList
    split
    · next hbreak =>
      obtain ⟨tail, rfl⟩ := List.head?_eq_some_iff.1 hbreak
      simp only [List.tail_cons, Option.some.injEq, Prod.mk.injEq]
      constructor
      · rintro ⟨rfl, rfl⟩
        exact .stop
      · rintro (_ | ⟨hhead, -, -⟩)
        · exact ⟨rfl, rfl⟩
        · exact absurd hhead header_break
    · next hbreak =>
      cases hd : definiteBytes bs with
      | none =>
        simp only [reduceCtorEq, false_iff]
        rintro (_ | ⟨hhead, htake, -⟩)
        · simp at hbreak
        · rw [definiteBytes_eq_some.2 ⟨_, _, hhead, htake⟩] at hd
          cases hd
      | some r =>
        obtain ⟨s, mid⟩ := r
        have hlt := definiteBytes_length hd
        obtain ⟨n, start, hhead, htake⟩ := definiteBytes_eq_some.1 hd
        simp only [Option.map_eq_some_iff, Prod.exists, Prod.mk.injEq]
        constructor
        · rintro ⟨cs', rest', hcs, rfl, rfl⟩
          exact .chunk hhead htake ((ih (by omega)).1 hcs)
        · rintro (_ | ⟨hhead', htake', h⟩)
          · simp at hbreak
          · rw [hhead] at hhead'
            cases hhead'
            rw [htake] at htake'
            cases htake'
            exact ⟨_, _, (ih (by omega)).2 h, rfl, rfl⟩

end Steps

section Forward

/-- The decoder moves forward only. -/
def Forward (d : Cbor.Decoder α) : Prop := ∀ bs a rest, d bs = some (a, rest) → rest <:+ bs

theorem Forward.pure (a : α) : Forward (Pure.pure a : Cbor.Decoder α) := by
  intro bs b rest h
  cases h
  exact List.suffix_refl bs

theorem Forward.bind {β : Type} {d : Cbor.Decoder α} {f : α → Cbor.Decoder β} (hd : Forward d)
    (hf : ∀ a, Forward (f a)) : Forward (d >>= f) := by
  intro bs b rest h
  rw [bind_run] at h
  split at h
  · next a mid hmid => exact (hf a _ _ _ h).trans (hd _ _ _ hmid)
  · cases h

theorem Forward.fail : Forward (Cbor.Decoder.fail : Cbor.Decoder α) := fun _ _ _ h => nomatch h

theorem Forward.byte : Forward Cbor.Decoder.byte := by
  intro bs b rest h
  cases bs with
  | nil => cases h
  | cons c tail =>
    cases h
    exact List.suffix_cons b rest

theorem Forward.skipItems (fuel : ℕ) (pending : List (Option ℕ)) : Forward (Cbor.Decoder.skipItems fuel pending) := by
  have harg : ∀ info, Forward (argument info) := fun info _ _ _ h => argument_suffix h
  have htake : ∀ n, Forward (take n) := fun n _ _ _ h => take_suffix h
  induction fuel generalizing pending with
  | zero =>
    cases pending with
    | nil => exact Forward.pure ()
    | cons frame pending => exact Forward.fail
  | succ fuel ih =>
    -- one item in front of the containers that are still open
    have hitem : ∀ (frame : Option ℕ) (pending : List (Option ℕ)), frame ≠ some 0 →
        Forward (Cbor.Decoder.skipItems (fuel + 1) (frame :: pending)) := by
      intro frame pending hframe
      rw [Cbor.Decoder.skipItems]
      · refine Forward.byte.bind fun b => ?_
        dsimp only
        repeat' split
        all_goals first
          | exact ih _
          | exact Forward.fail
          | exact (harg _).bind fun n => ih _
          | exact (harg _).bind fun n => (htake n).bind fun _ => ih _
      · exact hframe
    match pending with
    | [] => exact Forward.pure ()
    | some 0 :: pending => exact ih pending
    | none :: pending => exact hitem none pending (by simp)
    | some (n + 1) :: pending => exact hitem (some (n + 1)) pending (by simp)

/-- Skips one item, or a break. -/
def skipItem : Cbor.Decoder Unit := fun bs => if bs.head? = some 0xff then some ((), bs.tail) else Cbor.Decoder.skip bs

theorem Forward.skipItem : Forward skipItem := by
  intro bs a rest h
  unfold Minicbor.skipItem at h
  split at h
  · cases h
    exact List.tail_suffix bs
  · exact Forward.skipItems _ _ _ _ _ h

theorem Forward.header (major : ℕ) : Forward (Cbor.Decoder.header major) := by
  intro bs r rest h
  obtain ⟨b, tail, rfl, hrest⟩ := header_suffix h
  exact hrest.trans (List.suffix_cons b tail)

theorem Forward.definite (major : ℕ) : Forward (Minicbor.definite major) := by
  intro bs n rest h
  exact Forward.header major _ _ _ (definite_eq_some.1 h)

theorem Forward.length (major : ℕ) : Forward (Minicbor.length major) := by
  intro bs n rest h
  exact Forward.header major _ _ _ (length_eq_some.1 h)

theorem Forward.signed : Forward Minicbor.signed := by
  intro bs z rest h
  obtain ⟨n, ⟨hhead, -⟩ | ⟨hhead, -⟩⟩ := signed_eq_some.1 h
  · exact Forward.header 0 _ _ _ hhead
  · exact Forward.header 1 _ _ _ hhead

theorem Forward.definiteBytes : Forward Minicbor.definiteBytes := by
  intro bs s rest h
  obtain ⟨n, mid, hhead, htake⟩ := definiteBytes_eq_some.1 h
  exact (take_suffix htake).trans (Forward.header 2 _ _ _ hhead)

theorem Forward.chunkList (fuel : ℕ) : Forward (Minicbor.chunkList fuel) := by
  induction fuel with
  | zero => exact fun _ _ _ h => nomatch h
  | succ fuel ih =>
    intro bs cs rest h
    unfold Minicbor.chunkList at h
    split at h
    · cases h
      exact List.tail_suffix bs
    split at h
    · next s mid hs =>
      obtain ⟨⟨cs', rest'⟩, hcs, heq⟩ := Option.map_eq_some_iff.1 h
      cases heq
      exact (ih _ _ _ hcs).trans (Forward.definiteBytes _ _ _ hs)
    · cases h

theorem Forward.chunksOf : Forward Minicbor.chunksOf := by
  intro bs cs rest h
  unfold Minicbor.chunksOf at h
  split at h
  · next mid hmid => exact (Forward.chunkList _ _ _ _ h).trans (Forward.header 2 _ _ _ hmid)
  · obtain ⟨⟨s, rest'⟩, hs, heq⟩ := Option.map_eq_some_iff.1 h
    cases heq
    exact Forward.definiteBytes _ _ _ hs

end Forward

/-- The name of a type, as a derived `Debug` shows it. -/
def debugType : CborType → String
  | .bool => "Bool"
  | .null => "Null"
  | .undefined => "Undefined"
  | .u8 => "U8"
  | .u16 => "U16"
  | .u32 => "U32"
  | .u64 => "U64"
  | .i8 => "I8"
  | .i16 => "I16"
  | .i32 => "I32"
  | .i64 => "I64"
  | .int => "Int"
  | .f16 => "F16"
  | .f32 => "F32"
  | .f64 => "F64"
  | .simple => "Simple"
  | .bytes => "Bytes"
  | .bytesIndef => "BytesIndef"
  | .string => "String"
  | .stringIndef => "StringIndef"
  | .array => "Array"
  | .arrayIndef => "ArrayIndef"
  | .map => "Map"
  | .mapIndef => "MapIndef"
  | .tag => "Tag"
  | .break => "Break"
  | .unknown b => "Unknown(" ++ toString b.toNat ++ ")"

/-- The decoder by the standard. -/
def reference : Minicbor String where
  message := id
  debug := debugType
  datatype := typeOf
  tag := ofDecoder (definite 6) (Forward.definite 6)
  array := ofDecoder (length 4) (Forward.length 4)
  map := ofDecoder (length 5) (Forward.length 5)
  u64 := ofDecoder (definite 0) (Forward.definite 0)
  int := ofDecoder signed Forward.signed
  bytes := ofDecoder definiteBytes Forward.definiteBytes
  bytesIter := ofDecoder chunksOf Forward.chunksOf
  -- an item that is cut off inside is not told from one that is malformed
  skip := (ofDecoder skipItem Forward.skipItem).mapError fun _ => endOfInput

theorem run_skip {bs rest : Bytes} : reference.skip.run bs = (.ok (), rest) ↔ skipItem bs = some ((), rest) :=
  Reader.run_mapError_eq_ok.trans (run_ofDecoder _ Forward.skipItem)

theorem intType_isInt {types : CborType × CborType × CborType × CborType} {b : UInt8} {info : ℕ} (h : info ≤ 27)
    (htypes : types.1.isInt ∧ types.2.1.isInt ∧ types.2.2.1.isInt ∧ types.2.2.2.isInt) :
    (intType types b info).isInt := by
  obtain ⟨h1, h2, h3, h4⟩ := htypes
  unfold intType
  split
  · exact h1
  split
  · exact h2
  split
  · exact h3
  split
  · exact h4
  · omega

theorem typeOf_definite {major n : ℕ} {bs rest : Bytes} (h : header major bs = some (some n, rest)) :
    ∃ b wide info, info ≤ 27 ∧ typeOf bs = .ok (typeOfHead b wide info major) := by
  obtain ⟨b, tail, rfl, -⟩ := header_suffix h
  refine ⟨b, wideArgument tail, b.toNat % 32, header_definite h, ?_⟩
  have hmajor := header_major h
  rw [typeOf, ← hmajor]

theorem typeOf_indef {major : ℕ} {bs rest : Bytes} (h : header major bs = some (none, rest)) :
    ∃ b wide, typeOf bs = .ok (typeOfHead b wide 31 major) := by
  obtain ⟨b, hb, rfl⟩ := header_eq_indef.1 h
  have hmajor : b.toNat / 32 = major := by omega
  have hinfo : b.toNat % 32 = 31 := by omega
  refine ⟨b, wideArgument rest, ?_⟩
  rw [typeOf, hmajor, hinfo]

theorem typeOf_sized {major n : ℕ} {bs rest : Bytes} {definite indefinite : CborType}
    (hhead : ∀ b wide info, typeOfHead b wide info major = sizedType definite indefinite b info)
    (h : header major bs = some (some n, rest)) : typeOf bs = .ok definite := by
  obtain ⟨b, wide, info, hinfo, htype⟩ := typeOf_definite h
  rw [htype, hhead, sizedType, if_pos hinfo]

theorem typeOf_sized_indef {major : ℕ} {bs rest : Bytes} {definite indefinite : CborType}
    (hhead : ∀ b wide info, typeOfHead b wide info major = sizedType definite indefinite b info)
    (h : header major bs = some (none, rest)) : typeOf bs = .ok indefinite := by
  obtain ⟨b, wide, htype⟩ := typeOf_indef h
  rw [htype, hhead]
  rfl

theorem typeOf_eq_ok {bs : Bytes} {t : CborType} (h : typeOf bs = .ok t) :
    ∃ b tail wide, bs = b :: tail ∧ typeOfHead b wide (b.toNat % 32) (b.toNat / 32) = t := by
  cases bs with
  | nil => cases h
  | cons b tail => exact ⟨b, tail, wideArgument tail, rfl, Except.ok.inj h⟩

/-- Only the byte `0x5f` is reported as a byte string of indefinite length, and only `0xff` as a break. -/
theorem typeOfHead_eq {b : UInt8} {wide : Bool} {info major : ℕ} (hmajor : major < 8) :
    (typeOfHead b wide info major = .bytesIndef → major = 2 ∧ info = 31) ∧
      (typeOfHead b wide info major = .break → major = 7 ∧ info = 31) := by
  match major with
  | 0 | 1 | 2 | 3 | 4 | 5 | 6 | 7 =>
    simp only [typeOfHead, intType, sizedType, simpleType]
    repeat' split
    all_goals simp_all
  | n + 8 => omega

theorem reference_lawful : reference.Lawful where
  tag _ _ _ := (run_ofDecoder (definite 6) (Forward.definite 6)).trans definite_eq_some
  array _ _ _ := (run_ofDecoder (length 4) (Forward.length 4)).trans length_eq_some
  map _ _ _ := (run_ofDecoder (length 5) (Forward.length 5)).trans length_eq_some
  u64 _ _ _ := (run_ofDecoder (definite 0) (Forward.definite 0)).trans definite_eq_some
  int _ _ _ := (run_ofDecoder signed Forward.signed).trans signed_eq_some
  bytes _ _ _ := (run_ofDecoder definiteBytes Forward.definiteBytes).trans definiteBytes_eq_some
  bytesIter bs cs mid rest h := by
    have hchunks : chunksOf bs = chunkList (mid.length + 1) mid := by
      rw [chunksOf, h]
    have hrun : (ofDecoder chunksOf Forward.chunksOf).run bs = (.ok cs, rest) ↔ chunksOf bs = some (cs, rest) :=
      run_ofDecoder chunksOf Forward.chunksOf
    rw [hchunks, chunkList_eq_some (Nat.lt_succ_self _)] at hrun
    exact hrun
  skip_break rest := rfl
  datatype_uint bs n rest h := by
    obtain ⟨b, wide, info, hinfo, htype⟩ := typeOf_definite h
    exact ⟨_, htype, intType_isInt hinfo ⟨rfl, rfl, rfl, rfl⟩⟩
  datatype_nint bs n rest h := by
    obtain ⟨b, wide, info, hinfo, htype⟩ := typeOf_definite h
    refine ⟨_, htype, ?_⟩
    rw [typeOfHead]
    split
    · exact intType_isInt hinfo ⟨rfl, rfl, rfl, rfl⟩
    · exact intType_isInt hinfo ⟨rfl, rfl, rfl, rfl⟩
  datatype_bytes _ _ _ h := typeOf_sized (fun _ _ _ => rfl) h
  datatype_bytesIndef bs := by
    constructor
    · intro h
      obtain ⟨b, tail, wide, rfl, ht⟩ := typeOf_eq_ok h
      have hb : b.toNat < 256 := b.toNat_lt
      have heq := (typeOfHead_eq (by omega)).1 ht
      exact ⟨tail, header_eq_indef.2 ⟨b, by omega, rfl⟩⟩
    · rintro ⟨rest, h⟩
      exact typeOf_sized_indef (fun _ _ _ => rfl) h
  datatype_array _ _ _ h := typeOf_sized (fun _ _ _ => rfl) h
  datatype_arrayIndef _ _ h := typeOf_sized_indef (fun _ _ _ => rfl) h
  datatype_map _ _ _ h := typeOf_sized (fun _ _ _ => rfl) h
  datatype_mapIndef _ _ h := typeOf_sized_indef (fun _ _ _ => rfl) h
  datatype_tag bs n rest h := by
    obtain ⟨b, wide, info, hinfo, htype⟩ := typeOf_definite h
    show typeOf bs = _
    rw [htype, typeOfHead, if_pos hinfo]
  datatype_break bs := by
    constructor
    · intro h
      obtain ⟨b, tail, wide, rfl, ht⟩ := typeOf_eq_ok h
      have hb : b.toNat < 256 := b.toNat_lt
      have heq := (typeOfHead_eq (by omega)).2 ht
      have hff : b = 0xff := UInt8.toNat_inj.1 (by rw [show (0xff : UInt8).toNat = 255 from rfl]; omega)
      exact ⟨tail, by rw [hff]⟩
    · rintro ⟨rest, rfl⟩
      rfl

end Reference
end Minicbor
end Pallas
