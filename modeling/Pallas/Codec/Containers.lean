import Pallas.Codec.ValuesReference
import Pallas.Eras

/-!
# Container codecs (`pallas-codec/src/utils.rs`)

Nine wrappers make a codec of the codecs of their elements. Where these round-trip and read one item each, a wrapper round-trips, and
what it accepts is one item of which it keeps every entry; the exception is a map of indefinite length read as
`OrderPreservingProperties` (`wrapper_iff`).
-/

namespace Pallas
open Cbor Cbor.Decoder

/-- `null` and `undefined`, beside the methods of `MinicborValues`. -/
structure MinicborContainers (ε : Type) extends MinicborValues ε where
  null : Reader ε Unit
  undefined : Reader ε Unit
  /-- `Debug for Tag`. -/
  debugTag : UInt64 → String

/-- What `minicbor` documents of them. -/
structure MinicborContainers.Lawful {ε : Type} (m : MinicborContainers ε) : Prop extends toValues :
    m.toMinicborValues.Lawful where
  null : ∀ bs rest, m.null.run bs = (.ok (), rest) ↔ bs = 0xf6 :: rest
  undefined : ∀ bs rest, m.undefined.run bs = (.ok (), rest) ↔ bs = 0xf7 :: rest
  datatype_null : ∀ bs, m.datatype bs = .ok .null ↔ ∃ rest, bs = 0xf6 :: rest
  datatype_undefined : ∀ bs, m.datatype bs = .ok .undefined ↔ ∃ rest, bs = 0xf7 :: rest
  datatype_item : ∀ bs rest, Reads .item bs rest → ∃ t, m.datatype bs = .ok t

/-- How a type is read and written. -/
structure Codec (ε α : Type) where
  decode : Reader ε α
  encode : α → Bytes

/-- What the reader accepts are `n` items. -/
def ReadsItems {ε α : Type} (n : ℕ) (x : Reader ε α) : Prop :=
  ∀ bs a rest, x.run bs = (.ok a, rest) → Reads (.items n) bs rest

/-- The codec round-trips and reads `n` items. -/
structure Codec.Sound {ε α : Type} (n : ℕ) (c : Codec ε α) : Prop where
  inverts : ∀ a, c.decode.Inverts (c.encode a) a
  reads : ReadsItems n c.decode

/-- A sequence with the form of its length: `KeyValuePairs`, `NonEmptyKeyValuePairs` and `MaybeIndefArray`. -/
inductive Sized (A : Type) where
  | definite (xs : List A)
  | indefinite (xs : List A)
  deriving DecidableEq

def Sized.toVec {A : Type} : Sized A → List A
  | definite xs => xs
  | indefinite xs => xs

/-- The length that the head of the sequence gives. -/
def Sized.length {A : Type} : Sized A → Option ℕ
  | definite xs => some xs.length
  | indefinite _ => none

namespace Codec
variable {ε α κ ν : Type} (m : MinicborContainers ε)

/-! ### The codecs -/

/-- A key and a value. -/
def pair (key : Codec ε κ) (value : Codec ε ν) : Codec ε (κ × ν) where
  decode := entry key.decode value.decode
  encode e := key.encode e.1 ++ value.encode e.2

/-- A map of pairs that keeps the form of its length. -/
def pairs (invalid : String) (key : Codec ε κ) (value : Codec ε ν) : Codec ε (Sized (κ × ν)) where
  decode := do
    let datatype ← m.peekType
    let items ← m.mapIter key.decode value.decode
    match datatype with
    | .map => pure (.definite items)
    | .mapIndef => pure (.indefinite items)
    | _ => Reader.throw (m.message invalid)
  encode
    | .definite xs => Cbor.map xs.length ++ xs.flatMap (pair key value).encode
    | .indefinite xs => beginMap ++ xs.flatMap (pair key value).encode ++ endIndef

/-- `KeyValuePairs<K, V>`. -/
def keyValuePairs : Codec ε κ → Codec ε ν → Codec ε (Sized (κ × ν)) := pairs m "invalid data type for keyvaluepairs"

/-- `NonEmptyKeyValuePairs<K, V>`: the decoder lets an empty map pass. -/
def nonEmptyKeyValuePairs : Codec ε κ → Codec ε ν → Codec ε (Sized (κ × ν)) :=
  pairs m "invalid data type for nonemptykeyvaluepairs"

/-- `MaybeIndefArray<A>`. -/
def maybeIndefArray (item : Codec ε α) : Codec ε (Sized α) where
  decode := do
    match ← m.peekType with
    | .array => .definite <$> m.arrayIter item.decode
    | .arrayIndef => .indefinite <$> m.arrayIter item.decode
    | _ => Reader.throw (m.message "unknown data type of maybe indef array")
  encode
    | .definite xs => Cbor.array xs.length ++ xs.flatMap item.encode
    | .indefinite xs => beginArray ++ xs.flatMap item.encode ++ endIndef

/-- `(0..len).map(|_| d.decode_with(ctx)).collect()`. -/
def times (item : Reader ε α) : ℕ → Reader ε (List α)
  | 0 => pure []
  | n + 1 => do
    let a ← item
    let as ← times item n
    pure (a :: as)

/-- `OrderPreservingProperties<P>`: a length that is not given counts as zero. -/
def orderPreservingProperties (property : Codec ε α) : Codec ε (List α) where
  decode := do
    let len ← m.map
    times property.decode (len.getD 0).toNat
  encode xs := Cbor.map xs.length ++ xs.flatMap property.encode

def tagSet : UInt64 := 258

/-- A sequence behind an optional tag. -/
def tagged (item : Codec ε α) : Codec ε (List α) where
  decode := do
    if (← m.peekType) = .tag then
      let found ← m.tag
      if found ≠ tagSet then Reader.throw (m.message ("Unrecognised tag: " ++ m.debugTag found))
      else m.arrayIter item.decode
    else m.arrayIter item.decode
  encode xs := Cbor.tag tagSet.toNat ++ (Cbor.array xs.length ++ xs.flatMap item.encode)

/-- `Set<T>`. -/
def set : Codec ε α → Codec ε (List α) := tagged m

/-- `NonEmptySet<T>`: the decoder lets an empty array pass. -/
def nonEmptySet : Codec ε α → Codec ε (List α) := tagged m

/-- `Nullable<T>`. -/
def nullable (item : Codec ε α) : Codec ε (Nullable α) where
  decode := do
    match ← m.peekType with
    | .null => do
      let _ ← m.null
      pure .null
    | .undefined => do
      let _ ← m.undefined
      pure .undefined
    | _ => .some <$> item.decode
  encode
    | .some a => item.encode a
    | .null => Cbor.null
    | .undefined => [0xf7]

/-- `ZeroOrOneArray<T>`. -/
def zeroOrOneArray (item : Codec ε α) : Codec ε (Option α) where
  decode := do
    match ← m.array with
    | some 0 => pure none
    | some 1 => some <$> item.decode
    | some _ => Reader.throw (m.message "found invalid len for zero-or-one pattern")
    | none => Reader.throw (m.message "found invalid indefinite len array for zero-or-one pattern")
  encode
    | some a => Cbor.array 1 ++ item.encode a
    | none => Cbor.array 0

/-- `minicbor::decode_with`: the value at the front of the bytes. -/
def decodeWith (item : Codec ε α) (bs : Bytes) : Except ε α := (item.decode.run bs).1

/-- `CborWrap<T>`: the number of the tag is not checked. -/
def cborWrap (item : Codec ε α) : Codec ε α where
  decode := do
    let _ ← m.tag
    let cbor ← m.bytes
    Reader.ofExcept (decodeWith item cbor)
  encode a := Cbor.tag 24 ++ Cbor.bytes (item.encode a)

end Codec

/-! ### What is asked of them -/

/-- The nine wrappers. -/
inductive Wrapper where
  | keyValuePairs
  | nonEmptyKeyValuePairs
  | maybeIndefArray
  | orderPreservingProperties
  | set
  | nonEmptySet
  | nullable
  | zeroOrOneArray
  | cborWrap
  deriving DecidableEq

/-- The values of a wrapper. -/
def Wrapper.Value (α κ ν π : Type) : Wrapper → Type
  | keyValuePairs => Sized (κ × ν)
  | nonEmptyKeyValuePairs => Sized (κ × ν)
  | maybeIndefArray => Sized α
  | orderPreservingProperties => List π
  | set => List α
  | nonEmptySet => List α
  | nullable => Nullable α
  | zeroOrOneArray => Option α
  | cborWrap => α

/-- The codecs of what the wrappers hold. -/
structure Held (ε α κ ν π : Type) where
  item : Codec ε α
  key : Codec ε κ
  value : Codec ε ν
  property : Codec ε π

structure Held.Sound {ε α κ ν π : Type} (c : Held ε α κ ν π) : Prop where
  item : c.item.Sound 1
  key : c.key.Sound 1
  value : c.value.Sound 1
  property : c.property.Sound 2

/-- The bytes of a value are not those of `null` or `undefined`. -/
def Codec.NeverNull {ε α : Type} (c : Codec ε α) :
    Prop := ∀ a tail, c.encode a ≠ 0xf6 :: tail ∧ c.encode a ≠ 0xf7 :: tail

namespace Wrapper
variable {ε α κ ν π : Type} (m : MinicborContainers ε) (c : Held ε α κ ν π)

def codec : (w : Wrapper) → Codec ε (w.Value α κ ν π)
  | keyValuePairs => .keyValuePairs m c.key c.value
  | nonEmptyKeyValuePairs => .nonEmptyKeyValuePairs m c.key c.value
  | maybeIndefArray => .maybeIndefArray m c.item
  | orderPreservingProperties => .orderPreservingProperties m c.property
  | set => .set m c.item
  | nonEmptySet => .nonEmptySet m c.item
  | nullable => .nullable m c.item
  | zeroOrOneArray => .zeroOrOneArray m c.item
  | cborWrap => .cborWrap m c.item

/-- The value holds what the bytes hold: every entry, in order, and the form of the length where the type has it. -/
def Whole (bs rest : Bytes) : (w : Wrapper) → w.Value α κ ν π → Prop
  | keyValuePairs, (a : Sized (κ × ν)) => Pairs a
  | nonEmptyKeyValuePairs, (a : Sized (κ × ν)) => Pairs a
  | maybeIndefArray, (a : Sized α) =>
    ∃ mid, header 4 bs = some (a.length, mid) ∧ Elements c.item.decode a.length mid a.toVec rest
  | orderPreservingProperties, (as : List π) =>
    ∃ len mid, header 5 bs = some (len, mid) ∧ Elements c.property.decode len mid as rest
  | set, (as : List α) => Tagged as
  | nonEmptySet, (as : List α) => Tagged as
  | nullable, .some a => c.item.decode.run bs = (.ok a, rest)
  | nullable, .null => bs = 0xf6 :: rest
  | nullable, .undefined => bs = 0xf7 :: rest
  | zeroOrOneArray, none => header 4 bs = some (some 0, rest)
  | zeroOrOneArray, some a => ∃ mid, header 4 bs = some (some 1, mid) ∧ c.item.decode.run mid = (.ok a, rest)
  | cborWrap, (a : α) => ∃ n k mid mid' s, header 6 bs = some (some n, mid) ∧ header 2 mid = some (some k, mid') ∧
    take k mid' = some (s, rest) ∧ c.item.decode.run s = (.ok a, [])
where
  Pairs (a : Sized (κ × ν)) : Prop :=
    ∃ mid, header 5 bs = some (a.length, mid) ∧ Elements (entry c.key.decode c.value.decode) a.length mid a.toVec rest
  /-- Behind the tag, or without one. -/
  Tagged (as : List α) : Prop := ∃ start len mid, (start = bs ∨ header 6 bs = some (some 258, start)) ∧
    header 4 start = some (len, mid) ∧ Elements c.item.decode len mid as rest

/-- Values round-trip, and of these bytes, where they are accepted, one item is consumed and nothing in it is lost. -/
structure Meets (w : Wrapper) (bs : Bytes) : Prop where
  inverts : ∀ a, (w.codec m c).decode.Inverts ((w.codec m c).encode a) a
  keeps : ∀ a rest, (w.codec m c).decode.run bs = (.ok a, rest) → Reads .item bs rest ∧ Whole c bs rest w a

/-- Where something is lost: a map of indefinite length as `OrderPreservingProperties`, and a wrapped byte string that goes
on behind its item. -/
def Loses (bs : Bytes) : Wrapper → Prop
  | orderPreservingProperties => ∃ rest, header 5 bs = some (none, rest)
  | cborWrap => ∃ n k mid mid' s rest a more, header 6 bs = some (some n, mid) ∧ header 2 mid = some (some k, mid') ∧
    take k mid' = some (s, rest) ∧ c.item.decode.run s = (.ok a, more) ∧ more ≠ []
  | _ => False

end Wrapper

/-! ### What was read is so many items -/

section Items
variable {ε α κ ν : Type} {item : Reader ε α} {bs mid rest : Bytes} {as : List α} {len : Option ℕ}

theorem entry_readsItems {key : Reader ε κ} {value : Reader ε ν} (hk : ReadsItems 1 key) (hv : ReadsItems 1 value) :
    ReadsItems 2 (entry key value) := by
  intro bs e rest h
  obtain ⟨k, mid, hkey, h⟩ := Reader.bind_eq_ok.1 h
  obtain ⟨v, mid', hvalue, h⟩ := Reader.bind_eq_ok.1 h
  cases h
  exact Reads.items_append (hk _ _ _ hkey) (hv _ _ _ hvalue)

theorem Elements.reads_items {n k : ℕ} (hitem : ReadsItems k item) (h : Elements item (some n) bs as rest) :
    Reads (.items (k * n)) bs rest := by
  generalize hlen : some n = len at h
  induction h generalizing n with
  | done =>
    cases hlen
    exact .none
  | next ha _ ih =>
    cases hlen
    rw [Nat.mul_succ, Nat.add_comm]
    exact Reads.items_append (hitem _ _ _ ha) (ih rfl)
  | stop => cases hlen
  | more => cases hlen

theorem Elements.reads_untilBreak (hitem : ReadsItems 1 item) (h : Elements item none bs as rest) :
    Reads .untilBreak bs rest := by
  generalize hlen : none = len at h
  induction h with
  | done => cases hlen
  | next => cases hlen
  | stop => exact .stop rfl
  | more _ ha _ ih => exact .more (hitem _ _ _ ha).items_one (ih hlen)

theorem Elements.reads_pairsUntilBreak (hitem : ReadsItems 2 item) (h : Elements item none bs as rest) :
    Reads .pairsUntilBreak bs rest := by
  generalize hlen : none = len at h
  induction h with
  | done => cases hlen
  | next => cases hlen
  | stop => exact .stop rfl
  | more _ ha _ ih =>
    cases hitem _ _ _ ha with
    | next hkey hvalue => exact .pair hkey hvalue.items_one (ih hlen)
    | stop hg => cases hg

theorem Elements.reads_array (hitem : ReadsItems 1 item) (hhead : header 4 bs = some (len, mid))
    (h : Elements item len mid as rest) : Reads .item bs rest := by
  cases len with
  | none => exact .of_head hhead (by omega) rfl (h.reads_untilBreak hitem)
  | some n =>
    have hitems := h.reads_items hitem
    rw [one_mul] at hitems
    exact .of_head hhead (by omega) rfl hitems

theorem Elements.reads_map (hitem : ReadsItems 2 item) (hhead : header 5 bs = some (len, mid))
    (h : Elements item len mid as rest) : Reads .item bs rest := by
  cases len with
  | none => exact .of_head hhead (by omega) rfl (h.reads_pairsUntilBreak hitem)
  | some n => exact .of_head hhead (by omega) rfl (h.reads_items hitem)

/-- Behind a tag. -/
theorem reads_tagged {n : ℕ} (hhead : header 6 bs = some (some n, mid)) (h : Reads .item mid rest) :
    Reads .item bs rest :=
  .of_head hhead (by omega) rfl (.next h .none)

theorem Elements.length_eq {n : ℕ} (h : Elements item (some n) bs as rest) : as.length = n := by
  generalize hlen : some n = len at h
  induction h generalizing n with
  | done => cases hlen; rfl
  | next _ _ ih =>
    cases hlen
    rw [List.length_cons, ih rfl]
  | stop => cases hlen
  | more => cases hlen

theorem not_reads_head (hhead : header 5 bs = some (none, rest)) : ¬ Reads .item bs rest := by
  intro h
  obtain ⟨g, hg, h⟩ := h.content_of_item hhead
  cases hg
  have hsame : Reads .pairsUntilBreak rest rest := h
  cases hsame with
  | pair hkey hvalue h =>
    have hk := hkey.length_lt
    have hv := hvalue.length_lt
    have hle := h.progress.1
    omega

end Items

namespace Codec.Sound
variable {ε α κ ν : Type} {n : ℕ} {c : Codec ε α}

theorem begins (h : c.Sound (n + 1)) {a : α} (hlt : (c.encode a).length < 2 ^ 64) : Begins (c.encode a) := by
  have hreads := h.reads _ _ _ (h.inverts a hlt [])
  rw [List.append_nil] at hreads
  cases hw : c.encode a with
  | nil =>
    rw [hw] at hreads
    cases hreads with
    | next hitem _ => exact absurd hitem.length_lt (by simp)
  | cons b tail =>
    refine ⟨b, tail, rfl, ?_⟩
    rintro rfl
    rw [hw] at hreads
    cases hreads with
    | next hitem _ => exact hitem.not_break
    | stop hg => cases hg

theorem pair {key : Codec ε κ} {value : Codec ε ν} (hk : key.Sound 1) (hv : value.Sound 1) :
    (Codec.pair key value).Sound 2 where
  inverts e := (hk.inverts e.1).bind ((hv.inverts e.2).last rfl)
  reads := entry_readsItems hk.reads hv.reads

theorem begins_of_mem (h : c.Sound (n + 1)) {as : List α} (hlt : (as.flatMap c.encode).length < 2 ^ 64) :
    ∀ a ∈ as, Begins (c.encode a) := fun _ ha => h.begins (lt_of_mem_flatMap ha hlt)

end Codec.Sound

/-! ### Each wrapper -/

namespace Wrapper
variable {ε α κ ν π : Type} {m : MinicborContainers ε}

theorem run_peek {A : Type} {bs : Bytes} {t : CborType} (h : m.datatype bs = .ok t) (f : CborType → Reader ε A) :
    (m.peekType >>= f).run bs = (f t).run bs := by
  rw [Reader.run_bind, Minicbor.run_peekType, h, Reader.next_ok]

theorem peek_eq_ok {A : Type} {bs rest : Bytes} {f : CborType → Reader ε A} {a : A}
    (h : (m.peekType >>= f).run bs = (.ok a, rest)) : ∃ t, m.datatype bs = .ok t ∧ (f t).run bs = (.ok a, rest) := by
  obtain ⟨t, mid, hpeek, hf⟩ := Reader.bind_eq_ok.1 h
  obtain ⟨ht, rfl⟩ := Minicbor.run_peekType_eq_ok.1 hpeek
  exact ⟨t, ht, hf⟩

section Pairs
variable {key : Codec ε κ} {value : Codec ε ν} {invalid : String}

theorem pairs_inverts (hm : m.Lawful) (hk : key.Sound 1) (hv : value.Sound 1) (a : Sized (κ × ν)) :
    (Codec.pairs m invalid key value).decode.Inverts ((Codec.pairs m invalid key value).encode a) a := by
  have hpair := hk.pair hv
  intro hlt rest
  cases a with
  | definite xs =>
    have hwhole : (xs.flatMap (Codec.pair key value).encode).length < 2 ^ 64 := by
      refine lt_of_le_of_lt ?_ hlt
      exact (List.suffix_append _ _).length_le
    have hfirst := hpair.begins_of_mem hwhole
    have hlen := length_le_flatMap fun e he => (hfirst e he).ne_nil
    have htype : m.datatype ((Codec.pairs m invalid key value).encode (.definite xs) ++ rest) = .ok .map := by
      refine hm.datatype_map _ xs.length (xs.flatMap (Codec.pair key value).encode ++ rest) ?_
      show header 5 (Cbor.map xs.length ++ xs.flatMap (Codec.pair key value).encode ++ rest) = _
      rw [List.append_assoc]
      exact header_head (by omega) (by omega)
    have hitems := hm.mapIter_inverts (fun e _ => hpair.inverts e) hfirst hlt rest
    exact (run_peek htype _).trans (Reader.bind_eq_ok.2 ⟨xs, rest, hitems, rfl⟩)
  | indefinite xs =>
    have hwhole : (xs.flatMap (Codec.pair key value).encode).length < 2 ^ 64 := by
      refine lt_of_le_of_lt ?_ hlt
      show _ ≤ (beginMap ++ xs.flatMap (Codec.pair key value).encode ++ endIndef).length
      rw [List.length_append, List.length_append]
      omega
    have hfirst := hpair.begins_of_mem hwhole
    have htype : m.datatype ((Codec.pairs m invalid key value).encode (.indefinite xs) ++ rest) = .ok .mapIndef :=
      hm.datatype_mapIndef _ _ (header_indef 5 (by omega))
    have hitems := hm.mapIter_inverts_indef (fun e _ => hpair.inverts e) hfirst hlt rest
    exact (run_peek htype _).trans (Reader.bind_eq_ok.2 ⟨xs, rest, hitems, rfl⟩)

theorem pairs_keeps (hm : m.Lawful) (hk : key.Sound 1) (hv : value.Sound 1) {bs rest : Bytes} {a : Sized (κ × ν)}
    (h : (Codec.pairs m invalid key value).decode.run bs = (.ok a, rest)) : Reads .item bs rest ∧
      ∃ mid, header 5 bs = some (a.length, mid) ∧
        Elements (entry key.decode value.decode) a.length mid a.toVec rest := by
  obtain ⟨t, ht, h⟩ := peek_eq_ok h
  obtain ⟨items, rest', hitems, h⟩ := Reader.bind_eq_ok.1 h
  obtain ⟨len, mid, hhead, helems⟩ := (hm.mapIter _ _ _ _ _).1 hitems
  have hitem : Reads .item bs rest' := helems.reads_map (hk.pair hv).reads hhead
  cases len with
  | none =>
    obtain rfl : CborType.mapIndef = t := Except.ok.inj ((hm.datatype_mapIndef _ _ hhead).symm.trans ht)
    cases h
    exact ⟨hitem, mid, hhead, helems⟩
  | some n =>
    obtain rfl : CborType.map = t := Except.ok.inj ((hm.datatype_map _ _ _ hhead).symm.trans ht)
    cases h
    obtain rfl := helems.length_eq
    exact ⟨hitem, mid, hhead, helems⟩

end Pairs

section Arrays
variable {item : Codec ε α}

theorem maybeIndefArray_inverts (hm : m.Lawful) (hi : item.Sound 1) (a : Sized α) :
    (Codec.maybeIndefArray m item).decode.Inverts ((Codec.maybeIndefArray m item).encode a) a := by
  intro hlt rest
  cases a with
  | definite xs =>
    have hwhole : (xs.flatMap item.encode).length < 2 ^ 64 := lt_of_le_of_lt (List.suffix_append _ _).length_le hlt
    have hfirst := hi.begins_of_mem hwhole
    have hlen := length_le_flatMap fun e he => (hfirst e he).ne_nil
    have htype : m.datatype ((Codec.maybeIndefArray m item).encode (.definite xs) ++ rest) = .ok .array := by
      refine hm.datatype_array _ xs.length (xs.flatMap item.encode ++ rest) ?_
      show header 4 (Cbor.array xs.length ++ xs.flatMap item.encode ++ rest) = _
      rw [List.append_assoc]
      exact header_head (by omega) (by omega)
    have hitems := hm.arrayIter_inverts (fun a _ => hi.inverts a) hfirst hlt rest
    exact (run_peek htype _).trans (Reader.bind_eq_ok.2 ⟨xs, rest, hitems, rfl⟩)
  | indefinite xs =>
    have hwhole : (xs.flatMap item.encode).length < 2 ^ 64 := by
      refine lt_of_le_of_lt ?_ hlt
      show _ ≤ (beginArray ++ xs.flatMap item.encode ++ endIndef).length
      rw [List.length_append, List.length_append]
      omega
    have htype : m.datatype ((Codec.maybeIndefArray m item).encode (.indefinite xs) ++ rest) = .ok .arrayIndef :=
      hm.datatype_arrayIndef _ _ (header_indef 4 (by omega))
    have hitems := hm.arrayIter_inverts_indef (fun a _ => hi.inverts a) (hi.begins_of_mem hwhole) hlt rest
    exact (run_peek htype _).trans (Reader.bind_eq_ok.2 ⟨xs, rest, hitems, rfl⟩)

theorem maybeIndefArray_keeps (hm : m.Lawful) (hi : item.Sound 1) {bs rest : Bytes} {a : Sized α}
    (h : (Codec.maybeIndefArray m item).decode.run bs = (.ok a, rest)) : Reads .item bs rest ∧
      ∃ mid, header 4 bs = some (a.length, mid) ∧ Elements item.decode a.length mid a.toVec rest := by
  obtain ⟨t, ht, h⟩ := peek_eq_ok h
  have hsplit : ∀ {f : List α → Sized α}, (f <$> m.arrayIter item.decode).run bs = (.ok a, rest) →
      ∃ len mid as, header 4 bs = some (len, mid) ∧ Elements item.decode len mid as rest ∧ a = f as := by
    intro f h
    rw [← bind_pure_comp] at h
    obtain ⟨as, rest', has, h⟩ := Reader.bind_eq_ok.1 h
    cases h
    obtain ⟨len, mid, hhead, helems⟩ := (hm.arrayIter _ _ _ _).1 has
    exact ⟨len, mid, as, hhead, helems, rfl⟩
  split at h
  · obtain ⟨len, mid, as, hhead, helems, rfl⟩ := hsplit h
    cases len with
    | none => cases (hm.datatype_arrayIndef _ _ hhead).symm.trans ht
    | some n =>
      obtain rfl := helems.length_eq
      exact ⟨helems.reads_array hi.reads hhead, mid, hhead, helems⟩
  · obtain ⟨len, mid, as, hhead, helems, rfl⟩ := hsplit h
    cases len with
    | none => exact ⟨helems.reads_array hi.reads hhead, mid, hhead, helems⟩
    | some n => cases (hm.datatype_array _ _ _ hhead).symm.trans ht
  · cases h

end Arrays

section Properties
variable {property : Codec ε π}

theorem times_eq_ok {item : Reader ε α} {n : ℕ} {bs rest : Bytes} {as : List α} :
    (Codec.times item n).run bs = (.ok as, rest) ↔ Elements item (some n) bs as rest := by
  induction n generalizing bs as with
  | zero =>
    constructor
    · intro h
      cases h
      exact .done
    · intro h
      cases h
      rfl
  | succ n ih =>
    rw [Codec.times, Reader.bind_eq_ok]
    constructor
    · rintro ⟨a, mid, ha, h⟩
      obtain ⟨as', mid', has, h⟩ := Reader.bind_eq_ok.1 h
      cases h
      exact .next ha (ih.1 has)
    · intro h
      cases h with
      | next ha h => exact ⟨_, _, ha, Reader.bind_eq_ok.2 ⟨_, _, ih.2 h, rfl⟩⟩

theorem orderPreservingProperties_takes (hm : m.Lawful) {as : List π}
    (hlt : ((Codec.orderPreservingProperties m property).encode as).length < 2 ^ 64)
    (hitem : ∀ a ∈ as, property.decode.Takes (property.encode a) a) (hfirst : ∀ a ∈ as, Begins (property.encode a)) :
    (Codec.orderPreservingProperties m property).decode.Takes
      ((Codec.orderPreservingProperties m property).encode as) as := by
  intro rest
  have hwhole : (as.flatMap property.encode).length < 2 ^ 64 := lt_of_le_of_lt (List.suffix_append _ _).length_le hlt
  have hlen := length_le_flatMap fun a ha => (hfirst a ha).ne_nil
  have hmap : m.map.run (Cbor.map as.length ++ (as.flatMap property.encode ++ rest)) =
      (.ok (some (UInt64.ofNat as.length)), as.flatMap property.encode ++ rest) := hm.map_takes (by omega) _
  have helems : Elements property.decode (some as.length) (as.flatMap property.encode ++ rest) as rest :=
    .of_writer property.encode hitem rest
  show (Codec.orderPreservingProperties m property).decode.run
    (Cbor.map as.length ++ as.flatMap property.encode ++ rest) = _
  rw [List.append_assoc]
  refine Reader.bind_eq_ok.2 ⟨_, _, hmap, times_eq_ok.2 ?_⟩
  rwa [Option.getD_some, UInt64.toNat_ofNat_of_lt' (show as.length < 2 ^ 64 by omega)]

theorem orderPreservingProperties_inverts (hm : m.Lawful) (hp : property.Sound 2) (as : List π) :
    (Codec.orderPreservingProperties m property).decode.Inverts
      ((Codec.orderPreservingProperties m property).encode as) as := by
  intro hlt
  have hwhole : (as.flatMap property.encode).length < 2 ^ 64 := lt_of_le_of_lt (List.suffix_append _ _).length_le hlt
  exact orderPreservingProperties_takes hm hlt (fun a ha => hp.inverts a (lt_of_mem_flatMap ha hwhole))
    (hp.begins_of_mem hwhole)

theorem orderPreservingProperties_keeps (hm : m.Lawful) (hp : property.Sound 2) {bs rest : Bytes} {as : List π}
    (h : (Codec.orderPreservingProperties m property).decode.run bs = (.ok as, rest))
    (hdefinite : ¬ ∃ rest, header 5 bs = some (none, rest)) : Reads .item bs rest ∧
      ∃ len mid, header 5 bs = some (len, mid) ∧ Elements property.decode len mid as rest := by
  obtain ⟨len, mid, hlen, h⟩ := Reader.bind_eq_ok.1 h
  have hhead := (hm.map _ _ _).1 hlen
  cases len with
  | none => exact absurd ⟨mid, hhead⟩ hdefinite
  | some n =>
    have helems := times_eq_ok.1 h
    exact ⟨helems.reads_map hp.reads hhead, _, mid, hhead, helems⟩

theorem orderPreservingProperties_indefinite (hm : m.Lawful) {bs rest : Bytes}
    (hhead : header 5 bs = some (none, rest)) :
    (Codec.orderPreservingProperties m property).decode.run bs = (.ok [], rest) :=
  Reader.bind_eq_ok.2 ⟨none, rest, (hm.map _ _ _).2 hhead, rfl⟩

end Properties

section Tagged
variable {item : Codec ε α}

theorem tagged_inverts (hm : m.Lawful) (hi : item.Sound 1) (as : List α) :
    (Codec.tagged m item).decode.Inverts ((Codec.tagged m item).encode as) as := by
  intro hlt rest
  have hlong : (Cbor.array as.length ++ as.flatMap item.encode).length < 2 ^ 64 :=
    lt_of_le_of_lt (List.suffix_append _ _).length_le hlt
  have hwhole : (as.flatMap item.encode).length < 2 ^ 64 := lt_of_le_of_lt (List.suffix_append _ _).length_le hlong
  have hitems := hm.arrayIter_inverts (fun a _ => hi.inverts a) (hi.begins_of_mem hwhole) hlong rest
  have htag := hm.tag_takes Codec.tagSet (Cbor.array as.length ++ as.flatMap item.encode ++ rest)
  rw [← List.append_assoc] at htag
  have htype := hm.datatype_tag _ _ _ ((hm.tag _ _ _).1 htag)
  refine (run_peek htype _).trans ?_
  rw [if_pos rfl]
  refine Reader.bind_eq_ok.2 ⟨_, _, htag, ?_⟩
  rw [if_neg (not_not.2 rfl)]
  exact hitems

theorem tagged_keeps (hm : m.Lawful) (hi : item.Sound 1) {bs rest : Bytes} {as : List α}
    (h : (Codec.tagged m item).decode.run bs = (.ok as, rest)) : Reads .item bs rest ∧
      ∃ start len mid, (start = bs ∨ header 6 bs = some (some 258, start)) ∧ header 4 start = some (len, mid) ∧
        Elements item.decode len mid as rest := by
  obtain ⟨t, ht, h⟩ := peek_eq_ok h
  split at h
  · obtain ⟨found, start, htag, h⟩ := Reader.bind_eq_ok.1 h
    have hhead := (hm.tag _ _ _).1 htag
    split at h
    · cases h
    · next hfound =>
      obtain rfl := not_not.1 hfound
      obtain ⟨len, mid, harray, helems⟩ := (hm.arrayIter _ _ _ _).1 h
      exact ⟨reads_tagged hhead (helems.reads_array hi.reads harray), start, len, mid, .inr hhead, harray, helems⟩
  · obtain ⟨len, mid, harray, helems⟩ := (hm.arrayIter _ _ _ _).1 h
    exact ⟨helems.reads_array hi.reads harray, bs, len, mid, .inl rfl, harray, helems⟩

end Tagged

section Optional
variable {item : Codec ε α}

theorem reads_simple {b : UInt8} {rest : Bytes} (hmajor : b.toNat / 32 = 7) (hinfo : b.toNat % 32 < 24) :
    Reads .item (b :: rest) rest := by
  have hhead : header 7 (b :: rest) = some (some (b.toNat % 32), rest) := by
    rw [header_cons, if_neg (not_not.2 hmajor), if_neg (by omega), argument, if_pos hinfo]
    rfl
  refine .item hhead ?_ rfl .none
  rintro v tail ⟨rfl, rfl⟩
  exact absurd hinfo (by decide)

theorem nullable_inverts (hm : m.Lawful) (hi : item.Sound 1) (hnull : item.NeverNull) (a : Nullable α) :
    (Codec.nullable m item).decode.Inverts ((Codec.nullable m item).encode a) a := by
  intro hlt rest
  cases a with
  | some a =>
    have hrun := hi.inverts a hlt rest
    obtain ⟨b, tail, hw, -⟩ := hi.begins (a := a) hlt
    obtain ⟨t, ht⟩ := hm.datatype_item _ _ (hi.reads _ _ _ hrun).items_one
    have hbs : item.encode a ++ rest = b :: (tail ++ rest) := by rw [hw, List.cons_append]
    refine (run_peek ht _).trans ?_
    split
    · obtain ⟨rest', h⟩ := (hm.datatype_null _).1 ht
      rw [hbs] at h
      cases h
      exact absurd hw (hnull a tail).1
    · obtain ⟨rest', h⟩ := (hm.datatype_undefined _).1 ht
      rw [hbs] at h
      cases h
      exact absurd hw (hnull a tail).2
    · rw [← bind_pure_comp]
      exact Reader.bind_eq_ok.2 ⟨a, rest, hrun, rfl⟩
  | null =>
    have htype : m.datatype (0xf6 :: rest) = .ok .null := (hm.datatype_null _).2 ⟨rest, rfl⟩
    exact (run_peek htype _).trans (Reader.bind_eq_ok.2 ⟨(), rest, (hm.null _ _).2 rfl, rfl⟩)
  | undefined =>
    have htype : m.datatype (0xf7 :: rest) = .ok .undefined := (hm.datatype_undefined _).2 ⟨rest, rfl⟩
    exact (run_peek htype _).trans (Reader.bind_eq_ok.2 ⟨(), rest, (hm.undefined _ _).2 rfl, rfl⟩)

theorem nullable_keeps (hm : m.Lawful) (hi : ReadsItems 1 item.decode) {bs rest : Bytes} {a : Nullable α}
    (h : (Codec.nullable m item).decode.run bs = (.ok a, rest)) : Reads .item bs rest ∧
      ((∃ x, a = .some x ∧ item.decode.run bs = (.ok x, rest)) ∨ a = .null ∧ bs = 0xf6 :: rest ∨
        a = .undefined ∧ bs = 0xf7 :: rest) := by
  obtain ⟨t, ht, h⟩ := peek_eq_ok h
  split at h
  · obtain ⟨_, rest', hnull, hpure⟩ := Reader.bind_eq_ok.1 h
    obtain rfl := (hm.null _ _).1 hnull
    cases hpure
    exact ⟨reads_simple (by decide) (by decide), .inr (.inl ⟨rfl, rfl⟩)⟩
  · obtain ⟨_, rest', hundefined, hpure⟩ := Reader.bind_eq_ok.1 h
    obtain rfl := (hm.undefined _ _).1 hundefined
    cases hpure
    exact ⟨reads_simple (by decide) (by decide), .inr (.inr ⟨rfl, rfl⟩)⟩
  · rw [← bind_pure_comp] at h
    obtain ⟨x, rest', hx, h⟩ := Reader.bind_eq_ok.1 h
    cases h
    exact ⟨(hi _ _ _ hx).items_one, .inl ⟨x, rfl, hx⟩⟩

theorem zeroOrOneArray_inverts (hm : m.Lawful) (hi : item.Sound 1) (a : Option α) :
    (Codec.zeroOrOneArray m item).decode.Inverts ((Codec.zeroOrOneArray m item).encode a) a := by
  intro hlt rest
  cases a with
  | none => exact Reader.bind_eq_ok.2 ⟨_, rest, hm.array_takes (n := 0) (by omega) rest, rfl⟩
  | some a =>
    have hitem : (item.encode a).length < 2 ^ 64 := lt_of_le_of_lt (List.suffix_append _ _).length_le hlt
    have harray := hm.array_takes (n := 1) (by omega) (item.encode a ++ rest)
    rw [← List.append_assoc] at harray
    refine Reader.bind_eq_ok.2 ⟨_, _, harray, ?_⟩
    show (some <$> item.decode).run (item.encode a ++ rest) = _
    rw [← bind_pure_comp]
    exact Reader.bind_eq_ok.2 ⟨a, rest, hi.inverts a hitem rest, rfl⟩

theorem zeroOrOneArray_keeps (hm : m.Lawful) (hi : item.Sound 1) {bs rest : Bytes} {a : Option α}
    (h : (Codec.zeroOrOneArray m item).decode.run bs = (.ok a, rest)) : Reads .item bs rest ∧
      (a = none ∧ header 4 bs = some (some 0, rest) ∨
        ∃ x mid, a = some x ∧ header 4 bs = some (some 1, mid) ∧ item.decode.run mid = (.ok x, rest)) := by
  obtain ⟨len, mid, hlen, h⟩ := Reader.bind_eq_ok.1 h
  have hhead := (hm.array _ _ _).1 hlen
  split at h
  · cases h
    exact ⟨.of_head hhead (by omega) rfl .none, .inl ⟨rfl, hhead⟩⟩
  · rw [← bind_pure_comp] at h
    obtain ⟨x, rest', hx, h⟩ := Reader.bind_eq_ok.1 h
    cases h
    exact ⟨.of_head hhead (by omega) rfl (hi.reads _ _ _ hx), .inr ⟨x, mid, rfl, hhead, hx⟩⟩
  · cases h
  · cases h

theorem cborWrap_inverts (hm : m.Lawful) (hi : item.Sound 1) (a : α) :
    (Codec.cborWrap m item).decode.Inverts ((Codec.cborWrap m item).encode a) a := by
  intro hlt rest
  have hbytes : (Cbor.bytes (item.encode a)).length < 2 ^ 64 := lt_of_le_of_lt (List.suffix_append _ _).length_le hlt
  have hitem : (item.encode a).length < 2 ^ 64 := lt_of_le_of_lt (List.suffix_append _ _).length_le hbytes
  have htag := hm.tag_takes 24 (Cbor.bytes (item.encode a) ++ rest)
  rw [← List.append_assoc] at htag
  have hwrapped := hi.inverts a hitem []
  rw [List.append_nil] at hwrapped
  refine Reader.bind_eq_ok.2 ⟨_, _, htag, Reader.bind_eq_ok.2 ⟨_, _, hm.bytes_inverts _ hbytes rest, ?_⟩⟩
  rw [Reader.run_ofExcept, Codec.decodeWith, hwrapped]

theorem cborWrap_eq_ok (hm : m.Lawful) {bs rest : Bytes} {a : α} :
    (Codec.cborWrap m item).decode.run bs = (.ok a, rest) ↔ ∃ n k mid mid' s more, header 6 bs = some (some n, mid) ∧
      header 2 mid = some (some k, mid') ∧ take k mid' = some (s, rest) ∧ item.decode.run s = (.ok a, more) := by
  constructor
  · intro h
    obtain ⟨n, mid, htag, h⟩ := Reader.bind_eq_ok.1 h
    obtain ⟨s, rest', hbytes, h⟩ := Reader.bind_eq_ok.1 h
    obtain ⟨k, mid', hhead, htake⟩ := (hm.bytes _ _ _).1 hbytes
    rw [Reader.run_ofExcept] at h
    obtain ⟨hvalue, rfl⟩ := Prod.mk.inj h
    rcases hrun : item.decode.run s with ⟨r, more⟩
    rw [Codec.decodeWith, hrun] at hvalue
    subst hvalue
    exact ⟨_, k, mid, mid', s, more, (hm.tag _ _ _).1 htag, hhead, htake, hrun⟩
  · rintro ⟨n, k, mid, mid', s, more, htag, hhead, htake, hrun⟩
    have hn := header_lt htag
    have htag' : m.tag.run bs = (.ok (UInt64.ofNat n), mid) := by
      rw [hm.tag, UInt64.toNat_ofNat_of_lt' hn]
      exact htag
    refine Reader.bind_eq_ok.2
      ⟨_, mid, htag', Reader.bind_eq_ok.2 ⟨s, rest, (hm.bytes _ _ _).2 ⟨k, mid', hhead, htake⟩, ?_⟩⟩
    rw [Reader.run_ofExcept, Codec.decodeWith, hrun]

end Optional

section Main
variable {c : Held ε α κ ν π} {w : Wrapper}

theorem codec_inverts (hm : m.Lawful) (hc : c.Sound) (hnull : w = nullable → c.item.NeverNull) (a : w.Value α κ ν π) :
    (w.codec m c).decode.Inverts ((w.codec m c).encode a) a := by
  cases w with
  | keyValuePairs => exact pairs_inverts hm hc.key hc.value a
  | nonEmptyKeyValuePairs => exact pairs_inverts hm hc.key hc.value a
  | maybeIndefArray => exact maybeIndefArray_inverts hm hc.item a
  | orderPreservingProperties => exact orderPreservingProperties_inverts hm hc.property a
  | set => exact tagged_inverts hm hc.item a
  | nonEmptySet => exact tagged_inverts hm hc.item a
  | nullable => exact nullable_inverts hm hc.item (hnull rfl) a
  | zeroOrOneArray => exact zeroOrOneArray_inverts hm hc.item a
  | cborWrap => exact cborWrap_inverts hm hc.item a

theorem codec_keeps (hm : m.Lawful) (hc : c.Sound) {bs rest : Bytes} (hloses : ¬ Loses c bs w) {a : w.Value α κ ν π}
    (h : (w.codec m c).decode.run bs = (.ok a, rest)) : Reads .item bs rest ∧ Whole c bs rest w a := by
  cases w with
  | keyValuePairs => exact pairs_keeps hm hc.key hc.value h
  | nonEmptyKeyValuePairs => exact pairs_keeps hm hc.key hc.value h
  | maybeIndefArray => exact maybeIndefArray_keeps hm hc.item h
  | orderPreservingProperties => exact orderPreservingProperties_keeps hm hc.property h hloses
  | set => exact tagged_keeps hm hc.item h
  | nonEmptySet => exact tagged_keeps hm hc.item h
  | nullable =>
    obtain ⟨hitem, ⟨x, rfl, hx⟩ | ⟨rfl, rfl⟩ | ⟨rfl, rfl⟩⟩ := nullable_keeps hm hc.item.reads h
    · exact ⟨hitem, hx⟩
    · exact ⟨hitem, rfl⟩
    · exact ⟨hitem, rfl⟩
  | zeroOrOneArray =>
    obtain ⟨hitem, ⟨rfl, hhead⟩ | ⟨x, mid, rfl, hhead, hx⟩⟩ := zeroOrOneArray_keeps hm hc.item h
    · exact ⟨hitem, hhead⟩
    · exact ⟨hitem, mid, hhead, hx⟩
  | cborWrap =>
    obtain ⟨n, k, mid, mid', s, more, htag, hhead, htake, hrun⟩ := (cborWrap_eq_ok hm).1 h
    obtain rfl : more = [] := by
      by_contra hne
      exact hloses ⟨n, k, mid, mid', s, rest, a, more, htag, hhead, htake, hrun, hne⟩
    exact ⟨reads_tagged htag (.of_byteString (.definite hhead htake)), n, k, mid, mid', s, htag, hhead, htake, hrun⟩

theorem not_meets_of_loses (hm : m.Lawful) {bs : Bytes} (hloses : Loses c bs w) : ¬ w.Meets m c bs := by
  intro hmeets
  cases w with
  | orderPreservingProperties =>
    obtain ⟨rest, hhead⟩ := hloses
    exact not_reads_head hhead (hmeets.keeps _ _ (orderPreservingProperties_indefinite hm hhead)).1
  | cborWrap =>
    obtain ⟨n, k, mid, mid', s, rest, a, more, htag, hhead, htake, hrun, hne⟩ := hloses
    have hdecode := (cborWrap_eq_ok hm).2 ⟨n, k, mid, mid', s, more, htag, hhead, htake, hrun⟩
    obtain ⟨-, n', k', start, start', s', htag', hhead', htake', hrun'⟩ := hmeets.keeps _ _ hdecode
    -- the bytes decide what is wrapped
    obtain ⟨-, -, rfl⟩ := Reads.header_unique htag htag'
    obtain ⟨-, hk, rfl⟩ := Reads.header_unique hhead hhead'
    cases hk
    cases htake.symm.trans htake'
    exact hne (Prod.mk.inj (hrun.symm.trans hrun')).2
  | _ => exact hloses

/-- Every wrapper round-trips, and reads one item and keeps it whole unless it is one of the two that lose something. -/
theorem wrapper_iff (hm : m.Lawful) (hc : c.Sound) (hnull : w = nullable → c.item.NeverNull) (bs : Bytes) :
    w.Meets m c bs ↔ ¬ Loses c bs w :=
  ⟨fun hmeets hloses => not_meets_of_loses hm hloses hmeets,
    fun hloses => ⟨codec_inverts hm hc hnull, fun _ _ => codec_keeps hm hc hloses⟩⟩

end Main
end Wrapper

/-! ### At the decoder by the standard -/

namespace MinicborContainers
open Minicbor

/-- One byte, and no other. -/
def exactly (b : UInt8) : Cbor.Decoder Unit
  | [] => none
  | c :: rest => if c = b then some ((), rest) else none

theorem exactly_eq_some {b : UInt8} {bs rest : Bytes} : exactly b bs = some ((), rest) ↔ bs = b :: rest := by
  cases bs with
  | nil => simp [exactly]
  | cons c tail => simp [exactly]

theorem forward_exactly (b : UInt8) : Forward (exactly b) := by
  intro bs _ rest h
  rw [exactly_eq_some.1 h]
  exact List.suffix_cons b rest

def reference : MinicborContainers String where
  toMinicborValues := MinicborValues.reference
  null := ofDecoder (exactly 0xf6) (forward_exactly _)
  undefined := ofDecoder (exactly 0xf7) (forward_exactly _)
  debugTag n := "Tag(" ++ toString n ++ ")"

theorem typeOfHead_null {b : UInt8} {wide : Bool} {info major : ℕ} (hmajor : major < 8) :
    (typeOfHead b wide info major = .null → major = 7 ∧ info = 22) ∧
      (typeOfHead b wide info major = .undefined → major = 7 ∧ info = 23) := by
  match major with
  | 0 | 1 | 2 | 3 | 4 | 5 | 6 | 7 =>
    simp only [typeOfHead, intType, sizedType, simpleType]
    repeat' split
    all_goals simp_all
  | n + 8 => omega

theorem reference_lawful : reference.Lawful where
  toValues := MinicborValues.reference_lawful
  null _ _ := (run_ofDecoder _ (forward_exactly 0xf6)).trans exactly_eq_some
  undefined _ _ := (run_ofDecoder _ (forward_exactly 0xf7)).trans exactly_eq_some
  datatype_null bs := by
    constructor
    · intro h
      obtain ⟨b, tail, wide, rfl, ht⟩ := typeOf_eq_ok h
      have hb : b.toNat < 256 := b.toNat_lt
      have heq := (typeOfHead_null (by omega)).1 ht
      have hbyte : b = 0xf6 := UInt8.toNat_inj.1 (by rw [show (0xf6 : UInt8).toNat = 246 from rfl]; omega)
      exact ⟨tail, by rw [hbyte]⟩
    · rintro ⟨rest, rfl⟩
      rfl
  datatype_undefined bs := by
    constructor
    · intro h
      obtain ⟨b, tail, wide, rfl, ht⟩ := typeOf_eq_ok h
      have hb : b.toNat < 256 := b.toNat_lt
      have heq := (typeOfHead_null (by omega)).2 ht
      have hbyte : b = 0xf7 := UInt8.toNat_inj.1 (by rw [show (0xf7 : UInt8).toNat = 247 from rfl]; omega)
      exact ⟨tail, by rw [hbyte]⟩
    · rintro ⟨rest, rfl⟩
      rfl
  datatype_item bs rest h := by
    cases bs with
    | nil => exact absurd h.length_lt (by simp)
    | cons b tail => exact ⟨_, rfl⟩

/-- Small numbers for items, keys and values. -/
def bytesHeld : Held String UInt8 UInt8 UInt8 (UInt8 × UInt8) :=
  let small : Codec String UInt8 := ⟨reference.u8, fun n => Cbor.uint n.toNat⟩
  ⟨small, small, small, .pair small small⟩

theorem bytesHeld_sound : bytesHeld.Sound := by
  have hsmall : bytesHeld.item.Sound 1 := by
    refine ⟨fun n => (MinicborValues.reference_lawful.u8_takes n).inverts, fun bs n rest h => ?_⟩
    have hhead := (MinicborValues.reference_lawful.u8 _ _ _).1 h
    exact .next (.of_head hhead (by omega) rfl .none) .none
  exact ⟨hsmall, hsmall, hsmall, hsmall.pair hsmall⟩

end MinicborContainers

open MinicborContainers in
/-- A map of two entries without a length. -/
theorem keyValuePairs_indefinite :
    Wrapper.keyValuePairs.Meets reference bytesHeld [0xbf, 0x01, 0x02, 0x01, 0x03, 0xff] :=
  (Wrapper.wrapper_iff reference_lawful bytesHeld_sound (by simp) _).2 id

open MinicborContainers in
/-- The same map as properties: none of them is read, and the reader stands at the first key. -/
theorem orderPreservingProperties_drops :
    ¬ Wrapper.orderPreservingProperties.Meets reference bytesHeld [0xbf, 0x01, 0x02, 0x01, 0x03, 0xff] :=
  Wrapper.not_meets_of_loses reference_lawful ⟨[0x01, 0x02, 0x01, 0x03, 0xff], rfl⟩

end Pallas
