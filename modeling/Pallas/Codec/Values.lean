import Pallas.Codec.Text
import Pallas.Lib.CborSkip

/-!
# Machine integers, booleans and sequences of the decoder

The hand-written codecs of the network messages call more of `minicbor` than the tree decoders do: integers of a certain
width, booleans, the iterator over the items of an array, tuples. `MinicborValues` adds these to `MinicborText`, again as
parameters with the laws they are documented to meet. An item is read by any reader, so the two methods for sequences take
one.
-/

namespace Pallas
open Cbor Cbor.Decoder

/-- The items of an array of known length, or up to a break, each read by `item`. -/
inductive Elements {ε α : Type} (item : Reader ε α) : (len : Option ℕ) → (bs : Bytes) → List α → (rest : Bytes) → Prop
  | done {rest : Bytes} : Elements item (some 0) rest [] rest
  | next {n : ℕ} {bs mid rest : Bytes} {a : α} {as : List α} (ha : item.run bs = (.ok a, mid))
      (h : Elements item (some n) mid as rest) : Elements item (some (n + 1)) bs (a :: as) rest
  | stop {rest : Bytes} : Elements item none (0xff :: rest) [] rest
  | more {b : UInt8} {tail mid rest : Bytes} {a : α} {as : List α} (hb : b ≠ 0xff)
      (ha : item.run (b :: tail) = (.ok a, mid)) (h : Elements item none mid as rest) :
      Elements item none (b :: tail) (a :: as) rest

/-- The key and the value of an entry. -/
def entry {ε κ ν : Type} (key : Reader ε κ) (value : Reader ε ν) : Reader ε (κ × ν) := do
  let k ← key
  let v ← value
  pure (k, v)

/-- The types that `datatype` reports for an unsigned integer. -/
def CborType.isUnsigned : CborType → Bool
  | u8 | u16 | u32 | u64 => true
  | _ => false

/-- The methods of `minicbor::Decoder` for machine values, beside those of `MinicborText`. -/
structure MinicborValues (ε : Type) extends MinicborText ε where
  /-- `Error::is_end_of_input`. -/
  isEndOfInput : ε → Bool
  u8 : Reader ε UInt8
  u16 : Reader ε UInt16
  u32 : Reader ε UInt32
  bool : Reader ε Bool
  /-- `array_iter` collected, which is also how a `Vec` is decoded. -/
  arrayIter : {α : Type} → Reader ε α → Reader ε (List α)
  /-- `map_iter` collected. -/
  mapIter : {κ ν : Type} → Reader ε κ → Reader ε ν → Reader ε (List (κ × ν))
  /-- A tuple of two. -/
  pair : {α β : Type} → Reader ε α → Reader ε β → Reader ε (α × β)

/-- What `minicbor` documents of them. -/
structure MinicborValues.Lawful {ε : Type} (m : MinicborValues ε) : Prop extends toText : m.toMinicborText.Lawful where
  u8 : ∀ bs n rest, m.u8.run bs = (.ok n, rest) ↔ header 0 bs = some (some n.toNat, rest)
  u16 : ∀ bs n rest, m.u16.run bs = (.ok n, rest) ↔ header 0 bs = some (some n.toNat, rest)
  u32 : ∀ bs n rest, m.u32.run bs = (.ok n, rest) ↔ header 0 bs = some (some n.toNat, rest)
  bool : ∀ bs b rest, m.bool.run bs = (.ok b, rest) ↔ bs = Cbor.bool b ++ rest
  arrayIter : ∀ {α : Type} (item : Reader ε α) bs as rest, (m.arrayIter item).run bs = (.ok as, rest) ↔
    ∃ len mid, header 4 bs = some (len, mid) ∧ Elements item len mid as rest
  mapIter : ∀ {κ ν : Type} (key : Reader ε κ) (value : Reader ε ν) bs es rest,
    (m.mapIter key value).run bs = (.ok es, rest) ↔
      ∃ len mid, header 5 bs = some (len, mid) ∧ Elements (entry key value) len mid es rest
  pair : ∀ {α β : Type} (x : Reader ε α) (y : Reader ε β) bs p rest, (m.pair x y).run bs = (.ok p, rest) ↔
    ∃ mid, header 4 bs = some (some 2, mid) ∧ (entry x y).run mid = (.ok p, rest)
  datatype_unsigned : ∀ bs n rest, header 0 bs = some (some n, rest) → ∃ t, m.datatype bs = .ok t ∧ t.isUnsigned
  skip_item : ∀ bs rest, Reads .item bs rest → m.skip.run bs = (.ok (), rest)
  skip_steady : m.skip.Steady
  array_waits : m.array.Waits m.isEndOfInput
  map_waits : m.map.Waits m.isEndOfInput
  tag_waits : m.tag.Waits m.isEndOfInput
  u8_waits : m.u8.Waits m.isEndOfInput
  u16_waits : m.u16.Waits m.isEndOfInput
  u32_waits : m.u32.Waits m.isEndOfInput
  u64_waits : m.u64.Waits m.isEndOfInput
  bool_waits : m.bool.Waits m.isEndOfInput
  bytes_waits : m.bytes.Waits m.isEndOfInput
  str_waits : m.str.Waits m.isEndOfInput
  arrayIter_waits : ∀ {α : Type} (item : Reader ε α), item.Streams m.isEndOfInput →
    (m.arrayIter item).Waits m.isEndOfInput
  mapIter_waits : ∀ {κ ν : Type} (key : Reader ε κ) (value : Reader ε ν), key.Streams m.isEndOfInput →
    value.Streams m.isEndOfInput → (m.mapIter key value).Waits m.isEndOfInput
  pair_waits : ∀ {α β : Type} (x : Reader ε α) (y : Reader ε β), x.Streams m.isEndOfInput → y.Streams m.isEndOfInput →
    (m.pair x y).Waits m.isEndOfInput
  datatype_end : ∃ e, m.datatype [] = .error e ∧ m.isEndOfInput e = true
  skip_waits : m.skip.Waits m.isEndOfInput

/-- There are bytes, and the first is no break. -/
def Begins (w : Bytes) : Prop := ∃ b tail, w = b :: tail ∧ b ≠ 0xff

theorem Begins.ne_nil {w : Bytes} (h : Begins w) : w ≠ [] := by
  obtain ⟨b, tail, rfl, -⟩ := h
  simp

theorem Begins.append {w : Bytes} (h : Begins w) (s : Bytes) : Begins (w ++ s) := by
  obtain ⟨b, tail, rfl, hb⟩ := h
  exact ⟨b, tail ++ s, rfl, hb⟩

theorem begins_head {major n : ℕ} (hm : major < 7) (hn : n < 2 ^ 64) : Begins (head major n) := by
  have hhead : header major (head major n ++ []) = _ := header_head (by omega) hn
  obtain ⟨b, tail, heq, -⟩ := header_suffix hhead
  rw [List.append_nil] at hhead heq
  refine ⟨b, tail, heq, ?_⟩
  rintro rfl
  rw [heq] at hhead
  exact header_break hhead

namespace Elements
variable {ε α : Type} {item : Reader ε α} {len : Option ℕ} {bs rest : Bytes} {as : List α}

theorem append (h : Elements item len bs as rest) (hitem : item.Steady) (more : Bytes) :
    Elements item len (bs ++ more) as (rest ++ more) := by
  induction h with
  | done => exact .done
  | next ha _ ih => exact .next (hitem _ _ _ more ha) ih
  | stop => exact .stop
  | more hb ha _ ih => exact .more hb (hitem _ _ _ more ha) ih

theorem of_writer (write : α → Bytes) (h : ∀ a ∈ as, item.Takes (write a) a) (rest : Bytes) :
    Elements item (some as.length) (as.flatMap write ++ rest) as rest := by
  induction as with
  | nil => exact .done
  | cons a as ih =>
    rw [List.flatMap_cons, List.append_assoc]
    exact .next (h a List.mem_cons_self _) (ih fun a' ha' => h a' (List.mem_cons_of_mem a ha'))

theorem of_writer_indef (write : α → Bytes) (h : ∀ a ∈ as, item.Takes (write a) a)
    (hfirst : ∀ a ∈ as, Begins (write a)) (rest : Bytes) :
    Elements item none (as.flatMap write ++ endIndef ++ rest) as rest := by
  induction as with
  | nil => exact .stop
  | cons a as ih =>
    obtain ⟨b, tail, hwrite, hb⟩ := hfirst a List.mem_cons_self
    have ha := h a List.mem_cons_self (as.flatMap write ++ endIndef ++ rest)
    rw [List.flatMap_cons, List.append_assoc, List.append_assoc, ← List.append_assoc (as.flatMap write)]
    rw [hwrite, List.cons_append] at ha ⊢
    exact .more hb ha (ih (fun a' ha' => h a' (List.mem_cons_of_mem a ha'))
      fun a' ha' => hfirst a' (List.mem_cons_of_mem a ha'))

end Elements

/-! ### What the methods take -/

section Lengths
variable {α : Type} {as : List α} {write : α → Bytes}

theorem lt_of_mem_flatMap {a : α} {n : ℕ} (ha : a ∈ as) (h : (as.flatMap write).length < n) : (write a).length < n := by
  obtain ⟨pre, post, rfl⟩ := List.append_of_mem ha
  simp only [List.flatMap_append, List.flatMap_cons, List.length_append] at h
  omega

theorem length_le_flatMap (h : ∀ a ∈ as, write a ≠ []) : as.length ≤ (as.flatMap write).length := by
  induction as with
  | nil => exact Nat.zero_le _
  | cons a as ih =>
    have hpos := List.length_pos_iff.2 (h a List.mem_cons_self)
    have hle := ih fun a' ha' => h a' (List.mem_cons_of_mem a ha')
    rw [List.flatMap_cons, List.length_append, List.length_cons]
    omega

end Lengths

namespace MinicborValues.Lawful
variable {ε α β : Type} {m : MinicborValues ε} (hm : m.Lawful)
include hm

theorem array_takes {n : ℕ} (hn : n < 2 ^ 64) : m.array.Takes (Cbor.array n) (some (UInt64.ofNat n)) := by
  intro rest
  rw [hm.array, Option.map_some, UInt64.toNat_ofNat_of_lt' hn]
  exact header_head (by omega) hn

theorem map_takes {n : ℕ} (hn : n < 2 ^ 64) : m.map.Takes (Cbor.map n) (some (UInt64.ofNat n)) := by
  intro rest
  rw [hm.map, Option.map_some, UInt64.toNat_ofNat_of_lt' hn]
  exact header_head (by omega) hn

theorem tag_takes (n : UInt64) : m.tag.Takes (Cbor.tag n.toNat) n := by
  intro rest
  rw [hm.tag]
  exact header_head (by omega) n.toNat_lt

theorem u8_takes (n : UInt8) : m.u8.Takes (Cbor.uint n.toNat) n := by
  intro rest
  rw [hm.u8]
  have hlt := n.toNat_lt
  exact header_head (by omega) (by omega)

theorem u16_takes (n : UInt16) : m.u16.Takes (Cbor.uint n.toNat) n := by
  intro rest
  rw [hm.u16]
  have hlt := n.toNat_lt
  exact header_head (by omega) (by omega)

theorem u32_takes (n : UInt32) : m.u32.Takes (Cbor.uint n.toNat) n := by
  intro rest
  rw [hm.u32]
  have hlt := n.toNat_lt
  exact header_head (by omega) (by omega)

theorem u64_takes (n : UInt64) : m.u64.Takes (Cbor.uint n.toNat) n := by
  intro rest
  rw [hm.u64]
  exact header_head (by omega) n.toNat_lt

theorem bool_takes (b : Bool) : m.bool.Takes (Cbor.bool b) b := fun _ => (hm.bool _ _ _).2 rfl

theorem bytes_takes {s : Bytes} (hs : s.length < 2 ^ 64) : m.bytes.Takes (Cbor.bytes s) s := by
  intro rest
  rw [hm.bytes, Cbor.bytes, List.append_assoc]
  exact ⟨_, _, header_head (by omega) hs, take_append _ _⟩

theorem str_takes {s : String} (hs : (utf8 s).length < 2 ^ 64) : m.str.Takes (encodeText s) s := by
  intro rest
  rw [hm.str, encodeText, List.append_assoc]
  exact ⟨_, _, header_head (by omega) hs, take_append _ _⟩

theorem bytes_inverts (s : Bytes) : m.bytes.Inverts (Cbor.bytes s) s := fun h => hm.bytes_takes (by
  rw [Cbor.bytes, List.length_append] at h
  omega)

theorem str_inverts (s : String) : m.str.Inverts (encodeText s) s := fun h => hm.str_takes (by
  rw [encodeText, List.length_append] at h
  omega)

theorem arrayIter_inverts {item : Reader ε α} {as : List α} {write : α → Bytes}
    (h : ∀ a ∈ as, item.Inverts (write a) a) (hfirst : ∀ a ∈ as, Begins (write a)) :
    (m.arrayIter item).Inverts (Cbor.array as.length ++ as.flatMap write) as := by
  intro hlt rest
  rw [List.length_append] at hlt
  have hlen := length_le_flatMap fun a ha => (hfirst a ha).ne_nil
  rw [hm.arrayIter, List.append_assoc]
  exact ⟨_, _, header_head (by omega) (by omega), .of_writer write (fun a ha => h a ha (lt_of_mem_flatMap ha (by omega))) rest⟩

theorem arrayIter_inverts_indef {item : Reader ε α} {as : List α} {write : α → Bytes}
    (h : ∀ a ∈ as, item.Inverts (write a) a) (hfirst : ∀ a ∈ as, Begins (write a)) :
    (m.arrayIter item).Inverts (beginArray ++ as.flatMap write ++ endIndef) as := by
  intro hlt rest
  rw [List.length_append, List.length_append] at hlt
  rw [hm.arrayIter, List.append_assoc, List.append_assoc, ← List.append_assoc (as.flatMap write)]
  exact ⟨none, _, header_indef 4 (by omega),
    .of_writer_indef write (fun a ha => h a ha (lt_of_mem_flatMap ha (by omega))) hfirst rest⟩

theorem mapIter_inverts {κ ν : Type} {key : Reader ε κ} {value : Reader ε ν} {es : List (κ × ν)} {write : κ × ν → Bytes}
    (h : ∀ e ∈ es, (entry key value).Inverts (write e) e) (hfirst : ∀ e ∈ es, Begins (write e)) :
    (m.mapIter key value).Inverts (Cbor.map es.length ++ es.flatMap write) es := by
  intro hlt rest
  rw [List.length_append] at hlt
  have hlen := length_le_flatMap fun e he => (hfirst e he).ne_nil
  rw [hm.mapIter, List.append_assoc]
  exact ⟨_, _, header_head (by omega) (by omega), .of_writer write (fun e he => h e he (lt_of_mem_flatMap he (by omega))) rest⟩

theorem mapIter_inverts_indef {κ ν : Type} {key : Reader ε κ} {value : Reader ε ν} {es : List (κ × ν)}
    {write : κ × ν → Bytes} (h : ∀ e ∈ es, (entry key value).Inverts (write e) e)
    (hfirst : ∀ e ∈ es, Begins (write e)) :
    (m.mapIter key value).Inverts (beginMap ++ es.flatMap write ++ endIndef) es := by
  intro hlt rest
  rw [List.length_append, List.length_append] at hlt
  rw [hm.mapIter, List.append_assoc, List.append_assoc, ← List.append_assoc (es.flatMap write)]
  exact ⟨none, _, header_indef 5 (by omega),
    .of_writer_indef write (fun e he => h e he (lt_of_mem_flatMap he (by omega))) hfirst rest⟩

theorem pair_takes {x : Reader ε α} {y : Reader ε β} {v w : Bytes} {a : α} {b : β} (hx : x.Takes v a)
    (hy : y.Takes w b) :
    (m.pair x y).Takes (Cbor.array 2 ++ (v ++ w)) (a, b) := by
  intro rest
  have hentry : (entry x y).Takes (v ++ w) (a, b) := hx.bind (hy.last rfl)
  rw [hm.pair, List.append_assoc]
  exact ⟨_, header_head (by omega) (by omega), hentry rest⟩

theorem skip_takes {s : Bytes} (h : ∀ rest, Reads .item (s ++ rest) rest) : m.skip.Takes s () := fun rest =>
  hm.skip_item _ _ (h rest)

/-! ### Nothing depends on what comes behind -/

theorem array_steady : m.array.Steady :=
    fun _ _ _ more h => (hm.array _ _ _).2 (header_more ((hm.array _ _ _).1 h) more)

theorem map_steady : m.map.Steady := fun _ _ _ more h => (hm.map _ _ _).2 (header_more ((hm.map _ _ _).1 h) more)

theorem tag_steady : m.tag.Steady := fun _ _ _ more h => (hm.tag _ _ _).2 (header_more ((hm.tag _ _ _).1 h) more)

theorem u8_steady : m.u8.Steady := fun _ _ _ more h => (hm.u8 _ _ _).2 (header_more ((hm.u8 _ _ _).1 h) more)

theorem u16_steady : m.u16.Steady := fun _ _ _ more h => (hm.u16 _ _ _).2 (header_more ((hm.u16 _ _ _).1 h) more)

theorem u32_steady : m.u32.Steady := fun _ _ _ more h => (hm.u32 _ _ _).2 (header_more ((hm.u32 _ _ _).1 h) more)

theorem u64_steady : m.u64.Steady := fun _ _ _ more h => (hm.u64 _ _ _).2 (header_more ((hm.u64 _ _ _).1 h) more)

theorem bool_steady : m.bool.Steady := by
  intro bs b rest more h
  rw [hm.bool] at h ⊢
  rw [h, List.append_assoc]

theorem bytes_steady : m.bytes.Steady := by
  intro bs s rest more h
  obtain ⟨n, mid, hhead, htake⟩ := (hm.bytes _ _ _).1 h
  exact (hm.bytes _ _ _).2 ⟨n, _, header_more hhead more, take_more htake more⟩

theorem str_steady : m.str.Steady := by
  intro bs s rest more h
  obtain ⟨n, mid, hhead, htake⟩ := (hm.str _ _ _).1 h
  exact (hm.str _ _ _).2 ⟨n, _, header_more hhead more, take_more htake more⟩

theorem arrayIter_steady {item : Reader ε α} (h : item.Steady) : (m.arrayIter item).Steady := by
  intro bs as rest more hrun
  obtain ⟨len, mid, hhead, hitems⟩ := (hm.arrayIter _ _ _ _).1 hrun
  exact (hm.arrayIter _ _ _ _).2 ⟨len, _, header_more hhead more, hitems.append h more⟩

omit hm in
theorem entry_steady {x : Reader ε α} {y : Reader ε β} (hx : x.Steady) (hy : y.Steady) : (entry x y).Steady :=
  hx.bind fun _ => hy.map _

theorem mapIter_steady {κ ν : Type} {key : Reader ε κ} {value : Reader ε ν} (hk : key.Steady) (hv : value.Steady) :
    (m.mapIter key value).Steady := by
  intro bs es rest more hrun
  obtain ⟨len, mid, hhead, hitems⟩ := (hm.mapIter _ _ _ _ _).1 hrun
  exact (hm.mapIter _ _ _ _ _).2 ⟨len, _, header_more hhead more, hitems.append (entry_steady hk hv) more⟩

theorem pair_steady {x : Reader ε α} {y : Reader ε β} (hx : x.Steady) (hy : y.Steady) : (m.pair x y).Steady := by
  intro bs p rest more hrun
  obtain ⟨mid, hhead, hp⟩ := (hm.pair _ _ _ _ _).1 hrun
  exact (hm.pair _ _ _ _ _).2 ⟨_, header_more hhead more, entry_steady hx hy _ _ _ more hp⟩

/-! ### All of them read from a stream -/

theorem array_streams : m.array.Streams m.isEndOfInput := ⟨hm.array_steady, hm.array_waits⟩

theorem map_streams : m.map.Streams m.isEndOfInput := ⟨hm.map_steady, hm.map_waits⟩

theorem tag_streams : m.tag.Streams m.isEndOfInput := ⟨hm.tag_steady, hm.tag_waits⟩

theorem u8_streams : m.u8.Streams m.isEndOfInput := ⟨hm.u8_steady, hm.u8_waits⟩

theorem u16_streams : m.u16.Streams m.isEndOfInput := ⟨hm.u16_steady, hm.u16_waits⟩

theorem u32_streams : m.u32.Streams m.isEndOfInput := ⟨hm.u32_steady, hm.u32_waits⟩

theorem u64_streams : m.u64.Streams m.isEndOfInput := ⟨hm.u64_steady, hm.u64_waits⟩

theorem bool_streams : m.bool.Streams m.isEndOfInput := ⟨hm.bool_steady, hm.bool_waits⟩

theorem bytes_streams : m.bytes.Streams m.isEndOfInput := ⟨hm.bytes_steady, hm.bytes_waits⟩

theorem str_streams : m.str.Streams m.isEndOfInput := ⟨hm.str_steady, hm.str_waits⟩

theorem skip_streams : m.skip.Streams m.isEndOfInput := ⟨hm.skip_steady, hm.skip_waits⟩

theorem arrayIter_streams {item : Reader ε α} (h : item.Streams m.isEndOfInput) :
    (m.arrayIter item).Streams m.isEndOfInput := ⟨hm.arrayIter_steady h.steady, hm.arrayIter_waits item h⟩

theorem mapIter_streams {κ ν : Type} {key : Reader ε κ} {value : Reader ε ν} (hk : key.Streams m.isEndOfInput)
    (hv : value.Streams m.isEndOfInput) : (m.mapIter key value).Streams m.isEndOfInput :=
  ⟨hm.mapIter_steady hk.steady hv.steady, hm.mapIter_waits key value hk hv⟩

theorem pair_streams {x : Reader ε α} {y : Reader ε β} (hx : x.Streams m.isEndOfInput) (hy : y.Streams m.isEndOfInput) :
    (m.pair x y).Streams m.isEndOfInput := ⟨hm.pair_steady hx.steady hy.steady, hm.pair_waits x y hx hy⟩

end MinicborValues.Lawful

end Pallas
