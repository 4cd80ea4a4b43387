import Pallas.CanonicalJson
import Pallas.AddressBytes
import Pallas.Codec.TreeDerive
import Pallas.Lib.CborSkip
import Pallas.Plutus.Decode

/-!
# Decoding native scripts (`pallas-primitives/src/native_script.rs`)

A native script is an array of its variant, its fields and, for three of the variants, a list of scripts. The array
must have a definite length, and may be longer than the variant asks for: `begin` keeps how many fields trail, `end` skips
them behind the children. `Begins bs b a rest` is the header at the front, as far as the children, and
`Begins.item_iff` says what is to follow for the script to be one data item: what the children fill, and as many items as
there are trailing fields.

`MinicborScript` adds to `Minicbor` what only this decoder calls, among it that `skip` moves over one item.
-/

namespace Pallas
open Cbor Cbor.Decoder

/-- More of `minicbor::Decoder` and of its errors. -/
structure MinicborScript (ε : Type) extends Minicbor ε where
  i64 : Reader ε Int64
  /-- `Error::unknown_variant`. -/
  unknownVariant : Int64 → ε
  /-- `Error::missing_value`. -/
  missingValue : Int64 → ε
  /-- `Error::at`; a position is given by the bytes that follow it. -/
  errorAt : ε → Bytes → ε

/-- An integer of 64 bits with its sign is next. -/
def SignedInt (bs : Bytes) (z : Int64) (rest : Bytes) : Prop := ∃ n : ℕ,
  header 0 bs = some (some n, rest) ∧ z.toInt = n ∨ header 1 bs = some (some n, rest) ∧ z.toInt = -1 - n

/-- What `minicbor` documents of `i64`, and of `skip` in front of an item. -/
structure MinicborScript.Lawful {ε : Type} (m : MinicborScript ε) : Prop extends m.toMinicbor.Lawful where
  i64 : ∀ bs z rest, m.i64.run bs = (.ok z, rest) ↔ SignedInt bs z rest
  skip_item : ∀ bs rest, Reads .item bs rest → m.skip.run bs = (.ok (), rest)

/-- `d.position()`, by the bytes that follow. -/
def Minicbor.position {ε : Type} : Reader ε Bytes := ⟨fun bs => (.ok bs, bs), fun bs => List.suffix_refl bs⟩

namespace MinicborScript
open Minicbor

/-- An integer that fits 64 bits. -/
def signed64 : Cbor.Decoder Int64 := fun bs => match signed bs with
  | some (z, rest) => if -2 ^ 63 ≤ z ∧ z < 2 ^ 63 then some (Int64.ofInt z, rest) else none
  | none => none

theorem signed64_eq_some {bs rest : Bytes} {z : Int64} : signed64 bs = some (z, rest) ↔ SignedInt bs z rest := by
  constructor
  · intro h
    unfold signed64 at h
    split at h
    · next i mid hi =>
      split at h
      · next hrange =>
        cases h
        have htoInt : (Int64.ofInt i).toInt = i := Int64.toInt_ofInt_of_le hrange.1 hrange.2
        unfold SignedInt
        rw [htoInt]
        exact signed_eq_some.1 hi
      · cases h
    · cases h
  · intro h
    have hlow := z.le_toInt
    have hhigh := z.toInt_lt
    rw [signed64, signed_eq_some.2 h]
    simp only [if_pos (show -2 ^ 63 ≤ z.toInt ∧ z.toInt < 2 ^ 63 from ⟨hlow, hhigh⟩), Int64.ofInt_toInt]

theorem forward_signed64 : Forward signed64 := by
  intro bs z rest h
  obtain ⟨n, ⟨hhead, -⟩ | ⟨hhead, -⟩⟩ := signed64_eq_some.1 h
  · exact Forward.header 0 _ _ _ hhead
  · exact Forward.header 1 _ _ _ hhead

/-- The decoder by the standard, with what native scripts need. -/
def reference : MinicborScript String where
  toMinicbor := Minicbor.reference
  i64 := ofDecoder signed64 forward_signed64
  unknownVariant n := "unknown enum variant " ++ toString n.toInt
  missingValue n := "missing value at index " ++ toString n.toInt
  errorAt e _ := e

theorem reference_lawful : reference.Lawful where
  toLawful := Minicbor.reference_lawful
  i64 _ _ _ := (run_ofDecoder signed64 forward_signed64).trans signed64_eq_some
  skip_item bs rest h := by
    refine run_skip.2 ?_
    rw [skipItem, if_neg, skip_of_reads h]
    intro hbreak
    obtain ⟨tail, rfl⟩ := List.head?_eq_some_iff.1 hbreak
    exact Reads.not_break h

end MinicborScript

namespace NativeScript

section Source
variable {ε : Type} (m : MinicborScript ε)

/-- `Decode for Hash`. -/
def decodeHash (n : ℕ) : Reader ε (Hash n) := do
  let bs ← decodeBytesDefOrIndef m.toMinicbor
  if bs.length = n then pure (Hash.ofBytes n bs)
  else .throw (m.message "Invalid hash size")

def fieldCount (variant : Int64) : Option UInt64 :=
  if variant = 0 ∨ variant = 1 ∨ variant = 2 ∨ variant = 4 ∨ variant = 5 then some 2
  else if variant = 3 then some 3
  else none

/-- `NativeScript::begin`: the fields up to a list of children, which stays empty. -/
def beginFields (variant : Int64) : Reader (Fault ε) NativeScript :=
  if variant = 0 then do
    let h ← Minicbor.lift (decodeHash m 28)
    pure (scriptPubkey h)
  else if variant = 1 then pure (scriptAll [])
  else if variant = 2 then pure (scriptAny [])
  else if variant = 3 then do
    let n ← Minicbor.lift m.i64
    pure (scriptNOfK n [])
  else if variant = 4 then do
    let slot ← Minicbor.lift m.u64
    pure (invalidBefore slot)
  else if variant = 5 then do
    let slot ← Minicbor.lift m.u64
    pure (invalidHereafter slot)
  else .throw .panic

def childrenMut : NativeScript → Option (List NativeScript)
  | scriptAll xs | scriptAny xs | scriptNOfK _ xs => some xs
  | _ => none

/-- `rebuild`: a node over other children. -/
def rebuild : NativeScript → List NativeScript → NativeScript
  | scriptPubkey h, _ => scriptPubkey h
  | scriptAll _, children => scriptAll children
  | scriptAny _, children => scriptAny children
  | scriptNOfK n _, children => scriptNOfK n children
  | invalidBefore slot, _ => invalidBefore slot
  | invalidHereafter slot, _ => invalidHereafter slot

structure Builder where
  script : NativeScript
  trailingFields : UInt64

/-- The arity of a script whose fields are decoded. -/
def beginChildren (script : NativeScript) : Reader ε Arity :=
  if script.childrenMut.isSome then do
    let len ← m.array
    pure (.ofLen len)
  else pure .leaf

/-- `begin` from the variant on, in an array that starts at `start`. -/
def beginVariant (start : Bytes) (len : UInt64) : Reader (Fault ε) (Builder × Arity) := do
  let variantPosition ← Minicbor.position
  let variant ← Minicbor.lift m.i64
  match fieldCount variant with
  | none => .throw (.error (m.errorAt (m.unknownVariant variant) variantPosition))
  | some required =>
    if len < required then .throw (.error (m.errorAt (m.missingValue (len - 1).toInt64) start))
    else do
      let script ← beginFields m variant
      let arity ← Minicbor.lift (beginChildren m script)
      pure (⟨script, len - required⟩, arity)

/-- `TreeDecode::begin for Node`. -/
def begin : Reader (Fault ε) (Builder × Arity) := do
  let position ← Minicbor.position
  let len ← Minicbor.lift m.array
  match len with
  | none => .throw (.error (m.errorAt (m.message "flat enum requires definite-length array") position))
  | some len =>
    if len = 0 then .throw (.error (m.errorAt (m.message "flat enum requires non-empty array") position))
    else beginVariant m position len

/-- `TreeDecode::child for Node`. -/
def Builder.child (b : Builder) (x : NativeScript) : Except (Fault ε) Builder :=
  match b.script.childrenMut with
  | some xs => .ok { b with script := b.script.rebuild (xs ++ [x]) }
  | none => .error .panic

/-- `for _ in 0..trailing_fields { d.skip()?; }`. -/
def skipFields : ℕ → Reader ε Unit
  | 0 => pure ()
  | n + 1 => do
    m.skip
    skipFields n

/-- `TreeDecode::end for Node`. -/
def Builder.end (b : Builder) : Reader ε NativeScript := do
  skipFields m b.trailingFields.toNat
  pure b.script

end Source

theorem child_of_some {ε : Type} {b : Builder} {xs : List NativeScript} (h : b.script.childrenMut = some xs)
    (x : NativeScript) : (b.child x : Except (Fault ε) Builder) = .ok { b with script := b.script.rebuild (xs ++ [x]) } := by
  simp only [Builder.child, h]

/-! ### Headers -/

/-- The fields of a variant, in front of its children. -/
inductive Fields (bs : Bytes) : (variant : Int64) → NativeScript → (rest : Bytes) → Prop where
  | pubkey {s rest : Bytes} (h : ByteString bs s rest) (hlen : s.length = 28) :
      Fields bs 0 (scriptPubkey (Hash.ofBytes 28 s)) rest
  | all : Fields bs 1 (scriptAll []) bs
  | any : Fields bs 2 (scriptAny []) bs
  | nOfK {n : Int64} {rest : Bytes} (h : SignedInt bs n rest) : Fields bs 3 (scriptNOfK n []) rest
  | before {slot : UInt64} {rest : Bytes} (h : header 0 bs = some (some slot.toNat, rest)) :
      Fields bs 4 (invalidBefore slot) rest
  | hereafter {slot : UInt64} {rest : Bytes} (h : header 0 bs = some (some slot.toNat, rest)) :
      Fields bs 5 (invalidHereafter slot) rest

/-- The list of children of a script, up to its first child. -/
inductive Opens (script : NativeScript) (bs : Bytes) : Arity → (rest : Bytes) → Prop where
  | leaf (h : script.childrenMut = none) : Opens script bs .leaf bs
  | list {xs : List NativeScript} {len : Option UInt64} {rest : Bytes} (h : script.childrenMut = some xs)
      (hhead : header 4 bs = some (len.map UInt64.toNat, rest)) : Opens script bs (.ofLen len) rest

/-- The header of a script, the builder it opens and the children that are to follow. -/
inductive Begins (bs : Bytes) : Builder → Arity → (rest : Bytes) → Prop where
  | intro {len required : UInt64} {variant : Int64} {script : NativeScript} {a : Arity} {mid mid' mid'' rest : Bytes}
      (hlen : header 4 bs = some (some len.toNat, mid)) (hvariant : SignedInt mid variant mid')
      (hcount : fieldCount variant = some required) (henough : required ≤ len)
        (hfields : Fields mid' variant script mid'')
      (hopens : Opens script mid'' a rest) : Begins bs ⟨script, len - required⟩ a rest

section Headers
variable {ε : Type} {m : MinicborScript ε} {bs mid rest : Bytes} {variant : Int64} {script : NativeScript} {a : Arity}

theorem run_decodeHash (hm : m.Lawful) {n : ℕ} {h : Hash n} : (decodeHash m n).run bs = (.ok h, rest) ↔
    ∃ s, ByteString bs s rest ∧ s.length = n ∧ h = Hash.ofBytes n s := by
  rw [decodeHash, Reader.bind_eq_ok]
  constructor
  · rintro ⟨s, mid, hs, h⟩
    split at h
    · next hlen =>
      cases h
      exact ⟨s, (run_decodeBytesDefOrIndef hm.toLawful).1 hs, hlen, rfl⟩
    · cases h
  · rintro ⟨s, hs, hlen, rfl⟩
    refine ⟨s, rest, (run_decodeBytesDefOrIndef hm.toLawful).2 hs, ?_⟩
    rw [if_pos hlen]
    rfl

theorem run_beginFields (hm : m.Lawful) (hknown : (fieldCount variant).isSome) :
    (beginFields m variant).run bs = (.ok script, rest) ↔ Fields bs variant script rest := by
  constructor
  · intro h
    unfold beginFields at h
    split at h
    · next hv =>
      obtain ⟨hash, mid, hhash, h⟩ := Reader.bind_eq_ok.1 h
      cases h
      obtain ⟨s, hs, hlen, rfl⟩ := (run_decodeHash hm).1 (Minicbor.run_lift_eq_ok.1 hhash)
      rw [hv]
      exact .pubkey hs hlen
    split at h
    · next hv =>
      cases h
      rw [hv]
      exact .all
    split at h
    · next hv =>
      cases h
      rw [hv]
      exact .any
    split at h
    · next hv =>
      obtain ⟨n, mid, hn, h⟩ := Reader.bind_eq_ok.1 h
      cases h
      rw [hv]
      exact .nOfK ((hm.i64 _ _ _).1 (Minicbor.run_lift_eq_ok.1 hn))
    split at h
    · next hv =>
      obtain ⟨slot, mid, hslot, h⟩ := Reader.bind_eq_ok.1 h
      cases h
      rw [hv]
      exact .before ((hm.u64 _ _ _).1 (Minicbor.run_lift_eq_ok.1 hslot))
    split at h
    · next hv =>
      obtain ⟨slot, mid, hslot, h⟩ := Reader.bind_eq_ok.1 h
      cases h
      rw [hv]
      exact .hereafter ((hm.u64 _ _ _).1 (Minicbor.run_lift_eq_ok.1 hslot))
    · cases h
  · intro h
    cases h with
    | pubkey hs hlen =>
      have hhash := (run_decodeHash hm).2 ⟨_, hs, hlen, rfl⟩
      exact Reader.bind_eq_ok.2 ⟨_, _, Minicbor.run_lift_eq_ok.2 hhash, rfl⟩
    | all => rfl
    | any => rfl
    | nOfK hn => exact Reader.bind_eq_ok.2 ⟨_, _, Minicbor.run_lift_eq_ok.2 ((hm.i64 _ _ _).2 hn), rfl⟩
    | before hslot => exact Reader.bind_eq_ok.2 ⟨_, _, Minicbor.run_lift_eq_ok.2 ((hm.u64 _ _ _).2 hslot), rfl⟩
    | hereafter hslot => exact Reader.bind_eq_ok.2 ⟨_, _, Minicbor.run_lift_eq_ok.2 ((hm.u64 _ _ _).2 hslot), rfl⟩

theorem run_beginChildren (hm : m.Lawful) :
    (beginChildren m script).run bs = (.ok a, rest) ↔ Opens script bs a rest := by
  unfold beginChildren
  constructor
  · intro h
    split at h
    · next hsome =>
      obtain ⟨xs, hxs⟩ := Option.isSome_iff_exists.1 hsome
      obtain ⟨len, mid, hlen, h⟩ := Reader.bind_eq_ok.1 h
      cases h
      exact .list hxs ((hm.array _ _ _).1 hlen)
    · next hnone =>
      cases h
      exact .leaf (Option.not_isSome_iff_eq_none.1 hnone)
  · intro h
    cases h with
    | leaf h =>
      rw [if_neg (by rw [h]; simp)]
      rfl
    | list h hhead =>
      rw [if_pos (by rw [h]; rfl)]
      exact Reader.bind_eq_ok.2 ⟨_, _, (hm.array _ _ _).2 hhead, rfl⟩

theorem two_le_of_fieldCount {required : UInt64} (h : fieldCount variant = some required) : 2 ≤ required.toNat := by
  unfold fieldCount at h
  split at h
  · cases h
    decide
  split at h
  · cases h
    decide
  · cases h

/-- What `begin` returns and where it stops: the header at the front, and nothing else. -/
theorem run_begin (hm : m.Lawful) {b : Builder} : (begin m).run bs = (.ok (b, a), rest) ↔ Begins bs b a rest := by
  constructor
  · intro h
    obtain ⟨start, mid, hstart, h⟩ := Reader.bind_eq_ok.1 h
    cases hstart
    obtain ⟨len, mid, hlen, h⟩ := Reader.bind_eq_ok.1 h
    have hlen' := (hm.array _ _ _).1 (Minicbor.run_lift_eq_ok.1 hlen)
    cases len with
    | none => cases h
    | some len =>
      simp only at h
      split at h
      · cases h
      obtain ⟨position, mid', hposition, h⟩ := Reader.bind_eq_ok.1 h
      cases hposition
      obtain ⟨variant, mid', hvariant, h⟩ := Reader.bind_eq_ok.1 h
      have hvariant' := (hm.i64 _ _ _).1 (Minicbor.run_lift_eq_ok.1 hvariant)
      split at h
      · cases h
      · next required hcount =>
        split at h
        · cases h
        · next henough =>
          obtain ⟨script, mid'', hfields, h⟩ := Reader.bind_eq_ok.1 h
          obtain ⟨arity, rest', hopens, h⟩ := Reader.bind_eq_ok.1 h
          cases h
          have hfields' := (run_beginFields hm (by rw [hcount]; rfl)).1 hfields
          have hopens' := (run_beginChildren hm).1 (Minicbor.run_lift_eq_ok.1 hopens)
          exact .intro hlen' hvariant' hcount (UInt64.not_lt.1 henough) hfields' hopens'
  · intro h
    cases h with
    | @intro len required variant script _ mid mid' mid'' _ hlen hvariant hcount henough hfields hopens =>
      have htwo := two_le_of_fieldCount hcount
      have hne : len ≠ 0 := by
        rintro rfl
        have hle := UInt64.le_iff_toNat_le.1 henough
        simp at hle
        omega
      refine Reader.bind_eq_ok.2 ⟨bs, bs, rfl, Reader.bind_eq_ok.2 ⟨some len, mid, ?_, ?_⟩⟩
      · exact Minicbor.run_lift_eq_ok.2 ((hm.array _ _ _).2 hlen)
      simp only [if_neg hne]
      refine Reader.bind_eq_ok.2 ⟨mid, mid, rfl, Reader.bind_eq_ok.2 ⟨variant, mid', ?_, ?_⟩⟩
      · exact Minicbor.run_lift_eq_ok.2 ((hm.i64 _ _ _).2 hvariant)
      simp only [hcount, if_neg (UInt64.not_lt.2 henough)]
      refine Reader.bind_eq_ok.2 ⟨script, mid'', (run_beginFields hm (by rw [hcount]; rfl)).2 hfields, ?_⟩
      exact Reader.bind_eq_ok.2 ⟨a, rest, Minicbor.run_lift_eq_ok.2 ((run_beginChildren hm).2 hopens), rfl⟩

theorem Fields.length_le (h : Fields bs variant script rest) : rest.length ≤ bs.length := by
  cases h with
  | pubkey hs _ => exact hs.length_lt.le
  | all => exact le_rfl
  | any => exact le_rfl
  | nOfK hn =>
    obtain ⟨n, ⟨hhead, -⟩ | ⟨hhead, -⟩⟩ := hn
    · exact (header_length hhead).le
    · exact (header_length hhead).le
  | before hhead => exact (header_length hhead).le
  | hereafter hhead => exact (header_length hhead).le

theorem Opens.length_le (h : Opens script bs a rest) : rest.length ≤ bs.length := by
  cases h with
  | leaf => exact le_rfl
  | list _ hhead => exact (header_length hhead).le

theorem signedInt_length {z : Int64} (h : SignedInt bs z rest) : rest.length < bs.length := by
  obtain ⟨n, ⟨hhead, -⟩ | ⟨hhead, -⟩⟩ := h
  · exact header_length hhead
  · exact header_length hhead

theorem Begins.length_lt {b : Builder} (h : Begins bs b a rest) : rest.length < bs.length := by
  cases h with
  | intro hlen hvariant _ _ hfields hopens =>
    have hlt := header_length hlen
    have hlt' := signedInt_length hvariant
    have hle := hfields.length_le
    have hle' := hopens.length_le
    omega

theorem Begins.datatype (hm : m.Lawful) {b : Builder} (h : Begins bs b a rest) :
    ∃ t, m.datatype bs = .ok t ∧ t ≠ .break := by
  cases h with
  | intro hlen => exact ⟨.array, hm.datatype_array _ _ _ hlen, by simp⟩

end Headers

variable {C ε : Type} {m : MinicborScript ε}

/-- `TreeDecode for Node`. -/
def node (hm : m.Lawful) : TreeDecode C ε NativeScript where
  Builder := Builder
  begin ctx := do
    let opened ← begin m
    pure (opened, ctx)
  child := Builder.child
  endNode b ctx := do
    let script ← Minicbor.lift (b.end m)
    pure (script, ctx)
  begin_consumes ctx bs r rest h := by
    obtain ⟨⟨b, a⟩, mid, hbegin, h⟩ := Reader.bind_eq_ok.1 h
    cases h
    exact ((run_begin hm).1 hbegin).length_lt

/-- `Decode for NativeScript`. -/
def decode (hm : m.Lawful) (ctx : C) (bs : Bytes) : Decoded C ε NativeScript :=
  TreeDecode.decodeTree (node hm) m.toMinicbor ctx bs

theorem run_node_begin (hm : m.Lawful) {ctx ctx' : C} {bs rest : Bytes} {b : Builder} {a : Arity} :
    ((node hm).begin ctx).run bs = (.ok ((b, a), ctx'), rest) ↔ Begins bs b a rest ∧ ctx' = ctx := by
  exact Reader.pair_eq_ok.trans (and_congr_left' (run_begin hm))

theorem run_node_end (hm : m.Lawful) {ctx ctx' : C} {bs rest : Bytes} {b : Builder} {x : NativeScript} :
    ((node hm).endNode b ctx).run bs = (.ok (x, ctx'), rest) ↔
      (skipFields m b.trailingFields.toNat).run bs = (.ok (), rest) ∧ x = b.script ∧ ctx' = ctx := by
  refine Reader.pair_eq_ok.trans ?_
  rw [← and_assoc]
  refine and_congr_left' (Minicbor.run_lift_eq_ok.trans (Reader.bind_eq_ok.trans ?_))
  constructor
  · rintro ⟨u, mid, hskip, h⟩
    cases h
    exact ⟨hskip, rfl⟩
  · rintro ⟨hskip, rfl⟩
    exact ⟨(), rest, hskip, rfl⟩

end NativeScript
end Pallas
