import Pallas.NativeScript.RoundTrip

/-!
# `KeepRaw` (`pallas-codec/src/utils.rs`, `pallas-traverse/src/hashes.rs`)

A `KeepRaw` holds a value and the bytes it was decoded from. Whoever lends the value out to be changed clears the bytes, and a value
that was built here never had any; then the encoder writes the value itself, but most of the hashers still take the cleared buffer
(`coherent_iff`).
-/

namespace Pallas.Keep

/-- `KeepRaw<T>`: no bytes where the value was built here or may have been changed. -/
structure KeepRaw (T : Type) where
  raw : Bytes
  inner : T

namespace KeepRaw
variable {ε T : Type}

def rawCbor (self : KeepRaw T) : Bytes := self.raw

def clearRaw (self : KeepRaw T) : KeepRaw T := { self with raw := [] }

/-- `From<T>`. -/
def ofInner (val : T) : KeepRaw T := ⟨[], val⟩

/-- What becomes of it when `f` is done through `deref_mut`. -/
def derefMut (f : T → T) (self : KeepRaw T) : KeepRaw T :=
  let self := self.clearRaw
  { self with inner := f self.inner }

/-- `Decode`: keeps the bytes that the value took. -/
def decode (inner : Reader ε T) : Reader ε (KeepRaw T) where
  run bs := Reader.next (inner.run bs) fun t rest => (.ok ⟨bs.take (bs.length - rest.length), t⟩, rest)
  forward bs := by
    have hinner := inner.forward bs
    rcases hrun : inner.run bs with ⟨_ | t, rest⟩ <;> rwa [hrun] at hinner

def encode (inner : T → Bytes) (self : KeepRaw T) :
    Bytes := if self.rawCbor.isEmpty then inner self.inner else self.rawCbor

theorem decode_eq_ok {inner : Reader ε T} {bs rest : Bytes} {k : KeepRaw T} :
    (decode inner).run bs = (.ok k, rest) ↔
      inner.run bs = (.ok k.inner, rest) ∧ k.raw = bs.take (bs.length - rest.length) := by
  show Reader.next (inner.run bs) _ = _ ↔ _
  rw [Reader.next_eq_ok]
  constructor
  · rintro ⟨t, mid, hrun, h⟩
    cases h
    exact ⟨hrun, rfl⟩
  · rintro ⟨hrun, hraw⟩
    obtain ⟨raw, t⟩ := k
    obtain rfl : raw = _ := hraw
    exact ⟨t, rest, hrun, rfl⟩

theorem decode_takes {inner : Reader ε T} {w : Bytes} {t : T} (h : inner.Takes w t) : (decode inner).Takes w ⟨w, t⟩ := by
  intro rest
  refine decode_eq_ok.2 ⟨h rest, ?_⟩
  rw [List.length_append, Nat.add_sub_cancel, List.take_left]

end KeepRaw

/-! ### Types with `KeepRaw` fields -/

/-- A value of a type that holds data of its own, and fields that are `KeepRaw` in the order in which they are written. -/
inductive Value (A : Type) where
  | mk (own : A) (fields : List (KeepRaw (Value A)))

def Value.own {A : Type} : Value A → A
  | mk own _ => own

def Value.fields {A : Type} : Value A → List (KeepRaw (Value A))
  | mk _ fields => fields

mutual

/-- `Encode` of the type, given how its own data and what its fields wrote are put together. -/
def Value.encode {A : Type} (write : A → List Bytes → Bytes) : Value A → Bytes
  | .mk own fields => write own (encodeFields write fields)

def encodeFields {A : Type} (write : A → List Bytes → Bytes) : List (KeepRaw (Value A)) → List Bytes
  | [] => []
  | field :: fields => encodeField write field :: encodeFields write fields

def encodeField {A : Type} (write : A → List Bytes → Bytes) : KeepRaw (Value A) → Bytes
  | ⟨raw, inner⟩ => if raw.isEmpty then inner.encode write else raw

end

/-- The codec of a type: how it is read and written, given how its `KeepRaw` fields are. It has no other way to a field than to
decode it, and reads and writes a byte at least. -/
structure Shape (ε A : Type) where
  read : Reader (Fault ε) (KeepRaw (Value A)) → Reader (Fault ε) (Value A)
  write : A → List Bytes → Bytes
  read_fields : ∀ {field bs rest t}, (read field).run bs = (.ok t, rest) →
    ∀ k ∈ t.fields, ∃ bs' rest', field.run bs' = (.ok k, rest')
  read_consumes : ∀ {field bs rest t}, (read field).run bs = (.ok t, rest) → rest.length < bs.length
  write_ne : ∀ own ws, write own ws ≠ []

namespace Shape
variable {ε A : Type} (S : Shape ε A)

/-- `KeepRaw<T>` as the codec has it. -/
def encode : KeepRaw (Value A) → Bytes := KeepRaw.encode (Value.encode S.write)

/-- Its decoder, where types nest to the depth. -/
def decode : (depth : ℕ) → Reader (Fault ε) (KeepRaw (Value A))
  | 0 => .throw .outOfFuel
  | depth + 1 => KeepRaw.decode (S.read (decode depth))

end Shape

/-- `f` done on the field at the end of a path. Each `KeepRaw` on the way is lent out by `deref_mut`. -/
def mutate {A : Type} (f : Value A → Value A) : (path : List ℕ) → KeepRaw (Value A) → Option (KeepRaw (Value A))
  | [], k => some (k.derefMut f)
  | i :: path, k => do
    let field ← k.inner.fields[i]?
    let field ← mutate f path field
    some (k.derefMut fun t => .mk t.own (t.fields.set i field))

/-! ### What it is for -/

/-- The same with its history: the bytes it was decoded from if it has not been lent out since. -/
inductive Kept (A : Type) where
  | mk (origin : Option Bytes) (own : A) (fields : List (Kept A))

namespace Kept
variable {A : Type}

def origin : Kept A → Option Bytes
  | mk origin _ _ => origin

def fields : Kept A → List (Kept A)
  | mk _ _ fields => fields

mutual

/-- What is to be written: the original bytes, or else the value as it is now. -/
def written (write : A → List Bytes → Bytes) : Kept A → Bytes
  | mk (some slice) _ _ => slice
  | mk none own fields => write own (writtenFields write fields)

def writtenFields (write : A → List Bytes → Bytes) : List (Kept A) → List Bytes
  | [] => []
  | field :: fields => written write field :: writtenFields write fields

end

/-- The field at the end of a path has new content. -/
def assign (own : A) (content : List (Kept A)) : (path : List ℕ) → Kept A → Option (Kept A)
  | [], _ => some (mk none own content)
  | i :: path, mk _ own' fields => do
    let field ← fields[i]?
    let field ← assign own content path field
    some (mk none own' (fields.set i field))

mutual

/-- How the code represents it. -/
def code : Kept A → KeepRaw (Value A)
  | mk origin own fields => ⟨origin.getD [], .mk own (codeFields fields)⟩

def codeFields : List (Kept A) → List (KeepRaw (Value A))
  | [] => []
  | field :: fields => code field :: codeFields fields

end

/-- Original bytes are not empty. -/
inductive Sound : Kept A → Prop
  | mk {origin : Option Bytes} {own : A} {fields : List (Kept A)} (horigin : origin ≠ some []) (hfields : ∀ f ∈ fields, Sound f) :
    Sound (mk origin own fields)

/-- Nothing in it has been lent out since it was decoded. -/
inductive Intact : Kept A → Prop
  | mk {slice : Bytes} {own : A} {fields : List (Kept A)} (hfields : ∀ f ∈ fields, Intact f) : Intact (mk (some slice) own fields)

end Kept

/-- What a program can hold, with its history: what it has decoded, built by `From`, found in a field by `deref` and cloned, and
changed through `deref_mut`, its fields too. -/
inductive Holds {ε A : Type} (S : Shape ε A) : KeepRaw (Value A) → Kept A → Prop
  | decode {depth : ℕ} {bs rest : Bytes} {k : KeepRaw (Value A)} {a : Kept A} (h : (S.decode depth).run bs = (.ok k, rest))
      (hcode : a.code = k) (ha : a.Intact) : Holds S k a
  | build (own : A) (content : List (KeepRaw (Value A) × Kept A)) (h : ∀ p ∈ content, Holds S p.1 p.2) :
      Holds S (.ofInner (.mk own (content.map Prod.fst))) (.mk none own (content.map Prod.snd))
  | field {k k' : KeepRaw (Value A)} {a a' : Kept A} {i : ℕ} (h : Holds S k a) (hk : k.inner.fields[i]? = some k')
      (ha : a.fields[i]? = some a') : Holds S k' a'
  | mutate {k k' : KeepRaw (Value A)} {a a' : Kept A} (path : List ℕ) (own : A) (content : List (KeepRaw (Value A) × Kept A))
      (h : Holds S k a) (hcontent : ∀ p ∈ content, Holds S p.1 p.2)
      (hk : mutate (fun _ => .mk own (content.map Prod.fst)) path k = some k')
      (ha : a.assign own (content.map Prod.snd) path = some a') : Holds S k' a'

/-! ### The code keeps to its purpose -/

section Purpose
variable {ε A : Type} {S : Shape ε A}

theorem encodeFields_eq (write : A → List Bytes → Bytes) (ks : List (KeepRaw (Value A))) :
    encodeFields write ks = ks.map (KeepRaw.encode (Value.encode write)) := by
  induction ks with
  | nil => rfl
  | cons k ks ih =>
    obtain ⟨raw, inner⟩ := k
    rw [encodeFields, ih, List.map_cons, encodeField]
    rfl

namespace Kept
variable {a a' : Kept A}

theorem codeFields_eq (as : List (Kept A)) : codeFields as = as.map code := by
  induction as with
  | nil => rfl
  | cons a as ih => rw [codeFields, ih, List.map_cons]

theorem writtenFields_eq (write : A → List Bytes → Bytes) (as : List (Kept A)) :
    writtenFields write as = as.map (written write) := by
  induction as with
  | nil => rfl
  | cons a as ih => rw [writtenFields, ih, List.map_cons]

@[simp] theorem code_mk (origin : Option Bytes) (own : A) (fields : List (Kept A)) :
    (mk origin own fields).code = ⟨origin.getD [], .mk own (fields.map code)⟩ := by
  rw [code, codeFields_eq]

theorem code_raw (a : Kept A) : a.code.raw = a.origin.getD [] := by
  cases a
  rw [code_mk]
  rfl

theorem code_fields (a : Kept A) : a.code.inner.fields = a.fields.map code := by
  cases a
  rw [code_mk]
  rfl

theorem Sound.fields (h : a.Sound) : ∀ f ∈ a.fields, f.Sound := by
  cases h with
  | mk _ hfields => exact hfields

theorem encode_code (h : a.Sound) : S.encode a.code = a.written S.write := by
  induction h with
  | mk horigin hfields ih =>
    rename_i origin own fields
    rw [code_mk, Shape.encode, KeepRaw.encode, KeepRaw.rawCbor]
    cases origin with
    | some slice =>
      have hne : slice ≠ [] := fun hnil => horigin (by rw [hnil])
      rw [Option.getD_some, if_neg (by simpa using hne), written]
    | none =>
      simp only [Option.getD_none, List.isEmpty_nil, if_true]
      rw [written, Value.encode, encodeFields_eq, writtenFields_eq, List.map_map]
      exact congrArg _ (List.map_congr_left ih)

theorem mutate_code (own : A) (content : List (Kept A)) {path : List ℕ} (h : a.assign own content path = some a') :
    mutate (fun _ => .mk own (content.map code)) path a.code = some a'.code := by
  induction path generalizing a a' with
  | nil =>
    cases h
    rw [code_mk]
    rfl
  | cons i path ih =>
    obtain ⟨origin, own', fields⟩ := a
    obtain ⟨field, hfield, h⟩ := Option.bind_eq_some_iff.1 h
    obtain ⟨field', hfield', h⟩ := Option.bind_eq_some_iff.1 h
    cases h
    have hget : (mk origin own' fields).code.inner.fields[i]? = some field.code := by
      rw [code_fields, List.getElem?_map]
      exact congrArg _ hfield
    rw [mutate, hget]
    simp only [Option.bind_eq_bind, Option.bind_some, ih hfield']
    rw [code_mk, code_mk, List.map_set]
    rfl

theorem Sound.assign {own : A} {content : List (Kept A)} (hcontent : ∀ f ∈ content, f.Sound)
    {path : List ℕ} (ha : a.Sound)
    (h : a.assign own content path = some a') : a'.Sound := by
  induction path generalizing a a' with
  | nil =>
    cases h
    exact .mk (by simp) hcontent
  | cons i path ih =>
    obtain ⟨origin, own', fields⟩ := a
    obtain ⟨field, hfield, h⟩ := Option.bind_eq_some_iff.1 h
    obtain ⟨field', hfield', h⟩ := Option.bind_eq_some_iff.1 h
    cases h
    have hnew := ih (ha.fields field (List.mem_of_getElem? hfield)) hfield'
    refine .mk (by simp) fun f hf => ?_
    rcases List.mem_or_eq_of_mem_set hf with hf | rfl
    · exact ha.fields f hf
    · exact hnew

theorem Intact.sound (h : a.Intact) {depth : ℕ} {bs rest : Bytes}
    (hrun : (S.decode depth).run bs = (.ok a.code, rest)) : a.Sound := by
  induction depth generalizing a bs rest with
  | zero => cases hrun
  | succ depth ih =>
    obtain ⟨hread, hraw⟩ := KeepRaw.decode_eq_ok.1 hrun
    cases h with
    | mk hfields =>
      rename_i slice own fields
      refine .mk ?_ fun f hf => ?_
      · rintro hnil
        have hlt := S.read_consumes hread
        rw [code_raw] at hraw
        have hslice : slice = [] := Option.some.inj hnil
        have hlen := congrArg List.length (hraw.symm.trans hslice)
        rw [List.length_take, List.length_nil] at hlen
        omega
      · have hmem : f.code ∈ (Kept.mk (some slice) own fields).code.inner.fields := by
          rw [code_fields]
          exact List.mem_map_of_mem hf
        obtain ⟨bs', rest', hfield⟩ := S.read_fields hread _ hmem
        exact ih (hfields f hf) hfield

end Kept

theorem map_code {content : List (KeepRaw (Value A) × Kept A)} (h : ∀ p ∈ content, p.1 = p.2.code) :
    content.map Prod.fst = (content.map Prod.snd).map Kept.code := by
  rw [List.map_map]
  exact List.map_congr_left h

theorem Holds.code {k : KeepRaw (Value A)} {a : Kept A} (h : Holds S k a) : k = a.code ∧ a.Sound := by
  induction h with
  | decode h hcode ha =>
    subst hcode
    exact ⟨rfl, ha.sound h⟩
  | build own content _ ih =>
    refine ⟨?_, .mk (by simp) fun f hf => ?_⟩
    · rw [Kept.code_mk, ← map_code fun p hp => (ih p hp).1]
      rfl
    · obtain ⟨p, hp, rfl⟩ := List.mem_map.1 hf
      exact (ih p hp).2
  | field _ hk ha ih =>
    obtain ⟨rfl, hsound⟩ := ih
    rw [Kept.code_fields, List.getElem?_map, ha] at hk
    exact ⟨(Option.some.inj hk).symm, hsound.fields _ (List.mem_of_getElem? ha)⟩
  | mutate path own content _ _ hk ha ih ihcontent =>
    obtain ⟨rfl, hsound⟩ := ih
    rw [map_code fun p hp => (ihcontent p hp).1, Kept.mutate_code own _ ha] at hk
    refine ⟨(Option.some.inj hk).symm, hsound.assign (fun f hf => ?_) ha⟩
    obtain ⟨p, hp, rfl⟩ := List.mem_map.1 hf
    exact (ihcontent p hp).2

end Purpose

/-! ### Hashes -/

/-- The implementations of `OriginalHash` for bodies, headers, datums and native scripts. -/
inductive Hashed where
  | byronEbbHead
  | byronBlockHead
  | byronTx
  | alonzoHeader
  | alonzoNativeScript
  | alonzoPlutusData
  | alonzoTransactionBody
  | babbageHeader
  | babbageTransactionBody
  | conwayTransactionBody
  | dijkstraHeader
  | dijkstraTransactionBody
  | dijkstraSubTransactionBody
  | dijkstraNativeScript
  deriving DecidableEq

section Hasher
variable {T : Type} (blake2b : (bits : ℕ) → Bytes → Bytes)

def hash (bits : ℕ) (bytes : Bytes) : Bytes := blake2b bits bytes

def hashTagged (bits : ℕ) (bytes : Bytes) (tag : UInt8) : Bytes := blake2b bits (tag :: bytes)

/-- `hash_cbor(&(kind, self))`. -/
def hashPair (bits kind : ℕ) (bytes : Bytes) : Bytes := blake2b bits (Cbor.array 2 ++ Cbor.uint kind ++ bytes)

def originalHash (encode : KeepRaw T → Bytes) : Hashed → KeepRaw T → Bytes
  | .byronEbbHead, self => hashPair blake2b 256 0 (encode self)
  | .byronBlockHead, self => hashPair blake2b 256 1 (encode self)
  | .byronTx, self => hash blake2b 256 self.rawCbor
  | .alonzoHeader, self => hash blake2b 256 self.rawCbor
  | .alonzoNativeScript, self => hashTagged blake2b 224 self.rawCbor 0
  | .alonzoPlutusData, self => hash blake2b 256 self.rawCbor
  | .alonzoTransactionBody, self => hash blake2b 256 self.rawCbor
  | .babbageHeader, self => hash blake2b 256 self.rawCbor
  | .babbageTransactionBody, self => hash blake2b 256 self.rawCbor
  | .conwayTransactionBody, self => hash blake2b 256 self.rawCbor
  | .dijkstraHeader, self => hash blake2b 256 self.rawCbor
  | .dijkstraTransactionBody, self => hash blake2b 256 self.rawCbor
  | .dijkstraSubTransactionBody, self => hash blake2b 256 self.rawCbor
  | .dijkstraNativeScript, self => hashTagged blake2b 224 self.rawCbor 0

/-- The hash of an object that is written as the bytes. -/
def hashOf : Hashed → (bytes : Bytes) → Bytes
  | .byronEbbHead, bytes => hashPair blake2b 256 0 bytes
  | .byronBlockHead, bytes => hashPair blake2b 256 1 bytes
  | .alonzoNativeScript, bytes => hashTagged blake2b 224 bytes 0
  | .dijkstraNativeScript, bytes => hashTagged blake2b 224 bytes 0
  | _, bytes => hash blake2b 256 bytes

end Hasher

/-- The hasher encodes the object again. -/
def Hashed.Reencodes (kind : Hashed) : Prop := kind = .byronEbbHead ∨ kind = .byronBlockHead

section Coherence
variable {ε A T : Type}

/-- It is written as its history says, and its hash is that of the bytes written, whichever hash function it is. -/
structure Coherent (S : Shape ε A) (kind : Hashed) (k : KeepRaw (Value A)) (a : Kept A) : Prop where
  encodes : S.encode k = a.written S.write
  hashes : ∀ blake2b, originalHash blake2b S.encode kind k = hashOf blake2b kind (S.encode k)

theorem originalHash_of_reencodes (blake2b : ℕ → Bytes → Bytes) (encode : KeepRaw T → Bytes)
    {kind : Hashed} (h : kind.Reencodes)
    (k : KeepRaw T) : originalHash blake2b encode kind k = hashOf blake2b kind (encode k) := by
  rcases h with rfl | rfl <;> rfl

theorem originalHash_eq (blake2b : ℕ → Bytes → Bytes) (encode : KeepRaw T → Bytes) {kind : Hashed}
    (h : ¬ kind.Reencodes)
    (k : KeepRaw T) : originalHash blake2b encode kind k = hashOf blake2b kind k.raw := by
  cases kind with
  | byronEbbHead => exact absurd (.inl rfl) h
  | byronBlockHead => exact absurd (.inr rfl) h
  | _ => rfl

/-- Of two objects written differently, some hash function tells them apart. -/
theorem hashOf_injective (kind : Hashed) {bytes bytes' : Bytes}
    (h : ∀ blake2b, hashOf blake2b kind bytes = hashOf blake2b kind bytes') :
    bytes = bytes' := by
  have hid := h fun _ bs => bs
  cases kind with
  | alonzoNativeScript => exact (List.cons.inj hid).2
  | dijkstraNativeScript => exact (List.cons.inj hid).2
  | byronEbbHead => exact List.append_cancel_left hid
  | byronBlockHead => exact List.append_cancel_left hid
  | _ => exact hid

theorem written_ne {S : Shape ε A} {a : Kept A} (h : a.Sound) : a.written S.write ≠ [] := by
  cases h with
  | mk horigin hfields =>
    rename_i origin own fields
    cases origin with
    | some slice => exact fun hnil => horigin (congrArg some hnil)
    | none => exact S.write_ne _ _

section Holds
variable {S : Shape ε A} {k : KeepRaw (Value A)} {a : Kept A} {kind : Hashed}

theorem Holds.coherent (h : Holds S k a) (hcase : kind.Reencodes ∨ a.origin ≠ none) : Coherent S kind k a := by
  obtain ⟨rfl, hsound⟩ := h.code
  have hencode : S.encode a.code = a.written S.write := Kept.encode_code hsound
  refine ⟨hencode, fun blake2b => ?_⟩
  by_cases hkind : kind.Reencodes
  · exact originalHash_of_reencodes blake2b S.encode hkind a.code
  · obtain ⟨slice, hslice⟩ := Option.ne_none_iff_exists'.1 (hcase.resolve_left hkind)
    obtain ⟨origin, own, fields⟩ := a
    obtain rfl : origin = some slice := hslice
    rw [originalHash_eq _ _ hkind, hencode, Kept.code_raw, Kept.written]
    rfl

/-- The hash of no bytes is not that of what is written. -/
theorem Holds.origin_of_coherent (h : Holds S k a) (hcoherent : Coherent S kind k a) :
    kind.Reencodes ∨ a.origin ≠ none := by
  obtain ⟨rfl, hsound⟩ := h.code
  have hencode : S.encode a.code = a.written S.write := Kept.encode_code hsound
  by_contra hnot
  obtain ⟨hkind, horigin⟩ := not_or.1 hnot
  have hraw : a.code.raw = S.encode a.code := hashOf_injective kind fun blake2b => by
    rw [← hcoherent.hashes, originalHash_eq _ _ hkind]
  rw [Kept.code_raw, not_not.1 horigin, Option.getD_none, hencode] at hraw
  exact written_ne hsound hraw.symm

end Holds

/-- Whatever a program holds is coherent exactly as long as it has its bytes, Byron heads apart. -/
theorem coherent_iff {S : Shape ε A} {k : KeepRaw (Value A)} {a : Kept A} (h : Holds S k a) (kind : Hashed) :
    Coherent S kind k a ↔ kind.Reencodes ∨ a.origin ≠ none :=
  ⟨h.origin_of_coherent, h.coherent⟩

end Coherence

/-! ### Native scripts -/

section Scripts
variable {ε : Type} {m : MinicborScript ε}

/-- A native script has no `KeepRaw` in it. -/
def scriptShape (hm : m.Lawful) : Shape ε NativeScript where
  read _ :=
    { run := fun bs => Reader.next (NativeScript.decode hm () bs) fun script rest => (.ok (.mk script.1 []), rest)
      forward := fun bs => by
        rw [NativeScript.decode, TreeDecode.decodeTree_eq_decodeRec _ _ _ _ 0]
        have hforward := (TreeDecode.decodeRec (NativeScript.node hm) m.toMinicbor (2 * bs.length + 1) ()).forward bs
        rcases hrun : (TreeDecode.decodeRec (NativeScript.node hm) m.toMinicbor (2 * bs.length + 1)
          ()).run bs with ⟨_ | r, rest⟩
          <;> rwa [hrun] at hforward }
  write script _ := script.encode
  read_fields {field bs rest t} h := by
    obtain ⟨r, mid, -, h⟩ := Reader.next_eq_ok.1 h
    cases h
    exact fun _ hk => nomatch hk
  read_consumes {field bs rest t} h := by
    obtain ⟨r, mid, hrun, h⟩ := Reader.next_eq_ok.1 h
    cases h
    rw [NativeScript.decode, TreeDecode.decodeTree_eq_decodeRec _ _ _ _ 0] at hrun
    exact TreeDecode.decodeRec_consumes hrun
  write_ne script _ := by
    have hheader : script.writeHeader ≠ [] := by cases script <;> exact List.cons_ne_nil _ _
    rw [NativeScript.encode_eq, List.append_nil]
    exact List.append_ne_nil_of_left_ne_nil hheader _

end Scripts

open NativeScript in
/-- A script decoded from its bytes, and not changed. -/
theorem decoded_script_coherent :
    Coherent (scriptShape MinicborScript.reference_lawful) .alonzoNativeScript
      ⟨[0x82, 0x04, 0x0a], .mk (invalidBefore 10) []⟩
      (.mk (some [0x82, 0x04, 0x0a]) (invalidBefore 10) []) := by
  have hscript : NativeScript.decode MinicborScript.reference_lawful () [0x82, 0x04, 0x0a] =
      (.ok (invalidBefore 10, ()), []) :=
    decode_encoded MinicborScript.reference_lawful (x := invalidBefore 10)
      (.node (by decide) fun _ hc => nomatch hc) () []
  have hholds : Holds (scriptShape MinicborScript.reference_lawful) ⟨[0x82, 0x04, 0x0a], .mk (invalidBefore 10) []⟩
      (.mk (some [0x82, 0x04, 0x0a]) (invalidBefore 10) []) := by
    have hcode : ((scriptShape MinicborScript.reference_lawful).decode 1).run [0x82, 0x04, 0x0a] =
        (.ok ⟨[0x82, 0x04, 0x0a], .mk (invalidBefore 10) []⟩, []) :=
      KeepRaw.decode_eq_ok.2 ⟨Reader.next_eq_ok.2 ⟨_, _, hscript, rfl⟩, rfl⟩
    exact .decode hcode rfl (.mk fun _ hf => nomatch hf)
  exact (coherent_iff hholds _).2 (.inr (Option.some_ne_none _))

open NativeScript in
/-- The same script built here: it is written as its three bytes, and hashed as none. -/
theorem built_script_incoherent : ∃ k a, Holds (scriptShape MinicborScript.reference_lawful) k a ∧
    ¬ Coherent (scriptShape MinicborScript.reference_lawful) .alonzoNativeScript k a := by
  refine ⟨.ofInner (.mk (invalidBefore 10) []), .mk none (invalidBefore 10) [],
    .build _ [] (fun _ hp => nomatch hp), ?_⟩
  intro hcoherent
  have hsame := hcoherent.hashes fun _ bytes => bytes
  cases hsame

end Pallas.Keep
