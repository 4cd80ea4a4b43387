import Pallas.Codec.Minicbor

/-!
# Text strings of the decoder (`decode_text_def_or_indef` in `pallas-codec/src/utils.rs`)

Metadata are the only trees with text in them. `MinicborText` adds the two methods of `minicbor::Decoder` that read
text to `Minicbor`, with the laws they are documented to meet: the bytes of a text string, and of each chunk of one of
indefinite length, are those of a string in UTF-8.
-/

namespace Pallas

/-- The bytes of a string. -/
def utf8 (s : String) : Bytes := s.toUTF8.data.toList

/-- `str::from_utf8`. -/
def ofUtf8 (bs : Bytes) : Option String := String.fromUTF8? ⟨bs.toArray⟩

theorem ofUtf8_utf8 (s : String) : ofUtf8 (utf8 s) = some s := by
  have hvalid : (⟨(utf8 s).toArray⟩ : ByteArray).IsValidUTF8 := by simpa [utf8] using s.isValidUTF8
  rw [ofUtf8, String.fromUTF8?, dif_pos hvalid]
  simp [utf8, String.fromUTF8]

theorem ofUtf8_eq_some {bs : Bytes} {s : String} : ofUtf8 bs = some s ↔ bs = utf8 s := by
  constructor
  · intro h
    unfold ofUtf8 String.fromUTF8? at h
    split at h
    · cases h
      simp [utf8, String.fromUTF8]
    · cases h
  · rintro rfl
    exact ofUtf8_utf8 s

theorem utf8_append (s t : String) : utf8 (s ++ t) = utf8 s ++ utf8 t := by
  simp [utf8]

theorem utf8_join (cs : List String) : utf8 (String.join cs) = (cs.map utf8).flatten := by
  have hpush : ∀ s : String, utf8 (cs.foldl (fun r c => r ++ c) s) = utf8 s ++ (cs.map utf8).flatten := by
    induction cs with
    | nil => simp
    | cons c cs ih =>
      intro s
      rw [List.foldl_cons, ih, utf8_append, List.map_cons, List.flatten_cons, List.append_assoc]
  exact (hpush "").trans (List.nil_append _)

/-- A string, as `Encoder::str` writes it. -/
def encodeText (s : String) : Bytes := Cbor.head 3 (utf8 s).length ++ utf8 s

/-- The methods of `minicbor::Decoder` that read text, beside those of `Minicbor`. -/
structure MinicborText (ε : Type) extends Minicbor ε where
  str : Reader ε String
  /-- The chunks that `str_iter` gives, up to the end of the string. -/
  strIter : Reader ε (List String)

open Cbor Cbor.Decoder

/-- What `minicbor` documents of them. -/
structure MinicborText.Lawful {ε : Type} (m : MinicborText ε) : Prop extends m.toMinicbor.Lawful where
  str : ∀ bs s rest, m.str.run bs = (.ok s, rest) ↔
    ∃ n mid, header 3 bs = some (some n, mid) ∧ take n mid = some (utf8 s, rest)
  strIter : ∀ bs cs mid rest, header 3 bs = some (none, mid) →
    (m.strIter.run bs = (.ok cs, rest) ↔ Chunks 3 mid (cs.map utf8) rest)
  datatype_string : ∀ bs n rest, header 3 bs = some (some n, rest) → m.datatype bs = .ok .string
  datatype_stringIndef : ∀ bs, m.datatype bs = .ok .stringIndef ↔ ∃ rest, header 3 bs = some (none, rest)

section Source
variable {ε : Type} (m : MinicborText ε)

def decodeTextDefOrIndef : Reader ε String := do
  if (← m.peekType) = .stringIndef then
    let chunks ← m.strIter
    pure (String.join chunks)
  else m.str

end Source

/-- A text string in either form. -/
inductive TextString (bs : Bytes) : (s : String) → (rest : Bytes) → Prop where
  | definite {n : ℕ} {mid rest : Bytes} {s : String} (hhead : header 3 bs = some (some n, mid))
      (htake : take n mid = some (utf8 s, rest)) : TextString bs s rest
  | chunked {mid rest : Bytes} {cs : List String} (hhead : header 3 bs = some (none, mid))
      (h : Chunks 3 mid (cs.map utf8) rest) : TextString bs (String.join cs) rest

namespace TextString
variable {bs rest : Bytes} {s : String}

theorem reads_item (h : TextString bs s rest) : Reads .item bs rest := by
  cases h with
  | definite hhead htake => exact .of_head hhead (by omega) rfl (.bytes htake)
  | chunked hhead h => exact .of_head hhead (by omega) rfl h.reads

theorem length_lt (h : TextString bs s rest) : rest.length < bs.length := h.reads_item.length_lt

theorem length_utf8 (h : TextString bs s rest) : (utf8 s).length ≤ bs.length := by
  cases h with
  | definite hhead htake =>
    have hlt := header_length hhead
    have heq := take_length htake
    omega
  | chunked hhead h =>
    have hlt := header_length hhead
    have hle := h.length_flatten
    rw [utf8_join]
    omega

theorem of_encodeText (rest : Bytes) (hs : (utf8 s).length < 2 ^ 64) : TextString (encodeText s ++ rest) s rest := by
  rw [encodeText, List.append_assoc]
  exact .definite (header_head (by omega) hs) (take_append _ _)

end TextString

theorem run_decodeTextDefOrIndef {ε : Type} {m : MinicborText ε} (hm : m.Lawful) {bs rest : Bytes} {s : String} :
    (decodeTextDefOrIndef m).run bs = (.ok s, rest) ↔ TextString bs s rest := by
  rw [decodeTextDefOrIndef, Reader.bind_eq_ok]
  constructor
  · rintro ⟨datatype, mid, htype, h⟩
    obtain ⟨htype, rfl⟩ := Minicbor.run_peekType_eq_ok.1 htype
    split at h
    · next hindef =>
      subst hindef
      obtain ⟨mid, hhead⟩ := (hm.datatype_stringIndef _).1 htype
      obtain ⟨chunks, rest', hchunks, h⟩ := Reader.bind_eq_ok.1 h
      cases h
      exact .chunked hhead ((hm.strIter _ _ _ _ hhead).1 hchunks)
    · obtain ⟨n, mid, hhead, htake⟩ := (hm.str _ _ _).1 h
      exact .definite hhead htake
  · intro h
    cases h with
    | definite hhead htake =>
      have htype := hm.datatype_string _ _ _ hhead
      refine ⟨.string, bs, Minicbor.run_peekType_eq_ok.2 ⟨htype, rfl⟩, ?_⟩
      rw [if_neg (by simp)]
      exact (hm.str _ _ _).2 ⟨_, _, hhead, htake⟩
    | chunked hhead hchunks =>
      have htype := (hm.datatype_stringIndef bs).2 ⟨_, hhead⟩
      refine ⟨.stringIndef, bs, Minicbor.run_peekType_eq_ok.2 ⟨htype, rfl⟩, ?_⟩
      rw [if_pos rfl, Reader.bind_eq_ok]
      exact ⟨_, _, (hm.strIter _ _ _ _ hhead).2 hchunks, rfl⟩

/-! ### Text by the standard -/

namespace MinicborText
open Minicbor

/-- A text string of definite length. -/
def definiteText : Cbor.Decoder String := fun bs => match header 3 bs with
  | some (some n, mid) => match take n mid with
    | some (s, rest) => (ofUtf8 s).map fun t => (t, rest)
    | none => none
  | _ => none

/-- The chunks up to the break. -/
def textList : (fuel : ℕ) → Cbor.Decoder (List String)
  | 0, _ => none
  | fuel + 1, bs =>
    if bs.head? = some 0xff then some ([], bs.tail)
    else match definiteText bs with
      | some (s, mid) => (textList fuel mid).map fun r => (s :: r.1, r.2)
      | none => none

/-- The chunks of a text string of indefinite length. -/
def textChunks : Cbor.Decoder (List String) := fun bs => match header 3 bs with
  | some (none, mid) => textList (mid.length + 1) mid
  | _ => none

section Steps
variable {bs rest : Bytes}

theorem definiteText_eq_some {s : String} : definiteText bs = some (s, rest) ↔
    ∃ n mid, header 3 bs = some (some n, mid) ∧ take n mid = some (utf8 s, rest) := by
  constructor
  · intro h
    unfold definiteText at h
    split at h
    · next n mid hhead =>
      split at h
      · next t rest' htake =>
        obtain ⟨t', ht, heq⟩ := Option.map_eq_some_iff.1 h
        cases heq
        rw [ofUtf8_eq_some.1 ht] at htake
        exact ⟨n, mid, hhead, htake⟩
      · cases h
    · cases h
  · rintro ⟨n, mid, hhead, htake⟩
    simp only [definiteText, hhead, htake, ofUtf8_utf8, Option.map_some]

theorem definiteText_length {s : String} (h : definiteText bs = some (s, rest)) : rest.length < bs.length := by
  obtain ⟨n, mid, hhead, htake⟩ := definiteText_eq_some.1 h
  have hlt := header_length hhead
  have heq := take_length htake
  omega

theorem textList_eq_some {fuel : ℕ} {cs : List String} (hfuel : bs.length < fuel) :
    textList fuel bs = some (cs, rest) ↔ Chunks 3 bs (cs.map utf8) rest := by
  induction fuel generalizing bs cs rest with
  | zero => omega
  | succ fuel ih =>
    unfold textList
    split
    · next hbreak =>
      obtain ⟨tail, rfl⟩ := List.head?_eq_some_iff.1 hbreak
      simp only [List.tail_cons, Option.some.injEq, Prod.mk.injEq]
      constructor
      · rintro ⟨rfl, rfl⟩
        exact .stop
      · intro h
        generalize hcs : cs.map utf8 = ss at h
        cases h with
        | stop => exact ⟨(List.map_eq_nil_iff.1 hcs).symm, rfl⟩
        | chunk hhead _ _ => exact absurd hhead header_break
    · next hbreak =>
      cases hd : definiteText bs with
      | none =>
        simp only [reduceCtorEq, false_iff]
        intro h
        generalize hcs : cs.map utf8 = ss at h
        cases h with
        | stop => simp at hbreak
        | chunk hhead htake _ =>
          obtain ⟨s, cs', rfl, rfl, rfl⟩ := List.map_eq_cons_iff.1 hcs
          rw [definiteText_eq_some.2 ⟨_, _, hhead, htake⟩] at hd
          cases hd
      | some r =>
        obtain ⟨s, mid⟩ := r
        have hlt := definiteText_length hd
        obtain ⟨n, start, hhead, htake⟩ := definiteText_eq_some.1 hd
        simp only [Option.map_eq_some_iff, Prod.exists, Prod.mk.injEq]
        constructor
        · rintro ⟨cs', rest', hcs, rfl, rfl⟩
          exact .chunk hhead htake ((ih (by omega)).1 hcs)
        · intro h
          generalize hcs : cs.map utf8 = ss at h
          cases h with
          | stop => simp at hbreak
          | chunk hhead' htake' h =>
            obtain ⟨s', cs', rfl, rfl, rfl⟩ := List.map_eq_cons_iff.1 hcs
            have hd' := definiteText_eq_some.2 ⟨_, _, hhead', htake'⟩
            rw [hd] at hd'
            cases hd'
            exact ⟨_, _, (ih (by omega)).2 h, rfl, rfl⟩

end Steps

theorem forward_definiteText : Forward definiteText := by
  intro bs s rest h
  obtain ⟨n, mid, hhead, htake⟩ := definiteText_eq_some.1 h
  exact (take_suffix htake).trans (Forward.header 3 _ _ _ hhead)

theorem forward_textList (fuel : ℕ) : Forward (textList fuel) := by
  induction fuel with
  | zero => exact fun _ _ _ h => nomatch h
  | succ fuel ih =>
    intro bs cs rest h
    unfold textList at h
    split at h
    · cases h
      exact List.tail_suffix bs
    split at h
    · next s mid hs =>
      obtain ⟨⟨cs', rest'⟩, hcs, heq⟩ := Option.map_eq_some_iff.1 h
      cases heq
      exact (ih _ _ _ hcs).trans (forward_definiteText _ _ _ hs)
    · cases h

theorem forward_textChunks : Forward textChunks := by
  intro bs cs rest h
  unfold textChunks at h
  split at h
  · next mid hmid => exact (forward_textList _ _ _ _ h).trans (Forward.header 3 _ _ _ hmid)
  · cases h

/-- The decoder by the standard, with text. -/
def reference : MinicborText String where
  toMinicbor := Minicbor.reference
  str := ofDecoder definiteText forward_definiteText
  strIter := ofDecoder textChunks forward_textChunks

theorem typeOfHead_stringIndef {b : UInt8} {wide : Bool} {info major : ℕ} (hmajor : major < 8)
    (h : typeOfHead b wide info major = .stringIndef) : major = 3 ∧ info = 31 := by
  match major with
  | 0 | 1 | 2 | 3 | 4 | 5 | 6 | 7 =>
    revert h
    simp only [typeOfHead, intType, sizedType, simpleType]
    repeat' split
    all_goals simp_all
  | n + 8 => omega

theorem reference_lawful : reference.Lawful where
  toLawful := Minicbor.reference_lawful
  str _ _ _ := (run_ofDecoder definiteText forward_definiteText).trans definiteText_eq_some
  strIter bs cs mid rest h := by
    have hchunks : textChunks bs = textList (mid.length + 1) mid := by
      rw [textChunks, h]
    have hrun : (ofDecoder textChunks forward_textChunks).run bs = (.ok cs, rest) ↔ textChunks bs = some (cs, rest) :=
      run_ofDecoder textChunks forward_textChunks
    rw [hchunks, textList_eq_some (Nat.lt_succ_self _)] at hrun
    exact hrun
  datatype_string _ _ _ h := typeOf_sized (fun _ _ _ => rfl) h
  datatype_stringIndef bs := by
    constructor
    · intro h
      obtain ⟨b, tail, wide, rfl, ht⟩ := typeOf_eq_ok h
      have hb : b.toNat < 256 := b.toNat_lt
      have heq := typeOfHead_stringIndef (by omega) ht
      exact ⟨tail, header_eq_indef.2 ⟨b, by omega, rfl⟩⟩
    · rintro ⟨rest, h⟩
      exact typeOf_sized_indef (fun _ _ _ => rfl) h

end MinicborText
end Pallas
