import Pallas.Codec.Derived
import Pallas.Codec.Containers
import Pallas.Plutus.Order
import Pallas.TxBuilder.Conway
import Pallas.Validate.Conway
import Pallas.Validate.ExUnits

/-!
# What the script integrity hash commits to (`script_data.rs` in `pallas-primitives`, `phase1/conway.rs`)

A witness set keeps the bytes of its redeemers and of its datums. The hash takes the bytes of the datums, but writes the redeemers
out again, and leaves the language views away where there is no redeemer. So the hash is that of the original bytes for redeemers in
the form that the encoder gives them (`integrity_iff`).
-/

namespace Pallas
open Std Cbor Cbor.Decoder

/-! ### Plutus data whose bytes are given -/

theorem length_encodeChunks {fuel : ℕ} {bs : Bytes} (hfuel : bs.length ≤ fuel) :
    bs.length ≤ (encodeChunks fuel bs).length := by
  induction fuel generalizing bs with
  | zero => omega
  | succ fuel ih =>
    cases bs with
    | nil => exact Nat.zero_le _
    | cons b tail =>
      have hshort : ((b :: tail).drop 64).length ≤ fuel := by
        rw [List.length_drop]
        omega
      have hdrop := ih hshort
      have hstep : encodeChunks (fuel + 1) (b :: tail) =
          Cbor.bytes ((b :: tail).take 64) ++ encodeChunks fuel ((b :: tail).drop 64) := rfl
      rw [hstep, List.length_append, Cbor.bytes, List.length_append, List.length_take]
      rw [List.length_drop] at hdrop
      omega

theorem length_encodeBoundedBytes (bs : Bytes) : bs.length ≤ (encodeBoundedBytes bs).length := by
  unfold encodeBoundedBytes
  split
  · rw [Cbor.bytes, List.length_append]
    omega
  · have hchunks := length_encodeChunks (Nat.le_refl bs.length)
    rw [List.length_append, List.length_append]
    omega

namespace PlutusData
open FiniteTree (Everywhere)

/-- A value that is written in so many bytes has no more children, and no longer strings. -/
theorem fits_of_length {x : PlutusData} (hrange : Everywhere InRangeNode x)
    (hlen : (encode x).length < 2 ^ 63) : Fits x := by
  induction x using induction with
  | h x ih =>
    have hparts := encode_eq x
    have hlong := congrArg List.length hparts
    rw [List.length_append, List.length_append] at hlong
    have hcount := length_le_flatMap fun c (_ : c ∈ children x) => encode_ne_nil c
    have hchild : ∀ c ∈ children x, (encode c).length < 2 ^ 63 := fun c hc => lt_of_mem_flatMap hc (by omega)
    refine .node ?_ fun c hc => ih c hc (hrange.child hc) (hchild c hc)
    cases x with
    | constr tag anyConstructor definite fields =>
      show fields.length < 2 ^ 63
      have hfields : (children (constr tag anyConstructor definite fields)).length = fields.length := rfl
      omega
    | map definite entries =>
      show entries.length < 2 ^ 63
      have hentries : (children (map definite entries)).length = entries.length * 2 := length_alternate entries
      omega
    | array definite items =>
      show items.length < 2 ^ 63
      have hitems : (children (array definite items)).length = items.length := rfl
      omega
    | bigInt z =>
      have hz := hrange.here
      cases z with
      | int z => exact hz
      | bigUInt bs =>
        show bs.length < 2 ^ 63
        have hbytes := length_encodeBoundedBytes bs
        have henter : (encodeVisit (.enter (bigInt (.bigUInt bs)))).length =
            (Cbor.tag 2).length + (encodeBoundedBytes bs).length := List.length_append
        omega
      | bigNInt bs =>
        show bs.length < 2 ^ 63
        have hbytes := length_encodeBoundedBytes bs
        have henter : (encodeVisit (.enter (bigInt (.bigNInt bs)))).length =
            (Cbor.tag 3).length + (encodeBoundedBytes bs).length := List.length_append
        omega
    | boundedBytes bs =>
      show bs.length < 2 ^ 63
      have hbytes := length_encodeBoundedBytes bs
      have henter : encodeVisit (.enter (boundedBytes bs)) = encodeBoundedBytes bs := rfl
      rw [henter] at hlong
      omega

theorem encode_begins {x : PlutusData} (hfits : Fits x) (hok : ConstrOk x) : Pallas.Begins (encode x) := by
  rcases henc : encode x with _ | ⟨b, tail⟩
  · exact absurd henc (encode_ne_nil x)
  refine ⟨b, tail, rfl, ?_⟩
  rintro rfl
  have hbegins := begins_encode ((children x).flatMap encode ++ encodeVisit (.exit x)) hfits.here hok.here
  rw [← List.append_assoc, ← encode_eq, henc] at hbegins
  obtain ⟨t, htype, ht⟩ := hbegins.datatype Minicbor.reference_lawful
  cases htype
  exact ht rfl

section Reader
variable {ε : Type} {m : Minicbor ε} (hm : m.Lawful)

/-- `Decode for PlutusData` among other decoders. It does not panic, and has fuel enough. -/
def reader : Reader ε PlutusData where
  run bs := match decode hm () bs with
    | (.ok (x, _), rest) => (.ok x, rest)
    | (.error (.error e), rest) => (.error e, rest)
    | (.error _, rest) => (.error (m.message "unreachable"), rest)
  forward bs := by
    have hforward := (TreeDecode.decodeRec (node hm) m (2 * bs.length + 1) ()).forward bs
    rw [decode, TreeDecode.decodeTree_eq_decodeRec _ _ _ _ 0]
    rcases hrun : (TreeDecode.decodeRec (node hm) m (2 * bs.length + 1 + 0) ()).run bs with ⟨(_ | _ | _) | _, rest⟩ <;>
      rwa [hrun] at hforward

theorem run_reader {bs rest : Bytes} {x : PlutusData} :
    (reader hm).run bs = (.ok x, rest) ↔ decode hm () bs = (.ok (x, ()), rest) := by
  show (match decode hm () bs with
    | (.ok (x, _), rest) => ((.ok x, rest) : Except ε PlutusData × Bytes)
    | (.error (.error e), rest) => (.error e, rest)
    | (.error _, rest) => (.error (m.message "unreachable"), rest)) = _ ↔ _
  rcases decode hm () bs with ⟨(_ | _ | _) | ⟨y, _⟩, rest'⟩ <;> simp

theorem reader_takes {x : PlutusData} (hfits : Fits x) (hok : ConstrOk x) : (reader hm).Takes (encode x) x := by
  intro rest
  have hdecode := (decode_encode hm hfits hok () rest).2
  rw [encodeTree_eq] at hdecode
  exact (run_reader hm).2 hdecode

theorem reader_sound : Derived.Gives Sound (reader hm) := fun _ _ _ h => decode_sound ((run_reader hm).1 h)

end Reader
end PlutusData

namespace Conway

/-! ### The codec of the redeemers -/

/-- The variant of an index. -/
def RedeemerTag.ofIndex (n : ℤ) : Option RedeemerTag :=
  if n = 0 then some spend
  else if n = 1 then some mint
  else if n = 2 then some cert
  else if n = 3 then some reward
  else if n = 4 then some vote
  else if n = 5 then some propose
  else none

/-- A `BTreeMap` from the entries of a map: of those with one key the last stays. -/
def ofEntries (entries : List (RedeemersKey × RedeemersValue)) : FinMap RedeemersKey RedeemersValue :=
  entries.foldl (fun rs e => rs.insert e.1 e.2) ∅

section Decode
variable {ε : Type} (m : MinicborDerive ε) (hm : m.toMinicborValues.Lawful)

def decodeRedeemerTag : Reader ε RedeemerTag := Derived.indexOnly m RedeemerTag.ofIndex

def decodeExUnits : Reader ε ExUnits := Derived.struct₂ m m.u64 m.u64 fun mem steps => ⟨mem, steps⟩

def decodePlutusData : Reader ε PlutusData := PlutusData.reader hm.toLawful

def decodeRedeemer : Reader ε Redeemer :=
  Derived.struct₄ m (decodeRedeemerTag m) m.u32 (decodePlutusData m hm) (decodeExUnits m) Redeemer.mk

def decodeRedeemersKey : Reader ε RedeemersKey := Derived.struct₂ m (decodeRedeemerTag m) m.u32 RedeemersKey.mk

def decodeRedeemersValue : Reader ε RedeemersValue :=
  Derived.struct₂ m (decodePlutusData m hm) (decodeExUnits m) RedeemersValue.mk

/-- `Decode for Redeemers`, by the type of the item. -/
def decodeRedeemers : Reader ε Redeemers := do
  let datatype ← m.peekType
  if datatype = .array ∨ datatype = .arrayIndef then
    let rs ← m.arrayIter (decodeRedeemer m hm)
    pure (.list rs)
  else if datatype = .map ∨ datatype = .mapIndef then
    let entries ← m.mapIter (decodeRedeemersKey m) (decodeRedeemersValue m hm)
    pure (.map (ofEntries entries))
  else Reader.throw (m.message "Unknown cbor data type for this macro-defined enum.")

end Decode

/-- The data of all redeemers. -/
def Redeemers.data : Redeemers → List PlutusData
  | list rs => rs.map Redeemer.data
  | map rs => rs.toList.map fun e => e.2.data

/-- Values that the Rust types hold, with well-formed constructors. -/
def Redeemers.Held (self : Redeemers) : Prop := ∀ x ∈ self.data, x.Fits ∧ x.ConstrOk

/-- The form that the encoder gives to redeemers: shortest integers and lengths, a list of known length or a map of known length
with its keys in order, and the data as they are written. -/
def InEncoderForm (bytes : Bytes) : Prop := ∃ rs : Redeemers, rs.Held ∧ bytes = encodeRedeemers rs

section RoundTrip
variable {ε : Type} {m : MinicborDerive ε} (hm : m.toMinicborValues.Lawful)
include hm

theorem tagIndex_inverts (tag : RedeemerTag) : (decodeRedeemerTag m).Inverts (Cbor.uint tag.index) tag :=
  (Derived.indexOnly_takes hm (by cases tag <;> decide) (by cases tag <;> rfl)).inverts

theorem exUnits_inverts (u : ExUnits) : (decodeExUnits m).Inverts (encodeExUnits u) u := by
  rw [encodeExUnits, List.append_assoc]
  exact Derived.struct₂_inverts hm (hm.u64_takes u.mem).inverts (hm.u64_takes u.steps).inverts _

theorem plutusData_inverts {x : PlutusData} (hx : x.Fits ∧ x.ConstrOk) : (decodePlutusData m hm).Inverts x.encode x :=
  (PlutusData.reader_takes hm.toLawful hx.1 hx.2).inverts

/-- One redeemer of a list, as it is written. -/
def encodeRedeemer (r : Redeemer) : Bytes :=
  Cbor.array 4 ++ Cbor.uint r.tag.index ++ Cbor.uint r.index.toNat ++ r.data.encode ++ encodeExUnits r.exUnits

/-- One entry of a map, as it is written. -/
def encodeRedeemerEntry (e : RedeemersKey × RedeemersValue) : Bytes :=
  Cbor.array 2 ++ Cbor.uint e.1.tag.index ++ Cbor.uint e.1.index.toNat ++
    Cbor.array 2 ++ e.2.data.encode ++ encodeExUnits e.2.exUnits

theorem redeemer_inverts {r : Redeemer} (hx : r.data.Fits ∧ r.data.ConstrOk) :
    (decodeRedeemer m hm).Inverts (encodeRedeemer r) r := by
  simp only [encodeRedeemer, List.append_assoc]
  exact Derived.struct₄_inverts hm (tagIndex_inverts hm r.tag) (hm.u32_takes r.index).inverts (plutusData_inverts hm hx)
    (exUnits_inverts hm r.exUnits) Redeemer.mk

theorem redeemerEntry_inverts {e : RedeemersKey × RedeemersValue} (hx : e.2.data.Fits ∧ e.2.data.ConstrOk) :
    (entry (decodeRedeemersKey m) (decodeRedeemersValue m hm)).Inverts (encodeRedeemerEntry e) e := by
  have hkey : (decodeRedeemersKey m).Inverts
      (Cbor.array 2 ++ (Cbor.uint e.1.tag.index ++ Cbor.uint e.1.index.toNat)) e.1 :=
    Derived.struct₂_inverts hm (tagIndex_inverts hm e.1.tag) (hm.u32_takes e.1.index).inverts RedeemersKey.mk
  have hvalue : (decodeRedeemersValue m hm).Inverts
      (Cbor.array 2 ++ (e.2.data.encode ++ encodeExUnits e.2.exUnits)) e.2 :=
    Derived.struct₂_inverts hm (plutusData_inverts hm hx) (exUnits_inverts hm e.2.exUnits) RedeemersValue.mk
  have hentry : (entry (decodeRedeemersKey m) (decodeRedeemersValue m hm)).Inverts
      (Cbor.array 2 ++ (Cbor.uint e.1.tag.index ++ Cbor.uint e.1.index.toNat) ++
        (Cbor.array 2 ++ (e.2.data.encode ++ encodeExUnits e.2.exUnits))) e :=
          Reader.Inverts.bind hkey (hvalue.last rfl)
  simpa only [encodeRedeemerEntry, List.append_assoc] using hentry

omit hm in
theorem ofEntries_toList (rs : FinMap RedeemersKey RedeemersValue) : ofEntries rs.toList = rs :=
  FinMap.foldl_insert_toList rs

theorem redeemers_inverts {rs : Redeemers} (h : rs.Held) : (decodeRedeemers m hm).Inverts (encodeRedeemers rs) rs := by
  intro hlt rest
  cases rs with
  | list rs =>
    have hheld : ∀ r ∈ rs, r.data.Fits ∧ r.data.ConstrOk := fun r hr => h _ (List.mem_map_of_mem hr)
    have hfirst : ∀ r ∈ rs, Begins (encodeRedeemer r) := fun r _ => by
      simp only [encodeRedeemer, List.append_assoc]
      exact (begins_head (by omega) (by omega)).append _
    have hitems := hm.arrayIter_inverts (fun r hr => redeemer_inverts hm (hheld r hr)) hfirst hlt rest
    obtain ⟨len, mid, hhead, -⟩ := (hm.arrayIter _ _ _ _).1 hitems
    have htype : ∃ t, (t = .array ∨ t = .arrayIndef) ∧ m.datatype (encodeRedeemers (.list rs) ++ rest) = .ok t := by
      cases len with
      | none => exact ⟨_, .inr rfl, hm.datatype_arrayIndef _ _ hhead⟩
      | some n => exact ⟨_, .inl rfl, hm.datatype_array _ _ _ hhead⟩
    obtain ⟨t, ht, htype⟩ := htype
    refine Reader.bind_eq_ok.2 ⟨t, _, Minicbor.run_peekType_eq_ok.2 ⟨htype, rfl⟩, ?_⟩
    rw [if_pos ht]
    exact Reader.bind_eq_ok.2 ⟨rs, rest, hitems, rfl⟩
  | map rs =>
    have hheld : ∀ e ∈ rs.toList, e.2.data.Fits ∧ e.2.data.ConstrOk := fun e he => h _ (List.mem_map.2 ⟨e, he, rfl⟩)
    have hfirst : ∀ e ∈ rs.toList, Begins (encodeRedeemerEntry e) := fun e _ => by
      simp only [encodeRedeemerEntry, List.append_assoc]
      exact (begins_head (by omega) (by omega)).append _
    have hbytes : encodeRedeemers (.map rs) = Cbor.map rs.toList.length ++ rs.toList.flatMap encodeRedeemerEntry := by
      rw [encodeRedeemers, ExtTreeMap.length_toList]
      rfl
    rw [hbytes] at hlt ⊢
    have hitems := hm.mapIter_inverts (fun e he => redeemerEntry_inverts hm (hheld e he)) hfirst hlt rest
    obtain ⟨len, mid, hhead, -⟩ := (hm.mapIter _ _ _ _ _).1 hitems
    have htype : ∃ t, (t = .map ∨ t = .mapIndef) ∧
        m.datatype (Cbor.map rs.toList.length ++ rs.toList.flatMap encodeRedeemerEntry ++ rest) = .ok t := by
      cases len with
      | none => exact ⟨_, .inr rfl, hm.datatype_mapIndef _ _ hhead⟩
      | some n => exact ⟨_, .inl rfl, hm.datatype_map _ _ _ hhead⟩
    obtain ⟨t, ht, htype⟩ := htype
    refine Reader.bind_eq_ok.2 ⟨t, _, Minicbor.run_peekType_eq_ok.2 ⟨htype, rfl⟩, ?_⟩
    rw [if_neg (by rcases ht with rfl | rfl <;> simp), if_pos ht]
    refine Reader.bind_eq_ok.2 ⟨rs.toList, rest, hitems, ?_⟩
    rw [ofEntries_toList]
    rfl

/-! ### What is decoded -/

omit hm in
theorem mem_ofEntries {entries : List (RedeemersKey × RedeemersValue)} {e : RedeemersKey × RedeemersValue}
    (he : e ∈ (ofEntries entries).toList) : e ∈ entries := by
  obtain hmem | hempty := FinMap.getElem?_foldl_insert (FinMap.mem_toList.1 he)
  · exact hmem
  · simp at hempty

theorem decodeRedeemers_sound :
    Derived.Gives (fun rs => ∀ x ∈ rs.data, PlutusData.Sound x) (decodeRedeemers m hm) := by
  have hdata := PlutusData.reader_sound hm.toLawful
  have hredeemer : Derived.Gives (fun r => PlutusData.Sound r.data) (decodeRedeemer m hm) :=
    Derived.struct₄_gives (.trivial _) (.trivial _) hdata (.trivial _) fun _ _ _ _ _ _ hx _ => hx
  have hvalue : Derived.Gives (fun v => PlutusData.Sound v.data) (decodeRedeemersValue m hm) :=
    Derived.struct₂_gives hdata (.trivial _) fun _ _ hx _ => hx
  refine (Derived.Gives.trivial _).bind fun t _ => ?_
  split
  · refine (Derived.arrayIter_gives hm hredeemer).bind fun rs hrs => .pure fun x hx => ?_
    obtain ⟨r, hr, rfl⟩ := List.mem_map.1 hx
    exact hrs r hr
  split
  · refine (Derived.mapIter_gives hm hvalue).bind fun es hes => .pure fun x hx => ?_
    obtain ⟨e, he, rfl⟩ := List.mem_map.1 hx
    exact hes e (mem_ofEntries he)
  · exact fun _ _ _ h => nomatch h

omit hm in
theorem length_data {rs : Redeemers} {n : ℕ} (hlen : (encodeRedeemers rs).length < n) :
    ∀ x ∈ rs.data, x.encode.length < n := by
  intro x hx
  cases rs with
  | list rs =>
    obtain ⟨r, hr, rfl⟩ := List.mem_map.1 hx
    have hwhole : (rs.flatMap encodeRedeemer).length < n := Nat.lt_of_le_of_lt (List.suffix_append _ _).length_le hlen
    have hone := lt_of_mem_flatMap hr hwhole
    simp only [encodeRedeemer, List.length_append] at hone
    omega
  | map rs =>
    obtain ⟨e, he, rfl⟩ := List.mem_map.1 hx
    have hwhole : (rs.toList.flatMap encodeRedeemerEntry).length < n :=
      Nat.lt_of_le_of_lt (List.suffix_append _ _).length_le hlen
    have hone := lt_of_mem_flatMap he hwhole
    simp only [encodeRedeemerEntry, List.length_append] at hone
    omega

theorem encodeRedeemers_iff {raw rest : Bytes} {rs : Redeemers} (hraw : raw.length < 2 ^ 63)
    (h : (decodeRedeemers m hm).run (raw ++ rest) = (.ok rs, rest)) : encodeRedeemers rs = raw ↔ InEncoderForm raw := by
  constructor
  · rintro rfl
    refine ⟨rs, fun x hx => ?_, rfl⟩
    have hsound := decodeRedeemers_sound hm _ _ _ h x hx
    exact ⟨PlutusData.fits_of_length (hsound.imp fun _ hx => hx.2) (length_data hraw x hx), hsound.imp fun _ hx => hx.1⟩
  · rintro ⟨rs', hheld, rfl⟩
    have hagain := redeemers_inverts hm hheld (by omega) rest
    obtain ⟨hsame, -⟩ := Prod.mk.inj (h.symm.trans hagain)
    rw [Except.ok.inj hsame]

end RoundTrip

/-! ### The commitment -/

/-- The bytes to commit to: the redeemers as they came, or an empty map, the datums as they came, and the language views. -/
def originalBytes (wits : WitnessSet) (views : Bytes) : Bytes :=
  wits.redeemer.elim [0xa0] KeepRaw.rawCbor ++ wits.plutusData.elim [] KeepRaw.rawCbor ++ views

/-- What a body has to commit to, if there is anything. -/
def commitment (c : Crypto) (wits : WitnessSet) (views : List (Language × CostModel)) : Option (Hash 32) :=
  if wits.redeemer = none ∧ wits.plutusData = none ∧ views = [] then none
  else some (c.blake2b256 (originalBytes wits (encodeLanguageViews views)))

/-- The hash that is built is that of the original bytes, whichever hash function it is. -/
def HashMeets (wits : WitnessSet) (views : Option TxBuilder.LanguageViews) : Prop :=
  ∀ (c : Crypto) sd, TxBuilder.ScriptData.buildFor wits views = some sd →
    sd.hash c = c.blake2b256 (originalBytes wits (views.elim [0xa0] TxBuilder.encodeLanguageViews))

/-- A transaction is accepted exactly if its body commits to what it carries, whatever hash it has and whichever hash function it
is. -/
def CheckMeets (mtx : Tx) (utxos : UTxOs) (pps : ConwayProtParams) : Prop :=
  ∀ (c : Crypto) (provided : Option (Hash 32)),
    checkScriptDataHash c { mtx.transactionBody.inner with scriptDataHash := provided } mtx utxos pps = .ok () ↔
      ∃ views, costModelForTx (txLanguages mtx utxos) pps = some views ∧
        provided = commitment c mtx.transactionWitnessSet.inner views

/-- The redeemers of the witness set were decoded from their bytes. -/
def Decoded {ε : Type} {m : MinicborDerive ε} (hm : m.toMinicborValues.Lawful) (wits : WitnessSet) : Prop :=
  ∀ r, wits.redeemer = some r → r.rawCbor.length < 2 ^ 63 ∧
    ∃ rest, (decodeRedeemers m hm).run (r.rawCbor ++ rest) = (.ok r.inner, rest)

/-- Redeemers are in the encoder's form, and language views do not come without any. -/
def HashHolds (wits : WitnessSet) (views : Option TxBuilder.LanguageViews) : Prop :=
  match wits.redeemer, wits.plutusData with
  | some r, _ => InEncoderForm r.rawCbor
  | none, some _ => views.elim True fun views => views.isEmpty
  | none, none => True

/-- Nothing is carried where there is no Plutus script, and where there is one with a cost model there are redeemers in the
encoder's form. -/
def CheckHolds (mtx : Tx) (utxos : UTxOs) (pps : ConwayProtParams) : Prop :=
  if txLanguages mtx utxos = [] then
    mtx.transactionWitnessSet.inner.redeemer = none ∧ mtx.transactionWitnessSet.inner.plutusData = none
  else (costModelForTx (txLanguages mtx utxos) pps).isSome →
    ∃ r, mtx.transactionWitnessSet.inner.redeemer = some r ∧ InEncoderForm r.rawCbor

section Commitment
variable {ε : Type} {m : MinicborDerive ε} {hm : m.toMinicborValues.Lawful}

theorem eq_of_hashes {x y : Bytes} (h : ∀ c : Crypto, c.blake2b256 x = c.blake2b256 y) : x = y := by
  by_contra hne
  have hhash := h ⟨fun _ => 0, fun bs => if bs = x then 1 else 0, id, fun _ _ _ => true⟩
  simp only [if_true, if_neg (Ne.symm hne)] at hhash
  exact absurd hhash (by decide)

theorem Decoded.encode_iff {wits : WitnessSet} (h : Decoded hm wits) {r : KeepRaw Redeemers}
    (hr : wits.redeemer = some r) :
    encodeRedeemers r.inner = r.rawCbor ↔ InEncoderForm r.rawCbor := by
  obtain ⟨hlen, rest, hrun⟩ := h r hr
  exact encodeRedeemers_iff hm hlen hrun

theorem map_eq_empty {n : ℕ} {bs : Bytes} (h : Cbor.map n ++ bs = [0xa0]) : n = 0 := by
  unfold Cbor.map head at h
  split_ifs at h with hn
  · have hval := congrArg UInt8.toNat (List.cons.inj h).1
    rw [toNat_first (by omega) (by omega), show (0xa0 : UInt8).toNat = 160 from rfl] at hval
    omega
  · exact absurd (List.cons.inj h).1 (by decide)
  · exact absurd (List.cons.inj h).1 (by decide)
  · exact absurd (List.cons.inj h).1 (by decide)
  · exact absurd (List.cons.inj h).1 (by decide)

theorem hash_iff {wits : WitnessSet} (hdecoded : Decoded hm wits) (views : Option TxBuilder.LanguageViews) :
    HashMeets wits views ↔ HashHolds wits views := by
  unfold HashMeets HashHolds TxBuilder.ScriptData.buildFor TxBuilder.ScriptData.hash TxBuilder.ScriptData.preimage originalBytes
  rcases hr : wits.redeemer with _ | r
  · rcases hd : wits.plutusData with _ | datums
    · simp
    · have hempty : (views.elim True fun views => views.isEmpty) ↔
          views.elim [0xa0] TxBuilder.encodeLanguageViews = [0xa0] := by
        cases views with
        | none => simp
        | some views =>
          show views.isEmpty = true ↔ TxBuilder.encodeLanguageViews views = [0xa0]
          constructor
          · intro h
            rw [ExtTreeMap.isEmpty_iff.1 h]
            rfl
          · intro h
            rw [ExtTreeMap.isEmpty_eq_size_beq_zero, map_eq_empty h]
            rfl
      rw [hempty]
      constructor
      · intro h
        have hbytes := eq_of_hashes fun c => h c _ rfl
        simpa using hbytes.symm
      · rintro h c sd ⟨⟩
        simp [h]
  · show _ ↔ InEncoderForm r.rawCbor
    rw [← hdecoded.encode_iff hr]
    constructor
    · intro h
      have hbytes := eq_of_hashes fun c => h c _ rfl
      cases views <;> simpa using hbytes
    · rintro h c sd ⟨⟩
      cases views <;> simp [h]

section Check
variable {mtx : Tx} {utxos : UTxOs} {pps : ConwayProtParams}

theorem check_none (c : Crypto) :
    checkScriptDataHash c { mtx.transactionBody.inner with scriptDataHash := none } mtx utxos pps = .ok () ↔
      txLanguages mtx utxos = [] := by
  show check _ (txLanguages mtx utxos).isEmpty = _ ↔ _
  rw [Outcome.ensure_eq_ok, List.isEmpty_iff]

theorem check_some (c : Crypto) (provided : Hash 32) :
    checkScriptDataHash c { mtx.transactionBody.inner with scriptDataHash := some provided } mtx utxos pps = .ok () ↔
      ∃ views, costModelForTx (txLanguages mtx utxos) pps = some views ∧
        scriptDataHash c mtx.transactionWitnessSet.inner views = some provided := by
  show (Outcome.ofOption _ (costModelForTx (txLanguages mtx utxos) pps) >>= fun views =>
    Outcome.ofOption _ (scriptDataHash c mtx.transactionWitnessSet.inner views) >>= fun expected =>
      check _ (provided == expected)) = _ ↔ _
  simp only [Outcome.bind_eq_ok, Outcome.ofOption_eq_ok, Outcome.ensure_eq_ok, beq_iff_eq]
  constructor
  · rintro ⟨views, hviews, expected, hexpected, rfl⟩
    exact ⟨views, hviews, hexpected⟩
  · rintro ⟨views, hviews, hexpected⟩
    exact ⟨views, hviews, provided, hexpected, rfl⟩

theorem length_costModelForTx {langs : List Language} {views : List (Language × CostModel)}
    (h : costModelForTx langs pps = some views) : views.length = langs.length := by
  unfold costModelForTx at h
  induction langs generalizing views with
  | nil =>
    cases h
    rfl
  | cons lang langs ih =>
    rw [List.mapM_cons] at h
    obtain ⟨view, -, h⟩ := Option.bind_eq_some_iff.1 h
    obtain ⟨views', hviews, h⟩ := Option.bind_eq_some_iff.1 h
    cases h
    rw [List.length_cons, List.length_cons, ih hviews]

theorem check_iff_of_none (hlangs : txLanguages mtx utxos = []) : CheckMeets mtx utxos pps ↔
    mtx.transactionWitnessSet.inner.redeemer = none ∧ mtx.transactionWitnessSet.inner.plutusData = none := by
  have hviews : costModelForTx (txLanguages mtx utxos) pps = some [] := by
    rw [hlangs]
    rfl
  constructor
  · intro h
    obtain ⟨views, -, hcommit⟩ := (h ⟨fun _ => 0, fun _ => 0, id, fun _ _ _ => true⟩ none).1 ((check_none _).2 hlangs)
    unfold commitment at hcommit
    split_ifs at hcommit with hempty
    exact ⟨hempty.1, hempty.2.1⟩
  · rintro ⟨hr, hd⟩ c provided
    have hcommit : commitment c mtx.transactionWitnessSet.inner [] = none := by
      rw [commitment, if_pos ⟨hr, hd, rfl⟩]
    cases provided with
    | none => exact iff_of_true ((check_none c).2 hlangs) ⟨[], hviews, hcommit.symm⟩
    | some provided =>
      refine iff_of_false (fun h => ?_) (fun h => ?_)
      · obtain ⟨views, -, hhash⟩ := (check_some c provided).1 h
        rw [scriptDataHash, hr, hd] at hhash
        cases hhash
      · obtain ⟨views, hviews', hsame⟩ := h
        cases hviews.symm.trans hviews'
        rw [hcommit] at hsame
        cases hsame

theorem commitment_views (c : Crypto) {wits : WitnessSet} {views : List (Language × CostModel)} (h : views ≠ []) :
    commitment c wits views = some (c.blake2b256 (originalBytes wits (encodeLanguageViews views))) := by
  rw [commitment, if_neg fun hempty => h hempty.2.2]

theorem check_iff_of_views (hlangs : txLanguages mtx utxos ≠ []) {views : List (Language × CostModel)}
    (hviews : costModelForTx (txLanguages mtx utxos) pps = some views) : CheckMeets mtx utxos pps ↔
      ∀ c, scriptDataHash c mtx.transactionWitnessSet.inner views =
        some (c.blake2b256 (originalBytes mtx.transactionWitnessSet.inner (encodeLanguageViews views))) := by
  have hne : views ≠ [] := by
    rintro rfl
    exact hlangs (List.length_eq_zero_iff.1 (length_costModelForTx hviews).symm)
  constructor
  · intro h c
    obtain ⟨views', hviews', hhash⟩ := (check_some c _).1 ((h c _).2 ⟨views, hviews, (commitment_views c hne).symm⟩)
    cases hviews.symm.trans hviews'
    exact hhash
  · intro h c provided
    simp only [hviews, Option.some.injEq, exists_eq_left', commitment_views c hne]
    cases provided with
    | none => exact iff_of_false (fun hnone => hlangs ((check_none c).1 hnone)) (by simp)
    | some provided =>
      rw [check_some, hviews]
      simp only [Option.some.injEq, exists_eq_left', h c]
      exact eq_comm

theorem check_iff (hdecoded : Decoded hm mtx.transactionWitnessSet.inner) :
    CheckMeets mtx utxos pps ↔ CheckHolds mtx utxos pps := by
  unfold CheckHolds
  split_ifs with hlangs
  · exact check_iff_of_none hlangs
  rcases hcosts : costModelForTx (txLanguages mtx utxos) pps with _ | views
  · -- nothing is accepted, and nothing can be committed to
    refine iff_of_true (fun c provided => ?_) (by simp)
    rw [hcosts]
    simp only [reduceCtorEq, false_and, exists_false, iff_false]
    cases provided with
    | none => exact fun h => hlangs ((check_none c).1 h)
    | some provided =>
      intro h
      obtain ⟨views, hviews, -⟩ := (check_some c provided).1 h
      cases hcosts.symm.trans hviews
  · rw [check_iff_of_views hlangs hcosts]
    simp only [Option.isSome_some, forall_const]
    have hlength := length_costModelForTx hcosts
    have hpos := List.length_pos_iff.2 hlangs
    unfold scriptDataHash originalBytes
    rcases hr : mtx.transactionWitnessSet.inner.redeemer with _ | r
    · refine iff_of_false (fun h => ?_) (by simp)
      rcases hd : mtx.transactionWitnessSet.inner.plutusData with _ | datums
      · rw [hd] at h
        cases h ⟨fun _ => 0, fun _ => 0, id, fun _ _ _ => true⟩
      · rw [hd] at h
        have hbytes := eq_of_hashes fun c => Option.some.inj (h c)
        have hviews : [0xa0] = encodeLanguageViews views := by simpa using hbytes
        have hempty := map_eq_empty hviews.symm
        omega
    · have hdatums : (mtx.transactionWitnessSet.inner.plutusData.map KeepRaw.rawCbor).getD [] =
          mtx.transactionWitnessSet.inner.plutusData.elim [] KeepRaw.rawCbor := by
        cases mtx.transactionWitnessSet.inner.plutusData <;> rfl
      simp only [Option.some.injEq, exists_eq_left', ← hdecoded.encode_iff hr, hdatums]
      constructor
      · intro h
        have hbytes := eq_of_hashes h
        simpa using hbytes
      · intro h c
        rw [h]
        rfl

variable (mtx utxos pps) in
/-- The hash commits to the original bytes, and the check asks for that commitment, exactly for redeemers in the encoder's form, with
nothing carried besides. -/
theorem integrity_iff (hdecoded : Decoded hm mtx.transactionWitnessSet.inner) (views : Option TxBuilder.LanguageViews) :
    (HashMeets mtx.transactionWitnessSet.inner views ↔ HashHolds mtx.transactionWitnessSet.inner views) ∧
      (CheckMeets mtx utxos pps ↔ CheckHolds mtx utxos pps) := ⟨hash_iff hdecoded views, check_iff hdecoded⟩

end Check

end Commitment

/-! ### One redeemer, as a list of known length and of indefinite length -/

/-- The decoder by the standard, with a text for each error of a derived decoder. -/
def referenceDerive : MinicborDerive String where
  toMinicborValues := MinicborValues.reference
  missingValue _ := "missing value"
  unknownVariant _ := "unknown variant"

/-- Spends the first input with the number one. -/
def oneRedeemer : Redeemer := ⟨.spend, 0, .bigInt (.int 1), ⟨1, 2⟩⟩

theorem oneRedeemer_held : (Redeemers.list [oneRedeemer]).Held := by
  intro x hx
  obtain rfl : x = .bigInt (.int 1) := by simpa [Redeemers.data, oneRedeemer] using hx
  have hfits : PlutusData.FitsNode (.bigInt (.int 1)) := ⟨by decide, by decide⟩
  have hleaf : ∀ c, c ∉ FiniteTree.children (PlutusData.bigInt (.int 1)) := fun c hc => nomatch hc
  exact ⟨FiniteTree.Everywhere.node hfits fun c hc => absurd hc (hleaf c),
    FiniteTree.Everywhere.node True.intro fun c hc => absurd hc (hleaf c)⟩

def listedWitnesses : WitnessSet :=
  { redeemer := some ⟨[0x81, 0x84, 0x00, 0x00, 0x01, 0x82, 0x01, 0x02], .list [oneRedeemer], List.cons_ne_nil _ _⟩
    plutusV3Script := some [⟨[]⟩] }

def indefiniteWitnesses : WitnessSet :=
  { redeemer := some ⟨[0x9f, 0x84, 0x00, 0x00, 0x01, 0x82, 0x01, 0x02, 0xff], .list [oneRedeemer], List.cons_ne_nil _ _⟩
    plutusV3Script := some [⟨[]⟩] }

/-- A transaction with nothing but the witnesses. -/
def witnessedTx (wits : WitnessSet) : Tx :=
  ⟨⟨[0xa3], { inputs := [], outputs := [], fee := 0 }, List.cons_ne_nil _ _⟩,
    ⟨[0xa2], wits, List.cons_ne_nil _ _⟩, true, .null⟩

theorem listedWitnesses_decoded :
    Decoded (m := referenceDerive) MinicborValues.reference_lawful
      (witnessedTx listedWitnesses).transactionWitnessSet.inner := by
  rintro r ⟨⟩
  exact ⟨by decide, [], redeemers_inverts MinicborValues.reference_lawful oneRedeemer_held (by decide) []⟩

theorem indefiniteWitnesses_decoded :
    Decoded (m := referenceDerive) MinicborValues.reference_lawful
      (witnessedTx indefiniteWitnesses).transactionWitnessSet.inner := by
  have hheld := oneRedeemer_held (.bigInt (.int 1)) List.mem_cons_self
  have hone := redeemer_inverts (m := referenceDerive) MinicborValues.reference_lawful
    (r := oneRedeemer) hheld (by decide) [0xff]
  have hitems := (MinicborValues.reference_lawful.arrayIter
    (decodeRedeemer referenceDerive MinicborValues.reference_lawful)
    [0x9f, 0x84, 0x00, 0x00, 0x01, 0x82, 0x01, 0x02, 0xff] [oneRedeemer] []).2
      ⟨none, _, rfl, .more (by decide) hone .stop⟩
  rintro r ⟨⟩
  refine ⟨by decide, [], Reader.bind_eq_ok.2 ⟨.arrayIndef, _, rfl, ?_⟩⟩
  exact Reader.bind_eq_ok.2 ⟨_, _, hitems, rfl⟩

/-- A list of known length is in the form of the encoder. -/
theorem listedWitnesses_integrity : HashMeets listedWitnesses none ∧
    CheckMeets (witnessedTx listedWitnesses) (fun _ => none)
      { conwayPps with costModelsForScriptLanguages := ⟨none, none, some [1]⟩ } := by
  have hform : InEncoderForm [0x81, 0x84, 0x00, 0x00, 0x01, 0x82, 0x01, 0x02] :=
    ⟨.list [oneRedeemer], oneRedeemer_held, rfl⟩
  have hiff := integrity_iff (witnessedTx listedWitnesses) (fun _ => none)
    { conwayPps with costModelsForScriptLanguages := ⟨none, none, some [1]⟩ } listedWitnesses_decoded none
  refine ⟨hiff.1.2 hform, hiff.2.2 ?_⟩
  have hlangs : txLanguages (witnessedTx listedWitnesses) (fun _ => none) = [.plutusV3] := rfl
  rw [CheckHolds, if_neg (by rw [hlangs]; simp)]
  exact fun _ => ⟨_, rfl, hform⟩

/-- One of indefinite length is not: the hash is not that of the bytes that came. -/
theorem indefiniteWitnesses_hash : Decoded (m := referenceDerive) MinicborValues.reference_lawful indefiniteWitnesses ∧
    ¬ HashMeets indefiniteWitnesses none := by
  refine ⟨indefiniteWitnesses_decoded, fun h => ?_⟩
  have hform := (hash_iff indefiniteWitnesses_decoded none).1 h
  have hbytes := (indefiniteWitnesses_decoded.encode_iff rfl).2 hform
  exact absurd (List.cons.inj hbytes).1 (by decide)

end Conway
end Pallas
