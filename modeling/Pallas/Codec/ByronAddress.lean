import Pallas.Codec.LedgerElements

/-!
# Byron addresses (`pallas-addresses/src/byron.rs`, `TagWrap` of `pallas-codec/src/utils.rs`)

An address is a pair of bytes behind a tag and of their checksum, and the bytes are the encoding of its payload. What is written is
read back. What is read is held neither against the number of the tag nor against the checksum: an address in which these were
changed is accepted as it is.
-/

namespace Pallas
open Cbor Cbor.Decoder

/-! ### The codecs -/

def AddrType.ofU32 (variant : UInt32) : AddrType :=
  if variant = 0 then .pubKey
  else if variant = 1 then .script
  else if variant = 2 then .redeem
  else .other variant

def AddrType.toU32 : AddrType → UInt32
  | pubKey => 0
  | script => 1
  | redeem => 2
  | other x => x

namespace Codec
variable {ε α : Type} (m : MinicborLedger ε)

def byteVec : Codec ε Bytes := ⟨m.bytes, Cbor.bytes⟩

def addrDistr : Codec ε AddrDistr where
  decode := do
    let _ ← m.array
    let variant ← m.u32
    if variant = 0 then .singleKeyDistribution <$> (hash m 28).decode
    else if variant = 1 then pure .bootstrapEraDistribution
    else .throw (m.message "invalid variant for addrdstr")
  encode := AddrDistr.encode

def addrType : Codec ε AddrType where
  decode := AddrType.ofU32 <$> m.u32
  encode t := Cbor.uint t.toU32.toNat

def addrAttrProperty : Codec ε AddrAttrProperty where
  decode := do
    let key ← m.u8
    if key = 0 then .addrDistr <$> (addrDistr m).decode
    else if key = 1 then .derivationPath <$> (byteVec m).decode
    else if key = 2 then .networkTag <$> (byteVec m).decode
    else .throw (m.message "unknown tag for address attribute")
  encode := AddrAttrProperty.encode

def addrAttrs : Codec ε (List AddrAttrProperty) := orderPreservingProperties m.toMinicborContainers (addrAttrProperty m)

/-- `TagWrap<I, T>`: a tag is read, and its number is dropped. -/
def tagWrap (number : UInt64) (inner : Codec ε α) : Codec ε α where
  decode := do
    let _ ← m.tag
    inner.decode
  encode a := Cbor.tag number.toNat ++ inner.encode a

def addressPayload : Codec ε AddressPayload where
  decode := Derived.struct₃ m.derive (hash m 28).decode (addrAttrs m).decode (addrType m).decode .mk
  encode p := Cbor.array 3 ++
    ((hash m 28).encode p.root ++ ((addrAttrs m).encode p.attributes ++ (addrType m).encode p.addrtype))

def byronAddress : Codec ε ByronAddress :=
  struct m (tagWrap m 24 (byteVec m)) (u32 m) .mk fun a => (a.payload, a.crc)

end Codec

/-! ### Addresses -/

/-- The packages `crc` and `base58`. -/
structure AddressPackages (β : Type) where
  /-- `checksum`, of the algorithm `CRC_32_ISO_HDLC`. -/
  checksum : Bytes → UInt32
  toBase58 : Bytes → String
  fromBase58 : String → Except β Bytes

/-- The errors of `pallas-addresses` for what is no Byron address. -/
inductive AddressError (ε β : Type) where
  | badBase58 (e : β)
  | invalidByronCbor (e : ε)

namespace Codec.ByronAddress
variable {ε β : Type} (m : MinicborLedger ε) (k : AddressPackages β)

def fromDecoded (payload : AddressPayload) : ByronAddress :=
  let payload := (addressPayload m).encode payload
  ⟨payload, k.checksum payload⟩

def fromBytes (value : Bytes) : Except (AddressError ε β) ByronAddress :=
  ((byronAddress m).decode.run value).1.mapError .invalidByronCbor

def fromBase58 (value : String) : Except (AddressError ε β) ByronAddress := do
  let bytes ← (k.fromBase58 value).mapError .badBase58
  fromBytes m bytes

def toVec (self : ByronAddress) : Bytes := (byronAddress m).encode self

def toBase58 (self : ByronAddress) : String := k.toBase58 (toVec m self)

def decode (self : ByronAddress) : Except (AddressError ε β) AddressPayload :=
  ((addressPayload m).decode.run self.payload).1.mapError .invalidByronCbor

/-! ### What an address should be -/

/-- The payload is read back from its address, and the address from its bytes and from its text. -/
structure RoundTrips (p : AddressPayload) : Prop where
  decode : decode m (fromDecoded m k p) = (.ok p : Except (AddressError ε β) AddressPayload)
  bytes : fromBytes m (toVec m (fromDecoded m k p)) = (.ok (fromDecoded m k p) : Except (AddressError ε β) ByronAddress)
  base58 : fromBase58 m k (toBase58 m k (fromDecoded m k p)) = .ok (fromDecoded m k p)

/-- Not another name of one of the types that have a name. -/
def Proper (t : AddrType) : Prop := ∀ x, t = .other x → 2 < x

/-- The checksum is that of the payload, which was behind the tag 24. -/
structure Genuine (bs : Bytes) (a : ByronAddress) : Prop where
  crc : a.crc = k.checksum a.payload
  tagged : ∃ len mid rest, header 4 bs = some (len, mid) ∧ header 6 mid = some (some 24, rest)

/-- In the bytes there is an array, and in it first a tag and a byte string, then an integer. -/
inductive Carries (bs : Bytes) (number : ℕ) (payload : Bytes) (crc : ℕ) : Prop
  | intro {len : Option ℕ} {n : ℕ} {items wrapped content tail rest : Bytes} (harray : header 4 bs = some (len, items))
      (htag : header 6 items = some (some number, wrapped)) (hbytes : header 2 wrapped = some (some n, content))
      (hpayload : take n content = some (payload, tail)) (hcrc : header 0 tail = some (some crc, rest)) :
      Carries bs number payload crc

/-- The tag in the bytes is 24, and the integer the checksum of the byte string. -/
def Intact (bs : Bytes) : Prop :=
  ∀ number payload crc, Carries bs number payload crc → number = 24 ∧ crc = (k.checksum payload).toNat

/-- The bytes of an address with any tag and any checksum. -/
def altered (number : UInt64) (payload : Bytes) (crc : UInt32) : Bytes :=
  Cbor.array 2 ++ (Cbor.tag number.toNat ++ Cbor.bytes payload ++ Cbor.uint crc.toNat)

end Codec.ByronAddress

/-! ### What is written is read back -/

theorem AddrType.ofU32_toU32_iff (t : AddrType) : ofU32 t.toU32 = t ↔ Codec.ByronAddress.Proper t := by
  cases t with
  | pubKey => exact iff_of_true rfl fun _ h => nomatch h
  | script => exact iff_of_true rfl fun _ h => nomatch h
  | redeem => exact iff_of_true rfl fun _ h => nomatch h
  | other x =>
    have hproper : Codec.ByronAddress.Proper (.other x) ↔ 2 < x := by
      constructor
      · exact fun h => h x rfl
      · rintro h y ⟨⟩
        exact h
    rw [hproper]
    show ofU32 x = .other x ↔ _
    unfold ofU32
    split_ifs with h0 h1 h2
    · exact iff_of_false nofun (by simp [h0])
    · exact iff_of_false nofun (by simp [h1])
    · exact iff_of_false nofun (by simp [h2])
    · refine iff_of_true rfl ?_
      rw [UInt32.lt_iff_toNat_lt]
      rw [← UInt32.toNat_inj] at h0 h1 h2
      simp at h0 h1 h2 ⊢
      omega

namespace Codec
variable {ε α β : Type} {m : MinicborLedger ε} (hm : m.Lawful)
include hm

theorem byteVec_inverts (s : Bytes) : (byteVec m).decode.Inverts ((byteVec m).encode s) s :=
  hm.toContainers.toValues.bytes_inverts s

theorem addrDistr_inverts (d : AddrDistr) : (addrDistr m).decode.Inverts ((addrDistr m).encode d) d := by
  have hu32 := hm.toContainers.toValues.u32_takes
  cases d with
  | singleKeyDistribution id =>
    have hhash := map_inverts ((hash_roundTrips hm 28).inverts id) AddrDistr.singleKeyDistribution
    have h : (addrDistr m).decode.Inverts (Cbor.array 2 ++ (Cbor.uint 0 ++ (hash m 28).encode id))
        (.singleKeyDistribution id) := array_inverts hm (by omega) ((hu32 0).inverts.bind hhash)
    rwa [← List.append_assoc] at h
  | bootstrapEraDistribution => exact array_inverts hm (by omega) ((hu32 1).inverts.last rfl)

theorem addrAttrProperty_roundTrips : (addrAttrProperty m).RoundTrips := by
  have hu8 := hm.toContainers.toValues.u8_takes
  constructor
  · intro x
    cases x with
    | addrDistr d => exact (hu8 0).inverts.bind (map_inverts (addrDistr_inverts hm d) _)
    | derivationPath s => exact (hu8 1).inverts.bind (map_inverts (byteVec_inverts hm s) _)
    | networkTag s => exact (hu8 2).inverts.bind (map_inverts (byteVec_inverts hm s) _)
  · intro x _
    have hkey : ∀ n w, n < 2 ^ 64 → Begins (Cbor.uint n ++ w) := fun n w hn => (begins_head (by omega) hn).append w
    cases x with
    | addrDistr d => exact hkey 0 _ (by omega)
    | derivationPath s => exact hkey 1 _ (by omega)
    | networkTag s => exact hkey 2 _ (by omega)

theorem addrAttrs_inverts (attributes : List AddrAttrProperty) :
    (addrAttrs m).decode.Inverts ((addrAttrs m).encode attributes) attributes := by
  intro hlt
  have hproperty := addrAttrProperty_roundTrips hm
  have hwhole : (attributes.flatMap AddrAttrProperty.encode).length < 2 ^ 64 :=
    lt_of_le_of_lt (List.suffix_append _ _).length_le hlt
  refine Wrapper.orderPreservingProperties_takes hm.toContainers hlt (fun x hx => ?_) fun x hx => ?_
  · exact hproperty.inverts x (lt_of_mem_flatMap hx hwhole)
  · exact hproperty.begins x (lt_of_mem_flatMap hx hwhole)

theorem addrType_inverts (t : AddrType) : (addrType m).decode.Inverts ((addrType m).encode t) (.ofU32 t.toU32) :=
  map_inverts (hm.toContainers.toValues.u32_takes t.toU32).inverts AddrType.ofU32

/-- The type is read back by its number. -/
theorem addressPayload_inverts (p : AddressPayload) :
    (addressPayload m).decode.Inverts ((addressPayload m).encode p) { p with addrtype := .ofU32 p.addrtype.toU32 } :=
  Derived.struct₃_inverts hm.toContainers.toValues ((hash_roundTrips hm 28).inverts p.root)
    (addrAttrs_inverts hm p.attributes) (addrType_inverts hm p.addrtype) AddressPayload.mk

/-- Any tag is read, and any checksum. -/
theorem byronAddress_inverts (number : UInt64) (payload : Bytes) (crc : UInt32) :
    (byronAddress m).decode.Inverts (ByronAddress.altered number payload crc) ⟨payload, crc⟩ := by
  have hvalues := hm.toContainers.toValues
  have hwrapped : (tagWrap m 24 (byteVec m)).decode.Inverts (Cbor.tag number.toNat ++ Cbor.bytes payload) payload :=
    (hvalues.tag_takes number).inverts.bind (byteVec_inverts hm payload)
  exact Derived.struct₂_inverts hvalues hwrapped (hvalues.u32_takes crc).inverts ByronAddress.mk

end Codec

namespace Codec.ByronAddress
variable {ε β : Type} {m : MinicborLedger ε} {k : AddressPackages β} (hm : m.Lawful)

theorem toVec_eq (a : ByronAddress) : toVec m a = altered 24 a.payload a.crc := rfl

theorem run_of_inverts {α : Type} {x : Reader ε α} {w : Bytes} {a : α} (h : x.Inverts w a) (hlt : w.length < 2 ^ 64) :
    (x.run w).1 = .ok a := by
  have hrun := h hlt []
  rw [List.append_nil] at hrun
  rw [hrun]

include hm

theorem fromBytes_altered {number : UInt64} {payload : Bytes} {crc : UInt32}
    (hlt : (altered number payload crc).length < 2 ^ 64) :
    fromBytes m (altered number payload crc) = (.ok ⟨payload, crc⟩ : Except (AddressError ε β) ByronAddress) := by
  rw [fromBytes, run_of_inverts (byronAddress_inverts hm number payload crc) hlt]
  rfl

theorem decode_fromDecoded {p : AddressPayload} (hlt : (toVec m (fromDecoded m k p)).length < 2 ^ 64) :
    decode m (fromDecoded m k p) =
      (.ok { p with addrtype := .ofU32 p.addrtype.toU32 } : Except (AddressError ε β) AddressPayload) := by
  have hpayload : ((addressPayload m).encode p).length < 2 ^ 64 := by
    rw [toVec_eq, altered, Cbor.bytes] at hlt
    simp only [List.length_append] at hlt
    show (fromDecoded m k p).payload.length < 2 ^ 64
    omega
  rw [decode, show (fromDecoded m k p).payload = (addressPayload m).encode p from rfl,
    run_of_inverts (addressPayload_inverts hm p) hpayload]
  rfl

theorem roundTrips_iff (hk : ∀ bs, k.fromBase58 (k.toBase58 bs) = .ok bs) {p : AddressPayload}
    (hlt : (toVec m (fromDecoded m k p)).length < 2 ^ 64) : RoundTrips m k p ↔ Proper p.addrtype := by
  have hdecode := decode_fromDecoded (k := k) hm hlt
  have hbytes : fromBytes m (toVec m (fromDecoded m k p)) =
      (.ok (fromDecoded m k p) : Except (AddressError ε β) ByronAddress) := fromBytes_altered hm hlt
  rw [← AddrType.ofU32_toU32_iff]
  constructor
  · rintro ⟨h, -, -⟩
    rw [hdecode] at h
    exact congrArg AddressPayload.addrtype (Except.ok.inj h)
  · intro h
    refine ⟨?_, hbytes, ?_⟩
    · rw [hdecode, h]
    · rw [toBase58, fromBase58, hk]
      exact hbytes

end Codec.ByronAddress

/-! ### What is accepted -/

namespace Codec.ByronAddress
variable {ε β : Type} {m : MinicborLedger ε} {k : AddressPackages β} {bs : Bytes} {a : ByronAddress}

theorem Carries.unique {number number' crc crc' : ℕ} {payload payload' : Bytes} (h : Carries bs number payload crc)
    (h' : Carries bs number' payload' crc') : number = number' ∧ payload = payload' ∧ crc = crc' := by
  obtain ⟨harray, htag, hbytes, hpayload, hcrc⟩ := h
  obtain ⟨harray', htag', hbytes', hpayload', hcrc'⟩ := h'
  cases harray.symm.trans harray'
  cases htag.symm.trans htag'
  cases hbytes.symm.trans hbytes'
  cases hpayload.symm.trans hpayload'
  cases hcrc.symm.trans hcrc'
  exact ⟨rfl, rfl, rfl⟩

theorem carries_of_fromBytes (hm : m.Lawful)
    (h : fromBytes m bs = (.ok a : Except (AddressError ε β) ByronAddress)) :
    ∃ number, Carries bs number a.payload a.crc.toNat := by
  have hvalues := hm.toContainers.toValues
  rw [fromBytes] at h
  rcases hrun : (byronAddress m).decode.run bs with ⟨_ | a', rest⟩
  · rw [hrun] at h
    cases h
  · rw [hrun] at h
    cases h
    obtain ⟨len, items, payload, tail, crc, rest', harray, hwrapped, hcrc, rfl⟩ :=
      Derived.struct₂_reads (m := m.derive) hvalues hrun
    obtain ⟨number, wrapped, htag, hbytes⟩ := Reader.bind_eq_ok.1 hwrapped
    obtain ⟨n, content, hhead, htake⟩ := (hvalues.bytes _ _ _).1 hbytes
    exact ⟨_, .intro harray ((hvalues.tag _ _ _).1 htag) hhead htake ((hvalues.u32 _ _ _).1 hcrc)⟩

theorem genuine_iff (hm : m.Lawful) (h : fromBytes m bs = (.ok a : Except (AddressError ε β) ByronAddress)) :
    Genuine k bs a ↔ Intact k bs := by
  obtain ⟨number, hcarries⟩ := carries_of_fromBytes hm h
  constructor
  · rintro ⟨hcrc, len, mid, rest, harray, htag⟩ number' payload crc hcarries'
    obtain ⟨rfl, rfl, rfl⟩ := hcarries.unique hcarries'
    obtain ⟨harray', htag', -, -, -⟩ := hcarries
    cases harray.symm.trans harray'
    cases htag.symm.trans htag'
    exact ⟨rfl, congrArg UInt32.toNat hcrc⟩
  · intro hintact
    obtain ⟨rfl, hcrc⟩ := hintact _ _ _ hcarries
    obtain ⟨harray, htag, -, -, -⟩ := hcarries
    exact ⟨UInt32.toNat_inj.1 hcrc, _, _, _, harray, htag⟩

/-- A payload is read back from its address exactly if its type is proper, and so is the address. Of what is accepted the checksum
is right and the tag is 24 exactly if they were so in the bytes; and an address is accepted with any tag and any checksum. -/
theorem byronAddress_iff (hm : m.Lawful) (hk : ∀ bs, k.fromBase58 (k.toBase58 bs) = .ok bs) :
    (∀ p, (toVec m (fromDecoded m k p)).length < 2 ^ 64 → (RoundTrips m k p ↔ Proper p.addrtype)) ∧
      (∀ bs a, fromBytes m bs = (.ok a : Except (AddressError ε β) ByronAddress) → (Genuine k bs a ↔ Intact k bs)) ∧
      ∀ number payload crc, (altered number payload crc).length < 2 ^ 64 →
        fromBytes m (altered number payload crc) = (.ok ⟨payload, crc⟩ : Except (AddressError ε β) ByronAddress) :=
  ⟨fun _ hlt => roundTrips_iff hm hk hlt, fun _ _ h => genuine_iff hm h, fun _ _ _ hlt => fromBytes_altered hm hlt⟩

/-! ### An address without attributes -/

section Reference
open MinicborLedger (reference reference_lawful)

def barePayload : AddressPayload := ⟨0, [], .pubKey⟩

def bareBytes : Bytes := [0x83, 0x58, 0x1c] ++ List.replicate 28 0 ++ [0xa0, 0x00]

def bareText : String := "Ae2tdPwUPEYvomFBZFSaDRf2uJu2cj9CnMGDgM3axCkmBwUPmfLGo615SEk"

def bareChecksum : UInt32 := 0xde77bc61

/-- The checksum and the text of this address, and some text for any other one. -/
def barePackages : AddressPackages String where
  checksum bs := if bs = bareBytes then bareChecksum else 0
  toBase58 bs :=
    if bs = altered 24 bareBytes bareChecksum then bareText
    else String.ofList (bs.map fun b => Char.ofNat (256 + b.toNat))
  fromBase58 s :=
    if s = bareText then .ok (altered 24 bareBytes bareChecksum) else .ok (s.toList.map fun c => UInt8.ofNat c.toNat)

theorem barePackages_base58 (bs : Bytes) : barePackages.fromBase58 (barePackages.toBase58 bs) = .ok bs := by
  have hchar : ∀ b : UInt8, (Char.ofNat (256 + b.toNat)).toNat = 256 + b.toNat := by
    intro b
    have hb := b.toNat_lt
    have hvalid : (256 + b.toNat).isValidChar := .inl (by omega)
    rw [Char.ofNat, dif_pos hvalid]
    rfl
  unfold barePackages
  dsimp only
  by_cases hbs : bs = altered 24 bareBytes bareChecksum
  · rw [if_pos hbs, if_pos rfl, hbs]
  -- the texts of other addresses are outside of the alphabet
  have htext : String.ofList (bs.map fun b => Char.ofNat (256 + b.toNat)) ≠ bareText := by
    intro htext
    have hlist := congrArg String.toList htext
    rw [String.toList_ofList] at hlist
    cases bs with
    | nil => cases hlist
    | cons b tail =>
      have hfirst : Char.ofNat (256 + b.toNat) = 'A' := (List.cons.inj hlist).1
      have hnat := congrArg Char.toNat hfirst
      rw [hchar, show 'A'.toNat = 65 from rfl] at hnat
      omega
  rw [if_neg hbs, if_neg htext, String.toList_ofList, List.map_map]
  refine congrArg Except.ok ((List.map_congr_left fun b _ => ?_).trans (List.map_id bs))
  have hb := b.toNat_lt
  show UInt8.ofNat (Char.ofNat (256 + b.toNat)).toNat = b
  rw [hchar, ← UInt8.toNat_inj, UInt8.toNat_ofNat']
  omega

theorem byronAddress_iff_bare : RoundTrips reference barePackages barePayload ∧
    (Genuine barePackages (altered 24 bareBytes bareChecksum) ⟨bareBytes, bareChecksum⟩ ↔
      Intact barePackages (altered 24 bareBytes bareChecksum)) ∧
    fromBytes reference (altered 25 bareBytes 0) = (.ok ⟨bareBytes, 0⟩ : Except (AddressError String String) ByronAddress) := by
  obtain ⟨hround, hgenuine, haltered⟩ := byronAddress_iff (k := barePackages) reference_lawful barePackages_base58
  refine ⟨(hround barePayload (by decide)).2 (fun _ h => nomatch h), hgenuine _ _ (haltered 24 bareBytes bareChecksum (by decide)),
    haltered 25 bareBytes 0 (by decide)⟩

/-- The address with another tag and another checksum. -/
theorem altered_accepted : ¬ ∀ bs a, fromBytes reference bs = (.ok a : Except (AddressError String String) ByronAddress) →
    Genuine barePackages bs a := by
  intro h
  have haccepted : fromBytes reference (altered 25 bareBytes 0) =
      (.ok ⟨bareBytes, 0⟩ : Except (AddressError String String) ByronAddress) := rfl
  exact absurd (h _ _ haccepted).crc (by decide)

end Reference

end Codec.ByronAddress
end Pallas
