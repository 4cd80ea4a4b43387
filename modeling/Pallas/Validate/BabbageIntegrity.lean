import Pallas.Codec.KeepRaw
import Pallas.Validate.Babbage
import Pallas.Validate.IntegrityHash
import Pallas.Validate.Languages

/-!
# What the check of the script data hash accepts (`phase1/babbage.rs`)

The body of a transaction commits to the bytes that the witness set carries: those of the redeemers, those of the datums, and the
language views. The check has only the decoded values, writes them out again with the datums in both forms of an array, and asks for
both fields. So a transaction is judged by the bytes it carries if those are in a form that the encoder gives and its hash is that of
no other form (`checkScriptDataHash_iff`).
-/

namespace Pallas
open Cbor Cbor.Decoder

namespace Alonzo

/-! ### The codec of the redeemers -/

/-- The variant of an index. -/
def RedeemerTag.ofIndex (n : ℤ) : Option RedeemerTag :=
  if n = 0 then some spend
  else if n = 1 then some mint
  else if n = 2 then some cert
  else if n = 3 then some reward
  else none

/-- One redeemer, as it is written. -/
def encodeRedeemer (r : Redeemer) : Bytes :=
  Cbor.array 4 ++ Cbor.uint r.tag.index ++ Cbor.uint r.index.toNat ++ r.data.encode ++ encodeExUnits r.exUnits

section Decode
variable {ε : Type} (m : MinicborDerive ε) (hm : m.toMinicborValues.Lawful)

def decodeRedeemerTag : Reader ε RedeemerTag := Derived.indexOnly m RedeemerTag.ofIndex

def decodeRedeemer : Reader ε Redeemer :=
  Derived.struct₄ m (decodeRedeemerTag m) m.u32 (Conway.decodePlutusData m hm) (Conway.decodeExUnits m) Redeemer.mk

end Decode
end Alonzo

namespace Babbage
open Alonzo (Redeemer encodeRedeemer encodeRedeemers decodeRedeemer)

/-! ### The two fields of the witness set -/

/-- Values that the Rust types hold, with well-formed constructors. -/
def Held (data : List PlutusData) : Prop := ∀ x ∈ data, x.Fits ∧ x.ConstrOk

/-- Redeemers in the form that the encoder gives: an array of known length, with shortest integers and lengths, and the data as they
are written. -/
def RedeemersForm (bytes : Bytes) : Prop :=
  ∃ rs : List Redeemer, Held (rs.map Redeemer.data) ∧ bytes = encodeRedeemers rs

/-- Datums in one of the two forms that are tried: an array of known or of indefinite length, of data as they are written. -/
def DatumsForm (bytes : Bytes) : Prop :=
  ∃ (definite : Bool) (data : List PlutusData), Held data ∧
    bytes = encodeArray definite data.length (data.flatMap PlutusData.encode)

def kept (d : KeepRaw PlutusData) : Keep.KeepRaw PlutusData := ⟨d.rawCbor, d.inner⟩

section Fields
variable {ε : Type} {m : MinicborDerive ε} (hm : m.toMinicborValues.Lawful)

/-- `Vec<Redeemer>`. -/
def decodeRedeemers : Reader ε (List Redeemer) := m.arrayIter (decodeRedeemer m hm)

/-- `Vec<KeepRaw<PlutusData>>`. -/
def decodeDatums : Reader ε (List (Keep.KeepRaw PlutusData)) :=
  m.arrayIter (Keep.KeepRaw.decode (Conway.decodePlutusData m hm))

/-- The bytes of the redeemers and of the datums that a witness set was decoded from, where it has the field. -/
structure Carried (wits : WitnessSet) where
  redeemer : Option Bytes
  plutusData : Option Bytes
  redeemer_takes : Option.Rel (decodeRedeemers hm).Takes redeemer wits.redeemer
  plutusData_takes : Option.Rel (fun raw ds => (decodeDatums hm).Takes raw (ds.map kept)) plutusData wits.plutusData

include hm

theorem redeemer_inverts {r : Redeemer} (hx : r.data.Fits ∧ r.data.ConstrOk) :
    (decodeRedeemer m hm).Inverts (encodeRedeemer r) r := by
  have htag : (Alonzo.decodeRedeemerTag m).Takes (Cbor.uint r.tag.index) r.tag :=
    Derived.indexOnly_takes hm (by cases r.tag <;> decide) (by cases r.tag <;> rfl)
  simp only [encodeRedeemer, List.append_assoc]
  exact Derived.struct₄_inverts hm htag.inverts (hm.u32_takes r.index).inverts
    (PlutusData.reader_takes hm.toLawful hx.1 hx.2).inverts (Conway.exUnits_inverts hm r.exUnits) Redeemer.mk

theorem redeemers_inverts {rs : List Redeemer} (h : Held (rs.map Redeemer.data)) :
    (decodeRedeemers hm).Inverts (encodeRedeemers rs) rs := by
  have hitems : ∀ r ∈ rs, (decodeRedeemer m hm).Inverts (encodeRedeemer r) r :=
    fun r hr => redeemer_inverts hm (h _ (List.mem_map_of_mem hr))
  refine hm.arrayIter_inverts hitems fun r _ => ?_
  simp only [List.append_assoc]
  exact (begins_head (by omega) (by omega)).append _

theorem datums_inverts {data : List PlutusData} (h : Held data) (definite : Bool) :
    (decodeDatums hm).Inverts (encodeArray definite data.length (data.flatMap PlutusData.encode))
      (data.map fun x => ⟨x.encode, x⟩) := by
  have hitems : ∀ k ∈ data.map fun x => (⟨x.encode, x⟩ : Keep.KeepRaw PlutusData),
      (Keep.KeepRaw.decode (Conway.decodePlutusData m hm)).Inverts k.raw k ∧ Begins k.raw := by
    intro k hk
    obtain ⟨x, hx, rfl⟩ := List.mem_map.1 hk
    obtain ⟨hfits, hok⟩ := h x hx
    have htakes := PlutusData.reader_takes hm.toLawful hfits hok
    exact ⟨(Keep.KeepRaw.decode_takes htakes).inverts, PlutusData.encode_begins hfits hok⟩
  have hbytes : data.flatMap PlutusData.encode =
      (data.map fun x => (⟨x.encode, x⟩ : Keep.KeepRaw PlutusData)).flatMap Keep.KeepRaw.raw := by
    rw [List.flatMap_map]
  have hlength : data.length = (data.map fun x => (⟨x.encode, x⟩ : Keep.KeepRaw PlutusData)).length :=
    (List.length_map _).symm
  rw [hbytes, hlength]
  cases definite with
  | true => exact hm.arrayIter_inverts (fun k hk => (hitems k hk).1) fun k hk => (hitems k hk).2
  | false => exact hm.arrayIter_inverts_indef (fun k hk => (hitems k hk).1) fun k hk => (hitems k hk).2

/-! ### What was decoded can be written -/

theorem held_redeemers {raw : Bytes} {rs : List Redeemer} (h : (decodeRedeemers hm).Takes raw rs)
    (hlen : (encodeRedeemers rs).length < 2 ^ 63) : Held (rs.map Redeemer.data) := by
  have hredeemer : Derived.Gives (fun r => PlutusData.Sound r.data) (decodeRedeemer m hm) :=
    Derived.struct₄_gives (.trivial _) (.trivial _) (PlutusData.reader_sound hm.toLawful) (.trivial _)
      fun _ _ _ _ _ _ hx _ => hx
  intro x hx
  obtain ⟨r, hr, rfl⟩ := List.mem_map.1 hx
  have hsound := Derived.arrayIter_gives hm hredeemer _ _ _ (h []) r hr
  have hwhole : (rs.flatMap encodeRedeemer).length < 2 ^ 63 :=
    Nat.lt_of_le_of_lt (List.suffix_append _ _).length_le hlen
  have hone := lt_of_mem_flatMap hr hwhole
  simp only [encodeRedeemer, List.length_append] at hone
  exact ⟨PlutusData.fits_of_length (hsound.imp fun _ hx => hx.2) (by omega), hsound.imp fun _ hx => hx.1⟩

theorem held_datums {raw : Bytes} {ds : List (KeepRaw PlutusData)} (h : (decodeDatums hm).Takes raw (ds.map kept))
    (hlen : ((ds.map KeepRaw.inner).flatMap PlutusData.encode).length < 2 ^ 63) : Held (ds.map KeepRaw.inner) := by
  have hdatum : Derived.Gives (fun k => PlutusData.Sound k.inner)
      (Keep.KeepRaw.decode (Conway.decodePlutusData m hm)) := by
    intro bs k rest hrun
    exact PlutusData.reader_sound hm.toLawful _ _ _ (Keep.KeepRaw.decode_eq_ok.1 hrun).1
  intro x hx
  obtain ⟨d, hd, rfl⟩ := List.mem_map.1 hx
  have hsound := Derived.arrayIter_gives hm hdatum _ _ _ (h []) (kept d) (List.mem_map_of_mem hd)
  exact ⟨PlutusData.fits_of_length (hsound.imp fun _ hx => hx.2) (lt_of_mem_flatMap hx hlen),
    hsound.imp fun _ hx => hx.1⟩

end Fields

/-! ### The languages -/

/-- The language among those of the next era. -/
def Language.toConway : Language → Conway.Language
  | plutusV1 => .plutusV1
  | plutusV2 => .plutusV2

section Languages
variable (mtx : Tx) (utxos : UTxOs)

/-- A language that the transaction uses, in a script of the witness set or in a reference script, of an output of any era. -/
inductive Uses : Language → Prop
  | plutusV1 {s : PlutusScript 1} (h : s ∈ mtx.transactionWitnessSet.inner.plutusV1Script.getD []) : Uses .plutusV1
  | plutusV2 {s : PlutusScript 2} (h : s ∈ mtx.transactionWitnessSet.inner.plutusV2Script.getD []) : Uses .plutusV2
  | reference {i : TransactionInput} {o : MultiEraOutput} {l : Language}
      (hi : i ∈ mtx.transactionBody.inner.referenceInputs.getD []) (ho : utxos (.alonzoCompatible i) = some o)
      (hl : o.scriptLanguage = some l.toConway) : Uses l

open Classical in
noncomputable def usedLanguages : List Language := [.plutusV1, .plutusV2].filter fun l => Uses mtx utxos l

variable {mtx utxos}

theorem referenceLanguage_eq_some {i : TransactionInput} {l : Language} :
    (referenceScript i utxos).bind scriptRefLanguage = some l ↔
      ∃ o, utxos (.alonzoCompatible i) = some (.babbage o) ∧ (MultiEraOutput.babbage o).scriptLanguage = some l.toConway := by
  unfold referenceScript
  rcases hfound : utxos (.alonzoCompatible i) with _ | o
  · simp
  cases o with
  | babbage o =>
    rcases o with o | o
    · simp [MultiEraOutput.asBabbage, MultiEraOutput.scriptLanguage]
    · rcases hs : o.scriptRef with _ | s
      · simp [MultiEraOutput.asBabbage, MultiEraOutput.scriptLanguage, hs]
      · cases s <;> cases l <;> simp [MultiEraOutput.asBabbage, MultiEraOutput.scriptLanguage, hs, scriptRefLanguage,
          Language.toConway]
  | byron | alonzoCompatible | conway => simp [MultiEraOutput.asBabbage]

theorem txLanguages_eq (h : ∀ i ∈ mtx.transactionBody.inner.referenceInputs.getD [], ∀ o,
    utxos (.alonzoCompatible i) ≠ some (.conway o)) : txLanguages mtx utxos = usedLanguages mtx utxos := by
  classical
  refine List.filter_congr fun l _ => ?_
  rw [Bool.eq_iff_iff, decide_eq_true_iff, Bool.or_eq_true, List.contains_iff_mem, List.mem_filterMap]
  constructor
  · rintro (hwits | ⟨i, hi, hlang⟩)
    · cases l with
      | plutusV1 =>
        obtain ⟨s, hs⟩ := List.exists_mem_of_ne_nil _ (by simpa using hwits)
        exact .plutusV1 hs
      | plutusV2 =>
        obtain ⟨s, hs⟩ := List.exists_mem_of_ne_nil _ (by simpa using hwits)
        exact .plutusV2 hs
    · obtain ⟨o, ho, hl⟩ := referenceLanguage_eq_some.1 hlang
      exact .reference hi ho hl
  · rintro (hs | hs | @⟨i, o, _, hi, ho, hl⟩)
    · exact .inl (by simpa using List.ne_nil_of_mem hs)
    · exact .inl (by simpa using List.ne_nil_of_mem hs)
    · cases o with
      | babbage o => exact .inr ⟨i, hi, referenceLanguage_eq_some.2 ⟨o, ho, hl⟩⟩
      | conway o => exact absurd ho (h i hi o)
      | byron | alonzoCompatible => cases hl

end Languages

/-! ### The commitment -/

section Commitment
variable {ε : Type} {m : MinicborDerive ε} {hm : m.toMinicborValues.Lawful} {wits : WitnessSet}

/-- The bytes to commit to: the redeemers as they came, or an empty array, the datums as they came, and the language views. -/
def Carried.preimage (self : Carried hm wits) (views : Bytes) : Bytes :=
  self.redeemer.getD [0x80] ++ (if (wits.plutusData.getD []).isEmpty then [] else self.plutusData.getD []) ++ views

/-- The redeemers and the datums written out again. -/
def rewrite (definite : Bool) (plutusData : List PlutusData) (redeemers : List Redeemer) (views : Bytes) : Bytes :=
  encodeRedeemers redeemers ++ (if plutusData.isEmpty then []
    else encodeArray definite plutusData.length (plutusData.flatMap PlutusData.encode)) ++ views

/-- Bytes of which the hash is accepted: those of a witness set with both fields, written out again in one of the two forms. -/
def Rewritten (wits : WitnessSet) (views bytes : Bytes) : Prop :=
  ∃ rs ds definite, wits.redeemer = some rs ∧ wits.plutusData = some ds ∧
    bytes = rewrite definite (ds.map KeepRaw.inner) rs views

/-- The fields are both there and in forms that the encoder gives, and the check has the right language views. -/
def Carried.InForm (self : Carried hm wits) (views found : Bytes) : Prop :=
  (∃ raw, self.redeemer = some raw ∧ RedeemersForm raw) ∧
    (∃ raw, self.plutusData = some raw ∧ (wits.plutusData.getD [] = [] ∨ DatumsForm raw)) ∧ views = found

theorem length_le_encodeArray (definite : Bool) (n : ℕ) (items : Bytes) :
    items.length ≤ (encodeArray definite n items).length := by
  cases definite with
  | true => exact (List.suffix_append _ _).length_le
  | false =>
    show items.length ≤ (Cbor.beginArray ++ items ++ Cbor.endIndef).length
    rw [List.length_append, List.length_append]
    omega

/-- Fields are written out again as they came exactly if they came in a form that the encoder gives. -/
theorem rewrite_iff {raw raw' views found : Bytes} {rs : List Redeemer} {ds : List (KeepRaw PlutusData)}
    (h : (decodeRedeemers hm).Takes raw rs) (h' : (decodeDatums hm).Takes raw' (ds.map kept))
    (hfits : (raw ++ (if ds.isEmpty then [] else raw') ++ views).length < 2 ^ 63) :
    (∃ definite, raw ++ (if ds.isEmpty then [] else raw') ++ views = rewrite definite (ds.map KeepRaw.inner) rs found) ↔
      RedeemersForm raw ∧ (ds = [] ∨ DatumsForm raw') ∧ views = found := by
  constructor
  · rintro ⟨definite, heq⟩
    rw [heq] at hfits
    unfold rewrite at heq hfits
    rw [List.length_append, List.length_append] at hfits
    rw [List.append_assoc, List.append_assoc] at heq
    have hheld := held_redeemers hm h (by omega)
    obtain ⟨-, hraw, htail⟩ := h.unique (redeemers_inverts hm hheld (by omega)) heq
    refine ⟨⟨rs, hheld, hraw⟩, ?_⟩
    cases ds with
    | nil => exact ⟨.inl rfl, htail⟩
    | cons d ds =>
      have hwritten : ((d :: ds).map KeepRaw.inner).isEmpty = false := rfl
      simp only [hwritten, Bool.false_eq_true, if_false] at hfits
      have hlong := length_le_encodeArray definite ((d :: ds).map KeepRaw.inner).length
        (((d :: ds).map KeepRaw.inner).flatMap PlutusData.encode)
      have hheld' := held_datums hm h' (by omega)
      obtain ⟨-, hraw', hviews⟩ := h'.unique (datums_inverts hm hheld' definite (by omega)) htail
      exact ⟨.inr ⟨definite, _, hheld', hraw'⟩, hviews⟩
  · rintro ⟨⟨rs', hheld, rfl⟩, hdatums, rfl⟩
    rw [List.length_append, List.length_append] at hfits
    obtain rfl := Reader.Takes.value_unique (redeemers_inverts hm hheld (by omega)) h
    cases ds with
    | nil => exact ⟨true, rfl⟩
    | cons d ds =>
      obtain ⟨definite, data, hheld', rfl⟩ := hdatums.resolve_left (List.cons_ne_nil d ds)
      simp only [List.isEmpty_cons, Bool.false_eq_true, if_false] at hfits
      have hsame := Reader.Takes.value_unique (datums_inverts hm hheld' definite (by omega)) h'
      have hdata : data = (d :: ds).map KeepRaw.inner := by
        simpa [kept, Function.comp_def] using congrArg (List.map Keep.KeepRaw.inner) hsame
      exact ⟨definite, by rw [hdata]; rfl⟩

theorem Carried.rewritten_iff (self : Carried hm wits) {views found : Bytes}
    (hfits : (self.preimage views).length < 2 ^ 63) :
    Rewritten wits found (self.preimage views) ↔ self.InForm views found := by
  have hredeemer := self.redeemer_takes
  have hdatums := self.plutusData_takes
  unfold Carried.preimage at hfits ⊢
  unfold Rewritten Carried.InForm
  generalize self.redeemer = redeemer at *
  generalize self.plutusData = plutusData at *
  generalize wits.redeemer = rs at *
  generalize wits.plutusData = ds at *
  cases hredeemer with
  | none => simp
  | some htakes =>
    cases hdatums with
    | none => simp
    | some htakes' => simpa using rewrite_iff htakes htakes' hfits

end Commitment

/-! ### The check -/

section Check
variable (c : Crypto) (mtx : Tx) (utxos : UTxOs) (networkMagic : UInt32) (networkId : UInt8) (slot : UInt64)

/-- The language views of the languages that the transaction uses. -/
noncomputable def usedViews : Bytes := babbageCostModelCbor (usedLanguages mtx utxos) networkMagic networkId slot

/-- The language views of the languages that the check finds. -/
def foundViews : Bytes := babbageCostModelCbor (txLanguages mtx utxos) networkMagic networkId slot

variable {ε : Type} {m : MinicborDerive ε} {hm : m.toMinicborValues.Lawful}
  (carried : Carried hm mtx.transactionWitnessSet.inner)

/-- The body commits to what the witness set carries, if there is anything. -/
def Commits : Prop :=
  match mtx.transactionBody.inner.scriptDataHash with
  | none => mtx.transactionWitnessSet.inner.redeemer.getD [] = [] ∧ mtx.transactionWitnessSet.inner.plutusData.getD [] = []
  | some hash => hash = c.blake2b256 (carried.preimage (usedViews mtx utxos networkMagic networkId slot))

/-- A hash of what was carried is over both fields, in a form that the encoder gives, with the views of the languages that the check
finds. Another hash is not that of the fields written out again. -/
def CommitmentHolds : Prop :=
  match mtx.transactionBody.inner.scriptDataHash with
  | none => True
  | some hash =>
    if hash = c.blake2b256 (carried.preimage (usedViews mtx utxos networkMagic networkId slot)) then
      carried.InForm (usedViews mtx utxos networkMagic networkId slot) (foundViews mtx utxos networkMagic networkId slot)
    else ∀ bytes, Rewritten mtx.transactionWitnessSet.inner (foundViews mtx utxos networkMagic networkId slot) bytes →
      hash ≠ c.blake2b256 bytes

/-- The strings that are hashed, here and there. -/
def Hashed (bytes : Bytes) : Prop := bytes = carried.preimage (usedViews mtx utxos networkMagic networkId slot) ∨
  Rewritten mtx.transactionWitnessSet.inner (foundViews mtx utxos networkMagic networkId slot) bytes

variable {c mtx utxos networkMagic networkId slot}

theorem check_none (h : mtx.transactionBody.inner.scriptDataHash = none) :
    checkScriptDataHash c mtx utxos networkMagic networkId slot = .ok () ↔
      mtx.transactionWitnessSet.inner.redeemer.getD [] = [] ∧ mtx.transactionWitnessSet.inner.plutusData.getD [] = [] := by
  unfold checkScriptDataHash
  simp only [h, check, Outcome.ensure_eq_ok, Bool.and_eq_true, List.isEmpty_iff]
  exact And.comm

theorem check_some {hash : Hash 32} (h : mtx.transactionBody.inner.scriptDataHash = some hash) :
    checkScriptDataHash c mtx utxos networkMagic networkId slot = .ok () ↔
      ∃ bytes, Rewritten mtx.transactionWitnessSet.inner (foundViews mtx utxos networkMagic networkId slot) bytes ∧
        hash = c.blake2b256 bytes := by
  unfold checkScriptDataHash Rewritten
  rcases hd : mtx.transactionWitnessSet.inner.plutusData with _ | ds
  · simp [h, hd]
  rcases hr : mtx.transactionWitnessSet.inner.redeemer with _ | rs
  · simp [h, hd, hr]
  have hhash : ∀ definite, computeScriptIntegrityHash c definite (ds.map KeepRaw.inner) rs
      (babbageCostModelCbor (txLanguages mtx utxos) networkMagic networkId slot) =
        c.blake2b256 (rewrite definite (ds.map KeepRaw.inner) rs (foundViews mtx utxos networkMagic networkId slot)) :=
    fun _ => rfl
  simp only [h, hd, hr, check, Outcome.ensure_eq_ok, Bool.or_eq_true, beq_iff_eq, hhash, Option.some.injEq]
  constructor
  · rintro (heq | heq)
    · exact ⟨_, ⟨rs, ds, false, rfl, rfl, rfl⟩, heq⟩
    · exact ⟨_, ⟨rs, ds, true, rfl, rfl, rfl⟩, heq⟩
  · rintro ⟨_, ⟨_, _, definite, rfl, rfl, rfl⟩, heq⟩
    cases definite with
    | false => exact .inl heq
    | true => exact .inr heq

variable (c mtx utxos networkMagic networkId slot)

/-- A transaction is judged by the bytes that it carries exactly if its hash is that of these bytes in a form that the encoder gives,
or that of neither. -/
theorem checkScriptDataHash_iff
    (hfits : (carried.preimage (usedViews mtx utxos networkMagic networkId slot)).length < 2 ^ 63)
    (hinj : Set.InjOn c.blake2b256 {bytes | Hashed mtx utxos networkMagic networkId slot carried bytes}) :
    (checkScriptDataHash c mtx utxos networkMagic networkId slot = .ok () ↔
      Commits c mtx utxos networkMagic networkId slot carried) ↔
        CommitmentHolds c mtx utxos networkMagic networkId slot carried := by
  unfold Commits CommitmentHolds
  cases h : mtx.transactionBody.inner.scriptDataHash with
  | none => exact iff_of_true (check_none h) True.intro
  | some hash =>
    simp only [check_some h]
    split_ifs with hcarried
    · rw [iff_true_right hcarried, ← carried.rewritten_iff hfits]
      constructor
      · rintro ⟨bytes, hbytes, heq⟩
        rwa [← hinj (.inr hbytes) (.inl rfl) (heq.symm.trans hcarried)]
      · exact fun hwritten => ⟨_, hwritten, hcarried⟩
    · rw [iff_false_right hcarried, not_exists]
      exact forall_congr' fun bytes => not_and

end Check

/-! ### A script that is run with an inline datum, and one whose datum is in the witness set -/

/-- A hash that shows the ninth byte. -/
def ninthByte : Crypto := ⟨fun _ => 0, fun bs => BitVec.ofNat _ (bs.getD 8 0).toNat, id, fun _ _ _ => true⟩

/-- Spends the first input with the number one. -/
def oneRedeemer : Redeemer := ⟨.spend, 0, .bigInt (.int 1), ⟨1, 2⟩⟩

def oneRedeemerBytes : Bytes := [0x81, 0x84, 0x00, 0x00, 0x01, 0x82, 0x01, 0x02]

def oneDatum : KeepRaw PlutusData := ⟨[0x01], .bigInt (.int 1), by decide⟩

/-- The language view of PlutusV2 on the main network. -/
def mainnetViews : Bytes := babbageCostModelCbor [.plutusV2] 764824073 1 90000000

/-- The hash of the redeemer, of the datums and of the language view. -/
def committed (datumBytes : Bytes) : Hash 32 := ninthByte.blake2b256 (oneRedeemerBytes ++ datumBytes ++ mainnetViews)

/-- A transaction that spends an input with a script of the second version. -/
def spendingTx (datums : Option (List (KeepRaw PlutusData))) (hash : Hash 32) : Tx where
  transactionBody := ⟨[0xa4], { inputs := [⟨0, 0⟩], outputs := [], fee := 0, scriptDataHash := some hash }, by decide⟩
  transactionWitnessSet := ⟨[0xa3],
    { plutusData := datums, redeemer := some [oneRedeemer], plutusV2Script := some [⟨[]⟩] }, by decide⟩
  success := true
  auxiliaryData := .null

/-- Its datum is in the witness set. -/
def witnessedTx : Tx := spendingTx (some [oneDatum]) (committed [0x81, 0x01])

/-- Its datum is in the output, and there is none in the witness set. -/
def inlineTx : Tx := spendingTx none (committed [])

/-- The output of the input, at the script's address. -/
def datumOutput (datum : DatumOption) : UTxOs := fun _ => some <| .babbage <| .postAlonzo
  { address := 0x71 :: List.replicate 28 0, value := .coin 2, datumOption := some datum, scriptRef := none }

theorem referenceDerive_lawful : Conway.referenceDerive.toMinicborValues.Lawful := MinicborValues.reference_lawful

theorem oneRedeemer_held : Held ([oneRedeemer].map Redeemer.data) := Conway.oneRedeemer_held

theorem oneRedeemer_takes : (decodeRedeemers referenceDerive_lawful).Takes oneRedeemerBytes [oneRedeemer] :=
  redeemers_inverts referenceDerive_lawful oneRedeemer_held (by decide)

theorem oneDatum_takes : (decodeDatums referenceDerive_lawful).Takes [0x81, 0x01] ([oneDatum].map kept) :=
  datums_inverts referenceDerive_lawful oneRedeemer_held true (by decide)

def inlineCarried : Carried referenceDerive_lawful inlineTx.transactionWitnessSet.inner :=
  ⟨some oneRedeemerBytes, none, .some oneRedeemer_takes, .none⟩

def witnessedCarried : Carried referenceDerive_lawful witnessedTx.transactionWitnessSet.inner :=
  ⟨some oneRedeemerBytes, some [0x81, 0x01], .some oneRedeemer_takes, .some oneDatum_takes⟩

theorem usedViews_spendingTx (datums : Option (List (KeepRaw PlutusData))) (hash : Hash 32) (utxos : UTxOs) :
    usedViews (spendingTx datums hash) utxos 764824073 1 90000000 = mainnetViews := by
  rw [usedViews, ← txLanguages_eq fun i hi => absurd hi List.not_mem_nil]
  rfl

/-- The datum of the witness set is in one of the forms that are tried. -/
theorem witnessedTx_committed :
    checkScriptDataHash ninthByte witnessedTx (datumOutput (.hash 0)) 764824073 1 90000000 = .ok () ↔
      Commits ninthByte witnessedTx (datumOutput (.hash 0)) 764824073 1 90000000 witnessedCarried := by
  have hviews : usedViews witnessedTx (datumOutput (.hash 0)) 764824073 1 90000000 = mainnetViews :=
    usedViews_spendingTx _ _ _
  have hpreimage : witnessedCarried.preimage mainnetViews = rewrite true [oneDatum.inner] [oneRedeemer] mainnetViews := rfl
  refine (checkScriptDataHash_iff ninthByte _ (datumOutput (.hash 0)) 764824073 1 90000000 witnessedCarried ?_ ?_).2 ?_
  · rw [hviews]
    decide +kernel
  · have hform : ∀ bytes, Hashed witnessedTx (datumOutput (.hash 0)) 764824073 1 90000000 witnessedCarried bytes →
        ∃ definite, bytes = rewrite definite [oneDatum.inner] [oneRedeemer] mainnetViews := by
      rintro bytes (rfl | ⟨_, _, definite, ⟨⟩, ⟨⟩, rfl⟩)
      · rw [hviews]
        exact ⟨true, hpreimage⟩
      · exact ⟨definite, rfl⟩
    intro bytes hbytes bytes' hbytes' heq
    obtain ⟨definite, rfl⟩ := hform bytes hbytes
    obtain ⟨definite', rfl⟩ := hform bytes' hbytes'
    cases definite <;> cases definite' <;> first | rfl | exact absurd heq (by decide)
  · have hhash : committed [0x81, 0x01] = ninthByte.blake2b256 (witnessedCarried.preimage mainnetViews) := rfl
    unfold CommitmentHolds
    rw [hviews]
    show if committed [0x81, 0x01] = ninthByte.blake2b256 (witnessedCarried.preimage mainnetViews) then _ else _
    rw [if_pos hhash]
    exact ⟨⟨_, rfl, _, oneRedeemer_held, rfl⟩, ⟨_, rfl, .inr ⟨true, _, oneRedeemer_held, rfl⟩⟩, rfl⟩

/-- A script with an inline datum is run without datums in the witness set, and its transaction is rejected. -/
theorem inlineDatum_rejected : ¬ ∀ (c : Crypto) (mtx : Tx) (utxos : UTxOs) (networkMagic : UInt32) (networkId : UInt8)
    (slot : UInt64) (carried : Carried referenceDerive_lawful mtx.transactionWitnessSet.inner),
    Set.InjOn c.blake2b256 {bytes | Hashed mtx utxos networkMagic networkId slot carried bytes} →
      (checkScriptDataHash c mtx utxos networkMagic networkId slot = .ok () ↔
        Commits c mtx utxos networkMagic networkId slot carried) := by
  intro h
  have hviews : usedViews inlineTx (datumOutput (.data oneDatum)) 764824073 1 90000000 = mainnetViews :=
    usedViews_spendingTx _ _ _
  have hinj : Set.InjOn ninthByte.blake2b256
      {bytes | Hashed inlineTx (datumOutput (.data oneDatum)) 764824073 1 90000000 inlineCarried bytes} := by
    rintro bytes (rfl | ⟨_, _, _, _, ⟨⟩, _⟩) bytes' (rfl | ⟨_, _, _, _, ⟨⟩, _⟩) _
    rfl
  have hcommits : Commits ninthByte inlineTx (datumOutput (.data oneDatum)) 764824073 1 90000000 inlineCarried := by
    show _ = ninthByte.blake2b256 (inlineCarried.preimage _)
    rw [hviews]
    rfl
  obtain ⟨_, ⟨_, _, _, _, ⟨⟩, _⟩, _⟩ := (check_some rfl).1 ((h _ _ _ _ _ _ _ hinj).2 hcommits)

end Babbage
end Pallas
