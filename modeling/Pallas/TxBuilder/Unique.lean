import Pallas.TxBuilder.Building

/-!
# What the bytes of a transaction say about its parts

No data item begins another one, so a list of items can be read off its bytes (`encodeVec_append_inj`), and so can the fields
of a record (`encodeFields_inj`). A record of which each field is as long as that of another one is as long as the other one
(`encodeFields_length`). So two transactions of which the bodies differ in hashes only have the same witness sets, item by item,
if they have the same bytes.
-/

namespace Pallas
open Cbor Cbor.Decoder

/-! ### Items -/

section Items
variable {r r' : Bytes}

theorem head_append_inj {major n n' : ℕ} (hmajor : major < 8) (hn : n < 2 ^ 64) (hn' : n' < 2 ^ 64)
    (h : head major n ++ r = head major n' ++ r') : n = n' ∧ r = r' := by
  have hread : header major (head major n ++ r) = some (some n, r) := header_head hmajor hn
  rw [h, header_head hmajor hn'] at hread
  cases hread
  exact ⟨rfl, rfl⟩

theorem bytes_append_inj {s s' : Bytes} (hs : s.length < 2 ^ 64) (hs' : s'.length < 2 ^ 64)
    (h : Cbor.bytes s ++ r = Cbor.bytes s' ++ r') : s = s' ∧ r = r' := by
  rw [Cbor.bytes, Cbor.bytes, List.append_assoc, List.append_assoc] at h
  obtain ⟨hlen, h⟩ := head_append_inj (by omega) hs hs' h
  exact List.append_inj h hlen

/-- Items of which none begins another one: a list of them can be read off its bytes. -/
def Distinct {α : Type} (encode : α → Bytes) (P : α → Prop) : Prop :=
  ∀ x y, P x → P y → ∀ r r', encode x ++ r = encode y ++ r' → x = y ∧ r = r'

theorem flatten_append_inj {α : Type} {encode : α → Bytes} {P : α → Prop} (hinj : Distinct encode P) {xs ys : List α}
    (hlen : xs.length = ys.length) (hxs : ∀ x ∈ xs, P x) (hys : ∀ y ∈ ys, P y)
    (h : (xs.map encode).flatten ++ r = (ys.map encode).flatten ++ r') : xs = ys ∧ r = r' := by
  induction xs generalizing ys with
  | nil =>
    obtain rfl : ys = [] := List.length_eq_zero_iff.1 hlen.symm
    exact ⟨rfl, h⟩
  | cons x xs ih =>
    rcases ys with _ | ⟨y, ys⟩
    · cases hlen
    simp only [List.map_cons, List.flatten_cons, List.append_assoc] at h
    obtain ⟨rfl, htail⟩ := hinj x y (hxs x List.mem_cons_self) (hys y List.mem_cons_self) _ _ h
    obtain ⟨rfl, hr⟩ := ih (Nat.succ.inj hlen) (fun z hz => hxs z (List.mem_cons_of_mem _ hz))
      (fun z hz => hys z (List.mem_cons_of_mem _ hz)) htail
    exact ⟨rfl, hr⟩

theorem encodeVec_append_inj {α : Type} {encode : α → Bytes} {P : α → Prop} (hinj : Distinct encode P) {xs ys : List α}
    (hxs : ∀ x ∈ xs, P x) (hys : ∀ y ∈ ys, P y) (hx : xs.length < 2 ^ 64) (hy : ys.length < 2 ^ 64)
    (h : encodeVec (xs.map encode) ++ r = encodeVec (ys.map encode) ++ r') : xs = ys ∧ r = r' := by
  rw [encodeVec, encodeVec, List.append_assoc, List.append_assoc, List.length_map, List.length_map] at h
  obtain ⟨hlen, h⟩ := head_append_inj (by omega) hx hy h
  exact flatten_append_inj hinj hlen hxs hys h

theorem encodeSet_append_inj {α : Type} {encode : α → Bytes} {P : α → Prop} (hinj : Distinct encode P) {xs ys : List α}
    (hxs : ∀ x ∈ xs, P x) (hys : ∀ y ∈ ys, P y) (hx : xs.length < 2 ^ 64) (hy : ys.length < 2 ^ 64)
    (h : encodeSet (xs.map encode) ++ r = encodeSet (ys.map encode) ++ r') : xs = ys ∧ r = r' := by
  rw [encodeSet, encodeSet, List.append_assoc, List.append_assoc, List.append_cancel_left_eq] at h
  exact encodeVec_append_inj hinj hxs hys hx hy h

end Items

/-! ### Records -/

section Fields
variable {fields fields' : List (ℕ × Option Bytes)}

/-- The same index, and both absent or as long as each other. -/
def SameShape (f f' : ℕ × Option Bytes) : Prop := f.1 = f'.1 ∧ f.2.map List.length = f'.2.map List.length

/-- The fields that are there. -/
def present (fields : List (ℕ × Option Bytes)) :
    List (ℕ × Bytes) := fields.filterMap fun f => f.2.map fun bs => (f.1, bs)

theorem encodeFields_eq (fields : List (ℕ × Option Bytes)) :
    encodeFields fields = Cbor.map (present fields).length ++ (present fields).flatMap
      fun f => Cbor.uint f.1 ++ f.2 := rfl

theorem present_cons (f : ℕ × Option Bytes) (fields : List (ℕ × Option Bytes)) :
    present (f :: fields) = (f.2.map fun bs => (f.1, bs)).toList ++ present fields := by
  obtain ⟨i, o⟩ := f
  cases o <;> rfl

theorem forall₂_present (h : List.Forall₂ SameShape fields fields') :
    List.Forall₂ (fun f f' => f.1 = f'.1 ∧ f.2.length = f'.2.length) (present fields) (present fields') := by
  induction h with
  | nil => exact .nil
  | @cons f f' fs fs' hf _ ih =>
    obtain ⟨i, o⟩ := f
    obtain ⟨i', o'⟩ := f'
    obtain ⟨hi, hlen⟩ := hf
    rw [present_cons, present_cons]
    cases o with
    | none =>
      cases o' with
      | none => exact ih
      | some bs' => simp at hlen
    | some bs =>
      cases o' with
      | none => simp at hlen
      | some bs' => exact .cons ⟨hi, by simpa using hlen⟩ ih

theorem flatMap_fields_length {fs fs' : List (ℕ × Bytes)}
    (h : List.Forall₂ (fun f f' => f.1 = f'.1 ∧ f.2.length = f'.2.length) fs fs') :
    (fs.flatMap fun f => Cbor.uint f.1 ++ f.2).length = (fs'.flatMap fun f => Cbor.uint f.1 ++ f.2).length := by
  induction h with
  | nil => rfl
  | cons hf _ ih =>
    obtain ⟨hi, hlen⟩ := hf
    rw [List.flatMap_cons, List.flatMap_cons, List.length_append, List.length_append, ih, List.length_append,
      List.length_append, hi, hlen]

theorem encodeFields_length (h : List.Forall₂ SameShape fields fields') :
    (encodeFields fields).length = (encodeFields fields').length := by
  have hpresent := forall₂_present h
  rw [encodeFields_eq, encodeFields_eq, List.length_append, List.length_append, hpresent.length_eq,
    flatMap_fields_length hpresent]

/-- The same index, and contents of which neither begins the other one. -/
def Separate (f f' : ℕ × Option Bytes) : Prop :=
  f.1 = f'.1 ∧ ∀ bs ∈ f.2, ∀ bs' ∈ f'.2, ∀ r r', bs ++ r = bs' ++ r' → bs = bs' ∧ r = r'

theorem mem_present {i : ℕ} {bs : Bytes} (h : (i, bs) ∈ present fields) : i ∈ fields.map Prod.fst := by
  obtain ⟨⟨j, o⟩, hf, hbs⟩ := List.mem_filterMap.1 h
  obtain ⟨_, rfl, heq⟩ := Option.map_eq_some_iff.1 hbs
  cases heq
  exact List.mem_map_of_mem hf

theorem index_ne {i : ℕ} {bs : Bytes} {fs fs' : List (ℕ × Bytes)} (hsmall : ∀ f ∈ fs', f.1 < 2 ^ 64) (hi : i < 2 ^ 64)
    (hnot : ∀ f ∈ fs', f.1 ≠ i) (hlen : fs.length + 1 = fs'.length)
    (h : ((i, bs) :: fs).flatMap (fun f => Cbor.uint f.1 ++ f.2) =
      fs'.flatMap fun f => Cbor.uint f.1 ++ f.2) : False := by
  rcases fs' with _ | ⟨⟨j, bs'⟩, fs'⟩
  · cases hlen
  rw [List.flatMap_cons, List.flatMap_cons, List.append_assoc, List.append_assoc] at h
  obtain ⟨rfl, -⟩ := head_append_inj (by omega) hi (hsmall _ List.mem_cons_self) h
  exact hnot _ List.mem_cons_self rfl

theorem present_inj (h : List.Forall₂ Separate fields fields') (hnd : (fields.map Prod.fst).Nodup)
    (hsmall : ∀ f ∈ fields, f.1 < 2 ^ 64) (hlen : (present fields).length = (present fields').length)
    (heq : (present fields).flatMap (fun f => Cbor.uint f.1 ++ f.2) =
      (present fields').flatMap fun f => Cbor.uint f.1 ++ f.2) : fields = fields' := by
  induction h with
  | nil => rfl
  | @cons f f' fs fs' hf hfs ih =>
    obtain ⟨i, o⟩ := f
    obtain ⟨i', o'⟩ := f'
    obtain ⟨hi, hsep⟩ := hf
    obtain rfl : i = i' := hi
    obtain ⟨hi, htails⟩ := List.forall_mem_cons.1 hsmall
    obtain ⟨hnot, htailnd⟩ := List.nodup_cons.1 hnd
    have hindex : fs.map Prod.fst = fs'.map Prod.fst := by
      rw [← List.forall₂_eq_eq_eq, List.forall₂_map_left_iff, List.forall₂_map_right_iff]
      exact hfs.imp fun f f' hf => hf.1
    have hlt : ∀ {gs : List (ℕ × Option Bytes)}, gs.map Prod.fst = fs.map Prod.fst →
        (∀ f ∈ present gs, f.1 < 2 ^ 64) ∧ ∀ f ∈ present gs, f.1 ≠ i := by
      intro gs hgs
      constructor
      · rintro ⟨j, bs⟩ hf
        obtain ⟨g, hg, rfl⟩ := List.mem_map.1 (hgs ▸ mem_present hf)
        exact htails g hg
      · rintro ⟨j, bs⟩ hf rfl
        exact hnot (hgs ▸ mem_present hf)
    rw [present_cons, present_cons] at heq hlen
    cases o with
    | none =>
      cases o' with
      | none => rw [ih htailnd htails hlen heq]
      | some bs' =>
        obtain ⟨hsmall', hne⟩ := hlt rfl
        exact (index_ne hsmall' hi hne (by simpa [add_comm] using hlen.symm) heq.symm).elim
    | some bs =>
      cases o' with
      | none =>
        obtain ⟨hsmall', hne⟩ := hlt hindex.symm
        exact (index_ne hsmall' hi hne (by simpa [add_comm] using hlen) heq).elim
      | some bs' =>
        simp only [Option.map_some, Option.toList_some, List.singleton_append, List.flatMap_cons, List.append_assoc,
          List.append_cancel_left_eq] at heq
        obtain ⟨rfl, htail⟩ := hsep bs rfl bs' rfl _ _ heq
        rw [ih htailnd htails (by simpa using hlen) htail]

/-- Records of one kind are told apart by their bytes. -/
theorem encodeFields_inj (h : List.Forall₂ Separate fields fields') (hnd : (fields.map Prod.fst).Nodup)
    (hsmall : ∀ f ∈ fields, f.1 < 2 ^ 64) (hcount : fields.length < 2 ^ 64)
    (heq : encodeFields fields = encodeFields fields') : fields = fields' := by
  have hle : ∀ gs : List (ℕ × Option Bytes), gs.length = fields.length → (present gs).length < 2 ^ 64 := fun gs hgs =>
    (List.length_filterMap_le _ _).trans_lt (hgs ▸ hcount)
  rw [encodeFields_eq, encodeFields_eq] at heq
  obtain ⟨hlen, heq⟩ := head_append_inj (by omega) (hle fields rfl) (hle fields' h.length_eq.symm) heq
  exact present_inj h hnd hsmall hlen heq

end Fields

/-! ### What is decoded and written out -/

namespace TxBuilder
open Outcome Conway
variable {ε : Type} {p : Platform ε} {bs bs' r r' : Bytes}

theorem plutusData_append_inj {x x' : PlutusData} (h : decodePlutusData p bs = .ok x)
    (h' : decodePlutusData p bs' = .ok x')
    (hbs : bs.length < 2 ^ 63) (hbs' : bs'.length < 2 ^ 63) (heq : x.encode ++ r = x'.encode ++ r') :
    x = x' ∧ r = r' := by
  obtain ⟨rest, h⟩ := decodeFragment_eq_ok.1 h
  obtain ⟨rest', h'⟩ := decodeFragment_eq_ok.1 h'
  have hread := PlutusData.decode_encode_decoded p.lawful.toLawful h hbs r
  rw [heq, PlutusData.decode_encode_decoded p.lawful.toLawful h' hbs' r'] at hread
  cases hread
  exact ⟨rfl, rfl⟩

theorem nativeScript_append_inj {x x' : NativeScript} (h : decodeNativeScript p bs = .ok x)
    (h' : decodeNativeScript p bs' = .ok x') (hbs : bs.length < 2 ^ 63) (hbs' : bs'.length < 2 ^ 63)
    (heq : x.encode ++ r = x'.encode ++ r') : x = x' ∧ r = r' := by
  obtain ⟨rest, h⟩ := decodeFragment_eq_ok.1 h
  obtain ⟨rest', h'⟩ := decodeFragment_eq_ok.1 h'
  have hread := NativeScript.decode_encoded p.lawful (NativeScript.decode_fits p.lawful h hbs) () r
  rw [heq, NativeScript.decode_encoded p.lawful (NativeScript.decode_fits p.lawful h' hbs') () r'] at hread
  cases hread
  exact ⟨rfl, rfl⟩

/-- One redeemer of a list. -/
def encodeRedeemer (x : Redeemer) : Bytes :=
  Cbor.array 4 ++ Cbor.uint x.tag.index ++ Cbor.uint x.index.toNat ++ x.data.encode ++ encodeExUnits x.exUnits

theorem encodeRedeemers_list (redeemers : List Redeemer) :
    encodeRedeemers (.list redeemers) = encodeVec (redeemers.map encodeRedeemer) := by
  rw [encodeVec, List.length_map, ← List.flatMap_def]
  rfl

theorem exUnits_append_inj {u u' : ExUnits} (h : encodeExUnits u ++ r = encodeExUnits u' ++ r') : u = u' ∧ r = r' := by
  obtain ⟨mem, steps⟩ := u
  obtain ⟨mem', steps'⟩ := u'
  simp only [encodeExUnits, List.append_assoc, List.append_cancel_left_eq] at h
  obtain ⟨hmem, h⟩ := head_append_inj (by omega) mem.toNat_lt mem'.toNat_lt h
  obtain ⟨hsteps, htail⟩ := head_append_inj (by omega) steps.toNat_lt steps'.toNat_lt h
  rw [UInt64.toNat_inj.1 hmem, UInt64.toNat_inj.1 hsteps]
  exact ⟨rfl, htail⟩

theorem redeemer_append_inj {x x' : Redeemer} (h : decodePlutusData p bs = .ok x.data)
    (h' : decodePlutusData p bs' = .ok x'.data)
    (hbs : bs.length < 2 ^ 63) (hbs' : bs'.length < 2 ^ 63) (heq : encodeRedeemer x ++ r = encodeRedeemer x' ++ r') :
    x = x' ∧ r = r' := by
  obtain ⟨tag, index, data, exUnits⟩ := x
  obtain ⟨tag', index', data', exUnits'⟩ := x'
  simp only [encodeRedeemer, List.append_assoc, List.append_cancel_left_eq] at heq
  have hsmall : ∀ t : RedeemerTag, t.index < 2 ^ 64 := fun t => by cases t <;> decide
  have htag : ∀ t t' : RedeemerTag, t.index = t'.index → t = t' := fun t t' => by cases t <;> cases t' <;> decide
  obtain ⟨hindex, heq⟩ := head_append_inj (by omega) (hsmall tag) (hsmall tag') heq
  obtain ⟨hptr, heq⟩ := head_append_inj (by omega) (by have := index.toNat_lt; omega) (by have := index'.toNat_lt; omega) heq
  obtain ⟨hdata, htail⟩ := plutusData_append_inj h h' hbs hbs' heq
  have hdata' : data = data' := hdata
  obtain ⟨hunits, htail⟩ := exUnits_append_inj htail
  rw [htag _ _ hindex, UInt32.toNat_inj.1 hptr, hdata', hunits]
  exact ⟨rfl, htail⟩

/-! ### Witness sets -/

/-- A set of witnesses, if there are any. -/
def setField {α : Type} (encode : α → Bytes) (xs : List α) : Option Bytes :=
  if xs.isEmpty then none else some (encodeSet (xs.map encode))

def redeemersField (redeemers : List Redeemer) : Option Bytes :=
  if redeemers.isEmpty then none else some (encodeVec (redeemers.map encodeRedeemer))

theorem map_nonEmptySet {α β : Type} (f : α → β) (g : β → Bytes) (xs : List α) :
    (nonEmptySet (xs.map f)).map (fun ys => encodeSet (ys.map g)) = setField (fun x => g (f x)) xs := by
  cases xs with
  | nil => rfl
  | cons x xs =>
    simp only [nonEmptySet, setField, List.isEmpty_cons, List.map_cons, List.map_map, Bool.false_eq_true, if_false,
      Option.map_some]
    rfl

theorem witnessFields_build (scripts : Scripts) (plutusData : List PlutusData) (redeemers : List Redeemer) :
    witnessFields (buildWitnessSet scripts plutusData redeemers) =
      [(0, none), (1, setField NativeScript.encode scripts.native),
      (3, setField Cbor.bytes scripts.plutusV1), (4, setField PlutusData.encode plutusData),
        (5, redeemersField redeemers),
      (6, setField Cbor.bytes scripts.plutusV2), (7, setField Cbor.bytes scripts.plutusV3)] := by
  have hdata : (buildDatums plutusData).map KeepRaw.rawCbor = setField PlutusData.encode plutusData := by
    rw [buildDatums, Option.map_map]
    exact map_nonEmptySet PlutusData.fresh KeepRaw.rawCbor plutusData
  have hredeemers : (buildRedeemers redeemers).map KeepRaw.rawCbor = redeemersField redeemers := by
    rw [buildRedeemers, redeemersField]
    split
    · rfl
    · exact congrArg some (encodeRedeemers_list redeemers)
  simp only [witnessFields, buildWitnessSet, Option.map_none, map_nonEmptySet, hdata, hredeemers]
  rfl

section Sets
variable {α : Type} {encode : α → Bytes} {P : α → Prop} {xs ys : List α}

theorem setField_separate (hinj : Distinct encode P) (hxs : ∀ x ∈ xs, P x) (hys : ∀ y ∈ ys, P y)
    (hx : xs.length < 2 ^ 64)
    (hy : ys.length < 2 ^ 64) (i : ℕ) : Separate (i, setField encode xs) (i, setField encode ys) := by
  refine ⟨rfl, fun bs hbs bs' hbs' r r' h => ?_⟩
  simp only [setField, Option.mem_ite_none_left, Option.mem_some_iff] at hbs hbs'
  obtain ⟨-, rfl⟩ := hbs
  obtain ⟨-, rfl⟩ := hbs'
  obtain ⟨rfl, hr⟩ := encodeSet_append_inj hinj hxs hys hx hy h
  exact ⟨rfl, hr⟩

theorem setField_inj (hinj : Distinct encode P) (hxs : ∀ x ∈ xs, P x) (hys : ∀ y ∈ ys, P y) (hx : xs.length < 2 ^ 64)
    (hy : ys.length < 2 ^ 64) (h : setField encode xs = setField encode ys) : xs = ys := by
  rcases xs with _ | ⟨x, xs⟩
  · rcases ys with _ | ⟨y, ys⟩
    · rfl
    · simp [setField] at h
  · rcases ys with _ | ⟨y, ys⟩
    · simp [setField] at h
    · have hset : encodeSet ((x :: xs).map encode) = encodeSet ((y :: ys).map encode) := by simpa [setField] using h
      rw [← List.append_nil (encodeSet _), ← List.append_nil (encodeSet (List.map encode (y :: ys)))] at hset
      exact (encodeSet_append_inj hinj hxs hys hx hy hset).1

end Sets

/-- Scripts, datums and redeemers that were decoded from bytes as long as a vector can be, and that are not too many. -/
structure Parts.Readable (p : Platform ε) (x : Parts) : Prop where
  native : ∀ n ∈ x.scripts.native, ∃ bs, bs.length < 2 ^ 63 ∧ decodeNativeScript p bs = .ok n
  plutusV1 : ∀ bs ∈ x.scripts.plutusV1, bs.length < 2 ^ 64
  plutusV2 : ∀ bs ∈ x.scripts.plutusV2, bs.length < 2 ^ 64
  plutusV3 : ∀ bs ∈ x.scripts.plutusV3, bs.length < 2 ^ 64
  plutusData : ∀ d ∈ x.plutusData, ∃ bs, bs.length < 2 ^ 63 ∧ decodePlutusData p bs = .ok d
  redeemers : ∀ rdmr ∈ x.redeemers, ∃ bs, bs.length < 2 ^ 63 ∧ decodePlutusData p bs = .ok rdmr.data
  sizes : x.scripts.native.length < 2 ^ 64 ∧ x.scripts.plutusV1.length < 2 ^ 64 ∧ x.scripts.plutusV2.length < 2 ^ 64 ∧
    x.scripts.plutusV3.length < 2 ^ 64 ∧ x.plutusData.length < 2 ^ 64 ∧ x.redeemers.length < 2 ^ 64

theorem distinct_native :
    Distinct NativeScript.encode fun n => ∃ bs, bs.length < 2 ^ 63 ∧ decodeNativeScript p bs = .ok n := by
  rintro x y ⟨bs, hbs, hx⟩ ⟨bs', hbs', hy⟩ r r' h
  exact nativeScript_append_inj hx hy hbs hbs' h

theorem distinct_data : Distinct PlutusData.encode fun d => ∃ bs, bs.length < 2 ^ 63 ∧
    decodePlutusData p bs = .ok d := by
  rintro x y ⟨bs, hbs, hx⟩ ⟨bs', hbs', hy⟩ r r' h
  exact plutusData_append_inj hx hy hbs hbs' h

theorem distinct_redeemer :
    Distinct encodeRedeemer fun rdmr => ∃ bs, bs.length < 2 ^ 63 ∧ decodePlutusData p bs = .ok rdmr.data := by
  rintro x y ⟨bs, hbs, hx⟩ ⟨bs', hbs', hy⟩ r r' h
  exact redeemer_append_inj hx hy hbs hbs' h

theorem distinct_bytes : Distinct Cbor.bytes fun bs => bs.length < 2 ^ 64 :=
  fun _ _ hx hy _ _ h => bytes_append_inj hx hy h

/-- The witness set of these parts. -/
def Parts.witnessSet (x : Parts) : WitnessSet := buildWitnessSet x.scripts x.plutusData x.redeemers

theorem witnessSet_inj {x y : Parts} (hx : x.Readable p) (hy : y.Readable p)
    (h : encodeWitnessSet x.witnessSet = encodeWitnessSet y.witnessSet) :
    x.scripts = y.scripts ∧ x.plutusData = y.plutusData ∧ x.redeemers = y.redeemers := by
  obtain ⟨hxn, hx1, hx2, hx3, hxd, hxr, hxn', hx1', hx2', hx3', hxd', hxr'⟩ := hx
  obtain ⟨hyn, hy1, hy2, hy3, hyd, hyr, hyn', hy1', hy2', hy3', hyd', hyr'⟩ := hy
  have hrsep : Separate (5, redeemersField x.redeemers) (5, redeemersField y.redeemers) := by
    refine ⟨rfl, fun bs hbs bs' hbs' r r' h => ?_⟩
    simp only [redeemersField, Option.mem_ite_none_left, Option.mem_some_iff] at hbs hbs'
    obtain ⟨-, rfl⟩ := hbs
    obtain ⟨-, rfl⟩ := hbs'
    obtain ⟨heq, hr⟩ := encodeVec_append_inj distinct_redeemer hxr hyr hxr' hyr' h
    exact ⟨by rw [heq], hr⟩
  have hnone : Separate (0, none) (0, none) := ⟨rfl, by simp⟩
  rw [encodeWitnessSet, encodeWitnessSet, Parts.witnessSet, Parts.witnessSet, witnessFields_build,
    witnessFields_build] at h
  have hfields := encodeFields_inj (.cons hnone (.cons (setField_separate distinct_native hxn hyn hxn' hyn' 1)
    (.cons (setField_separate distinct_bytes hx1 hy1 hx1' hy1' 3)
      (.cons (setField_separate distinct_data hxd hyd hxd' hyd' 4)
    (.cons hrsep (.cons (setField_separate distinct_bytes hx2 hy2 hx2' hy2' 6)
    (.cons (setField_separate distinct_bytes hx3 hy3 hx3' hy3' 7) .nil))))))) (by simp) (by simp) (by simp) h
  simp only [List.cons.injEq, Prod.mk.injEq, true_and, and_true] at hfields
  obtain ⟨hn, h1, hd, hr, h2, h3⟩ := hfields
  have hn' := setField_inj distinct_native hxn hyn hxn' hyn' hn
  have h1' := setField_inj distinct_bytes hx1 hy1 hx1' hy1' h1
  have h2' := setField_inj distinct_bytes hx2 hy2 hx2' hy2' h2
  have h3' := setField_inj distinct_bytes hx3 hy3 hx3' hy3' h3
  refine ⟨?_, setField_inj distinct_data hxd hyd hxd' hyd' hd, ?_⟩
  · generalize x.scripts = a at *
    generalize y.scripts = b at *
    cases a
    cases b
    simp_all
  · generalize x.redeemers = a at *
    generalize y.redeemers = b at *
    rcases a with _ | ⟨a, as⟩
    · rcases b with _ | ⟨b, bs⟩
      · rfl
      · simp [redeemersField] at hr
    · rcases b with _ | ⟨b, bs⟩
      · simp [redeemersField] at hr
      · have hvec : encodeVec ((a :: as).map encodeRedeemer) = encodeVec ((b :: bs).map encodeRedeemer) := by
          simpa [redeemersField] using hr
        rw [← List.append_nil (encodeVec _), ← List.append_nil (encodeVec (List.map encodeRedeemer (b :: bs)))] at hvec
        exact (encodeVec_append_inj distinct_redeemer hxr hyr hxr' hyr' hvec).1

end TxBuilder
end Pallas
