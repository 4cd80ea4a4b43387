import Pallas.Validate.NativeWitnesses
import Pallas.Validate.NeededScripts

/-!
# The datums of a Conway transaction

The first walk of `check_datums` marks, for each hash an input asks for, the first witness datum that has it, however
often it is asked for. So what it leaves is known without following it (`marks`): a datum is marked when its hash was
asked for and no datum before it has the same. A repeated datum is never marked, and the second walk does not look at
the inputs again.
-/

namespace Pallas

section
variable {missing : ValidationError} {asked known hs hs' : List (Hash 32)} {hash : Hash 32}

/-- The marks when these hashes have been asked for. -/
def marks : (asked hs : List (Hash 32)) → List (Bool × Hash 32)
  | _, [] => []
  | asked, h :: hs => (asked.contains h, h) :: marks (asked.filter (· ≠ h)) hs

theorem marks_nil (hs : List (Hash 32)) : marks [] hs = hs.map fun h => (false, h) := by
  induction hs with
  | nil => rfl
  | cons h hs ih =>
    rw [marks, List.filter_nil, ih]
    rfl

theorem findDatumHash_marks (asked hs : List (Hash 32)) (hash : Hash 32) : findDatumHash missing hash (marks asked hs) =
    if hash ∈ hs then .ok (marks (hash :: asked) hs) else .err missing := by
  induction hs generalizing asked with
  | nil => rfl
  | cons h hs ih =>
    by_cases heq : hash = h
    · subst heq
      simp [marks, findDatumHash]
    · rw [marks, findDatumHash, if_neg heq, ih]
      by_cases hmem : hash ∈ hs
      · simp [hmem, marks, heq, Ne.symm heq]
      · simp [hmem, heq]

/-- What the walk asks of one input. -/
def answersInput (missing : ValidationError) (datumHash : TransactionInput → Outcome ValidationError (Option (Hash 32)))
    (hs : List (Hash 32)) (input : TransactionInput) : ValidationResult := do
  match ← datumHash input with
  | some hash => check missing (hs.contains hash)
  | none => .ok ()

/-- The hash one input asks for. -/
def askedBy (datumHash : TransactionInput → Outcome ValidationError (Option (Hash 32))) (input : TransactionInput) :
    Option (Hash 32) :=
  match datumHash input with
  | .ok hash => hash
  | _ => none

theorem checkInputDatums_marks {datumHash : TransactionInput → Outcome ValidationError (Option (Hash 32))}
    (inputs : List TransactionInput) (asked hs : List (Hash 32)) :
    checkInputDatums missing datumHash inputs (marks asked hs) =
      Outcome.forEach (answersInput missing datumHash hs) inputs >>= fun _ =>
        .ok (marks ((inputs.filterMap (askedBy datumHash)).reverse ++ asked) hs) := by
  induction inputs generalizing asked with
  | nil => rfl
  | cons input inputs ih =>
    rw [checkInputDatums, Outcome.fold_cons, Outcome.forEach, answersInput]
    rcases hinput : datumHash input with ⟨_ | hash⟩ | e | _
    · have hnone : askedBy datumHash input = none := by rw [askedBy, hinput]
      simpa [hnone, checkInputDatums] using ih asked
    · have hsome : askedBy datumHash input = some hash := by rw [askedBy, hinput]
      simp only [Outcome.ok_bind, findDatumHash_marks]
      by_cases hmem : hash ∈ hs
      · simpa [hmem, hsome, check, Outcome.ensure, checkInputDatums] using ih (hash :: asked)
      · simp [hmem, check, Outcome.ensure]
    · rfl
    · rfl

theorem all_marks_iff : (∀ d ∈ marks asked hs, d.1 = true ∨ d.2 ∈ known) ↔
    (∀ h ∈ hs, h ∈ asked ∨ h ∈ known) ∧ ∀ h, List.Duplicate h hs → h ∈ known := by
  induction hs generalizing asked with
  | nil => simp [marks, List.not_duplicate_nil]
  | cons h hs ih =>
    simp only [marks, List.forall_mem_cons, ih, List.contains_iff_mem, List.mem_filter, decide_eq_true_eq,
      List.duplicate_cons_iff]
    constructor
    · rintro ⟨hfirst, hrest, hrepeat⟩
      refine ⟨⟨hfirst, fun x hx => (hrest x hx).imp_left And.left⟩, ?_⟩
      rintro x (⟨rfl, hx⟩ | hx)
      · rcases hrest _ hx with ⟨-, hne⟩ | hknown
        · exact absurd rfl hne
        · exact hknown
      · exact hrepeat x hx
    · rintro ⟨⟨hfirst, hrest⟩, hrepeat⟩
      refine ⟨hfirst, fun x hx => ?_, fun x hx => hrepeat x (.inr hx)⟩
      by_cases heq : x = h
      · exact .inr (hrepeat x (.inl ⟨heq.symm, heq ▸ hx⟩))
      · exact (hrest x hx).imp_left fun hasked => ⟨hasked, heq⟩

theorem checkRemainingDatums_eq_ok {unneeded : ValidationError} {data : List (Bool × Hash 32)} :
    checkRemainingDatums unneeded known data = .ok () ↔ ∀ d ∈ data, d.1 = true ∨ d.2 ∈ known := by
  rw [checkRemainingDatums, Outcome.forEach_eq_ok]
  refine forall₂_congr fun d _ => ?_
  rcases hd : d.1 <;> simp

/-- The second walk has one way to fail. -/
theorem checkRemainingDatums_eq_err {unneeded : ValidationError} {data : List (Bool × Hash 32)}
    (h : checkRemainingDatums unneeded known data ≠ .ok ()) : checkRemainingDatums unneeded known data = .err unneeded := by
  induction data with
  | nil => exact absurd rfl h
  | cons d data ih =>
    rw [checkRemainingDatums, Outcome.forEach] at h ⊢
    rcases hd : d.1 with _ | _
    · simp only [hd, Bool.false_eq_true, if_false, check, Outcome.ensure] at h ⊢
      by_cases hknown : known.contains d.2 = true
      · simp only [hknown, if_true, Outcome.ok_bind] at h ⊢
        exact ih h
      · simp only [hknown, Bool.false_eq_true, if_false, Outcome.err_bind]
    · simp only [hd, if_true, Outcome.ok_bind] at h ⊢
      exact ih h

end

namespace Conway

/-- The datums of the witness set. -/
def witnessDatums (ds : Option (KeepRaw (List (KeepRaw PlutusData)))) : List (KeepRaw PlutusData) :=
  (ds.map KeepRaw.inner).getD []

section
variable (c : Crypto) (body : TransactionBody) (utxos : UTxOs) (ds : Option (KeepRaw (List (KeepRaw PlutusData))))

def datumHashes : List (Hash 32) := (witnessDatums ds).map fun d => c.blake2b256 d.rawCbor

/-- The output that an input resolves to carries a datum hash. -/
def CarriesHash (i : TransactionInput) (h : Hash 32) : Prop :=
  ∃ o, utxos (.alonzoCompatible i) = some o ∧ o.datum = some (.hash h)

/-- The hash is that of an output, of the collateral return or of a reference input. -/
def KnownHash (h : Hash 32) : Prop :=
  (∃ o ∈ body.outputs, getDatumHash o = some h) ∨ (∃ o ∈ body.collateralReturn, getDatumHash o = some h) ∨
    ∃ inputs ∈ body.referenceInputs, ∃ i ∈ inputs, CarriesHash utxos i h

/-- The inputs find their datums, and every datum is related to a hash. -/
def DatumsRelated : Prop :=
  (∀ i ∈ body.inputs, ∀ h, CarriesHash utxos i h → h ∈ datumHashes c ds) ∧
    ∀ h ∈ datumHashes c ds, (∃ i ∈ body.inputs, CarriesHash utxos i h) ∨ KnownHash body utxos h

/-- What the check should say of a transaction, of the same with its datums in another order, and of the same without
repeated datums. -/
structure DatumsExact : Prop where
  accepts : checkDatums c body utxos ds = .ok () ↔ DatumsRelated c body utxos ds
  order : ∀ ds', (witnessDatums ds').Perm (witnessDatums ds) → checkDatums c body utxos ds' = checkDatums c body utxos ds
  repeats : ∀ ds', (witnessDatums ds').Nodup → (∀ d, d ∈ witnessDatums ds' ↔ d ∈ witnessDatums ds) →
    checkDatums c body utxos ds' = checkDatums c body utxos ds

/-- Every input is there, and a datum that is given twice is known from elsewhere than the inputs. -/
def NoneRepeated : Prop :=
  (∀ i ∈ body.inputs, (utxos (.alonzoCompatible i)).isSome) ∧
    ∀ h, List.Duplicate h (datumHashes c ds) → KnownHash body utxos h

variable {c body utxos ds} {ds' : Option (KeepRaw (List (KeepRaw PlutusData)))}

theorem datum_conway {x : TransactionOutput} {h : Hash 32} :
    (MultiEraOutput.conway x).datum = some (.hash h) ↔ getDatumHash x = some h := by
  rcases x with o | o
  · cases ho : o.datumHash <;> simp [MultiEraOutput.datum, getDatumHash, ho]
  · rcases ho : o.datumOption with _ | ⟨_ | _⟩ <;> simp [MultiEraOutput.datum, getDatumHash, ho]

theorem mem_knownDatumHashes (hconway : ∀ i o, utxos i = some o → ∃ x, o = .conway x) {h : Hash 32} :
    h ∈ knownDatumHashes body utxos ↔ KnownHash body utxos h := by
  have hcarries : ∀ i, ((utxos (.alonzoCompatible i)).bind MultiEraOutput.asConway).bind getDatumHash = some h ↔
      CarriesHash utxos i h := by
    intro i
    rw [CarriesHash]
    rcases ho : utxos (.alonzoCompatible i) with _ | o
    · simp
    · obtain ⟨x, rfl⟩ := hconway _ _ ho
      simp only [Option.bind_some, MultiEraOutput.asConway, Option.some.injEq, exists_eq_left', datum_conway]
  rw [knownDatumHashes, KnownHash, List.mem_append, List.mem_append, or_assoc]
  refine or_congr (by simp) (or_congr ?_ ?_)
  · cases body.collateralReturn <;> simp
  · cases body.referenceInputs <;> simp [hcarries]

theorem askedBy_eq_some {i : TransactionInput} {h : Hash 32} :
    askedBy (inputDatumHash utxos) i = some h ↔ CarriesHash utxos i h := by
  rw [askedBy, inputDatumHash, CarriesHash]
  rcases ho : utxos (.alonzoCompatible i) with _ | o
  · simp [Outcome.ofOption]
  · rcases hd : o.datum with _ | ⟨_ | _⟩ <;> simp [Outcome.ofOption, hd]

theorem answersInput_eq_ok {hs : List (Hash 32)} {i : TransactionInput} :
    answersInput (.postAlonzo .datumMissing) (inputDatumHash utxos) hs i = .ok () ↔
      (utxos (.alonzoCompatible i)).isSome ∧ ∀ h, CarriesHash utxos i h → h ∈ hs := by
  rw [answersInput, inputDatumHash]
  simp only [CarriesHash]
  rcases ho : utxos (.alonzoCompatible i) with _ | o
  · simp [Outcome.ofOption]
  · rcases hd : o.datum with _ | ⟨_ | _⟩ <;> simp [Outcome.ofOption, hd]

/-- The two walks, the marks between them written out. -/
theorem checkDatums_eq : checkDatums c body utxos ds =
    Outcome.forEach (answersInput (.postAlonzo .datumMissing) (inputDatumHash utxos) (datumHashes c ds)) body.inputs >>=
      fun _ => checkRemainingDatums (.postAlonzo .unneededDatum) (knownDatumHashes body utxos)
        (marks (body.inputs.filterMap (askedBy (inputDatumHash utxos))).reverse (datumHashes c ds)) := by
  have hstart : ((ds.map KeepRaw.inner).getD []).map (fun d => (false, c.blake2b256 d.rawCbor)) =
      marks [] (datumHashes c ds) := by
    rw [marks_nil, datumHashes, List.map_map]
    rfl
  rw [checkDatums]
  simp only [hstart, checkInputDatums_marks, List.append_nil]
  cases Outcome.forEach (answersInput (.postAlonzo .datumMissing) (inputDatumHash utxos) (datumHashes c ds)) body.inputs <;>
    rfl

variable (hconway : ∀ i o, utxos i = some o → ∃ x, o = .conway x)
include hconway

theorem remaining_eq_ok : checkRemainingDatums (.postAlonzo .unneededDatum) (knownDatumHashes body utxos)
      (marks (body.inputs.filterMap (askedBy (inputDatumHash utxos))).reverse (datumHashes c ds)) = .ok () ↔
    (∀ h ∈ datumHashes c ds, (∃ i ∈ body.inputs, CarriesHash utxos i h) ∨ KnownHash body utxos h) ∧
      ∀ h, List.Duplicate h (datumHashes c ds) → KnownHash body utxos h := by
  rw [checkRemainingDatums_eq_ok, all_marks_iff]
  simp only [List.mem_reverse, List.mem_filterMap, askedBy_eq_some, mem_knownDatumHashes hconway]

theorem checkDatums_eq_ok : checkDatums c body utxos ds = .ok () ↔
    DatumsRelated c body utxos ds ∧ NoneRepeated c body utxos ds := by
  rw [checkDatums_eq, Outcome.seq_eq_ok, Outcome.forEach_eq_ok, remaining_eq_ok hconway]
  simp only [answersInput_eq_ok, DatumsRelated, NoneRepeated, forall_and]
  tauto

theorem checkDatums_congr (hmem : ∀ h, h ∈ datumHashes c ds' ↔ h ∈ datumHashes c ds)
    (hrepeats : DatumsRelated c body utxos ds → (∀ i ∈ body.inputs, (utxos (.alonzoCompatible i)).isSome) →
      ((∀ h, List.Duplicate h (datumHashes c ds') → KnownHash body utxos h) ↔
        ∀ h, List.Duplicate h (datumHashes c ds) → KnownHash body utxos h)) :
    checkDatums c body utxos ds' = checkDatums c body utxos ds := by
  have hanswers : answersInput (.postAlonzo .datumMissing) (inputDatumHash utxos) (datumHashes c ds') =
      answersInput (.postAlonzo .datumMissing) (inputDatumHash utxos) (datumHashes c ds) := by
    have hcontains : ∀ h, (datumHashes c ds').contains h = (datumHashes c ds).contains h := by
      intro h
      rw [Bool.eq_iff_iff, List.contains_iff_mem, List.contains_iff_mem, hmem]
    funext i
    simp only [answersInput, hcontains]
  rw [checkDatums_eq, checkDatums_eq, hanswers]
  rcases hinputs : Outcome.forEach (answersInput (.postAlonzo .datumMissing) (inputDatumHash utxos) (datumHashes c ds))
    body.inputs with ⟨⟩ | e | _
  · rw [Outcome.ok_bind, Outcome.ok_bind]
    have hok : checkRemainingDatums (.postAlonzo .unneededDatum) (knownDatumHashes body utxos)
          (marks (body.inputs.filterMap (askedBy (inputDatumHash utxos))).reverse (datumHashes c ds')) = .ok () ↔
        checkRemainingDatums (.postAlonzo .unneededDatum) (knownDatumHashes body utxos)
          (marks (body.inputs.filterMap (askedBy (inputDatumHash utxos))).reverse (datumHashes c ds)) = .ok () := by
      rw [remaining_eq_ok hconway, remaining_eq_ok hconway]
      simp only [hmem]
      refine and_congr_right fun hrelated => ?_
      have hinputs := fun i hi => answersInput_eq_ok.1 (Outcome.forEach_eq_ok.1 hinputs i hi)
      exact hrepeats ⟨fun i hi => (hinputs i hi).2, hrelated⟩ fun i hi => (hinputs i hi).1
    by_cases h : checkRemainingDatums (.postAlonzo .unneededDatum) (knownDatumHashes body utxos)
        (marks (body.inputs.filterMap (askedBy (inputDatumHash utxos))).reverse (datumHashes c ds)) = .ok ()
    · rw [h, hok.2 h]
    · rw [checkRemainingDatums_eq_err h, checkRemainingDatums_eq_err (fun h' => h (hok.1 h'))]
  · rfl
  · rfl

/-- The check is exact unless it meets a repeated datum of an input, or an input that is not there. -/
theorem datumsExact_iff : DatumsExact c body utxos ds ↔ (DatumsRelated c body utxos ds → NoneRepeated c body utxos ds) := by
  constructor
  · exact fun h hrelated => ((checkDatums_eq_ok hconway).1 (h.accepts.2 hrelated)).2
  · intro hcond
    refine ⟨?_, fun ds' hperm => ?_, fun ds' hnodup hsame => ?_⟩
    · rw [checkDatums_eq_ok hconway]
      exact ⟨And.left, fun hrelated => ⟨hrelated, hcond hrelated⟩⟩
    · have hhashes : (datumHashes c ds').Perm (datumHashes c ds) := hperm.map _
      refine checkDatums_congr hconway (fun h => hhashes.mem_iff) fun _ _ => ?_
      simp only [List.duplicate_iff_two_le_count, hhashes.count_eq]
    · obtain ⟨kept, hkept, hsublist⟩ := hnodup.subperm fun d hd => (hsame d).1 hd
      have hsub : List.Subperm (datumHashes c ds') (datumHashes c ds) := ⟨_, hkept.map _, hsublist.map _⟩
      refine checkDatums_congr hconway (fun h => ?_) fun hrelated _ => ?_
      · simp only [datumHashes, List.mem_map, hsame]
      · refine iff_of_true (fun h hh => (hcond hrelated).2 h ?_) (hcond hrelated).2
        rw [List.duplicate_iff_two_le_count] at hh ⊢
        exact hh.trans (hsub.count_le h)

end

/-! ### One input that asks for one datum -/

/-- The input ⟨0, 0⟩ asks for the datum that is written as an empty byte string. -/
def datumUtxos : UTxOs := fun i =>
  if i = .alonzoCompatible ⟨0, 0⟩ then some (.conway (.postAlonzo ⟨[], .coin 1, some (.hash 0x40), none⟩)) else none

theorem datumUtxos_conway : ∀ i o, datumUtxos i = some o → ∃ x, o = .conway x := by
  intro i o h
  rw [datumUtxos] at h
  split at h
  · exact ⟨_, (Option.some.inj h).symm⟩
  · cases h

/-- The transaction that spends it. -/
def datumBody : TransactionBody := { inputs := [⟨0, 0⟩], outputs := [], fee := 0 }

def emptyDatum : KeepRaw PlutusData := ⟨[0x40], .boundedBytes [], by decide⟩

/-- The datum so many times. -/
def copies (n : ℕ) : Option (KeepRaw (List (KeepRaw PlutusData))) :=
  some ⟨[0xd9], List.replicate n emptyDatum, by decide⟩

theorem datumHashes_copies (n : ℕ) : datumHashes ShelleyMa.readHashes (copies n) = List.replicate n 0x40 := by
  rw [datumHashes, witnessDatums, copies]
  simp only [Option.map_some, Option.getD_some, List.map_replicate]
  rfl

theorem carriesHash_datumUtxos {h : Hash 32} : CarriesHash datumUtxos ⟨0, 0⟩ h ↔ h = 0x40 := by
  constructor
  · rintro ⟨_, ⟨⟩, hdatum⟩
    cases hdatum
    rfl
  · rintro rfl
    exact ⟨_, rfl, rfl⟩

theorem datumsRelated_copies (n : ℕ) : DatumsRelated ShelleyMa.readHashes datumBody datumUtxos (copies (n + 1)) := by
  rw [DatumsRelated, datumHashes_copies]
  refine ⟨fun i hi h hcarries => ?_, fun h hh => ?_⟩
  · obtain rfl := List.mem_singleton.1 hi
    obtain rfl := carriesHash_datumUtxos.1 hcarries
    simp
  · obtain rfl := List.eq_of_mem_replicate hh
    exact .inl ⟨⟨0, 0⟩, List.mem_singleton.2 rfl, carriesHash_datumUtxos.2 rfl⟩

/-- Given once, the datum is accepted. -/
theorem datumsExact_once : DatumsExact ShelleyMa.readHashes datumBody datumUtxos (copies 1) := by
  refine (datumsExact_iff datumUtxos_conway).2 fun _ => ⟨fun i hi => ?_, fun h hh => ?_⟩
  · obtain rfl := List.mem_singleton.1 hi
    rfl
  · rw [datumHashes_copies] at hh
    exact absurd hh (List.not_duplicate_singleton h 0x40)

/-- Given twice, it is rejected, though it is the datum that the input asks for. -/
theorem datum_twice_rejected : ¬ ∀ (c : Crypto) (body : TransactionBody) (utxos : UTxOs) ds,
    (∀ i o, utxos i = some o → ∃ x, o = .conway x) → DatumsExact c body utxos ds := by
  intro h
  have hok := (h ShelleyMa.readHashes datumBody datumUtxos (copies 2) datumUtxos_conway).accepts.2 (datumsRelated_copies 1)
  have hrejected : checkDatums ShelleyMa.readHashes datumBody datumUtxos (copies 2) =
      .err (.postAlonzo .unneededDatum) := rfl
  rw [hrejected] at hok
  cases hok

end Conway
end Pallas
