import Pallas.Validate.KeyWitnesses
import Pallas.Validate.RedeemerPositions
import Pallas.Validate.WitnessDatums

/-!
# When a witness set is accepted (`check_witness_set`, Alonzo to Conway)

The five checks of a witness set read the same things of a transaction in each era (`Witnessing`), and
`Witnessing.Accepted` says what they ask for, without following a walk: the scripts are those that are needed, the datums
those that are asked for, the redeemers those that count, and the keys have signed. Each era's `check_witness_set` accepts
exactly that (`witnessSet_iff`).
-/

namespace Pallas
variable {c : Crypto}

/-! ### Key witnesses -/

/-- The first witness with the hash is one that signed the data. -/
def FirstSigns (c : Crypto) (data : Bytes) (wits : List VKeyWitness) (k : AddrKeyhash) : Prop :=
  ∃ w ∈ wits.find? fun w => c.blake2b224 w.vkey = k, ValidSignature c data w

section Walk
variable {errs : VkErrors} {data : Bytes} {k : AddrKeyhash} {wits : List VKeyWitness} {needed : List AddrKeyhash}
variable {marked : List (Bool × VKeyWitness)}

theorem firstSigns_cons {w : VKeyWitness} : FirstSigns c data (w :: wits) k ↔
    if c.blake2b224 w.vkey = k then ValidSignature c data w else FirstSigns c data wits k := by
  rw [FirstSigns, List.find?_cons]
  split
  · next h => rw [if_pos (of_decide_eq_true h)]; simp
  · next h => rw [if_neg (of_decide_eq_false h), FirstSigns]

/-- `verify_signature` followed by the test of what it returns. -/
theorem verified_iff {w : VKeyWitness} {α : Type} {f : Bool → Outcome ValidationError α}
    (hfalse : ∀ a, f false ≠ .ok a) {a : α} :
    (verifySignature c w data >>= f) = .ok a ↔ ValidSignature c data w ∧ f true = .ok a := by
  rw [Outcome.bind_eq_ok, ValidSignature]
  constructor
  · rintro ⟨b, hb, h⟩
    cases b with
    | false => exact absurd h (hfalse a)
    | true => exact ⟨hb, h⟩
  · rintro ⟨hb, h⟩
    exact ⟨true, hb, h⟩

theorem exists_checkVkWit : (∃ marked', checkVkWit c errs k data marked = .ok marked') ↔
    FirstSigns c data (marked.map Prod.snd) k := by
  induction marked with
  | nil => simp [checkVkWit, FirstSigns]
  | cons head rest ih =>
    obtain ⟨covered, wit⟩ := head
    rw [List.map_cons, firstSigns_cons, ← ih, checkVkWit]
    split
    · have hstep : ∀ marked', (verifySignature c wit data >>= fun valid =>
          if valid then .ok ((true, wit) :: rest) else .err errs.wrongSignature) = .ok marked' ↔
          ValidSignature c data wit ∧ (true, wit) :: rest = marked' := by
        intro marked'
        rw [verified_iff (by simp)]
        simp
      simp only [hstep, exists_and_left, exists_eq', and_true]
    · constructor
      · rintro ⟨marked', h⟩
        obtain ⟨rest', hrest, -⟩ := Outcome.bind_eq_ok.1 h
        exact ⟨rest', hrest⟩
      · rintro ⟨rest', hrest⟩
        exact ⟨_, Outcome.bind_eq_ok.2 ⟨rest', hrest, rfl⟩⟩

theorem checkVkWit_eq_ok : checkVkWit c errs k data (markFirst c needed wits) = .ok marked ↔
    FirstSigns c data wits k ∧ marked = markFirst c (k :: needed) wits := by
  have hexists : (∃ marked, checkVkWit c errs k data (markFirst c needed wits) = .ok marked) ↔ FirstSigns c data wits k := by
    rw [exists_checkVkWit, map_snd_markFirst]
  constructor
  · intro h
    exact ⟨hexists.1 ⟨marked, h⟩, checkVkWit_marks h⟩
  · rintro ⟨hsigns, rfl⟩
    obtain ⟨marked, h⟩ := hexists.2 hsigns
    rw [h, checkVkWit_marks h]

/-- The payment part that an input resolves to. -/
def partOf (address : MultiEraOutput → Option Bytes) (utxos : UTxOs) (input : TransactionInput) :
    Option ShelleyPaymentPart :=
  ((utxos (.alonzoCompatible input)).bind address).bind getPaymentPart

variable {address : MultiEraOutput → Option Bytes} {other : ValidationResult} {utxos : UTxOs}
variable {input : TransactionInput} {inputs : List TransactionInput}

/-- What one input asks for. -/
def Opens (c : Crypto) (data : Bytes) (wits : List VKeyWitness) (part : Option ShelleyPaymentPart) : Prop :=
  part.isSome ∧ ∀ k, part = some (.key k) → FirstSigns c data wits k

theorem checkVkeyInput_eq_ok
    (hother : ∀ o, utxos (.alonzoCompatible input) = some o → address o = none → other ≠ .ok ()) :
    checkVkeyInput c errs address other utxos data (markFirst c needed wits) input = .ok marked ↔
      Opens c data wits (partOf address utxos input) ∧
        marked = markFirst c ((keyHashOf address utxos input).toList ++ needed) wits := by
  unfold checkVkeyInput
  cases ho : utxos (.alonzoCompatible input) with
  | none => simp [Opens, partOf, ho]
  | some o =>
    cases haddr : address o with
    | none =>
      have hnot : (other >>= fun _ => (.ok (markFirst c needed wits) : Outcome ValidationError _)) ≠ .ok marked := by
        intro h
        exact hother o ho haddr (Outcome.seq_eq_ok.1 h).1
      simpa [Opens, partOf, ho, haddr] using hnot
    | some bytes =>
      cases hpart : getPaymentPart bytes with
      | none => simp [Opens, partOf, ho, haddr, hpart, Outcome.ofOption]
      | some part =>
        cases part with
        | key k =>
          simp only [Outcome.ofOption, Outcome.ok_bind, checkVkWit_eq_ok, Opens, partOf, keyHashOf, ho, haddr, hpart,
            Option.bind_some, Option.isSome_some, true_and, Option.some.injEq, ShelleyPaymentPart.key.injEq,
            Option.toList_some, List.cons_append, List.nil_append, forall_eq']
        | script h =>
          simp only [Outcome.ofOption, Outcome.ok_bind, Opens, partOf, keyHashOf, ho, haddr, hpart, Option.bind_some,
            Option.isSome_some, true_and, Option.some.injEq, reduceCtorEq, false_implies, implies_true,
            Option.toList_none, List.nil_append, Outcome.ok.injEq]
          exact eq_comm

theorem fold_checkVkeyInput_eq_ok
    (hother : ∀ input ∈ inputs, ∀ o, utxos (.alonzoCompatible input) = some o → address o = none → other ≠ .ok ()) :
    Outcome.fold (checkVkeyInput c errs address other utxos data) (markFirst c needed wits) inputs = .ok marked ↔
      (∀ input ∈ inputs, Opens c data wits (partOf address utxos input)) ∧
        marked = markFirst c (needed ++ inputs.filterMap (keyHashOf address utxos)) wits := by
  induction inputs generalizing needed with
  | nil => simp [eq_comm]
  | cons input inputs ih =>
    rw [List.forall_mem_cons] at hother
    have hkeys : ∀ x, x ∈ ((keyHashOf address utxos input).toList ++ needed) ++ inputs.filterMap (keyHashOf address utxos) ↔
        x ∈ needed ++ (input :: inputs).filterMap (keyHashOf address utxos) := by
      intro x
      cases hkey : keyHashOf address utxos input with
      | none => simp [List.filterMap_cons_none hkey]
      | some k => simp [List.filterMap_cons_some hkey, or_left_comm]
    rw [Outcome.fold_cons, Outcome.bind_eq_ok, List.forall_mem_cons, ← markFirst_congr hkeys]
    simp only [checkVkeyInput_eq_ok hother.1]
    constructor
    · rintro ⟨_, ⟨hopens, rfl⟩, h⟩
      obtain ⟨hall, rfl⟩ := (ih hother.2).1 h
      exact ⟨⟨hopens, hall⟩, rfl⟩
    · rintro ⟨⟨hopens, hall⟩, rfl⟩
      exact ⟨_, ⟨hopens, rfl⟩, (ih hother.2).2 ⟨hall, rfl⟩⟩

theorem checkRemainingVkWits_eq_ok : checkRemainingVkWits c errs data (markFirst c needed wits) = .ok () ↔
    ∀ w ∈ (leftOver c needed wits).head?, ValidSignature c data w := by
  induction wits generalizing needed with
  | nil => simp [markFirst, leftOver, checkRemainingVkWits]
  | cons wit wits ih =>
    unfold markFirst leftOver
    split
    · exact ih
    · have hstep : checkRemainingVkWits c errs data ((false, wit) :: markFirst c needed wits) = .ok () ↔
          ValidSignature c data wit := by
        show (verifySignature c wit data >>= fun valid => check errs.wrongSignature valid) = .ok () ↔ _
        rw [verified_iff (by simp [check, Outcome.ensure])]
        simp [check]
      simp [hstep]

/-- All keys among the inputs have signed, and so has the first witness that none of them needs. -/
structure KeysSigned (c : Crypto) (data : Bytes) (part : TransactionInput → Option ShelleyPaymentPart)
    (keyOf : TransactionInput → Option AddrKeyhash) (inputs : List TransactionInput) (wits : List VKeyWitness) : Prop where
  opens : ∀ input ∈ inputs, Opens c data wits (part input)
  spare : ∀ w ∈ (leftOver c (inputs.filterMap keyOf) wits).head?, ValidSignature c data w

theorem checkVkeyInputWits_eq_ok {collateral : Option (List TransactionInput)} {owits : Option (List VKeyWitness)}
    (hother : ∀ input o, utxos (.alonzoCompatible input) = some o → address o = none → other ≠ .ok ()) :
    checkVkeyInputWits c errs address other inputs collateral owits data utxos = .ok () ↔ ∃ wits ∈ owits,
      KeysSigned c data (partOf address utxos) (keyHashOf address utxos) (inputs ++ collateral.getD []) wits := by
  rw [checkVkeyInputWits, Outcome.bind_eq_ok]
  have hlist : ∀ marked, mkAlonzoVkWitsCheckList owits errs.witnessMissing = .ok marked ↔
      ∃ wits ∈ owits, marked = markFirst c [] wits := by
    intro marked
    simp only [mkAlonzoVkWitsCheckList, Outcome.map_eq_ok, Outcome.ofOption_eq_ok, markFirst_nil, Option.mem_def,
      eq_comm (a := marked)]
  simp only [hlist]
  constructor
  · rintro ⟨_, ⟨wits, hwits, rfl⟩, h⟩
    obtain ⟨marked, hfold, hrest⟩ := Outcome.bind_eq_ok.1 h
    obtain ⟨hopens, rfl⟩ := (fold_checkVkeyInput_eq_ok fun i _ => hother i).1 hfold
    exact ⟨wits, hwits, hopens, checkRemainingVkWits_eq_ok.1 hrest⟩
  · rintro ⟨wits, hwits, hkeys⟩
    exact ⟨_, ⟨wits, hwits, rfl⟩, Outcome.bind_eq_ok.2 ⟨_, (fold_checkVkeyInput_eq_ok fun i _ => hother i).2
      ⟨hkeys.opens, rfl⟩, checkRemainingVkWits_eq_ok.2 hkeys.spare⟩⟩

theorem findAndCheckReqSigner_eq_ok {missing wrongSig : ValidationError} :
    findAndCheckReqSigner c missing wrongSig k data wits = .ok () ↔ FirstSigns c data wits k := by
  induction wits with
  | nil => simp [findAndCheckReqSigner, FirstSigns]
  | cons wit wits ih =>
    rw [firstSigns_cons, ← ih, findAndCheckReqSigner]
    split
    · rw [verified_iff (by simp [check, Outcome.ensure])]
      simp [check]
    · rfl

theorem checkRequiredSigners_eq_ok {missing wrongSig : ValidationError} {signers : Option (List AddrKeyhash)}
    {owits : Option (List VKeyWitness)} : checkRequiredSigners c missing wrongSig signers owits data = .ok () ↔
      ∀ ks ∈ signers, ∃ wits ∈ owits, ∀ k ∈ ks, FirstSigns c data wits k := by
  cases signers with
  | none => simp [checkRequiredSigners]
  | some ks =>
    cases owits with
    | none => simp [checkRequiredSigners]
    | some wits => simp [checkRequiredSigners, findAndCheckReqSigner_eq_ok]

end Walk

/-! ### Datums -/

theorem datumWalks_eq_ok {missing unneeded : ValidationError}
    {datumHash : TransactionInput → Outcome ValidationError (Option (Hash 32))} {known hs : List (Hash 32)}
    {inputs : List TransactionInput} :
    (checkInputDatums missing datumHash inputs (hs.map fun h => (false, h)) >>= checkRemainingDatums unneeded known) =
        .ok () ↔
      (∀ i ∈ inputs, ∃ hash, datumHash i = .ok hash ∧ ∀ h ∈ hash, h ∈ hs) ∧
        (∀ h ∈ hs, (∃ i ∈ inputs, datumHash i = .ok (some h)) ∨ h ∈ known) ∧
        ∀ h, List.Duplicate h hs → h ∈ known := by
  have hanswers : ∀ i, answersInput missing datumHash hs i = .ok () ↔
      ∃ hash, datumHash i = .ok hash ∧ ∀ h ∈ hash, h ∈ hs := by
    intro i
    rw [answersInput]
    rcases datumHash i with ⟨_ | h⟩ | e | _ <;> simp [check]
  have hasked : ∀ i h, askedBy datumHash i = some h ↔ datumHash i = .ok (some h) := by
    intro i h
    rw [askedBy]
    rcases datumHash i with ⟨_ | h⟩ | e | _ <;> simp
  rw [← marks_nil, checkInputDatums_marks, List.append_nil, Outcome.bind_eq_ok]
  simp only [Outcome.seq_eq_ok, Outcome.forEach_eq_ok, hanswers, Outcome.ok.injEq, and_assoc]
  rw [exists_and_left]
  simp only [exists_eq_left', checkRemainingDatums_eq_ok, all_marks_iff, List.mem_reverse, List.mem_filterMap, hasked]

/-! ### What the checks read of a transaction -/

/-- The datum hash of an output of any era. -/
def MultiEraOutput.datumHash (o : MultiEraOutput) : Option (Hash 32) :=
  match o.datum with
  | some (.hash h) => some h
  | _ => none

/-- The payment part of the address of an output of any era. -/
def MultiEraOutput.payment (o : MultiEraOutput) : Option ShelleyPaymentPart :=
  match o.address with
  | some (.shelley a) => some a.payment
  | _ => none

/-- The payment part that locks the output an input finds. -/
def paymentOf (utxos : UTxOs) (input : TransactionInput) : Option ShelleyPaymentPart :=
  (utxos (.alonzoCompatible input)).bind MultiEraOutput.payment

/-- A transaction of any era as the checks of its witness set see it. The datums and scripts of the witness set are given by
their hashes, the known datums are those whose hashes the outputs carry, and the data is what the keys sign. -/
structure Witnessing (Tag : Type) where
  inputs : List TransactionInput
  collateral : List TransactionInput
  references : List TransactionInput
  policies : List PolicyId
  scripts : List ScriptHash
  datums : List (Hash 32)
  knownDatums : List (Hash 32)
  Redeemed : Tag → ℕ → Prop
  Counted : Tag → ℕ → Prop
  AccountsParse : Prop
  signers : List AddrKeyhash
  vkeys : Option (List VKeyWitness)
  data : Bytes

namespace Witnessing
variable {Tag : Type} (c : Crypto) (utxos : UTxOs) (w : Witnessing Tag)

/-- The script locks a spent input, or is a minted policy. -/
def Needs (h : ScriptHash) : Prop :=
  (∃ i ∈ w.inputs, (utxos (.alonzoCompatible i)).bind MultiEraOutput.lockedBy = some h) ∨ h ∈ w.policies

/-- A reference input carries the script. -/
def Provides (h : ScriptHash) : Prop :=
  ∃ i ∈ w.references, ∃ s ∈ (utxos (.alonzoCompatible i)).bind MultiEraOutput.scriptRef, Conway.scriptRefHash c s = h

/-- A spent input carries the datum hash. -/
def Asks (h : Hash 32) : Prop := ∃ i ∈ w.inputs, (utxos (.alonzoCompatible i)).bind MultiEraOutput.datumHash = some h

/-- An output or a reference input carries the datum hash. -/
def Knows (h : Hash 32) : Prop :=
  h ∈ w.knownDatums ∨ ∃ i ∈ w.references, (utxos (.alonzoCompatible i)).bind MultiEraOutput.datumHash = some h

/-- What the checks ask of a witness set. -/
structure Accepted : Prop where
  /-- The scripts are the needed ones, those of the reference inputs aside. -/
  needed : ∀ h, w.Needs utxos h → h ∈ w.scripts ∨ w.Provides c utxos h
  scripts : ∀ h ∈ w.scripts, ¬ w.Provides c utxos h → w.Needs utxos h
  /-- The datums are those that the inputs ask for, and each other one, or a repeated one, is known. -/
  inputs : ∀ i ∈ w.inputs, (utxos (.alonzoCompatible i)).isSome
  asked : ∀ h, w.Asks utxos h → h ∈ w.datums
  datums : ∀ h ∈ w.datums, w.Asks utxos h ∨ w.Knows utxos h
  repeated : ∀ h, List.Duplicate h w.datums → w.Knows utxos h
  /-- The redeemers are those of the purposes that count. -/
  accounts : w.AccountsParse
  redeemers : ∀ tag n, w.Redeemed tag n ↔ w.Counted tag n
  /-- The signers and the keys among the inputs have signed. -/
  keys : ∃ wits ∈ w.vkeys, (∀ k ∈ w.signers, FirstSigns c w.data wits k) ∧
    KeysSigned c w.data (paymentOf utxos) (lockingKey utxos) (w.inputs ++ w.collateral) wits

/-! ### The checks of any era -/

variable {c utxos w}

theorem checkNeededScripts_eq_ok {inputMissing : ValidationError} {policyMissing : PolicyId → ValidationError}
    {unneeded : List ValidationError} {scripts : List (List PolicyId)} {reference : List PolicyId}
    {lock : TransactionInput → Option ScriptHash} (hlen : unneeded.length = scripts.length)
    (hlock : ∀ i, lock i = (utxos (.alonzoCompatible i)).bind MultiEraOutput.lockedBy)
    (hscripts : scripts.flatten = w.scripts) (hreference : ∀ h, h ∈ reference ↔ w.Provides c utxos h) :
    checkNeededScripts inputMissing policyMissing unneeded scripts reference (w.inputs.filterMap lock) w.policies = .ok () ↔
      (∀ h, w.Needs utxos h → h ∈ w.scripts ∨ w.Provides c utxos h) ∧
        ∀ h ∈ w.scripts, ¬ w.Provides c utxos h → w.Needs utxos h := by
  have hneeds : ∀ h, h ∈ w.inputs.filterMap lock ++ w.policies ↔ w.Needs utxos h := by
    intro h
    rw [List.mem_append, List.mem_filterMap, Needs]
    simp only [hlock]
  rw [Pallas.checkNeededScripts_eq_ok hlen]
  simp only [hneeds, hscripts, hreference]

theorem checkDatums_eq_ok {missing unneeded e : ValidationError} {known : List (Hash 32)}
    {datumHash : TransactionInput → Outcome ValidationError (Option (Hash 32))}
    (hdatum : ∀ i, datumHash i = Outcome.ofOption e ((utxos (.alonzoCompatible i)).map MultiEraOutput.datumHash))
    (hknown : ∀ h, h ∈ known ↔ w.Knows utxos h) :
    (checkInputDatums missing datumHash w.inputs (w.datums.map fun h => (false, h)) >>=
        checkRemainingDatums unneeded known) = .ok () ↔
      (∀ i ∈ w.inputs, (utxos (.alonzoCompatible i)).isSome) ∧ (∀ h, w.Asks utxos h → h ∈ w.datums) ∧
        (∀ h ∈ w.datums, w.Asks utxos h ∨ w.Knows utxos h) ∧ ∀ h, List.Duplicate h w.datums → w.Knows utxos h := by
  have hfinds : ∀ i, (∃ hash, datumHash i = .ok hash ∧ ∀ h ∈ hash, h ∈ w.datums) ↔
      (utxos (.alonzoCompatible i)).isSome ∧
        ∀ h, (utxos (.alonzoCompatible i)).bind MultiEraOutput.datumHash = some h → h ∈ w.datums := by
    intro i
    rw [hdatum]
    rcases utxos (.alonzoCompatible i) with _ | o <;> simp [Outcome.ofOption]
  have hcarries : ∀ i h, datumHash i = .ok (some h) ↔
      (utxos (.alonzoCompatible i)).bind MultiEraOutput.datumHash = some h := by
    intro i h
    rw [hdatum]
    rcases utxos (.alonzoCompatible i) with _ | o <;> simp [Outcome.ofOption]
  rw [datumWalks_eq_ok]
  simp only [hfinds, hcarries, hknown, forall_and]
  constructor
  · rintro ⟨⟨hinputs, hasked⟩, hdatums, hrepeated⟩
    refine ⟨hinputs, ?_, hdatums, hrepeated⟩
    rintro h ⟨i, hi, hcarries⟩
    exact hasked i hi h hcarries
  · rintro ⟨hinputs, hasked, hdatums, hrepeated⟩
    exact ⟨⟨hinputs, fun i hi h hcarries => hasked h ⟨i, hi, hcarries⟩⟩, hdatums, hrepeated⟩

theorem signatures_eq_ok {missing wrongSig : ValidationError} {errs : VkErrors} {other : ValidationResult}
    {address : MultiEraOutput → Option Bytes} {signers : Option (List AddrKeyhash)}
    {collateral : Option (List TransactionInput)}
    (hsigners : signers.getD [] = w.signers) (hcollateral : collateral.getD [] = w.collateral)
    (hother : ∀ i o, utxos i = some o → address o = none → other ≠ .ok ())
    (haddress : ∀ i o, utxos i = some o → (address o).bind getPaymentPart = o.payment) :
    (checkRequiredSigners c missing wrongSig signers w.vkeys w.data >>= fun _ =>
        checkVkeyInputWits c errs address other w.inputs collateral w.vkeys w.data utxos) = .ok () ↔
      ∃ wits ∈ w.vkeys, (∀ k ∈ w.signers, FirstSigns c w.data wits k) ∧
        KeysSigned c w.data (paymentOf utxos) (lockingKey utxos) (w.inputs ++ w.collateral) wits := by
  have hpayment : partOf address utxos = paymentOf utxos := by
    funext i
    rw [partOf, paymentOf]
    rcases ho : utxos (.alonzoCompatible i) with _ | o
    · rfl
    · exact haddress _ o ho
  have hkey : keyHashOf address utxos = lockingKey utxos := by
    funext i
    exact keyHashOf_eq_lockingKey fun o ho => haddress _ o ho
  rw [Outcome.seq_eq_ok, checkRequiredSigners_eq_ok, checkVkeyInputWits_eq_ok fun i => hother (.alonzoCompatible i),
    hpayment, hkey, hcollateral, ← hsigners]
  constructor
  · rintro ⟨hsign, wits, hwits, hkeys⟩
    refine ⟨wits, hwits, fun k hk => ?_, hkeys⟩
    cases signers with
    | none => cases hk
    | some ks =>
      obtain ⟨wits', hwits', hall⟩ := hsign ks rfl
      obtain rfl : wits' = wits := Option.some.inj (hwits'.symm.trans hwits)
      exact hall k hk
  · rintro ⟨wits, hwits, hsign, hkeys⟩
    refine ⟨?_, wits, hwits, hkeys⟩
    rintro ks rfl
    exact ⟨wits, hwits, hsign⟩

theorem accepted_iff_checks : w.Accepted c utxos ↔
    ((∀ h, w.Needs utxos h → h ∈ w.scripts ∨ w.Provides c utxos h) ∧
      ∀ h ∈ w.scripts, ¬ w.Provides c utxos h → w.Needs utxos h) ∧
    ((∀ i ∈ w.inputs, (utxos (.alonzoCompatible i)).isSome) ∧ (∀ h, w.Asks utxos h → h ∈ w.datums) ∧
      (∀ h ∈ w.datums, w.Asks utxos h ∨ w.Knows utxos h) ∧ ∀ h, List.Duplicate h w.datums → w.Knows utxos h) ∧
    (w.AccountsParse ∧ ∀ tag n, w.Redeemed tag n ↔ w.Counted tag n) ∧
    ∃ wits ∈ w.vkeys, (∀ k ∈ w.signers, FirstSigns c w.data wits k) ∧
      KeysSigned c w.data (paymentOf utxos) (lockingKey utxos) (w.inputs ++ w.collateral) wits := by
  constructor
  · intro h
    exact ⟨⟨h.needed, h.scripts⟩, ⟨h.inputs, h.asked, h.datums, h.repeated⟩, ⟨h.accounts, h.redeemers⟩, h.keys⟩
  · rintro ⟨⟨hneeded, hscripts⟩, ⟨hinputs, hasked, hdatums, hrepeated⟩, ⟨haccounts, hredeemers⟩, hkeys⟩
    exact ⟨hneeded, hscripts, hinputs, hasked, hdatums, hrepeated, haccounts, hredeemers, hkeys⟩

end Witnessing

/-! ### The eras -/

section Eras
open Std

/-- An Alonzo transaction as the checks see it; it has no reference inputs. -/
def Alonzo.witnessing (c : Crypto) (mtx : Alonzo.Tx) (utxos : UTxOs) : Witnessing RedeemerTag :=
  let body := mtx.transactionBody.inner
  let wits := mtx.transactionWitnessSet.inner
  { inputs := body.inputs
    collateral := body.collateral.getD []
    references := []
    policies := (body.mint.map ExtTreeMap.keys).getD []
    scripts := nativeScriptHashes c wits ++ plutusScriptHashes c wits
    datums := (wits.plutusData.getD []).map fun d => c.blake2b256 d.rawCbor
    knownDatums := body.outputs.filterMap TransactionOutput.datumHash
    Redeemed := (purposes c body wits utxos).Redeemed
    Counted := (purposes c body wits utxos).Counted (phase2 c wits)
    AccountsParse := True
    signers := body.requiredSigners.getD []
    vkeys := wits.vkeywitness
    data := txHash c mtx }

/-- A Babbage transaction as the checks see it. -/
def Babbage.witnessing (c : Crypto) (mtx : Babbage.Tx) (utxos : UTxOs) : Witnessing Alonzo.RedeemerTag :=
  let body := mtx.transactionBody.inner
  let wits := mtx.transactionWitnessSet.inner
  { inputs := body.inputs
    collateral := body.collateral.getD []
    references := body.referenceInputs.getD []
    policies := (body.mint.map ExtTreeMap.keys).getD []
    scripts := nativeScriptHashes c wits ++ (plutusScriptHashes c wits).flatten
    datums := (wits.plutusData.getD []).map fun d => c.blake2b256 d.rawCbor
    knownDatums := (body.outputs ++ body.collateralReturn.toList).filterMap getDatumHash
    Redeemed := (purposes c body wits utxos).Redeemed
    Counted := (purposes c body wits utxos).Counted (phase2 c body wits utxos)
    AccountsParse := True
    signers := body.requiredSigners.getD []
    vkeys := wits.vkeywitness
    data := txHash c mtx }

/-- A Conway transaction as the checks see it; key witnesses that are not there are none. -/
def Conway.witnessing (c : Crypto) (mtx : Conway.Tx) (utxos : UTxOs) : Witnessing RedeemerTag :=
  let body := mtx.transactionBody.inner
  let wits := mtx.transactionWitnessSet.inner
  { inputs := body.inputs
    collateral := body.collateral.getD []
    references := body.referenceInputs.getD []
    policies := (body.mint.map ExtTreeMap.keys).getD []
    scripts := nativeScriptHashes c wits ++ (plutusScriptHashes c wits).flatten
    datums := datumHashes c wits.plutusData
    knownDatums := (body.outputs ++ body.collateralReturn.toList).filterMap getDatumHash
    Redeemed := Redeemed wits
    Counted := Counted c body wits utxos
    AccountsParse := AccountsParse body
    signers := body.requiredSigners.getD []
    vkeys := some (wits.vkeywitness.getD [])
    data := txHash c mtx }

variable {utxos : UTxOs}

theorem unmarked_datums (ds : List (KeepRaw PlutusData)) :
    ds.map (fun d => (false, c.blake2b256 d.rawCbor)) =
      (ds.map fun d => c.blake2b256 d.rawCbor).map fun h => (false, h) := by
  rw [List.map_map]
  rfl

theorem Alonzo.checkWitnessSet_eq_ok {mtx : Alonzo.Tx}
    (hera : ∀ i o, utxos i = some o → ∃ out era, o = .alonzoCompatible out era) :
    Alonzo.checkWitnessSet c mtx utxos = .ok () ↔ (Alonzo.witnessing c mtx utxos).Accepted c utxos := by
  have hdatum : ∀ i, Alonzo.inputDatumHash utxos i = Outcome.ofOption (.alonzo .inputNotInUTxO)
      ((utxos (.alonzoCompatible i)).map MultiEraOutput.datumHash) := by
    intro i
    rw [Alonzo.inputDatumHash]
    rcases ho : utxos (.alonzoCompatible i) with _ | o
    · rfl
    · obtain ⟨out, era, rfl⟩ := hera _ o ho
      rcases hd : out.datumHash with _ | h <;>
        simp [MultiEraOutput.asAlonzo, Outcome.ofOption, MultiEraOutput.datumHash, MultiEraOutput.datum, hd]
  have hother : ∀ i o, utxos i = some o → Alonzo.alonzoAddress o = none →
      (.ok () : ValidationResult) ≠ .ok () := by
    intro i o ho hnone
    obtain ⟨out, era, rfl⟩ := hera _ o ho
    cases hnone
  have haddress : ∀ i o, utxos i = some o → (Alonzo.alonzoAddress o).bind getPaymentPart = o.payment := by
    intro i o ho
    obtain ⟨out, era, rfl⟩ := hera _ o ho
    exact getPaymentPart_eq out.address
  rw [Witnessing.accepted_iff_checks, Alonzo.checkWitnessSet, Outcome.seq_eq_ok, Outcome.seq_eq_ok, Outcome.seq_eq_ok]
  refine and_congr ?_ (and_congr ?_ (and_congr ?_ ?_))
  · exact Witnessing.checkNeededScripts_eq_ok (w := Alonzo.witnessing c mtx utxos) rfl
      (Alonzo.getScriptHashFromInput_eq hera) (by simp [Alonzo.witnessing]) (by simp [Witnessing.Provides, Alonzo.witnessing])
  · rw [Alonzo.checkDatums, unmarked_datums]
    exact Witnessing.checkDatums_eq_ok (w := Alonzo.witnessing c mtx utxos) hdatum
      (by simp [Witnessing.Knows, Alonzo.witnessing])
  · rw [Alonzo.checkRedeemers_eq_ok hera]
    exact (and_iff_right trivial).symm
  · exact Witnessing.signatures_eq_ok (w := Alonzo.witnessing c mtx utxos) rfl rfl hother haddress

theorem Witnessing.mem_known {Output Tag : Type} {w : Witnessing Tag} {hashOf : Output → Option (Hash 32)}
    {as : MultiEraOutput → Option Output} {outputs : List Output} {collateralReturn : Option Output}
    (hknown : w.knownDatums = (outputs ++ collateralReturn.toList).filterMap hashOf)
    (has : ∀ i o, utxos i = some o → (as o).bind hashOf = o.datumHash) (h : Hash 32) :
    h ∈ outputs.filterMap hashOf ++ (collateralReturn.bind hashOf).toList ++
      w.references.filterMap (fun i => ((utxos (.alonzoCompatible i)).bind as).bind hashOf) ↔ w.Knows utxos h := by
  have hreferences : ∀ i, ((utxos (.alonzoCompatible i)).bind as).bind hashOf =
      (utxos (.alonzoCompatible i)).bind MultiEraOutput.datumHash := by
    intro i
    rcases ho : utxos (.alonzoCompatible i) with _ | o
    · rfl
    · exact has _ o ho
  have hreturn : collateralReturn.toList.filterMap hashOf = (collateralReturn.bind hashOf).toList := by
    rcases collateralReturn with _ | output
    · rfl
    · rcases hd : hashOf output with _ | hash <;> simp [hd]
  rw [List.mem_append, Witnessing.Knows, hknown, List.filterMap_append, hreturn]
  simp only [hreferences, List.mem_filterMap]

theorem Babbage.datumHash_eq {out : Babbage.TransactionOutput} :
    (MultiEraOutput.babbage out).datumHash = Babbage.getDatumHash out := by
  rcases out with o | o
  · rcases hd : o.datumHash with _ | h <;> simp [MultiEraOutput.datumHash, MultiEraOutput.datum, Babbage.getDatumHash, hd]
  · rcases hd : o.datumOption with _ | ⟨_ | _⟩ <;>
      simp [MultiEraOutput.datumHash, MultiEraOutput.datum, Babbage.getDatumHash, hd]

theorem Conway.datumHash_eq {out : Conway.TransactionOutput} :
    (MultiEraOutput.conway out).datumHash = Conway.getDatumHash out := by
  rcases out with o | o
  · rcases hd : o.datumHash with _ | h <;> simp [MultiEraOutput.datumHash, MultiEraOutput.datum, Conway.getDatumHash, hd]
  · rcases hd : o.datumOption with _ | ⟨_ | _⟩ <;>
      simp [MultiEraOutput.datumHash, MultiEraOutput.datum, Conway.getDatumHash, hd]

theorem Babbage.mem_referenceHashes {mtx : Babbage.Tx} (hera : ∀ i o, utxos i = some o → ∃ out, o = .babbage out)
    (h : ScriptHash) : h ∈ Babbage.getReferenceScriptHashes c mtx.transactionBody.inner utxos ↔
      (Babbage.witnessing c mtx utxos).Provides c utxos h := by
  have hscript : ∀ i, Babbage.getScriptHashFromReferenceInput c i utxos =
      ((utxos (.alonzoCompatible i)).bind MultiEraOutput.scriptRef).map (Conway.scriptRefHash c) := by
    intro i
    rw [Babbage.getScriptHashFromReferenceInput, Babbage.referenceScript]
    rcases ho : utxos (.alonzoCompatible i) with _ | o
    · rfl
    · obtain ⟨out, rfl⟩ := hera _ o ho
      rcases out with o | o
      · rfl
      · rcases hs : o.scriptRef with _ | s <;> simp [MultiEraOutput.asBabbage, MultiEraOutput.scriptRef, hs]
        cases s <;> rfl
  simp only [Babbage.getReferenceScriptHashes, List.mem_filterMap, hscript, Witnessing.Provides, Option.map_eq_some_iff,
    Option.mem_def]
  rfl

theorem Babbage.checkWitnessSet_eq_ok {mtx : Babbage.Tx} (hera : ∀ i o, utxos i = some o → ∃ out, o = .babbage out) :
    Babbage.checkWitnessSet c mtx utxos = .ok () ↔ (Babbage.witnessing c mtx utxos).Accepted c utxos := by
  have hdatum : ∀ i, Babbage.inputDatumHash utxos i = Outcome.ofOption (.postAlonzo .inputNotInUTxO)
      ((utxos (.alonzoCompatible i)).map MultiEraOutput.datumHash) := by
    intro i
    rw [Babbage.inputDatumHash]
    rcases ho : utxos (.alonzoCompatible i) with _ | o
    · rfl
    · obtain ⟨out, rfl⟩ := hera _ o ho
      simp [MultiEraOutput.asBabbage, Outcome.ofOption, Babbage.datumHash_eq]
  have hother : ∀ i o, utxos i = some o → Babbage.babbageAddress o = none →
      (.ok () : ValidationResult) ≠ .ok () := by
    intro i o ho hnone
    obtain ⟨out, rfl⟩ := hera _ o ho
    cases hnone
  have haddress : ∀ i o, utxos i = some o → (Babbage.babbageAddress o).bind getPaymentPart = o.payment := by
    intro i o ho
    obtain ⟨out, rfl⟩ := hera _ o ho
    cases out with
    | legacy o => exact getPaymentPart_eq o.address
    | postAlonzo o => exact getPaymentPart_eq o.address
  have has : ∀ i o, utxos i = some o → o.asBabbage.bind Babbage.getDatumHash = o.datumHash := by
    intro i o ho
    obtain ⟨out, rfl⟩ := hera _ o ho
    exact Babbage.datumHash_eq.symm
  have hknown : ∀ h, h ∈ Babbage.knownDatumHashes mtx.transactionBody.inner utxos ↔
      (Babbage.witnessing c mtx utxos).Knows utxos h := by
    rw [Babbage.knownDatumHashes]
    exact Witnessing.mem_known (w := Babbage.witnessing c mtx utxos) rfl has
  rw [Witnessing.accepted_iff_checks, Babbage.checkWitnessSet, Outcome.seq_eq_ok, Outcome.seq_eq_ok, Outcome.seq_eq_ok]
  refine and_congr ?_ (and_congr ?_ (and_congr ?_ ?_))
  · exact Witnessing.checkNeededScripts_eq_ok (w := Babbage.witnessing c mtx utxos) rfl
      (Babbage.getScriptHashFromInput_eq hera) rfl (Babbage.mem_referenceHashes hera)
  · rw [Babbage.checkDatums, unmarked_datums]
    exact Witnessing.checkDatums_eq_ok (w := Babbage.witnessing c mtx utxos) hdatum hknown
  · rw [Babbage.checkRedeemers_eq_ok hera]
    exact (and_iff_right trivial).symm
  · exact Witnessing.signatures_eq_ok (w := Babbage.witnessing c mtx utxos) rfl rfl hother haddress

theorem Conway.mem_provided {mtx : Conway.Tx} (hera : ∀ i o, utxos i = some o → ∃ out, o = .conway out)
    (h : ScriptHash) : h ∈ Conway.getReferenceScriptHashes c mtx.transactionBody.inner utxos ↔
      (Conway.witnessing c mtx utxos).Provides c utxos h := by
  have hscript : ∀ i, Conway.getScriptHashFromReferenceInput c i utxos =
      ((utxos (.alonzoCompatible i)).bind MultiEraOutput.scriptRef).map (Conway.scriptRefHash c) := by
    intro i
    rw [Conway.getScriptHashFromReferenceInput, Conway.referenceScript]
    rcases ho : utxos (.alonzoCompatible i) with _ | o
    · rfl
    · obtain ⟨out, rfl⟩ := hera _ o ho
      cases out <;> rfl
  simp only [Conway.getReferenceScriptHashes, List.mem_filterMap, hscript, Witnessing.Provides, Option.map_eq_some_iff,
    Option.mem_def]
  rfl

theorem Conway.checkWitnessSet_eq_ok {mtx : Conway.Tx} (hera : ∀ i o, utxos i = some o → ∃ out, o = .conway out) :
    Conway.checkWitnessSet c mtx utxos = .ok () ↔ (Conway.witnessing c mtx utxos).Accepted c utxos := by
  have hlock : ∀ i, Conway.getScriptHashFromInput i utxos = (utxos (.alonzoCompatible i)).bind MultiEraOutput.lockedBy := by
    intro i
    rw [Conway.getScriptHashFromInput]
    rcases ho : utxos (.alonzoCompatible i) with _ | o
    · rfl
    · obtain ⟨out, rfl⟩ := hera _ o ho
      rfl
  have hdatum : ∀ i, Conway.inputDatumHash utxos i = Outcome.ofOption (.postAlonzo .inputNotInUTxO)
      ((utxos (.alonzoCompatible i)).map MultiEraOutput.datumHash) := by
    intro i
    rw [Conway.inputDatumHash]
    rcases utxos (.alonzoCompatible i) with _ | o
    · rfl
    · rcases hd : o.datum with _ | ⟨_ | _⟩ <;> simp [Outcome.ofOption, MultiEraOutput.datumHash, hd]
  have hother : ∀ i o, utxos i = some o → Conway.vkeyAddress o = none →
      (.err (.postAlonzo .inputDecoding) : ValidationResult) ≠ .ok () := by
    intro i o _ _ h
    cases h
  have haddress : ∀ i o, utxos i = some o → (Conway.vkeyAddress o).bind getPaymentPart = o.payment := by
    intro i o ho
    obtain ⟨out, rfl⟩ := hera _ o ho
    cases out with
    | legacy o => exact getPaymentPart_eq o.address
    | postAlonzo o => exact getPaymentPart_eq o.address
  have has : ∀ i o, utxos i = some o → o.asConway.bind Conway.getDatumHash = o.datumHash := by
    intro i o ho
    obtain ⟨out, rfl⟩ := hera _ o ho
    exact Conway.datumHash_eq.symm
  have hknown : ∀ h, h ∈ Conway.knownDatumHashes mtx.transactionBody.inner utxos ↔
      (Conway.witnessing c mtx utxos).Knows utxos h := by
    rw [Conway.knownDatumHashes]
    exact Witnessing.mem_known (w := Conway.witnessing c mtx utxos) rfl has
  rw [Witnessing.accepted_iff_checks, Conway.checkWitnessSet, Outcome.seq_eq_ok, Outcome.seq_eq_ok, Outcome.seq_eq_ok]
  refine and_congr ?_ (and_congr ?_ (and_congr Conway.checkRedeemers_eq_ok ?_))
  · exact Witnessing.checkNeededScripts_eq_ok (w := Conway.witnessing c mtx utxos) rfl hlock rfl (Conway.mem_provided hera)
  · rw [Conway.checkDatums, unmarked_datums]
    exact Witnessing.checkDatums_eq_ok (w := Conway.witnessing c mtx utxos) hdatum hknown
  · exact Witnessing.signatures_eq_ok (w := Conway.witnessing c mtx utxos) rfl rfl hother haddress

/-- In each era, over a UTxO map of the era's outputs, the check of the witness set accepts exactly the transactions whose
scripts, datums, redeemers and key witnesses are as they should be. -/
theorem witnessSet_iff (c : Crypto) (utxos : UTxOs) :
    (∀ mtx : Alonzo.Tx, (∀ i o, utxos i = some o → ∃ out era, o = .alonzoCompatible out era) →
      (Alonzo.checkWitnessSet c mtx utxos = .ok () ↔ (Alonzo.witnessing c mtx utxos).Accepted c utxos)) ∧
    (∀ mtx : Babbage.Tx, (∀ i o, utxos i = some o → ∃ out, o = .babbage out) →
      (Babbage.checkWitnessSet c mtx utxos = .ok () ↔ (Babbage.witnessing c mtx utxos).Accepted c utxos)) ∧
    ∀ mtx : Conway.Tx, (∀ i o, utxos i = some o → ∃ out, o = .conway out) →
      (Conway.checkWitnessSet c mtx utxos = .ok () ↔ (Conway.witnessing c mtx utxos).Accepted c utxos) :=
  ⟨fun _ => Alonzo.checkWitnessSet_eq_ok, fun _ => Babbage.checkWitnessSet_eq_ok, fun _ => Conway.checkWitnessSet_eq_ok⟩

theorem eq_of_singleUtxo {output o : MultiEraOutput} {i : MultiEraInput} (h : singleUtxo output i = some o) :
    o = output := by
  rw [singleUtxo] at h
  split at h
  · exact (Option.some.inj h).symm
  · cases h

/-- The transfer with the three witnesses: nothing is asked of the third. -/
theorem witnessSet_threeWits :
    (Alonzo.witnessing transferCrypto threeWitsTxs.1 (singleUtxo (.alonzoCompatible spentOutput .alonzo))).Accepted
      transferCrypto (singleUtxo (.alonzoCompatible spentOutput .alonzo)) ∧
    (Babbage.witnessing transferCrypto threeWitsTxs.2.1 (singleUtxo (.babbage (.legacy spentOutput)))).Accepted
      transferCrypto (singleUtxo (.babbage (.legacy spentOutput))) ∧
    (Conway.witnessing transferCrypto threeWitsTxs.2.2 (singleUtxo (.conway (.legacy spentOutput)))).Accepted
      transferCrypto (singleUtxo (.conway (.legacy spentOutput))) := by
  refine ⟨((witnessSet_iff _ _).1 _ fun i o ho => ⟨_, _, eq_of_singleUtxo ho⟩).1 ?_,
    ((witnessSet_iff _ _).2.1 _ fun i o ho => ⟨_, eq_of_singleUtxo ho⟩).1 ?_,
    ((witnessSet_iff _ _).2.2 _ fun i o ho => ⟨_, eq_of_singleUtxo ho⟩).1 ?_⟩
  all_goals decide +kernel

end Eras

end Pallas
