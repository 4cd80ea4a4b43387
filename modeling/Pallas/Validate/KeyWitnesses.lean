import Pallas.Validate.Alonzo
import Pallas.Validate.Babbage
import Pallas.Validate.Conway

/-!
# Which key witnesses are verified

`check_vkey_input_wits` walks the inputs and collaterals. For each that a key locks it verifies the
first witness with the key's hash and marks it; then it walks the witnesses that are not marked, and
stops after the first of them. `markFirst needed wits` is the marking after the walk over inputs whose
keys are `needed`, whatever their order (`checkVkeyInput_walked`), and `leftOver needed wits` lists what
stays unmarked. So of all witnesses only those in the tail of `leftOver` are never verified.
-/

namespace Pallas
variable {c : Crypto}

/-- The witness carries a signature of `data` that verifies. -/
def ValidSignature (c : Crypto) (data : Bytes) (wit : VKeyWitness) : Prop := verifySignature c wit data = .ok true

instance (data : Bytes) (wit : VKeyWitness) : Decidable (ValidSignature c data wit) :=
  inferInstanceAs (Decidable (_ = _))

/-- Marks, for each needed hash, the first witness whose key has it. -/
def markFirst (c : Crypto) : (needed : List AddrKeyhash) → List VKeyWitness → List (Bool × VKeyWitness)
  | _, [] => []
  | needed, wit :: wits =>
    if c.blake2b224 wit.vkey ∈ needed then
      (true, wit) :: markFirst c (needed.filter (· ≠ c.blake2b224 wit.vkey)) wits
    else (false, wit) :: markFirst c needed wits

/-- The witnesses that are not the first with a needed hash. -/
def leftOver (c : Crypto) : (needed : List AddrKeyhash) → List VKeyWitness → List VKeyWitness
  | _, [] => []
  | needed, wit :: wits =>
    if c.blake2b224 wit.vkey ∈ needed then leftOver c (needed.filter (· ≠ c.blake2b224 wit.vkey)) wits
    else wit :: leftOver c needed wits

/-! ### The marking -/

theorem markFirst_congr {needed needed' : List AddrKeyhash} (h : ∀ k, k ∈ needed ↔ k ∈ needed')
    (wits : List VKeyWitness) : markFirst c needed wits = markFirst c needed' wits := by
  induction wits generalizing needed needed' with
  | nil => rfl
  | cons wit wits ih =>
    unfold markFirst
    by_cases hin : c.blake2b224 wit.vkey ∈ needed
    · have hrest : ∀ k, k ∈ needed.filter (· ≠ c.blake2b224 wit.vkey) ↔
          k ∈ needed'.filter (· ≠ c.blake2b224 wit.vkey) := fun k => by simp only [List.mem_filter, h]
      rw [if_pos hin, if_pos ((h _).1 hin), ih hrest]
    · rw [if_neg hin, if_neg (mt (h _).2 hin), ih h]

theorem markFirst_nil (wits : List VKeyWitness) : markFirst c [] wits = wits.map fun w => (false, w) := by
  induction wits with
  | nil => rfl
  | cons wit wits ih => rw [markFirst, if_neg (by simp), ih, List.map_cons]

theorem mem_iff_marked_or_leftOver (needed : List AddrKeyhash) {wits : List VKeyWitness} {w : VKeyWitness} :
    w ∈ wits ↔ (true, w) ∈ markFirst c needed wits ∨ w ∈ leftOver c needed wits := by
  induction wits generalizing needed with
  | nil => simp [markFirst, leftOver]
  | cons wit wits ih =>
    unfold markFirst leftOver
    split
    · rw [List.mem_cons, List.mem_cons, ih, Prod.mk.injEq, or_assoc, eq_self, true_and]
    · rw [List.mem_cons, List.mem_cons, List.mem_cons, ih needed]
      simp only [Prod.mk.injEq, Bool.true_eq_false, false_and, false_or]
      tauto

section Walk
variable {errs : VkErrors} {data : Bytes} {k : AddrKeyhash}

/-- A call of `check_vk_wit` verifies the first witness with the hash, and marks nothing else. -/
theorem checkVkWit_marks {needed : List AddrKeyhash} {wits : List VKeyWitness} {marked : List (Bool × VKeyWitness)}
    (h : checkVkWit c errs k data (markFirst c needed wits) = .ok marked) :
    marked = markFirst c (k :: needed) wits := by
  induction wits generalizing needed marked with
  | nil => simp [markFirst, checkVkWit] at h
  | cons wit wits ih =>
    -- the head of the list is either the witness looked for, or skipped with its mark kept
    have hstep : ∀ covered rest, checkVkWit c errs k data ((covered, wit) :: rest) = .ok marked →
        (c.blake2b224 wit.vkey = k ∧ marked = (true, wit) :: rest) ∨
          c.blake2b224 wit.vkey ≠ k ∧ ∃ rest', checkVkWit c errs k data rest = .ok rest' ∧
            marked = (covered, wit) :: rest' := by
      intro covered rest h
      unfold checkVkWit at h
      split at h
      · next hk =>
        obtain ⟨valid, -, h⟩ := Outcome.bind_eq_ok.1 h
        split at h
        · exact .inl ⟨hk, (Outcome.ok.inj h).symm⟩
        · cases h
      · next hk =>
        obtain ⟨rest', hrest, h⟩ := Outcome.bind_eq_ok.1 h
        exact .inr ⟨hk, rest', hrest, (Outcome.ok.inj h).symm⟩
    unfold markFirst at h
    split at h
    · next hin =>
      rcases hstep _ _ h with ⟨hk, rfl⟩ | ⟨hk, rest', hrest, rfl⟩
      · rw [markFirst, if_pos (by simp [hk]), hk, List.filter_cons_of_neg (by simp)]
      · rw [markFirst, if_pos (List.mem_cons_of_mem _ hin), List.filter_cons_of_pos (by simpa using Ne.symm hk),
          ih hrest]
    · next hin =>
      rcases hstep _ _ h with ⟨hk, rfl⟩ | ⟨hk, rest', hrest, rfl⟩
      · have hself : needed.filter (· ≠ k) = needed :=
          List.filter_eq_self.2 fun x hx => by simpa using fun hxk : x = k => hin (hk ▸ hxk ▸ hx)
        rw [markFirst, if_pos (by simp [hk]), hk, List.filter_cons_of_neg (by simp), hself]
      · rw [markFirst, if_neg (by simp [hk, hin]), ih hrest]

theorem checkVkWit_valid {wits marked : List (Bool × VKeyWitness)} (h : checkVkWit c errs k data wits = .ok marked) :
    ∃ wit ∈ wits.map Prod.snd, c.blake2b224 wit.vkey = k ∧ ValidSignature c data wit ∧
      ∀ w, (true, w) ∈ marked → (true, w) ∈ wits ∨ w = wit := by
  induction wits generalizing marked with
  | nil => cases h
  | cons head rest ih =>
    obtain ⟨covered, wit⟩ := head
    unfold checkVkWit at h
    split at h
    · next hk =>
      obtain ⟨valid, hvalid, h⟩ := Outcome.bind_eq_ok.1 h
      split at h
      · next ht =>
        obtain rfl := Outcome.ok.inj h
        refine ⟨wit, by simp, hk, by rw [ValidSignature, hvalid, ht], fun w hw => ?_⟩
        rcases List.mem_cons.1 hw with hw | hw
        · exact .inr (Prod.mk.inj hw).2
        · exact .inl (List.mem_cons_of_mem _ hw)
      · cases h
    · obtain ⟨rest', hrest, h⟩ := Outcome.bind_eq_ok.1 h
      obtain rfl := Outcome.ok.inj h
      obtain ⟨wit', hmem, hk, hvalid, honly⟩ := ih hrest
      refine ⟨wit', List.mem_cons_of_mem _ hmem, hk, hvalid, fun w hw => ?_⟩
      rcases List.mem_cons.1 hw with hw | hw
      · exact .inl (hw ▸ List.mem_cons_self)
      · exact (honly w hw).imp_left (List.mem_cons_of_mem _)

/-! ### The walk over the inputs -/

/-- The hash of the key that locks an input, when a key does. -/
def keyHashOf (address : MultiEraOutput → Option Bytes) (utxos : UTxOs) (input : TransactionInput) :
    Option AddrKeyhash :=
  match ((utxos (.alonzoCompatible input)).bind address).bind getPaymentPart with
  | some (.key k) => some k
  | _ => none

/-- Where the walk stands after inputs with the keys `needed`. -/
structure Walked (c : Crypto) (data : Bytes) (wits : List VKeyWitness) (needed : List AddrKeyhash)
    (marked : List (Bool × VKeyWitness)) : Prop where
  marks : marked = markFirst c needed wits
  valid : ∀ w, (true, w) ∈ marked → ValidSignature c data w
  matched : ∀ k ∈ needed, ∃ w ∈ wits, c.blake2b224 w.vkey = k ∧ ValidSignature c data w

variable {wits : List VKeyWitness} {needed : List AddrKeyhash} {marked marked' : List (Bool × VKeyWitness)}

theorem map_snd_markFirst : (markFirst c needed wits).map Prod.snd = wits := by
  induction wits generalizing needed with
  | nil => rfl
  | cons wit wits ih =>
    unfold markFirst
    split
    · rw [List.map_cons, ih]
    · rw [List.map_cons, ih]

theorem Walked.start : Walked c data wits [] (wits.map fun w => (false, w)) where
  marks := (markFirst_nil wits).symm
  valid w hw := by simp at hw
  matched k hk := by simp at hk

theorem Walked.checkVkWit (hw : Walked c data wits needed marked)
    (h : checkVkWit c errs k data marked = .ok marked') : Walked c data wits (needed ++ [k]) marked' := by
  obtain ⟨wit, hmem, hk, hvalid, honly⟩ := checkVkWit_valid h
  rw [hw.marks, map_snd_markFirst] at hmem
  refine ⟨?_, ?_, ?_⟩
  · rw [hw.marks] at h
    rw [checkVkWit_marks h]
    exact markFirst_congr (fun x => by simp [or_comm]) wits
  · intro w hw'
    rcases honly w hw' with hold | rfl
    · exact hw.valid w hold
    · exact hvalid
  · intro x hx
    rcases List.mem_append.1 hx with hx | hx
    · exact hw.matched x hx
    · obtain rfl := List.mem_singleton.1 hx
      exact ⟨wit, hmem, hk, hvalid⟩

theorem checkVkeyInput_walked {address : MultiEraOutput → Option Bytes} {other : ValidationResult} {utxos : UTxOs}
    {pre : List TransactionInput} {input : TransactionInput}
    (hw : Walked c data wits (pre.filterMap (keyHashOf address utxos)) marked)
    (h : checkVkeyInput c errs address other utxos data marked input = .ok marked') :
    Walked c data wits ((pre ++ [input]).filterMap (keyHashOf address utxos)) marked' := by
  rw [List.filterMap_append]
  -- an input that no key locks leaves the marks alone
  have hskip : keyHashOf address utxos input = none → marked = marked' →
      Walked c data wits (pre.filterMap (keyHashOf address utxos) ++ [input].filterMap (keyHashOf address utxos))
        marked' := by
    rintro hnone rfl
    rwa [List.filterMap_cons_none hnone, List.filterMap_nil, List.append_nil]
  unfold checkVkeyInput at h
  split at h
  · next output houtput =>
    split at h
    · next bytes hbytes =>
      obtain ⟨part, hpart, h⟩ := Outcome.bind_eq_ok.1 h
      rw [Outcome.ofOption_eq_ok] at hpart
      cases part with
      | key k =>
        have hkey : keyHashOf address utxos input = some k := by simp [keyHashOf, houtput, hbytes, hpart]
        rw [List.filterMap_cons_some hkey, List.filterMap_nil]
        exact hw.checkVkWit h
      | script hash => exact hskip (by simp [keyHashOf, houtput, hbytes, hpart]) (Outcome.ok.inj h)
    · next hbytes =>
      obtain ⟨-, h⟩ := Outcome.seq_eq_ok.1 h
      exact hskip (by simp [keyHashOf, houtput, hbytes]) (Outcome.ok.inj h)
  · cases h

/-! ### The walk over what is left -/

theorem checkRemainingVkWits_head {w : VKeyWitness}
    (h : checkRemainingVkWits c errs data (markFirst c needed wits) = .ok ())
    (hw : w ∈ (leftOver c needed wits).head?) : ValidSignature c data w := by
  induction wits generalizing needed with
  | nil => simp [leftOver] at hw
  | cons wit wits ih =>
    unfold markFirst at h
    unfold leftOver at hw
    split at h
    · next hin =>
      rw [if_pos hin] at hw
      exact ih h hw
    · next hin =>
      rw [if_neg hin, List.head?_cons, Option.mem_some_iff] at hw
      subst hw
      obtain ⟨valid, hvalid, h⟩ := Outcome.bind_eq_ok.1 h
      rw [ValidSignature, hvalid, Outcome.ensure_eq_ok.1 h]

theorem Walked.verified (hw : Walked c data wits needed marked)
    (h : checkRemainingVkWits c errs data marked = .ok ()) {w : VKeyWitness} (hmem : w ∈ wits) :
    ValidSignature c data w ∨ w ∈ (leftOver c needed wits).tail := by
  rw [hw.marks] at h
  have hhead : ∀ w ∈ (leftOver c needed wits).head?, ValidSignature c data w :=
    fun w => checkRemainingVkWits_head h
  rcases (mem_iff_marked_or_leftOver needed).1 hmem with hmark | hleft
  · exact .inl (hw.valid w (hw.marks ▸ hmark))
  · cases hl : leftOver c needed wits with
    | nil => simp [hl] at hleft
    | cons first rest =>
      rw [hl] at hleft hhead
      rcases List.mem_cons.1 hleft with rfl | htail
      · exact .inl (hhead w rfl)
      · exact .inr htail

/-- What an accepting call has verified: a witness for every key among the inputs and collaterals, and
every witness outside the tail of the left-over ones. -/
theorem checkVkeyInputWits_verified {address : MultiEraOutput → Option Bytes} {other : ValidationResult}
    {inputs : List TransactionInput} {collateral : Option (List TransactionInput)}
    {owits : Option (List VKeyWitness)} {utxos : UTxOs}
    (h : checkVkeyInputWits c errs address other inputs collateral owits data utxos = .ok ()) :
    (∀ input ∈ inputs ++ collateral.getD [], ∀ k, keyHashOf address utxos input = some k →
      ∃ w ∈ owits.getD [], c.blake2b224 w.vkey = k ∧ ValidSignature c data w) ∧
    ∀ w ∈ owits.getD [], ValidSignature c data w ∨
      w ∈ (leftOver c ((inputs ++ collateral.getD []).filterMap (keyHashOf address utxos)) (owits.getD [])).tail := by
  obtain ⟨start, hstart, hwalk⟩ := Outcome.bind_eq_ok.1 h
  obtain ⟨wits, hwits, rfl⟩ := Outcome.map_eq_ok.1 hstart
  rw [Outcome.ofOption_eq_ok] at hwits
  subst hwits
  obtain ⟨marked, hfold, hrest⟩ := Outcome.bind_eq_ok.1 hwalk
  have hw := Outcome.fold_inv
    (fun pre marked => Walked c data wits (pre.filterMap (keyHashOf address utxos)) marked)
    (fun pre input s s' hs hstep => checkVkeyInput_walked hs hstep) Walked.start hfold
  refine ⟨?_, ?_⟩
  · intro input hinput k hk
    exact hw.matched k (List.mem_filterMap.2 ⟨input, hinput, hk⟩)
  · intro w hmem
    exact hw.verified hrest hmem

end Walk

/-! ### The eras -/

/-- The key that locks an output of any era, by its address. -/
def lockingKey (utxos : UTxOs) (input : TransactionInput) : Option AddrKeyhash :=
  match (utxos (.alonzoCompatible input)).bind MultiEraOutput.address with
  | some (.shelley a) => match a.payment with
    | .key k => some k
    | .script _ => none
  | _ => none

/-- What the witnesses of a transaction owe to its inputs and collaterals: all of them signed it, and the
key of every key-locked one is among them. -/
structure Signed (c : Crypto) (data : Bytes) (inputs : List TransactionInput) (wits : List VKeyWitness)
    (utxos : UTxOs) : Prop where
  valid : ∀ w ∈ wits, ValidSignature c data w
  matched : ∀ input ∈ inputs, ∀ k, lockingKey utxos input = some k → ∃ w ∈ wits, c.blake2b224 w.vkey = k

/-- The witnesses from the second left-over one on signed the data. -/
def RestSigned (c : Crypto) (data : Bytes) (inputs : List TransactionInput) (wits : List VKeyWitness)
    (utxos : UTxOs) : Prop :=
  ∀ w ∈ (leftOver c (inputs.filterMap (lockingKey utxos)) wits).tail, ValidSignature c data w

section Eras
variable {data : Bytes} {utxos : UTxOs}

theorem keyHashOf_eq_lockingKey {address : MultiEraOutput → Option Bytes} {input : TransactionInput}
    (haddr : ∀ o, utxos (.alonzoCompatible input) = some o → (address o).bind getPaymentPart =
      match o.address with
      | some (.shelley a) => some a.payment
      | _ => none) : keyHashOf address utxos input = lockingKey utxos input := by
  unfold keyHashOf lockingKey
  cases hu : utxos (.alonzoCompatible input) with
  | none => rfl
  | some o =>
    rw [Option.bind_some, Option.bind_some, haddr o hu]
    rcases o.address with _ | ⟨_ | a | _⟩
    · rfl
    · rfl
    · rcases ha : a.payment with k | hash <;> simp [ha]
    · rfl

theorem getPaymentPart_eq (bytes : Bytes) :
    getPaymentPart bytes = match Address.fromBytes bytes with
      | some (.shelley a) => some a.payment
      | _ => none := by
  unfold getPaymentPart getShelleyAddress
  rcases Address.fromBytes bytes with _ | ⟨_ | a | _⟩ <;> rfl

/-- An accepting call proves all the signatures exactly when those it does not look at are good. -/
theorem signed_iff_restSigned {errs : VkErrors} {address : MultiEraOutput → Option Bytes} {other : ValidationResult}
    {inputs : List TransactionInput} {collateral : Option (List TransactionInput)}
    {wits : Option (List VKeyWitness)} (haddr : ∀ input, keyHashOf address utxos input = lockingKey utxos input)
    (h : checkVkeyInputWits c errs address other inputs collateral wits data utxos = .ok ()) :
    Signed c data (inputs ++ collateral.getD []) (wits.getD []) utxos ↔
      RestSigned c data (inputs ++ collateral.getD []) (wits.getD []) utxos := by
  obtain ⟨hmatched, hverified⟩ := checkVkeyInputWits_verified h
  simp only [haddr] at hmatched hverified
  constructor
  · intro hs w hw
    exact hs.valid w ((mem_iff_marked_or_leftOver _).2 (.inr (List.mem_of_mem_tail hw)))
  · intro hrest
    refine ⟨fun w hw => ?_, fun input hinput k hk => ?_⟩
    · exact (hverified w (by simpa using hw)).elim id fun htail => hrest w (by simpa [funext haddr] using htail)
    · obtain ⟨w, hw, hwk, -⟩ := hmatched input hinput k hk
      exact ⟨w, hw, hwk⟩

theorem Alonzo.keyHashOf_eq (hera : ∀ i o, utxos i = some o → o.asAlonzo.isSome) (input : TransactionInput) :
    keyHashOf Alonzo.alonzoAddress utxos input = lockingKey utxos input := by
  apply keyHashOf_eq_lockingKey
  intro o ho
  have hsome := hera _ o ho
  cases o with
  | alonzoCompatible o era => exact getPaymentPart_eq o.address
  | babbage o => simp [MultiEraOutput.asAlonzo] at hsome
  | conway o => simp [MultiEraOutput.asAlonzo] at hsome
  | byron o => simp [MultiEraOutput.asAlonzo] at hsome

theorem Babbage.keyHashOf_eq (hera : ∀ i o, utxos i = some o → o.asBabbage.isSome) (input : TransactionInput) :
    keyHashOf Babbage.babbageAddress utxos input = lockingKey utxos input := by
  apply keyHashOf_eq_lockingKey
  intro o ho
  have hsome := hera _ o ho
  cases o with
  | babbage o => cases o with
    | legacy o => exact getPaymentPart_eq o.address
    | postAlonzo o => exact getPaymentPart_eq o.address
  | alonzoCompatible o era => simp [MultiEraOutput.asBabbage] at hsome
  | conway o => simp [MultiEraOutput.asBabbage] at hsome
  | byron o => simp [MultiEraOutput.asBabbage] at hsome

theorem Conway.keyHashOf_eq (input : TransactionInput) :
    keyHashOf Conway.vkeyAddress utxos input = lockingKey utxos input := by
  apply keyHashOf_eq_lockingKey
  intro o _
  cases o with
  | alonzoCompatible o era => exact getPaymentPart_eq o.address
  | babbage o => cases o with
    | legacy o => exact getPaymentPart_eq o.address
    | postAlonzo o => exact getPaymentPart_eq o.address
  | conway o => cases o with
    | legacy o => exact getPaymentPart_eq o.address
    | postAlonzo o => exact getPaymentPart_eq o.address
  | byron o => rfl

end Eras

/-- The inputs and collaterals of an Alonzo transaction. -/
def Alonzo.spent (mtx : Alonzo.Tx) : List TransactionInput :=
  mtx.transactionBody.inner.inputs ++ mtx.transactionBody.inner.collateral.getD []

/-- The inputs and collaterals of a Babbage transaction. -/
def Babbage.spent (mtx : Babbage.Tx) : List TransactionInput :=
  mtx.transactionBody.inner.inputs ++ mtx.transactionBody.inner.collateral.getD []

/-- The inputs and collaterals of a Conway transaction. -/
def Conway.spent (mtx : Conway.Tx) : List TransactionInput :=
  mtx.transactionBody.inner.inputs ++ mtx.transactionBody.inner.collateral.getD []

/-- In each era, with a UTxO map of the era's outputs (of any outputs in Conway): when the check of the key
witnesses accepts, they are all valid and match the inputs and collaterals exactly when every left-over
witness after the first is valid. -/
theorem vkeyInputWits_signed_iff (c : Crypto) (utxos : UTxOs) (wits : Option (List VKeyWitness)) :
    (∀ mtx : Alonzo.Tx, (∀ i o, utxos i = some o → o.asAlonzo.isSome) →
      Alonzo.checkVkeyInputWits c mtx wits utxos = .ok () →
      (Signed c (Alonzo.txHash c mtx) (Alonzo.spent mtx) (wits.getD []) utxos ↔
        RestSigned c (Alonzo.txHash c mtx) (Alonzo.spent mtx) (wits.getD []) utxos)) ∧
    (∀ mtx : Babbage.Tx, (∀ i o, utxos i = some o → o.asBabbage.isSome) →
      Babbage.checkVkeyInputWits c mtx wits utxos = .ok () →
      (Signed c (Babbage.txHash c mtx) (Babbage.spent mtx) (wits.getD []) utxos ↔
        RestSigned c (Babbage.txHash c mtx) (Babbage.spent mtx) (wits.getD []) utxos)) ∧
    (∀ mtx : Conway.Tx, Conway.checkVkeyInputWits c mtx wits utxos = .ok () →
      (Signed c (Conway.txHash c mtx) (Conway.spent mtx) (wits.getD []) utxos ↔
        RestSigned c (Conway.txHash c mtx) (Conway.spent mtx) (wits.getD []) utxos)) := by
  refine ⟨?_, ?_, ?_⟩
  · intro mtx hera h
    exact signed_iff_restSigned (Alonzo.keyHashOf_eq hera) h
  · intro mtx hera h
    exact signed_iff_restSigned (Babbage.keyHashOf_eq hera) h
  · intro mtx h
    exact signed_iff_restSigned Conway.keyHashOf_eq h

/-! ### A witness nobody verifies

The transfer spends a key-locked output. Its first witness is the one needed; the second repeats it; the
third has the same key and a signature of zeros. -/

/-- The three witnesses. -/
def threeWits : List VKeyWitness :=
  [⟨sampleVkey, transferSignature⟩, ⟨sampleVkey, transferSignature⟩, ⟨sampleVkey, List.replicate 64 0⟩]

/-- The bytes of a witness set that holds them. -/
def threeWitsBytes : Bytes :=
  Cbor.bigEndian 40 0xa1008382582003a107bff3ce10be1d70dd18e74bc09967e4d6309ba50d5f1ddc8664125531b85840 ++
    Cbor.bigEndian 40 0x7af785c13e2e5070f7358bba51d1138810841815f60e95724191b0891433b3d26a97eedb59eafc00 ++
    Cbor.bigEndian 40 0xc2369104f6248ede79d019426029e1c4543bbc1085e7770682582003a107bff3ce10be1d70dd18e7 ++
    Cbor.bigEndian 40 0x4bc09967e4d6309ba50d5f1ddc8664125531b858407af785c13e2e5070f7358bba51d11388108418 ++
    Cbor.bigEndian 40 0x15f60e95724191b0891433b3d26a97eedb59eafc00c2369104f6248ede79d019426029e1c4543bbc ++
    Cbor.bigEndian 40 0x1085e7770682582003a107bff3ce10be1d70dd18e74bc09967e4d6309ba50d5f1ddc8664125531b8 ++
    Cbor.bigEndian 40 0x58400000000000000000000000000000000000000000000000000000000000000000000000000000 ++
    Cbor.bigEndian 26 0x0000000000000000000000000000000000000000000000000000

/-- The transfer with the three witnesses, in each era. -/
def threeWitsTxs : Alonzo.Tx × Babbage.Tx × Conway.Tx :=
  (Alonzo.transferTx ⟨threeWitsBytes, { vkeywitness := some threeWits }, by decide⟩,
    Babbage.transferTx ⟨threeWitsBytes, { vkeywitness := some threeWits }, by decide⟩,
    Conway.transferTx ⟨threeWitsBytes, { vkeywitness := some threeWits }, by decide⟩)

/-- The output that is spent, of 10 ada. -/
def spentOutput : Alonzo.TransactionOutput := ⟨sampleAddress, .coin 10000000, none⟩

theorem singleUtxo_all {p : MultiEraOutput → Bool} {output : MultiEraOutput} (h : p output = true) :
    ∀ i o, singleUtxo output i = some o → p o := by
  intro i o ho
  unfold singleUtxo at ho
  split at ho
  · exact Option.some.inj ho ▸ h
  · cases ho

/-- The check accepts in each era, although the third signature does not verify. -/
theorem thirdWitness_unverified :
    (Alonzo.checkVkeyInputWits transferCrypto threeWitsTxs.1 (some threeWits)
        (singleUtxo (.alonzoCompatible spentOutput .alonzo)) = .ok () ∧
      ¬ Signed transferCrypto (Alonzo.txHash transferCrypto threeWitsTxs.1) (Alonzo.spent threeWitsTxs.1) threeWits
        (singleUtxo (.alonzoCompatible spentOutput .alonzo))) ∧
    (Babbage.checkVkeyInputWits transferCrypto threeWitsTxs.2.1 (some threeWits)
        (singleUtxo (.babbage (.legacy spentOutput))) = .ok () ∧
      ¬ Signed transferCrypto (Babbage.txHash transferCrypto threeWitsTxs.2.1) (Babbage.spent threeWitsTxs.2.1)
        threeWits (singleUtxo (.babbage (.legacy spentOutput)))) ∧
    (Conway.checkVkeyInputWits transferCrypto threeWitsTxs.2.2 (some threeWits)
        (singleUtxo (.conway (.legacy spentOutput))) = .ok () ∧
      ¬ Signed transferCrypto (Conway.txHash transferCrypto threeWitsTxs.2.2) (Conway.spent threeWitsTxs.2.2)
        threeWits (singleUtxo (.conway (.legacy spentOutput)))) := by
  have hthird : ∀ {data : Bytes} {spent : List TransactionInput} {utxos : UTxOs},
      ¬ ValidSignature transferCrypto data ⟨sampleVkey, List.replicate 64 0⟩ →
      ¬ Signed transferCrypto data spent threeWits utxos := by
    intro data spent utxos hbad h
    exact hbad (h.valid _ (by simp [threeWits]))
  refine ⟨⟨?_, hthird ?_⟩, ⟨?_, hthird ?_⟩, ⟨?_, hthird ?_⟩⟩
  all_goals decide +kernel

/-- The check of the first witness alone, through the general statement. -/
theorem oneWitness_signed_iff :
    let wits := some [(⟨sampleVkey, transferSignature⟩ : VKeyWitness)]
    let data := Hash.toBytes transferHash
    (Signed transferCrypto data [⟨0, 0⟩] (wits.getD []) (singleUtxo (.alonzoCompatible spentOutput .alonzo)) ↔
      RestSigned transferCrypto data [⟨0, 0⟩] (wits.getD []) (singleUtxo (.alonzoCompatible spentOutput .alonzo))) ∧
    (Signed transferCrypto data [⟨0, 0⟩] (wits.getD []) (singleUtxo (.babbage (.legacy spentOutput))) ↔
      RestSigned transferCrypto data [⟨0, 0⟩] (wits.getD []) (singleUtxo (.babbage (.legacy spentOutput)))) ∧
    (Signed transferCrypto data [⟨0, 0⟩] (wits.getD []) (singleUtxo (.conway (.legacy spentOutput))) ↔
      RestSigned transferCrypto data [⟨0, 0⟩] (wits.getD []) (singleUtxo (.conway (.legacy spentOutput)))) :=
  ⟨(vkeyInputWits_signed_iff transferCrypto _ _).1 threeWitsTxs.1 (singleUtxo_all rfl) (by decide +kernel),
    (vkeyInputWits_signed_iff transferCrypto _ _).2.1 threeWitsTxs.2.1 (singleUtxo_all rfl) (by decide +kernel),
    (vkeyInputWits_signed_iff transferCrypto _ _).2.2 threeWitsTxs.2.2 (by decide +kernel)⟩

end Pallas
