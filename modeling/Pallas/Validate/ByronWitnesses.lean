import Pallas.Validate.Byron
import Pallas.Lib.Loops

/-!
# The witnesses of a Byron transaction

`check_witnesses` takes for each input the first witness that redeems its address. What it accepts is witnessed (`Witnessed`), and it
panics exactly at the first input that it reaches among the ones it cannot handle (`Unhandled`): from an address that is neither of a
key nor a redeem address, or witnessed first by a key or a signature of the wrong length.
-/

namespace Pallas.Byron

/-- The type of address that a witness is for. -/
def TaggedWitness.kind (wit : TaggedWitness) : AddrType := if wit.redeem then .redeem else .pubKey

/-- What a key shows of itself, for an address that is of a key or a redeem address. -/
def spendingOf (pubKey : Bytes) : AddrType → Option SpendingData
  | .pubKey => some (.pubKey pubKey)
  | .redeem => some (.redeem pubKey)
  | _ => none

section Crypto
variable (c : Crypto)

/-- The witness is of the address's type, and its key hashes with type and attributes to the address's root. -/
def Redeems (payload : AddressPayload) (wit : TaggedWitness) : Prop :=
  wit.kind = payload.addrtype ∧
    ∃ spending, spendingOf wit.pubKey payload.addrtype = some spending ∧
      hashAddressId c payload.addrtype spending payload.attributes = payload.root

instance (payload : AddressPayload) (wit : TaggedWitness) : Decidable (Redeems c payload wit) :=
  match h : spendingOf wit.pubKey payload.addrtype with
  | none => isFalse fun ⟨_, _, hs, _⟩ => by rw [h] at hs; cases hs
  | some spending => decidable_of_iff
      (wit.kind = payload.addrtype ∧ hashAddressId c payload.addrtype spending payload.attributes = payload.root) (by
        simp [Redeems, h])

/-- The first witness that redeems the address. -/
def firstRedeemer (payload : AddressPayload) (wits : List TaggedWitness) : Option TaggedWitness :=
  wits.find? fun wit => Redeems c payload wit

/-- The key has a prefix to verify with, and the signature its length. -/
def TaggedWitness.WellSized (wit : TaggedWitness) : Prop := 32 ≤ wit.pubKey.length ∧ wit.signature.length = 64

/-- The address is of a key or a redeem address. -/
def Spendable (payload : AddressPayload) : Prop := payload.addrtype = .pubKey ∨ payload.addrtype = .redeem

/-- A witness of one of the two kinds that are checked. -/
def Twit.tagged : Twit → Option TaggedWitness
  | .pkWitness pk sig => some ⟨pk, sig, false⟩
  | .redeemWitness pk sig => some ⟨pk, sig, true⟩
  | _ => none

variable (mtxp : TxPayload) (utxos : UTxOs) (protMagic : UInt32) (wits : List TaggedWitness)

/-- The bytes that a witness signs. -/
def signedData (wit : TaggedWitness) :
    Bytes := getDataToVerify wit.redeem protMagic (c.blake2b256 mtxp.transaction.rawCbor)

/-- What the address of an input's output says. -/
def inputPayload (input : TxIn) : Option AddressPayload :=
  (byronOutput utxos input).bind fun txOut => txOut.address.decode

/-- The transaction has a witness that redeems the input's address and whose signature verifies. -/
def Witnessed (input : TxIn) : Prop :=
  ∃ payload, inputPayload utxos input = some payload ∧ ∃ twit ∈ mtxp.witness.inner, ∃ wit, twit.tagged = some wit ∧
    Redeems c payload wit ∧ c.verify (wit.pubKey.take 32) (signedData c mtxp protMagic wit) wit.signature = true

/-- The first witness that redeems the input's address is well sized, and its signature verifies. -/
def PassedInput (input : TxIn) : Prop :=
  ∃ payload wit, inputPayload utxos input = some payload ∧ Spendable payload ∧ firstRedeemer c payload wits = some wit ∧
    wit.WellSized ∧ c.verify (wit.pubKey.take 32) (signedData c mtxp protMagic wit) wit.signature = true

/-- The input's address is of another type while there is a witness to try, or the first witness that redeems it is of a wrong size. -/
def Unhandled (input : TxIn) : Prop :=
  ∃ payload, inputPayload utxos input = some payload ∧
    (¬ Spendable payload ∧ wits ≠ [] ∨ Spendable payload ∧ ∃ wit, firstRedeemer c payload wits = some wit ∧
      ¬ wit.WellSized)

/-- All witnesses are of the two kinds, and an input that is not handled comes after none but such as pass. -/
def ReachesUnhandled : Prop :=
  ∃ wits, mtxp.witness.inner.mapM Twit.tagged = some wits ∧
    Outcome.Reaches (PassedInput c mtxp utxos protMagic wits) (Unhandled c utxos wits) mtxp.transaction.inner.inputs

/-- The check does not panic, and what it accepts is witnessed. -/
def WitnessesChecked : Prop :=
  checkWitnesses c mtxp utxos protMagic ≠ .panic ∧ (checkWitnesses c mtxp utxos protMagic = .ok () →
    ∀ input ∈ mtxp.transaction.inner.inputs, Witnessed c mtxp utxos protMagic input)

end Crypto

variable {c : Crypto} {payload : AddressPayload} {wit : TaggedWitness} {wits : List TaggedWitness} {mtxp : TxPayload}
  {utxos : UTxOs} {protMagic : UInt32} {input : TxIn}

/-! ### One input -/

theorem tagWitnesses_eq (ws : List Twit) : tagWitnesses ws = match ws.mapM Twit.tagged with
    | some wits => .ok wits
    | none => .err (.byron .unableToProcessWitness) := by
  suffices hacc : ∀ acc, Outcome.fold (fun acc (wit : Twit) => match wit with
        | .pkWitness pk sig => .ok (acc ++ [(⟨pk, sig, false⟩ : TaggedWitness)])
        | .redeemWitness pk sig => .ok (acc ++ [⟨pk, sig, true⟩])
        | _ => .err (ValidationError.byron .unableToProcessWitness)) acc ws =
      match ws.mapM Twit.tagged with
      | some wits => .ok (acc ++ wits)
      | none => .err (.byron .unableToProcessWitness) from hacc []
  induction ws with
  | nil => simp
  | cons w ws ih =>
    intro acc
    rw [Outcome.fold_cons, List.mapM_cons]
    cases w with
    | pkWitness pk sig =>
      rw [Outcome.ok_bind, ih]
      cases ws.mapM Twit.tagged <;> simp [Twit.tagged]
    | redeemWitness pk sig =>
      rw [Outcome.ok_bind, ih]
      cases ws.mapM Twit.tagged <;> simp [Twit.tagged]
    | scriptWitness => rfl
    | other tag => rfl

theorem redeems_of_spendable (h : Spendable payload) :
    redeems c wit payload = .ok (decide (Redeems c payload wit)) := by
  have hkind : wit.kind = if wit.redeem then .redeem else .pubKey := rfl
  rcases h with h | h <;>
    simp only [redeems, h, mkSpendingData, Outcome.ok_bind, Redeems, spendingOf, ← hkind,
      Option.some.injEq, exists_eq_left',
      Outcome.ok.injEq, Bool.decide_and, Bool.and_comm (decide (wit.kind = _))] <;>
    rfl

theorem redeems_of_not_spendable (h : ¬ Spendable payload) : redeems c wit payload = .panic := by
  rw [redeems]
  cases htype : payload.addrtype with
  | pubKey => exact absurd (.inl htype) h
  | redeem => exact absurd (.inr htype) h
  | script => rfl
  | other n => rfl

theorem findWitness_of_spendable (h : Spendable payload) :
    findWitness c payload wits = match firstRedeemer c payload wits with
    | some wit => .ok wit
    | none => .err (.byron .missingWitness) := by
  induction wits with
  | nil => rfl
  | cons wit wits ih =>
    rw [findWitness, redeems_of_spendable h, Outcome.ok_bind, firstRedeemer, List.find?_cons]
    by_cases hwit : Redeems c payload wit
    · simp [hwit]
    · simpa [hwit, firstRedeemer] using ih

theorem findWitness_of_not_spendable (h : ¬ Spendable payload) : findWitness c payload wits =
    if wits = [] then .err (.byron .missingWitness) else .panic := by
  cases wits with
  | nil => rfl
  | cons wit wits => rw [findWitness, redeems_of_not_spendable h]; rfl

/-- The body of the loop of `check_witnesses`. -/
def checkInput (c : Crypto) (mtxp : TxPayload) (utxos : UTxOs) (protMagic : UInt32)
    (wits : List TaggedWitness) (input : TxIn) :
    ValidationResult := do
  let txOut ← Outcome.ofOption (.byron .inputNotInUTxO) (byronOutput utxos input)
  let wit ← findRawWitness c txOut wits
  let valid ← verifyWitness c wit (signedData c mtxp protMagic wit)
  check (.byron .wrongSignature) valid

theorem checkInput_eq {payload : AddressPayload} (h : inputPayload utxos input = some payload) :
    checkInput c mtxp utxos protMagic wits input = (do
      let wit ← findWitness c payload wits
      let valid ← verifyWitness c wit (signedData c mtxp protMagic wit)
      check (.byron .wrongSignature) valid) := by
  obtain ⟨txOut, hout, hpayload⟩ := Option.bind_eq_some_iff.1 h
  have hfind : findRawWitness c txOut wits = findWitness c payload wits := by
    unfold findRawWitness
    rw [hpayload]
    rfl
  rw [checkInput, hout, Outcome.ofOption, Outcome.ok_bind, hfind]

theorem checkInput_of_none (h : inputPayload utxos input = none) :
    ∃ e, checkInput c mtxp utxos protMagic wits input = .err e := by
  unfold checkInput
  cases hout : byronOutput utxos input with
  | none => exact ⟨_, rfl⟩
  | some txOut =>
    rw [inputPayload, hout, Option.bind_some] at h
    have hfind : findRawWitness c txOut wits = .err (.byron .unableToProcessWitness) := by
      unfold findRawWitness
      rw [h]
      rfl
    exact ⟨_, by rw [Outcome.ofOption, Outcome.ok_bind, hfind, Outcome.err_bind]⟩

theorem verifyWitness_eq {data : Bytes} (wit : TaggedWitness) :
    (wit.WellSized → verifyWitness c wit data = .ok (c.verify (wit.pubKey.take 32) data wit.signature)) ∧
    (¬ wit.WellSized → verifyWitness c wit data = .panic) := by
  unfold verifyWitness TaggedWitness.WellSized
  constructor
  · rintro ⟨hkey, hsig⟩
    rw [if_neg (by omega), if_neg (by omega)]
  · intro h
    split_ifs with hkey hsig
    · rfl
    · rfl
    · exact absurd ⟨by omega, not_not.1 hsig⟩ h

theorem firstRedeemer_spec (h : firstRedeemer c payload wits = some wit) : wit ∈ wits ∧ Redeems c payload wit := by
  have hredeems := List.find?_some h
  exact ⟨List.mem_of_find?_eq_some h, of_decide_eq_true hredeems⟩

theorem checkInput_eq_ok :
    checkInput c mtxp utxos protMagic wits input = .ok () ↔ PassedInput c mtxp utxos protMagic wits input := by
  unfold PassedInput
  cases hpayload : inputPayload utxos input with
  | none =>
    obtain ⟨e, he⟩ := @checkInput_of_none c wits mtxp utxos protMagic input hpayload
    simp [he]
  | some payload =>
    rw [checkInput_eq hpayload]
    by_cases hspend : Spendable payload
    · rw [findWitness_of_spendable hspend]
      cases hfirst : firstRedeemer c payload wits with
      | none => simp [hfirst]
      | some wit =>
        by_cases hsize : wit.WellSized
        · simp [hspend, hfirst, hsize, (verifyWitness_eq wit).1 hsize]
        · simp [hfirst, hsize, (verifyWitness_eq wit).2 hsize]
    · rw [findWitness_of_not_spendable hspend]
      split_ifs <;> simp [hspend]

theorem checkInput_eq_panic : checkInput c mtxp utxos protMagic wits input = .panic ↔ Unhandled c utxos wits input := by
  unfold Unhandled
  cases hpayload : inputPayload utxos input with
  | none =>
    obtain ⟨e, he⟩ := @checkInput_of_none c wits mtxp utxos protMagic input hpayload
    simp [he]
  | some payload =>
    rw [checkInput_eq hpayload]
    by_cases hspend : Spendable payload
    · rw [findWitness_of_spendable hspend]
      cases hfirst : firstRedeemer c payload wits with
      | none => simp [hspend, hfirst]
      | some wit =>
        by_cases hsize : wit.WellSized
        · simp [hspend, hfirst, hsize, (verifyWitness_eq wit).1 hsize]
        · simp [hspend, hfirst, hsize, (verifyWitness_eq wit).2 hsize]
    · rw [findWitness_of_not_spendable hspend]
      split_ifs with hempty <;> simp [hspend, hempty]

/-! ### The check -/

theorem tagged_of_mem {ws : List Twit} (h : ws.mapM Twit.tagged = some wits) (hmem : wit ∈ wits) :
    ∃ twit ∈ ws, twit.tagged = some wit := by
  induction ws generalizing wits with
  | nil =>
    cases h
    cases hmem
  | cons w ws ih =>
    rw [List.mapM_cons] at h
    obtain ⟨first, hfirst, h⟩ := Option.bind_eq_some_iff.1 h
    obtain ⟨rest, hrest, h⟩ := Option.bind_eq_some_iff.1 h
    cases h
    rcases List.mem_cons.1 hmem with rfl | hmem
    · exact ⟨w, List.mem_cons_self, hfirst⟩
    · obtain ⟨twit, htwit, htag⟩ := ih hrest hmem
      exact ⟨twit, List.mem_cons_of_mem _ htwit, htag⟩

theorem PassedInput.witnessed (htagged : mtxp.witness.inner.mapM Twit.tagged = some wits)
    (h : PassedInput c mtxp utxos protMagic wits input) : Witnessed c mtxp utxos protMagic input := by
  obtain ⟨payload, wit, hpayload, -, hfirst, -, hverify⟩ := h
  obtain ⟨hmem, hredeems⟩ := firstRedeemer_spec hfirst
  obtain ⟨twit, htwit, htag⟩ := tagged_of_mem htagged hmem
  exact ⟨payload, hpayload, twit, htwit, wit, htag, hredeems, hverify⟩

/-- The check does what it is for, unless it reaches an input that it does not handle. -/
theorem witnesses_iff : WitnessesChecked c mtxp utxos protMagic ↔ ¬ ReachesUnhandled c mtxp utxos protMagic := by
  have heq : checkWitnesses c mtxp utxos protMagic = (do
      let wits ← tagWitnesses mtxp.witness.inner
      Outcome.forEach (checkInput c mtxp utxos protMagic wits) mtxp.transaction.inner.inputs) := rfl
  rw [tagWitnesses_eq] at heq
  unfold WitnessesChecked ReachesUnhandled
  rw [heq]
  cases htagged : mtxp.witness.inner.mapM Twit.tagged with
  | none => simp
  | some wits =>
    rw [Outcome.ok_bind]
    have hpanic : Outcome.forEach (checkInput c mtxp utxos protMagic wits) mtxp.transaction.inner.inputs = .panic ↔
        Outcome.Reaches (PassedInput c mtxp utxos protMagic wits)
          (Unhandled c utxos wits) mtxp.transaction.inner.inputs := by
      simp only [Outcome.forEach_eq_panic, checkInput_eq_ok, checkInput_eq_panic, Outcome.Reaches]
    simp only [ne_eq, hpanic, Option.some.injEq, exists_eq_left']
    refine and_iff_left fun hok input hinput => ?_
    exact (checkInput_eq_ok.1 (Outcome.forEach_eq_ok.1 hok input hinput)).witnessed htagged

/-- The payload of a script address: no root to speak of, no attributes, and type 1. -/
def scriptPayload : Bytes := [0x83, 0x58, 28] ++ List.replicate 28 0 ++ [0xa0, 1]

/-- A transaction that spends from a script address, with a witness of a key. -/
def scriptSpending : TxPayload where
  transaction := ⟨[0x83], ⟨[.variant0 0 0], []⟩, by simp⟩
  witness := ⟨[0x81], [.pkWitness [] []], by simp⟩

/-- One output, at a script address. -/
def scriptUtxos : UTxOs := fun _ => some (.byron ⟨⟨scriptPayload, 0⟩, 1⟩)

/-- Hashes that are all zero. -/
def zeroHashes : Crypto := ⟨fun _ => 0, fun _ => 0, fun bs => bs, fun _ _ _ => false⟩

/-- Spending from a script address panics. -/
theorem scriptSpending_panics : checkWitnesses zeroHashes scriptSpending scriptUtxos 0 = .panic ∧
    ¬ WitnessesChecked zeroHashes scriptSpending scriptUtxos 0 := by
  have hdecode : ByronAddress.decode ⟨scriptPayload, 0⟩ = some ⟨0, [], .script⟩ := by decide
  have hpanic : checkWitnesses zeroHashes scriptSpending scriptUtxos 0 = .panic := by
    have hinput : inputPayload scriptUtxos (.variant0 0 0) = some ⟨0, [], .script⟩ := hdecode
    show Outcome.forEach (checkInput zeroHashes scriptSpending scriptUtxos 0 [⟨[], [], false⟩]) [.variant0 0 0] = .panic
    rw [Outcome.forEach, checkInput_eq hinput]
    rfl
  exact ⟨hpanic, fun h => h.1 hpanic⟩

end Pallas.Byron
