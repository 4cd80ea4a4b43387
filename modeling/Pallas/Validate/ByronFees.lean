import Pallas.Lib.Tally
import Pallas.Validate.Byron

/-!
# Byron transactions create no lovelace

`checkFees_eq` reads the two loops of `checkFees` as two exact sums. What an accepted transaction then
satisfies depends on three things the check does not look at: the balance, when all inputs are redeem
outputs; an input that is listed twice, whose amount is added twice; and, in a release build, results
outside `u64`. Where none of them is met, no lovelace is created (`validateByronTx_conserves`).
-/

namespace Pallas.Byron
open MachineInt

variable {pr : Profile} {tx : Tx} {size : UInt64} {utxos : UTxOs} {pps : ByronProtParams}

/-- The lovelace of the output an input spends. -/
def inputAmount (utxos : UTxOs) (input : TxIn) : ℤ := (byronOutput utxos input).elim 0 fun o => toInt o.amount

/-- The lovelace of the inputs, each as often as it is listed. -/
def inputsTotal (tx : Tx) (utxos : UTxOs) : ℤ := (tx.inputs.map (inputAmount utxos)).sum

/-- The lovelace of the outputs. -/
def outputsTotal (tx : Tx) : ℤ := (tx.outputs.map fun o => toInt o.amount).sum

/-- The minimum fee, as an integer. -/
def minFeesTotal (size : UInt64) (pps : ByronProtParams) : ℤ :=
  toInt pps.summand + toInt pps.multiplier * toInt size

/-- Every input spends a redeem output. -/
def OnlyRedeem (tx : Tx) (utxos : UTxOs) : Prop := ∀ i ∈ tx.inputs, isRedeemUtxo utxos i = true

instance : Decidable (OnlyRedeem tx utxos) := inferInstanceAs (Decidable (∀ i ∈ tx.inputs, _))

theorem inputAmount_nonneg (utxos : UTxOs) (i : TxIn) : 0 ≤ inputAmount utxos i := by
  unfold inputAmount
  cases byronOutput utxos i with
  | none => exact le_rfl
  | some o => exact lo_le o.amount

/-! ### The loops -/

theorem fold_addInput {inputs : List TxIn} (hfound : ∀ i ∈ inputs, ∃ o, byronOutput utxos i = some o)
    (acc : UInt64 × Bool) :
    Outcome.fold (addInput pr utxos) acc inputs =
      (exact pr (toInt acc.1 + (inputs.map (inputAmount utxos)).sum) : Outcome ValidationError UInt64) >>=
        fun sum => .ok (sum, acc.2 && inputs.all (isRedeemUtxo utxos)) := by
  induction inputs generalizing acc with
  | nil => simp [exact_of_fits (fits_toInt acc.1)]
  | cons i inputs ih =>
    obtain ⟨⟨o, ho⟩, hfound⟩ := List.forall_mem_cons.1 hfound
    have hamount : inputAmount utxos i = toInt o.amount := by rw [inputAmount, ho, Option.elim_some]
    have hrest : 0 ≤ (inputs.map (inputAmount utxos)).sum :=
      List.sum_nonneg (List.forall_mem_map.2 fun j _ => inputAmount_nonneg utxos j)
    have hlo : lo UInt64 ≤ toInt acc.1 + toInt o.amount := add_nonneg (lo_le acc.1) (lo_le o.amount)
    rw [Outcome.fold_cons, addInput, ho, List.map_cons, List.sum_cons, hamount, ← add_assoc,
      ← exact_bind_exact hlo hrest]
    simp only [Outcome.ofOption, Outcome.ok_bind, bind_assoc, ih hfound, add, List.all_cons, Bool.and_assoc]

/-- `check_fees` on inputs that the UTxO map has: three exact sums and a comparison. -/
theorem checkFees_eq (hfound : ∀ i ∈ tx.inputs, ∃ o, byronOutput utxos i = some o) :
    checkFees pr tx size utxos pps = (do
      let inputs : UInt64 ← exact pr (inputsTotal tx utxos)
      if OnlyRedeem tx utxos then .ok ()
      else
        let outputs : UInt64 ← exact pr (outputsTotal tx)
        let total : UInt64 ← sub pr inputs outputs
        let fees ← minFees pr size pps
        check (.byron .feesBelowMin) (fees ≤ total)) := by
  have houts : outputsBalance pr tx = exact pr (outputsTotal tx) := by
    rw [outputsBalance, fold_add rfl]
    exact congrArg _ (zero_add _)
  have hredeem : tx.inputs.all (isRedeemUtxo utxos) = decide (OnlyRedeem tx utxos) := by
    rw [Bool.eq_iff_iff, List.all_eq_true, decide_eq_true_iff, OnlyRedeem]
  have hzero : toInt (0 : UInt64) + (tx.inputs.map (inputAmount utxos)).sum = inputsTotal tx utxos := zero_add _
  rw [checkFees, fold_addInput hfound, hzero]
  simp only [bind_assoc, Outcome.ok_bind, Bool.true_and, hredeem, decide_eq_true_iff, houts]

/-! ### Overflow -/

theorem outputsTotal_nonneg (tx : Tx) : 0 ≤ outputsTotal tx :=
  List.sum_nonneg (List.forall_mem_map.2 fun o _ => lo_le o.amount)

/-- The sums and the fee stay within `u64`, and the outputs are not subtracted from less. -/
structure NoOverflow (tx : Tx) (size : UInt64) (utxos : UTxOs) (pps : ByronProtParams) : Prop where
  inputs : Fits UInt64 (inputsTotal tx utxos)
  outputs : ¬ OnlyRedeem tx utxos → outputsTotal tx ≤ inputsTotal tx utxos
  fees : ¬ OnlyRedeem tx utxos → Fits UInt64 (minFeesTotal size pps)

/-- The product and the sum of the fee overflow together: the summand is not negative. -/
theorem minFees_eq : minFees pr size pps = exact pr (minFeesTotal size pps) := by
  have hlinear : lo UInt64 ≤ toInt pps.multiplier * toInt size := mul_nonneg (lo_le pps.multiplier) (lo_le size)
  rw [minFeesTotal, add_comm, ← exact_bind_exact hlinear (lo_le pps.summand)]
  simp only [minFees, mul, add, add_comm]

theorem checkFees_of_noOverflow (hfound : ∀ i ∈ tx.inputs, ∃ o, byronOutput utxos i = some o)
    (h : NoOverflow tx size utxos pps) :
    checkFees pr tx size utxos pps = if OnlyRedeem tx utxos then .ok ()
      else check (.byron .feesBelowMin) (minFeesTotal size pps ≤ inputsTotal tx utxos - outputsTotal tx) := by
  rw [checkFees_eq hfound, exact_of_fits h.inputs, Outcome.ok_bind]
  split
  · rfl
  · next hredeem =>
    have hle := h.outputs hredeem
    have hout : Fits UInt64 (outputsTotal tx) := ⟨outputsTotal_nonneg tx, hle.trans h.inputs.2⟩
    have htotal : Fits UInt64 (inputsTotal tx utxos - outputsTotal tx) :=
      ⟨sub_nonneg.2 hle, (sub_le_self _ (outputsTotal_nonneg tx)).trans h.inputs.2⟩
    have hsub : (sub pr (wrap (inputsTotal tx utxos)) (wrap (outputsTotal tx)) : Outcome ValidationError UInt64) =
        .ok (wrap (inputsTotal tx utxos - outputsTotal tx)) := by
      rw [sub, toInt_wrap_of_fits h.inputs, toInt_wrap_of_fits hout, exact_of_fits htotal]
    rw [exact_of_fits hout, Outcome.ok_bind, hsub, Outcome.ok_bind, minFees_eq,
      exact_of_fits (h.fees hredeem), Outcome.ok_bind]
    congr 1
    rw [decide_eq_decide, uInt64_le, toInt_wrap_of_fits (h.fees hredeem), toInt_wrap_of_fits htotal]

theorem checkFees_debug_ne_panic (hfound : ∀ i ∈ tx.inputs, ∃ o, byronOutput utxos i = some o) :
    checkFees .debug tx size utxos pps ≠ .panic ↔ NoOverflow tx size utxos pps := by
  constructor
  · intro h
    rw [checkFees_eq hfound] at h
    have hin : Fits UInt64 (inputsTotal tx utxos) := by
      by_contra hn
      exact h (by rw [exact_eq_panic.2 ⟨rfl, hn⟩, Outcome.panic_bind])
    rw [exact_of_fits hin, Outcome.ok_bind] at h
    by_cases hredeem : OnlyRedeem tx utxos
    · exact ⟨hin, fun hn => absurd hredeem hn, fun hn => absurd hredeem hn⟩
    rw [if_neg hredeem] at h
    have hout : Fits UInt64 (outputsTotal tx) := by
      by_contra hn
      exact h (by rw [exact_eq_panic.2 ⟨rfl, hn⟩, Outcome.panic_bind])
    rw [exact_of_fits hout, Outcome.ok_bind, sub, toInt_wrap_of_fits hin, toInt_wrap_of_fits hout] at h
    have htotal : Fits UInt64 (inputsTotal tx utxos - outputsTotal tx) := by
      by_contra hn
      exact h (by rw [exact_eq_panic.2 ⟨rfl, hn⟩, Outcome.panic_bind])
    rw [exact_of_fits htotal, Outcome.ok_bind, minFees_eq] at h
    have hfees : Fits UInt64 (minFeesTotal size pps) := by
      by_contra hn
      exact h (by rw [exact_eq_panic.2 ⟨rfl, hn⟩, Outcome.panic_bind])
    exact ⟨hin, fun _ => sub_nonneg.1 htotal.1, fun _ => hfees⟩
  · intro h
    rw [checkFees_of_noOverflow hfound h]
    split
    · simp
    · exact Outcome.ensure_ne_panic

/-! ### Accepted transactions -/

/-- No lovelace is created, the fee is paid unless all inputs are redeem outputs, and no operation of
`check_fees` overflows. -/
def Conserves (tx : Tx) (size : UInt64) (utxos : UTxOs) (pps : ByronProtParams) : Prop :=
  outputsTotal tx ≤ Tally.distinct (inputAmount utxos) tx.inputs ∧
    (¬ OnlyRedeem tx utxos →
      minFeesTotal size pps ≤ Tally.distinct (inputAmount utxos) tx.inputs - outputsTotal tx) ∧
    checkFees .debug tx size utxos pps ≠ .panic

/-- The check looks at the balance, at every input once, and, if the build does not look for overflow itself, at numbers
that fit `u64`. -/
structure LooksAtAll (pr : Profile) (tx : Tx) (size : UInt64) (utxos : UTxOs) (pps : ByronProtParams) : Prop where
  balance : ¬ OnlyRedeem tx utxos
  once : tx.inputs.Nodup
  fits : pr = .release → NoOverflow tx size utxos pps

theorem checkFees_mem (h : checkFees pr tx size utxos pps = .ok ()) :
    ∀ i ∈ tx.inputs, ∃ o, byronOutput utxos i = some o := by
  intro i hi
  obtain ⟨acc, hacc, -⟩ := Outcome.bind_eq_ok.1 h
  obtain ⟨t, t', ht⟩ := Outcome.fold_mem_ok hacc i hi
  obtain ⟨o, ho, -⟩ := Outcome.bind_eq_ok.1 ht
  exact ⟨o, Outcome.ofOption_eq_ok.1 ho⟩

theorem LooksAtAll.noOverflow (hlooks : LooksAtAll pr tx size utxos pps)
    (h : checkFees pr tx size utxos pps = .ok ()) : NoOverflow tx size utxos pps := by
  cases pr with
  | debug => exact (checkFees_debug_ne_panic (checkFees_mem h)).1 (by simp [h])
  | release => exact hlooks.fits rfl

theorem checkFees_conserves (hlooks : LooksAtAll pr tx size utxos pps) (h : checkFees pr tx size utxos pps = .ok ()) :
    Conserves tx size utxos pps := by
  have hfound := checkFees_mem h
  have hno := hlooks.noOverflow h
  have hdistinct : inputsTotal tx utxos = Tally.distinct (inputAmount utxos) tx.inputs := by
    rw [inputsTotal, Tally.sum_eq_distinct_add_countedAgain, Tally.countedAgain_of_nodup _ hlooks.once, add_zero]
  -- the check itself has compared the fee with the surplus
  rw [checkFees_of_noOverflow hfound hno, if_neg hlooks.balance] at h
  have hpaid := of_decide_eq_true (Outcome.ensure_eq_ok.1 h)
  rw [Conserves, ← hdistinct, checkFees_debug_ne_panic hfound]
  exact ⟨hno.outputs hlooks.balance, fun _ => hpaid, hno⟩

theorem validateByronTx_checkFees {c : Crypto} {mtxp : TxPayload} {protMagic : UInt32}
    (h : validateByronTx pr c mtxp utxos pps protMagic = .ok ()) :
    checkFees pr mtxp.transaction.inner (getTxSize mtxp) utxos pps = .ok () := by
  simp only [validateByronTx, Outcome.seq_eq_ok] at h
  exact h.2.2.2.2.1

theorem validateByronTx_conserves {c : Crypto} {mtxp : TxPayload} {protMagic : UInt32}
    (h : validateByronTx pr c mtxp utxos pps protMagic = .ok ())
    (hlooks : LooksAtAll pr mtxp.transaction.inner (getTxSize mtxp) utxos pps) :
    Conserves mtxp.transaction.inner (getTxSize mtxp) utxos pps :=
  checkFees_conserves hlooks (validateByronTx_checkFees h)

/-! ### A redeem transaction

One input at a redeem address, one output of 100 lovelace, and the redeem witness. The hashes and the
signature are those of the real functions on these bytes. -/

/-- The key of the redeem address. -/
def redeemKey : Bytes := Cbor.bigEndian 32 0x03a107bff3ce10be1d70dd18e74bc09967e4d6309ba50d5f1ddc8664125531b8

/-- The payload of the address. -/
def redeemPayload : Bytes := Cbor.bigEndian 33 0x83581c9bbb573eb493bf02e991a841a8970ee0c50fbff5129ee4dc249a83a6a002

/-- What the witness signs: a tag, the protocol magic and the hash of the transaction. -/
def redeemSigned : Bytes :=
  Cbor.bigEndian 40 0x021a2d964a095820fa0e4d61d4a772926f5f9567701738dcbae4b94d65e3ad5171a0be35a60966d9

/-- The signature. -/
def redeemSignature : Bytes :=
  Cbor.bigEndian 40 0xfe04af4071ff26567d04982cf4cae3006aff2f412a9f3367bbe1beb165875c7078e55b76901b909c ++
    Cbor.bigEndian 24 0x86c3dc7fc66d5f26bfba2c4788d2b5b3bf13ab884caf1501

/-- The bytes of the transaction. -/
def redeemTxBytes : Bytes :=
  Cbor.bigEndian 40 0x839f8200d81858248258200000000000000000000000000000000000000000000000000000000000 ++
    Cbor.bigEndian 40 0x00000000ff9f8282d818582183581c9bbb573eb493bf02e991a841a8970ee0c50fbff5129ee4dc24 ++
    Cbor.bigEndian 14 0x9a83a6a0021a8ccf33121864ffa0

/-- The bytes of the witnesses. -/
def redeemWitnessBytes : Bytes :=
  Cbor.bigEndian 40 0x818202d818586582582003a107bff3ce10be1d70dd18e74bc09967e4d6309ba50d5f1ddc86641255 ++
    Cbor.bigEndian 40 0x31b85840fe04af4071ff26567d04982cf4cae3006aff2f412a9f3367bbe1beb165875c7078e55b76 ++
    Cbor.bigEndian 28 0x901b909c86c3dc7fc66d5f26bfba2c4788d2b5b3bf13ab884caf1501

/-- The hashes of the address and of the transaction, and the signature. -/
def redeemCrypto : Crypto :=
  .ofTables
    [(Cbor.bigEndian 32 0x3c4ee0bb708788aa1b1d4764588b8cd8666f9ba625c9416d18dbf32e11ed5e45,
      0x9bbb573eb493bf02e991a841a8970ee0c50fbff5129ee4dc249a83a6)]
    [(redeemTxBytes, 0xfa0e4d61d4a772926f5f9567701738dcbae4b94d65e3ad5171a0be35a60966d9)]
    [(Cbor.bigEndian 39 0x83028202582003a107bff3ce10be1d70dd18e74bc09967e4d6309ba50d5f1ddc8664125531b8a0,
      Cbor.bigEndian 32 0x3c4ee0bb708788aa1b1d4764588b8cd8666f9ba625c9416d18dbf32e11ed5e45)]
    [(redeemKey, redeemSigned, redeemSignature)]

/-- The transaction with its witness. -/
def redeemTx : TxPayload where
  transaction := ⟨redeemTxBytes, ⟨[.variant0 0 0], [⟨⟨redeemPayload, 2362389266⟩, 100⟩]⟩, by decide⟩
  witness := ⟨redeemWitnessBytes, [.redeemWitness redeemKey redeemSignature], by decide⟩

/-- The output it spends, of 10 lovelace. -/
def redeemUtxos : UTxOs := fun i =>
  if i = .byron (.variant0 0 0) then some (.byron ⟨⟨redeemPayload, 2362389266⟩, 10⟩) else none

/-- The parameters of the main network. -/
def byronPps : ByronProtParams := ⟨4096, 155381, 44⟩

/-- Spending a redeem output of 10 lovelace, the transaction pays out 100 and is accepted. -/
theorem redeemTx_creates_lovelace :
    (∀ pr, validateByronTx pr redeemCrypto redeemTx redeemUtxos byronPps 764824073 = .ok ()) ∧
    ¬ Conserves redeemTx.transaction.inner (getTxSize redeemTx) redeemUtxos byronPps := by
  refine ⟨fun pr => by cases pr <;> decide +kernel, fun h => ?_⟩
  have hle := h.1
  revert hle
  decide +kernel

/-! ### A transfer

Two inputs at the address of a key, one output and a fee, signed with the real functions too. -/

/-- The key with its chain code. -/
def transferKey : Bytes := redeemKey ++ List.replicate 32 0

/-- The payload of the address. -/
def transferPayload : Bytes := Cbor.bigEndian 33 0x83581c2d1c84a91306a5cbedb87c6c9f8c350dd256b87b6327ef406fc7e271a000

/-- The signature. -/
def transferSignature : Bytes :=
  Cbor.bigEndian 40 0x7989e0072f8fbd6fe81e5eea46589f44b340906070e4fa85e2cefaf2841fbdfaa8e70b7c5f54f522 ++
    Cbor.bigEndian 24 0xfc47d7ce68bd816e127e8e0272ad5f04fc052f2d271e1105

/-- The bytes of the transaction. -/
def transferTxBytes : Bytes :=
  Cbor.bigEndian 40 0x839f8200d81858248258200000000000000000000000000000000000000000000000000000000000 ++
    Cbor.bigEndian 40 0x000000008200d8185824825820000000000000000000000000000000000000000000000000000000 ++
    Cbor.bigEndian 40 0x000000000001ff9f8282d818582183581c2d1c84a91306a5cbedb87c6c9f8c350dd256b87b6327ef ++
    Cbor.bigEndian 19 0x406fc7e271a0001a709f8efc1a000c3500ffa0

/-- The hashes of the address and of the transaction, and the signature. -/
def transferCrypto : Crypto :=
  .ofTables
    [(Cbor.bigEndian 32 0x9136c24fdfd613b83053f811c1eaca8e7f8838df9a2d2529c446d28da118bc7c,
      0x2d1c84a91306a5cbedb87c6c9f8c350dd256b87b6327ef406fc7e271)]
    [(transferTxBytes, 0xb80f6974833bce93bffb17d022b7182c02d9316105a55b5612005e07523d2c13)]
    [(Cbor.bigEndian 6 0x830082005840 ++ transferKey ++ [0xa0],
      Cbor.bigEndian 32 0x9136c24fdfd613b83053f811c1eaca8e7f8838df9a2d2529c446d28da118bc7c)]
    [(redeemKey, Cbor.bigEndian 40 0x011a2d964a095820b80f6974833bce93bffb17d022b7182c02d9316105a55b5612005e07523d2c13,
      transferSignature)]

/-- The transaction with its witness. -/
def transferTx : TxPayload where
  transaction := ⟨transferTxBytes,
    ⟨[.variant0 0 0, .variant0 0 1], [⟨⟨transferPayload, 1889505020⟩, 800000⟩]⟩, by decide⟩
  witness := ⟨Cbor.bigEndian 10 0x818200d8185885825840 ++ transferKey ++ [0x58, 0x40] ++ transferSignature,
    [.pkWitness transferKey transferSignature], by decide⟩

/-- The outputs it spends, of 500000 lovelace each. -/
def transferUtxos : UTxOs := fun i =>
  if i = .byron (.variant0 0 0) ∨ i = .byron (.variant0 0 1) then
    some (.byron ⟨⟨transferPayload, 1889505020⟩, 500000⟩)
  else none

theorem transferTx_conserves :
    validateByronTx .release transferCrypto transferTx transferUtxos byronPps 764824073 = .ok () ∧
    Conserves transferTx.transaction.inner (getTxSize transferTx) transferUtxos byronPps := by
  have hok : validateByronTx .release transferCrypto transferTx transferUtxos byronPps 764824073 = .ok () := by
    decide +kernel
  refine ⟨hok, validateByronTx_conserves hok ⟨by decide +kernel, by decide, fun _ => ⟨?_, ?_, ?_⟩⟩⟩
  · exact ⟨by decide +kernel, by decide +kernel⟩
  · exact fun _ => by decide +kernel
  · exact fun _ => ⟨by decide +kernel, by decide +kernel⟩

end Pallas.Byron
