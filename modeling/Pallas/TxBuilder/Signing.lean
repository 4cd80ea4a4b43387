import Pallas.AddressBytes
import Pallas.TxBuilder.Panics
import Pallas.Validate.KeyWitnesses

/-!
# Signing a built transaction (`pallas-txbuilder/src/transaction/model.rs`)

A built transaction keeps its signatures twice: in a table by public key, and in the witness set of its bytes. `sign`,
`add_signature` and `remove_signature` change both, and go through the bytes: they decode the transaction, change the list
of key witnesses and encode it again. The body keeps its bytes, and so the transaction its hash.

The list of witnesses may hold a key twice, where the table has the last signature. An empty list is no
`NonEmptySet`: who removes the last witness panics.

What is signed is what the validator checks: of a transaction whose signatures all verify, it accepts the key witnesses
exactly when every input and collateral is resolved and its key, if it has one, is among those that signed.

The decoder of `conway::Tx` is derived, and a parameter here.
-/

namespace Pallas.TxBuilder
open Conway

/-- `Ed25519Signer`. -/
structure Signer where
  publicKey : Hash 32
  sign : Bytes → Hash 64

/-- The key witness of a key and its signature. -/
def keyWitness (pubKey : Hash 32) (signature : Hash 64) : VKeyWitness := ⟨pubKey.toBytes, signature.toBytes⟩

/-- The transaction with these key witnesses; the witness set loses the bytes it was read from. -/
def signedTx (tx : Tx) (vkeyWitnesses : List VKeyWitness) : Tx :=
  { tx with
    transactionWitnessSet :=
      { tx.transactionWitnessSet.inner with vkeywitness := some vkeyWitnesses : WitnessSet }.fresh }

/-- The key witnesses of a transaction. -/
def keyWitnesses (tx : Tx) : List VKeyWitness := tx.transactionWitnessSet.inner.vkeywitness.getD []

namespace BuiltTransaction
variable (decodeFragment : Bytes → Option Tx)

/-- What the three functions do to the bytes. -/
def rewrite (self : BuiltTransaction) (signatures : HashTable (Hash 32) (Hash 64))
    (change : List VKeyWitness → List VKeyWitness) : Outcome TxBuilderError BuiltTransaction := do
  let tx ← Outcome.ofOption .corruptedTxBytes (decodeFragment self.txBytes)
  let vkeyWitnesses ← Outcome.unwrap (nonEmptySet (change (keyWitnesses tx)))
  .ok { self with signatures := some signatures, txBytes := encodeTx (signedTx tx vkeyWitnesses) }

def sign (self : BuiltTransaction) (privateKey : Signer) : Outcome TxBuilderError BuiltTransaction :=
  let pubkey := privateKey.publicKey
  let signature := privateKey.sign self.txHash.toBytes
  match self.era with
  | .conway => self.rewrite decodeFragment ((self.signatures.getD ∅).insert pubkey signature)
      (· ++ [keyWitness pubkey signature])
  | .babbage => .err .unsupportedEra

def addSignature (self : BuiltTransaction) (pubKey : Hash 32) (signature : Hash 64) :
    Outcome TxBuilderError BuiltTransaction :=
  match self.era with
  | .conway => self.rewrite decodeFragment ((self.signatures.getD ∅).insert pubKey signature)
      (· ++ [keyWitness pubKey signature])
  | .babbage => .err .unsupportedEra

def removeSignature (self : BuiltTransaction) (pubKey : Hash 32) : Outcome TxBuilderError BuiltTransaction :=
  match self.era with
  | .conway => self.rewrite decodeFragment ((self.signatures.getD ∅).erase pubKey)
      (·.filter fun x => x.vkey ≠ pubKey.toBytes)
  | .babbage => .err .unsupportedEra

end BuiltTransaction

inductive SignCall where
  | sign (privateKey : Signer)
  | addSignature (pubKey : Hash 32) (signature : Hash 64)
  | removeSignature (pubKey : Hash 32)

namespace SignCall

def apply (decodeFragment : Bytes → Option Tx) (built : BuiltTransaction) :
    SignCall → Outcome TxBuilderError BuiltTransaction
  | sign privateKey => built.sign decodeFragment privateKey
  | addSignature pubKey signature => built.addSignature decodeFragment pubKey signature
  | removeSignature pubKey => built.removeSignature decodeFragment pubKey

/-- What a call does to the key witnesses of a transaction with the given hash. -/
def change (txHash : Hash 32) : SignCall → List VKeyWitness → List VKeyWitness
  | sign privateKey, wits => wits ++ [keyWitness privateKey.publicKey (privateKey.sign txHash.toBytes)]
  | addSignature pubKey signature, wits => wits ++ [keyWitness pubKey signature]
  | removeSignature pubKey, wits => wits.filter fun x => x.vkey ≠ pubKey.toBytes

/-- What it does to the table. -/
def record (txHash : Hash 32) :
    SignCall → HashTable (Hash 32) (Hash 64) → HashTable (Hash 32) (Hash 64)
  | sign privateKey, table => table.insert privateKey.publicKey (privateKey.sign txHash.toBytes)
  | addSignature pubKey signature, table => table.insert pubKey signature
  | removeSignature pubKey, table => table.erase pubKey

/-- The signature that a call brings verifies. -/
def Verifies (c : Crypto) (txHash : Hash 32) : SignCall → Prop
  | sign privateKey =>
    c.verify privateKey.publicKey.toBytes txHash.toBytes (privateKey.sign txHash.toBytes).toBytes = true
  | addSignature pubKey signature => c.verify pubKey.toBytes txHash.toBytes signature.toBytes = true
  | removeSignature _ => True

end SignCall

/-- The key witnesses after some calls on a transaction that has none. -/
def witnessesAfter (txHash : Hash 32) (calls : List SignCall) : List VKeyWitness :=
  calls.foldl (fun wits call => call.change txHash wits) []

/-- A key and a signature of the right sizes. -/
def WellSized (w : VKeyWitness) : Prop := w.vkey.length = 32 ∧ w.signature.length = 64

/-- What is written of a transaction, with or without key witnesses, is read back. -/
structure ReadsBack (decodeFragment : Bytes → Option Tx) (tx : Tx) : Prop where
  built : decodeFragment (encodeTx tx) = some tx
  signed : ∀ wits ≠ [], wits.length < 2 ^ 64 → (∀ w ∈ wits, WellSized w) →
    decodeFragment (encodeTx (signedTx tx wits)) = some (signedTx tx wits)

/-! ### One call -/

section Calls
variable {decodeFragment : Bytes → Option Tx} {built built' : BuiltTransaction} {tx : Tx} {call : SignCall}

@[simp] theorem signedTx_signedTx (tx : Tx) (wits wits' : List VKeyWitness) :
    signedTx (signedTx tx wits) wits' = signedTx tx wits' := rfl

@[simp] theorem keyWitnesses_signedTx (tx : Tx) (wits : List VKeyWitness) : keyWitnesses (signedTx tx wits) = wits := rfl

theorem apply_conway (hera : built.era = .conway) (call : SignCall) :
    call.apply decodeFragment built =
      built.rewrite decodeFragment (call.record built.txHash (built.signatures.getD ∅)) (call.change built.txHash) := by
  cases call <;>
    simp only [SignCall.apply, BuiltTransaction.sign, BuiltTransaction.addSignature, BuiltTransaction.removeSignature,
      hera] <;> rfl

theorem rewrite_eq {signatures : HashTable (Hash 32) (Hash 64)} {change : List VKeyWitness → List VKeyWitness}
    (htx : decodeFragment built.txBytes = some tx) :
    built.rewrite decodeFragment signatures change =
      if change (keyWitnesses tx) = [] then .panic
      else .ok { built with
        signatures := some signatures
        txBytes := encodeTx (signedTx tx (change (keyWitnesses tx))) } := by
  simp only [BuiltTransaction.rewrite, htx, Outcome.ofOption, Outcome.ok_bind]
  cases change (keyWitnesses tx) <;> rfl

end Calls

/-! ### The table and the bytes -/

section Table
variable {txHash pubKey : Hash 32} {wits : List VKeyWitness} {table : HashTable (Hash 32) (Hash 64)}

/-- The last signature of a key. -/
def lastSignature (wits : List VKeyWitness) (pubKey : Hash 32) : Option Bytes :=
  ((wits.filter fun x => x.vkey = pubKey.toBytes).getLast?).map (·.signature)

/-- The table has the last signature of each key. -/
def Tabulates (table : HashTable (Hash 32) (Hash 64)) (wits : List VKeyWitness) : Prop :=
  ∀ pubKey, (table.lookup pubKey).map Hash.toBytes = lastSignature wits pubKey

theorem toBytes_inj {n : ℕ} {h h' : Hash n} : h.toBytes = h'.toBytes ↔ h = h' := by
  constructor
  · intro heq
    rw [← Hash.ofBytes_toBytes h, heq, Hash.ofBytes_toBytes]
  · rintro rfl
    rfl

theorem tabulates_nil : Tabulates ∅ [] := fun _ => rfl

theorem Tabulates.insert (h : Tabulates table wits) (signature : Hash 64) :
    Tabulates (table.insert pubKey signature) (wits ++ [keyWitness pubKey signature]) := by
  intro key
  rw [HashTable.lookup_insert_ite, lastSignature, List.filter_append]
  by_cases hkey : key = pubKey
  · subst hkey
    simp [keyWitness]
  · have hbytes : pubKey.toBytes ≠ key.toBytes := fun heq => hkey (toBytes_inj.1 heq).symm
    rw [if_neg hkey, h key, lastSignature]
    simp [keyWitness, hbytes]

theorem Tabulates.erase (h : Tabulates table wits) (pubKey : Hash 32) :
    Tabulates (table.erase pubKey) (wits.filter fun x => x.vkey ≠ pubKey.toBytes) := by
  intro key
  rw [HashTable.lookup_erase_ite, lastSignature, List.filter_filter]
  by_cases hkey : key = pubKey
  · subst hkey
    have hnone : wits.filter (fun x => decide (x.vkey = key.toBytes) && decide (x.vkey ≠ key.toBytes)) = [] := by
      rw [List.filter_eq_nil_iff]
      intro x _
      simp
    rw [if_pos rfl, hnone]
    rfl
  · have hbytes : key.toBytes ≠ pubKey.toBytes := fun heq => hkey (toBytes_inj.1 heq)
    have hsame : wits.filter (fun x => decide (x.vkey = key.toBytes) && decide (x.vkey ≠ pubKey.toBytes)) =
        wits.filter fun x => decide (x.vkey = key.toBytes) := by
      refine List.filter_congr fun x _ => ?_
      by_cases hx : x.vkey = key.toBytes
      · simp [hx, hbytes]
      · simp [hx]
    rw [if_neg hkey, h key, lastSignature, hsame]

theorem Tabulates.record (h : Tabulates table wits) (call : SignCall) :
    Tabulates (call.record txHash table) (call.change txHash wits) := by
  cases call with
  | sign privateKey => exact h.insert _
  | addSignature pubKey signature => exact h.insert signature
  | removeSignature pubKey => exact h.erase pubKey

end Table

/-! ### A decoder of what is signed -/

section Reading
open Cbor Cbor.Decoder

def readKeyWitness : Decoder VKeyWitness := do
  let _ ← header 4
  let vkey ← Decoder.bytes
  let signature ← Decoder.bytes
  pure ⟨vkey, signature⟩

/-- Reads a transaction with a body that is known, and with no witnesses but those of keys. -/
def readSigned (tx : Tx) : Decoder Tx := do
  let _ ← header 4
  let _ ← take tx.transactionBody.rawCbor.length
  if (← header 5) = some 0 then pure tx
  else
    let _ ← header 0
    let _ ← header 6
    let n ← header 4
    let wits ← replicate readKeyWitness (n.getD 0)
    pure (signedTx tx wits)

theorem bytes_run {s : Bytes} (h : s.length < 2 ^ 64) (rest : Bytes) :
    Decoder.bytes (Cbor.bytes s ++ rest) = some (s, rest) := by
  rw [Cbor.bytes, List.append_assoc]
  unfold Decoder.bytes
  rw [bind_run, header_head (by decide) h]
  exact take_append s rest

theorem readKeyWitness_run {w : VKeyWitness} (h : WellSized w) (rest : Bytes) :
    readKeyWitness (encodeVKeyWitness w ++ rest) = some (w, rest) := by
  obtain ⟨hkey, hsignature⟩ := h
  rw [encodeVKeyWitness, List.append_assoc, List.append_assoc]
  unfold readKeyWitness
  rw [bind_run, show Cbor.array 2 = Cbor.head 4 2 from rfl, header_head (by decide) (by decide)]
  show (Decoder.bytes >>= _) _ = _
  rw [bind_run, bytes_run (by omega)]
  show (Decoder.bytes >>= _) _ = _
  rw [bind_run, bytes_run (by omega)]
  rfl

theorem replicate_run {wits : List VKeyWitness} (h : ∀ w ∈ wits, WellSized w) (rest : Bytes) :
    replicate readKeyWitness wits.length ((wits.map encodeVKeyWitness).flatten ++ rest) = some (wits, rest) := by
  induction wits with
  | nil => rfl
  | cons w wits ih =>
    rw [List.map_cons, List.flatten_cons, List.append_assoc]
    show (readKeyWitness >>= _) _ = _
    rw [bind_run, readKeyWitness_run (h w (List.mem_cons_self ..))]
    show (replicate readKeyWitness wits.length >>= _) _ = _
    rw [bind_run, ih fun w' hw' => h w' (List.mem_cons_of_mem _ hw')]
    rfl

theorem readSigned_body (tx tx' : Tx) (hbody : tx'.transactionBody = tx.transactionBody) {w : Bytes} {n : ℕ} (hn : n < 2 ^ 64)
    (hwits : tx'.transactionWitnessSet.rawCbor = Cbor.map n ++ w) :
    ∃ rest, readSigned tx (encodeTx tx') =
      (if some n = some 0 then (pure tx : Decoder Tx)
      else do
        let _ ← header 0
        let _ ← header 6
        let n ← header 4
        let wits ← replicate readKeyWitness (n.getD 0)
        pure (signedTx tx wits)) (w ++ rest) := by
  refine ⟨Cbor.bool tx'.success ++ encodeNullable AuxiliaryData.rawCbor tx'.auxiliaryData, ?_⟩
  unfold readSigned
  rw [encodeTx, hbody, hwits, List.append_assoc, bind_run, show Cbor.array 4 = Cbor.head 4 4 from rfl,
    header_head (by decide) (by decide)]
  show (take _ >>= _) _ = _
  rw [bind_run, take_append]
  show (header 5 >>= _) _ = _
  rw [bind_run, show Cbor.map n = Cbor.head 5 n from rfl, header_head (by decide) hn]

theorem readSigned_readsBack {tx : Tx} (htx : tx.transactionWitnessSet = WitnessSet.fresh {}) :
    ReadsBack (fun bs => (readSigned tx bs).map Prod.fst) tx where
  built := by
    have hwits : tx.transactionWitnessSet.rawCbor = Cbor.map 0 ++ [] := by rw [htx]; rfl
    obtain ⟨rest, hread⟩ := readSigned_body tx tx rfl (by decide) hwits
    show (readSigned tx (encodeTx tx)).map Prod.fst = _
    rw [hread, if_pos rfl]
    rfl
  signed := by
    intro wits hne hlen hsized
    have hwits : (signedTx tx wits).transactionWitnessSet.rawCbor =
        Cbor.map 1 ++ (Cbor.head 0 0 ++ encodeSet (wits.map encodeVKeyWitness)) := by
      rw [signedTx, htx]
      show encodeWitnessSet { vkeywitness := some wits } = _
      simp [encodeWitnessSet, witnessFields, encodeFields, Cbor.uint]
    obtain ⟨rest, hread⟩ := readSigned_body tx (signedTx tx wits) rfl (by decide) hwits
    show (readSigned tx (encodeTx (signedTx tx wits))).map Prod.fst = _
    rw [hread, if_neg (by decide), encodeSet, encodeVec, List.append_assoc, List.append_assoc, List.append_assoc,
      bind_run, header_head (by decide) (by decide)]
    show ((header 6 >>= _) _).map _ = _
    rw [bind_run, show Cbor.tag 258 = Cbor.head 6 258 from rfl, header_head (by decide) (by decide)]
    show ((header 4 >>= _) _).map _ = _
    rw [bind_run, List.length_map, show Cbor.array wits.length = Cbor.head 4 wits.length from rfl,
      header_head (by decide) hlen]
    show ((replicate readKeyWitness wits.length >>= _) _).map _ = _
    rw [bind_run, replicate_run hsized]
    rfl

end Reading

/-! ### A run of calls -/

section Runs
variable {decodeFragment : Bytes → Option Tx} {built built' : BuiltTransaction} {tx : Tx} {calls : List SignCall}

theorem witnessesAfter_concat (txHash : Hash 32) (calls : List SignCall) (call : SignCall) :
    witnessesAfter txHash (calls ++ [call]) = call.change txHash (witnessesAfter txHash calls) := List.foldl_concat ..

theorem change_sized {wits : List VKeyWitness} (h : ∀ w ∈ wits, WellSized w) (txHash : Hash 32) (call : SignCall) :
    ∀ w ∈ call.change txHash wits, WellSized w := by
  have hpush : ∀ pubKey signature, ∀ w ∈ wits ++ [keyWitness pubKey signature], WellSized w := by
    intro pubKey signature w hw
    rcases List.mem_append.1 hw with hw | hw
    · exact h w hw
    · rw [List.mem_singleton.1 hw]
      exact ⟨Hash.length_toBytes _, Hash.length_toBytes _⟩
  cases call with
  | sign privateKey => exact hpush _ _
  | addSignature pubKey signature => exact hpush _ _
  | removeSignature pubKey => exact fun w hw => h w (List.mem_of_mem_filter hw)

theorem length_change_le (txHash : Hash 32) (call : SignCall) (wits : List VKeyWitness) :
    (call.change txHash wits).length ≤ wits.length + 1 := by
  cases call with
  | sign privateKey => simp [SignCall.change]
  | addSignature pubKey signature => simp [SignCall.change]
  | removeSignature pubKey => exact (List.length_filter_le ..).trans (Nat.le_succ _)

theorem witnessesAfter_sized (txHash : Hash 32) (calls : List SignCall) :
    (witnessesAfter txHash calls).length ≤ calls.length ∧ ∀ w ∈ witnessesAfter txHash calls, WellSized w := by
  induction calls using List.reverseRecOn with
  | nil => exact ⟨Nat.le_refl 0, fun w hw => absurd hw List.not_mem_nil⟩
  | append_singleton calls call ih =>
    rw [witnessesAfter_concat, List.length_append]
    exact ⟨(length_change_le ..).trans (Nat.succ_le_succ ih.1), change_sized ih.2 txHash call⟩

/-- Where a run of calls stands: nothing but the signatures and the bytes has changed, the bytes are those of the
transaction with the key witnesses so far, and the table has the last signature of each key. -/
structure SignedBy (decodeFragment : Bytes → Option Tx) (tx : Tx) (built : BuiltTransaction) (calls : List SignCall)
    (built' : BuiltTransaction) : Prop where
  frame : built' = { built with signatures := built'.signatures, txBytes := built'.txBytes }
  bytes : ∃ tx', decodeFragment built'.txBytes = some tx' ∧ built'.txBytes = encodeTx tx' ∧
    (tx' = tx ∧ witnessesAfter built.txHash calls = [] ∨ tx' = signedTx tx (witnessesAfter built.txHash calls))
  table : Tabulates (built'.signatures.getD ∅) (witnessesAfter built.txHash calls)

theorem SignedBy.step (h : SignedBy decodeFragment tx built calls built') (hreads : ReadsBack decodeFragment tx)
    (hera : built.era = .conway) (hnone : keyWitnesses tx = []) (call : SignCall)
    (hlen : (calls ++ [call]).length < 2 ^ 64) :
    (call.apply decodeFragment built' = .panic ∧ witnessesAfter built.txHash (calls ++ [call]) = []) ∨
      ∃ next, call.apply decodeFragment built' = .ok next ∧ witnessesAfter built.txHash (calls ++ [call]) ≠ [] ∧
        SignedBy decodeFragment tx built (calls ++ [call]) next := by
  obtain ⟨tx', htx, -, hcases⟩ := h.bytes
  have hera' : built'.era = .conway := by
    rw [h.frame]
    exact hera
  have hhash : built'.txHash = built.txHash := by rw [h.frame]
  have hwits : keyWitnesses tx' = witnessesAfter built.txHash calls := by
    rcases hcases with ⟨rfl, hempty⟩ | rfl
    · rw [hnone, hempty]
    · rfl
  have hsigned : ∀ wits, signedTx tx' wits = signedTx tx wits := by
    intro wits
    rcases hcases with ⟨rfl, -⟩ | rfl
    · rfl
    · rfl
  rw [apply_conway hera', rewrite_eq htx, hwits, hhash, ← witnessesAfter_concat]
  split
  · next hempty => exact .inl ⟨rfl, hempty⟩
  · next hsome =>
    refine .inr ⟨_, rfl, hsome, ?_, ?_, ?_⟩
    · rw [h.frame]
    · refine ⟨signedTx tx (witnessesAfter built.txHash (calls ++ [call])), ?_, ?_, .inr rfl⟩
      · rw [hsigned]
        obtain ⟨hle, hsized⟩ := witnessesAfter_sized built.txHash (calls ++ [call])
        exact hreads.signed _ hsome (hle.trans_lt hlen) hsized
      · rw [hsigned]
    · rw [witnessesAfter_concat]
      exact h.table.record call

/-- Runs of calls on a transaction without key witnesses. A run never fails, and panics exactly when one of its calls leaves
no witness; else the hash and the body stay, and the witnesses of the bytes and the table are those of the calls. -/
structure SigningExact (decodeFragment : Bytes → Option Tx) (tx : Tx) (built : BuiltTransaction)
    (calls : List SignCall) : Prop where
  panics : Outcome.fold (SignCall.apply decodeFragment) built calls = .panic ↔
    ∃ pre call post, calls = pre ++ call :: post ∧ witnessesAfter built.txHash (pre ++ [call]) = []
  succeeds : ∀ e, Outcome.fold (SignCall.apply decodeFragment) built calls ≠ .err e
  signs : ∀ built', Outcome.fold (SignCall.apply decodeFragment) built calls = .ok built' →
    SignedBy decodeFragment tx built calls built'

/-- What is left of a run, from where it stands. -/
theorem SignedBy.rest (hreads : ReadsBack decodeFragment tx) (hera : built.era = .conway) (hnone : keyWitnesses tx = [])
    {pre post : List SignCall} (h : SignedBy decodeFragment tx built pre built')
    (hlen : (pre ++ post).length < 2 ^ 64) :
    (Outcome.fold (SignCall.apply decodeFragment) built' post = .panic ∧ ∃ mid call rest, post = mid ++ call :: rest ∧
        witnessesAfter built.txHash (pre ++ mid ++ [call]) = []) ∨
      ∃ last, Outcome.fold (SignCall.apply decodeFragment) built' post = .ok last ∧
        (∀ mid call rest, post = mid ++ call :: rest → witnessesAfter built.txHash (pre ++ mid ++ [call]) ≠ []) ∧
        SignedBy decodeFragment tx built (pre ++ post) last := by
  induction post generalizing pre built' with
  | nil =>
    refine .inr ⟨built', rfl, fun mid call rest heq => by simp at heq, ?_⟩
    rw [List.append_nil]
    exact h
  | cons call post ih =>
    rw [Outcome.fold_cons]
    have hone : (pre ++ [call]).length < 2 ^ 64 := by
      rw [List.length_append, List.length_cons] at hlen
      rw [List.length_append, List.length_singleton]
      omega
    rcases h.step hreads hera hnone call hone with ⟨hpanic, hempty⟩ | ⟨next, hok, hsome, hnext⟩
    · refine .inl ⟨by rw [hpanic, Outcome.panic_bind], [], call, post, rfl, ?_⟩
      rw [List.append_nil]
      exact hempty
    rw [hok, Outcome.ok_bind]
    rcases ih hnext (by rwa [List.append_assoc]) with ⟨hpanic, mid, call', rest, rfl, hempty⟩ | ⟨last, hlast, hnever, hsigned⟩
    · refine .inl ⟨hpanic, call :: mid, call', rest, rfl, ?_⟩
      simpa using hempty
    · refine .inr ⟨last, hlast, fun mid call' rest heq => ?_, by simpa using hsigned⟩
      cases mid with
      | nil =>
        obtain ⟨rfl, -⟩ := List.cons.inj heq
        simpa using hsome
      | cons call'' mid =>
        obtain ⟨rfl, hpost⟩ := List.cons.inj heq
        simpa using hnever mid call' rest hpost

theorem signing_exact (hreads : ReadsBack decodeFragment tx) (hbytes : built.txBytes = encodeTx tx)
    (hera : built.era = .conway) (hnone : keyWitnesses tx = []) (hsignatures : built.signatures = none)
    (calls : List SignCall) (hlen : calls.length < 2 ^ 64) : SigningExact decodeFragment tx built calls := by
  have hstart : SignedBy decodeFragment tx built [] built := by
    refine ⟨rfl, ⟨tx, ?_, hbytes, .inl ⟨rfl, rfl⟩⟩, ?_⟩
    · rw [hbytes]
      exact hreads.built
    · rw [hsignatures]
      exact tabulates_nil
  rcases hstart.rest hreads hera hnone hlen with
    ⟨hpanic, mid, call, rest, rfl, hempty⟩ | ⟨last, hlast, hnever, hsigned⟩
  · refine ⟨iff_of_true hpanic ⟨mid, call, rest, rfl, hempty⟩, fun e he => ?_, fun built' hok => ?_⟩
    · cases hpanic.symm.trans he
    · cases hpanic.symm.trans hok
  · refine ⟨iff_of_false (fun hpanic => by cases hlast.symm.trans hpanic) ?_, fun e he => ?_, fun built' hok => ?_⟩
    · rintro ⟨mid, call, rest, heq, hempty⟩
      exact hnever mid call rest heq hempty
    · cases hlast.symm.trans he
    · obtain rfl := Outcome.ok.inj (hlast.symm.trans hok)
      exact hsigned

/-- One input pays to its own key, which is to sign. -/
def payment : StagingTransaction := { StagingTransaction.new with
  inputs := some [⟨0, 0⟩]
  outputs := some [{ address := sampleAddress, lovelace := 9800000 }]
  fee := some 200000
  disclosedSigners := some [sampleKeyHash] }

/-- The bytes of its body. -/
def paymentBytes : Bytes :=
  Cbor.bigEndian 40 0xa400d901028182582000000000000000000000000000000000000000000000000000000000000000 ++
    Cbor.bigEndian 40 0x00000181a200581d6127e38d0e19e3434e33fbd001d3fe04b5b76763f88acd625e0d770b43011a00 ++
    Cbor.bigEndian 44 0x958940021a00030d400ed9010281581c27e38d0e19e3434e33fbd001d3fe04b5b76763f88acd625e0d770b43

def paymentHash : Hash 32 := 0x8e5e867061cc59ba3345d579e3aafba725fb6ca6f8bb6fa58447b19617e11e5d

/-- The signature of the hash by the key. -/
def paymentSignature : Hash 64 := Hash.ofBytes 64 <|
  Cbor.bigEndian 40 0x381d0ea342a79e3ffac378ba7a20886c822b350388a239f0f33320aefcb79ffdbf5757c9d30d68e6 ++
    Cbor.bigEndian 24 0x352493b086058ab31ce090ce8b03974cbe55be7cf3e52f03

def wallet : Platform String := { plain with
  crypto := .ofTables [(sampleVkey, sampleKeyHash)] [(paymentBytes, paymentHash)] []
    [(sampleVkey, paymentHash.toBytes, paymentSignature.toBytes)] }

def payer : Signer where
  publicKey := 0x03a107bff3ce10be1d70dd18e74bc09967e4d6309ba50d5f1ddc8664125531b8
  sign _ := paymentSignature

def paymentTx : Tx :=
  assemble wallet payment [.postAlonzo ⟨sampleAddress, .coin 9800000, none, none⟩] ∅ none none {} [] []

def builtPayment : BuiltTransaction where
  version := "v1"
  era := .conway
  status := .built
  txHash := paymentHash
  txBytes := encodeTx paymentTx
  signatures := none

def readPayment (bs : Bytes) : Option Tx := (readSigned paymentTx bs).map Prod.fst

theorem readPayment_readsBack : ReadsBack readPayment paymentTx := readSigned_readsBack rfl

theorem signing_exact_removed :
    SigningExact readPayment paymentTx builtPayment [.sign payer, .removeSignature payer.publicKey, .sign payer] :=
  signing_exact readPayment_readsBack rfl rfl rfl rfl _ (by decide)

end Runs

/-! ### What the validator makes of it -/

section Validator
variable {c : Crypto} {data : Bytes} {wits : List VKeyWitness} {marked marked' : List (Bool × VKeyWitness)}
variable {keyHash : AddrKeyhash} {utxos : UTxOs} {input : TransactionInput}

/-- The witness of some key with the hash is there. -/
def Witnessed (c : Crypto) (wits : List VKeyWitness) (keyHash : AddrKeyhash) : Prop :=
  ∃ w ∈ wits, c.blake2b224 w.vkey = keyHash

/-- The input is there, and the key of its address, if it has one, is among the witnesses. -/
def Unlocks (c : Crypto) (utxos : UTxOs) (wits : List VKeyWitness) (input : TransactionInput) : Prop :=
  ∃ output bytes part, utxos (.alonzoCompatible input) = some output ∧ vkeyAddress output = some bytes ∧
    getPaymentPart bytes = some part ∧ ∀ keyHash, part = .key keyHash → Witnessed c wits keyHash

theorem checkVkWit_snd (h : checkVkWit c vkErrors keyHash data marked = .ok marked') :
    marked'.map Prod.snd = marked.map Prod.snd := by
  induction marked generalizing marked' with
  | nil => cases h
  | cons head rest ih =>
    obtain ⟨covered, wit⟩ := head
    unfold checkVkWit at h
    split at h
    · obtain ⟨valid, -, h⟩ := Outcome.bind_eq_ok.1 h
      split at h
      · obtain rfl := Outcome.ok.inj h
        rfl
      · cases h
    · obtain ⟨rest', hrest, h⟩ := Outcome.bind_eq_ok.1 h
      obtain rfl := Outcome.ok.inj h
      rw [List.map_cons, List.map_cons, ih hrest]

theorem checkVkWit_iff (hvalid : ∀ w ∈ marked.map Prod.snd, ValidSignature c data w) :
    (∃ marked', checkVkWit c vkErrors keyHash data marked = .ok marked') ↔ Witnessed c (marked.map Prod.snd) keyHash := by
  constructor
  · rintro ⟨marked', h⟩
    obtain ⟨w, hw, hk, -⟩ := checkVkWit_valid h
    exact ⟨w, hw, hk⟩
  · rintro ⟨w, hw, hk⟩
    induction marked with
    | nil => cases hw
    | cons head rest ih =>
      obtain ⟨covered, wit⟩ := head
      unfold checkVkWit
      split
      · have hgood : verifySignature c wit data = .ok true := hvalid wit (List.mem_cons_self ..)
        exact ⟨(true, wit) :: rest, by rw [hgood]; rfl⟩
      · next hne =>
        have hrest : w ∈ rest.map Prod.snd := by
          rcases List.mem_cons.1 hw with rfl | hw
          · exact absurd hk hne
          · exact hw
        obtain ⟨rest', hrest'⟩ := ih (fun w' hw' => hvalid w' (List.mem_cons_of_mem _ hw')) hrest
        exact ⟨(covered, wit) :: rest', by rw [hrest']; rfl⟩

/-- One input of `check_vkey_input_wits`, as Conway calls it. -/
abbrev checkInput (c : Crypto) (utxos : UTxOs) (data : Bytes) :=
  checkVkeyInput c vkErrors vkeyAddress (.err (.postAlonzo .inputDecoding)) utxos data

theorem checkInput_snd (h : checkInput c utxos data marked input = .ok marked') :
    marked'.map Prod.snd = marked.map Prod.snd := by
  unfold checkInput checkVkeyInput at h
  split at h
  · split at h
    · obtain ⟨part, -, h⟩ := Outcome.bind_eq_ok.1 h
      cases part with
      | key k => exact checkVkWit_snd h
      | script hash => rw [Outcome.ok.inj h]
    · cases h
  · cases h

theorem checkInput_iff (hvalid : ∀ w ∈ marked.map Prod.snd, ValidSignature c data w) :
    (∃ marked', checkInput c utxos data marked input = .ok marked') ↔ Unlocks c utxos (marked.map Prod.snd) input := by
  unfold checkInput checkVkeyInput Unlocks
  cases houtput : utxos (.alonzoCompatible input) with
  | none => simp
  | some output =>
    cases hbytes : vkeyAddress output with
    | none => simp [hbytes]
    | some bytes =>
      cases hpart : getPaymentPart bytes with
      | none => simp [hbytes, hpart, Outcome.ofOption]
      | some part =>
        cases part with
        | key k => simpa [hbytes, hpart, Outcome.ofOption] using checkVkWit_iff hvalid
        | script hash => simp [hbytes, hpart, Outcome.ofOption]

theorem fold_checkInput_iff {inputs : List TransactionInput} (hvalid : ∀ w ∈ wits, ValidSignature c data w)
    (hwits : marked.map Prod.snd = wits) :
    (∃ marked', Outcome.fold (checkInput c utxos data) marked inputs = .ok marked' ∧ marked'.map Prod.snd = wits) ↔
      ∀ input ∈ inputs, Unlocks c utxos wits input := by
  induction inputs generalizing marked with
  | nil => simp [hwits]
  | cons input inputs ih =>
    have hone : (∃ marked', checkInput c utxos data marked input = .ok marked') ↔ Unlocks c utxos wits input := by
      rw [← hwits]
      exact checkInput_iff (by rwa [hwits])
    rw [List.forall_mem_cons, ← hone]
    constructor
    · rintro ⟨last, h, hlast⟩
      obtain ⟨next, hnext, h⟩ := Outcome.bind_eq_ok.1 h
      exact ⟨⟨next, hnext⟩, (ih ((checkInput_snd hnext).trans hwits)).1 ⟨last, h, hlast⟩⟩
    · rintro ⟨⟨next, hnext⟩, hrest⟩
      obtain ⟨last, h, hlast⟩ := (ih ((checkInput_snd hnext).trans hwits)).2 hrest
      exact ⟨last, Outcome.bind_eq_ok.2 ⟨next, hnext, h⟩, hlast⟩

theorem checkRemainingVkWits_ok (hvalid : ∀ w ∈ marked.map Prod.snd, ValidSignature c data w) :
    checkRemainingVkWits c vkErrors data marked = .ok () := by
  induction marked with
  | nil => rfl
  | cons head rest ih =>
    obtain ⟨covered, wit⟩ := head
    unfold checkRemainingVkWits
    split
    · exact ih fun w hw => hvalid w (List.mem_cons_of_mem _ hw)
    · have hgood : verifySignature c wit data = .ok true := hvalid wit (List.mem_cons_self ..)
      rw [hgood]
      rfl

theorem checkVkeyInputWits_iff {tx : Tx} (hvalid : ∀ w ∈ wits, ValidSignature c (Conway.txHash c tx) w) :
    Conway.checkVkeyInputWits c tx (some wits) utxos = .ok () ↔ ∀ input ∈ Conway.spent tx, Unlocks c utxos wits input := by
  have hstart : (wits.map fun w => (false, w)).map Prod.snd = wits := by simp
  rw [Conway.spent, ← fold_checkInput_iff hvalid hstart]
  constructor
  · intro h
    obtain ⟨start, hmk, h⟩ := Outcome.bind_eq_ok.1 h
    obtain rfl := Outcome.ok.inj hmk
    obtain ⟨last, hfold, h⟩ := Outcome.bind_eq_ok.1 h
    refine ⟨last, hfold, ?_⟩
    exact Outcome.fold_inv (fun _ m => m.map Prod.snd = wits) (fun _ _ _ _ hs hstep => (checkInput_snd hstep).trans hs)
      hstart hfold
  · rintro ⟨last, hfold, hlast⟩
    refine Outcome.bind_eq_ok.2 ⟨_, rfl, Outcome.bind_eq_ok.2 ⟨last, hfold, ?_⟩⟩
    exact checkRemainingVkWits_ok (by rwa [hlast])

theorem findAndCheckReqSigner_iff {missing wrongSig : ValidationError}
    (hvalid : ∀ w ∈ wits, ValidSignature c data w) :
    findAndCheckReqSigner c missing wrongSig keyHash data wits = .ok () ↔ Witnessed c wits keyHash := by
  induction wits with
  | nil => simp [findAndCheckReqSigner, Witnessed]
  | cons wit rest ih =>
    unfold findAndCheckReqSigner
    split
    · next hk =>
      have hgood : verifySignature c wit data = .ok true := hvalid wit (List.mem_cons_self ..)
      rw [hgood]
      exact iff_of_true rfl ⟨wit, List.mem_cons_self .., hk⟩
    · next hne =>
      rw [ih fun w hw => hvalid w (List.mem_cons_of_mem _ hw)]
      simp [Witnessed, hne]

theorem checkRequiredSigners_iff {missing wrongSig : ValidationError} {signers : Option (List AddrKeyhash)}
    (hvalid : ∀ w ∈ wits, ValidSignature c data w) :
    checkRequiredSigners c missing wrongSig signers (some wits) data = .ok () ↔
      ∀ signer ∈ signers.getD [], Witnessed c wits signer := by
  cases signers with
  | none => simp [checkRequiredSigners]
  | some signers =>
    rw [checkRequiredSigners, Outcome.forEach_eq_ok]
    exact forall₂_congr fun signer _ => findAndCheckReqSigner_iff hvalid

theorem keyWitness_valid {pubKey txHash : Hash 32} {signature : Hash 64}
    (h : c.verify pubKey.toBytes txHash.toBytes signature.toBytes = true) :
    ValidSignature c txHash.toBytes (keyWitness pubKey signature) := by
  rw [ValidSignature, verifySignature, if_neg (by simp [keyWitness, Hash.length_toBytes]),
    if_neg (by simp [keyWitness, Hash.length_toBytes])]
  exact congrArg Outcome.ok h

theorem witnessesAfter_valid {txHash : Hash 32} {calls : List SignCall} (h : ∀ call ∈ calls, call.Verifies c txHash) :
    ∀ w ∈ witnessesAfter txHash calls, ValidSignature c txHash.toBytes w := by
  induction calls using List.reverseRecOn with
  | nil =>
    intro w hw
    cases hw
  | append_singleton calls call ih =>
    have hold := ih fun call' hcall => h call' (List.mem_append_left _ hcall)
    have hnew := h call (List.mem_append_right _ (List.mem_cons_self ..))
    rw [witnessesAfter_concat]
    have hpush : ∀ pubKey signature, c.verify (Hash.toBytes pubKey) txHash.toBytes (Hash.toBytes signature) = true →
        ∀ w ∈ witnessesAfter txHash calls ++ [keyWitness pubKey signature], ValidSignature c txHash.toBytes w := by
      intro pubKey signature hverify w hw
      rcases List.mem_append.1 hw with hw | hw
      · exact hold w hw
      · rw [List.mem_singleton.1 hw]
        exact keyWitness_valid hverify
    cases call with
    | sign privateKey => exact hpush _ _ hnew
    | addSignature pubKey signature => exact hpush _ _ hnew
    | removeSignature pubKey => exact fun w hw => hold w (List.mem_of_mem_filter hw)

end Validator

section Pipeline
variable {ε : Type} {p : Platform ε} {s : StagingTransaction} {decodeFragment : Bytes → Option Tx} {tx : Tx}
variable {built built' : BuiltTransaction} {calls : List SignCall}

theorem keyWitnesses_of_buildTx (h : buildTx p s = .ok tx) : keyWitnesses tx = [] := by
  unfold buildTx at h
  obtain ⟨outputs, -, h⟩ := Outcome.bind_eq_ok.1 h
  obtain ⟨mint, -, h⟩ := Outcome.bind_eq_ok.1 h
  obtain ⟨networkId, -, h⟩ := Outcome.bind_eq_ok.1 h
  obtain ⟨collateralReturn, -, h⟩ := Outcome.bind_eq_ok.1 h
  obtain ⟨scripts, -, h⟩ := Outcome.bind_eq_ok.1 h
  obtain ⟨plutusData, -, h⟩ := Outcome.bind_eq_ok.1 h
  obtain ⟨redeemers, -, h⟩ := Outcome.bind_eq_ok.1 h
  obtain rfl := Outcome.ok.inj h
  rfl

/-- What a run of calls on a transaction that was built leaves to check: what is read from its bytes has the body that was
built, and the key witnesses pass exactly when the keys that signed are those that are asked for. -/
structure PassesWhenSigned (c : Crypto) (decodeFragment : Bytes → Option Tx) (tx : Tx) (built built' : BuiltTransaction)
    (calls : List SignCall) (utxos : UTxOs) (tx' : Tx) : Prop where
  read : decodeFragment built'.txBytes = some tx'
  body : tx'.transactionBody = tx.transactionBody
  hash : Conway.txHash c tx' = built'.txHash.toBytes
  inputs : (∀ call ∈ calls, call.Verifies c built.txHash) →
    (Conway.checkVkeyInputWits c tx' (some (keyWitnesses tx')) utxos = .ok () ↔
      ∀ input ∈ Conway.spent tx, Unlocks c utxos (witnessesAfter built.txHash calls) input)
  signers : (∀ call ∈ calls, call.Verifies c built.txHash) →
    ∀ missing wrongSig, checkRequiredSigners c missing wrongSig tx'.transactionBody.inner.requiredSigners
        (some (keyWitnesses tx')) (Conway.txHash c tx') = .ok () ↔
      ∀ signer ∈ tx.transactionBody.inner.requiredSigners.getD [],
        Witnessed c (witnessesAfter built.txHash calls) signer

theorem signed_passes (hbuild : buildTx p s = .ok tx) (hbuilt : buildConwayRaw p s = .ok built)
    (hreads : ReadsBack decodeFragment tx) (hlen : calls.length < 2 ^ 64)
    (hrun : Outcome.fold (SignCall.apply decodeFragment) built calls = .ok built')
    (utxos : UTxOs) :
    ∃ tx', PassesWhenSigned p.crypto decodeFragment tx built built' calls utxos tx' := by
  rw [buildConwayRaw, hbuild, Outcome.ok_bind] at hbuilt
  obtain rfl := Outcome.ok.inj hbuilt
  have hnone := keyWitnesses_of_buildTx hbuild
  have hsigned := (signing_exact hreads rfl rfl hnone rfl calls hlen).signs built' hrun
  have hhash : built'.txHash = p.crypto.blake2b256 tx.transactionBody.rawCbor := by rw [hsigned.frame]
  obtain ⟨tx', hread, -, hcases⟩ := hsigned.bytes
  have hbody : tx'.transactionBody = tx.transactionBody := by
    rcases hcases with ⟨rfl, -⟩ | rfl <;> rfl
  have hwits : keyWitnesses tx' = witnessesAfter (p.crypto.blake2b256 tx.transactionBody.rawCbor) calls := by
    rcases hcases with ⟨rfl, hempty⟩ | rfl
    · rw [hnone]
      exact hempty.symm
    · rfl
  have hdata : Conway.txHash p.crypto tx' = (p.crypto.blake2b256 tx.transactionBody.rawCbor).toBytes := by
    rw [Conway.txHash, hbody]
  have hspent : Conway.spent tx' = Conway.spent tx := by rw [Conway.spent, hbody, Conway.spent]
  refine ⟨tx', hread, hbody, by rw [hdata, hhash], fun hverifies => ?_, fun hverifies missing wrongSig => ?_⟩
  · have hvalid := witnessesAfter_valid hverifies
    rw [hwits, checkVkeyInputWits_iff (by rwa [hdata]), hspent]
  · have hvalid := witnessesAfter_valid hverifies
    rw [hwits, hbody, checkRequiredSigners_iff (by rwa [hdata])]

theorem buildTx_payment : buildTx wallet payment = .ok paymentTx := rfl

theorem paymentTx_hash : wallet.crypto.blake2b256 paymentTx.transactionBody.rawCbor = paymentHash := by
  have hbytes : paymentTx.transactionBody.rawCbor = paymentBytes := by decide
  rw [hbytes]
  decide

theorem buildConwayRaw_payment : buildConwayRaw wallet payment = .ok builtPayment := by
  rw [buildConwayRaw, buildTx_payment, Outcome.ok_bind, paymentTx_hash]
  rfl

theorem signed_passes_payment : (∀ call ∈ [SignCall.sign payer], call.Verifies wallet.crypto builtPayment.txHash) ∧
    ∃ tx', PassesWhenSigned wallet.crypto readPayment paymentTx builtPayment
      { builtPayment with
        signatures := some ((∅ : HashTable (Hash 32) (Hash 64)).insert payer.publicKey paymentSignature)
        txBytes := encodeTx (signedTx paymentTx [keyWitness payer.publicKey paymentSignature]) }
      [.sign payer] (singleUtxo (.conway (.legacy ⟨sampleAddress, .coin 10000000, none⟩))) tx' := by
  refine ⟨?_, signed_passes (p := wallet) (s := payment) buildTx_payment buildConwayRaw_payment
    readPayment_readsBack (by decide) ?_ _⟩
  · intro call hcall
    obtain rfl := List.mem_singleton.1 hcall
    show wallet.crypto.verify payer.publicKey.toBytes paymentHash.toBytes paymentSignature.toBytes = true
    have hkey : payer.publicKey.toBytes = sampleVkey := by decide
    rw [hkey]
    simp only [wallet, Crypto.ofTables, List.contains_cons, beq_self_eq_true, Bool.true_or]
  · have hchange : (SignCall.sign payer).change builtPayment.txHash (keyWitnesses paymentTx) =
        [keyWitness payer.publicKey paymentSignature] := rfl
    have hread : readPayment builtPayment.txBytes = some paymentTx := readPayment_readsBack.built
    rw [Outcome.fold_cons, apply_conway (by rfl), rewrite_eq hread, hchange,
      if_neg (List.cons_ne_nil _ _), Outcome.ok_bind]
    rfl

end Pipeline

end Pallas.TxBuilder
