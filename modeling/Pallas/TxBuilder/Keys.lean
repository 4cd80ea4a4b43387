import Pallas.TxBuilder.Panics
import Pallas.TxBuilder.Unique

/-!
# The keys of staged scripts and datums (`pallas-txbuilder/src/transaction/model.rs`)

Scripts and datums are staged in tables, under a key that is computed when they are put in: for a script it is its hash, and
for a datum the hash of something else, the encoding of its bytes as a list of numbers. `remove_datum` computes the key as
`datum` does, so the two go together; `remove_datum_by_hash` takes the hash of a datum, and there is nothing under it.
-/

namespace Pallas
namespace TxBuilder
open StagingTransaction

variable {ε : Type} (p : Platform ε)

/-- The value is in the table, under this key. -/
def Holds {κ ν : Type} [DecidableEq κ] (table : Option (HashTable κ ν)) (k : κ) (v : ν) : Prop :=
  (table.getD ∅).lookup k = some v

/-- The ledger's hash of a script. -/
def scriptKey (s : Script) : ScriptHash := p.crypto.blake2b224 (hashTag s.kind :: s.bytes)

/-- What is hashed for the key of a datum. -/
def encodeDatum (datum : Bytes) : Bytes := encodeVec (datum.map fun b => Cbor.uint b.toNat)

/-- The hash tells apart what is in the set, and nothing in it is longer than a byte string of CBOR can be. -/
structure Hashable (S : Set Bytes) : Prop where
  injective : Set.InjOn p.crypto.blake2b256 S
  length : ∀ bs ∈ S, bs.length < 2 ^ 64

/-- Scripts are kept under their hashes, so that removing a hash removes what has this hash and nothing else, removing a datum
undoes adding it, and adding again what is there changes nothing. -/
structure KeysPaired (S : Set Bytes) (s : StagingTransaction) : Prop where
  scripts : ∀ k x, Holds s.scripts k x → k = scriptKey p x
  removeScriptByHash : ∀ h k x, Holds (s.removeScriptByHash h).scripts k x ↔ Holds s.scripts k x ∧ scriptKey p x ≠ h
  scriptAgain : ∀ x l, Holds s.scripts l x → ∀ k y, Holds (s.script p x.kind x.bytes).scripts k y ↔ Holds s.scripts k y
  datumAgain : ∀ d l, Holds s.datums l d → ∀ k e, Holds (s.datum p d).datums k e ↔ Holds s.datums k e
  removeDatum : ∀ d, encodeDatum d ∈ S →
    ∀ k e, Holds ((s.datum p d).removeDatum p d).datums k e ↔ Holds s.datums k e ∧ e ≠ d

/-- Datums are kept under their hashes as well. -/
structure KeysAreHashes (S : Set Bytes) (s : StagingTransaction) : Prop extends KeysPaired p S s where
  datums : ∀ k d, Holds s.datums k d → k = p.crypto.blake2b256 d
  removeDatumByHash : ∀ h k d, Holds (s.removeDatumByHash h).datums k d ↔ Holds s.datums k d ∧ p.crypto.blake2b256 d ≠ h

/-- A chain of calls reaches the staging transaction. -/
def Reaches (calls : List Call) (s : StagingTransaction) : Prop := ∃ pre, pre <+: calls ∧ run p pre = .ok s

/-- A chain of calls gets as far as this call. -/
def Makes (calls : List Call) (c : Call) : Prop := ∃ pre s, pre ++ [c] <+: calls ∧ run p pre = .ok s

variable {p} {s t : StagingTransaction} {calls : List Call} {c : Call} {S : Set Bytes}

/-! ### The tables -/

section tables
variable {κ ν : Type} [DecidableEq κ] {table : Option (HashTable κ ν)} {k l : κ} {v w : ν}

theorem holds_insert : Holds (some ((table.getD ∅).insert l w)) k v ↔ (k = l ∧ v = w) ∨ (k ≠ l ∧ Holds table k v) := by
  rw [Holds, Option.getD_some, HashTable.lookup_insert_ite]
  split_ifs with h
  · simp [h, eq_comm]
  · simp [h, Holds]

theorem holds_erase : Holds (some ((table.getD ∅).erase l)) k v ↔ k ≠ l ∧ Holds table k v := by
  rw [Holds, Option.getD_some, HashTable.lookup_erase_ite]
  split_ifs with h
  · simp [h]
  · simp [h, Holds]

theorem holds_insert_again (h : Holds table l w) : Holds (some ((table.getD ∅).insert l w)) k v ↔ Holds table k v := by
  rw [holds_insert]
  by_cases hk : k = l
  · subst hk
    constructor
    · rintro (⟨-, rfl⟩ | ⟨hne, -⟩)
      · exact h
      · exact absurd rfl hne
    · exact fun hv => .inl ⟨rfl, Option.some.inj (hv.symm.trans h)⟩
  · simp only [hk, false_and, ne_eq, not_false_eq_true, true_and, false_or]

theorem not_holds_none : ¬ Holds (none : Option (HashTable κ ν)) k v := nofun

end tables

/-- The scripts after a call. -/
def scriptsAfter (p : Platform ε) (s : StagingTransaction) : Call → Option (HashTable ScriptHash Script)
  | .script language bytes => (s.script p language bytes).scripts
  | .removeScriptByHash scriptHash => (s.removeScriptByHash scriptHash).scripts
  | _ => s.scripts

/-- The datums after a call. -/
def datumsAfter (p : Platform ε) (s : StagingTransaction) : Call → Option (HashTable DatumHash Bytes)
  | .datum d => (s.datum p d).datums
  | .removeDatum d => (s.removeDatum p d).datums
  | .removeDatumByHash datumHash => (s.removeDatumByHash datumHash).datums
  | _ => s.datums

theorem step_tables (h : step p s c = .ok t) : t.scripts = scriptsAfter p s c ∧ t.datums = datumsAfter p s c := by
  cases c with
  | output output calls =>
    obtain ⟨o, -, h⟩ := Outcome.bind_eq_ok.1 h
    cases h
    exact ⟨rfl, rfl⟩
  | collateralOutput output calls =>
    obtain ⟨o, -, h⟩ := Outcome.bind_eq_ok.1 h
    cases h
    exact ⟨rfl, rfl⟩
  | removeOutput index =>
    rw [step, StagingTransaction.removeOutput] at h
    split_ifs at h
    cases h
    exact ⟨rfl, rfl⟩
  | mintAsset policy name amount =>
    rw [step, StagingTransaction.mintAsset] at h
    split_ifs at h
    obtain ⟨mint, -, h⟩ := Outcome.bind_eq_ok.1 h
    cases h
    exact ⟨rfl, rfl⟩
  | removeMintAsset policy name =>
    cases h
    show (s.removeMintAsset policy name).scripts = s.scripts ∧ (s.removeMintAsset policy name).datums = s.datums
    unfold StagingTransaction.removeMintAsset
    cases s.mint <;> exact ⟨rfl, rfl⟩
  | addLanguage plutusVersion costModel =>
    cases h
    show (s.addLanguage plutusVersion costModel).scripts = s.scripts ∧
      (s.addLanguage plutusVersion costModel).datums = s.datums
    unfold StagingTransaction.addLanguage
    cases viewKey plutusVersion <;> exact ⟨rfl, rfl⟩
  | addAuxiliaryData data =>
    cases h
    show (s.addAuxiliaryData p data).scripts = s.scripts ∧ (s.addAuxiliaryData p data).datums = s.datums
    unfold StagingTransaction.addAuxiliaryData
    cases p.decodeAuxiliaryData data <;> exact ⟨rfl, rfl⟩
  | _ =>
    cases h
    exact ⟨rfl, rfl⟩

/-! ### The keys that are computed -/

/-- Every script and every datum is under the key that is computed for it. -/
structure Keyed (p : Platform ε) (s : StagingTransaction) : Prop where
  scripts : ∀ k x, Holds s.scripts k x → k = scriptKey p x
  datums : ∀ k d, Holds s.datums k d → k = datumKey p d

theorem keyed_new : Keyed p .new := ⟨fun _ _ h => absurd h not_holds_none, fun _ _ h => absurd h not_holds_none⟩

theorem Keyed.step (hs : Keyed p s) (h : step p s c = .ok t) : Keyed p t := by
  obtain ⟨hscripts, hdatums⟩ := step_tables h
  refine ⟨fun k x hx => ?_, fun k d hd => ?_⟩
  · rw [hscripts] at hx
    cases c with
    | script language bytes =>
      rcases holds_insert.1 hx with ⟨rfl, rfl⟩ | ⟨-, hx⟩
      · rfl
      · exact hs.scripts k x hx
    | removeScriptByHash scriptHash => exact hs.scripts k x (holds_erase.1 hx).2
    | _ => exact hs.scripts k x hx
  · rw [hdatums] at hd
    cases c with
    | datum e =>
      rcases holds_insert.1 hd with ⟨rfl, rfl⟩ | ⟨-, hd⟩
      · rfl
      · exact hs.datums k d hd
    | removeDatum e => exact hs.datums k d (holds_erase.1 hd).2
    | removeDatumByHash datumHash => exact hs.datums k d (holds_erase.1 hd).2
    | _ => exact hs.datums k d hd

theorem keyed_of_run (h : run p calls = .ok s) : Keyed p s :=
  Outcome.fold_inv (fun _ s => Keyed p s) (fun _ _ _ _ hs hstep => hs.step hstep) keyed_new h

namespace Keyed
variable (hs : Keyed p s)
include hs

theorem holds_removeScriptByHash (h : Hash 28) (k : ScriptHash) (x : Script) :
    Holds (s.removeScriptByHash h).scripts k x ↔ Holds s.scripts k x ∧ scriptKey p x ≠ h := by
  refine holds_erase.trans ?_
  rw [and_comm]
  refine and_congr_right fun hx => ?_
  rw [hs.scripts k x hx]

theorem holds_script_again {x : Script} {l : ScriptHash} (hx : Holds s.scripts l x) (k : ScriptHash) (y : Script) :
    Holds (s.script p x.kind x.bytes).scripts k y ↔ Holds s.scripts k y := by
  rw [hs.scripts l x hx] at hx
  exact holds_insert_again hx

theorem holds_datum_again {d : Bytes} {l : DatumHash} (hd : Holds s.datums l d) (k : DatumHash) (e : Bytes) :
    Holds (s.datum p d).datums k e ↔ Holds s.datums k e := by
  rw [hs.datums l d hd] at hd
  exact holds_insert_again hd

end Keyed

/-! ### Datums -/

theorem head_length_pos (major n : ℕ) : 0 < (Cbor.head major n).length := by
  rw [Cbor.head]
  split_ifs <;> exact Nat.succ_pos _

theorem items_length (d : Bytes) : d.length ≤ (d.map fun b => Cbor.uint b.toNat).flatten.length := by
  induction d with
  | nil => exact le_rfl
  | cons b d ih =>
    have hb : 0 < (Cbor.uint b.toNat).length := head_length_pos 0 b.toNat
    simp only [List.map_cons, List.flatten_cons, List.length_append, List.length_cons]
    omega

theorem encodeDatum_length (d : Bytes) : d.length < (encodeDatum d).length := by
  have harray : 0 < (Cbor.array (d.map fun b => Cbor.uint b.toNat).length).length := head_length_pos 4 _
  have hitems := items_length d
  rw [encodeDatum, encodeVec, List.length_append]
  omega

theorem Hashable.datumKey_ne (hS : Hashable p S) {d : Bytes} (hd : d ∈ S) (henc : encodeDatum d ∈ S) :
    datumKey p d ≠ p.crypto.blake2b256 d := by
  intro h
  have heq : encodeDatum d = d := hS.injective henc hd h
  have hlen := encodeDatum_length d
  rw [heq] at hlen
  exact lt_irrefl _ hlen

theorem Hashable.datumKey_inj (hS : Hashable p S) {d e : Bytes} (hd : encodeDatum d ∈ S) (he : encodeDatum e ∈ S)
    (h : datumKey p d = datumKey p e) : d = e := by
  have henc : encodeDatum d = encodeDatum e := hS.injective hd he h
  have hbyte : Distinct (fun b : UInt8 => Cbor.uint b.toNat) fun _ => True := by
    intro x y _ _ r r' hxy
    have hx := x.toNat_lt
    have hy := y.toNat_lt
    obtain ⟨hnat, hr⟩ := head_append_inj (by omega) (by omega) (by omega) hxy
    exact ⟨UInt8.toNat_inj.1 hnat, hr⟩
  have hnil : encodeDatum d ++ [] = encodeDatum e ++ [] := congrArg (· ++ []) henc
  exact (encodeVec_append_inj hbyte (fun _ _ => trivial) (fun _ _ => trivial)
    ((encodeDatum_length d).trans (hS.length _ hd)) ((encodeDatum_length e).trans (hS.length _ he)) hnil).1

theorem datum_mem (h : run p calls = .ok s) {k : DatumHash} {d : Bytes} (hd : Holds s.datums k d) :
    .datum d ∈ calls := by
  refine Outcome.fold_inv (fun pre s => ∀ k d, Holds s.datums k d → .datum d ∈ pre) ?_
    (fun _ _ h => absurd h not_holds_none) h k d hd
  intro pre c s t hs hstep k d hd
  rw [(step_tables hstep).2] at hd
  rw [List.mem_append, List.mem_singleton]
  cases c with
  | datum e =>
    rcases holds_insert.1 hd with ⟨rfl, rfl⟩ | ⟨-, hd⟩
    · exact .inr rfl
    · exact .inl (hs k d hd)
  | removeDatum e => exact .inl (hs k d (holds_erase.1 hd).2)
  | removeDatumByHash datumHash => exact .inl (hs k d (holds_erase.1 hd).2)
  | _ => exact .inl (hs k d hd)

theorem Keyed.holds_remove_datum (hs : Keyed p s) (hS : Hashable p S) (hall : ∀ k e, Holds s.datums k e → encodeDatum e ∈ S)
    {d : Bytes} (hd : encodeDatum d ∈ S) (k : DatumHash) (e : Bytes) :
    Holds ((s.datum p d).removeDatum p d).datums k e ↔ Holds s.datums k e ∧ e ≠ d := by
  constructor
  · intro h
    obtain ⟨hne, h⟩ := holds_erase.1 h
    rcases holds_insert.1 h with ⟨rfl, -⟩ | ⟨-, he⟩
    · exact absurd rfl hne
    · refine ⟨he, ?_⟩
      rintro rfl
      exact hne (hs.datums k e he)
  · rintro ⟨h, hne⟩
    have hk : k ≠ datumKey p d := by
      rintro rfl
      exact hne (hS.datumKey_inj (hall _ _ h) hd (hs.datums _ e h).symm)
    exact holds_erase.2 ⟨hk, holds_insert.2 (.inr ⟨hk, h⟩)⟩

/-! ### Chains of calls -/

theorem run_append (pre post : List Call) :
    run p (pre ++ post) = run p pre >>= fun s => Outcome.fold (step p) s post := by
  have hgen : ∀ s, Outcome.fold (step p) s (pre ++ post) =
      Outcome.fold (step p) s pre >>= fun t => Outcome.fold (step p) t post := by
    induction pre with
    | nil => exact fun s => rfl
    | cons c pre ih =>
      intro s
      rw [List.cons_append, Outcome.fold_cons, Outcome.fold_cons, bind_assoc]
      exact congrArg _ (funext ih)
  exact hgen .new

theorem makes_of_mem {pre : List Call} (hpre : pre <+: calls) (h : run p pre = .ok s) (hc : c ∈ pre) :
    Makes p calls c := by
  obtain ⟨l, r, rfl⟩ := List.append_of_mem hc
  rw [run_append] at h
  obtain ⟨t, ht, -⟩ := Outcome.bind_eq_ok.1 h
  refine ⟨l, t, List.IsPrefix.trans ⟨r, ?_⟩ hpre, ht⟩
  rw [List.append_assoc, List.singleton_append]

theorem keysPaired_of_run (hS : Hashable p S) (hcalls : ∀ d, .datum d ∈ calls → encodeDatum d ∈ S)
    (h : run p calls = .ok s) : KeysPaired p S s := by
  have hs := keyed_of_run h
  have hall : ∀ k e, Holds s.datums k e → encodeDatum e ∈ S := fun k e he => hcalls e (datum_mem h he)
  exact {
    scripts := hs.scripts
    removeScriptByHash := hs.holds_removeScriptByHash
    scriptAgain := fun x l hx => hs.holds_script_again hx
    datumAgain := fun d l hd => hs.holds_datum_again hd
    removeDatum := fun d hd => hs.holds_remove_datum hS hall hd }

/-- In all that a chain reaches the keys of scripts are hashes, and what adds and removes goes together; the keys of datums are
hashes as well exactly if the chain adds no datum. -/
theorem keysAreHashes_iff (hS : Hashable p S) (hcalls : ∀ d, .datum d ∈ calls → d ∈ S ∧ encodeDatum d ∈ S) :
    (∀ s, Reaches p calls s → KeysPaired p S s) ∧
      ((∀ s, Reaches p calls s → KeysAreHashes p S s) ↔ ∀ d, ¬ Makes p calls (.datum d)) := by
  have hpaired : ∀ s, Reaches p calls s → KeysPaired p S s := by
    rintro s ⟨pre, hpre, hrun⟩
    exact keysPaired_of_run hS (fun d hd => (hcalls d (hpre.subset hd)).2) hrun
  refine ⟨hpaired, ?_, ?_⟩
  · rintro h d ⟨pre, s, hpre, hrun⟩
    obtain ⟨hd, henc⟩ := hcalls d (hpre.subset (by simp))
    have hnext : run p (pre ++ [.datum d]) = .ok (s.datum p d) := by
      rw [run_append, hrun]
      rfl
    have hkeys := h _ ⟨_, hpre, hnext⟩
    exact hS.datumKey_ne hd henc (hkeys.datums _ _ (holds_insert.2 (.inl ⟨rfl, rfl⟩)))
  · rintro hnone s ⟨pre, hpre, hrun⟩
    have hempty : ∀ k d, ¬ Holds s.datums k d := fun k d hd => hnone d (makes_of_mem hpre hrun (datum_mem hrun hd))
    refine { hpaired s ⟨pre, hpre, hrun⟩ with
      datums := fun k d hd => absurd hd (hempty k d)
      removeDatumByHash := fun h k d => ?_ }
    exact iff_of_false (fun hd => hempty k d (holds_erase.1 hd).2) fun hd => hempty k d hd.1

/-- A hash that tells a datum from its encoding. -/
def twoHashes : Platform String := { plain with crypto := .ofTables [] [([7], 1), ([0x81, 7], 2)] [] [] }

theorem twoHashes_hashable : Hashable twoHashes {[7], [0x81, 7]} := by
  constructor
  · rintro x (rfl | rfl) y (rfl | rfl) h
    · rfl
    · exact absurd h (by decide)
    · exact absurd h (by decide)
    · rfl
  · rintro bs (rfl | rfl) <;> decide

/-- A script is staged, and a datum. -/
theorem keysAreHashes_script_datum :
    (∀ s, Reaches twoHashes [.script .plutusV2 [1, 2], .datum [7]] s → KeysPaired twoHashes {[7], [0x81, 7]} s) ∧
      ((∀ s, Reaches twoHashes [.script .plutusV2 [1, 2], .datum [7]] s → KeysAreHashes twoHashes {[7], [0x81, 7]} s) ↔
        ∀ d, ¬ Makes twoHashes [.script .plutusV2 [1, 2], .datum [7]] (.datum d)) := by
  refine keysAreHashes_iff twoHashes_hashable fun d hd => ?_
  obtain rfl : d = [7] := by simpa using hd
  exact ⟨.inl rfl, .inr rfl⟩

/-- The datum is not under its hash, and removing this hash leaves it there. -/
theorem datum_stays : ¬ ∀ calls s, Reaches twoHashes calls s → KeysAreHashes twoHashes {[7], [0x81, 7]} s := by
  intro h
  have hkeys := h [.datum [7]] (.datum twoHashes .new [7]) ⟨_, List.prefix_rfl, rfl⟩
  have hheld : Holds ((StagingTransaction.datum twoHashes .new [7]).removeDatumByHash 1).datums 2 [7] := rfl
  exact ((hkeys.removeDatumByHash 1 2 [7]).1 hheld).2 rfl

end TxBuilder
end Pallas
