import Pallas.Lib.Positions
import Pallas.Phase2.Canonical
import Pallas.Validate.Alonzo
import Pallas.Validate.Babbage
import Pallas.Validate.Redeemers

/-!
# Redeemers of the Alonzo and Babbage eras (`pallas-validate/src/phase1/{alonzo,babbage}.rs`)

A redeemer points to a spent input or a minted policy that a Plutus script locks, by its position among the distinct
inputs or policies. Both eras take the positions in the list of inputs as it stands, sorted but with its repeats. Alonzo
asks of each lock whether it is the hash of a Plutus script. Babbage asks that of the policies only, with every reference
script taken for a Plutus script; of the inputs it counts each one that any script locks.

`Purposes` is what the rule is about, for a transaction of either era, and `Plain` says when what is counted is what is
needed.
-/

namespace Pallas
namespace Alonzo

/-- The inputs and policies of a transaction, the scripts that lock them, and the redeemers. -/
structure Purposes where
  inputs : List TransactionInput
  policies : List PolicyId
  lock : TransactionInput → Option ScriptHash
  Plutus : ScriptHash → Prop
  Native : ScriptHash → Prop
  redeemers : List Redeemer

namespace Purposes
variable (p : Purposes)

/-- The scripts that lock the purposes of a kind, in order. -/
def lockScripts : RedeemerTag → List (Option ScriptHash)
  | .spend => (sortInputs p.inputs.dedup).map p.lock
  | .mint => p.policies.map some
  | _ => []

/-- The purpose is locked by a script. -/
def Locked (tag : RedeemerTag) (n : ℕ) (h : ScriptHash) : Prop := (p.lockScripts tag)[n]? = some (some h)

/-- The purpose is locked by a Plutus script. -/
def Needed (tag : RedeemerTag) (n : ℕ) : Prop := ∃ h, p.Locked tag n h ∧ p.Plutus h

/-- There is a redeemer with the pointer. -/
def Redeemed (tag : RedeemerTag) (n : ℕ) : Prop := ∃ r ∈ p.redeemers, r.tag = tag ∧ r.index.toNat = n

/-- The result accepts exactly when the redeemers' pointers are the needed ones, and admits none at a native script's
purpose. -/
def Decided (result : ValidationResult) : Prop :=
  (result = .ok () ↔ ∀ tag n, p.Redeemed tag n ↔ p.Needed tag n) ∧
    (result = .ok () → ∀ tag n h, p.Locked tag n h → p.Native h → ¬ p.Redeemed tag n)

/-- The locks of the inputs as they are listed, and of the policies. -/
def listedScripts : RedeemerTag → List (Option ScriptHash)
  | .spend => (sortInputs p.inputs).map p.lock
  | .mint => p.policies.map some
  | _ => []

variable (counts : RedeemerTag → ScriptHash → Prop)

/-- The pointer, as a `u32`, of a listed lock that counts. -/
def Counted (tag : RedeemerTag) (n : ℕ) : Prop :=
  ∃ m h, (p.listedScripts tag)[m]? = some (some h) ∧ counts tag h ∧ m % 2 ^ 32 = n

/-- Every lock that counts is a Plutus script's, and up to an input with one no input is listed twice. -/
def Plain : Prop :=
  (∀ n i h, (sortInputs p.inputs)[n]? = some i → p.lock i = some h → counts .spend h →
    p.Plutus h ∧ ((sortInputs p.inputs).take (n + 1)).Nodup) ∧
  ∀ h ∈ p.policies, counts .mint h → p.Plutus h

/-- The positions fit. -/
def Short : Prop := p.inputs.length ≤ 2 ^ 32 ∧ p.policies.length ≤ 2 ^ 32

/-- The transaction is plain (where positions wrap: the pointers that count are the needed ones), or its redeemers fit
neither the pointers that are needed nor those that count. -/
def Settled : Prop :=
  ((p.Short → p.Plain counts) ∧ (¬ p.Short → ∀ tag n, p.Counted counts tag n ↔ p.Needed tag n)) ∨
    ((¬ ∀ tag n, p.Redeemed tag n ↔ p.Needed tag n) ∧ ¬ ∀ tag n, p.Redeemed tag n ↔ p.Counted counts tag n)

variable {p counts}

/-! ### What is counted and what is needed -/

theorem inputs_pairwise (inputs : List TransactionInput) :
    (sortInputs inputs).Pairwise fun a b => Phase2.inputKey a ≤ Phase2.inputKey b := by
  have htotal : Std.Total fun a b : TransactionInput => Phase2.inputKey a ≤ Phase2.inputKey b :=
    ⟨fun a b => le_total _ _⟩
  have htrans : IsTrans TransactionInput fun a b => Phase2.inputKey a ≤ Phase2.inputKey b := ⟨fun _ _ _ => le_trans⟩
  rw [sortInputs, List.insertionSort_congr (s := fun a b => Phase2.inputKey a ≤ Phase2.inputKey b) fun a _ b _ =>
    Phase2.inputLe_iff a b]
  exact List.pairwise_insertionSort _ _

theorem sortInputs_dedup (inputs : List TransactionInput) :
    sortInputs inputs.dedup = (sortInputs inputs).dedup := by
  have hantisymm : ∀ a b, a ∈ sortInputs inputs.dedup → b ∈ (sortInputs inputs).dedup →
      Phase2.inputKey a ≤ Phase2.inputKey b → Phase2.inputKey b ≤ Phase2.inputKey a → a = b :=
    fun a b _ _ hab hba => Phase2.inputKey_injective (le_antisymm hab hba)
  have hperm : (sortInputs inputs.dedup).Perm (sortInputs inputs).dedup :=
    (List.perm_insertionSort _ _).trans (List.perm_insertionSort _ inputs).symm.dedup
  exact hperm.eq_of_pairwise hantisymm (inputs_pairwise _) ((inputs_pairwise inputs).sublist (List.dedup_sublist _))

/-- The script that locks an input passes a test. -/
def LockedBy (p : Purposes) (test : ScriptHash → Prop) (i : TransactionInput) : Prop := ∃ h, p.lock i = some h ∧ test h

theorem getElem?_map_some {α : Type} {xs : List α} {lock : α → Option ScriptHash} {n : ℕ} {h : ScriptHash} :
    (xs.map lock)[n]? = some (some h) ↔ ∃ i, xs[n]? = some i ∧ lock i = some h := by
  rw [List.getElem?_map, Option.map_eq_some_iff]

theorem position_lt {α : Type} {xs : List α} (hlength : xs.length ≤ 2 ^ 32) {n : ℕ} {x : α} (hx : xs[n]? = some x) :
    n % 2 ^ 32 = n := by
  obtain ⟨hn, -⟩ := List.getElem?_eq_some_iff.1 hx
  exact Nat.mod_eq_of_lt (hn.trans_le hlength)

theorem counted_spend (hshort : p.Short) {n : ℕ} :
    p.Counted counts .spend n ↔ (sortInputs p.inputs).HoldsAt (p.LockedBy (counts .spend)) n := by
  have hlength : (sortInputs p.inputs).length ≤ 2 ^ 32 := (List.length_insertionSort _ _).trans_le hshort.1
  simp only [Counted, listedScripts, getElem?_map_some, List.HoldsAt, LockedBy]
  constructor
  · rintro ⟨m, h, ⟨i, hi, hlock⟩, hcounts, rfl⟩
    rw [position_lt hlength hi]
    exact ⟨i, hi, h, hlock, hcounts⟩
  · rintro ⟨i, hi, h, hlock, hcounts⟩
    exact ⟨n, h, ⟨i, hi, hlock⟩, hcounts, position_lt hlength hi⟩

theorem needed_spend {n : ℕ} :
    p.Needed .spend n ↔ (sortInputs p.inputs.dedup).HoldsAt (p.LockedBy p.Plutus) n := by
  simp only [Needed, Locked, lockScripts, getElem?_map_some, List.HoldsAt, LockedBy]
  constructor
  · rintro ⟨h, ⟨i, hi, hlock⟩, hplutus⟩
    exact ⟨i, hi, h, hlock, hplutus⟩
  · rintro ⟨i, hi, h, hlock, hplutus⟩
    exact ⟨h, ⟨i, hi, hlock⟩, hplutus⟩

theorem spend_iff (hshort : p.Short) (hcounts : ∀ h, p.Plutus h → counts .spend h) :
    (∀ n, p.Counted counts .spend n ↔ p.Needed .spend n) ↔
      ∀ n i h, (sortInputs p.inputs)[n]? = some i → p.lock i = some h → counts .spend h →
        p.Plutus h ∧ ((sortInputs p.inputs).take (n + 1)).Nodup := by
  simp only [counted_spend hshort, needed_spend, sortInputs_dedup]
  rw [List.holdsAt_sublist_iff (r := fun a b => Phase2.inputKey a ≤ Phase2.inputKey b)
    (fun a b hab hba => Phase2.inputKey_injective (le_antisymm hab hba)) (inputs_pairwise p.inputs)
    (List.dedup_sublist _) (List.nodup_dedup _) (fun i hi => List.mem_dedup.2 hi)
    (fun i hi => hi.imp fun h hlock => ⟨hlock.1, hcounts h hlock.2⟩)]
  constructor
  · intro hall n i h hi hlock hcount
    obtain ⟨⟨h', hlock', hplutus⟩, hnodup⟩ := hall n i hi ⟨h, hlock, hcount⟩
    obtain rfl : h = h' := Option.some.inj (hlock.symm.trans hlock')
    exact ⟨hplutus, hnodup⟩
  · rintro hall n i hi ⟨h, hlock, hcount⟩
    obtain ⟨hplutus, hnodup⟩ := hall n i h hi hlock hcount
    exact ⟨⟨h, hlock, hplutus⟩, hnodup⟩

theorem mint_iff (hshort : p.Short) (hcounts : ∀ h, p.Plutus h → counts .mint h) :
    (∀ n, p.Counted counts .mint n ↔ p.Needed .mint n) ↔ ∀ h ∈ p.policies, counts .mint h → p.Plutus h := by
  have hcounted : ∀ n, p.Counted counts .mint n ↔ ∃ h, p.policies[n]? = some h ∧ counts .mint h := by
    intro n
    simp only [Counted, listedScripts, getElem?_map_some, Option.some.injEq]
    constructor
    · rintro ⟨m, h, ⟨_, hpolicy, rfl⟩, hcount, rfl⟩
      exact ⟨_, by rwa [position_lt hshort.2 hpolicy], hcount⟩
    · rintro ⟨h, hpolicy, hcount⟩
      exact ⟨n, h, ⟨h, hpolicy, rfl⟩, hcount, position_lt hshort.2 hpolicy⟩
  have hneeded : ∀ n, p.Needed .mint n ↔ ∃ h, p.policies[n]? = some h ∧ p.Plutus h := by
    intro n
    simp only [Needed, Locked, lockScripts, getElem?_map_some, Option.some.injEq, exists_eq_right]
  simp only [hcounted, hneeded]
  constructor
  · intro hall h hh hcount
    obtain ⟨n, hn⟩ := List.mem_iff_getElem?.1 hh
    obtain ⟨h', hn', hplutus⟩ := (hall n).1 ⟨h, hn, hcount⟩
    rwa [Option.some.inj (hn.symm.trans hn')]
  · intro hall n
    exact exists_congr fun h => and_congr_right fun hn =>
      ⟨hall h (List.mem_of_getElem? hn), hcounts h⟩

theorem counted_iff_needed (hshort : p.Short) (hcounts : ∀ tag h, p.Plutus h → counts tag h) :
    (∀ tag n, p.Counted counts tag n ↔ p.Needed tag n) ↔ p.Plain counts := by
  rw [Plain, ← spend_iff hshort (hcounts .spend), ← mint_iff hshort (hcounts .mint)]
  constructor
  · exact fun h => ⟨h .spend, h .mint⟩
  · rintro ⟨hspend, hmint⟩ tag n
    cases tag with
    | spend => exact hspend n
    | mint => exact hmint n
    | cert => simp [Counted, listedScripts, Needed, Locked, lockScripts]
    | reward => simp [Counted, listedScripts, Needed, Locked, lockScripts]

/-! ### The check of either era -/

theorem Counted.lt {tag : RedeemerTag} {n : ℕ} (h : p.Counted counts tag n) : n < 2 ^ 32 := by
  obtain ⟨m, -, -, -, rfl⟩ := h
  exact Nat.mod_lt _ (by decide)

theorem Redeemed.lt {tag : RedeemerTag} {n : ℕ} (h : p.Redeemed tag n) : n < 2 ^ 32 := by
  obtain ⟨r, -, -, rfl⟩ := h
  exact r.index.toNat_lt

theorem coincide_eq_ok {unneeded missing : ValidationError} {pointers : List RedeemerPointer}
    (hpointers : ∀ k, k ∈ pointers ↔ p.Counted counts k.tag k.index.toNat) :
    redeemerPointersCoincide unneeded missing (p.redeemers.map fun r => ⟨r.tag, r.index⟩) pointers = .ok () ↔
      ∀ tag n, p.Redeemed tag n ↔ p.Counted counts tag n := by
  have hredeemed : ∀ k : RedeemerPointer, k ∈ (p.redeemers.map fun r => RedeemerPointer.mk r.tag r.index) ↔
      p.Redeemed k.tag k.index.toNat := by
    rintro ⟨tag, index⟩
    simp only [List.mem_map, RedeemerPointer.mk.injEq, Redeemed, UInt32.toNat_inj]
  rw [Conway.redeemerPointersCoincide_eq_ok]
  simp only [hredeemed, hpointers]
  refine ⟨fun h tag n => ?_, fun h k => h _ _⟩
  by_cases hn : n < 2 ^ 32
  · have hindex : (UInt32.ofNat n).toNat = n := UInt32.toNat_ofNat_of_lt hn
    rw [← hindex]
    exact h ⟨tag, UInt32.ofNat n⟩
  · exact iff_of_false (fun hr => hn hr.lt) fun hc => hn hc.lt

/-- With no hash common to a native and a Plutus script, a check that compares the redeemers with what counts decides them
exactly where they are settled. -/
theorem decided_iff {result : ValidationResult} (hcollision : ∀ h, p.Native h → ¬ p.Plutus h)
    (hcounts : ∀ tag h, p.Plutus h → counts tag h)
    (hok : result = .ok () ↔ ∀ tag n, p.Redeemed tag n ↔ p.Counted counts tag n) :
    p.Decided result ↔ p.Settled counts := by
  have hagree : ((p.Short → p.Plain counts) ∧ (¬ p.Short → ∀ tag n, p.Counted counts tag n ↔ p.Needed tag n)) ↔
      ∀ tag n, p.Counted counts tag n ↔ p.Needed tag n := by
    by_cases hshort : p.Short
    · simp [hshort, counted_iff_needed hshort hcounts]
    · simp [hshort]
  rw [Decided, Settled, hagree, hok]
  constructor
  · rintro ⟨h, -⟩
    by_cases hneeded : ∀ tag n, p.Redeemed tag n ↔ p.Needed tag n
    · exact .inl fun tag n => (h.2 hneeded tag n).symm.trans (hneeded tag n)
    · exact .inr ⟨hneeded, fun hcounted => hneeded (h.1 hcounted)⟩
  · intro h
    have hfirst : (∀ tag n, p.Redeemed tag n ↔ p.Counted counts tag n) ↔
        ∀ tag n, p.Redeemed tag n ↔ p.Needed tag n := by
      rcases h with hsame | ⟨hneeded, hcounted⟩
      · simp only [hsame]
      · exact iff_of_false hcounted hneeded
    refine ⟨hfirst, fun hall tag n h' hlock hnative hredeemed => ?_⟩
    obtain ⟨h'', hlock', hplutus⟩ := (hfirst.1 hall tag n).1 hredeemed
    obtain rfl : h' = h'' := Option.some.inj (Option.some.inj (hlock.symm.trans hlock'))
    exact hcollision h' hnative hplutus

end Purposes

/-! ### Alonzo -/

section Check
open Std
variable (c : Crypto) (body : TransactionBody) (wits : WitnessSet) (utxos : UTxOs)

def purposes : Purposes where
  inputs := body.inputs
  policies := (body.mint.map ExtTreeMap.keys).getD []
  lock i := (utxos (.alonzoCompatible i)).bind MultiEraOutput.lockedBy
  Plutus h := h ∈ plutusScriptHashes c wits
  Native h := ∃ s ∈ wits.nativeScript.getD [], c.blake2b224 (0 :: s.rawCbor) = h
  redeemers := wits.redeemer.getD []

/-- Only the hashes of Plutus scripts. -/
def phase2 : RedeemerTag → ScriptHash → Prop := fun _ h => h ∈ plutusScriptHashes c wits

variable {c body wits utxos}

theorem getScriptHashFromInput_eq (hera : ∀ i o, utxos i = some o → ∃ out era, o = .alonzoCompatible out era)
    (i : TransactionInput) :
    getScriptHashFromInput i utxos = (utxos (.alonzoCompatible i)).bind MultiEraOutput.lockedBy := by
  rw [getScriptHashFromInput]
  cases ho : utxos (.alonzoCompatible i) with
  | none => rfl
  | some o =>
    obtain ⟨out, era, rfl⟩ := hera _ o ho
    rfl

theorem mem_enumerated {α β : Type} {xs : List α} {f : α × ℕ → List β} {b : β} :
    b ∈ xs.zipIdx.flatMap f ↔ ∃ n x, xs[n]? = some x ∧ b ∈ f (x, n) := by
  simp only [List.mem_flatMap, Prod.exists, List.mk_mem_zipIdx_iff_getElem?]
  exact exists_comm

theorem mem_repeated {hashes : List ScriptHash} {h : ScriptHash} {k k' : RedeemerPointer} :
    k ∈ ((hashes.filter (h == ·)).map fun _ => k') ↔ h ∈ hashes ∧ k = k' := by
  simp only [List.mem_map, List.mem_filter, beq_iff_eq]
  constructor
  · rintro ⟨_, ⟨hmem, rfl⟩, rfl⟩
    exact ⟨hmem, rfl⟩
  · rintro ⟨hmem, rfl⟩
    exact ⟨h, ⟨hmem, rfl⟩, rfl⟩

theorem mem_mkPlutusScriptRedeemerPointers (k : RedeemerPointer) :
    k ∈ mkPlutusScriptRedeemerPointers c body wits utxos ↔
      (∃ n i h, (sortInputs body.inputs)[n]? = some i ∧ getScriptHashFromInput i utxos = some h ∧
        h ∈ plutusScriptHashes c wits ∧ k = ⟨.spend, asU32 n⟩) ∨
      ∃ n h, ((body.mint.map ExtTreeMap.keys).getD [])[n]? = some h ∧ h ∈ plutusScriptHashes c wits ∧
        k = ⟨.mint, asU32 n⟩ := by
  rw [mkPlutusScriptRedeemerPointers, plutusScriptHashes]
  cases wits.plutusScript with
  | none => simp
  | some scripts =>
    rw [List.mem_append, mem_enumerated, mem_enumerated]
    refine or_congr (exists_congr fun n => exists_congr fun i => ?_)
      (exists_congr fun n => exists_congr fun h => and_congr_right fun _ => mem_repeated)
    dsimp only
    cases getScriptHashFromInput i utxos with
    | none => simp
    | some h =>
      simp only [mem_repeated, Option.some.injEq, Option.getD_some]
      constructor
      · rintro ⟨hi, hmem, hk⟩
        exact ⟨h, hi, rfl, hmem, hk⟩
      · rintro ⟨_, hi, rfl, hmem, hk⟩
        exact ⟨hi, hmem, hk⟩

theorem mem_pointers (hera : ∀ i o, utxos i = some o → ∃ out era, o = .alonzoCompatible out era)
    (k : RedeemerPointer) : k ∈ mkPlutusScriptRedeemerPointers c body wits utxos ↔
      (purposes c body wits utxos).Counted (phase2 c wits) k.tag k.index.toNat := by
  obtain ⟨tag, index⟩ := k
  have hindex : ∀ n : ℕ, index = asU32 n ↔ n % 2 ^ 32 = index.toNat := fun n => by
    rw [← UInt32.toNat_inj, eq_comm]
    simp [asU32]
  simp only [mem_mkPlutusScriptRedeemerPointers, RedeemerPointer.mk.injEq, hindex, Purposes.Counted, phase2,
    getScriptHashFromInput_eq hera]
  cases tag with
  | spend =>
    simp only [Purposes.listedScripts, purposes, Purposes.getElem?_map_some, true_and]
    constructor
    · rintro (⟨n, i, h, hi, hlock, hmem, hn⟩ | ⟨_, _, -, -, htag, -⟩)
      · exact ⟨n, h, ⟨i, hi, hlock⟩, hmem, hn⟩
      · cases htag
    · rintro ⟨n, h, ⟨i, hi, hlock⟩, hmem, hn⟩
      exact .inl ⟨n, i, h, hi, hlock, hmem, hn⟩
  | mint =>
    simp only [Purposes.listedScripts, purposes, Purposes.getElem?_map_some, true_and, Option.some.injEq, exists_eq_right]
    constructor
    · rintro (⟨_, _, _, -, -, -, htag, -⟩ | ⟨n, h, hh, hmem, hn⟩)
      · cases htag
      · exact ⟨n, h, hh, hmem, hn⟩
    · rintro ⟨n, h, hh, hmem, hn⟩
      exact .inr ⟨n, h, hh, hmem, hn⟩
  | cert => simp [Purposes.listedScripts]
  | reward => simp [Purposes.listedScripts]

theorem checkRedeemers_eq_ok (hera : ∀ i o, utxos i = some o → ∃ out era, o = .alonzoCompatible out era) :
    checkRedeemers c body wits utxos = .ok () ↔ ∀ tag n, (purposes c body wits utxos).Redeemed tag n ↔
      (purposes c body wits utxos).Counted (phase2 c wits) tag n :=
  Purposes.coincide_eq_ok (p := purposes c body wits utxos) (mem_pointers hera)

end Check
end Alonzo

/-! ### Babbage -/

namespace Babbage
open Std Alonzo
variable (c : Crypto) (body : TransactionBody) (wits : WitnessSet) (utxos : UTxOs)

/-- A reference script that is a native one. -/
def ScriptRef.isNative : ScriptRef → Bool
  | .nativeScript _ => true
  | _ => false

/-- The script is carried by the output of a reference input. -/
def Referenced (s : ScriptRef) : Prop :=
  ∃ i ∈ body.referenceInputs.getD [], ∃ o, utxos (.alonzoCompatible i) = some (.babbage (.postAlonzo o)) ∧ o.scriptRef = some s

/-- The hash of a Plutus script, of the witness set or of a reference input. -/
def IsPlutus (h : ScriptHash) : Prop :=
  h ∈ (plutusScriptHashes c wits).flatten ∨
    ∃ s, Referenced body utxos s ∧ s.isNative = false ∧ scriptRefHash c s = h

/-- The hash of a native script of a reference input. -/
def IsNativeReference (h : ScriptHash) : Prop :=
  ∃ s, Referenced body utxos s ∧ s.isNative = true ∧ scriptRefHash c s = h

def purposes : Purposes where
  inputs := body.inputs
  policies := (body.mint.map ExtTreeMap.keys).getD []
  lock i := (utxos (.alonzoCompatible i)).bind MultiEraOutput.lockedBy
  Plutus := IsPlutus c body wits utxos
  Native h := (∃ s ∈ wits.nativeScript.getD [], c.blake2b224 (0 :: s.rawCbor) = h) ∨ IsNativeReference c body utxos h
  redeemers := wits.redeemer.getD []

/-- Any script that locks an input; of the policies, the hashes of Plutus scripts and of all reference scripts. -/
def phase2 : RedeemerTag → ScriptHash → Prop
  | .spend => fun _ => True
  | _ => fun h => IsPlutus c body wits utxos h ∨ IsNativeReference c body utxos h

variable {c body wits utxos}

theorem getScriptHashFromInput_eq (hera : ∀ i o, utxos i = some o → ∃ out, o = .babbage out) (i : TransactionInput) :
    getScriptHashFromInput i utxos = (utxos (.alonzoCompatible i)).bind MultiEraOutput.lockedBy := by
  rw [getScriptHashFromInput]
  cases ho : utxos (.alonzoCompatible i) with
  | none => rfl
  | some o =>
    obtain ⟨out, rfl⟩ := hera _ o ho
    cases out <;> rfl

theorem referenceScript_eq_some {i : TransactionInput} {s : ScriptRef} : referenceScript i utxos = some s ↔
    ∃ o, utxos (.alonzoCompatible i) = some (.babbage (.postAlonzo o)) ∧ o.scriptRef = some s := by
  rw [referenceScript]
  rcases utxos (.alonzoCompatible i) with _ | o
  · simp
  · cases o with
    | babbage o => cases o <;> simp [MultiEraOutput.asBabbage]
    | byron o => simp [MultiEraOutput.asBabbage]
    | alonzoCompatible o era => simp [MultiEraOutput.asBabbage]
    | conway o => simp [MultiEraOutput.asBabbage]

/-- The hashes that `is_phase_2_script` looks for. -/
theorem mem_hashes {h : ScriptHash} :
    h ∈ (plutusScriptHashes c wits).flatten ++ getReferenceScriptHashes c body utxos ↔
      IsPlutus c body wits utxos h ∨ IsNativeReference c body utxos h := by
  have hreferences : h ∈ getReferenceScriptHashes c body utxos ↔
      ∃ s, Referenced body utxos s ∧ scriptRefHash c s = h := by
    simp only [getReferenceScriptHashes, List.mem_filterMap, getScriptHashFromReferenceInput, Option.map_eq_some_iff,
      referenceScript_eq_some, Referenced]
    constructor
    · rintro ⟨i, hi, s, ⟨o, ho, hs⟩, hhash⟩
      exact ⟨s, ⟨i, hi, o, ho, hs⟩, hhash⟩
    · rintro ⟨s, ⟨i, hi, o, ho, hs⟩, hhash⟩
      exact ⟨i, hi, s, ⟨o, ho, hs⟩, hhash⟩
  rw [List.mem_append, hreferences, IsPlutus, IsNativeReference, or_assoc]
  refine or_congr_right ?_
  constructor
  · rintro ⟨s, hs, hhash⟩
    cases hkind : s.isNative with
    | false => exact .inl ⟨s, hs, hkind, hhash⟩
    | true => exact .inr ⟨s, hs, hkind, hhash⟩
  · rintro (⟨s, hs, -, hhash⟩ | ⟨s, hs, -, hhash⟩)
    · exact ⟨s, hs, hhash⟩
    · exact ⟨s, hs, hhash⟩

theorem mem_pointers (hera : ∀ i o, utxos i = some o → ∃ out, o = .babbage out) (k : RedeemerPointer) :
    k ∈ mkPlutusScriptRedeemerPointers ((plutusScriptHashes c wits).flatten ++
      getReferenceScriptHashes c body utxos).contains body utxos ↔
      (purposes c body wits utxos).Counted (phase2 c body wits utxos) k.tag k.index.toNat := by
  obtain ⟨tag, index⟩ := k
  simp only [mkPlutusScriptRedeemerPointers, List.mem_append, List.mem_map, RedeemerPointer.mk.injEq,
    Conway.mem_indicesOf, Purposes.Counted]
  cases tag with
  | spend =>
    simp only [Purposes.listedScripts, purposes, Purposes.getElem?_map_some, phase2, true_and,
      getScriptHashFromInput_eq hera, Option.isSome_iff_exists]
    constructor
    · rintro (⟨_, ⟨n, i, hi, ⟨h, hlock⟩, hn⟩, rfl⟩ | ⟨_, -, htag, -⟩)
      · exact ⟨n, h, ⟨i, hi, hlock⟩, hn⟩
      · cases htag
    · rintro ⟨n, h, ⟨i, hi, hlock⟩, hn⟩
      exact .inl ⟨index, ⟨n, i, hi, ⟨h, hlock⟩, hn⟩, rfl⟩
  | mint =>
    simp only [Purposes.listedScripts, purposes, Purposes.getElem?_map_some, phase2, List.contains_iff_mem, mem_hashes,
      Option.some.injEq, exists_eq_right]
    constructor
    · rintro (⟨_, -, htag, -⟩ | ⟨_, ⟨n, h, hh, hcounts, hn⟩, -, rfl⟩)
      · cases htag
      · exact ⟨n, h, hh, hcounts, hn⟩
    · rintro ⟨n, h, hh, hcounts, hn⟩
      exact .inr ⟨index, ⟨n, h, hh, hcounts, hn⟩, trivial, rfl⟩
  | cert => simp [Purposes.listedScripts]
  | reward => simp [Purposes.listedScripts]

theorem checkRedeemers_eq_ok (hera : ∀ i o, utxos i = some o → ∃ out, o = .babbage out) :
    checkRedeemers c body wits utxos = .ok () ↔ ∀ tag n, (purposes c body wits utxos).Redeemed tag n ↔
      (purposes c body wits utxos).Counted (phase2 c body wits utxos) tag n :=
  Purposes.coincide_eq_ok (p := purposes c body wits utxos) (mem_pointers hera)

end Babbage

/-! ### The check of both eras -/

/-- Both eras' checks decide the redeemers of a transaction exactly where they are settled, if no hash is common to a native
and a Plutus script. -/
theorem redeemer_positions_iff (c : Crypto) (utxos : UTxOs) :
    (∀ (body : Babbage.TransactionBody) (wits : Babbage.WitnessSet),
      (∀ i o, utxos i = some o → ∃ out, o = .babbage out) →
      (∀ h, (Babbage.purposes c body wits utxos).Native h → ¬ (Babbage.purposes c body wits utxos).Plutus h) →
      ((Babbage.purposes c body wits utxos).Decided (Babbage.checkRedeemers c body wits utxos) ↔
        (Babbage.purposes c body wits utxos).Settled (Babbage.phase2 c body wits utxos))) ∧
    ∀ (body : Alonzo.TransactionBody) (wits : Alonzo.WitnessSet),
      (∀ i o, utxos i = some o → ∃ out era, o = .alonzoCompatible out era) →
      (∀ h, (Alonzo.purposes c body wits utxos).Native h → ¬ (Alonzo.purposes c body wits utxos).Plutus h) →
      ((Alonzo.purposes c body wits utxos).Decided (Alonzo.checkRedeemers c body wits utxos) ↔
        (Alonzo.purposes c body wits utxos).Settled (Alonzo.phase2 c wits)) := by
  refine ⟨fun body wits hera hcollision => ?_, fun body wits hera hcollision => ?_⟩
  · refine Alonzo.Purposes.decided_iff hcollision (fun tag h hplutus => ?_) (Babbage.checkRedeemers_eq_ok hera)
    cases tag with
    | spend => trivial
    | mint => exact .inl hplutus
    | cert => exact .inl hplutus
    | reward => exact .inl hplutus
  · exact Alonzo.Purposes.decided_iff hcollision (fun _ _ hplutus => hplutus) (Alonzo.checkRedeemers_eq_ok hera)

/-! ### Spending what one script locks -/

/-- The address of the script with this hash. -/
def scriptAddress (h : UInt8) : Bytes := 0x71 :: (List.replicate 27 0 ++ [h])

/-- The redeemer of the first input. -/
def spendRedeemer : Alonzo.Redeemer := ⟨.spend, 0, .boundedBytes [], ⟨0, 0⟩⟩

namespace Alonzo

def spendingBody : TransactionBody := { inputs := [⟨0, 0⟩], outputs := [], fee := 0 }

def lockedOutput (h : UInt8) : MultiEraOutput := .alonzoCompatible ⟨scriptAddress h, .coin 0, none⟩ .alonzo

/-- A Plutus script, of hash 2 under `twoHashes`, and the redeemer. -/
def plutusWits : WitnessSet := { plutusScript := some [⟨[1]⟩], redeemer := some [spendRedeemer] }

end Alonzo

namespace Babbage

def spendingBody : TransactionBody := { inputs := [⟨0, 0⟩], outputs := [], fee := 0 }

def lockedOutput (h : UInt8) : MultiEraOutput := .babbage (.postAlonzo ⟨scriptAddress h, .coin 0, none, none⟩)

/-- A Plutus script, of hash 2 under `twoHashes`, and the redeemer. -/
def plutusWits : WitnessSet := { plutusV2Script := some [⟨[1]⟩], redeemer := some [spendRedeemer] }

/-- A native script, of hash 1. -/
def nativeWits : WitnessSet := { nativeScript := some [⟨[0x82, 4, 1], .invalidBefore 1, by simp⟩] }

end Babbage

/-- In both eras the redeemer of an input that a Plutus script locks is accepted. -/
theorem plutusInput_decided :
    ((Babbage.checkRedeemers Conway.twoHashes Babbage.spendingBody Babbage.plutusWits
        fun _ => some (Babbage.lockedOutput 2)) = .ok () ∧
      (Babbage.purposes Conway.twoHashes Babbage.spendingBody Babbage.plutusWits
        fun _ => some (Babbage.lockedOutput 2)).Decided
        (Babbage.checkRedeemers Conway.twoHashes Babbage.spendingBody Babbage.plutusWits
          fun _ => some (Babbage.lockedOutput 2))) ∧
    (Alonzo.checkRedeemers Conway.twoHashes Alonzo.spendingBody Alonzo.plutusWits
        fun _ => some (Alonzo.lockedOutput 2)) = .ok () ∧
      (Alonzo.purposes Conway.twoHashes Alonzo.spendingBody Alonzo.plutusWits
        fun _ => some (Alonzo.lockedOutput 2)).Decided
        (Alonzo.checkRedeemers Conway.twoHashes Alonzo.spendingBody Alonzo.plutusWits
          fun _ => some (Alonzo.lockedOutput 2)) := by
  have hlock : (Babbage.lockedOutput 2).lockedBy = some 2 := by decide +kernel
  have hlock' : (Alonzo.lockedOutput 2).lockedBy = some 2 := by decide +kernel
  refine ⟨⟨by decide +kernel, ?_⟩, by decide +kernel, ?_⟩
  · refine ((redeemer_positions_iff _ _).1 _ _ (fun _ _ ho => ⟨_, (Option.some.inj ho).symm⟩) ?_).2 (.inl ⟨?_, ?_⟩)
    · rintro h (⟨s, hs, -⟩ | ⟨s, ⟨i, hi, -⟩, -⟩) -
      · cases hs
      · cases hi
    · refine fun _ => ⟨fun n i h _ hi _ => ⟨?_, ?_⟩, nofun⟩
      · obtain rfl : 2 = h := Option.some.inj (hlock.symm.trans hi)
        exact .inl (by decide +kernel)
      · exact (List.nodup_singleton _).sublist (List.take_sublist _ _)
    · exact fun hlong => absurd ⟨by decide, by decide⟩ hlong
  · refine ((redeemer_positions_iff _ _).2 _ _ (fun _ _ ho => ⟨_, _, (Option.some.inj ho).symm⟩) ?_).2 (.inl ⟨?_, ?_⟩)
    · rintro h ⟨s, hs, -⟩
      cases hs
    · refine fun _ => ⟨fun n i h _ hi _ => ⟨?_, ?_⟩, nofun⟩
      · obtain rfl : 2 = h := Option.some.inj (hlock'.symm.trans hi)
        show (2 : ScriptHash) ∈ Alonzo.plutusScriptHashes Conway.twoHashes Alonzo.plutusWits
        decide +kernel
      · exact (List.nodup_singleton _).sublist (List.take_sublist _ _)
    · exact fun hlong => absurd ⟨by decide, by decide⟩ hlong

/-- A spent input that a native script locks: the check asks for a redeemer. -/
theorem nativeInput_not_decided :
    (Babbage.checkRedeemers Conway.twoHashes Babbage.spendingBody Babbage.nativeWits
      fun _ => some (Babbage.lockedOutput 1)) = .err (.postAlonzo .redeemerMissing) ∧
    ¬ ∀ (c : Crypto) (body : Babbage.TransactionBody) (wits : Babbage.WitnessSet) (utxos : UTxOs),
      (∀ i o, utxos i = some o → ∃ out, o = .babbage out) →
      (∀ h, (Babbage.purposes c body wits utxos).Native h → ¬ (Babbage.purposes c body wits utxos).Plutus h) →
      (Babbage.purposes c body wits utxos).Decided (Babbage.checkRedeemers c body wits utxos) := by
  have herr : (Babbage.checkRedeemers Conway.twoHashes Babbage.spendingBody Babbage.nativeWits
      fun _ => some (Babbage.lockedOutput 1)) = .err (.postAlonzo .redeemerMissing) := by decide +kernel
  refine ⟨herr, fun hall => ?_⟩
  have hplutus : ∀ h, ¬ (Babbage.purposes Conway.twoHashes Babbage.spendingBody Babbage.nativeWits
      fun _ => some (Babbage.lockedOutput 1)).Plutus h := by
    rintro h (hmem | ⟨s, ⟨i, hi, -⟩, -⟩)
    · cases hmem
    · cases hi
  have hdecided := hall _ _ _ _ (fun _ _ ho => ⟨_, (Option.some.inj ho).symm⟩) fun h _ => hplutus h
  have hok := hdecided.1.2 fun tag n => iff_of_false ?_ ?_
  · cases herr.symm.trans hok
  · rintro ⟨r, hr, -⟩
    cases hr
  · rintro ⟨h, -, hneeded⟩
    exact hplutus h hneeded

end Pallas
