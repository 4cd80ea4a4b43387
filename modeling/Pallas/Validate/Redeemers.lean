import Pallas.Validate.ExUnits

/-!
# Redeemers and the scripts that need them (`pallas-validate/src/phase1/conway.rs`)

A purpose is a spent input, a minted policy or a withdrawal, at its index in the sorted list of its kind. `Needed` says which ones
ask for a redeemer: those locked by a Plutus script of the witness set or of a reference input, over outputs of any era. `Counted`
says which ones `check_redeemers` takes for such; it takes every script of a Conway reference input for a Plutus script.
-/

namespace Pallas
namespace MultiEraOutput

/-- The script that locks an output of any era. -/
def lockedBy (o : MultiEraOutput) : Option ScriptHash :=
  match (Conway.vkeyAddress o).bind getPaymentPart with
  | some (.script h) => some h
  | _ => none

/-- The script that an output of any era carries. -/
def scriptRef : MultiEraOutput → Option Conway.ScriptRef
  | babbage (.postAlonzo o) => o.scriptRef.map fun
    | .nativeScript s => .nativeScript s
    | .plutusV1Script s => .plutusV1Script s
    | .plutusV2Script s => .plutusV2Script s
  | conway (.postAlonzo o) => o.scriptRef
  | _ => none

end MultiEraOutput

namespace Conway
open Std
variable (c : Crypto) (body : TransactionBody) (wits : WitnessSet) (utxos : UTxOs)

/-- A reference script that is a native one. -/
def ScriptRef.isNative : ScriptRef → Bool
  | .nativeScript _ => true
  | _ => false

/-- The script is carried by the output of a reference input. -/
def Referenced (s : ScriptRef) : Prop :=
  ∃ i ∈ body.referenceInputs.getD [], ∃ o, utxos (.alonzoCompatible i) = some o ∧ o.scriptRef = some s

/-- The hash of a Plutus script, of the witness set or of a reference input. -/
def IsPlutus (h : ScriptHash) : Prop :=
  h ∈ (plutusScriptHashes c wits).flatten ∨
    ∃ s, Referenced body utxos s ∧ s.isNative = false ∧ scriptRefHash c s = h

/-- The hash of a native script, of the witness set or of a reference input. -/
def IsNative (h : ScriptHash) : Prop :=
  (∃ s ∈ wits.nativeScript.getD [], c.blake2b224 (0 :: s.rawCbor) = h) ∨
    ∃ s, Referenced body utxos s ∧ s.isNative = true ∧ scriptRefHash c s = h

/-- A withdrawal's reward account. -/
def stakeAddress (account : RewardAccount) : Option StakeAddress :=
  match Address.fromBytes account with
  | some (.stake addr) => some addr
  | _ => none

/-- The accounts that the transaction withdraws from. -/
def accounts : List RewardAccount := (body.withdrawals.map ExtTreeMap.keys).getD []

/-- The reward accounts in the order they are counted. -/
def rewardAddresses : List StakeAddress :=
  ((accounts body).filterMap stakeAddress).insertionSort fun a b => rewardAccountLe a b = true

/-- The script of a reward account. -/
def rewardScript (addr : StakeAddress) : Option ScriptHash :=
  match addr.payload with
  | .script h => some h
  | .stake _ => none

/-- The scripts that lock the purposes of a kind, in order, when `lock` gives those of the inputs. -/
def lockScripts (lock : TransactionInput → Option ScriptHash) : RedeemerTag → List (Option ScriptHash)
  | .spend => (sortInputs body.inputs).map lock
  | .mint => ((body.mint.map ExtTreeMap.keys).getD []).map some
  | .reward => (rewardAddresses body).map rewardScript
  | _ => []

/-- The script that locks the output an input finds, of any era. -/
def spentScript (i : TransactionInput) : Option ScriptHash := (utxos (.alonzoCompatible i)).bind MultiEraOutput.lockedBy

/-- The purpose is locked by a script. -/
def Locked (tag : RedeemerTag) (n : ℕ) (h : ScriptHash) : Prop :=
  (lockScripts body (spentScript utxos) tag)[n]? = some (some h)

/-- The purpose is locked by a Plutus script. -/
def Needed (tag : RedeemerTag) (n : ℕ) : Prop := ∃ h, Locked body utxos tag n h ∧ IsPlutus c body wits utxos h

/-- The hashes that `is_phase_2_script` looks for: of the Plutus scripts of the witness set, and of every script that a Conway
output carries. -/
def phase2Hashes : List PolicyId := (plutusScriptHashes c wits).flatten ++ getReferenceScriptHashes c body utxos

/-- The pointer, as a `u32`, of a purpose that is locked by one of these hashes, in a Conway output if it is an input. -/
def Counted (tag : RedeemerTag) (n : ℕ) : Prop :=
  ∃ m h, (lockScripts body (fun i => getScriptHashFromInput i utxos) tag)[m]? = some (some h) ∧
    h ∈ phase2Hashes c body wits utxos ∧ m % 2 ^ 32 = n

/-- There is a redeemer with the pointer. -/
def Redeemed (tag : RedeemerTag) (n : ℕ) : Prop := ∃ k ∈ redeemerKeys wits.redeemer, k.tag = tag ∧ k.index.toNat = n

/-- The result accepts exactly when the redeemers' pointers are the needed ones, and admits none at a native script's purpose. -/
def RedeemersDecided (r : ValidationResult) : Prop :=
  (r = .ok () ↔ ∀ tag n, Redeemed wits tag n ↔ Needed c body wits utxos tag n) ∧
    (r = .ok () → ∀ tag n h, Locked body utxos tag n h → IsNative c body wits utxos h → ¬ Redeemed wits tag n)

/-- Every account that is withdrawn from is a stake address. -/
def AccountsParse : Prop := ∀ account ∈ accounts body, (stakeAddress account).isSome

/-- Nothing that the check misjudges: the accounts are stake addresses; no spent output of another era than Conway is locked by a
Plutus script; of the scripts that are referred to, no native one in a Conway output and no Plutus one in an output of another era
locks a purpose; and no list is longer than a `u32` counts. -/
structure PlainScripts : Prop where
  accounts : AccountsParse body
  spent : ∀ i ∈ body.inputs, ∀ o h, utxos (.alonzoCompatible i) = some o → o.asConway = none → o.lockedBy = some h →
    ¬ IsPlutus c body wits utxos h
  references : ∀ i ∈ body.referenceInputs.getD [], ∀ o s, utxos (.alonzoCompatible i) = some o → o.scriptRef = some s →
    s.isNative = o.asConway.isSome → ∀ tag n, ¬ Locked body utxos tag n (scriptRefHash c s)
  length : ∀ tag, (lockScripts body (spentScript utxos) tag).length ≤ 2 ^ 32

variable {c body wits utxos}

/-! ### The pointers -/

theorem mem_indicesOf {α : Type} {p : α → Bool} {xs : List α} {k : UInt32} :
    k ∈ indicesOf p xs ↔ ∃ n x, xs[n]? = some x ∧ p x = true ∧ n % 2 ^ 32 = k.toNat := by
  simp only [indicesOf, List.mem_map, List.mem_filter, Prod.exists]
  constructor
  · rintro ⟨x, n, ⟨hx, hp⟩, rfl⟩
    refine ⟨n, x, List.mk_mem_zipIdx_iff_getElem?.1 hx, hp, ?_⟩
    simp [asU32]
  · rintro ⟨n, x, hx, hp, hn⟩
    refine ⟨x, n, ⟨List.mk_mem_zipIdx_iff_getElem?.2 hx, hp⟩, UInt32.toNat_inj.1 ?_⟩
    rw [← hn]
    simp [asU32]

theorem mem_indicesOf_map {α : Type} {f : α → Option ScriptHash} {p : α → Bool} {hashes : List PolicyId}
    (hp : ∀ x, p x = true ↔ ∃ h, f x = some h ∧ h ∈ hashes) {xs : List α} {k : UInt32} :
    k ∈ indicesOf p xs ↔ ∃ n h, (xs.map f)[n]? = some (some h) ∧ h ∈ hashes ∧ n % 2 ^ 32 = k.toNat := by
  rw [mem_indicesOf]
  simp only [List.getElem?_map, Option.map_eq_some_iff, hp]
  constructor
  · rintro ⟨n, x, hx, ⟨h, hf, hmem⟩, hn⟩
    exact ⟨n, h, ⟨x, hx, hf⟩, hmem, hn⟩
  · rintro ⟨n, h, ⟨x, hx, hf⟩, hmem, hn⟩
    exact ⟨n, x, hx, ⟨h, hf, hmem⟩, hn⟩

theorem fold_stakeAddress {keys : List RewardAccount} {acc parsed : List StakeAddress} :
    Outcome.fold (fun (acc : List StakeAddress) bytes => match Address.fromBytes bytes with
      | some (.stake addr) => (.ok (acc ++ [addr]) : Outcome ValidationError (List StakeAddress))
      | _ => .err (.postAlonzo .inputDecoding)) acc keys = .ok parsed ↔
    (∀ account ∈ keys, (stakeAddress account).isSome) ∧ acc ++ keys.filterMap stakeAddress = parsed := by
  induction keys generalizing acc with
  | nil => simp
  | cons account keys ih =>
    have hstep : (match Address.fromBytes account with
        | some (.stake addr) => (.ok (acc ++ [addr]) : Outcome ValidationError (List StakeAddress))
        | _ => .err (.postAlonzo .inputDecoding)) = match stakeAddress account with
        | some addr => .ok (acc ++ [addr])
        | none => .err (.postAlonzo .inputDecoding) := by
      unfold stakeAddress
      split <;> simp_all
    rw [Outcome.fold_cons, hstep]
    cases haddr : stakeAddress account with
    | none => simp [haddr]
    | some addr => simp [haddr, ih]

theorem withdrawalAddresses_eq_ok {withdrawals : FinMap RewardAccount Coin} {rewards : List StakeAddress} :
    withdrawalAddresses withdrawals = .ok rewards ↔ (∀ account ∈ withdrawals.keys, (stakeAddress account).isSome) ∧
      rewards = (withdrawals.keys.filterMap stakeAddress).insertionSort fun a b => rewardAccountLe a b = true := by
  rw [withdrawalAddresses, Outcome.bind_eq_ok]
  constructor
  · rintro ⟨parsed, hparsed, h⟩
    obtain ⟨hall, rfl⟩ := fold_stakeAddress.1 hparsed
    exact ⟨hall, (Outcome.ok.inj h).symm⟩
  · rintro ⟨hall, rfl⟩
    exact ⟨_, fold_stakeAddress.2 ⟨hall, rfl⟩, rfl⟩

/-- The pointers of the purposes that pass the test. -/
def pointersOf (isPhase2Script : PolicyId → Bool) (body : TransactionBody) (utxos : UTxOs) : List RedeemersKey :=
  (indicesOf (fun i => match getScriptHashFromInput i utxos with
    | some h => isPhase2Script h
    | none => false) (sortInputs body.inputs)).map (RedeemersKey.mk .spend) ++
  (indicesOf isPhase2Script ((body.mint.map ExtTreeMap.keys).getD [])).map (RedeemersKey.mk .mint) ++
  (indicesOf (isPlutusReward isPhase2Script) (rewardAddresses body)).map (RedeemersKey.mk .reward)

theorem mkPlutusScriptRedeemerPointers_eq_ok {isPhase2Script : PolicyId → Bool} {pointers : List RedeemersKey} :
    mkPlutusScriptRedeemerPointers isPhase2Script body utxos = .ok pointers ↔
      AccountsParse body ∧ pointers = pointersOf isPhase2Script body utxos := by
  unfold mkPlutusScriptRedeemerPointers AccountsParse pointersOf rewardAddresses accounts
  cases body.withdrawals with
  | none =>
    show Outcome.ok _ = Outcome.ok pointers ↔ _
    constructor
    · intro h
      exact ⟨by simp, (Outcome.ok.inj h).symm⟩
    · rintro ⟨-, rfl⟩
      rfl
  | some withdrawals =>
    show (withdrawalAddresses withdrawals >>= _) = Outcome.ok pointers ↔ _
    rw [Outcome.bind_eq_ok]
    constructor
    · rintro ⟨rewards, hrewards, h⟩
      obtain ⟨hall, rfl⟩ := withdrawalAddresses_eq_ok.1 hrewards
      exact ⟨hall, (Outcome.ok.inj h).symm⟩
    · rintro ⟨hall, rfl⟩
      exact ⟨_, withdrawalAddresses_eq_ok.2 ⟨hall, rfl⟩, rfl⟩

theorem mem_pointersOf {k : RedeemersKey} : k ∈ pointersOf (phase2Hashes c body wits utxos).contains body utxos ↔
    Counted c body wits utxos k.tag k.index.toNat := by
  obtain ⟨tag, k⟩ := k
  have hspend := @mem_indicesOf_map _ (fun i => getScriptHashFromInput i utxos) (fun i =>
    match getScriptHashFromInput i utxos with
    | some h => (phase2Hashes c body wits utxos).contains h
    | none => false) (phase2Hashes c body wits utxos)
    (fun i => by cases getScriptHashFromInput i utxos <;> simp) (sortInputs body.inputs) k
  have hmint := @mem_indicesOf_map _ some (phase2Hashes c body wits utxos).contains (phase2Hashes c body wits utxos)
    (fun h => by simp) ((body.mint.map ExtTreeMap.keys).getD []) k
  have hreward := @mem_indicesOf_map _ rewardScript (isPlutusReward (phase2Hashes c body wits utxos).contains)
    (phase2Hashes c body wits utxos) (fun addr => by unfold isPlutusReward rewardScript; cases addr.payload <;> simp)
    (rewardAddresses body) k
  simp only [pointersOf, List.mem_append, List.mem_map, RedeemersKey.mk.injEq, Counted, lockScripts]
  cases tag with
  | spend => simpa using hspend
  | mint => simpa using hmint
  | reward => simpa using hreward
  | cert => simp
  | vote => simp
  | propose => simp

theorem redeemerPointersCoincide_eq_ok {P : Type} [DecidableEq P] {unneeded missing : ValidationError}
    {redeemers pointers : List P} : redeemerPointersCoincide unneeded missing redeemers pointers = .ok () ↔
      ∀ p, p ∈ redeemers ↔ p ∈ pointers := by
  simp only [redeemerPointersCoincide, Outcome.seq_eq_ok, Outcome.forEach_eq_ok, check, Outcome.ensure_eq_ok,
    List.contains_iff_mem]
  exact ⟨fun h p => ⟨h.1 p, h.2 p⟩, fun h => ⟨fun p => (h p).1, fun p => (h p).2⟩⟩

theorem Counted.lt {tag : RedeemerTag} {n : ℕ} (h : Counted c body wits utxos tag n) : n < 2 ^ 32 := by
  obtain ⟨m, -, -, -, rfl⟩ := h
  exact Nat.mod_lt _ (by decide)

theorem Redeemed.lt {tag : RedeemerTag} {n : ℕ} (h : Redeemed wits tag n) : n < 2 ^ 32 := by
  obtain ⟨k, -, -, rfl⟩ := h
  exact k.index.toNat_lt

theorem redeemed_iff_mem {k : RedeemersKey} : Redeemed wits k.tag k.index.toNat ↔ k ∈ redeemerKeys wits.redeemer := by
  constructor
  · rintro ⟨⟨tag, index⟩, hk, rfl, hindex⟩
    obtain rfl := UInt32.toNat_inj.1 hindex
    exact hk
  · intro hk
    exact ⟨k, hk, rfl, rfl⟩

theorem checkRedeemers_eq_ok : checkRedeemers c body wits utxos = .ok () ↔
    AccountsParse body ∧ ∀ tag n, Redeemed wits tag n ↔ Counted c body wits utxos tag n := by
  have hpointers : (∀ tag n, Redeemed wits tag n ↔ Counted c body wits utxos tag n) ↔
      ∀ k, k ∈ redeemerKeys wits.redeemer ↔ Counted c body wits utxos k.tag k.index.toNat := by
    simp only [← redeemed_iff_mem]
    refine ⟨fun h k => h _ _, fun h tag n => ?_⟩
    by_cases hn : n < 2 ^ 32
    · have hindex : (UInt32.ofNat n).toNat = n := UInt32.toNat_ofNat_of_lt hn
      rw [← hindex]
      exact h ⟨tag, UInt32.ofNat n⟩
    · exact iff_of_false (fun hr => hn hr.lt) fun hc => hn hc.lt
  rw [hpointers, checkRedeemers, Outcome.bind_eq_ok]
  constructor
  · rintro ⟨pointers, hok, h⟩
    obtain ⟨hparse, rfl⟩ := mkPlutusScriptRedeemerPointers_eq_ok.1 hok
    exact ⟨hparse, fun k => (redeemerPointersCoincide_eq_ok.1 h k).trans mem_pointersOf⟩
  · rintro ⟨hparse, h⟩
    exact ⟨_, mkPlutusScriptRedeemerPointers_eq_ok.2 ⟨hparse, rfl⟩,
      redeemerPointersCoincide_eq_ok.2 fun k => (h k).trans mem_pointersOf.symm⟩

/-! ### The check -/

theorem not_needed_of_native (hcollision : ∀ h, IsNative c body wits utxos h → ¬ IsPlutus c body wits utxos h)
    {tag : RedeemerTag} {n : ℕ} {h : ScriptHash} (hlock : Locked body utxos tag n h)
    (hnative : IsNative c body wits utxos h) :
    ¬ Needed c body wits utxos tag n := by
  rintro ⟨h', hlock', hplutus⟩
  obtain rfl : h = h' := Option.some.inj (Option.some.inj (hlock.symm.trans hlock'))
  exact hcollision h hnative hplutus

/-! ### Which purposes are misjudged -/

theorem mem_phase2Hashes {h : ScriptHash} :
    h ∈ phase2Hashes c body wits utxos ↔ h ∈ (plutusScriptHashes c wits).flatten ∨
    ∃ i ∈ body.referenceInputs.getD [], ∃ out s, utxos (.alonzoCompatible i) = some (.conway out) ∧
      (MultiEraOutput.conway out).scriptRef = some s ∧ scriptRefHash c s = h := by
  rw [phase2Hashes, List.mem_append, getReferenceScriptHashes, List.mem_filterMap]
  refine or_congr_right (exists_congr fun i => and_congr_right fun _ => ?_)
  rw [getScriptHashFromReferenceInput, Option.map_eq_some_iff, referenceScript]
  rcases utxos (.alonzoCompatible i) with _ | o
  · simp
  · rcases o with o | o | (o | o) | o <;> simp [MultiEraOutput.asConway, MultiEraOutput.scriptRef]

theorem getScriptHashFromInput_eq {i : TransactionInput} : getScriptHashFromInput i utxos =
    (utxos (.alonzoCompatible i)).bind fun o => if o.asConway.isSome then o.lockedBy else none := by
  unfold getScriptHashFromInput MultiEraOutput.lockedBy conwayAddress
  rcases utxos (.alonzoCompatible i) with _ | o
  · rfl
  · rcases o with o | o | o | o
    · rfl
    · rfl
    · rcases hpart : getPaymentPart (outputAddress o) with _ | _ | _ <;> simp [MultiEraOutput.asConway, vkeyAddress, hpart]
    · rfl

theorem PlainScripts.counted_iff_needed (hplain : PlainScripts c body wits utxos) (tag : RedeemerTag) (n : ℕ) :
    Counted c body wits utxos tag n ↔ Needed c body wits utxos tag n := by
  have hscripts : ∀ tag m h, Locked body utxos tag m h →
      (h ∈ phase2Hashes c body wits utxos ↔ IsPlutus c body wits utxos h) := by
    intro tag m h hlock
    rw [mem_phase2Hashes, IsPlutus]
    refine or_congr_right ⟨?_, ?_⟩
    · rintro ⟨i, hi, out, s, ho, hs, rfl⟩
      refine ⟨s, ⟨i, hi, _, ho, hs⟩, ?_, rfl⟩
      by_contra hnative
      exact hplain.references i hi _ s ho hs (by simpa [MultiEraOutput.asConway] using hnative) tag m hlock
    · rintro ⟨s, ⟨i, hi, o, ho, hs⟩, hplutus, rfl⟩
      cases hera : o.asConway with
      | none => exact absurd hlock (hplain.references i hi o s ho hs (by simp [hera, hplutus]) tag m)
      | some out =>
        obtain ⟨out, rfl⟩ : ∃ out, o = .conway out := by
          cases o <;> simp_all [MultiEraOutput.asConway]
        exact ⟨i, hi, out, s, ho, hs, rfl⟩
  have hseen : ∀ m h, ((lockScripts body (fun i => getScriptHashFromInput i utxos) tag)[m]? = some (some h) ∧
      h ∈ phase2Hashes c body wits utxos) ↔ Locked body utxos tag m h ∧ IsPlutus c body wits utxos h := by
    intro m h
    have hlocks : (lockScripts body (fun i => getScriptHashFromInput i utxos) tag)[m]? = some (some h) →
        Locked body utxos tag m h := by
      unfold Locked
      cases tag with
      | spend =>
        simp only [lockScripts, List.getElem?_map, Option.map_eq_some_iff, getScriptHashFromInput_eq, spentScript]
        rintro ⟨i, hi, hlock⟩
        obtain ⟨o, ho, hlock⟩ := Option.bind_eq_some_iff.1 hlock
        refine ⟨i, hi, Option.bind_eq_some_iff.2 ⟨o, ho, ?_⟩⟩
        split_ifs at hlock
        exact hlock
      | mint => exact id
      | reward => exact id
      | cert => exact id
      | vote => exact id
      | propose => exact id
    constructor
    · rintro ⟨hlock, hmem⟩
      exact ⟨hlocks hlock, (hscripts tag m h (hlocks hlock)).1 hmem⟩
    · rintro ⟨hlock, hplutus⟩
      refine ⟨?_, (hscripts tag m h hlock).2 hplutus⟩
      unfold Locked at hlock
      cases tag with
      | spend =>
        simp only [lockScripts, List.getElem?_map, Option.map_eq_some_iff, getScriptHashFromInput_eq,
          spentScript] at hlock ⊢
        obtain ⟨i, hi, hlock⟩ := hlock
        obtain ⟨o, ho, hlock⟩ := Option.bind_eq_some_iff.1 hlock
        have hmem : i ∈ body.inputs := (List.mem_insertionSort _).1 (List.mem_of_getElem? hi)
        refine ⟨i, hi, Option.bind_eq_some_iff.2 ⟨o, ho, ?_⟩⟩
        cases hera : o.asConway with
        | none => exact absurd hplutus (hplain.spent i hmem o h ho hera hlock)
        | some out => simpa using hlock
      | mint => exact hlock
      | reward => exact hlock
      | cert => exact hlock
      | vote => exact hlock
      | propose => exact hlock
  have hsmall : ∀ m h, Locked body utxos tag m h → m % 2 ^ 32 = m := by
    intro m h hlock
    obtain ⟨hm, -⟩ := List.getElem?_eq_some_iff.1 hlock
    exact Nat.mod_eq_of_lt (hm.trans_le (hplain.length tag))
  constructor
  · rintro ⟨m, h, hlock, hmem, rfl⟩
    obtain ⟨hlock, hplutus⟩ := (hseen m h).1 ⟨hlock, hmem⟩
    rw [hsmall m h hlock]
    exact ⟨h, hlock, hplutus⟩
  · rintro ⟨h, hlock, hplutus⟩
    obtain ⟨hseenLock, hmem⟩ := (hseen n h).2 ⟨hlock, hplutus⟩
    exact ⟨n, h, hseenLock, hmem, hsmall n h hlock⟩

theorem redeemers_decided (hcollision : ∀ h, IsNative c body wits utxos h → ¬ IsPlutus c body wits utxos h)
    (hplain : PlainScripts c body wits utxos) :
    RedeemersDecided c body wits utxos (checkRedeemers c body wits utxos) := by
  have hfirst : checkRedeemers c body wits utxos = .ok () ↔
      ∀ tag n, Redeemed wits tag n ↔ Needed c body wits utxos tag n := by
    simp only [checkRedeemers_eq_ok, hplain.accounts, true_and, hplain.counted_iff_needed]
  refine ⟨hfirst, fun hok tag n h hlock hnative hredeemed => ?_⟩
  exact not_needed_of_native hcollision hlock hnative ((hfirst.1 hok tag n).1 hredeemed)

/-! ### Two transactions that mint -/

/-- A hash that tells native scripts from Plutus scripts. -/
def twoHashes : Crypto := ⟨fun bs => if bs.head? = some 0 then 1 else 2, fun _ => 0, fun bs => bs, fun _ _ _ => false⟩

/-- A body that mints under the hash of a Plutus script. -/
def plutusMintBody : TransactionBody where
  inputs := []
  outputs := []
  fee := 0
  mint := some ((∅ : Mint).insert 2 ((∅ : FinMap AssetName NonZeroInt).insert [] ⟨1, by decide⟩))

/-- The script, without a redeemer. -/
def plutusMintWits : WitnessSet := { plutusV2Script := some [⟨[1]⟩] }

theorem plutusMint_decided : RedeemersDecided twoHashes plutusMintBody plutusMintWits (fun _ => none)
    (checkRedeemers twoHashes plutusMintBody plutusMintWits fun _ => none) := by
  refine redeemers_decided ?_ ⟨?_, ?_, ?_, ?_⟩
  · rintro h (⟨s, hs, -⟩ | ⟨s, ⟨i, hi, -⟩, -⟩) -
    · cases hs
    · cases hi
  · rintro account h
    cases h
  · rintro i hi
    cases hi
  · rintro i hi
    cases hi
  · intro tag
    cases tag <;> decide

/-- The body mints under the hash of a native script, and refers to an output. -/
def nativeMintBody : TransactionBody where
  inputs := []
  outputs := []
  fee := 0
  mint := some ((∅ : Mint).insert 1 ((∅ : FinMap AssetName NonZeroInt).insert [] ⟨1, by decide⟩))
  referenceInputs := some [⟨0, 0⟩]

/-- The output carries the script. -/
def nativeReference : MultiEraOutput :=
  .conway (.postAlonzo ⟨[], .coin 0, none, some (.nativeScript ⟨[0x82, 4, 0], .invalidBefore 0, by simp⟩)⟩)

theorem nativeReference_not_plutus {h : ScriptHash} :
    ¬ IsPlutus twoHashes nativeMintBody {} (fun _ => some nativeReference) h := by
  rintro (h | ⟨s, ⟨i, -, o, ho, hs⟩, hkind, -⟩)
  · simp [plutusScriptHashes] at h
  · cases ho
    cases hs
    cases hkind

/-- For that script the check asks for a redeemer. -/
theorem nativeReference_not_decided : ¬ ∀ c body wits utxos,
    (∀ h, IsNative c body wits utxos h → ¬ IsPlutus c body wits utxos h) →
      RedeemersDecided c body wits utxos (checkRedeemers c body wits utxos) := by
  intro h
  have hdecided := h twoHashes nativeMintBody {} (fun _ => some nativeReference) fun _ _ => nativeReference_not_plutus
  have hok : checkRedeemers twoHashes nativeMintBody {} (fun _ => some nativeReference) = .ok () := by
    refine hdecided.1.2 fun tag n => iff_of_false ?_ ?_
    · rintro ⟨k, hk, -⟩
      cases hk
    · rintro ⟨h, -, hplutus⟩
      exact nativeReference_not_plutus hplutus
  have herr : checkRedeemers twoHashes nativeMintBody {} (fun _ => some nativeReference) =
      .err (.postAlonzo .redeemerMissing) := rfl
  cases herr.symm.trans hok

end Conway
end Pallas
