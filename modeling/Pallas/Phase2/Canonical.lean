import Pallas.Phase2.ToPlutusData
import Pallas.Phase2.Pairing
import Pallas.Lib.Sorting

/-!
# Script contexts and the order of a transaction's lists

`Relisted` transactions list the same inputs, reference inputs, required signers, witness datums and redeemers in another order.
A script context shows none of these orders, since each list is sorted before it is shown, as long as the key it is sorted by tells
the elements apart: an input its output, a hash its datum, and a pointer the data of its redeemer.
-/

namespace Pallas
open Conway

namespace Conway

/-- The same redeemers; a list may be in another order. -/
inductive Redeemers.Relisted : Redeemers → Redeemers → Prop where
  | list {rs rs' : List Redeemer} (h : rs.Perm rs') : Relisted (.list rs) (.list rs')
  | map (rs : FinMap RedeemersKey RedeemersValue) : Relisted (.map rs) (.map rs)

/-- The same transaction with the lists of its body and of its witness set in another order; its bytes may differ anywhere, and so may
the rest of the witness set, which no context shows. -/
structure GovTx.Relisted (tx tx' : GovTx) : Prop where
  rest : ∃ inputs refs signers, tx'.transactionBody.inner = { tx.transactionBody.inner with
    inputs := inputs, referenceInputs := refs, requiredSigners := signers }
  inputs : tx.transactionBody.inner.inputs.Perm tx'.transactionBody.inner.inputs
  referenceInputs : Option.Rel List.Perm tx.transactionBody.inner.referenceInputs tx'.transactionBody.inner.referenceInputs
  requiredSigners : Option.Rel List.Perm tx.transactionBody.inner.requiredSigners tx'.transactionBody.inner.requiredSigners
  plutusData : Option.Rel (fun ds ds' => ds.inner.Perm ds'.inner) tx.transactionWitnessSet.inner.plutusData
    tx'.transactionWitnessSet.inner.plutusData
  redeemer : Option.Rel (fun rs rs' => rs.inner.Relisted rs'.inner) tx.transactionWitnessSet.inner.redeemer
    tx'.transactionWitnessSet.inner.redeemer

end Conway

namespace Phase2

/-- A view under another transaction id. -/
def TxInfo.withId (id : Hash 32) : TxInfo → TxInfo
  | .v1 info => .v1 { info with id }
  | .v2 info => .v2 { info with id }
  | .v3 info => .v3 { info with id }

section Data
variable (pr : Profile) (c : Crypto) (sc : SlotConfig) (lang : Language) (id : Hash 32) (redeemer : Redeemer)
  (datum : Option PlutusData) (tx : GovTx) (utxos : List ResolvedInput)

/-- The Plutus data of the context that a language's script sees for a redeemer, under a given transaction id. -/
def contextData : Outcome Error (Option PlutusData) := do
  let info ← TxInfo.fromTransaction pr c tx utxos sc lang
  match ← (info.withId id).intoScriptContext redeemer datum with
  | some ctx => do
    let data ← ScriptContext.toPlutusData c ctx
    .ok (some data)
  | none => .ok none

end Data

/-- Listing things in another order changes no context but for the transaction id. -/
def Canonical (pr : Profile) (c : Crypto) (sc : SlotConfig) (tx : GovTx) (utxos : List ResolvedInput) : Prop :=
  ∀ tx' utxos', tx.Relisted tx' → utxos.Perm utxos' → ∀ lang id redeemer datum,
    contextData pr c sc lang id redeemer datum tx' utxos' = contextData pr c sc lang id redeemer datum tx utxos

/-- The datums of the witness set. -/
def witnessDatums (tx : GovTx) : List (KeepRaw PlutusData) :=
  (tx.transactionWitnessSet.inner.plutusData.map KeepRaw.inner).getD []

/-- What each list is sorted or searched by tells its elements apart. -/
structure Told (c : Crypto) (tx : GovTx) (utxos : List ResolvedInput) : Prop where
  /-- An input has one output. -/
  outputs : ∀ u ∈ utxos, ∀ u' ∈ utxos, u.input = u'.input → u.output = u'.output
  /-- A hash has one datum. -/
  datums : ∀ d ∈ witnessDatums tx, ∀ d' ∈ witnessDatums tx, c.blake2b256 d.rawCbor =
    c.blake2b256 d'.rawCbor → d.inner = d'.inner
  /-- The datums were decoded. -/
  sound : ∀ d ∈ witnessDatums tx, d.inner.Sound
  /-- The redeemers of a pointer have the same data. -/
  redeemers : ∀ r ∈ txRedeemers tx, ∀ r' ∈ txRedeemers tx, redeemerKey r = redeemerKey r' → r.data = r'.data

/-! ### Sorted lists -/

/-- The key of an input's order. -/
def inputKey (i : TransactionInput) : Lex (ℕ × ℕ) := toLex (i.transactionId.toNat, i.index.toNat)

theorem inputKey_injective : Function.Injective inputKey := by
  rintro ⟨t, i⟩ ⟨t', i'⟩ h
  obtain ⟨ht, hi⟩ := Prod.mk.inj (toLex_inj.1 h)
  obtain rfl := BitVec.eq_of_toNat_eq ht
  obtain rfl := UInt64.toNat_inj.1 hi
  rfl

theorem inputLe_iff (a b : TransactionInput) : a.le b = true ↔ inputKey a ≤ inputKey b := by
  rw [inputKey, inputKey, Prod.Lex.le_iff]
  simp only [TransactionInput.le, Bool.or_eq_true, Bool.and_eq_true, decide_eq_true_eq, beq_iff_eq, ofLex_toLex,
    BitVec.lt_def, UInt64.le_iff_toNat_le, BitVec.toNat_inj]

theorem sortInputs_perm {inputs inputs' : List TransactionInput} (h : inputs.Perm inputs') :
    sortInputs inputs = sortInputs inputs' :=
  List.insertionSort_perm (f := inputKey) (fun a _ b _ => inputLe_iff a b) h fun _ _ _ _ hkey => inputKey_injective hkey

theorem find?_perm {utxos utxos' : List ResolvedInput} (hperm : utxos.Perm utxos')
    (hone : ∀ u ∈ utxos, ∀ u' ∈ utxos, u.input = u'.input → u.output = u'.output) (i : TransactionInput) :
    (utxos'.find? fun u => u.input = i) = utxos.find? fun u => u.input = i := by
  cases h : utxos.find? fun u => u.input = i with
  | none =>
    rw [List.find?_eq_none] at h ⊢
    exact fun u hu => h u (hperm.mem_iff.2 hu)
  | some u =>
    have hu : u ∈ utxos := List.mem_of_find?_eq_some h
    have hinput : u.input = i := by simpa using List.find?_some h
    obtain ⟨u', h'⟩ : ∃ u', (utxos'.find? fun u => u.input = i) = some u' :=
      Option.isSome_iff_exists.1 (List.find?_isSome.2 ⟨u, hperm.mem_iff.1 hu, by simpa using hinput⟩)
    have hinput' : u'.input = i := by simpa using List.find?_some h'
    have houtput := hone u hu u' (hperm.mem_iff.2 (List.mem_of_find?_eq_some h')) (hinput.trans hinput'.symm)
    rw [h']
    cases u
    cases u'
    simp_all

theorem getTxInInfo_perm {utxos utxos' : List ResolvedInput} (hperm : utxos.Perm utxos')
    (hone : ∀ u ∈ utxos, ∀ u' ∈ utxos, u.input = u'.input → u.output = u'.output)
    {allowed : TransactionOutput → Outcome Error Unit} {inputs inputs' : List TransactionInput}
    (h : inputs.Perm inputs') :
    getTxInInfo allowed inputs' utxos' = getTxInInfo allowed inputs utxos := by
  simp only [getTxInInfo, find?_perm hperm hone, sortInputs_perm h]

theorem getSignatoriesInfo_perm {signers signers' : Option (List AddrKeyhash)}
    (h : Option.Rel List.Perm signers signers') :
    getSignatoriesInfo signers' = getSignatoriesInfo signers := by
  cases h with
  | none => rfl
  | some h =>
    exact (List.insertionSort_perm (f := BitVec.toNat) (fun _ _ _ _ => BitVec.le_def) h
      fun _ _ _ _ heq => BitVec.eq_of_toNat_eq heq).symm

variable {c : Crypto} {tx tx' : GovTx} {utxos utxos' : List ResolvedInput}

theorem witnessDatums_perm (h : tx.Relisted tx') : (witnessDatums tx).Perm (witnessDatums tx') := by
  have hdata := h.plutusData
  unfold witnessDatums
  generalize tx.transactionWitnessSet.inner.plutusData = ds at hdata
  generalize tx'.transactionWitnessSet.inner.plutusData = ds' at hdata
  cases hdata with
  | none => exact .refl []
  | some h => exact h

theorem getDataInfo_perm (htold : Told c tx utxos) (h : tx.Relisted tx') :
    getDataInfo c tx'.transactionWitnessSet.inner = getDataInfo c tx.transactionWitnessSet.inner := by
  refine (List.insertionSort_perm (f := fun p => p.1.toNat) ?_ ((witnessDatums_perm h).map _) ?_).symm
  · rintro _ hp _ hq
    obtain ⟨d, hd, rfl⟩ := List.mem_map.1 hp
    obtain ⟨d', hd', rfl⟩ := List.mem_map.1 hq
    simp only [datumLe, Bool.or_eq_true, Bool.and_eq_true, decide_eq_true_eq, beq_iff_eq, BitVec.lt_def]
    constructor
    · rintro (hlt | ⟨heq, -⟩)
      · exact hlt.le
      · exact (congrArg BitVec.toNat heq).le
    · intro hle
      rcases lt_or_eq_of_le hle with hlt | heq
      · exact .inl hlt
      · have hhash := BitVec.eq_of_toNat_eq heq
        have hself := (PlutusData.cmp_total_preorder (htold.sound d' hd') (htold.sound d' hd') (htold.sound d' hd')).2.1
        refine .inr ⟨hhash, ?_⟩
        rw [htold.datums d hd d' hd' hhash, hself]
        rfl
  · rintro _ hp _ hq hhash
    obtain ⟨d, hd, rfl⟩ := List.mem_map.1 hp
    obtain ⟨d', hd', rfl⟩ := List.mem_map.1 hq
    have heq := BitVec.eq_of_toNat_eq hhash
    exact Prod.ext heq (htold.datums d hd d' hd' heq)

/-! ### Redeemers -/

/-- The key of a pointer's order. -/
def pointerKey (k : RedeemersKey) : Lex (ℕ × ℕ) := toLex (k.tag.index, k.index.toNat)

theorem pointerKey_injective : Function.Injective pointerKey := by
  rintro ⟨t, i⟩ ⟨t', i'⟩ h
  obtain ⟨ht, hi⟩ := Prod.mk.inj (toLex_inj.1 h)
  obtain rfl := UInt32.toNat_inj.1 hi
  cases t <;> cases t' <;> simp_all [RedeemerTag.index]

theorem redeemerKeyLe_iff (a b : RedeemersKey) : redeemerKeyLe a b = true ↔ pointerKey a ≤ pointerKey b := by
  obtain ⟨t, i⟩ := a
  obtain ⟨t', i'⟩ := b
  have htag : t.index = t'.index → t = t' := by cases t <;> cases t' <;> simp [RedeemerTag.index]
  rw [pointerKey, pointerKey, Prod.Lex.le_iff, redeemerKeyLe]
  split_ifs with heq
  · obtain rfl : t = t' := heq
    simp [UInt32.le_iff_toNat_le]
  · have hne : t.index ≠ t'.index := fun h => heq (htag h)
    simp only [decide_eq_true_eq, ofLex_toLex, hne, false_and, or_false]
    omega

/-- What a context shows of a redeemer. -/
def shown (r : Redeemer) : Redeemer := { r with exUnits := ⟨0, 0⟩ }

/-- What a context shows of an entry. -/
def shownEntry (e : ScriptPurpose × Redeemer) : ScriptPurpose × Redeemer := (e.1, shown e.2)

theorem txRedeemers_perm (h : tx.Relisted tx') : (txRedeemers tx).Perm (txRedeemers tx') := by
  have hrs := h.redeemer
  unfold txRedeemers
  generalize tx.transactionWitnessSet.inner.redeemer = rs at hrs
  generalize tx'.transactionWitnessSet.inner.redeemer = rs' at hrs
  cases hrs with
  | none => exact .refl []
  | @some rs rs' h =>
    show (redeemerEntries rs.inner).Perm (redeemerEntries rs'.inner)
    generalize rs.inner = inner at h
    generalize rs'.inner = inner' at h
    cases h with
    | list h => exact h
    | map rs => exact .refl _

section Entries
variable {toScriptPurpose : RedeemersKey → Outcome Error ScriptPurpose}
  {entries entries' : List (ScriptPurpose × Redeemer)}

/-- The entry of a redeemer. -/
def entryOf (toScriptPurpose : RedeemersKey → Outcome Error ScriptPurpose) (r : Redeemer) :
    Outcome Error (ScriptPurpose × Redeemer) := do
  let purpose ← toScriptPurpose (redeemerKey r)
  .ok (purpose, r)

theorem getRedeemersInfo_eq : getRedeemersInfo tx.transactionWitnessSet.inner toScriptPurpose =
    ((txRedeemers tx).insertionSort fun a b => redeemerKeyLe (redeemerKey a) (redeemerKey b) = true).mapM
      (entryOf toScriptPurpose) := rfl

theorem map_shownEntry (rs : List Redeemer) : List.map shownEntry <$> rs.mapM (entryOf toScriptPurpose) =
    (rs.map shown).mapM (entryOf toScriptPurpose) := by
  induction rs with
  | nil => rfl
  | cons r rs ih =>
    rw [List.map_cons, List.mapM_cons, List.mapM_cons, ← ih]
    have hentry : entryOf toScriptPurpose (shown r) = shownEntry <$> entryOf toScriptPurpose r := by
      show (toScriptPurpose (redeemerKey r) >>= _) = shownEntry <$> (toScriptPurpose (redeemerKey r) >>= _)
      cases toScriptPurpose (redeemerKey r) <;> rfl
    rw [hentry]
    cases entryOf toScriptPurpose r with
    | ok e => cases rs.mapM (entryOf toScriptPurpose) <;> rfl
    | err e => rfl
    | panic => rfl

theorem getRedeemersInfo_perm (htold : Told c tx utxos) (h : tx.Relisted tx') :
    List.map shownEntry <$> getRedeemersInfo tx'.transactionWitnessSet.inner toScriptPurpose =
      List.map shownEntry <$> getRedeemersInfo tx.transactionWitnessSet.inner toScriptPurpose := by
  rw [getRedeemersInfo_eq, getRedeemersInfo_eq, map_shownEntry, map_shownEntry]
  refine congrArg (List.mapM (entryOf toScriptPurpose))
    (List.map_insertionSort_perm (f := fun r => pointerKey (redeemerKey r))
    (fun a _ b _ => redeemerKeyLe_iff (redeemerKey a) (redeemerKey b)) (txRedeemers_perm h)
      fun r hr r' hr' hkey => ?_).symm
  have heq := pointerKey_injective hkey
  have hdata := htold.redeemers r hr r' hr' heq
  obtain ⟨tag, index, data, units⟩ := r
  obtain ⟨tag', index', data', units'⟩ := r'
  obtain ⟨rfl, rfl⟩ := RedeemersKey.mk.inj heq
  obtain rfl : data = data' := hdata
  rfl

theorem entries_perm (h : tx.Relisted tx')
    (hentries : getRedeemersInfo tx.transactionWitnessSet.inner toScriptPurpose = .ok entries)
    (hentries' : getRedeemersInfo tx'.transactionWitnessSet.inner toScriptPurpose = .ok entries') :
    entries.Perm entries' := by
  rw [getRedeemersInfo_eq] at hentries hentries'
  have hperm := (List.perm_insertionSort (fun a b => redeemerKeyLe (redeemerKey a) (redeemerKey b) = true)
    (txRedeemers tx)).trans
    ((txRedeemers_perm h).trans
      (List.perm_insertionSort (fun a b => redeemerKeyLe (redeemerKey a) (redeemerKey b) = true)
        (txRedeemers tx')).symm)
  obtain ⟨ys, hys, hp⟩ := Outcome.mapM_perm hperm hentries
  cases hys.symm.trans hentries'
  exact hp

theorem findPurpose_eq {redeemer : Redeemer} {purpose : ScriptPurpose} {data : PlutusData}
    (hall : ∀ e ∈ entries, redeemerKey e.2 = redeemerKey redeemer → e.1 = purpose ∧ e.2.data = data) :
    findPurpose redeemer entries = if ∃ e ∈ entries, redeemerKey e.2 = redeemerKey redeemer then
      match PlutusData.eq redeemer.data data with
      | .done same => .ok (if same = true ∧ ∃ e ∈ entries, redeemerKey e.2 = redeemerKey redeemer ∧ redeemer.exUnits = e.2.exUnits
          then some purpose else none)
      | .panicked => .panic
    else .ok none := by
  induction entries with
  | nil => simp [findPurpose]
  | cons e entries ih =>
    obtain ⟨p, r⟩ := e
    have ih := ih fun e he => hall e (List.mem_cons_of_mem _ he)
    rw [findPurpose, redeemerEq]
    by_cases hkey : redeemer.tag = r.tag ∧ redeemer.index = r.index
    · have hmatch : redeemerKey r = redeemerKey redeemer := by rw [redeemerKey, redeemerKey, hkey.1, hkey.2]
      obtain ⟨rfl, hdata⟩ := hall _ List.mem_cons_self hmatch
      have hdata : r.data = data := hdata
      have hexists : ∃ e ∈ (p, r) :: entries, redeemerKey e.2 = redeemerKey redeemer := ⟨_, List.mem_cons_self, hmatch⟩
      rw [if_pos hkey, if_pos hexists, hdata]
      cases heq : PlutusData.eq redeemer.data data with
      | panicked => rfl
      | done same =>
        rw [Outcome.ok_bind, ih, heq]
        simp only [List.mem_cons, or_and_right, exists_or, exists_eq_left, hmatch, true_and]
        cases same with
        | false => simp
        | true =>
          by_cases hunits : redeemer.exUnits = r.exUnits
          · simp [hunits]
          · by_cases hrest : ∃ e ∈ entries, redeemerKey e.2 = redeemerKey redeemer
            · rw [if_pos hrest, if_neg (by simp [hunits])]
              simp only [or_iff_right hunits]
            · have hnone : ¬ ∃ e ∈ entries, redeemerKey e.2 = redeemerKey redeemer ∧ redeemer.exUnits = e.2.exUnits := by
                rintro ⟨e, he, hkey, -⟩
                exact hrest ⟨e, he, hkey⟩
              simp [hunits, hrest, hnone]
    · have hmatch : ¬ redeemerKey r = redeemerKey redeemer := fun h =>
        hkey ⟨(RedeemersKey.mk.inj h).1.symm, (RedeemersKey.mk.inj h).2.symm⟩
      rw [if_neg hkey, Outcome.ok_bind, ih]
      simp only [List.mem_cons, or_and_right, exists_or, exists_eq_left, hmatch, false_and, false_or]
      rfl

theorem findPurpose_perm {redeemer : Redeemer} (hperm : entries.Perm entries')
    (hone : ∀ e ∈ entries, ∀ e' ∈ entries, redeemerKey e.2 = redeemerKey e'.2 → e.1 = e'.1 ∧ e.2.data = e'.2.data) :
    findPurpose redeemer entries' = findPurpose redeemer entries := by
  by_cases hexists : ∃ e ∈ entries, redeemerKey e.2 = redeemerKey redeemer
  · obtain ⟨e, he, hkey⟩ := hexists
    have hall : ∀ x ∈ entries, redeemerKey x.2 = redeemerKey redeemer → x.1 = e.1 ∧ x.2.data = e.2.data :=
      fun x hx hxkey => hone x hx e he (hxkey.trans hkey.symm)
    rw [findPurpose_eq hall, findPurpose_eq fun x hx => hall x (hperm.mem_iff.2 hx)]
    simp only [hperm.mem_iff]
  · have hnone : ∀ es : List (ScriptPurpose × Redeemer), (¬ ∃ e ∈ es, redeemerKey e.2 = redeemerKey redeemer) →
        findPurpose redeemer es = .ok none := fun es hes => by
      rw [@findPurpose_eq es redeemer (.minting 0) redeemer.data fun e he hkey => absurd ⟨e, he, hkey⟩ hes, if_neg hes]
    rw [hnone entries hexists, hnone entries' (by simpa only [hperm.mem_iff] using hexists)]

/-- Entries that show the same and in which the same purposes are found. -/
structure SameEntries (entries entries' : List (ScriptPurpose × Redeemer)) : Prop where
  shown : entries.map shownEntry = entries'.map shownEntry
  found : ∀ redeemer, findPurpose redeemer entries = findPurpose redeemer entries'

theorem getRedeemersInfo_same (htold : Told c tx utxos) (h : tx.Relisted tx') :
    (getRedeemersInfo tx.transactionWitnessSet.inner toScriptPurpose).Rel SameEntries
      (getRedeemersInfo tx'.transactionWitnessSet.inner toScriptPurpose) := by
  have hshown : List.map shownEntry <$> getRedeemersInfo tx'.transactionWitnessSet.inner toScriptPurpose = _ :=
    getRedeemersInfo_perm htold h
  cases hentries : getRedeemersInfo tx.transactionWitnessSet.inner toScriptPurpose with
  | ok entries =>
    rw [hentries] at hshown
    obtain ⟨entries', hentries', hmap⟩ := Outcome.map_eq_ok.1 hshown
    rw [hentries']
    refine .ok ⟨hmap.symm, fun redeemer => (findPurpose_perm (entries_perm h hentries hentries') ?_).symm⟩
    -- the pointer decides about the purpose and about the data
    rintro ⟨p, r⟩ he ⟨p', r'⟩ he' hkey
    have hkey : redeemerKey r = redeemerKey r' := hkey
    have hp := getRedeemersInfo_mem hentries he
    rw [hkey] at hp
    cases hp.symm.trans (getRedeemersInfo_mem hentries he')
    have hperm := getRedeemersInfo_redeemers hentries
    exact ⟨rfl, htold.redeemers r (hperm.mem_iff.1 (List.mem_map_of_mem he)) r'
      (hperm.mem_iff.1 (List.mem_map_of_mem he')) hkey⟩
  | err e =>
    rw [hentries] at hshown
    cases hentries' : getRedeemersInfo tx'.transactionWitnessSet.inner toScriptPurpose <;>
      rw [hentries'] at hshown <;> cases hshown
    exact .err e
  | panic =>
    rw [hentries] at hshown
    rw [Outcome.map_eq_panic.1 hshown]
    exact .panic

end Entries

/-! ### Views and contexts -/

/-- What a view shows. -/
def TxInfo.plain : TxInfo → TxInfo
  | .v1 info => .v1 { info with redeemers := info.redeemers.map shownEntry }
  | .v2 info => .v2 { info with redeemers := info.redeemers.map shownEntry }
  | .v3 info => .v3 { info with redeemers := info.redeemers.map shownEntry }

theorem redeemersToPlutusData_map (f : ScriptPurpose → Outcome Error PlutusData)
    (redeemers : List (ScriptPurpose × Redeemer)) :
    redeemersToPlutusData f (redeemers.map shownEntry) = redeemersToPlutusData f redeemers := by
  simp only [redeemersToPlutusData, entriesToPlutusDataM, List.mapM_map]
  rfl

theorem TxInfo.toPlutusData_plain (info : TxInfo) : TxInfo.toPlutusData c info.plain = TxInfo.toPlutusData c info := by
  cases info with
  | v1 info => rfl
  | v2 info => simp only [TxInfo.plain, TxInfo.toPlutusData, TxInfoV2.toPlutusData, redeemersToPlutusData_map]
  | v3 info => simp only [TxInfo.plain, TxInfo.toPlutusData, TxInfoV3.toPlutusData, redeemersToPlutusData_map]

theorem contextOf_toPlutusData_plain (info : TxInfo) (redeemer : Redeemer) (datum : Option PlutusData)
    (purpose : ScriptPurpose) :
    ScriptContext.toPlutusData c (info.plain.contextOf redeemer datum purpose) =
      ScriptContext.toPlutusData c (info.contextOf redeemer datum purpose) := by
  have h := TxInfo.toPlutusData_plain (c := c) info
  cases info <;> simp only [TxInfo.plain, TxInfo.contextOf, ScriptContext.toPlutusData] at h ⊢ <;> rw [h]

/-- Views that show the same but for the id, and that find the same purposes. -/
structure Alike (info info' : TxInfo) : Prop where
  plain : ∀ id, (info.withId id).plain = (info'.withId id).plain
  found : ∀ redeemer, findPurpose redeemer info.redeemers = findPurpose redeemer info'.redeemers

variable {pr : Profile} {sc : SlotConfig}

theorem fromTransaction_alike (htold : Told c tx utxos) (h : tx.Relisted tx') (hperm : utxos.Perm utxos')
    (lang : Language) :
    (TxInfo.fromTransaction pr c tx utxos sc lang).Rel Alike (TxInfo.fromTransaction pr c tx' utxos' sc lang) := by
  obtain ⟨inputs, refs, signers, hbody⟩ := h.rest
  have hdata := getDataInfo_perm htold h
  have hinputs := h.inputs
  have hrefs := h.referenceInputs
  have hsigners := h.requiredSigners
  rw [hbody] at hinputs hrefs hsigners
  have hin : ∀ allowed, getTxInInfo allowed inputs utxos' = getTxInInfo allowed tx.transactionBody.inner.inputs utxos :=
    fun allowed => getTxInInfo_perm hperm htold.outputs hinputs
  have hsignatories := getSignatoriesInfo_perm hsigners
  dsimp only at hrefs hsignatories
  have hreferences : getReferenceInputs tx' utxos' = getReferenceInputs tx utxos := by
    rw [getReferenceInputs, getReferenceInputs, hbody]
    generalize tx.transactionBody.inner.referenceInputs = refs' at hrefs ⊢
    cases hrefs with
    | none => rfl
    | some h => exact getTxInInfo_perm hperm htold.outputs h
  cases lang with
  | plutusV1 =>
    have hsome : refs.isSome = tx.transactionBody.inner.referenceInputs.isSome := by
      generalize tx.transactionBody.inner.referenceInputs = refs' at hrefs ⊢
      cases hrefs <;> rfl
    simp only [TxInfo.fromTransaction, TxInfoV1.fromTransaction, getTxInInfoV1, hbody, hin, hdata, hsignatories, hsome]
    split_ifs
    · exact .err _
    · refine .bind_same _ fun inputs => .bind_same _ fun withdrawals => .bind (getRedeemersInfo_same htold h)
        fun redeemers redeemers' hsame => .bind_same _ fun outputs => .bind_same _
          fun range => .ok ⟨fun id => ?_, hsame.found⟩
      simp only [TxInfo.withId, TxInfo.plain, hsame.shown]
  | plutusV2 =>
    simp only [TxInfo.fromTransaction, TxInfoV2.fromTransaction, getTxInInfoV2, hbody, hin, hdata,
      hsignatories, hreferences]
    refine .bind_same _ fun inputs => .bind_same _ fun withdrawals => .bind (getRedeemersInfo_same htold h)
      fun redeemers redeemers' hsame => .bind_same _ fun refs => .bind_same _ fun outputs => .bind_same _ fun range =>
        .ok ⟨fun id => ?_, hsame.found⟩
    simp only [TxInfo.withId, TxInfo.plain, hsame.shown]
  | plutusV3 =>
    simp only [TxInfo.fromTransaction, TxInfoV3.fromTransaction, getTxInInfoV2, hbody, hin, hdata,
      hsignatories, hreferences]
    refine .bind_same _ fun inputs => .bind_same _ fun withdrawals => .bind (getRedeemersInfo_same htold h)
      fun redeemers redeemers' hsame => .bind_same _ fun refs => .bind_same _ fun outputs => .bind_same _ fun range =>
        .ok ⟨fun id => ?_, hsame.found⟩
    simp only [TxInfo.withId, TxInfo.plain, hsame.shown]

theorem TxInfo.redeemers_withId (info : TxInfo) (id : Hash 32) : (info.withId id).redeemers = info.redeemers := by
  cases info <;> rfl

/-- Where keys tell apart what is sorted by them, contexts do not depend on the order in which things are listed. -/
theorem canonical_of_told (htold : Told c tx utxos) : Canonical pr c sc tx utxos := by
  intro tx' utxos' h hperm lang id redeemer datum
  refine (Outcome.Rel.eq (.bind (fromTransaction_alike htold h hperm lang) fun info info' halike => ?_)).symm
  simp only [TxInfo.intoScriptContext, TxInfo.redeemers_withId, halike.found, bind_assoc, Outcome.ok_bind]
  refine .bind_same _ fun purpose => ?_
  cases purpose with
  | none => exact .ok rfl
  | some purpose =>
    simp only [Option.map_some]
    rw [← contextOf_toPlutusData_plain, halike.plain, contextOf_toPlutusData_plain]
    exact .bind_same _ fun data => .ok rfl

/-- The hashes of a script and of two datums. -/
def datumHashes : Crypto :=
  .ofTables [([2, 1], 0x12eb8f0d4ceadf3abc028b6c1900ccdde0d2ef5b4951c0aaba78a257)]
    [([0x40], 0x39df024ac52722fe8ae4c1a8740e4c5624a38c3820e504a059aae8728421f8bd),
      ([0x41, 1], 0xdc62258a33d3c264901fe1036fb70562ba41ce81a0f64d64686fa577f26a8c76)] [] []

theorem pairBytes_ne : ([0x82] : Bytes) ≠ [] := List.cons_ne_nil _ _

theorem bodyBytes_ne : ([0xa4] : Bytes) ≠ [] := List.cons_ne_nil _ _

theorem datumWitnessBytes_ne : ([0xa3] : Bytes) ≠ [] := List.cons_ne_nil _ _

/-- The two datums. -/
def twoDatums : List (KeepRaw PlutusData) :=
  [⟨[0x40], .boundedBytes [], List.cons_ne_nil _ _⟩, ⟨[0x41, 1], .boundedBytes [1], List.cons_ne_nil _ _⟩]

/-- A transaction that mints under a Plutus script and spends two inputs, with two datums. -/
def spendAndMintTx : GovTx where
  transactionBody := ⟨[0xa4], { plutusMintBody with inputs := [⟨0, 0⟩, ⟨1, 0⟩] }, bodyBytes_ne⟩
  transactionWitnessSet := ⟨[0xa3], { plutusMintWits with
    plutusData := some ⟨[0x82], twoDatums, pairBytes_ne⟩
    redeemer := some ⟨[0x82], .list [mintRedeemer, { mintRedeemer with exUnits := ⟨1, 1⟩ }], pairBytes_ne⟩ },
    datumWitnessBytes_ne⟩

/-- The outputs that it spends. -/
def spendAndMintInputs : List ResolvedInput :=
  [⟨⟨0, 0⟩, .postAlonzo ⟨sampleAddress, .coin 3, none, none⟩⟩,
    ⟨⟨1, 0⟩, .postAlonzo ⟨sampleAddress, .coin 5,
      some (.data ⟨[0x40], .boundedBytes [], List.cons_ne_nil _ _⟩), none⟩⟩]

/-- The order of the inputs, of the datums, and of two redeemers that differ in their units does not show. -/
theorem spendAndMintTx_canonical : Canonical .debug datumHashes ⟨1, 0, 0⟩ spendAndMintTx spendAndMintInputs := by
  have hdatums : ∀ d ∈ witnessDatums spendAndMintTx, d = ⟨[0x40], .boundedBytes [], List.cons_ne_nil _ _⟩ ∨
      d = ⟨[0x41, 1], .boundedBytes [1], List.cons_ne_nil _ _⟩ := by
    simp [witnessDatums, spendAndMintTx, twoDatums]
  refine canonical_of_told ⟨?_, ?_, ?_, ?_⟩
  · intro u hu u' hu' hi
    simp only [spendAndMintInputs, List.mem_cons, List.not_mem_nil, or_false] at hu hu'
    rcases hu with rfl | rfl <;> rcases hu' with rfl | rfl
    · rfl
    · exact absurd hi (by decide)
    · exact absurd hi (by decide)
    · rfl
  · intro d hd d' hd' hhash
    rcases hdatums d hd with rfl | rfl <;> rcases hdatums d' hd' with rfl | rfl
    · rfl
    · exact absurd hhash (by decide)
    · exact absurd hhash (by decide)
    · rfl
  · intro d hd
    rcases hdatums d hd with rfl | rfl
    · exact PlutusData.sound_leaf ⟨trivial, trivial⟩ rfl
    · exact PlutusData.sound_leaf ⟨trivial, trivial⟩ rfl
  · intro r hr r' hr' _
    have hdata : ∀ r ∈ txRedeemers spendAndMintTx, r.data = mintRedeemer.data := by
      simp [txRedeemers, spendAndMintTx, redeemerEntries]
    rw [hdata r hr, hdata r' hr']

/-- A transaction that mints under a Plutus script, with the given redeemers. -/
def mintTxWith (rs : List Redeemer) : GovTx :=
  { mintTx with transactionWitnessSet :=
    ⟨[0xa2], { plutusMintWits with redeemer := some ⟨[0x82], .list rs, pairBytes_ne⟩ },
      witnessBytes_ne⟩ }

/-- Another redeemer for the first minted policy. -/
def otherRedeemer : Redeemer := { mintRedeemer with data := .boundedBytes [1] }

/-- The data of the first redeemer that a context of the second version shows. -/
def firstShown : Outcome Error (Option PlutusData) → Option PlutusData
  | .ok (some (.constr _ _ _ (.constr _ _ _ fields :: _))) => match fields[9]? with
    | some (PlutusData.map _ (e :: _)) => some e.2
    | _ => none
  | _ => none

theorem findPurpose_two {purpose : ScriptPurpose} {redeemer r r' : Redeemer} (hr : r.data.Sound) (hr' : r'.data.Sound)
    (hmem : redeemer = r ∨ redeemer = r') :
    findPurpose redeemer [(purpose, r), (purpose, r')] = .ok (some purpose) := by
  have hlisted : (purpose, redeemer) ∈ [(purpose, r), (purpose, r')] := by rcases hmem with rfl | rfl <;> simp
  obtain ⟨p, hp⟩ := findPurpose_of_mem (by simp [hr, hr']) hlisted
  obtain ⟨r'', hfound, -⟩ := findPurpose_eq_ok hp
  obtain rfl : p = purpose := by
    rcases List.mem_cons.1 hfound with h | h
    · exact (Prod.mk.inj h).1
    · exact (Prod.mk.inj (List.mem_singleton.1 h)).1
  exact hp

/-- Two redeemers of one pointer are shown in the order in which they are listed. -/
theorem twoRedeemers_not_canonical : (txRedeemers (mintTxWith [mintRedeemer, otherRedeemer])).Nodup ∧
    ¬ Canonical .debug twoHashes ⟨1, 0, 0⟩ (mintTxWith [mintRedeemer, otherRedeemer]) [] := by
  constructor
  · simp [txRedeemers, mintTxWith, redeemerEntries, mintRedeemer, otherRedeemer]
  · intro hcanonical
    have hlisted : (mintTxWith [mintRedeemer, otherRedeemer]).Relisted (mintTxWith [otherRedeemer, mintRedeemer]) :=
      { rest := ⟨_, _, _, rfl⟩, inputs := .refl _, referenceInputs := .none, requiredSigners :=
        .none, plutusData := .none,
        redeemer := .some (.list (.swap _ _ _)) }
    have h := congrArg firstShown (hcanonical _ [] hlisted (.refl _) .plutusV2 0 mintRedeemer none)
    have hmint : mintRedeemer.data.Sound := PlutusData.sound_leaf ⟨trivial, trivial⟩ rfl
    have hother : otherRedeemer.data.Sound := PlutusData.sound_leaf ⟨trivial, trivial⟩ rfl
    have hfirst : firstShown (contextData .debug twoHashes ⟨1, 0, 0⟩ .plutusV2 0 mintRedeemer none
        (mintTxWith [mintRedeemer, otherRedeemer]) []) = some mintRedeemer.data := by
      rw [contextData, show TxInfo.fromTransaction _ _ _ _ _ _ =
        .ok _ from rfl, Outcome.ok_bind, TxInfo.intoScriptContext,
        TxInfo.redeemers_withId, show TxInfo.redeemers _ = [(_, mintRedeemer), (_, otherRedeemer)] from rfl,
        findPurpose_two hmint hother (.inl rfl)]
      rfl
    have hsecond : firstShown (contextData .debug twoHashes ⟨1, 0, 0⟩ .plutusV2 0 mintRedeemer none
        (mintTxWith [otherRedeemer, mintRedeemer]) []) = some otherRedeemer.data := by
      rw [contextData, show TxInfo.fromTransaction _ _ _ _ _ _ =
        .ok _ from rfl, Outcome.ok_bind, TxInfo.intoScriptContext,
        TxInfo.redeemers_withId, show TxInfo.redeemers _ = [(_, otherRedeemer), (_, mintRedeemer)] from rfl,
        findPurpose_two hother hmint (.inr rfl)]
      rfl
    rw [hfirst, hsecond] at h
    simp [mintRedeemer, otherRedeemer] at h

end Phase2
end Pallas
