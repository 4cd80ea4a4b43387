import Pallas.Phase2.ScriptContext

/-!
# The purpose and the script of a redeemer

A redeemer points at an `Item` of the transaction, in the ledger's order of its kind. `find_script` looks up the script of that item,
and the context that `into_script_context` makes for the redeemer is one of the same item, whatever the version of the script.
-/

namespace Pallas.Phase2
open Conway

/-- What a redeemer may point at: an input with the output it spends, a policy, a certificate at its place, a withdrawal's account,
a voter, or a proposal at its place. -/
inductive Item where
  | input (i : TransactionInput) (output : TransactionOutput)
  | policy (h : PolicyId)
  | certificate (index : ℕ) (certificate : Certificate)
  | withdrawal (address : StakeAddress)
  | voter (voter : Voter)
  | proposal (index : ℕ) (procedure : ProposalProcedure)

namespace Item

/-- The hash of the script that decides about an item. -/
def scriptHash : Item → Outcome Error ScriptHash
  | input _ output => paymentHash output
  | policy h => .ok h
  | certificate _ cert => certificateScript cert
  | withdrawal address => withdrawalScript (.stake address)
  | voter v => voterScript v
  | proposal _ procedure => proposalScript procedure

end Item

/-- The purpose is that of the item. -/
def ScriptInfo.Designates {T : Type} : ScriptInfo T → Item → Prop
  | .spending outRef _, .input i _ => outRef = i
  | .minting policy, .policy h => policy = h
  | .certifying index certificate, .certificate n cert => index = n ∧ certificate = cert
  | .rewarding credential, .withdrawal address => match address.payload with
    | .script h => credential = .scriptHash h
    | .stake h => credential = .addrKeyhash h
  | .voting voter, .voter v => voter = v
  | .proposing index procedure, .proposal n proc => index = n ∧ procedure = proc
  | _, _ => False

/-- The context is one of the item. -/
def ScriptContext.Designates : ScriptContext → Item → Prop
  | .v1v2 _ purpose, item => purpose.Designates item
  | .v3 _ _ purpose, item => purpose.Designates item

section Order
variable (tx : GovTx) (utxos : List ResolvedInput)

/-- The item at an index of the ledger's order: inputs, policies, accounts and voters ascend, certificates and proposals stand as
they are listed. -/
def ledgerItem (tag : RedeemerTag) (n : ℕ) : Option Item :=
  let body := tx.transactionBody.inner
  match tag with
  | .spend => (sortInputs body.inputs)[n]?.bind fun i =>
      (utxos.find? fun utxo => utxo.input = i).map fun utxo => .input i utxo.output
  | .mint => ((body.mint.map Std.ExtTreeMap.keys).getD [])[n]?.map .policy
  | .cert => (body.certificates.getD [])[n]?.map (.certificate n)
  | .reward => (rewardAddresses body.toTransactionBody)[n]?.map .withdrawal
  | .vote => ((body.votingProcedures.map Std.ExtTreeMap.keys).getD [])[n]?.map .voter
  | .propose => (body.proposalProcedures.getD [])[n]?.map (.proposal n)

end Order

variable {pr : Profile} {c : Crypto} {tx : GovTx} {utxos : List ResolvedInput} {sc : SlotConfig}
  {table : DataLookupTable}
  {redeemer : Redeemer} {purpose : ScriptPurpose}

/-! ### The lists -/

theorem outputAddress_sortTxOutValue {output resolved : TransactionOutput} (h : sortTxOutValue output = .ok resolved) :
    outputAddress resolved = outputAddress output := by
  cases output with
  | legacy o =>
    obtain ⟨value, -, h⟩ := Outcome.bind_eq_ok.1 h
    cases h
    rfl
  | postAlonzo o =>
    cases h
    rfl

theorem getTxInInfo_getElem? {allowed : TransactionOutput → Outcome Error Unit} {inputs : List TransactionInput}
    {infos : List TxInInfo} (h : getTxInInfo allowed inputs utxos = .ok infos) {n : ℕ} {info : TxInInfo}
    (hinfo : infos[n]? = some info) : ∃ output, (sortInputs inputs)[n]? = some info.outRef ∧
      (utxos.find? fun utxo => utxo.input = info.outRef) = some ⟨info.outRef, output⟩ ∧
      outputAddress info.resolved = outputAddress output := by
  obtain ⟨i, hi, h⟩ := Outcome.mapM_getElem? h hinfo
  obtain ⟨utxo, hutxo, h⟩ := Outcome.bind_eq_ok.1 h
  obtain ⟨address, -, h⟩ := Outcome.bind_eq_ok.1 h
  rw [Outcome.ofOption_eq_ok] at hutxo
  obtain rfl : utxo.input = i := by simpa using List.find?_some hutxo
  cases address with
  | byron a => cases h
  | stake a => cases h
  | shelley a =>
    obtain ⟨-, -, h⟩ := Outcome.bind_eq_ok.1 h
    obtain ⟨resolved, hresolved, h⟩ := Outcome.bind_eq_ok.1 h
    cases h
    exact ⟨utxo.output, hi, hutxo, outputAddress_sortTxOutValue hresolved⟩

/-- What the first version accepts the later ones read the same way. -/
theorem getTxInInfoV2_of_v1 {inputs : List TransactionInput} {infos : List TxInInfo}
    (h : getTxInInfoV1 inputs utxos = .ok infos) : getTxInInfoV2 inputs utxos = .ok infos := by
  refine Outcome.mapM_eq_ok.2 ((Outcome.mapM_eq_ok.1 h).imp fun i info h => ?_)
  obtain ⟨utxo, hutxo, h⟩ := Outcome.bind_eq_ok.1 h
  obtain ⟨address, haddress, h⟩ := Outcome.bind_eq_ok.1 h
  refine Outcome.bind_eq_ok.2 ⟨utxo, hutxo, Outcome.bind_eq_ok.2 ⟨address, haddress, ?_⟩⟩
  cases address with
  | byron a => exact h
  | stake a => exact h
  | shelley a =>
    obtain ⟨-, -, h⟩ := Outcome.bind_eq_ok.1 h
    exact h

theorem getMintInfo_keys (mint : Option Mint) : (getMintInfo mint).keys = (mint.map Std.ExtTreeMap.keys).getD [] := by
  cases mint with
  | none => rfl
  | some mint => simp [getMintInfo]

theorem getVotesInfo_voters (votes : Option (FinMap Voter (FinMap GovActionId VotingProcedure))) :
    (getVotesInfo votes).map Prod.fst = (votes.map Std.ExtTreeMap.keys).getD [] := by
  have hsorted : (((votes.map Std.ExtTreeMap.toList).getD []).insertionSort fun a b => voterLe a.1 b.1 = true) =
      (votes.map Std.ExtTreeMap.toList).getD [] := by
    refine List.Pairwise.insertionSort_eq ?_
    cases votes with
    | none => exact List.Pairwise.nil
    | some votes =>
      refine votes.ordered_keys_toList.imp fun h => ?_
      rw [voterLe, h]
      rfl
  rw [getVotesInfo, List.map_map, hsorted]
  cases votes with
  | none => rfl
  | some votes => exact Std.ExtTreeMap.map_fst_toList_eq_keys

theorem getWithdrawalsInfo_getElem? {body : TransactionBody} {withdrawals : List (Address × Coin)}
    (h : getWithdrawalsInfo body.withdrawals = .ok withdrawals) {n : ℕ} {address : StakeAddress} {coin : Coin}
    (hn : withdrawals[n]? = some (.stake address, coin)) : (rewardAddresses body)[n]? = some address := by
  set entries := (body.withdrawals.map Std.ExtTreeMap.toList).getD [] with hentries
  have hkeys : accounts body = entries.map Prod.fst := by
    rw [accounts, hentries]
    cases body.withdrawals with
    | none => rfl
    | some withdrawals => exact Std.ExtTreeMap.map_fst_toList_eq_keys.symm
  unfold getWithdrawalsInfo at h
  rw [← hentries] at h
  dsimp only at h
  split_ifs at h with hbad
  obtain ⟨e, he, hread⟩ := Outcome.mapM_getElem? h hn
  obtain ⟨parsed, hparsed, hpair⟩ := Outcome.bind_eq_ok.1 hread
  cases hpair
  have haddress : stakeAddress e.1 = some address := by
    rw [Outcome.unwrap_eq_ok] at hparsed
    rw [stakeAddress, hparsed]
  have hmem : e ∈ entries := (List.mem_insertionSort _).1 (List.mem_of_getElem? he)
  have hall : ∀ x ∈ entries, (stakeAddress x.1).isSome := by
    intro x hx
    by_contra hnone
    rw [Option.not_isSome_iff_eq_none] at hnone
    refine hbad ⟨?_, x, hx, hnone⟩
    -- one entry has an address and another has none
    by_contra hshort
    obtain ⟨y, hy⟩ := List.length_eq_one_iff.1 (le_antisymm (by omega) (List.length_pos_of_mem hmem))
    rw [hy, List.mem_singleton] at hx hmem
    rw [hx, ← hmem, haddress] at hnone
    cases hnone
  have hfilter : (accounts body).filterMap stakeAddress = entries.map fun x => (stakeAddress x.1).getD address := by
    rw [hkeys, List.filterMap_map, ← List.filterMap_eq_map]
    refine List.filterMap_congr fun x hx => ?_
    obtain ⟨a, ha⟩ := Option.isSome_iff_exists.1 (hall x hx)
    simp [ha]
  have hsorted := List.map_insertionSort (fun a b => accountLe a.1 b.1 = true) (fun a b => rewardAccountLe a b = true)
    (fun x => (stakeAddress x.1).getD address) entries fun x hx y hy => by
      obtain ⟨a, ha⟩ := Option.isSome_iff_exists.1 (hall x hx)
      obtain ⟨b, hb⟩ := Option.isSome_iff_exists.1 (hall y hy)
      simp [accountLe, ha, hb]
  rw [rewardAddresses, hfilter, ← hsorted, List.getElem?_map, he, Option.map_some, haddress, Option.getD_some]

/-! ### The purpose -/

theorem getRedeemersInfo_mem {wits : WitnessSet} {toScriptPurpose : RedeemersKey → Outcome Error ScriptPurpose}
    {entries : List (ScriptPurpose × Redeemer)} (h : getRedeemersInfo wits toScriptPurpose = .ok entries) {r : Redeemer}
    (hmem : (purpose, r) ∈ entries) : toScriptPurpose (redeemerKey r) = .ok purpose := by
  obtain ⟨r', -, h⟩ := Outcome.mapM_mem h hmem
  obtain ⟨purpose', hpurpose, h⟩ := Outcome.bind_eq_ok.1 h
  cases h
  exact hpurpose

theorem findPurpose_eq_ok {entries : List (ScriptPurpose × Redeemer)}
    (h : findPurpose redeemer entries = .ok (some purpose)) :
    ∃ r, (purpose, r) ∈ entries ∧ redeemerKey r = redeemerKey redeemer := by
  induction entries with
  | nil => cases h
  | cons e entries ih =>
    obtain ⟨p, r⟩ := e
    obtain ⟨same, hsame, h⟩ := Outcome.bind_eq_ok.1 h
    cases same with
    | false =>
      obtain ⟨r', hmem, hkey⟩ := ih h
      exact ⟨r', List.mem_cons_of_mem _ hmem, hkey⟩
    | true =>
      cases h
      unfold redeemerEq at hsame
      split_ifs at hsame with hkey
      · exact ⟨r, List.mem_cons_self, by rw [redeemerKey, redeemerKey, hkey.1, hkey.2]⟩
      · cases hsame

theorem fromTransaction_redeemers {lang : Language} {info : TxInfo}
    (h : TxInfo.fromTransaction pr c tx utxos sc lang = .ok info) :
    ∃ inputs withdrawals proposals votes, getTxInInfoV2 tx.transactionBody.inner.inputs utxos = .ok inputs ∧
      getWithdrawalsInfo tx.transactionBody.inner.withdrawals = .ok withdrawals ∧
      (proposals = [] ∨ proposals = getProposalProceduresInfo tx.transactionBody.inner.proposalProcedures) ∧
      (votes = [] ∨ votes = (getVotesInfo tx.transactionBody.inner.votingProcedures).map Prod.fst) ∧
      getRedeemersInfo tx.transactionWitnessSet.inner
        (scriptPurposeBuilder inputs (getMintInfo tx.transactionBody.inner.mint)
        (getCertificatesInfo tx.transactionBody.inner.certificates) withdrawals proposals votes) =
          .ok info.redeemers := by
  cases lang with
  | plutusV1 =>
    simp only [TxInfo.fromTransaction, TxInfoV1.fromTransaction] at h
    split_ifs at h
    obtain ⟨inputs, hinputs, h⟩ := Outcome.bind_eq_ok.1 h
    obtain ⟨withdrawals, hwithdrawals, h⟩ := Outcome.bind_eq_ok.1 h
    obtain ⟨redeemers, hredeemers, h⟩ := Outcome.bind_eq_ok.1 h
    obtain ⟨outputs, -, h⟩ := Outcome.bind_eq_ok.1 h
    obtain ⟨validRange, -, h⟩ := Outcome.bind_eq_ok.1 h
    cases h
    exact ⟨inputs, withdrawals, [], [], getTxInInfoV2_of_v1 hinputs, hwithdrawals, .inl rfl, .inl rfl, hredeemers⟩
  | plutusV2 =>
    simp only [TxInfo.fromTransaction, TxInfoV2.fromTransaction] at h
    obtain ⟨inputs, hinputs, h⟩ := Outcome.bind_eq_ok.1 h
    obtain ⟨withdrawals, hwithdrawals, h⟩ := Outcome.bind_eq_ok.1 h
    obtain ⟨redeemers, hredeemers, h⟩ := Outcome.bind_eq_ok.1 h
    obtain ⟨refs, -, h⟩ := Outcome.bind_eq_ok.1 h
    obtain ⟨outputs, -, h⟩ := Outcome.bind_eq_ok.1 h
    obtain ⟨validRange, -, h⟩ := Outcome.bind_eq_ok.1 h
    cases h
    exact ⟨inputs, withdrawals, [], [], hinputs, hwithdrawals, .inl rfl, .inl rfl, hredeemers⟩
  | plutusV3 =>
    simp only [TxInfo.fromTransaction, TxInfoV3.fromTransaction] at h
    obtain ⟨inputs, hinputs, h⟩ := Outcome.bind_eq_ok.1 h
    obtain ⟨withdrawals, hwithdrawals, h⟩ := Outcome.bind_eq_ok.1 h
    obtain ⟨redeemers, hredeemers, h⟩ := Outcome.bind_eq_ok.1 h
    obtain ⟨refs, -, h⟩ := Outcome.bind_eq_ok.1 h
    obtain ⟨outputs, -, h⟩ := Outcome.bind_eq_ok.1 h
    obtain ⟨validRange, -, h⟩ := Outcome.bind_eq_ok.1 h
    cases h
    exact ⟨inputs, withdrawals, _, _, hinputs, hwithdrawals, .inr rfl, .inr rfl, hredeemers⟩

/-! ### The script -/

theorem nth_eq_ok {α : Type} {items : List α} {a : α} :
    nth redeemer items = .ok a ↔ items[redeemer.index.toNat]? = some a := Outcome.ofOption_eq_ok

theorem lookupScript_eq_ok {hash : ScriptHash} {script : ScriptVersion} {datum : Option PlutusData}
    (h : lookupScript table hash = .ok (script, datum)) : table.scripts[hash]? = some script := by
  unfold lookupScript at h
  split at h
  next s hs =>
    cases h
    exact hs
  next => cases h

theorem spendingScript_eq_ok {input : TxInInfo} {script : ScriptVersion} {datum : Option PlutusData}
    (h : spendingScript table input = .ok (script, datum)) :
    ∃ hash, paymentHash input.resolved = .ok hash ∧ table.scripts[hash]? = some script := by
  obtain ⟨hash, hhash, h⟩ := Outcome.bind_eq_ok.1 h
  obtain ⟨⟨found, none_⟩, hfound, h⟩ := Outcome.bind_eq_ok.1 h
  obtain ⟨d, -, h⟩ := Outcome.bind_eq_ok.1 h
  refine ⟨hash, hhash, ?_⟩
  have hscript : found = script := by
    split at h <;> cases h
    rfl
  rw [← hscript]
  exact lookupScript_eq_ok hfound

theorem item_of_script {inputs : List TxInInfo} {withdrawals : List (Address × Coin)}
    {proposals : List ProposalProcedure}
    {votes : List Voter} {script : ScriptVersion} {datum : Option PlutusData}
    (hinputs : getTxInInfoV2 tx.transactionBody.inner.inputs utxos = .ok inputs)
    (hwithdrawals : getWithdrawalsInfo tx.transactionBody.inner.withdrawals = .ok withdrawals)
    (hproposals : proposals = [] ∨ proposals = getProposalProceduresInfo tx.transactionBody.inner.proposalProcedures)
    (hvotes : votes = [] ∨ votes = (getVotesInfo tx.transactionBody.inner.votingProcedures).map Prod.fst)
    (hpurpose : scriptPurposeBuilder inputs (getMintInfo tx.transactionBody.inner.mint)
      (getCertificatesInfo tx.transactionBody.inner.certificates) withdrawals proposals votes
    (redeemerKey redeemer) = .ok purpose)
    (hscript : findScript table redeemer tx utxos = .ok (script, datum)) :
    ∃ item hash, ledgerItem tx utxos redeemer.tag redeemer.index.toNat = some item ∧ item.scriptHash = .ok hash ∧
      table.scripts[hash]? = some script ∧ purpose.Designates item := by
  unfold scriptPurposeBuilder redeemerKey at hpurpose
  unfold findScript at hscript
  cases htag : redeemer.tag with
  | spend =>
    simp only [htag, Outcome.ofOption_eq_ok, Option.map_eq_some_iff] at hpurpose hscript
    obtain ⟨info, hinfo, rfl⟩ := hpurpose
    rw [hinputs] at hscript
    change (nth redeemer inputs >>= spendingScript table) = _ at hscript
    obtain ⟨info', hinfo', hspending⟩ := Outcome.bind_eq_ok.1 hscript
    obtain rfl := Option.some.inj (hinfo.symm.trans (nth_eq_ok.1 hinfo'))
    obtain ⟨output, hsorted, hfind, haddress⟩ := getTxInInfo_getElem? hinputs hinfo
    obtain ⟨hash, hhash, hfound⟩ := spendingScript_eq_ok hspending
    refine ⟨.input info.outRef output, hash, ?_, ?_, hfound, rfl⟩
    · simp [ledgerItem, hsorted, hfind]
    · rw [paymentHash, haddress] at hhash
      exact hhash
  | mint =>
    simp only [htag, Outcome.ofOption_eq_ok, Option.map_eq_some_iff] at hpurpose hscript
    obtain ⟨policy, hpolicy, rfl⟩ := hpurpose
    obtain ⟨policy', hpolicy', hlookup⟩ := Outcome.bind_eq_ok.1 hscript
    obtain rfl := Option.some.inj (hpolicy.symm.trans (nth_eq_ok.1 hpolicy'))
    refine ⟨.policy policy, policy, ?_, rfl, lookupScript_eq_ok hlookup, rfl⟩
    rw [getMintInfo_keys] at hpolicy
    simp [ledgerItem, hpolicy]
  | cert =>
    simp only [htag, Outcome.ofOption_eq_ok, Option.map_eq_some_iff] at hpurpose hscript
    obtain ⟨cert, hcert, rfl⟩ := hpurpose
    obtain ⟨cert', hcert', hhashed⟩ := Outcome.bind_eq_ok.1 hscript
    obtain rfl := Option.some.inj (hcert.symm.trans (nth_eq_ok.1 hcert'))
    obtain ⟨hash, hhash, hlookup⟩ := Outcome.bind_eq_ok.1 hhashed
    refine ⟨.certificate redeemer.index.toNat cert, hash, ?_, hhash, lookupScript_eq_ok hlookup, rfl, rfl⟩
    unfold getCertificatesInfo at hcert
    simp [ledgerItem, hcert]
  | reward =>
    simp only [htag] at hpurpose hscript
    rw [hwithdrawals, Outcome.ok_bind] at hscript
    obtain ⟨⟨address, coin⟩, hnth, hhashed⟩ := Outcome.bind_eq_ok.1 hscript
    have haddress := nth_eq_ok.1 hnth
    obtain ⟨hash, hhash, hlookup⟩ := Outcome.bind_eq_ok.1 hhashed
    cases address with
    | byron a => cases hhash
    | shelley a => cases hhash
    | stake a =>
      have hitem : (rewardAddresses tx.transactionBody.inner.toTransactionBody)[redeemer.index.toNat]? = some a :=
        getWithdrawalsInfo_getElem? hwithdrawals haddress
      rw [haddress] at hpurpose
      refine ⟨.withdrawal a, hash, ?_, hhash, lookupScript_eq_ok hlookup, ?_⟩
      · simp [ledgerItem, hitem]
      · dsimp only at hpurpose
        cases hpayload : a.payload with
        | stake h => simp [hpayload] at hpurpose
        | script h =>
          rw [hpayload] at hpurpose
          cases hpurpose
          simp [ScriptInfo.Designates, hpayload]
  | vote =>
    simp only [htag, Outcome.ofOption_eq_ok, Option.map_eq_some_iff] at hpurpose hscript
    obtain ⟨voter, hvoter, rfl⟩ := hpurpose
    obtain ⟨⟨voter', actions⟩, hnth, hhashed⟩ := Outcome.bind_eq_ok.1 hscript
    have hvoter' := nth_eq_ok.1 hnth
    obtain ⟨hash, hhash, hlookup⟩ := Outcome.bind_eq_ok.1 hhashed
    rcases hvotes with rfl | rfl
    · simp at hvoter
    · rw [List.getElem?_map, hvoter'] at hvoter
      obtain rfl := Option.some.inj hvoter
      refine ⟨.voter voter', hash, ?_, hhash, lookupScript_eq_ok hlookup, rfl⟩
      have hkey : ((getVotesInfo tx.transactionBody.inner.votingProcedures).map Prod.fst)[redeemer.index.toNat]? =
          some voter' := by rw [List.getElem?_map, hvoter']; rfl
      rw [getVotesInfo_voters] at hkey
      simp [ledgerItem, hkey]
  | propose =>
    simp only [htag, Outcome.ofOption_eq_ok, Option.map_eq_some_iff] at hpurpose hscript
    obtain ⟨procedure, hprocedure, rfl⟩ := hpurpose
    obtain ⟨procedure', hnth, hhashed⟩ := Outcome.bind_eq_ok.1 hscript
    have hprocedure' := nth_eq_ok.1 hnth
    obtain ⟨hash, hhash, hlookup⟩ := Outcome.bind_eq_ok.1 hhashed
    rcases hproposals with rfl | rfl
    · simp at hprocedure
    · obtain rfl := Option.some.inj (hprocedure.symm.trans hprocedure')
      refine ⟨.proposal redeemer.index.toNat procedure, hash, ?_, hhash, lookupScript_eq_ok hlookup, rfl, rfl⟩
      unfold getProposalProceduresInfo at hprocedure
      simp [ledgerItem, hprocedure]

/-! ### The context -/

theorem redeemerEq_of_sound {a b : Redeemer} (ha : a.data.Sound) (hb : b.data.Sound) :
    ∃ same, redeemerEq a b = .ok same := by
  unfold redeemerEq
  split_ifs
  · rw [PlutusData.eq, PlutusData.cmp_eq_compare ha hb]
    exact ⟨_, rfl⟩
  · exact ⟨false, rfl⟩

theorem redeemerEq_self {a : Redeemer} (ha : a.data.Sound) : redeemerEq a a = .ok true := by
  have hself : compare (treeKeys PlutusData.key a.data) (treeKeys PlutusData.key a.data) = .eq :=
    Std.ReflCmp.compare_self
  rw [redeemerEq, if_pos ⟨rfl, rfl⟩, PlutusData.eq, PlutusData.cmp_eq_compare ha ha, hself]
  simp

theorem findPurpose_of_mem {entries : List (ScriptPurpose × Redeemer)} (hsound : ∀ e ∈ entries, e.2.data.Sound)
    (hmem : (purpose, redeemer) ∈ entries) : ∃ p, findPurpose redeemer entries = .ok (some p) := by
  have hredeemer : redeemer.data.Sound := hsound _ hmem
  induction entries with
  | nil => cases hmem
  | cons e entries ih =>
    obtain ⟨p, r⟩ := e
    obtain ⟨same, hsame⟩ := redeemerEq_of_sound hredeemer (hsound _ List.mem_cons_self)
    cases same with
    | true => exact ⟨p, by rw [findPurpose, hsame]; rfl⟩
    | false =>
      rcases List.mem_cons.1 hmem with heq | hmem
      · cases heq
        cases hsame.symm.trans (redeemerEq_self hredeemer)
      · obtain ⟨p', hp'⟩ := ih (fun e he => hsound e (List.mem_cons_of_mem _ he)) hmem
        exact ⟨p', by rw [findPurpose, hsame, ← hp']; rfl⟩

/-- The redeemers of the transaction. -/
def txRedeemers (tx : GovTx) :
    List Redeemer := (tx.transactionWitnessSet.inner.redeemer.map fun rs => redeemerEntries rs.inner).getD []

theorem getRedeemersInfo_redeemers {toScriptPurpose : RedeemersKey → Outcome Error ScriptPurpose}
    {entries : List (ScriptPurpose × Redeemer)}
    (h : getRedeemersInfo tx.transactionWitnessSet.inner toScriptPurpose = .ok entries) :
    (entries.map Prod.snd).Perm (txRedeemers tx) := by
  refine List.Perm.trans (List.Perm.of_eq ?_)
    (List.perm_insertionSort (fun a b => redeemerKeyLe (redeemerKey a) (redeemerKey b) = true) (txRedeemers tx))
  have hall := Outcome.mapM_eq_ok.1 h
  rw [← List.forall₂_eq_eq_eq, List.forall₂_map_left_iff]
  refine hall.flip.imp fun e r he => ?_
  obtain ⟨p, -, he⟩ := Outcome.bind_eq_ok.1 he
  cases he
  rfl

/-- A context that is made for a redeemer whose script is found is one of the item whose script it is; and there is one for each
redeemer of the transaction. -/
theorem context_of_script {lang : Language} {info : TxInfo} {script : ScriptVersion} {datum : Option PlutusData}
    (hscript : findScript table redeemer tx utxos = .ok (script, datum))
    (hinfo : TxInfo.fromTransaction pr c tx utxos sc lang = .ok info) :
    (∀ ctx, info.intoScriptContext redeemer datum = .ok (some ctx) → ∃ item hash,
      ledgerItem tx utxos redeemer.tag redeemer.index.toNat = some item ∧ item.scriptHash = .ok hash ∧
        table.scripts[hash]? = some script ∧ ctx.Designates item) ∧
    ((∀ r ∈ txRedeemers tx, r.data.Sound) → redeemer ∈ txRedeemers tx →
      ∃ ctx, info.intoScriptContext redeemer datum = .ok (some ctx)) := by
  obtain ⟨inputs, withdrawals, proposals, votes, hinputs, hwithdrawals, hproposals, hvotes, hredeemers⟩ :=
    fromTransaction_redeemers hinfo
  constructor
  · intro ctx hctx
    obtain ⟨found, hfound, hmade⟩ := Outcome.bind_eq_ok.1 hctx
    obtain ⟨purpose, rfl, hcontext⟩ := Option.map_eq_some_iff.1 (Outcome.ok.inj hmade)
    obtain ⟨r, hmem, hkey⟩ := findPurpose_eq_ok hfound
    have hpurpose := getRedeemersInfo_mem hredeemers hmem
    rw [hkey] at hpurpose
    obtain ⟨item, hash, hitem, hhash, hlookup, hdesignates⟩ :=
      item_of_script hinputs hwithdrawals hproposals hvotes hpurpose hscript
    refine ⟨item, hash, hitem, hhash, hlookup, ?_⟩
    rw [← hcontext]
    cases info with
    | v1 info => exact hdesignates
    | v2 info => exact hdesignates
    | v3 info =>
      show (purpose.intoScriptInfo datum).Designates item
      cases purpose <;> cases item <;> exact hdesignates
  · intro hsound hmem
    have hperm := getRedeemersInfo_redeemers hredeemers
    obtain ⟨⟨purpose, r⟩, hentry, rfl⟩ := List.mem_map.1 (hperm.mem_iff.2 hmem)
    obtain ⟨p, hp⟩ := findPurpose_of_mem (fun e he => hsound _ (hperm.mem_iff.1 (List.mem_map_of_mem he))) hentry
    exact ⟨info.contextOf r datum p, by rw [TxInfo.intoScriptContext, hp]; rfl⟩

/-- A redeemer for the first minted policy. -/
def mintRedeemer : Redeemer := ⟨.mint, 0, .boundedBytes [], ⟨0, 0⟩⟩

theorem redeemerBytes_ne : ([0x81] : Bytes) ≠ [] := List.cons_ne_nil _ _

theorem witnessBytes_ne : ([0xa2] : Bytes) ≠ [] := List.cons_ne_nil _ _

/-- A transaction that mints under a Plutus script, with that redeemer. -/
def mintTx : GovTx where
  transactionBody := ⟨[0xa4], { plutusMintBody with }, by simp⟩
  transactionWitnessSet := ⟨[0xa2], { plutusMintWits with
    redeemer := some ⟨[0x81], .list [mintRedeemer], redeemerBytes_ne⟩ }, witnessBytes_ne⟩

theorem mintTx_paired : ∃ info, TxInfo.fromTransaction .debug twoHashes mintTx [] ⟨1, 0, 0⟩ .plutusV2 = .ok info ∧
    (∀ ctx, info.intoScriptContext mintRedeemer none = .ok (some ctx) → ∃ item hash,
      ledgerItem mintTx [] .mint 0 = some item ∧ item.scriptHash = .ok hash ∧
        (DataLookupTable.fromTransaction twoHashes mintTx []).scripts[hash]? = some (.v2 ⟨[1]⟩) ∧ ctx.Designates item) ∧
    ((∀ r ∈ txRedeemers mintTx, r.data.Sound) → mintRedeemer ∈ txRedeemers mintTx →
      ∃ ctx, info.intoScriptContext mintRedeemer none = .ok (some ctx)) :=
  ⟨_, rfl, @context_of_script .debug twoHashes mintTx [] ⟨1, 0, 0⟩ (DataLookupTable.fromTransaction twoHashes mintTx [])
    mintRedeemer .plutusV2 _ (.v2 ⟨[1]⟩) none rfl rfl⟩

end Pallas.Phase2
