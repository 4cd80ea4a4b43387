import Pallas.Validate.ShelleyMa

/-!
# Instantaneous rewards

What `check_mir` makes of the rewards of the two pots, and when that is what a certificate asks for. The pair of maps is
written back with the old rewards of the certificate's pot in the place of the other pot's, the entries that were there before
overwrite those of the certificate, negative amounts are cast to `u64`, and a certificate that moves lovelace between the pots
leaves an empty map.
-/

open Std

namespace Pallas.ShelleyMa
open Alonzo MachineInt

/-- The instantaneous rewards of a pot. -/
def rewardsOf (ds : DState) : InstantaneousRewardSource → FinMap StakeCredential Coin
  | .reserves => ds.instRewards.1
  | .treasury => ds.instRewards.2

/-- What a pot holds. -/
def potOf (acnt : AccountState) : InstantaneousRewardSource → Coin
  | .reserves => acnt.reserves
  | .treasury => acnt.treasury

/-- The rewards of a map together. -/
def totalRewards (rewards : FinMap StakeCredential Coin) : ℤ := (rewards.toList.map fun e => toInt e.2).sum

/-- What is credited to credentials that have no reward yet. -/
def newCredits (credits : FinMap StakeCredential Int64) (rewards : FinMap StakeCredential Coin) : ℤ :=
  ((credits.toList.filter fun e => e.1 ∉ rewards).map fun e => toInt e.2).sum

/-- What a certificate asks for: only the rewards of its source change, and there every credential has the certificate's
amount or what it had before, all of it covered by the pot; a certificate on the other pot changes nothing. -/
structure MirApplied (mir : MoveInstantaneousReward) (acnt : AccountState) (ds ds' : DState) : Prop where
  other : ∀ pot, pot ≠ mir.source → rewardsOf ds' pot = rewardsOf ds pot
  moved : ∀ n, mir.target = .otherAccountingPot n → ∀ pot, rewardsOf ds' pot = rewardsOf ds pot
  credited : ∀ credits, mir.target = .stakeCredentials credits →
    ∀ (stc : StakeCredential) (n : Int64), credits[stc]? = some n →
    0 ≤ toInt n ∧ ∃ amount, (rewardsOf ds' mir.source)[stc]? = some amount ∧ toInt amount = toInt n
  kept : ∀ credits, mir.target = .stakeCredentials credits → ∀ stc, stc ∉ credits →
    (rewardsOf ds' mir.source)[stc]? = (rewardsOf ds mir.source)[stc]?
  covered : ∀ credits, mir.target = .stakeCredentials credits →
    totalRewards (rewardsOf ds' mir.source) ≤ toInt (potOf acnt mir.source)

/-- The certificates that `check_mir` applies so, all of them where both pots have the same rewards: on the other pot, where
there are no rewards; on credentials, with amounts that are not negative, that are those the credentials have already, if
they have any, and that do not bring the total beyond `u64`. -/
def MirFits (mir : MoveInstantaneousReward) (ds : DState) : Prop :=
  rewardsOf ds .reserves = rewardsOf ds .treasury ∧
  match mir.target with
  | .otherAccountingPot _ => rewardsOf ds mir.source = ∅
  | .stakeCredentials credits =>
    (∀ (stc : StakeCredential) (n : Int64), credits[stc]? = some n →
      0 ≤ toInt n ∧ ∀ old, (rewardsOf ds mir.source)[stc]? = some old → toInt old = toInt n) ∧
    totalRewards (rewardsOf ds mir.source) + newCredits credits (rewardsOf ds mir.source) < 2 ^ 64

/-! ### The merged rewards -/

section combined
variable {credits : FinMap StakeCredential Int64} {irPot : FinMap StakeCredential Coin}

theorem getElem?_combinedRewards (stc : StakeCredential) :
    (combinedRewards (.stakeCredentials credits) irPot)[stc]? = irPot[stc]?.or (credits[stc]?.map cast) := by
  rw [combinedRewards, FinMap.getElem?_insertMany_toList, ExtTreeMap.getElem?_map]

theorem toInt_cast_credit {n : Int64} (h : 0 ≤ toInt n) : toInt (cast n : Coin) = toInt n := by
  refine toInt_cast_of_fits ⟨h, ?_⟩
  have hhi : toInt n ≤ 2 ^ 63 - 1 := le_hi n
  show toInt n ≤ 2 ^ 64 - 1
  omega

theorem totalRewards_combined (h : ∀ (stc : StakeCredential) (n : Int64), credits[stc]? = some n → 0 ≤ toInt n) :
    totalRewards (combinedRewards (.stakeCredentials credits) irPot) =
      totalRewards irPot + newCredits credits irPot := by
  have hperm := FinMap.toList_insertMany_perm (credits.map fun _ n => (cast n : Coin)) irPot
  have hsum := (hperm.map fun e => toInt e.2).sum_eq
  rw [totalRewards, combinedRewards, hsum, List.map_append, List.sum_append, totalRewards, newCredits,
    ExtTreeMap.toList_map, List.filter_map, List.map_map]
  refine congrArg _ (congrArg List.sum (List.map_congr_left fun e he => ?_))
  exact toInt_cast_credit (h e.1 e.2 (FinMap.mem_toList.1 (List.mem_filter.1 he).1))

theorem totalRewards_nonneg (rewards : FinMap StakeCredential Coin) : 0 ≤ totalRewards rewards :=
  List.sum_nonneg (List.forall_mem_map.2 fun e _ => lo_le e.2)

end combined

/-! ### The certificate -/

section mir
variable {pr : Profile} {mir : MoveInstantaneousReward} {slot : Slot} {acnt : AccountState} {ds ds' : DState}

/-- A sum that was found to be covered is the exact one, unless that is beyond `u64`. -/
theorem checkMirSums_covered {combined : FinMap StakeCredential Coin} {pot : Coin}
    (h : checkMirSums pr slot combined pot = .ok ()) :
    totalRewards combined ≤ toInt pot ↔ totalRewards combined < 2 ^ 64 := by
  obtain ⟨deadline, -, h⟩ := Outcome.bind_eq_ok.1 h
  obtain ⟨-, h⟩ := Outcome.seq_eq_ok.1 h
  obtain ⟨sum, hsum, h⟩ := Outcome.bind_eq_ok.1 h
  have hle : sum ≤ pot := by simpa [check] using h
  have hpot : toInt pot ≤ 2 ^ 64 - 1 := le_hi pot
  have hnonneg := totalRewards_nonneg combined
  constructor
  · intro hcovered
    omega
  · intro hlt
    have hfold : Outcome.fold (fun s e => (add pr s e.2 : Outcome ValidationError Coin)) 0 combined.toList =
        exact pr (0 + totalRewards combined) := fold_add rfl (fun e : StakeCredential × Coin => e.2) combined.toList 0
    have hfits : Fits Coin (totalRewards combined) := ⟨hnonneg, by show totalRewards combined ≤ 2 ^ 64 - 1; omega⟩
    have hexact : (exact pr (0 + totalRewards combined) : Outcome ValidationError Coin) = .ok sum :=
      hfold.symm.trans hsum
    rw [zero_add, exact_of_fits hfits] at hexact
    rw [← toInt_wrap_of_fits hfits, Outcome.ok.inj hexact]
    exact uInt64_le.1 hle

/-- What a certificate that is accepted leaves behind. -/
theorem checkMir_ok (h : checkMir pr mir slot acnt ds = (ds', .ok ())) :
    checkMirSums pr slot (combinedRewards mir.target (rewardsOf ds mir.source)) (potOf acnt mir.source) = .ok () ∧
      rewardsOf ds' mir.source = combinedRewards mir.target (rewardsOf ds mir.source) ∧
      ∀ pot, pot ≠ mir.source → rewardsOf ds' pot = rewardsOf ds mir.source := by
  unfold checkMir at h
  cases hsource : mir.source with
  | reserves =>
    simp only [hsource] at h
    split at h
    · next hsums =>
      obtain ⟨rfl, -⟩ := Prod.mk.inj h
      refine ⟨hsums, rfl, fun pot hpot => ?_⟩
      cases pot with
      | reserves => exact absurd rfl hpot
      | treasury => rfl
    · next hne =>
      obtain ⟨-, hr⟩ := Prod.mk.inj h
      exact absurd hr hne
  | treasury =>
    simp only [hsource] at h
    split at h
    · next hsums =>
      obtain ⟨rfl, -⟩ := Prod.mk.inj h
      refine ⟨hsums, rfl, fun pot hpot => ?_⟩
      cases pot with
      | reserves => rfl
      | treasury => exact absurd rfl hpot
    · next hne =>
      obtain ⟨-, hr⟩ := Prod.mk.inj h
      exact absurd hr hne

theorem other_iff (h : checkMir pr mir slot acnt ds = (ds', .ok ())) :
    (∀ pot, pot ≠ mir.source → rewardsOf ds' pot = rewardsOf ds pot) ↔
      rewardsOf ds .reserves = rewardsOf ds .treasury := by
  obtain ⟨-, -, hother⟩ := checkMir_ok h
  constructor
  · intro hkept
    cases hsource : mir.source with
    | reserves =>
      have hne : InstantaneousRewardSource.treasury ≠ mir.source := by
        rw [hsource]
        nofun
      rw [← hkept .treasury hne, hother .treasury hne, hsource]
    | treasury =>
      have hne : InstantaneousRewardSource.reserves ≠ mir.source := by
        rw [hsource]
        nofun
      rw [← hkept .reserves hne, hother .reserves hne, hsource]
  · intro hsame pot hpot
    rw [hother pot hpot]
    cases pot with
    | treasury =>
      cases hsource : mir.source with
      | reserves => exact hsame
      | treasury => exact absurd hsource.symm hpot
    | reserves =>
      cases hsource : mir.source with
      | reserves => exact absurd hsource.symm hpot
      | treasury => exact hsame.symm

/-- A certificate that `check_mir` accepts has the effect it asks for exactly where it fits. -/
theorem checkMir_applied_iff (h : checkMir pr mir slot acnt ds = (ds', .ok ())) :
    MirApplied mir acnt ds ds' ↔ MirFits mir ds := by
  obtain ⟨hsums, hsource, -⟩ := checkMir_ok h
  have hothers := other_iff h
  cases htarget : mir.target with
  | otherAccountingPot n =>
    rw [htarget] at hsource
    have hempty : rewardsOf ds' mir.source = ∅ := hsource
    constructor
    · intro happlied
      refine ⟨hothers.1 happlied.other, ?_⟩
      rw [htarget]
      exact (happlied.moved n htarget mir.source).symm.trans hempty
    · rintro ⟨hsame, hnone⟩
      rw [htarget] at hnone
      have hother := hothers.2 hsame
      refine ⟨hother, fun _ _ pot => ?_, ?_, ?_, ?_⟩
      · by_cases hpot : pot = mir.source
        · rw [hpot, hempty]
          exact hnone.symm
        · exact hother pot hpot
      · intro credits hcredits
        cases htarget.symm.trans hcredits
      · intro credits hcredits
        cases htarget.symm.trans hcredits
      · intro credits hcredits
        cases htarget.symm.trans hcredits
  | stakeCredentials credits =>
    rw [htarget] at hsource hsums
    have hcovered := checkMirSums_covered hsums
    rw [← hsource] at hcovered
    constructor
    · intro happlied
      have hcredited := happlied.credited credits htarget
      refine ⟨hothers.1 happlied.other, ?_⟩
      rw [htarget]
      refine ⟨fun stc n hn => ⟨(hcredited stc n hn).1, fun old hold => ?_⟩, ?_⟩
      · obtain ⟨-, amount, hamount, heq⟩ := hcredited stc n hn
        rw [hsource, getElem?_combinedRewards, hold, Option.some_or, Option.some.injEq] at hamount
        rw [hamount, heq]
      · rw [← totalRewards_combined fun stc n hn => (hcredited stc n hn).1, ← hsource]
        exact hcovered.1 (happlied.covered credits htarget)
    · rintro ⟨hsame, hfits⟩
      rw [htarget] at hfits
      obtain ⟨hcredits, htotal⟩ := hfits
      refine ⟨hothers.2 hsame, ?_, ?_, ?_, ?_⟩
      · intro n hn
        cases htarget.symm.trans hn
      · rintro credits' hcredits'
        obtain rfl : credits = credits' := InstantaneousRewardTarget.stakeCredentials.inj (htarget.symm.trans hcredits')
        intro stc n hn
        obtain ⟨hnonneg, hold⟩ := hcredits stc n hn
        refine ⟨hnonneg, ?_⟩
        rw [hsource, getElem?_combinedRewards, hn, Option.map_some]
        cases hstc : (rewardsOf ds mir.source)[stc]? with
        | none => exact ⟨cast n, rfl, toInt_cast_credit hnonneg⟩
        | some old => exact ⟨old, rfl, hold old hstc⟩
      · rintro credits' hcredits' stc hstc
        obtain rfl : credits = credits' := InstantaneousRewardTarget.stakeCredentials.inj (htarget.symm.trans hcredits')
        have hnone : credits[stc]? = none := by
          by_contra hsome
          obtain ⟨n, hn⟩ := Option.ne_none_iff_exists'.1 hsome
          exact hstc (FinMap.mem_of_getElem? hn)
        rw [hsource, getElem?_combinedRewards, hnone, Option.map_none, Option.or_none]
      · rintro credits' hcredits'
        rw [hcovered, hsource, totalRewards_combined fun stc n hn => (hcredits stc n hn).1]
        exact htotal

end mir

/-- Three lovelace from the reserves for a credential without rewards. -/
theorem checkMir_applied_iff_credit :
    let mir : MoveInstantaneousReward :=
      ⟨.reserves, .stakeCredentials ((∅ : FinMap StakeCredential Int64).insert (.addrKeyhash 2) 3)⟩
    let ds' := (checkMir .debug mir 5000000 ⟨10, 10⟩ emptyCertState.dstate).1
    MirApplied mir ⟨10, 10⟩ emptyCertState.dstate ds' ↔ MirFits mir emptyCertState.dstate := by
  intro mir ds'
  have haccepted : (checkMir .debug mir 5000000 ⟨10, 10⟩ emptyCertState.dstate).2 = .ok () := rfl
  exact checkMir_applied_iff (Prod.ext rfl haccepted)

/-- Three lovelace from the treasury, where another credential has rewards from the reserves: these are gone. -/
theorem treasury_certificate_not_applied :
    let mir : MoveInstantaneousReward :=
      ⟨.treasury, .stakeCredentials ((∅ : FinMap StakeCredential Int64).insert (.addrKeyhash 2) 3)⟩
    let ds : DState :=
      { emptyCertState.dstate with instRewards := ((∅ : FinMap StakeCredential Coin).insert (.addrKeyhash 1) 5, ∅) }
    (checkMir .debug mir 5000000 ⟨10, 10⟩ ds).2 = .ok () ∧
      ¬ MirApplied mir ⟨10, 10⟩ ds (checkMir .debug mir 5000000 ⟨10, 10⟩ ds).1 := by
  intro mir ds
  refine ⟨rfl, fun happlied => ?_⟩
  have hother := happlied.other .reserves nofun
  have hread := congrArg (fun rewards : FinMap StakeCredential Coin => rewards[StakeCredential.addrKeyhash 1]?) hother
  have hlost : (rewardsOf (checkMir .debug mir 5000000
      ⟨10, 10⟩ ds).1 .reserves)[StakeCredential.addrKeyhash 1]? = none := rfl
  have hkept : (rewardsOf ds .reserves)[StakeCredential.addrKeyhash 1]? = some 5 := rfl
  cases hlost.symm.trans (hread.trans hkept)

end Pallas.ShelleyMa
