import Pallas.Kes.Evolution

/-!
# The period of a signature

A signature names its period by the path that its public keys take through the tree. Verification takes the path of the
period it is asked for, and at the level where the two part it compares, in one way or another, the public keys of the
two halves of the level. So it fails unless the paths are the same, and they are for the period of the signature. They
are the same as well for every number from `2 ^ d` on if the signature is of the last period: nothing checks that the
number is a period, and it leads to the right at every level.
-/

namespace Pallas.Kes
open Cbor

/-- Under no other key but that of the secret a signature is verified; a key is its compressed form. -/
structure Ed25519.Unforgeable (e : Ed25519) : Prop where
  toBytes_fromBytes : ∀ b key, e.fromBytes b = some key → e.toBytes key = b
  signer : ∀ s key m, e.verifyStrict key m (e.sign s m) = .ok () → e.toBytes key = e.toBytes (e.publicKey s)

/-- The public key of a period. -/
def leafKey (c : Crypto) (d : ℕ) (s : Bytes32) (t : ℕ) : PublicKey :=
  .fromEd25519VerifyingKey c (c.publicKey (leafSeed c d s t))

/-- No other pair of keys has the hash of one in the tree. -/
def HashBinds (c : Crypto) : ℕ → Bytes32 → Prop
  | 0, _ => True
  | d + 1, s =>
    (∀ a b, a.hashPair c b = (rootKey c d (leftSeed c s)).hashPair c (rootKey c d (rightSeed c s)) →
      a = rootKey c d (leftSeed c s) ∧ b = rootKey c d (rightSeed c s)) ∧
    HashBinds c d (leftSeed c s) ∧ HashBinds c d (rightSeed c s)

/-- The periods have public keys of their own. -/
def LeavesDiffer (c : Crypto) (d : ℕ) (s : Bytes32) : Prop :=
  ∀ i < 2 ^ d, ∀ j < 2 ^ d, leafKey c d s i = leafKey c d s j → i = j

section
variable {c : Crypto} {d t p : ℕ} {s s' : Bytes32} {m : Bytes} {pk : PublicKey}

/-! ### The leaves under a key -/

theorem leafKey_left {i : ℕ} (hi : i < 2 ^ d) : leafKey c (d + 1) s i = leafKey c d (leftSeed c s) i := by
  rw [leafKey, leafKey, leafSeed, if_pos hi]

theorem leafKey_right (i : ℕ) : leafKey c (d + 1) s (i + 2 ^ d) = leafKey c d (rightSeed c s) i := by
  rw [leafKey, leafKey, leafSeed, if_neg (by omega), Nat.add_sub_cancel]

theorem LeavesDiffer.left (h : LeavesDiffer c (d + 1) s) : LeavesDiffer c d (leftSeed c s) := by
  intro i hi j hj heq
  have hpow : 2 ^ (d + 1) = 2 ^ d + 2 ^ d := by ring
  rw [← leafKey_left hi, ← leafKey_left hj] at heq
  exact h i (by omega) j (by omega) heq

theorem LeavesDiffer.right (h : LeavesDiffer c (d + 1) s) : LeavesDiffer c d (rightSeed c s) := by
  intro i hi j hj heq
  have hpow : 2 ^ (d + 1) = 2 ^ d + 2 ^ d := by ring
  rw [← leafKey_right, ← leafKey_right] at heq
  have hsame := h (i + 2 ^ d) (by omega) (j + 2 ^ d) (by omega) heq
  omega

theorem leafKey_eq_of_rootKey (hb : HashBinds c d s) (h : rootKey c d s' = rootKey c d s) {i : ℕ} (hi : i < 2 ^ d) :
    leafKey c d s' i = leafKey c d s i := by
  induction d generalizing s s' i with
  | zero => exact h
  | succ d ih =>
    have hpow : 2 ^ (d + 1) = 2 ^ d + 2 ^ d := by ring
    obtain ⟨hpair, hleft, hright⟩ := hb
    obtain ⟨hl, hr⟩ := hpair _ _ h
    rcases lt_or_ge i (2 ^ d) with hlt | hge
    · rw [leafKey_left hlt, leafKey_left hlt]
      exact ih hleft hl hlt
    · obtain ⟨i, rfl⟩ : ∃ k, i = k + 2 ^ d := ⟨i - 2 ^ d, by omega⟩
      rw [leafKey_right, leafKey_right]
      exact ih hright hr (by omega)

theorem rootKey_left_ne_right (hb : HashBinds c (d + 1) s) (hl : LeavesDiffer c (d + 1) s) :
    rootKey c d (leftSeed c s) ≠ rootKey c d (rightSeed c s) := by
  intro heq
  have hpow : 2 ^ (d + 1) = 2 ^ d + 2 ^ d := by ring
  have hpos : 0 < 2 ^ d := Nat.pow_pos (by omega)
  have hleaf := leafKey_eq_of_rootKey hb.2.2 heq hpos
  rw [← leafKey_left hpos, ← leafKey_right] at hleaf
  have hsame := hl 0 (by omega) (0 + 2 ^ d) (by omega) hleaf
  omega

/-! ### Paths -/

theorem verify_node_ok {sigma : Sig c d} {lhsPk rhsPk : PublicKey} (hd : d < 32)
    (h : (Sig.node sigma lhsPk rhsPk).verify p pk m = .ok ()) :
    lhsPk.hashPair c rhsPk = pk ∧
      if p < 2 ^ d then sigma.verify p lhsPk m = .ok () else sigma.verify (p - 2 ^ d) rhsPk m = .ok () := by
  unfold Sig.verify at h
  rw [half_eq hd] at h
  obtain ⟨hpair, h⟩ := Outcome.seq_eq_ok.1 h
  refine ⟨by simpa using hpair, ?_⟩
  rw [Outcome.ok_bind] at h
  split at h
  · next hlt => rwa [if_pos hlt]
  · next hge =>
    have hperiod : u32Sub p (2 ^ d) = .ok (p - 2 ^ d) := if_pos (by omega)
    rw [hperiod, Outcome.ok_bind] at h
    rwa [if_neg hge]

theorem rootKey_of_verify (hu : c.Unforgeable) (hd : d < 32) (h : (signature c d s t m).verify p pk m = .ok ()) :
    pk = rootKey c d s := by
  cases d with
  | zero =>
    unfold signature Sig.verify at h
    obtain ⟨key, hkey, hverify⟩ := Outcome.bind_eq_ok.1 h
    have hfrom : c.fromBytes pk.bytes = some key := by
      unfold PublicKey.asEd25519 at hkey
      split at hkey
      · next heq => exact heq.trans (congrArg some (Outcome.ok.inj hkey))
      · cases hkey
    have hok : c.verifyStrict key m (c.sign s m) = .ok () := by
      unfold verifyStrict at hverify
      split at hverify
      · next heq => exact heq
      · cases hverify
    have hsigner := hu.signer s key m hok
    rw [hu.toBytes_fromBytes _ _ hfrom] at hsigner
    obtain ⟨bytes⟩ := pk
    exact congrArg PublicKey.mk hsigner
  | succ d =>
    unfold signature at h
    exact (verify_node_ok (by omega) h).1.symm

theorem period_of_verify (hu : c.Unforgeable) (hd : d < 32) (hb : HashBinds c d s) (hl : LeavesDiffer c d s)
    (ht : t < 2 ^ d) (h : (signature c d s t m).verify p (rootKey c d s) m = .ok ()) : min p (2 ^ d - 1) = t := by
  induction d generalizing s t p with
  | zero =>
    simp at ht ⊢
    exact ht.symm
  | succ d ih =>
    have hpow : 2 ^ (d + 1) = 2 ^ d + 2 ^ d := by ring
    have hne := rootKey_left_ne_right hb hl
    unfold signature at h
    obtain ⟨-, h⟩ := verify_node_ok (by omega) h
    rcases lt_or_ge p (2 ^ d) with hp | hp <;> rcases lt_or_ge t (2 ^ d) with htl | htr
    · rw [if_pos hp, if_pos htl] at h
      have hsame := ih (by omega) hb.2.1 hl.left htl h
      omega
    · rw [if_pos hp, if_neg (by omega)] at h
      exact absurd (rootKey_of_verify hu (by omega) h) hne
    · rw [if_neg (by omega), if_pos htl] at h
      exact absurd (rootKey_of_verify hu (by omega) h).symm hne
    · rw [if_neg (by omega), if_neg (by omega)] at h
      have hsame := ih (by omega) hb.2.2 hl.right (by omega) h
      omega

theorem period_of_recompute (hd : d < 32) (hb : HashBinds c d s) (hl : LeavesDiffer c d s) (ht : t < 2 ^ d)
    (h : (compactSignature c d s t m).recompute p m = .ok (rootKey c d s)) : min p (2 ^ d - 1) = t := by
  induction d generalizing s t p with
  | zero =>
    simp at ht ⊢
    exact ht.symm
  | succ d ih =>
    have hpow : 2 ^ (d + 1) = 2 ^ d + 2 ^ d := by ring
    have hne := rootKey_left_ne_right hb hl
    have hperiod : 2 ^ d ≤ p → u32Sub p (2 ^ d) = .ok (p - 2 ^ d) := fun hp => if_pos hp
    unfold compactSignature at h
    rcases lt_or_ge t (2 ^ d) with htl | htr
    · rw [if_pos htl] at h
      unfold CompactSig.recompute at h
      rw [half_eq (by omega), Outcome.ok_bind] at h
      rcases lt_or_ge p (2 ^ d) with hp | hp
      · rw [if_pos hp] at h
        obtain ⟨key, hkey, hroot⟩ := Outcome.bind_eq_ok.1 h
        obtain ⟨rfl, -⟩ := hb.1 _ _ (Outcome.ok.inj hroot)
        have hsame := ih (by omega) hb.2.1 hl.left htl hkey
        omega
      · rw [if_neg (by omega), hperiod hp, Outcome.ok_bind] at h
        obtain ⟨key, -, hroot⟩ := Outcome.bind_eq_ok.1 h
        exact absurd (hb.1 _ _ (Outcome.ok.inj hroot)).1.symm hne
    · rw [if_neg (by omega)] at h
      unfold CompactSig.recompute at h
      rw [half_eq (by omega), Outcome.ok_bind] at h
      rcases lt_or_ge p (2 ^ d) with hp | hp
      · rw [if_pos hp] at h
        obtain ⟨key, -, hroot⟩ := Outcome.bind_eq_ok.1 h
        exact absurd (hb.1 _ _ (Outcome.ok.inj hroot)).2 hne
      · rw [if_neg (by omega), hperiod hp, Outcome.ok_bind] at h
        obtain ⟨key, hkey, hroot⟩ := Outcome.bind_eq_ok.1 h
        obtain ⟨-, rfl⟩ := hb.1 _ _ (Outcome.ok.inj hroot)
        have hsame := ih (by omega) hb.2.2 hl.right (by omega) hkey
        omega

theorem period_of_verifyCompact (hd : d < 32) (hb : HashBinds c d s) (hl : LeavesDiffer c d s) (ht : t < 2 ^ d)
    (h : (compactSignature c d s t m).verify p (rootKey c d s) m = .ok ()) : min p (2 ^ d - 1) = t := by
  unfold CompactSig.verify at h
  obtain ⟨key, hkey, hroot⟩ := Outcome.bind_eq_ok.1 h
  obtain rfl : rootKey c d s = key := by simpa using hroot
  exact period_of_recompute hd hb hl ht hkey

/-! ### Signatures that are made -/

/-- What a key after some updates signs is verified for no other period. -/
def BindsPeriod (c : Crypto) (d : ℕ) (s : Bytes32) (m buf : Bytes) (t p : ℕ) : Prop :=
  ∀ pk rest first key, keygen c d s.toList buf = (.ok (pk, rest), first) → updates c d t first = (.ok (), key) →
    (∀ sigma, SumKes.sign c d key m = .ok sigma → sigma.verify p pk m = .ok () → p = t) ∧
    ∀ sigma, SumCompactKes.sign c d key m = .ok sigma → sigma.verify p pk m = .ok () → p = t

theorem not_bindsPeriod (hc : c.Correct) (hpos : 0 < d) (hd : d < 32) (ht : t + 1 = 2 ^ d) (hp : 2 ^ d ≤ p)
    {buf : Bytes}
    (hbuf : buf.length = size d + 4) (s : Bytes32) (m : Bytes) : ¬ BindsPeriod c d s m buf t p := by
  intro h
  have hgen := keygen_eq (c := c) hpos s hbuf
  have hkey := updates_eq (c := c) (s := s) hpos hd (show t < 2 ^ d by omega)
  have hsign := (sign_eq (c := c) (s := s) (m := m) hpos hd (show t < 2 ^ d by omega)).1
  have hsame := (h _ _ _ _ hgen hkey).1 _ hsign (verify_signature hc hd (by omega))
  omega

/-- The period is bound unless it is the last and a number is accepted for it that is no period. -/
theorem bindsPeriod_iff (hc : c.Correct) (hu : c.Unforgeable) (hpos : 0 < d) (hd : d < 32) (hb : HashBinds c d s)
    (hl : LeavesDiffer c d s) (ht : t < 2 ^ d) {buf : Bytes} (hbuf : buf.length = size d + 4) (m : Bytes) (p : ℕ) :
    BindsPeriod c d s m buf t p ↔ ¬ (t + 1 = 2 ^ d ∧ 2 ^ d ≤ p) := by
  constructor
  · rintro h ⟨hlast, hp⟩
    exact not_bindsPeriod hc hpos hd hlast hp hbuf s m h
  · intro hcond pk rest first key hgen hkey
    have hgen' := (keygen_eq (c := c) hpos s hbuf).symm.trans hgen
    simp only [Prod.mk.injEq, Except.ok.injEq] at hgen'
    obtain ⟨⟨rfl, -⟩, rfl⟩ := hgen'
    obtain rfl := (Prod.mk.inj ((updates_eq hpos hd ht).symm.trans hkey)).2
    obtain ⟨hsign, hcompact⟩ := sign_eq (c := c) (s := s) (m := m) hpos hd ht
    refine ⟨fun sigma hsigma hverify => ?_, fun sigma hsigma hverify => ?_⟩
    · obtain rfl := Outcome.ok.inj (hsign.symm.trans hsigma)
      have hmin := period_of_verify hu hd hb hl ht hverify
      omega
    · obtain rfl := Outcome.ok.inj (hcompact.symm.trans hsigma)
      have hmin := period_of_verifyCompact hd hb hl ht hverify
      omega

end

theorem transparent_unforgeable : transparent.Unforgeable := by
  refine ⟨fun b key h => (Option.some.inj h).symm, fun (s key : Bytes32) m h => ?_⟩
  change (if (s, m) = (key, m) then .ok () else .error "signature error" : Except String Unit) = .ok () at h
  split at h
  · next heq => exact (Prod.mk.inj heq).1.symm
  · cases h

theorem transparent_seeds (s : Bytes32) :
    leftSeed transparent s = .replicate 32 1 ∧ rightSeed transparent s = .replicate 32 2 :=
  ⟨if_pos (by simp), if_pos (by simp)⟩

theorem transparent_hashBinds (s : Bytes32) : HashBinds transparent 1 s := by
  refine ⟨fun a b h => ?_, trivial, trivial⟩
  obtain ⟨hleft, hright⟩ := transparent_seeds s
  simp only [rootKey, hleft, hright] at h ⊢
  obtain ⟨a⟩ := a
  obtain ⟨b⟩ := b
  have hlen : (a.toList ++ b.toList).length ≠ 33 := by simp
  have hroot : (PublicKey.hashPair transparent ⟨.replicate 32 1⟩ ⟨.replicate 32 2⟩) = ⟨.replicate 32 3⟩ := by decide
  have h' : transparent.blake2b (a.toList ++ b.toList) = .replicate 32 3 :=
    congrArg PublicKey.bytes (h.trans hroot)
  change (if _ then _ else if _ then _ else _) = _ at h'
  rw [if_neg hlen] at h'
  split at h'
  · next heq =>
    obtain ⟨ha, hb⟩ := List.append_inj heq (by simp)
    exact ⟨congrArg PublicKey.mk (Vector.toList_inj.1 ha), congrArg PublicKey.mk (Vector.toList_inj.1 hb)⟩
  · exact absurd h' (by decide)

theorem transparent_leavesDiffer (s : Bytes32) : LeavesDiffer transparent 1 s := by
  obtain ⟨hleft, hright⟩ := transparent_seeds s
  have hkeys : leafKey transparent 1 s 0 ≠ leafKey transparent 1 s 1 := by
    simp only [leafKey, leafSeed, hleft, hright]
    decide
  intro i hi j hj heq
  interval_cases i <;> interval_cases j
  · rfl
  · exact absurd heq hkeys
  · exact absurd heq.symm hkeys
  · rfl

/-- The second period of a key of depth 1, verified for the first. -/
theorem bindsPeriod_first : BindsPeriod transparent 1 (.replicate 32 7) [1, 2, 3] (List.replicate (size 1 + 4) 0) 1 0 :=
  (bindsPeriod_iff transparent_correct transparent_unforgeable (by decide) (by decide) (transparent_hashBinds _)
    (transparent_leavesDiffer _) (by decide) (by simp) _ _).2 (by decide)

/-- Its signature is good for period 2, which it does not have. -/
theorem period_not_bound : ¬ ∀ c : Crypto, c.Correct → c.Unforgeable → ∀ d s m buf t p, 0 < d → d < 32 →
    HashBinds c d s → LeavesDiffer c d s → buf.length = size d + 4 → t < 2 ^ d → p < 2 ^ 32 →
      BindsPeriod c d s m buf t p := by
  intro h
  have hzero : (List.replicate (size 1 + 4) (0 : UInt8)).length = size 1 + 4 := by simp
  exact not_bindsPeriod transparent_correct (by decide) (by decide) rfl (p := 2) (by decide) hzero (.replicate 32 7) [1, 2, 3]
    (h transparent transparent_correct transparent_unforgeable _ _ _ _ _ _ (by decide) (by decide)
      (transparent_hashBinds _) (transparent_leavesDiffer _) hzero (by decide) (by decide))

end Pallas.Kes
