import Pallas.Kes.Sum

/-!
# Keys over their periods

The seeds of a key form a tree of the depth of the scheme, with the secrets of the periods at its leaves from left to
right. `keyBytes` is the buffer in a period: at every level the key of the half that the period lies in, and the seed of
the right half as long as it has not been entered. `keygen` writes the buffer of the first period and `update` turns that
of a period into that of the next, so a run of updates is followed by one induction; everything else is read off
`keyBytes`.
-/

namespace Pallas.Kes
open Slices Cbor

/-- What `ed25519_dalek` promises: keys survive compression, and a signature is verified by the key of its secret. -/
structure Ed25519.Correct (e : Ed25519) : Prop where
  fromBytes_toBytes : ∀ s, e.fromBytes (e.toBytes (e.publicKey s)) = some (e.publicKey s)
  verifyStrict_sign : ∀ s m, e.verifyStrict (e.publicKey s) m (e.sign s m) = .ok ()

variable (c : Crypto)

/-! ### The tree of seeds -/

def leftSeed (s : Bytes32) : Bytes32 := c.blake2b (1 :: s.toList)

def rightSeed (s : Bytes32) : Bytes32 := c.blake2b (2 :: s.toList)

/-- The public key of a tree. -/
def rootKey : ℕ → Bytes32 → PublicKey
  | 0, s => .fromEd25519VerifyingKey c (c.publicKey s)
  | d + 1, s => (rootKey d (leftSeed c s)).hashPair c (rootKey d (rightSeed c s))

/-- The secret of a period. -/
def leafSeed : ℕ → Bytes32 → ℕ → Bytes32
  | 0, s, _ => s
  | d + 1, s, t => if t < 2 ^ d then leafSeed d (leftSeed c s) t else leafSeed d (rightSeed c s) (t - 2 ^ d)

/-- The key in a period. -/
def keyBytes : ℕ → Bytes32 → ℕ → Bytes
  | 0, s, _ => s.toList
  | d + 1, s, t =>
    (if t < 2 ^ d then keyBytes d (leftSeed c s) t else keyBytes d (rightSeed c s) (t - 2 ^ d)) ++
      (if t < 2 ^ d then (rightSeed c s).toList else Seed.zeros) ++
      ((rootKey c d (leftSeed c s)).bytes.toList ++ (rootKey c d (rightSeed c s)).bytes.toList)

/-- The signature of a message in a period. -/
def signature : (d : ℕ) → Bytes32 → ℕ → Bytes → Sig c d
  | 0, s, _, m => .leaf (c.sign s m)
  | d + 1, s, t, m =>
    .node (if t < 2 ^ d then signature d (leftSeed c s) t m else signature d (rightSeed c s) (t - 2 ^ d) m)
      (rootKey c d (leftSeed c s)) (rootKey c d (rightSeed c s))

/-- The compact one keeps the public key of the other half. -/
def compactSignature : (d : ℕ) → Bytes32 → ℕ → Bytes → CompactSig c d
  | 0, s, _, m => .leaf (c.sign s m) (c.publicKey s)
  | d + 1, s, t, m =>
    if t < 2 ^ d then .node (compactSignature d (leftSeed c s) t m) (rootKey c d (rightSeed c s))
    else .node (compactSignature d (rightSeed c s) (t - 2 ^ d) m) (rootKey c d (leftSeed c s))

variable {c} {d t : ℕ} {s : Bytes32} {buf x z : Bytes}

@[simp] theorem length_zeros : Seed.zeros.length = 32 := rfl

theorem size_succ (d : ℕ) : size (d + 1) = size d + 96 := by
  simp only [size, publicKeySize]
  ring

theorem bytes32?_toList (v : Bytes32) : bytes32? v.toList = some v := by
  rw [bytes32?, dif_pos (by simp)]
  rfl

theorem secretOf_toList (v : Bytes32) : secretOf v.toList = .ok v := by
  rw [secretOf, bytes32?_toList]

theorem fromBytesExpect_toList (pk : PublicKey) : PublicKey.fromBytesExpect pk.bytes.toList = .ok pk := by
  rw [PublicKey.fromBytesExpect, PublicKey.fromBytes, bytes32?_toList]

theorem total_eq (hd : d < 32) : Depth.total d = .ok (2 ^ d) := if_pos (Nat.pow_lt_pow_right (by omega) hd)

theorem half_eq (hd : d < 32) : Depth.half (d + 1) = .ok (2 ^ d) := by
  rw [Depth.half, if_pos (by omega), Nat.add_sub_cancel, total_eq hd]

@[simp] theorem length_keyBytes (d : ℕ) (s : Bytes32) (t : ℕ) : (keyBytes c d s t).length = size d := by
  induction d generalizing s t with
  | zero => simp [keyBytes, size, individualSecretSize]
  | succ d ih =>
    simp only [keyBytes, List.length_append, size_succ]
    split <;> simp [ih]

/-! ### Generation -/

theorem splitSlice_eq (s : Bytes32) :
    Seed.splitSlice c s.toList = (.ok (leftSeed c s, rightSeed c s), Seed.zeros) := by
  refine (Proc.bind_ok rfl).trans ?_
  refine (Proc.bind_ok (assert_true (by simp [Seed.size]))).trans ?_
  exact (Proc.bind_ok (copyFromSlice_ok (by simp))).trans rfl

/-- What generation from a seed leaves behind. -/
structure Generates (c : Crypto) (d : ℕ) : Prop where
  passed : ∀ s buf, buf.length = size d →
    keygenSlice c d (some s.toList) buf = (.ok (rootKey c d s, some Seed.zeros), keyBytes c d s 0)
  stored : ∀ s x, x.length = size d →
    keygenSlice c d none (x ++ s.toList) = (.ok (rootKey c d s, none), keyBytes c d s 0 ++ Seed.zeros)

theorem keygenOf_eq (h : Generates c d) (s : Bytes32) (hbuf : buf.length = size d + 4) :
    keygenOf d (keygenSlice c d) s.toList buf =
      (.ok (rootKey c d s, some Seed.zeros),
        keyBytes c d s 0 ++ if d ≠ 0 then bigEndian 4 0 else buf.drop (size d)) := by
  have hfront : (buf.take (size d)).length = size d := by simp [hbuf]
  have hgen := within_front (z := buf.drop (size d)) hfront (h.passed s _ hfront)
  rw [List.take_append_drop] at hgen
  refine (Proc.bind_ok rfl).trans ?_
  refine (Proc.bind_ok (assert_true (by simpa using hbuf))).trans ?_
  refine (Proc.bind_ok (assert_true (by simp))).trans ?_
  refine (Proc.bind_ok hgen).trans ?_
  by_cases hd : d = 0
  · simp [hd]
  · have hperiod : after (size d) (copyFromSlice (bigEndian 4 0) : OnSlice Unit)
        (keyBytes c d s 0 ++ buf.drop (size d)) =
        (.ok (), keyBytes c d s 0 ++ bigEndian 4 0) :=
      after_append (by simp) (copyFromSlice_ok (by simp [hbuf, length_bigEndian]))
    simp only [hd, ne_eq, not_false_eq_true, if_true]
    exact (Proc.bind_ok hperiod).trans rfl

theorem keygenHalves_eq (h : Generates c d) (s : Bytes32) {x : Bytes} (hx : x.length = size (d + 1)) (z : Bytes) :
    keygenHalves c d (keygenSlice c d) (leftSeed c s) (rightSeed c s) (x ++ z) =
      (.ok (rootKey c (d + 1) s), keyBytes c (d + 1) s 0 ++ z) := by
  obtain ⟨k, x, rfl, hk⟩ : ∃ k y, x = k ++ y ∧ k.length = size d :=
    ⟨_, _, (List.take_append_drop (size d) x).symm, by simp [hx, size_succ]⟩
  obtain ⟨slot, x, rfl, hslot⟩ : ∃ k y, x = k ++ y ∧ k.length = 32 :=
    ⟨_, _, (List.take_append_drop 32 x).symm, by simp [size_succ, hk] at hx ⊢; omega⟩
  obtain ⟨p0, p1, rfl, hp0⟩ : ∃ k y, x = k ++ y ∧ k.length = 32 :=
    ⟨_, _, (List.take_append_drop 32 x).symm, by simp [size_succ, hk, hslot] at hx ⊢; omega⟩
  have hp1 : p1.length = 32 := by simp [size_succ, hk, hslot, hp0] at hx; omega
  set left := rootKey c d (leftSeed c s) with hleft
  set right := rootKey c d (rightSeed c s) with hright
  set seed := (rightSeed c s).toList with hseed
  have hlen : seed.length = 32 := by simp [hseed]
  have hcopy : within (size d) (size d + 32) (copyFromSlice seed : OnSlice Unit) (k ++ slot ++ (p0 ++ p1 ++ z)) =
      (.ok (), k ++ seed ++ (p0 ++ p1 ++ z)) :=
        within_append hk (by rw [hslot]) (copyFromSlice_ok (by rw [hslot, hlen]))
  have hsub : within 0 (size d) (keygenSlice c d (some (leftSeed c s).toList)) (k ++ (seed ++ (p0 ++ p1 ++ z))) =
      (.ok (left, some Seed.zeros), keyBytes c d (leftSeed c s) 0 ++ (seed ++ (p0 ++ p1 ++ z))) :=
    within_front hk (h.passed _ _ hk)
  have hzeros : (List.replicate (size d + 4) (0 : UInt8)).length = size d + 4 := by simp
  have htemp := keygenOf_eq h (rightSeed c s) hzeros
  have hlhs : within (size d + 32) (size d + 64) (copyFromSlice left.bytes.toList : OnSlice Unit)
      (keyBytes c d (leftSeed c s) 0 ++ seed ++ p0 ++ (p1 ++ z)) =
      (.ok (), keyBytes c d (leftSeed c s) 0 ++ seed ++ left.bytes.toList ++ (p1 ++ z)) :=
    within_append (by simp [hlen]) (by rw [hp0]) (copyFromSlice_ok (by simp [hp0]))
  have hrhs : within (size d + 64) (size d + 96) (copyFromSlice right.bytes.toList : OnSlice Unit)
      (keyBytes c d (leftSeed c s) 0 ++ seed ++ left.bytes.toList ++ p1 ++ z) =
      (.ok (), keyBytes c d (leftSeed c s) 0 ++ seed ++ left.bytes.toList ++ right.bytes.toList ++ z) :=
    within_append (by simp [hlen]) (by rw [hp1]) (copyFromSlice_ok (by simp [hp1]))
  have hbuf : keyBytes c (d + 1) s 0 ++ z =
      keyBytes c d (leftSeed c s) 0 ++ seed ++ left.bytes.toList ++ right.bytes.toList ++ z := by
    rw [keyBytes, if_pos (by positivity), if_pos (by positivity)]
    simp only [List.append_assoc, hleft, hright, hseed]
  simp only [List.append_assoc] at hcopy hsub hlhs hrhs hbuf ⊢
  refine (Proc.bind_ok hcopy).trans ?_
  refine (Proc.bind_ok hsub).trans ?_
  refine (Proc.bind_ok (on_ok htemp)).trans ?_
  refine (Proc.bind_ok hlhs).trans ?_
  refine (Proc.bind_ok hrhs).trans ?_
  rw [hbuf]
  rfl

theorem generates (c : Crypto) (d : ℕ) : Generates c d := by
  induction d with
  | zero =>
    refine ⟨fun s buf hbuf => ?_, fun s x hx => ?_⟩
    · have hcopy : (copyFromSlice s.toList : OnSlice Unit) buf = (.ok (), s.toList) :=
        copyFromSlice_ok (by simp [hbuf, size, individualSecretSize])
      have hkey : within 0 (size 0) (copyFromSlice s.toList : OnSlice Unit) buf = (.ok (), s.toList) := by
        simpa using within_front (z := []) hbuf hcopy
      have hsecret : lift (secretOf s.toList) buf = (.ok s, buf) := by
        rw [secretOf_toList]
        rfl
      refine (Proc.bind_ok rfl).trans ?_
      refine (Proc.bind_ok (assert_true (by simpa using hbuf))).trans ?_
      refine (Proc.bind_ok hsecret).trans ?_
      refine (Proc.bind_ok (on_ok (copyFromSlice_ok (by simp)))).trans ?_
      exact (Proc.bind_ok hkey).trans rfl
    · have hseed : after (size 0) (copyFromSlice Seed.zeros : OnSlice Unit) (x ++ s.toList) =
          (.ok (), x ++ Seed.zeros) :=
        after_append hx (copyFromSlice_ok (by simp))
      have hkey : within 0 (size 0) (copyFromSlice s.toList : OnSlice Unit) (x ++ Seed.zeros) =
          (.ok (), s.toList ++ Seed.zeros) :=
        within_front hx (copyFromSlice_ok (by simp [hx, size, individualSecretSize]))
      refine (Proc.bind_ok rfl).trans ?_
      refine (Proc.bind_ok (assert_true (by simp [hx, Seed.size]))).trans ?_
      have hsecret : lift (secretOf ((x ++ s.toList).drop (size 0))) (x ++ s.toList) = (.ok s, x ++ s.toList) := by
        rw [← hx, List.drop_left, secretOf_toList]
        rfl
      refine (Proc.bind_ok hsecret).trans ?_
      refine (Proc.bind_ok hseed).trans ?_
      exact (Proc.bind_ok hkey).trans rfl
  | succ d ih =>
    refine ⟨fun s buf hbuf => ?_, fun s x hx => ?_⟩
    · have hhalves := keygenHalves_eq ih s hbuf []
      simp only [List.append_nil] at hhalves
      refine (Proc.bind_ok rfl).trans ?_
      refine (Proc.bind_ok (assert_true (by simpa using hbuf))).trans ?_
      refine (Proc.bind_ok (assert_true (by simp [Seed.size]))).trans ?_
      refine (Proc.bind_ok (on_ok (splitSlice_eq s))).trans ?_
      exact (Proc.bind_ok hhalves).trans rfl
    · refine (Proc.bind_ok rfl).trans ?_
      refine (Proc.bind_ok (assert_true (by simp [hx, Seed.size]))).trans ?_
      refine (Proc.bind_ok (after_append hx (splitSlice_eq s))).trans ?_
      exact (Proc.bind_ok (keygenHalves_eq ih s hx Seed.zeros)).trans rfl

/-! ### Updates -/

theorem keyBytes_left (ht : t < 2 ^ d) : keyBytes c (d + 1) s t = keyBytes c d (leftSeed c s) t ++
    ((rightSeed c s).toList ++
      ((rootKey c d (leftSeed c s)).bytes.toList ++ (rootKey c d (rightSeed c s)).bytes.toList)) := by
  rw [keyBytes, if_pos ht, if_pos ht, List.append_assoc]

theorem keyBytes_right (ht : 2 ^ d ≤ t) : keyBytes c (d + 1) s t = keyBytes c d (rightSeed c s) (t - 2 ^ d) ++
    (Seed.zeros ++ ((rootKey c d (leftSeed c s)).bytes.toList ++ (rootKey c d (rightSeed c s)).bytes.toList)) := by
  rw [keyBytes, if_neg (by omega), if_neg (by omega), List.append_assoc]

theorem updateSlice_eq (hd : d < 32) (ht : t < 2 ^ d) :
    updateSlice c d t (keyBytes c d s t) =
      if t + 1 < 2 ^ d then (.ok (), keyBytes c d s (t + 1))
      else (.error (.error .keyCannotBeUpdatedMore), keyBytes c d s t) := by
  induction d generalizing s t with
  | zero =>
    obtain rfl : t = 0 := by simpa using ht
    rfl
  | succ d ih =>
    have hpow : 2 ^ (d + 1) = 2 ^ d + 2 ^ d := by ring
    have hu32 : 2 ^ (d + 1) < 2 ^ 32 := Nat.pow_lt_pow_right (by omega) hd
    have hadd : u32Add t 1 = .ok (t + 1) := if_pos (by omega)
    have hnext : ∀ b : Bytes, (lift (u32Add t 1)) b = (.ok (t + 1), b) := fun b => by rw [hadd]; rfl
    have htotal : ∀ b : Bytes, (lift (Depth.total (d + 1))) b = (.ok (2 ^ (d + 1)), b) := fun b => by
      rw [total_eq hd]
      rfl
    have hhalf : ∀ b : Bytes, (lift (Depth.half (d + 1))) b = (.ok (2 ^ d), b) := fun b => by
      rw [half_eq (by omega)]
      rfl
    refine (Proc.bind_ok (hnext _)).trans ?_
    refine (Proc.bind_ok (htotal _)).trans ?_
    by_cases hlast : t + 1 = 2 ^ (d + 1)
    · rw [if_pos hlast, if_neg (by omega)]
      rfl
    rw [if_neg hlast, if_pos (by omega)]
    refine (Proc.bind_ok (hhalf _)).trans ?_
    rcases lt_trichotomy (t + 1) (2 ^ d) with hlt | heq | hgt
    · have hsub := ih (s := leftSeed c s) (by omega) (show t < 2 ^ d by omega)
      rw [if_pos hlt] at hsub
      rw [if_pos hlt, keyBytes_left (by omega), keyBytes_left hlt]
      exact within_front (length_keyBytes _ _ _) hsub
    · have hgen := (generates c d).stored (rightSeed c s) _ (length_keyBytes (c := c) d (leftSeed c s) t)
      have hlen : (keyBytes c d (leftSeed c s) t ++ (rightSeed c s).toList).length = size d + 32 := by simp
      have hwithin := within_front (z := (rootKey c d (leftSeed c s)).bytes.toList ++
        (rootKey c d (rightSeed c s)).bytes.toList) hlen hgen
      rw [if_neg (by omega), if_pos heq, keyBytes_left (by omega), keyBytes_right heq.ge, heq, Nat.sub_self]
      simp only [List.append_assoc] at hwithin ⊢
      exact (Proc.bind_ok hwithin).trans rfl
    · have hperiod : ∀ b : Bytes, (lift (u32Sub t (2 ^ d))) b = (.ok (t - 2 ^ d), b) := fun b => by
        rw [u32Sub, if_pos (by omega)]
        rfl
      have hsub := ih (s := rightSeed c s) (by omega) (show t - 2 ^ d < 2 ^ d by omega)
      rw [if_pos (by omega), show t - 2 ^ d + 1 = t + 1 - 2 ^ d by omega] at hsub
      rw [if_neg (by omega), if_neg (by omega), keyBytes_right (by omega), keyBytes_right (by omega)]
      refine (Proc.bind_ok (hperiod _)).trans ?_
      exact within_front (length_keyBytes _ _ _) hsub

/-- A key as the buffer holds it, with its period. -/
def storedKey (c : Crypto) (d : ℕ) (s : Bytes32) (t : ℕ) : Bytes := keyBytes c d s t ++ bigEndian 4 t

theorem storedPeriod_eq (ht : t < 2 ^ 32) : storedPeriod d (storedKey c d s t) = .ok t := by
  have hlen : (bigEndian 4 t).length = 4 := length_bigEndian _ _
  have hslice : (slice (storedKey c d s t) (size d) (storedKey c d s t).length : Call Bytes) = .ok (bigEndian 4 t) := by
    have h := slice_append (ε := Error) (z := []) (length_keyBytes (c := c) d s t)
      (show size d + (bigEndian 4 t).length = (storedKey c d s t).length by simp [storedKey])
    rwa [List.append_nil] at h
  rw [storedPeriod, hslice]
  simp only [Outcome.ok_bind, hlen, if_true]
  rw [ofBigEndian_bigEndian (by omega)]
  rfl

theorem update_next (hpos : 0 < d) (hd : d < 32) (ht : t + 1 < 2 ^ d) :
    update c d (storedKey c d s t) = (.ok (), storedKey c d s (t + 1)) := by
  have hu32 : 2 ^ d < 2 ^ 32 := Nat.pow_lt_pow_right (by omega) hd
  have hperiod : lift (storedPeriod d (storedKey c d s t)) (storedKey c d s t) = (.ok t, storedKey c d s t) := by
    rw [storedPeriod_eq (by omega)]
    rfl
  have hslice := updateSlice_eq (c := c) (s := s) hd (show t < 2 ^ d by omega)
  rw [if_pos ht] at hslice
  have hkey := within_front (z := bigEndian 4 t) (length_keyBytes d s t) hslice
  have hadd : ∀ b : Bytes, (lift (u32Add t 1)) b = (.ok (t + 1), b) := fun b => by
    rw [u32Add, if_pos (by omega)]
    rfl
  have hcopy : (copyFromSlice (bigEndian 4 (t + 1)) : OnSlice Unit) (bigEndian 4 t) = (.ok (), bigEndian 4 (t + 1)) :=
    copyFromSlice_ok (by simp [length_bigEndian])
  rw [update, if_neg (by omega)]
  refine (Proc.bind_ok rfl).trans ?_
  refine (Proc.bind_ok hperiod).trans ?_
  refine (Proc.bind_ok hkey).trans ?_
  refine (Proc.bind_ok (hadd _)).trans ?_
  exact after_append (length_keyBytes _ _ _) hcopy

theorem update_last (hpos : 0 < d) (hd : d < 32) (ht : t + 1 = 2 ^ d) :
    update c d (storedKey c d s t) = (.error (.error .keyCannotBeUpdatedMore), storedKey c d s t) := by
  have hu32 : 2 ^ d < 2 ^ 32 := Nat.pow_lt_pow_right (by omega) hd
  have hperiod : lift (storedPeriod d (storedKey c d s t)) (storedKey c d s t) = (.ok t, storedKey c d s t) := by
    rw [storedPeriod_eq (by omega)]
    rfl
  have hslice := updateSlice_eq (c := c) (s := s) hd (show t < 2 ^ d by omega)
  rw [if_neg (by omega)] at hslice
  have hkey := within_front (z := bigEndian 4 t) (length_keyBytes d s t) hslice
  rw [update, if_neg (by omega)]
  refine (Proc.bind_ok rfl).trans ?_
  refine (Proc.bind_ok hperiod).trans ?_
  exact Proc.bind_error hkey

theorem keygen_eq (hpos : 0 < d) (s : Bytes32) (hbuf : buf.length = size d + 4) :
    keygen c d s.toList buf = (.ok (rootKey c d s, some Seed.zeros), storedKey c d s 0) := by
  have h := keygenOf_eq (generates c d) s hbuf
  rwa [if_pos (by omega)] at h

/-- Some updates in a row. -/
def updates (c : Crypto) (d : ℕ) : ℕ → OnSlice Unit
  | 0 => pure ()
  | t + 1 => do
    updates c d t
    update c d

theorem updates_eq (hpos : 0 < d) (hd : d < 32) (ht : t < 2 ^ d) :
    updates c d t (storedKey c d s 0) = (.ok (), storedKey c d s t) := by
  induction t with
  | zero => rfl
  | succ t ih => exact (Proc.bind_ok (ih (by omega))).trans (update_next hpos hd ht)

/-! ### What is read off a key -/

theorem getPeriod_eq (hpos : 0 < d) (hd : d < 32) (ht : t < 2 ^ d) : getPeriod d (storedKey c d s t) = .ok t := by
  have hu32 : 2 ^ d < 2 ^ 32 := Nat.pow_lt_pow_right (by omega) hd
  rw [getPeriod, if_neg (by omega), storedPeriod_eq (by omega)]

theorem keyBytes_parts (d : ℕ) (s : Bytes32) (t : ℕ) (z : Bytes) : ∃ sub slot :
    Bytes, sub.length = size d ∧ slot.length = 32 ∧
    keyBytes c (d + 1) s t ++ z = sub ++ (slot ++
      ((rootKey c d (leftSeed c s)).bytes.toList ++ ((rootKey c d (rightSeed c s)).bytes.toList ++ z))) := by
  rcases lt_or_ge t (2 ^ d) with ht | ht
  · refine ⟨keyBytes c d (leftSeed c s) t, (rightSeed c s).toList, by simp, by simp, ?_⟩
    simp [keyBytes_left ht]
  · refine ⟨keyBytes c d (rightSeed c s) (t - 2 ^ d), Seed.zeros, by simp, length_zeros, ?_⟩
    simp [keyBytes_right ht]

section Parts
variable (c d s t z)

theorem slice_lhsPk : (slice (keyBytes c (d + 1) s t ++ z) (size d + 32) (size d + 64) : Call Bytes) =
    .ok (rootKey c d (leftSeed c s)).bytes.toList := by
  obtain ⟨sub, slot, hsub, hslot, heq⟩ := keyBytes_parts (c := c) d s t z
  rw [heq, ← List.append_assoc, ← List.append_assoc]
  exact slice_append (by simp [hsub, hslot]) (by simp)

theorem slice_rhsPk : (slice (keyBytes c (d + 1) s t ++ z) (size d + 64) (size d + 96) : Call Bytes) =
    .ok (rootKey c d (rightSeed c s)).bytes.toList := by
  obtain ⟨sub, slot, hsub, hslot, heq⟩ := keyBytes_parts (c := c) d s t z
  rw [heq, ← List.append_assoc, ← List.append_assoc, ← List.append_assoc]
  exact slice_append (by simp [hsub, hslot]) (by simp)

end Parts

theorem toPk_eq (s : Bytes32) (t : ℕ) : toPk c (d + 1) (storedKey c (d + 1) s t) = .ok (rootKey c (d + 1) s) := by
  have hleft : size (d + 1) - publicKeySize * 2 = size d + 32 := by simp [size_succ, publicKeySize]
  have hright : size (d + 1) - publicKeySize = size d + 64 := by simp [size_succ, publicKeySize]
  unfold toPk
  rw [hleft, hright, size_succ]
  unfold storedKey
  rw [slice_lhsPk, Outcome.ok_bind, fromBytesExpect_toList, Outcome.ok_bind, slice_rhsPk, Outcome.ok_bind,
    fromBytesExpect_toList]
  rfl

/-- The slot of a level whose right half has been entered is empty. -/
theorem slice_seed {l : ℕ} (hl : l < d) (ht : t < 2 ^ d) (hright : 2 ^ l ≤ t % 2 ^ (l + 1)) (z : Bytes) :
    (slice (keyBytes c d s t ++ z) (size l) (size l + 32) : Call Bytes) = .ok Seed.zeros := by
  induction d generalizing s t z with
  | zero => omega
  | succ d ih =>
    have hpow : 2 ^ (d + 1) = 2 ^ d + 2 ^ d := by ring
    rcases (show l ≤ d by omega).eq_or_lt with rfl | hld
    · rw [Nat.mod_eq_of_lt ht] at hright
      rw [keyBytes_right hright, List.append_assoc, List.append_assoc, ← List.append_assoc]
      exact slice_append (length_keyBytes _ _ _) (by simp)
    · rcases lt_or_ge t (2 ^ d) with hleft | hge
      · rw [keyBytes_left hleft, List.append_assoc]
        exact ih hld hleft hright _
      · have hdvd : 2 ^ (l + 1) ∣ 2 ^ d := Nat.pow_dvd_pow 2 hld
        have hmod : (t - 2 ^ d) % 2 ^ (l + 1) = t % 2 ^ (l + 1) := by
          obtain ⟨k, hk⟩ := hdvd
          rw [hk, Nat.sub_mul_mod (hk ▸ hge)]
        rw [keyBytes_right hge, List.append_assoc]
        exact ih hld (by omega) (by rwa [hmod]) _

/-! ### Signatures -/

theorem slice_left (ht : t < 2 ^ d) (z : Bytes) :
    (slice (keyBytes c (d + 1) s t ++ z) 0 (size d) : Call Bytes) = .ok (keyBytes c d (leftSeed c s) t) := by
  rw [keyBytes_left ht, List.append_assoc]
  exact slice_append (x := []) rfl (by simp)

theorem slice_right (ht : 2 ^ d ≤ t) (z : Bytes) :
    (slice (keyBytes c (d + 1) s t ++ z) 0 (size d) : Call Bytes) = .ok (keyBytes c d (rightSeed c s) (t - 2 ^ d)) := by
  rw [keyBytes_right ht, List.append_assoc]
  exact slice_append (x := []) rfl (by simp)

section Sign
variable {m : Bytes}

theorem SumKes.signFromSlice_eq (hz : d = 0 → z = []) :
    SumKes.signFromSlice c d (keyBytes c d s t ++ z) m = .ok (signature c d s t m) := by
  induction d generalizing s t z with
  | zero =>
    obtain rfl := hz rfl
    rw [List.append_nil]
    unfold SumKes.signFromSlice keyBytes
    rw [secretOf_toList]
    rfl
  | succ d ih =>
    have hsub : ∀ s t, SumKes.signFromSlice c d (keyBytes c d s t) m = .ok (signature c d s t m) := fun s t => by
      simpa using ih (s := s) (t := t) (z := []) fun _ => rfl
    unfold SumKes.signFromSlice signature
    rcases lt_or_ge t (2 ^ d) with ht | ht
    · rw [if_pos ht, slice_left ht, Outcome.ok_bind, hsub, Outcome.ok_bind, slice_lhsPk, Outcome.ok_bind,
        fromBytesExpect_toList, Outcome.ok_bind, slice_rhsPk, Outcome.ok_bind, fromBytesExpect_toList]
      rfl
    · rw [if_neg (by omega), slice_right ht, Outcome.ok_bind, hsub, Outcome.ok_bind, slice_lhsPk, Outcome.ok_bind,
        fromBytesExpect_toList, Outcome.ok_bind, slice_rhsPk, Outcome.ok_bind, fromBytesExpect_toList]
      rfl

theorem SumCompactKes.signFromSlice_eq (hd : d < 32) (hz : d = 0 → z = []) :
    SumCompactKes.signFromSlice c d (keyBytes c d s t ++ z) m t = .ok (compactSignature c d s t m) := by
  induction d generalizing s t z with
  | zero =>
    obtain rfl := hz rfl
    rw [List.append_nil]
    unfold SumCompactKes.signFromSlice keyBytes
    rw [secretOf_toList]
    rfl
  | succ d ih =>
    have hsub : ∀ s t, SumCompactKes.signFromSlice c d (keyBytes c d s t) m t = .ok (compactSignature c d s t m) :=
      fun s t => by simpa using ih (s := s) (t := t) (z := []) (by omega) fun _ => rfl
    unfold SumCompactKes.signFromSlice compactSignature
    rw [half_eq (by omega), Outcome.ok_bind]
    rcases lt_or_ge t (2 ^ d) with ht | ht
    · rw [if_pos ht, if_pos ht, slice_rhsPk, Outcome.ok_bind, slice_left ht, Outcome.ok_bind, hsub, Outcome.ok_bind,
        fromBytesExpect_toList]
      rfl
    · have hperiod : u32Sub t (2 ^ d) = .ok (t - 2 ^ d) := if_pos ht
      rw [if_neg (by omega), if_neg (by omega), slice_lhsPk, Outcome.ok_bind, hperiod, Outcome.ok_bind, slice_right ht,
        Outcome.ok_bind, hsub, Outcome.ok_bind, fromBytesExpect_toList]
      rfl

theorem sign_eq (hpos : 0 < d) (hd : d < 32) (ht : t < 2 ^ d) :
    SumKes.sign c d (storedKey c d s t) m = .ok (signature c d s t m) ∧
      SumCompactKes.sign c d (storedKey c d s t) m = .ok (compactSignature c d s t m) := by
  refine ⟨SumKes.signFromSlice_eq (by omega), ?_⟩
  unfold SumCompactKes.sign
  rw [getPeriod_eq hpos hd ht, Outcome.ok_bind]
  exact SumCompactKes.signFromSlice_eq hd (by omega)

/-- Verification leads to the leaf of the period it is for, and from beyond the last period to the last leaf. -/
theorem verify_signature (hc : c.Correct) (hd : d < 32) {p : ℕ} (hp : min p (2 ^ d - 1) = t) :
    (signature c d s t m).verify p (rootKey c d s) m = .ok () := by
  induction d generalizing s t p with
  | zero =>
    unfold signature Sig.verify rootKey PublicKey.asEd25519 PublicKey.fromEd25519VerifyingKey verifyStrict
    rw [hc.fromBytes_toBytes, Outcome.ok_bind, hc.verifyStrict_sign]
  | succ d ih =>
    have hpow : 2 ^ (d + 1) = 2 ^ d + 2 ^ d := by ring
    have hpos : 0 < 2 ^ d := Nat.pow_pos (by omega)
    unfold signature Sig.verify
    rw [rootKey, half_eq (by omega)]
    simp only [decide_true, Outcome.ensure, if_true, Outcome.ok_bind]
    rcases lt_or_ge p (2 ^ d) with hlt | hge
    · rw [if_pos hlt, if_pos (by omega)]
      exact ih (by omega) (by omega)
    · have hperiod : u32Sub p (2 ^ d) = .ok (p - 2 ^ d) := if_pos hge
      rw [if_neg (by omega), if_neg (by omega), hperiod, Outcome.ok_bind]
      exact ih (by omega) (by omega)

theorem recompute_compactSignature (hc : c.Correct) (hd : d < 32) {p : ℕ} (hp : min p (2 ^ d - 1) = t) :
    (compactSignature c d s t m).recompute p m = .ok (rootKey c d s) := by
  induction d generalizing s t p with
  | zero =>
    unfold compactSignature CompactSig.recompute rootKey verifyStrict
    rw [hc.verifyStrict_sign]
    rfl
  | succ d ih =>
    have hpow : 2 ^ (d + 1) = 2 ^ d + 2 ^ d := by ring
    have hpos : 0 < 2 ^ d := Nat.pow_pos (by omega)
    unfold compactSignature
    rcases lt_or_ge p (2 ^ d) with hlt | hge
    · rw [if_pos (by omega)]
      unfold CompactSig.recompute
      rw [half_eq (by omega), Outcome.ok_bind, if_pos hlt, ih (by omega) (by omega)]
      rfl
    · have hperiod : u32Sub p (2 ^ d) = .ok (p - 2 ^ d) := if_pos hge
      rw [if_neg (by omega)]
      unfold CompactSig.recompute
      rw [half_eq (by omega), Outcome.ok_bind, if_neg (by omega), hperiod, Outcome.ok_bind, ih (by omega) (by omega)]
      rfl

theorem verify_compactSignature (hc : c.Correct) (hd : d < 32) {p : ℕ} (hp : min p (2 ^ d - 1) = t) :
    (compactSignature c d s t m).verify p (rootKey c d s) m = .ok () := by
  unfold CompactSig.verify
  rw [recompute_compactSignature hc hd hp, Outcome.ok_bind]
  simp [Outcome.ensure]

end Sign

/-! ### A key from its generation to its last update -/

/-- What the key of a period is good for. -/
structure InPeriod (c : Crypto) (d t : ℕ) (pk : PublicKey) (key m : Bytes) : Prop where
  period : getPeriod d key = .ok t
  toPk : toPk c d key = .ok pk
  verifies : ∃ sigma, SumKes.sign c d key m = .ok sigma ∧ sigma.verify t pk m = .ok ()
  verifiesCompact : ∃ sigma, SumCompactKes.sign c d key m = .ok sigma ∧ sigma.verify t pk m = .ok ()
  /-- Level `l + 1` has entered its right half exactly if the period lies in the right half of its block. -/
  forgotten : ∀ l < d, 2 ^ l ≤ t % 2 ^ (l + 1) → (slice key (size l) (size l + 32) : Call Bytes) = .ok Seed.zeros

/-- From generation on, a key can be updated in all its periods but the last, and in each of them it is good for its
period. (`Depth::total` is a `u32`: there are no depths from 32 on.) -/
theorem keygen_updates (hc : c.Correct) (hpos : 0 < d) (hd : d < 32) (s : Bytes32) (m : Bytes) (ht : t < 2 ^ d)
    (hbuf : buf.length = size d + 4) :
    ∃ pk first key, keygen c d s.toList buf = (.ok (pk, some Seed.zeros), first) ∧
      updates c d t first = (.ok (), key) ∧ InPeriod c d t pk key m ∧
      (t + 1 = 2 ^ d → update c d key = (.error (.error .keyCannotBeUpdatedMore), key)) := by
  obtain ⟨hsign, hcompact⟩ := sign_eq (c := c) (s := s) (m := m) hpos hd ht
  refine ⟨_, _, _, keygen_eq hpos s hbuf, updates_eq hpos hd ht, ?_, fun hlast => update_last hpos hd hlast⟩
  refine ⟨getPeriod_eq hpos hd ht, ?_, ⟨_, hsign, verify_signature hc hd (by omega)⟩,
    ⟨_, hcompact, verify_compactSignature hc hd (by omega)⟩, fun l hl hright => slice_seed hl ht hright _⟩
  obtain ⟨d, rfl⟩ : ∃ k, d = k + 1 := ⟨d - 1, by omega⟩
  exact toPk_eq s t

/-- Signatures that show what they are made of, and a hash that tells the halves of a tree of depth 1 apart. -/
def transparent : Crypto where
  Signature := Bytes32 × Bytes
  VerifyingKey := Bytes32
  publicKey s := s
  sign s m := (s, m)
  toBytes key := key
  fromBytes b := some b
  verifyStrict key m sigma := if sigma = (key, m) then .ok () else .error "signature error"
  blake2b bs :=
    if bs.length = 33 then .replicate 32 (bs.headD 0)
    else if bs = List.replicate 32 1 ++ List.replicate 32 2 then .replicate 32 3
    else .replicate 32 4

theorem transparent_correct : transparent.Correct := ⟨fun _ => rfl, fun _ _ => if_pos rfl⟩

/-- A key of depth 2 in its third period. -/
theorem keygen_updates_third : ∃ pk first key,
    keygen transparent 2 (Vector.replicate 32 7).toList (List.replicate (size 2 + 4) 0) =
      (.ok (pk, some Seed.zeros), first) ∧
      updates transparent 2 2 first = (.ok (), key) ∧ InPeriod transparent 2 2 pk key [1, 2, 3] ∧
      (2 + 1 = 2 ^ 2 → update transparent 2 key = (.error (.error .keyCannotBeUpdatedMore), key)) :=
  keygen_updates transparent_correct (by decide) (by decide) _ _ (by decide) (by simp)

end Pallas.Kes
