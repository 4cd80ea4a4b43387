import Pallas.Kes.Evolution

/-!
# Keys and signatures as bytes

A signature is written as the bytes of the one below it with the public keys of its level behind, and read back by slicing
these off again. A key is its buffer: `as_bytes` gives it and `from_bytes` takes any of the right length, so what is read
back is the key that was written. Nothing is known then of the bytes that a buffer of this length may have. The period
behind the key goes into unsigned arithmetic, and a key of depth 0 is signed with as a whole, period and all.
-/

namespace Pallas.Kes
open Slices Cbor

/-- The bytes of an Ed25519 signature, and the text of the error for bytes that are no public key. -/
structure Ed25519.Codec (e : Ed25519) where
  toBytes : e.Signature → Vector UInt8 64
  fromBytes : Vector UInt8 64 → e.Signature
  signatureError : Bytes32 → String

/-- What `ed25519_dalek` promises of them. -/
structure Ed25519.Codec.Lossless {e : Ed25519} (b : e.Codec) : Prop where
  fromBytes_toBytes : ∀ signature, b.fromBytes (b.toBytes signature) = signature
  key : ∀ key, e.fromBytes (e.toBytes key) = some key

/-- `SIGNATURE_LENGTH`, and `SIGMA_SIZE`. -/
def sigmaSize : ℕ := 64

/-- `try_into` and `copy_from_slice` to a `[u8; 64]`. -/
def bytes64? (bs : Bytes) : Option (Vector UInt8 64) := if h :
    bs.length = 64 then some ⟨bs.toArray, by simpa using h⟩ else none

/-- `let mut data = [0u8; n]`, the code that fills it, and `data`. -/
def filled (n : ℕ) (p : OnSlice Unit) : Call Bytes :=
  match p (List.replicate n 0) with
  | (.ok (), data) => .ok data
  | (.error (.error e), _) => .err e
  | (.error _, _) => .panic

section Codecs
variable {c : Crypto} (b : c.Codec)

/-- `EdPublicKey::from_bytes(..)?`. -/
def edKey (bytes : Bytes32) : Call c.VerifyingKey :=
  match c.fromBytes bytes with
  | some key => .ok key
  | none => .err (.ed25519Signature (b.signatureError bytes))

namespace Sig

/-- `SIZE` of the signatures of `sum_kes!`. -/
def size (d : ℕ) : ℕ := sigmaSize + d * (publicKeySize * 2)

def fromBytes : (d : ℕ) → Bytes → Call (Sig c d)
  | 0, bytes =>
    if bytes.length ≠ size 0 then .err (.invalidSecretKeySize bytes.length)
    else do
      let signature ← Outcome.unwrap (bytes64? bytes)
      pure (.leaf (b.fromBytes signature))
  | d + 1, bytes =>
    if bytes.length ≠ size (d + 1) then .err (.invalidSignatureSize bytes.length)
    else do
      let sigma ← fromBytes d (← slice bytes 0 (size d))
      let lhsPk ← PublicKey.fromBytes (← slice bytes (size d) (size d + publicKeySize))
      let rhsPk ← PublicKey.fromBytes (← slice bytes (size d + publicKeySize) (size d + 2 * publicKeySize))
      pure (.node sigma lhsPk rhsPk)

def toBytes : {d : ℕ} → Sig c d → Call Bytes
  | _, .leaf signature => .ok (b.toBytes signature).toList
  | d + 1, .node sigma lhsPk rhsPk => do
    let sigma ← toBytes sigma
    filled (size (d + 1)) do
      within 0 (size d) (copyFromSlice sigma)
      within (size d) (size d + publicKeySize) (copyFromSlice lhsPk.bytes.toList)
      within (size d + publicKeySize) (size d + 2 * publicKeySize) (copyFromSlice rhsPk.bytes.toList)

end Sig

namespace CompactSig

/-- `SIZE` of the signatures of `sum_compact_kes!`. -/
def size (d : ℕ) : ℕ := sigmaSize + (d + 1) * publicKeySize

def fromBytes : (d : ℕ) → Bytes → Call (CompactSig c d)
  | 0, bytes =>
    if bytes.length ≠ size 0 then .err (.invalidSecretKeySize bytes.length)
    else do
      let signature ← Outcome.unwrap (bytes64? (← slice bytes 0 sigmaSize))
      let pkBytes ← Outcome.unwrap (bytes32? (← slice bytes sigmaSize bytes.length))
      let key ← edKey b pkBytes
      pure (.leaf (b.fromBytes signature) key)
  | d + 1, bytes =>
    if bytes.length ≠ size (d + 1) then .err (.invalidSignatureSize bytes.length)
    else do
      let sigma ← fromBytes d (← slice bytes 0 (size d))
      let pk ← PublicKey.fromBytes (← slice bytes (size d) (size d + publicKeySize))
      pure (.node sigma pk)

def toBytes : {d : ℕ} → CompactSig c d → Call Bytes
  | _, .leaf signature key => filled (size 0) do
    within 0 sigmaSize (copyFromSlice (b.toBytes signature).toList)
    after sigmaSize (copyFromSlice (c.toBytes key).toList)
  | d + 1, .node sigma pk => do
    let sigma ← toBytes sigma
    filled (size (d + 1)) do
      within 0 (size d) (copyFromSlice sigma)
      within (size d) (size d + publicKeySize) (copyFromSlice pk.bytes.toList)

end CompactSig

end Codecs

/-- `from_bytes` of a key. -/
def fromBytes (d : ℕ) (bytes : Bytes) : Call Bytes :=
  if bytes.length ≠ size d + 4 then .err (.invalidSecretKeySize bytes.length) else .ok bytes

/-- `as_bytes` of a key. -/
def asBytes (key : Bytes) : Bytes := key

/-! ### Signatures -/

section signatures
variable {c : Crypto} {b : c.Codec} {d : ℕ}

theorem bytes64?_toList (v : Vector UInt8 64) : bytes64? v.toList = some v := by
  rw [bytes64?, dif_pos (by simp)]
  rfl

theorem publicKey_fromBytes_toList (pk : PublicKey) : PublicKey.fromBytes pk.bytes.toList = .ok pk := by
  rw [PublicKey.fromBytes, bytes32?_toList]

theorem filled_ok {n : ℕ} {p : OnSlice Unit} {data : Bytes} (h : p (List.replicate n 0) = (.ok (), data)) :
    filled n p = .ok data := by
  rw [filled, h]

theorem Sig.size_succ (d : ℕ) : Sig.size (d + 1) = Sig.size d + 64 := by
  simp only [Sig.size, publicKeySize]
  ring

theorem CompactSig.size_succ (d : ℕ) : CompactSig.size (d + 1) = CompactSig.size d + 32 := by
  simp only [CompactSig.size, publicKeySize]
  ring

theorem copy_front {x : Bytes} {n a : ℕ} (hx : x.length = a) (hn : a ≤ n) :
    within 0 a (copyFromSlice x : OnSlice Unit) (List.replicate n 0) = (.ok (), x ++ List.replicate (n - a) 0) := by
  obtain ⟨k, rfl⟩ := Nat.exists_eq_add_of_le hn
  rw [List.replicate_add, Nat.add_sub_cancel_left]
  exact within_front (by simp) (copyFromSlice_ok (by simp [hx]))

theorem copy_next {x y : Bytes} {n m a : ℕ} (hx : x.length = a) (hy : a + y.length = m) (hn : m ≤ n) :
    within a m (copyFromSlice y : OnSlice Unit) (x ++ List.replicate (n - a) 0) =
      (.ok (), x ++ y ++ List.replicate (n - m) 0) := by
  obtain ⟨k, rfl⟩ := Nat.exists_eq_add_of_le hn
  subst hy
  rw [show a + y.length + k - a =
    y.length + k by omega, Nat.add_sub_cancel_left, List.replicate_add, ← List.append_assoc]
  exact within_append hx (by simp) (copyFromSlice_ok (by simp))

theorem Sig.roundTrip (hb : b.Lossless) (sigma : Sig c d) :
    ∃ x, sigma.toBytes b = .ok x ∧ x.length = Sig.size d ∧ Sig.fromBytes b d x = .ok sigma := by
  induction sigma with
  | leaf signature =>
    have hlen : (b.toBytes signature).toList.length = Sig.size 0 := by simp [Sig.size, sigmaSize]
    refine ⟨_, rfl, hlen, ?_⟩
    rw [Sig.fromBytes, if_neg (not_not.2 hlen), bytes64?_toList, Outcome.unwrap, Outcome.ok_bind, hb.fromBytes_toBytes]
    rfl
  | @node d sigma lhsPk rhsPk ih =>
    obtain ⟨x, hx, hlen, hread⟩ := ih
    have hsize := Sig.size_succ d
    have hlhs : lhsPk.bytes.toList.length = 32 := by simp
    have hrhs : rhsPk.bytes.toList.length = 32 := by simp
    have hlen' : (x ++ lhsPk.bytes.toList ++ rhsPk.bytes.toList).length = Sig.size (d + 1) := by simp [hlen, hsize]
    refine ⟨x ++ lhsPk.bytes.toList ++ rhsPk.bytes.toList, ?_, hlen', ?_⟩
    · rw [Sig.toBytes, hx, Outcome.ok_bind]
      refine filled_ok ?_
      refine (Proc.bind_ok (copy_front hlen (by omega))).trans ?_
      refine (Proc.bind_ok (copy_next hlen (by simp [publicKeySize]) (by simp [publicKeySize, hsize]))).trans ?_
      refine (copy_next (by simp [hlen, publicKeySize]) (by simp [publicKeySize])
        (by simp [publicKeySize, hsize])).trans ?_
      simp [publicKeySize, hsize]
    · have hsub : (slice (x ++ lhsPk.bytes.toList ++ rhsPk.bytes.toList) 0 (Sig.size d) : Call Bytes) = .ok x := by
        rw [List.append_assoc]
        exact slice_front hlen
      have hleft : (slice (x ++ lhsPk.bytes.toList ++ rhsPk.bytes.toList) (Sig.size d)
          (Sig.size d + publicKeySize) : Call Bytes) = .ok lhsPk.bytes.toList :=
        slice_append hlen (by simp [publicKeySize])
      have hright : (slice (x ++ lhsPk.bytes.toList ++ rhsPk.bytes.toList) (Sig.size d + publicKeySize)
          (Sig.size d + 2 * publicKeySize) : Call Bytes) = .ok rhsPk.bytes.toList :=
        slice_back (by simp [hlen, publicKeySize]) (by simp [publicKeySize])
      rw [Sig.fromBytes, if_neg (not_not.2 hlen'), hsub, Outcome.ok_bind, hread, Outcome.ok_bind, hleft,
        Outcome.ok_bind,
        publicKey_fromBytes_toList, Outcome.ok_bind, hright, Outcome.ok_bind, publicKey_fromBytes_toList]
      rfl

theorem CompactSig.roundTrip (hb : b.Lossless) (sigma : CompactSig c d) :
    ∃ x, sigma.toBytes b = .ok x ∧ x.length = CompactSig.size d ∧ CompactSig.fromBytes b d x = .ok sigma := by
  induction sigma with
  | leaf signature key =>
    have hlen : (b.toBytes signature).toList.length = sigmaSize := by simp [sigmaSize]
    have hkey : (c.toBytes key).toList.length = 32 := by simp
    have hlen' : ((b.toBytes signature).toList ++ (c.toBytes key).toList).length = CompactSig.size 0 := by
      simp [CompactSig.size, sigmaSize, publicKeySize]
    refine ⟨(b.toBytes signature).toList ++ (c.toBytes key).toList, ?_, hlen', ?_⟩
    · refine filled_ok ?_
      refine (Proc.bind_ok (copy_front hlen (by simp [CompactSig.size]))).trans ?_
      exact after_append hlen (copyFromSlice_ok (by simp [CompactSig.size, publicKeySize]))
    · have hpk : (slice ((b.toBytes signature).toList ++ (c.toBytes key).toList) sigmaSize
          ((b.toBytes signature).toList ++ (c.toBytes key).toList).length : Call Bytes) = .ok (c.toBytes key).toList :=
        slice_back hlen (by rw [List.length_append, hlen])
      rw [CompactSig.fromBytes, if_neg (not_not.2 hlen'), slice_front hlen, Outcome.ok_bind, bytes64?_toList,
        Outcome.unwrap, Outcome.ok_bind, hpk, Outcome.ok_bind, bytes32?_toList, Outcome.unwrap, Outcome.ok_bind, edKey,
        hb.key, Outcome.ok_bind, hb.fromBytes_toBytes]
      rfl
  | @node d sigma pk ih =>
    obtain ⟨x, hx, hlen, hread⟩ := ih
    have hsize := CompactSig.size_succ d
    have hlen' : (x ++ pk.bytes.toList).length = CompactSig.size (d + 1) := by simp [hlen, hsize]
    refine ⟨x ++ pk.bytes.toList, ?_, hlen', ?_⟩
    · rw [CompactSig.toBytes, hx, Outcome.ok_bind]
      refine filled_ok ?_
      refine (Proc.bind_ok (copy_front hlen (by omega))).trans ?_
      refine (copy_next hlen (by simp [publicKeySize]) (by simp [publicKeySize, hsize])).trans ?_
      simp [publicKeySize, hsize]
    · have hpk : (slice (x ++ pk.bytes.toList) (CompactSig.size d) (CompactSig.size d + publicKeySize) : Call Bytes) =
          .ok pk.bytes.toList := slice_back hlen (by simp [publicKeySize])
      rw [CompactSig.fromBytes, if_neg (not_not.2 hlen'), slice_front hlen, Outcome.ok_bind, hread,
        Outcome.ok_bind, hpk,
        Outcome.ok_bind, publicKey_fromBytes_toList]
      rfl

end signatures

/-! ### A key keeps its length -/

section lengths
variable {c : Crypto} {d : ℕ}

theorem keepsLength_lift {α : Type} (x : Call α) : KeepsLength (lift x) := by
  refine .of_runs fun s => ?_
  cases x with
  | ok a => exact ⟨rfl, nofun⟩
  | err e => exact ⟨rfl, nofun⟩
  | panic => exact ⟨rfl, nofun⟩

theorem keepsLength_splitSlice : KeepsLength (Seed.splitSlice c) :=
  KeepsLength.get.bind fun _ => (KeepsLength.assert _).bind fun _ =>
    (KeepsLength.copyFromSlice _).bind fun _ => .pure _

theorem keepsLength_keygenOf {keygenSlice : Option Bytes → OnSlice (PublicKey × Option Bytes)}
    (h : ∀ seed, KeepsLength (keygenSlice seed)) (d : ℕ) (seed : Bytes) :
    KeepsLength (keygenOf d keygenSlice seed) := by
  refine KeepsLength.get.bind fun _ => (KeepsLength.assert _).bind fun _ => (KeepsLength.assert _).bind fun _ => ?_
  refine ((h _).within _ _).bind fun result => ?_
  split_ifs
  · exact ((KeepsLength.copyFromSlice _).after _).bind fun _ => .pure _
  · exact .pure _

theorem keepsLength_keygenHalves {keygenSlice : Option Bytes → OnSlice (PublicKey × Option Bytes)}
    (h : ∀ seed, KeepsLength (keygenSlice seed)) (d : ℕ) (r0 seed : Bytes32) :
    KeepsLength (keygenHalves c d keygenSlice r0 seed) := by
  refine ((KeepsLength.copyFromSlice _).within _ _).bind fun _ => ((h _).within _ _).bind fun (pk0, _) => ?_
  refine ((keepsLength_keygenOf h d _).on _).bind fun ((pk1, _), _) => ?_
  exact ((KeepsLength.copyFromSlice _).within _ _).bind
    fun _ => ((KeepsLength.copyFromSlice _).within _ _).bind fun _ =>
    .pure _

theorem keepsLength_keygenSlice (d : ℕ) (optSeed : Option Bytes) : KeepsLength (keygenSlice c d optSeed) := by
  induction d generalizing optSeed with
  | zero =>
    refine KeepsLength.get.bind fun _ => ?_
    cases optSeed with
    | some seed =>
      refine (KeepsLength.assert _).bind fun _ => (keepsLength_lift _).bind fun _ => ?_
      exact ((KeepsLength.copyFromSlice _).on _).bind fun _ => ((KeepsLength.copyFromSlice _).within _ _).bind fun _ =>
        .pure _
    | none =>
      refine (KeepsLength.assert _).bind fun _ => (keepsLength_lift _).bind fun _ => ?_
      exact ((KeepsLength.copyFromSlice _).after _).bind
        fun _ => ((KeepsLength.copyFromSlice _).within _ _).bind fun _ =>
        .pure _
  | succ d ih =>
    cases optSeed with
    | some seed =>
      refine KeepsLength.get.bind fun _ => (KeepsLength.assert _).bind fun _ => (KeepsLength.assert _).bind fun _ => ?_
      exact (keepsLength_splitSlice.on _).bind fun _ => (keepsLength_keygenHalves ih d _ _).bind fun _ => .pure _
    | none =>
      refine KeepsLength.get.bind fun _ => (KeepsLength.assert _).bind fun _ => ?_
      exact (keepsLength_splitSlice.after _).bind fun _ => (keepsLength_keygenHalves ih d _ _).bind fun _ => .pure _

theorem keepsLength_keygen (d : ℕ) (seed : Bytes) : KeepsLength (keygen c d seed) :=
  keepsLength_keygenOf (keepsLength_keygenSlice d) d seed

theorem keepsLength_updateSlice (d period : ℕ) : KeepsLength (updateSlice c d period) := by
  induction d generalizing period with
  | zero => exact .throw _
  | succ d ih =>
    refine (keepsLength_lift _).bind fun next => (keepsLength_lift _).bind fun total => ?_
    split_ifs
    · exact .throw _
    · refine (keepsLength_lift _).bind fun half => ?_
      split_ifs
      · exact (ih period).within _ _
      · exact ((keepsLength_keygenSlice d none).within _ _).bind fun _ => .pure _
      · exact (keepsLength_lift _).bind fun period => (ih period).within _ _

theorem keepsLength_update (d : ℕ) : KeepsLength (update c d) := by
  rw [update]
  split_ifs
  · exact .throw _
  · refine KeepsLength.get.bind fun key => (keepsLength_lift _).bind fun period => ?_
    refine ((keepsLength_updateSlice d period).within _ _).bind fun _ => (keepsLength_lift _).bind fun next => ?_
    exact (KeepsLength.copyFromSlice _).after _

/-- What generation accepts as a buffer. -/
theorem length_of_keygen {seed buf first : Bytes} {r : PublicKey × Option Bytes}
    (h : keygen c d seed buf = (.ok r, first)) : first.length = size d + 4 := by
  have hlen := (keepsLength_keygen (c := c) d seed).length_eq buf
  rw [h] at hlen
  have hbuf : buf.length = size d + 4 := by
    obtain ⟨_, _, hassert, -⟩ := Proc.bind_eq_ok.1
      (show (assert (buf.length = size d + 4) >>= fun _ => _) buf = (.ok r, first) from h)
    by_contra hne
    rw [decide_eq_false hne] at hassert
    cases hassert
  exact hlen.trans hbuf

end lengths

/-! ### Calls that return -/

/-- The end of a call that returns, with a value or with an error. -/
def Returned {ε α : Type} (r : Except (Fault ε) α) : Prop := ∀ f, r = .error f → ∃ e, f = .error e

section returns
variable {c : Crypto} {d period : ℕ} {x z : Bytes}

theorem returned_ok {ε α : Type} (a : α) : Returned (.ok a : Except (Fault ε) α) := nofun

theorem returned_error {ε α : Type} (e : ε) : Returned (.error (.error e) : Except (Fault ε) α) := fun _ h =>
  ⟨e, (Except.error.inj h).symm⟩

theorem not_returned_panic {ε α : Type} : ¬ Returned (.error .panic : Except (Fault ε) α) := fun h => by
  obtain ⟨e, he⟩ := h _ rfl
  cases he

theorem returned_front {α : Type} {p : OnSlice α} {a : ℕ} (hx : x.length = a) (h : Returned (p x).1) :
    Returned (within 0 a p (x ++ z)).1 := by
  rw [within_front hx (rfl : p x = ((p x).1, (p x).2))]
  exact h

theorem keygenSlice_none_returns (hx : x.length = size d + 32) : Returned (keygenSlice c d none x).1 := by
  obtain ⟨k, s, rfl, hk⟩ : ∃ k s, x = k ++ s ∧ k.length = size d :=
    ⟨_, _, (List.take_append_drop (size d) x).symm, by simp [hx]⟩
  have hs : s.length = 32 := by
    rw [List.length_append] at hx
    omega
  have hseed : s = (⟨s.toArray, by simpa using hs⟩ : Bytes32).toList := rfl
  rw [hseed, (generates c d).stored _ k hk]
  exact returned_ok _

theorem updateSlice_returns (hd : d < 32) (hperiod : period + 1 < 2 ^ 32) (hx : x.length = size d) :
    Returned (updateSlice c d period x).1 := by
  induction d generalizing period x with
  | zero => exact returned_error _
  | succ d ih =>
    obtain ⟨k, z, rfl, hk⟩ : ∃ k z, x = k ++ z ∧ k.length = size d :=
      ⟨_, _, (List.take_append_drop (size d) x).symm, by simp [hx, size_succ]⟩
    have hz : z.length = 96 := by
      rw [List.length_append, size_succ] at hx
      omega
    have hnext : ∀ b : Bytes, (lift (u32Add period 1)) b = (.ok (period + 1), b) := fun b => by
      rw [u32Add, if_pos hperiod]
      rfl
    have htotal : ∀ b : Bytes, (lift (Depth.total (d + 1))) b = (.ok (2 ^ (d + 1)), b) := fun b => by
      rw [total_eq hd]
      rfl
    have hhalf : ∀ b : Bytes, (lift (Depth.half (d + 1))) b = (.ok (2 ^ d), b) := fun b => by
      rw [half_eq (by omega)]
      rfl
    rw [show updateSlice c (d + 1) period (k ++ z) = _ from (Proc.bind_ok (hnext _)).trans (Proc.bind_ok (htotal _))]
    by_cases hlast : period + 1 = 2 ^ (d + 1)
    · rw [if_pos hlast]
      exact returned_error _
    rw [if_neg hlast, Proc.bind_ok (hhalf _)]
    rcases lt_trichotomy (period + 1) (2 ^ d) with hlt | heq | hgt
    · rw [if_pos hlt]
      exact returned_front hk (ih (by omega) hperiod hk)
    · -- the seed of the right half stands behind the key
      obtain ⟨seed, z, rfl, hseed⟩ : ∃ seed w, z = seed ++ w ∧ seed.length = 32 :=
        ⟨_, _, (List.take_append_drop 32 z).symm, by simp [hz]⟩
      have hfront : (k ++ seed).length = size d + 32 := by rw [List.length_append, hk, hseed]
      have hgen := returned_front (z := z) hfront (keygenSlice_none_returns (c := c) hfront)
      rw [if_neg (by omega), if_pos heq, ← List.append_assoc]
      rcases Proc.bind_cases (within 0 (size d + 32) (keygenSlice c d none)) (fun _ => pure ()) (k ++ seed ++ z) with
        ⟨a, s, -, hb⟩ | ⟨e, s, h, hb⟩
      · rw [hb]
        exact returned_ok _
      · rw [hb]
        rw [h] at hgen
        intro f hf
        cases hf
        exact hgen e rfl
    · have hsub : ∀ b : Bytes, (lift (u32Sub period (2 ^ d))) b = (.ok (period - 2 ^ d), b) := fun b => by
        rw [u32Sub, if_pos (by omega)]
        rfl
      have hle : period - 2 ^ d ≤ period := Nat.sub_le _ _
      rw [if_neg (by omega), if_neg (by omega), Proc.bind_ok (hsub _)]
      exact returned_front hk (ih (by omega) (Nat.lt_of_le_of_lt (Nat.succ_le_succ hle) hperiod) hk)

theorem storedPeriod_append (hx : x.length = size d) (hz : z.length = 4) :
    storedPeriod d (x ++ z) = .ok (ofBigEndian z) := by
  have hslice : (slice (x ++ z) (size d) (x ++ z).length : Call Bytes) = .ok z :=
    slice_back hx (by rw [List.length_append, hx])
  rw [storedPeriod, hslice, Outcome.ok_bind, if_pos hz]
  rfl

theorem update_returned_iff (hd : d < 32) (hx : x.length = size d) (hz : z.length = 4) :
    Returned (update c d (x ++ z)).1 ↔ (0 < d → ofBigEndian z + 1 < 2 ^ 32) := by
  rcases Nat.eq_zero_or_pos d with rfl | hpos
  · exact iff_of_true (returned_error _) nofun
  · obtain ⟨d, rfl⟩ := Nat.exists_eq_add_of_le' hpos
    have hread : ∀ b : Bytes, lift (storedPeriod (d + 1) (x ++ z)) b = (.ok (ofBigEndian z), b) := fun b => by
      rw [storedPeriod_append hx hz]
      rfl
    have hrun : update c (d + 1) (x ++ z) =
        (within 0 (size (d + 1)) (updateSlice c (d + 1) (ofBigEndian z)) >>= fun _ =>
        lift (u32Add (ofBigEndian z) 1) >>= fun next => after (size (d + 1)) (copyFromSlice (bigEndian 4 next)))
          (x ++ z) := by
      rw [update, if_neg (by omega)]
      exact (Proc.bind_ok rfl).trans (Proc.bind_ok (hread _))
    rw [hrun]
    by_cases hlt : ofBigEndian z + 1 < 2 ^ 32
    · refine iff_of_true ?_ fun _ => hlt
      have hslice := returned_front (z := z) hx (updateSlice_returns (c := c) hd hlt hx)
      have hkeeps := ((keepsLength_updateSlice (c := c) (d + 1) (ofBigEndian z))).length_eq x
      have hwithin : within 0 (size (d + 1)) (updateSlice c (d + 1) (ofBigEndian z)) (x ++ z) =
          ((updateSlice c (d + 1) (ofBigEndian z) x).1, (updateSlice c (d + 1) (ofBigEndian z) x).2 ++ z) :=
        within_front hx rfl
      rw [hwithin] at hslice
      rcases hr : (updateSlice c (d + 1) (ofBigEndian z) x).1 with e | u
      · rw [hr] at hwithin hslice
        rw [Proc.bind_error hwithin]
        intro f hf
        cases hf
        exact hslice e rfl
      · have hadd : ∀ b : Bytes, (lift (u32Add (ofBigEndian z) 1)) b = (.ok (ofBigEndian z + 1), b) := fun b => by
          rw [u32Add, if_pos hlt]
          rfl
        have hcopy : (copyFromSlice (bigEndian 4 (ofBigEndian z + 1)) : OnSlice Unit) z =
            (.ok (), bigEndian 4 (ofBigEndian z + 1)) := copyFromSlice_ok (by simp [length_bigEndian, hz])
        rw [hr] at hwithin
        rw [Proc.bind_ok hwithin, Proc.bind_ok (hadd _), after_append (hkeeps.trans hx) hcopy]
        exact returned_ok _
    · refine iff_of_false ?_ fun h => hlt (h (by omega))
      have hadd : ∀ b : Bytes, (lift (u32Add (ofBigEndian z) 1)) b = (.error .panic, b) := fun b => by
        rw [u32Add, if_neg hlt]
        rfl
      have hpanic : updateSlice c (d + 1) (ofBigEndian z) x = (.error .panic, x) := Proc.bind_error (hadd x)
      rw [Proc.bind_error (within_front hx hpanic)]
      exact not_returned_panic

theorem exists_parts (hx : x.length = size (d + 1)) : ∃ k slot l r : Bytes, x = k ++ slot ++ l ++ r ∧
    k.length = size d ∧ slot.length = 32 ∧ l.length = 32 ∧ r.length = 32 := by
  rw [size_succ] at hx
  refine ⟨x.take (size d), (x.drop (size d)).take 32, ((x.drop (size d)).drop 32).take 32,
    ((x.drop (size d)).drop 32).drop 32, ?_, ?_⟩
  · simp only [List.append_assoc, List.take_append_drop]
  · simp only [List.length_take, List.length_drop]
    omega

theorem slice_parts {k slot l r : Bytes} (z : Bytes) (hk : k.length = size d) (hslot : slot.length = 32)
    (hl : l.length = 32) (hr : r.length = 32) :
    (slice (k ++ slot ++ l ++ r ++ z) 0 (size d) : Call Bytes) = .ok k ∧
    (slice (k ++ slot ++ l ++ r ++ z) (size d + 32) (size d + 64) : Call Bytes) = .ok l ∧
    (slice (k ++ slot ++ l ++ r ++ z) (size d + 64) (size d + 96) : Call Bytes) = .ok r := by
  refine ⟨?_, ?_, slice_append (by simp [hk, hslot, hl]) (by omega)⟩
  · simp only [List.append_assoc]
    exact slice_front hk
  · rw [List.append_assoc _ r z]
    exact slice_append (by simp [hk, hslot]) (by omega)

theorem fromBytesExpect_ok (hx : x.length = 32) : ∃ pk, PublicKey.fromBytesExpect x = .ok pk := by
  have hx' : x = (⟨x.toArray, by simpa using hx⟩ : Bytes32).toList := rfl
  rw [hx']
  exact ⟨_, fromBytesExpect_toList ⟨_⟩⟩

theorem secretOf_ok_iff : (∃ s, secretOf x = .ok s) ↔ x.length = 32 := by
  rw [secretOf, bytes32?]
  split_ifs with h
  · exact iff_of_true ⟨_, rfl⟩ h
  · refine iff_of_false ?_ h
    rintro ⟨s, hs⟩
    cases hs

theorem sumKes_signFromSlice_ok (hx : x.length = size d) (hz : d = 0 → z = []) (m : Bytes) :
    ∃ sigma, SumKes.signFromSlice c d (x ++ z) m = .ok sigma := by
  induction d generalizing x z with
  | zero =>
    rw [hz rfl, List.append_nil]
    obtain ⟨s, hs⟩ := secretOf_ok_iff.2 hx
    exact ⟨_, by rw [SumKes.signFromSlice, hs]; rfl⟩
  | succ d ih =>
    obtain ⟨k, slot, l, r, rfl, hk, hslot, hl, hr⟩ := exists_parts hx
    obtain ⟨sigma, hsigma⟩ := ih (z := []) hk fun _ => rfl
    obtain ⟨lhsPk, hlhs⟩ := fromBytesExpect_ok hl
    obtain ⟨rhsPk, hrhs⟩ := fromBytesExpect_ok hr
    obtain ⟨hsub, hleft, hright⟩ := slice_parts z hk hslot hl hr
    rw [List.append_nil] at hsigma
    refine ⟨.node sigma lhsPk rhsPk, ?_⟩
    rw [SumKes.signFromSlice, hsub, Outcome.ok_bind, hsigma, Outcome.ok_bind, hleft, Outcome.ok_bind, hlhs,
      Outcome.ok_bind, hright, Outcome.ok_bind, hrhs]
    rfl

theorem sumCompactKes_signFromSlice_ok (hd : d < 32) (hx : x.length = size d) (hz : d = 0 → z = []) (m : Bytes) :
    ∃ sigma, SumCompactKes.signFromSlice c d (x ++ z) m period = .ok sigma := by
  induction d generalizing x z period with
  | zero =>
    rw [hz rfl, List.append_nil]
    obtain ⟨s, hs⟩ := secretOf_ok_iff.2 hx
    exact ⟨_, by rw [SumCompactKes.signFromSlice, hs]; rfl⟩
  | succ d ih =>
    obtain ⟨k, slot, l, r, rfl, hk, hslot, hl, hr⟩ := exists_parts hx
    obtain ⟨hsub, hleft, hright⟩ := slice_parts z hk hslot hl hr
    rw [SumCompactKes.signFromSlice, half_eq (by omega), Outcome.ok_bind]
    split_ifs with hlt
    · obtain ⟨sigma, hsigma⟩ := ih (z := []) (by omega) hk fun _ => rfl
      obtain ⟨pk, hpk⟩ := fromBytesExpect_ok hr
      rw [List.append_nil] at hsigma
      refine ⟨.node sigma pk, ?_⟩
      rw [hright, Outcome.ok_bind, hsub, Outcome.ok_bind, hsigma, Outcome.ok_bind, hpk]
      rfl
    · obtain ⟨sigma, hsigma⟩ := ih (z := []) (by omega) hk fun _ => rfl
      obtain ⟨pk, hpk⟩ := fromBytesExpect_ok hl
      have hperiod : u32Sub period (2 ^ d) = .ok (period - 2 ^ d) := if_pos (by omega)
      rw [List.append_nil] at hsigma
      refine ⟨.node sigma pk, ?_⟩
      rw [hleft, Outcome.ok_bind, hperiod, Outcome.ok_bind, hsub, Outcome.ok_bind, hsigma, Outcome.ok_bind, hpk]
      rfl

end returns

/-! ### Written and read back -/

section serialization
variable (c : Crypto) (d : ℕ)

/-- What a key does. -/
structure SameKey (key key' : Bytes) : Prop where
  period : getPeriod d key' = getPeriod d key
  sign : ∀ m, SumKes.sign c d key' m = SumKes.sign c d key m
  signCompact : ∀ m, SumCompactKes.sign c d key' m = SumCompactKes.sign c d key m
  updates : ∀ n, (update c d ((fun k => (update c d k).2)^[n] key')).1 =
    (update c d ((fun k => (update c d k).2)^[n] key)).1

/-- Every call on the key returns. -/
structure CallsReturn (key : Bytes) : Prop where
  period : ∃ t, getPeriod d key = .ok t
  sign : ∀ m, ∃ sigma, SumKes.sign c d key m = .ok sigma
  signCompact : ∀ m, ∃ sigma, SumCompactKes.sign c d key m = .ok sigma
  update : Returned (update c d key).1

/-- Signatures are read back as they were written, a key that was generated and updated is read back as one that does the
same, and on whatever is read from these bytes every call returns. -/
structure Serializes (b : c.Codec) (bytes : Bytes) : Prop where
  signature : ∀ sigma : Sig c d, ∃ x, sigma.toBytes b = .ok x ∧ Sig.fromBytes b d x = .ok sigma
  compactSignature : ∀ sigma : CompactSig c d, ∃ x, sigma.toBytes b = .ok x ∧ CompactSig.fromBytes b d x = .ok sigma
  key : ∀ seed buf r first n, keygen c d seed buf = (.ok r, first) →
    ∃ key, fromBytes d (asBytes ((fun k => (update c d k).2)^[n] first)) = .ok key ∧
      SameKey c d ((fun k => (update c d k).2)^[n] first) key
  returns : ∀ key, fromBytes d bytes = .ok key → CallsReturn c d key

variable {c d} {b : c.Codec} {key : Bytes}

theorem length_iterate_update (n : ℕ) : ((fun k => (update c d k).2)^[n] key).length = key.length := by
  induction n with
  | zero => rfl
  | succ n ih =>
    rw [Function.iterate_succ_apply']
    exact ((keepsLength_update d).length_eq _).trans ih

theorem fromBytes_of_length (h : key.length = size d + 4) : fromBytes d key = .ok key := if_neg (not_not.2 h)

theorem fromBytes_eq_ok {bytes : Bytes} (h : fromBytes d bytes = .ok key) :
    key = bytes ∧ bytes.length = size d + 4 := by
  rw [fromBytes] at h
  split_ifs at h with hlen
  exact ⟨(Outcome.ok.inj h).symm, not_not.1 hlen⟩

theorem callsReturn_iff (hd : d < 32) (h : key.length = size d + 4) :
    CallsReturn c d key ↔ 0 < d ∧ key.drop (size d) ≠ List.replicate 4 255 := by
  obtain ⟨x, z, rfl, hx⟩ : ∃ x z, key = x ++ z ∧ x.length = size d :=
    ⟨_, _, (List.take_append_drop (size d) key).symm, by simp [h]⟩
  have hz : z.length = 4 := by
    rw [List.length_append, hx] at h
    omega
  have hlast : z ≠ List.replicate 4 255 ↔ ofBigEndian z + 1 < 2 ^ 32 := by
    have hlt : ofBigEndian z < 256 ^ z.length := ofBigEndian_lt z
    have hmax : ofBigEndian (List.replicate 4 255) = 2 ^ 32 - 1 := by decide
    have hinj : z = List.replicate 4 255 ↔ ofBigEndian z = 2 ^ 32 - 1 :=
      ⟨fun heq => by rw [heq, hmax], fun heq => ofBigEndian_inj (by rw [hz, List.length_replicate]) (heq.trans hmax.symm)⟩
    rw [hz] at hlt
    rw [ne_eq, hinj]
    omega
  rw [List.drop_left' hx, hlast]
  constructor
  · intro hcalls
    have hpos : 0 < d := by
      -- at depth 0 the period is taken for a part of the secret
      by_contra hzero
      obtain rfl : d = 0 := by omega
      obtain ⟨sigma, hsign⟩ := hcalls.sign []
      obtain ⟨s, hs, -⟩ := Outcome.bind_eq_ok.1 hsign
      have hlen := secretOf_ok_iff.1 ⟨s, hs⟩
      rw [h] at hlen
      exact absurd hlen (by decide)
    exact ⟨hpos, (update_returned_iff hd hx hz).1 hcalls.update hpos⟩
  · rintro ⟨hpos, hperiod⟩
    have hget : getPeriod d (x ++ z) =
        .ok (ofBigEndian z) := by rw [getPeriod, if_neg (by omega), storedPeriod_append hx hz]
    refine ⟨⟨_, hget⟩, fun m => ?_, fun m => ?_, (update_returned_iff hd hx hz).2 fun _ => hperiod⟩
    · exact sumKes_signFromSlice_ok hx (by omega) m
    · rw [SumCompactKes.sign, hget, Outcome.ok_bind]
      exact sumCompactKes_signFromSlice_ok hd hx (by omega) m

/-- Keys and signatures are serialized well with all bytes that are not taken for a key, or else for one of depth at least 1
that is not in the last period of its type. -/
theorem serializes_iff (hd : d < 32) (hb : b.Lossless) (bytes : Bytes) : Serializes c d b bytes ↔
    (bytes.length = size d + 4 → 0 < d ∧ bytes.drop (size d) ≠ List.replicate 4 255) := by
  constructor
  · intro h hlen
    exact (callsReturn_iff hd hlen).1 (h.returns bytes (fromBytes_of_length hlen))
  · intro h
    refine ⟨fun sigma => ?_, fun sigma => ?_, fun seed buf r first n hgen => ?_, fun key hkey => ?_⟩
    · obtain ⟨x, hx, -, hread⟩ := sigma.roundTrip hb
      exact ⟨x, hx, hread⟩
    · obtain ⟨x, hx, -, hread⟩ := sigma.roundTrip hb
      exact ⟨x, hx, hread⟩
    · have hlen : ((fun k => (update c d k).2)^[n] first).length = size d + 4 :=
        (length_iterate_update n).trans (length_of_keygen hgen)
      exact ⟨_, fromBytes_of_length hlen, rfl, fun m => rfl, fun m => rfl, fun n => rfl⟩
    · obtain ⟨rfl, hlen⟩ := fromBytes_eq_ok hkey
      exact (callsReturn_iff hd hlen).2 (h hlen)

end serialization

/-- A scheme that signs with the key, twice. -/
def doubled : Crypto where
  Signature := Vector UInt8 64
  VerifyingKey := Bytes32
  publicKey s := s
  sign s _ := s ++ s
  toBytes key := key
  fromBytes b := some b
  verifyStrict key _ sigma := if sigma = key ++ key then .ok () else .error "signature error"
  blake2b := transparent.blake2b

def doubledCodec : doubled.Codec where
  toBytes sigma := sigma
  fromBytes bytes := bytes
  signatureError _ := "signature error"

theorem doubledCodec_lossless : doubledCodec.Lossless := ⟨fun _ => rfl, fun _ => rfl⟩

/-- A buffer of depth 1 in its first period. -/
theorem serializes_first : Serializes doubled 1 doubledCodec (List.replicate (size 1 + 4) 0) := by
  refine (serializes_iff (by decide) doubledCodec_lossless _).2 fun _ => ⟨by decide, fun h => ?_⟩
  rw [List.drop_replicate, Nat.add_sub_cancel_left] at h
  exact absurd h (by decide)

/-- No key of depth 0 signs, and one whose period is the last number is not updated. -/
theorem buffers_not_signed_or_updated :
    ¬ Serializes doubled 0 doubledCodec (List.replicate 36 0) ∧
    ¬ Serializes doubled 1 doubledCodec (List.replicate (size 1) 0 ++ List.replicate 4 255) := by
  have hzero : (List.replicate 36 (0 : UInt8)).length = size 0 + 4 := by decide
  have hlast : (List.replicate (size 1) (0 : UInt8) ++ List.replicate 4 255).length = size 1 + 4 := by simp
  refine ⟨fun h => ?_, fun h => ?_⟩
  · have hcalls := (callsReturn_iff (by decide) hzero).1 (h.returns _ (fromBytes_of_length hzero))
    exact absurd hcalls.1 (by decide)
  · have hcalls := (callsReturn_iff (by decide) hlast).1 (h.returns _ (fromBytes_of_length hlast))
    exact hcalls.2 (List.drop_left' (by simp))

end Pallas.Kes
