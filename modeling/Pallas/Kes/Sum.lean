import Pallas.Lib.Slices

/-!
# Key evolving signatures (`pallas-crypto/src/kes`)

`single_kes.rs` is the scheme with one period, a wrapper over Ed25519. The macros `sum_kes!` and `sum_compact_kes!` of
`summed_kes.rs` make a scheme of depth `d + 1` from one of depth `d`; here they are recursions on the depth. A key of
depth `d` is one buffer

    ( key of depth d - 1 || seed of the right half || left public key || right public key )

with the period behind the key of the last depth. The two macros share all that works on keys and differ in the
signatures: `sum_kes!` puts both public keys of a level into them, `sum_compact_kes!` only the one that cannot be
recomputed.

A `u32` is a natural number here. Arithmetic that leaves the type panics.
-/

namespace Pallas.Kes
open Slices Cbor

/-- `[u8; 32]`. -/
abbrev Bytes32 := Vector UInt8 32

/-- `try_into` from a slice. -/
def bytes32? (bs : Bytes) : Option Bytes32 := if h : bs.length = 32 then some ⟨bs.toArray, by simpa using h⟩ else none

/-- What the schemes use of `ed25519_dalek`. -/
structure Ed25519 where
  Signature : Type
  VerifyingKey : Type
  /-- The public key of a secret. -/
  publicKey : Bytes32 → VerifyingKey
  sign : Bytes32 → Bytes → Signature
  /-- The compressed form of a key. -/
  toBytes : VerifyingKey → Bytes32
  fromBytes : Bytes32 → Option VerifyingKey
  /-- Fails with the text of a `SignatureError`. -/
  verifyStrict : VerifyingKey → Bytes → Signature → Except String Unit

/-- The hash and the signatures that the schemes rest on. -/
structure Crypto extends Ed25519 where
  /-- `Hasher::<256>`. -/
  blake2b : Bytes → Bytes32

structure PublicKey where
  bytes : Bytes32
  deriving DecidableEq

inductive Error where
  | ed25519Signature (message : String)
  | ed25519InvalidCompressedFormat
  | invalidSecretKeySize (size : ℕ)
  | invalidPublicKeySize (size : ℕ)
  | invalidSignatureSize (size : ℕ)
  | keyCannotBeUpdatedMore
  | invalidHashComparison
  deriving DecidableEq

abbrev Call := Outcome Error

/-- Code on a mutable slice. -/
abbrev OnSlice := Proc Bytes Error

def u32Add (a b : ℕ) : Call ℕ := if a + b < 2 ^ 32 then .ok (a + b) else .panic

def u32Sub (a b : ℕ) : Call ℕ := if b ≤ a then .ok (a - b) else .panic

/-! ### Common structures (`common.rs`) -/

def individualSecretSize : ℕ := 32

def publicKeySize : ℕ := 32

namespace PublicKey

def fromBytes (bs : Bytes) : Call PublicKey :=
  match bytes32? bs with
  | some v => .ok ⟨v⟩
  | none => .err (.invalidPublicKeySize bs.length)

/-- `expect` on the result. -/
def fromBytesExpect (bs : Bytes) : Call PublicKey :=
  match fromBytes bs with
  | .err _ => .panic
  | r => r

end PublicKey

namespace Depth

def total (d : ℕ) : Call ℕ := if 2 ^ d < 2 ^ 32 then .ok (2 ^ d) else .panic

def half (d : ℕ) : Call ℕ := if 0 < d then total (d - 1) else .panic

end Depth

/-- The rest of a procedure after a call that has no slice. -/
def lift {α : Type} (x : Call α) : OnSlice α := fun buf =>
  match x with
  | .ok a => (.ok a, buf)
  | .err e => (.error (.error e), buf)
  | .panic => (.error .panic, buf)

/-- The bytes of the slice. -/
def contents : OnSlice Bytes := Proc.get

section Schemes
variable (c : Crypto)

namespace PublicKey

def hashPair (self other : PublicKey) : PublicKey := ⟨c.blake2b (self.bytes.toList ++ other.bytes.toList)⟩

def fromEd25519VerifyingKey (key : c.VerifyingKey) : PublicKey := ⟨c.toBytes key⟩

def asEd25519 (self : PublicKey) : Call c.VerifyingKey :=
  match c.fromBytes self.bytes with
  | some key => .ok key
  | none => .err .ed25519InvalidCompressedFormat

end PublicKey

namespace Seed

def size : ℕ := 32

def zeros : Bytes := List.replicate size 0

/-- Both halves of a seed; its slice is overwritten. -/
def splitSlice : OnSlice (Bytes32 × Bytes32) := do
  let bytes ← contents
  assert (bytes.length = size)
  let leftSeed := c.blake2b (1 :: bytes)
  let rightSeed := c.blake2b (2 :: bytes)
  copyFromSlice zeros
  pure (leftSeed, rightSeed)

end Seed

/-! ### Keys -/

/-- `SIZE` of the key of a depth. -/
def size (d : ℕ) : ℕ := individualSecretSize + d * 32 + d * (publicKeySize * 2)

/-- `EdSigningKey::from_bytes(&bytes.try_into().expect(..))`. -/
def secretOf (bs : Bytes) : Call Bytes32 :=
  match bytes32? bs with
  | some secret => .ok secret
  | none => .panic

/-- `Sum0Kes::keygen_slice`: the seed is the secret. It is the argument, or stands behind the key. -/
def keygenSlice₀ (optSeed : Option Bytes) : OnSlice (PublicKey × Option Bytes) := do
  let inSlice ← contents
  match optSeed with
  | some seed =>
    assert (inSlice.length = size 0)
    let secret ← lift (secretOf seed)
    let ((), seed) ← on seed (copyFromSlice Seed.zeros : OnSlice Unit)
    within 0 (size 0) (copyFromSlice secret.toList)
    pure (.fromEd25519VerifyingKey c (c.publicKey secret), some seed)
  | none =>
    assert (inSlice.length = size 0 + Seed.size)
    let secret ← lift (secretOf (inSlice.drop (size 0)))
    after (size 0) (copyFromSlice Seed.zeros)
    within 0 (size 0) (copyFromSlice secret.toList)
    pure (.fromEd25519VerifyingKey c (c.publicKey secret), none)

/-- `keygen` for the `keygen_slice` of the depth. A key of depth 0 is written without a period. -/
def keygenOf (d : ℕ) (keygenSlice : Option Bytes → OnSlice (PublicKey × Option Bytes)) (seed : Bytes) :
    OnSlice (PublicKey × Option Bytes) := do
  let keyBuffer ← contents
  assert (keyBuffer.length = size d + 4)
  assert (seed.length = 32)
  let result ← within 0 (size d) (keygenSlice (some seed))
  if d ≠ 0 then after (size d) (copyFromSlice (bigEndian 4 0))
  pure result

/-- What `keygen_slice` does with the halves of the seed. The right half is generated in a buffer of its own, only for its
public key. -/
def keygenHalves (d : ℕ) (keygenSlice : Option Bytes → OnSlice (PublicKey × Option Bytes)) (r0 seed : Bytes32) :
    OnSlice PublicKey := do
  within (size d) (size d + 32) (copyFromSlice seed.toList)
  let (pk0, _) ← within 0 (size d) (keygenSlice (some r0.toList))
  let ((pk1, _), _) ← on (List.replicate (size d + 4) 0) (keygenOf d keygenSlice seed.toList)
  within (size d + 32) (size d + 64) (copyFromSlice pk0.bytes.toList)
  within (size d + 64) (size d + 96) (copyFromSlice pk1.bytes.toList)
  pure (pk0.hashPair c pk1)

/-- The public key, and the seed that was passed as it is afterwards. -/
def keygenSlice : ℕ → Option Bytes → OnSlice (PublicKey × Option Bytes)
  | 0, optSeed => keygenSlice₀ c optSeed
  | d + 1, some inSeed => do
    let inSlice ← contents
    assert (inSlice.length = size (d + 1))
    assert (inSeed.length = Seed.size)
    let ((r0, seed), inSeed) ← on inSeed (Seed.splitSlice c)
    let pk ← keygenHalves c d (keygenSlice d) r0 seed
    pure (pk, some inSeed)
  | d + 1, none => do
    let inSlice ← contents
    assert (inSlice.length = size (d + 1) + Seed.size)
    let (r0, seed) ← after (size (d + 1)) (Seed.splitSlice c)
    let pk ← keygenHalves c d (keygenSlice d) r0 seed
    pure (pk, none)

def keygen (d : ℕ) (seed : Bytes) : OnSlice (PublicKey × Option Bytes) := keygenOf d (keygenSlice c d) seed

def updateSlice : ℕ → ℕ → OnSlice Unit
  | 0, _ => Proc.throw .keyCannotBeUpdatedMore
  | d + 1, period => do
    let next ← lift (u32Add period 1)
    let total ← lift (Depth.total (d + 1))
    if next = total then Proc.throw .keyCannotBeUpdatedMore
    else
      let half ← lift (Depth.half (d + 1))
      if next < half then within 0 (size d) (updateSlice d period)
      else if next = half then do
        let _ ← within 0 (size d + 32) (keygenSlice c d none)
        pure ()
      else do
        let period ← lift (u32Sub period half)
        within 0 (size d) (updateSlice d period)

/-- The period that stands behind a key. -/
def storedPeriod (d : ℕ) (key : Bytes) : Call ℕ := do
  let bytes ← slice key (size d) key.length
  if bytes.length = 4 then pure (ofBigEndian bytes) else .panic

def getPeriod (d : ℕ) (key : Bytes) : Call ℕ := if d = 0 then .ok 0 else storedPeriod d key

def update (d : ℕ) : OnSlice Unit :=
  if d = 0 then Proc.throw .keyCannotBeUpdatedMore
  else do
    let key ← contents
    let period ← lift (storedPeriod d key)
    within 0 (size d) (updateSlice c d period)
    let next ← lift (u32Add period 1)
    after (size d) (copyFromSlice (bigEndian 4 next))

/-- Of a key of depth at least 1. -/
def toPk (d : ℕ) (key : Bytes) : Call PublicKey := do
  let pk0 ← PublicKey.fromBytesExpect (← slice key (size d - publicKeySize * 2) (size d - publicKeySize))
  let pk1 ← PublicKey.fromBytesExpect (← slice key (size d - publicKeySize) (size d))
  pure (pk0.hashPair c pk1)

/-! ### Signatures -/

/-- `SumNKesSig`. -/
inductive Sig (c : Crypto) : ℕ → Type where
  | leaf (signature : c.Signature) : Sig c 0
  | node {d : ℕ} (sigma : Sig c d) (lhsPk rhsPk : PublicKey) : Sig c (d + 1)

/-- `SumNCompactKesSig`. -/
inductive CompactSig (c : Crypto) : ℕ → Type where
  | leaf (signature : c.Signature) (key : c.VerifyingKey) : CompactSig c 0
  | node {d : ℕ} (sigma : CompactSig c d) (pk : PublicKey) : CompactSig c (d + 1)

/-- `verify_strict(m, ..)?`. -/
def verifyStrict (key : c.VerifyingKey) (m : Bytes) (signature : c.Signature) : Call Unit :=
  match c.verifyStrict key m signature with
  | .ok () => .ok ()
  | .error message => .err (.ed25519Signature message)

namespace SumKes

def signFromSlice : (d : ℕ) → Bytes → Bytes → Call (Sig c d)
  | 0, sk, m => do
    let secret ← secretOf sk
    pure (.leaf (c.sign secret m))
  | d + 1, sk, m => do
    let sigma ← signFromSlice d (← slice sk 0 (size d)) m
    let lhsPk ← PublicKey.fromBytesExpect (← slice sk (size d + 32) (size d + 64))
    let rhsPk ← PublicKey.fromBytesExpect (← slice sk (size d + 64) (size d + 96))
    pure (.node sigma lhsPk rhsPk)

def sign (d : ℕ) (key m : Bytes) : Call (Sig c d) := signFromSlice c d key m

end SumKes

namespace SumCompactKes

def signFromSlice : (d : ℕ) → Bytes → Bytes → ℕ → Call (CompactSig c d)
  | 0, sk, m, _ => do
    let secret ← secretOf sk
    pure (.leaf (c.sign secret m) (c.publicKey secret))
  | d + 1, sk, m, period => do
    let t0 ← Depth.half (d + 1)
    if period < t0 then do
      let pkBytes ← slice sk (size d + 64) (size d + 96)
      let sigma ← signFromSlice d (← slice sk 0 (size d)) m period
      let pk ← PublicKey.fromBytesExpect pkBytes
      pure (.node sigma pk)
    else do
      let pkBytes ← slice sk (size d + 32) (size d + 64)
      let period ← u32Sub period t0
      let sigma ← signFromSlice d (← slice sk 0 (size d)) m period
      let pk ← PublicKey.fromBytesExpect pkBytes
      pure (.node sigma pk)

/-- At depth 0 there is no period to read. -/
def sign (d : ℕ) (key m : Bytes) : Call (CompactSig c d) := do
  let period ← getPeriod d key
  signFromSlice c d key m period

end SumCompactKes

variable {c}

def Sig.verify {d : ℕ} : Sig c d → (period : ℕ) → PublicKey → Bytes → Call Unit
  | .leaf signature, _, pk, m => do
    let key ← pk.asEd25519 c
    verifyStrict c key m signature
  | .node (d := d) sigma lhsPk rhsPk, period, pk, m => do
    Outcome.ensure .invalidHashComparison (lhsPk.hashPair c rhsPk = pk)
    let half ← Depth.half (d + 1)
    if period < half then sigma.verify period lhsPk m
    else do
      let period ← u32Sub period half
      sigma.verify period rhsPk m

/-- The leaf is verified with the key that comes with it. -/
def CompactSig.recompute {d : ℕ} : CompactSig c d → (period : ℕ) → Bytes → Call PublicKey
  | .leaf signature key, _, m => do
    verifyStrict c key m signature
    pure ⟨c.toBytes key⟩
  | .node (d := d) sigma pk, period, m => do
    let half ← Depth.half (d + 1)
    if period < half then do
      let recomputedKey ← sigma.recompute period m
      pure (recomputedKey.hashPair c pk)
    else do
      let period ← u32Sub period half
      let recomputedKey ← sigma.recompute period m
      pure (pk.hashPair c recomputedKey)

def CompactSig.verify {d : ℕ} (self : CompactSig c d) (period : ℕ) (pk : PublicKey) (m : Bytes) : Call Unit := do
  let pkSubtree ← self.recompute period m
  Outcome.ensure .invalidHashComparison (pk = pkSubtree)

end Schemes

end Pallas.Kes
