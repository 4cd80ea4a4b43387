import Pallas.Addresses
import Pallas.Lib.CborItem

/-!
# The bytes of Shelley and stake addresses (`pallas-addresses/src/lib.rs`, `varuint.rs`)

`to_vec` writes a header byte of type and network, the credentials, and for a pointer three varuints, seven bits a byte
from the highest on. Each of the ten header types is read back by its own parser (`fromBytes_toVec`). What a parser
returns has a network of four bits, so it can be written again, whatever was tolerated when it was read.
-/

namespace Pallas

/-! ### Varuints -/

/-- The loop of `varuint::write`: the digits above the lowest, from the lowest on, each marked as continued. -/
def varuintDigits (num : ℕ) : Bytes :=
  if 0 < num then UInt8.ofNat (num % 128 + 128) :: varuintDigits (num / 128) else []
termination_by num

/-- `varuint::write`. -/
def varuintWrite (num : UInt64) : Bytes :=
  (UInt8.ofNat (num.toNat % 128) :: varuintDigits (num.toNat / 128)).reverse

theorem varuintRead_digits {n : ℕ} (hn : n < 2 ^ 64) (bs : Bytes) :
    varuintRead 0 ((varuintDigits n).reverse ++ bs) = varuintRead n bs := by
  induction n using Nat.strong_induction_on generalizing bs with
  | _ n ih =>
    rw [varuintDigits]
    split
    · next hpos =>
      have hbyte : (UInt8.ofNat (n % 128 + 128)).toNat = n % 128 + 128 := by
        rw [UInt8.toNat_ofNat']
        omega
      have hacc : n / 128 * 128 + (n % 128 + 128) % 128 = n := by omega
      rw [List.reverse_cons, List.append_assoc, ih (n / 128) (by omega) (by omega), List.singleton_append, varuintRead,
        hbyte, hacc, if_neg (by omega), if_neg (by omega)]
    · next hzero =>
      obtain rfl : n = 0 := by omega
      rfl

theorem varuintRead_write (num : UInt64) (rest : Bytes) :
    varuintRead 0 (varuintWrite num ++ rest) = some (num, rest) := by
  have hlt := num.toNat_lt
  have hbyte : (UInt8.ofNat (num.toNat % 128)).toNat = num.toNat % 128 := by
    rw [UInt8.toNat_ofNat']
    omega
  have hacc : num.toNat / 128 * 128 + num.toNat % 128 % 128 = num.toNat := by omega
  rw [varuintWrite, List.reverse_cons, List.append_assoc,
    varuintRead_digits (by omega), List.singleton_append, varuintRead,
    hbyte, hacc, if_neg (by omega), if_pos (by omega), UInt64.ofNat_toNat]

theorem varuintWrite_ne_nil (num : UInt64) : 0 < (varuintWrite num).length := by
  rw [varuintWrite, List.length_reverse, List.length_cons]
  exact Nat.succ_pos _

def Pointer.toVec (p : Pointer) : Bytes := varuintWrite p.slot ++ varuintWrite p.txIdx ++ varuintWrite p.certIdx

theorem Pointer.parse_toVec (p : Pointer) : Pointer.parse p.toVec = some p := by
  have hlast := varuintRead_write p.certIdx []
  rw [List.append_nil] at hlast
  rw [Pointer.parse, Pointer.toVec, List.append_assoc, varuintRead_write]
  simp only [Option.bind_eq_bind, Option.bind_some]
  rw [varuintRead_write]
  simp only [Option.bind_some]
  rw [hlast]
  rfl

/-! ### Credentials and headers -/

namespace Hash

theorem ofBytes_toBytes {n : ℕ} (h : Hash n) : ofBytes n h.toBytes = h := by
  have hlt : h.toNat < 256 ^ n := by
    have hpow : 256 ^ n = 2 ^ (8 * n) := by
      rw [Nat.pow_mul]
    rw [hpow]
    exact h.isLt
  rw [ofBytes, toBytes, Cbor.foldl_bigEndian, Nat.zero_mul, Nat.zero_add, Nat.mod_eq_of_lt hlt, BitVec.ofNat_toNat,
    BitVec.setWidth_eq]

theorem length_toBytes {n : ℕ} (h : Hash n) : h.toBytes.length = n := Cbor.length_bigEndian n h.toNat

end Hash

namespace Network

/-- A network of the four bits that a header has for it. -/
def Nibble : Network → Prop
  | testnet => True
  | mainnet => True
  | other id => 2 ≤ id.toNat ∧ id.toNat ≤ 15

theorem value_lt {net : Network} (h : net.Nibble) : net.value.toNat < 16 := by
  cases net with
  | testnet => exact Nat.succ_pos 15
  | mainnet => exact Nat.lt_of_lt_of_le (Nat.lt_succ_self 1) (Nat.le_add_left 2 14)
  | other id => exact Nat.lt_succ_of_le h.2

end Network

theorem header_toNat {t n : ℕ} (ht : t < 16) (hn : n < 16) :
    ((UInt8.ofNat t <<< 4) ||| UInt8.ofNat n).toNat = 16 * t + n := by
  have hall : ∀ t < 16, ∀ n < 16, ((UInt8.ofNat t <<< 4) ||| UInt8.ofNat n).toNat = 16 * t + n := by decide
  exact hall t ht n hn

/-- `type_id << 4 | network`. -/
def headerByte (typeid : UInt8) (net : Network) : UInt8 := (typeid <<< 4) ||| net.value

section Header
variable {typeid : UInt8} {net : Network} (ht : typeid.toNat < 16) (hnet : net.Nibble)
include ht hnet

theorem headerByte_toNat : (headerByte typeid net).toNat = 16 * typeid.toNat + net.value.toNat := by
  have hheader := header_toNat ht (Network.value_lt hnet)
  rw [UInt8.ofNat_toNat, UInt8.ofNat_toNat] at hheader
  exact hheader

theorem headerByte_type : (headerByte typeid net).toNat / 16 = typeid.toNat := by
  have hlt := Network.value_lt hnet
  rw [headerByte_toNat ht hnet]
  omega

theorem parseNetwork_headerByte : parseNetwork (headerByte typeid net) = net := by
  have hlt := Network.value_lt hnet
  have hmod : (headerByte typeid net).toNat % 16 = net.value.toNat := by
    rw [headerByte_toNat ht hnet]
    omega
  rw [parseNetwork, hmod]
  cases net with
  | testnet => rfl
  | mainnet => rfl
  | other id =>
    obtain ⟨hlow, -⟩ := hnet
    rw [Network.value]
    split
    · next hzero => omega
    · next hone => omega
    · rw [UInt8.ofNat_toNat]

end Header

theorem parseNetwork_nibble (header : UInt8) : (parseNetwork header).Nibble := by
  unfold parseNetwork
  split
  · trivial
  · trivial
  · next hzero hone =>
    have hlt : header.toNat % 16 < 16 := Nat.mod_lt _ (Nat.succ_pos 15)
    have hnat : (UInt8.ofNat (header.toNat % 16)).toNat = header.toNat % 16 := by
      rw [UInt8.toNat_ofNat']
      omega
    have hzero' : header.toNat % 16 ≠ 0 := hzero
    have hone' : header.toNat % 16 ≠ 1 := hone
    have hbounds : 2 ≤ (UInt8.ofNat (header.toNat % 16)).toNat ∧ (UInt8.ofNat (header.toNat % 16)).toNat ≤ 15 := by
      rw [hnat]
      omega
    exact hbounds

/-! ### `to_vec` -/

def ShelleyPaymentPart.toVec : ShelleyPaymentPart → Bytes
  | key x => x.toBytes
  | script x => x.toBytes

def ShelleyDelegationPart.toVec : ShelleyDelegationPart → Bytes
  | key x => x.toBytes
  | script x => x.toBytes
  | pointer x => x.toVec
  | null => []

namespace ShelleyAddress

def typeid (a : ShelleyAddress) : UInt8 :=
  match a.payment, a.delegation with
  | .key _, .key _ => 0
  | .script _, .key _ => 1
  | .key _, .script _ => 2
  | .script _, .script _ => 3
  | .key _, .pointer _ => 4
  | .script _, .pointer _ => 5
  | .key _, .null => 6
  | .script _, .null => 7

def toHeader (a : ShelleyAddress) : UInt8 := headerByte a.typeid a.network

def toVec (a : ShelleyAddress) : Bytes := a.toHeader :: (a.payment.toVec ++ a.delegation.toVec)

end ShelleyAddress

namespace StakeAddress

def typeid (a : StakeAddress) : UInt8 :=
  match a.payload with
  | .stake _ => 14
  | .script _ => 15

def toHeader (a : StakeAddress) : UInt8 := headerByte a.typeid a.network

/-- `to_vec`, with the `as_ref` of the payload. -/
def toVec (a : StakeAddress) : Bytes :=
  a.toHeader :: match a.payload with
    | .stake x => x.toBytes
    | .script x => x.toBytes

end StakeAddress

/-! ### Reading back -/

namespace Address

theorem take_toBytes (h : Hash 28) (rest : Bytes) : (h.toBytes ++ rest).take 28 = h.toBytes := by
  have hlen := h.length_toBytes
  exact List.take_left' hlen

theorem drop_toBytes (h : Hash 28) (rest : Bytes) : (h.toBytes ++ rest).drop 28 = rest := by
  have hlen := h.length_toBytes
  exact List.drop_left' hlen

theorem parseBase_toBytes {payment : Hash 28 → ShelleyPaymentPart} {delegation : Hash 28 → ShelleyDelegationPart}
    {header : UInt8} (h h' : Hash 28) :
    parseBase payment delegation header (h.toBytes ++ h'.toBytes) =
      some (.shelley ⟨parseNetwork header, payment h, delegation h'⟩) := by
  have hlen : ¬ (h.toBytes ++ h'.toBytes).length < 56 := by
    rw [List.length_append, h.length_toBytes, h'.length_toBytes]
    omega
  have htake := take_toBytes h' []
  rw [List.append_nil] at htake
  rw [parseBase, if_neg hlen, take_toBytes, drop_toBytes, htake, Hash.ofBytes_toBytes, Hash.ofBytes_toBytes]

theorem parsePointer_toBytes {payment : Hash 28 → ShelleyPaymentPart} {header : UInt8} (h : Hash 28) (p : Pointer) :
    parsePointer payment header (h.toBytes ++ p.toVec) =
      some (.shelley ⟨parseNetwork header, payment h, .pointer p⟩) := by
  have hlen : ¬ (h.toBytes ++ p.toVec).length < 29 := by
    have hslot := varuintWrite_ne_nil p.slot
    rw [List.length_append, h.length_toBytes, Pointer.toVec, List.length_append, List.length_append]
    omega
  rw [parsePointer, if_neg hlen, drop_toBytes, Pointer.parse_toVec, take_toBytes, Hash.ofBytes_toBytes]
  rfl

theorem parseEnterprise_toBytes {payment : Hash 28 → ShelleyPaymentPart} {header : UInt8} (h : Hash 28) :
    parseEnterprise payment header (h.toBytes ++ []) = some (.shelley ⟨parseNetwork header, payment h, .null⟩) := by
  have hlen : ¬ (h.toBytes ++ []).length < 28 := by
    rw [List.append_nil, h.length_toBytes]
    omega
  rw [parseEnterprise, if_neg hlen, take_toBytes, Hash.ofBytes_toBytes]

theorem parseStake_toBytes {kind : Hash 28 → StakePayload} {header : UInt8} (h : Hash 28) :
    parseStake kind header h.toBytes = some (.stake ⟨parseNetwork header, kind h⟩) := by
  have hlen : ¬ h.toBytes.length < 28 := by
    rw [h.length_toBytes]
    omega
  have htake := take_toBytes h []
  rw [List.append_nil] at htake
  rw [parseStake, if_neg hlen, htake, Hash.ofBytes_toBytes]

theorem typeid_lt (a : ShelleyAddress) : a.typeid.toNat < 16 := by
  obtain ⟨net, payment, delegation⟩ := a
  cases payment <;> cases delegation <;> exact of_decide_eq_true rfl

theorem fromBytes_shelley {a : ShelleyAddress} (h : a.network.Nibble) : fromBytes a.toVec = some (.shelley a) := by
  have htype : a.toHeader.toNat / 16 = a.typeid.toNat := headerByte_type (typeid_lt a) h
  have hnet : parseNetwork a.toHeader = a.network := parseNetwork_headerByte (typeid_lt a) h
  rw [ShelleyAddress.toVec, fromBytes, htype]
  obtain ⟨net, payment, delegation⟩ := a
  cases payment with
  | key x =>
    cases delegation with
    | key y => exact (parseBase_toBytes x y).trans (by rw [hnet])
    | script y => exact (parseBase_toBytes x y).trans (by rw [hnet])
    | pointer p => exact (parsePointer_toBytes x p).trans (by rw [hnet])
    | null => exact (parseEnterprise_toBytes x).trans (by rw [hnet])
  | script x =>
    cases delegation with
    | key y => exact (parseBase_toBytes x y).trans (by rw [hnet])
    | script y => exact (parseBase_toBytes x y).trans (by rw [hnet])
    | pointer p => exact (parsePointer_toBytes x p).trans (by rw [hnet])
    | null => exact (parseEnterprise_toBytes x).trans (by rw [hnet])

theorem fromBytes_stake {a : StakeAddress} (h : a.network.Nibble) : fromBytes a.toVec = some (.stake a) := by
  have hlt : a.typeid.toNat < 16 := by
    obtain ⟨net, payload⟩ := a
    cases payload <;> exact of_decide_eq_true rfl
  have htype : a.toHeader.toNat / 16 = a.typeid.toNat := headerByte_type hlt h
  have hnet : parseNetwork a.toHeader = a.network := parseNetwork_headerByte hlt h
  rw [StakeAddress.toVec, fromBytes, htype]
  obtain ⟨net, payload⟩ := a
  cases payload with
  | stake x => exact (parseStake_toBytes x).trans (by rw [hnet])
  | script x => exact (parseStake_toBytes x).trans (by rw [hnet])

/-! ### What is read can be written -/

/-- The network of a Shelley or stake address. -/
def NibbleNetwork : Address → Prop
  | byron _ => True
  | shelley a => a.network.Nibble
  | stake a => a.network.Nibble

section Parsers
variable {header : UInt8} {payload : Bytes} {a : Address}

theorem parseBase_nibble {payment : Hash 28 → ShelleyPaymentPart} {delegation : Hash 28 → ShelleyDelegationPart}
    (h : parseBase payment delegation header payload = some a) : a.NibbleNetwork := by
  unfold parseBase at h
  split at h
  · cases h
  · cases h
    exact parseNetwork_nibble header

theorem parsePointer_nibble {payment : Hash 28 → ShelleyPaymentPart}
    (h : parsePointer payment header payload = some a) :
    a.NibbleNetwork := by
  unfold parsePointer at h
  split at h
  · cases h
  · obtain ⟨p, -, rfl⟩ := Option.map_eq_some_iff.1 h
    exact parseNetwork_nibble header

theorem parseEnterprise_nibble {payment : Hash 28 → ShelleyPaymentPart}
    (h : parseEnterprise payment header payload = some a) : a.NibbleNetwork := by
  unfold parseEnterprise at h
  split at h
  · cases h
  · cases h
    exact parseNetwork_nibble header

theorem parseStake_nibble {kind : Hash 28 → StakePayload} (h : parseStake kind header payload = some a) :
    a.NibbleNetwork := by
  unfold parseStake at h
  split at h
  · cases h
  · cases h
    exact parseNetwork_nibble header

end Parsers

theorem fromBytes_nibble {bs : Bytes} {a : Address} (h : fromBytes bs = some a) : a.NibbleNetwork := by
  cases bs with
  | nil => cases h
  | cons header payload =>
    rw [fromBytes] at h
    split at h
    · exact parseBase_nibble h
    · exact parseBase_nibble h
    · exact parseBase_nibble h
    · exact parseBase_nibble h
    · exact parsePointer_nibble h
    · exact parsePointer_nibble h
    · exact parseEnterprise_nibble h
    · exact parseEnterprise_nibble h
    · obtain ⟨p, -, rfl⟩ := Option.map_eq_some_iff.1 h
      trivial
    · exact parseStake_nibble h
    · exact parseStake_nibble h
    · cases h

/-- Shelley and stake addresses of every network a header has room for are read back from their bytes, and so is every
one that was read, from whatever bytes. -/
theorem fromBytes_toVec :
    (∀ a : ShelleyAddress, a.network.Nibble → fromBytes a.toVec = some (.shelley a)) ∧
    (∀ a : StakeAddress, a.network.Nibble → fromBytes a.toVec = some (.stake a)) ∧
    (∀ bs a, fromBytes bs = some (.shelley a) → fromBytes a.toVec = some (.shelley a)) ∧
    (∀ bs a, fromBytes bs = some (.stake a) → fromBytes a.toVec = some (.stake a)) := by
  refine ⟨?_, ?_, ?_, ?_⟩
  · intro a h
    exact fromBytes_shelley h
  · intro a h
    exact fromBytes_stake h
  · intro bs a h
    exact fromBytes_shelley (fromBytes_nibble h)
  · intro bs a h
    exact fromBytes_stake (fromBytes_nibble h)

/-- A pointer with the largest components on network 15, and a stake address read from more bytes than it needs. -/
theorem pointer_fromBytes_toVec :
    let a : ShelleyAddress := ⟨.other 15, .script 7, .pointer ⟨2 ^ 64 - 1, 0, 128⟩⟩
    let bs : Bytes := 0xe1 :: List.replicate 30 1
    fromBytes a.toVec = some (.shelley a) ∧
    ∃ b, fromBytes bs = some (.stake b) ∧ fromBytes b.toVec = some (.stake b) := by
  intro a bs
  obtain ⟨hshelley, -, -, hstake⟩ := fromBytes_toVec
  have hread : fromBytes bs = some (.stake ⟨.mainnet, .stake (Hash.ofBytes 28 (List.replicate 28 1))⟩) := rfl
  exact ⟨hshelley a ⟨by decide, by decide⟩, _, hread, hstake bs _ hread⟩

end Address
end Pallas
