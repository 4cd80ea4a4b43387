import Pallas.Codec.LedgerElements

/-!
# The header of a block (`pallas-primitives/src/babbage/model.rs`)

From Babbage on, a block keeps its header in a `KeepRaw`, and there is none in the header itself. So a header is coherent as long
as it has its bytes, whatever it says (`decoded_header_coherent`), and not if it was built here (`built_header_incoherent`).
-/

namespace Pallas
open Cbor Cbor.Decoder Keep

/-! ### The types -/

namespace Babbage

structure VrfCert where
  output : Bytes
  proof : Bytes
  deriving DecidableEq

structure OperationalCert where
  operationalCertHotVkey : Bytes
  operationalCertSequenceNumber : UInt64
  operationalCertKesPeriod : UInt64
  operationalCertSigma : Bytes
  deriving DecidableEq

structure HeaderBody where
  blockNumber : UInt64
  slot : UInt64
  prevHash : Option (Hash 32)
  issuerVkey : Bytes
  vrfVkey : Bytes
  vrfResult : VrfCert
  blockBodySize : UInt64
  blockBodyHash : Hash 32
  operationalCert : OperationalCert
  protocolVersion : UInt64 × UInt64
  deriving DecidableEq

structure Header where
  headerBody : HeaderBody
  bodySignature : Bytes
  deriving DecidableEq

/-- The variables of the derived decoder. -/
structure HeaderVars where
  blockNumber : Option UInt64 := none
  slot : Option UInt64 := none
  prevHash : Option (Hash 32) := none
  issuerVkey : Option Bytes := none
  vrfVkey : Option Bytes := none
  vrfResult : Option VrfCert := none
  blockBodySize : Option UInt64 := none
  blockBodyHash : Option (Hash 32) := none
  operationalCert : Option OperationalCert := none
  protocolVersion : Option (UInt64 × UInt64) := none

end Babbage

open Babbage

/-! ### The codecs -/

namespace Codec
variable {ε : Type} (m : MinicborLedger ε)

def vrfCert : Codec ε VrfCert := struct m (byteString m) (byteString m) .mk fun v => (v.output, v.proof)

def operationalCert : Codec ε OperationalCert where
  decode := Derived.struct₄ m.derive (byteString m).decode (u64 m).decode (u64 m).decode (byteString m).decode .mk
  encode o := Cbor.array 4 ++ ((byteString m).encode o.operationalCertHotVkey ++
    ((u64 m).encode o.operationalCertSequenceNumber ++
      ((u64 m).encode o.operationalCertKesPeriod ++ (byteString m).encode o.operationalCertSigma)))

def protocolVersion : Codec ε (UInt64 × UInt64) where
  decode := m.pair (u64 m).decode (u64 m).decode
  encode v := Cbor.array 2 ++ ((u64 m).encode v.1 ++ (u64 m).encode v.2)

def headerFields : List (HeaderVars → Reader ε HeaderVars) :=
  [fun s => do return { s with blockNumber := some (← (u64 m).decode) },
    fun s => do return { s with slot := some (← (u64 m).decode) },
    fun s => do return { s with prevHash := ← (option m (hash m 32)).decode },
    fun s => do return { s with issuerVkey := some (← (byteString m).decode) },
    fun s => do return { s with vrfVkey := some (← (byteString m).decode) },
    fun s => do return { s with vrfResult := some (← (vrfCert m).decode) },
    fun s => do return { s with blockBodySize := some (← (u64 m).decode) },
    fun s => do return { s with blockBodyHash := some (← (hash m 32).decode) },
    fun s => do return { s with operationalCert := some (← (operationalCert m).decode) },
    fun s => do return { s with protocolVersion := some (← (protocolVersion m).decode) }]

def headerBody : Codec ε HeaderBody where
  decode := do
    let s ← Derived.readArray m.derive (headerFields m) {}
    let blockNumber ← Derived.required m.derive 0 s.blockNumber
    let slot ← Derived.required m.derive 1 s.slot
    let issuerVkey ← Derived.required m.derive 3 s.issuerVkey
    let vrfVkey ← Derived.required m.derive 4 s.vrfVkey
    let vrfResult ← Derived.required m.derive 5 s.vrfResult
    let blockBodySize ← Derived.required m.derive 6 s.blockBodySize
    let blockBodyHash ← Derived.required m.derive 7 s.blockBodyHash
    let operationalCert ← Derived.required m.derive 8 s.operationalCert
    let protocolVersion ← Derived.required m.derive 9 s.protocolVersion
    pure ⟨blockNumber, slot, s.prevHash, issuerVkey, vrfVkey, vrfResult, blockBodySize, blockBodyHash, operationalCert,
      protocolVersion⟩
  encode b := Cbor.array 10 ++ ((u64 m).encode b.blockNumber ++ ((u64 m).encode b.slot ++
    ((option m (hash m 32)).encode b.prevHash ++ ((byteString m).encode b.issuerVkey ++ ((byteString m).encode b.vrfVkey ++
      ((vrfCert m).encode b.vrfResult ++ ((u64 m).encode b.blockBodySize ++ ((hash m 32).encode b.blockBodyHash ++
        ((operationalCert m).encode b.operationalCert ++ (protocolVersion m).encode b.protocolVersion)))))))))

def babbageHeader : Codec ε Header := struct m (headerBody m) (byteString m) .mk fun h => (h.headerBody, h.bodySignature)

/-! ### What is written is read back -/

variable {m} (hm : m.Lawful)
include hm

theorem vrfCert_inverts (v : VrfCert) : (vrfCert m).decode.Inverts ((vrfCert m).encode v) v :=
  struct_inverts hm (byteString_roundTrips hm) (byteString_roundTrips hm) (fun _ => rfl) v

theorem operationalCert_inverts (o : OperationalCert) :
    (operationalCert m).decode.Inverts ((operationalCert m).encode o) o := by
  have hbytes := (byteString_roundTrips hm).inverts
  have hnumber := (u64_roundTrips hm).inverts
  exact Derived.struct₄_inverts (m := m.derive) hm.toContainers.toValues (hbytes _) (hnumber _) (hnumber _) (hbytes _)
    OperationalCert.mk

theorem protocolVersion_inverts (v : UInt64 × UInt64) :
    (protocolVersion m).decode.Inverts ((protocolVersion m).encode v) v := by
  intro _ rest
  refine (hm.toContainers.pair _ _ _ _ _).2 ⟨(u64 m).encode v.1 ++ ((u64 m).encode v.2 ++ rest), ?_, ?_⟩
  · show header 4 (Cbor.array 2 ++ ((u64 m).encode v.1 ++ (u64 m).encode v.2) ++ rest) = _
    rw [List.append_assoc, List.append_assoc]
    exact header_head (by omega) (by omega)
  · exact Reader.bind_eq_ok.2 ⟨_, _, hm.u64_takes v.1 _, Reader.bind_eq_ok.2 ⟨_, _, hm.u64_takes v.2 _, rfl⟩⟩

theorem headerBody_inverts (b : HeaderBody) : (headerBody m).decode.Inverts ((headerBody m).encode b) b := by
  intro hlt
  simp only [headerBody, List.length_append] at hlt
  have hnumber := (u64_roundTrips hm).inverts
  have hbytes := (byteString_roundTrips hm).inverts
  have hhash := (hash_roundTrips hm 32).inverts
  have hprev := (option_roundTrips hm (by omega) (hash_roundTrips hm 32) (hash_headed 32)).inverts b.prevHash
  refine Reader.Takes.last (?_ : (Derived.readArray m.derive _ {}).Takes _
    (⟨some b.blockNumber, some b.slot, b.prevHash, some b.issuerVkey, some b.vrfVkey, some b.vrfResult,
      some b.blockBodySize, some b.blockBodyHash, some b.operationalCert, some b.protocolVersion⟩ : HeaderVars)) rfl
  refine Derived.readArray_takes hm.toContainers.toValues (by omega) ?_
  simp only [Derived.readFields, Derived.readField, headerFields, List.getElem?_cons_zero, List.getElem?_cons_succ]
  refine Reader.Takes.bind ((hnumber _ (by omega)).last rfl) ?_
  refine Reader.Takes.bind ((hnumber _ (by omega)).last rfl) ?_
  refine Reader.Takes.bind ((hprev (by omega)).last rfl) ?_
  refine Reader.Takes.bind ((hbytes _ (by omega)).last rfl) ?_
  refine Reader.Takes.bind ((hbytes _ (by omega)).last rfl) ?_
  refine Reader.Takes.bind ((vrfCert_inverts hm _ (by omega)).last rfl) ?_
  refine Reader.Takes.bind ((hnumber _ (by omega)).last rfl) ?_
  refine Reader.Takes.bind ((hhash _ (by omega)).last rfl) ?_
  refine Reader.Takes.bind ((operationalCert_inverts hm _ (by omega)).last rfl) ?_
  exact Reader.Takes.last ((protocolVersion_inverts hm _ (by omega)).last rfl) rfl

theorem babbageHeader_inverts (h : Header) : (babbageHeader m).decode.Inverts ((babbageHeader m).encode h) h :=
  Derived.struct₂_inverts (m := m.derive) hm.toContainers.toValues (headerBody_inverts hm h.headerBody)
    ((byteString_roundTrips hm).inverts h.bodySignature) Header.mk

theorem babbageHeader_consumes {bs rest : Bytes} {h : Header} (hrun : (babbageHeader m).decode.run bs = (.ok h, rest)) :
    rest.length < bs.length := by
  have hsuffix {α : Type} {x : Reader ε α} {bs rest : Bytes} {r : Except ε α} (hx : x.run bs = (r, rest)) :
      rest <:+ bs := by
    have hforward := x.forward bs
    rwa [hx] at hforward
  obtain ⟨s, mid, hs, hrequired⟩ := Reader.bind_eq_ok.1 hrun
  obtain ⟨n, start, harray, hfields⟩ := Reader.bind_eq_ok.1 hs
  obtain ⟨b, tail, rfl, hstart⟩ := header_suffix ((hm.toContainers.array _ _ _).1 harray)
  have hle := (((hsuffix hrequired).trans (hsuffix hfields)).trans hstart).length_le
  rw [List.length_cons]
  omega

end Codec

/-! ### Headers in blocks -/

namespace Keep
open Codec
variable {ε : Type} {m : MinicborLedger ε}

def headerShape (hm : m.Lawful) : Shape ε Header where
  read _ := (Value.mk · []) <$> Reader.mapError .error (babbageHeader m).decode
  write h _ := (babbageHeader m).encode h
  read_fields {field bs rest t} hrun := by
    obtain ⟨h, mid, -, hrun⟩ := Reader.bind_eq_ok.1 hrun
    cases hrun
    exact fun _ hk => nomatch hk
  read_consumes {field bs rest t} hrun := by
    obtain ⟨h, mid, hdecode, hrun⟩ := Reader.bind_eq_ok.1 hrun
    cases hrun
    exact babbageHeader_consumes hm (Reader.run_mapError_eq_ok.1 hdecode)
  write_ne h _ := List.append_ne_nil_of_left_ne_nil (List.cons_ne_nil _ _) _

theorem decoded_header_coherent (hm : m.Lawful) (h : Header) (hlt : ((babbageHeader m).encode h).length < 2 ^ 64) :
    let k : KeepRaw (Value Header) := ⟨(babbageHeader m).encode h, .mk h []⟩
    let a : Kept Header := .mk (some ((babbageHeader m).encode h)) h []
    Holds (headerShape hm) k a ∧ Coherent (headerShape hm) .babbageHeader k a := by
  intro k a
  have hbytes : (babbageHeader m).decode.run ((babbageHeader m).encode h) = (.ok h, []) := by
    simpa using babbageHeader_inverts hm h hlt []
  have hdecode : ((headerShape hm).decode 1).run ((babbageHeader m).encode h) = (.ok k, []) := by
    refine KeepRaw.decode_eq_ok.2 ⟨Reader.bind_eq_ok.2 ⟨h, [], Reader.run_mapError_eq_ok.2 hbytes, rfl⟩, ?_⟩
    rw [List.length_nil, Nat.sub_zero, List.take_length]
  have hholds : Holds (headerShape hm) k a := .decode hdecode rfl (.mk fun _ hf => nomatch hf)
  exact ⟨hholds, hholds.coherent (.inr (Option.some_ne_none _))⟩

theorem built_header_incoherent (hm : m.Lawful) (h : Header) :
    let k : KeepRaw (Value Header) := .ofInner (.mk h [])
    let a : Kept Header := .mk none h []
    Holds (headerShape hm) k a ∧ ¬ Coherent (headerShape hm) .babbageHeader k a := by
  intro k a
  have hholds : Holds (headerShape hm) k a := .build h [] fun _ hp => nomatch hp
  refine ⟨hholds, fun hcoherent => ?_⟩
  rcases hholds.origin_of_coherent hcoherent with (hkind | hkind) | horigin
  · cases hkind
  · cases hkind
  · exact horigin rfl

end Keep
end Pallas
