import Pallas.Lib.BigEndian
import Pallas.Lib.Reader
import Mathlib.Data.Finmap

/-!
# The multiplexer (`pallas-network/src/multiplexer.rs`)

Agents queue chunks of their messages, the muxer writes each chunk to the bearer as a segment, and the demuxer on the other
side files the payload of a segment under its protocol. `recvFullMsg` puts payloads together until a message can be decoded.
The queues are lists in the order of arrival, and a read of the bearer for which there are not enough bytes waits. A queue
is full at some point in the source, and then the one who writes to it waits; here it has no bound.
-/

namespace Pallas.Network.Multiplexer
open Cbor

abbrev Timestamp := UInt32
abbrev Payload := Bytes
abbrev Protocol := UInt16

def headerLen : ℕ := 8

structure Header where
  protocol : Protocol
  timestamp : Timestamp
  payloadLen : UInt16
  deriving DecidableEq

/-- `From<&[u8]> for Header`, of eight bytes. -/
def Header.ofBytes (value : Bytes) : Header where
  timestamp := .ofNat (ofBigEndian (value.take 4))
  protocol := .ofNat (ofBigEndian ((value.drop 4).take 2))
  payloadLen := .ofNat (ofBigEndian ((value.drop 6).take 2))

/-- `From<Header> for [u8; 8]`. -/
def Header.toBytes (value : Header) : Bytes :=
  bigEndian 4 value.timestamp.toNat ++ bigEndian 2 value.protocol.toNat ++ bigEndian 2 value.payloadLen.toNat

/-! ### The demuxer -/

/-- The queue of every protocol that an agent has subscribed to. -/
abbrev Egress := Finmap fun _ : Protocol => List Payload

/-- `bearer` holds the bytes that have arrived and have not been read. -/
structure Demuxer where
  bearer : Bytes
  egress : Egress

namespace Demuxer

def new (bearer : Bytes) : Demuxer := ⟨bearer, ∅⟩

/-- `none` waits for more bytes. -/
def readSegment (self : Demuxer) : Option ((Protocol × Payload) × Demuxer) := do
  let (buf, rest) ← Decoder.take headerLen self.bearer
  let header := Header.ofBytes buf
  let (payload, rest) ← Decoder.take header.payloadLen.toNat rest
  some ((header.protocol, payload), { self with bearer := rest })

/-- A segment of a protocol that no one has subscribed to is dropped. -/
def demux (self : Demuxer) (protocol : Protocol) (payload : Payload) : Demuxer :=
  match self.egress.lookup protocol with
  | some sent => { self with egress := self.egress.insert protocol (sent ++ [payload]) }
  | none => self

def subscribe (self : Demuxer) (protocol : Protocol) : Demuxer := { self with egress := self.egress.insert protocol [] }

def tick (self : Demuxer) : Option Demuxer := do
  let ((protocol, payload), self) ← self.readSegment
  some (self.demux protocol payload)

/-- At most so many turns of the loop of `run`, which goes on until it waits. -/
def run : ℕ → Demuxer → Demuxer
  | 0, self => self
  | turns + 1, self => match self.tick with
    | some self => run turns self
    | none => self

end Demuxer

/-! ### The muxer -/

/-- `bearer` holds the bytes that have been written. -/
structure Muxer where
  bearer : Bytes
  ingress : List (Protocol × Payload)

namespace Muxer

def new : Muxer := ⟨[], []⟩

/-- `elapsed` is what the clock shows. -/
def writeSegment (self : Muxer) (elapsed : Timestamp) (protocol : Protocol) (payload : Payload) : Muxer :=
  let header : Header := { protocol, timestamp := elapsed, payloadLen := .ofNat payload.length }
  { self with bearer := self.bearer ++ header.toBytes ++ payload }

def mux (self : Muxer) (elapsed : Timestamp) (msg : Protocol × Payload) : Muxer := self.writeSegment elapsed msg.1 msg.2

def tick (self : Muxer) (elapsed : Timestamp) : Muxer := match self.ingress with
  | msg :: rest => { self with ingress := rest }.mux elapsed msg
  | [] => self

end Muxer

/-! ### Agents -/

/-- `protocol` is the id of the segments it sends. The ends of its queues are those of the muxer and of the demuxer. -/
structure AgentChannel where
  protocol : Protocol
  deriving DecidableEq

namespace AgentChannel

def forClient (protocol : Protocol) : AgentChannel := ⟨protocol⟩

def forServer (protocol : Protocol) : AgentChannel := ⟨protocol⟩

def enqueueChunk (self : AgentChannel) (muxer : Muxer) (chunk : Payload) : Muxer :=
  { muxer with ingress := muxer.ingress ++ [(self.protocol, chunk)] }

end AgentChannel

structure Plexer where
  demuxer : Demuxer
  muxer : Muxer

namespace Plexer

def new (bearer : Bytes) : Plexer := ⟨.new bearer, .new⟩

def subscribeClient (self : Plexer) (protocol : Protocol) : AgentChannel × Plexer :=
  (.forClient protocol, { self with demuxer := self.demuxer.subscribe (protocol ^^^ 0x8000) })

def subscribeServer (self : Plexer) (protocol : Protocol) : AgentChannel × Plexer :=
  (.forServer (protocol ^^^ 0x8000), { self with demuxer := self.demuxer.subscribe protocol })

end Plexer

/-! ### Whole messages -/

def maxSegmentPayloadLength : ℕ := 65535

/-- `payload.chunks(k + 1)`: pieces of that length, and a shorter one at the end. -/
def chunks (k : ℕ) (payload : Bytes) : List Payload :=
  if payload = [] then [] else payload.take (k + 1) :: chunks k (payload.drop (k + 1))
  termination_by payload.length
  decreasing_by
    have := List.length_pos_of_ne_nil ‹_›
    rw [List.length_drop]
    omega

/-- The chunks that `send_msg_chunks` enqueues for a message of this encoding. -/
def msgChunks (payload : Bytes) : List Payload := chunks (maxSegmentPayloadLength - 1) payload

section Decode
variable {ε M : Type} (isEndOfInput : ε → Bool) (decode : Reader ε M)

/-- The message, if the buffer holds one, and what is left of the buffer. -/
def tryDecodeMessage (buffer : Bytes) : Except ε (Option M) × Bytes :=
  match decode.run buffer with
  | (.ok msg, rest) => (.ok (some msg), rest)
  | (.error err, _) => if isEndOfInput err then (.ok none, buffer) else (.error err, buffer)

/-- `from_plexer` holds the payloads that the demuxer has filed for the agent and that it has not taken. -/
structure ChannelBuffer where
  fromPlexer : List Payload
  temp : Bytes
  deriving DecidableEq

/-- What a call of `recv_full_msg` comes to: it returns, or waits for the next payload. -/
inductive Receipt (ε M : Type) where
  | message (msg : M)
  | error (err : ε)
  | waits
  deriving DecidableEq

/-- The loop of `recv_full_msg`. -/
def recvChunks : List Payload → Bytes → Receipt ε M × ChannelBuffer
  | [], temp => (.waits, ⟨[], temp⟩)
  | chunk :: rest, temp => match tryDecodeMessage isEndOfInput decode (temp ++ chunk) with
    | (.ok (some msg), temp) => (.message msg, ⟨rest, temp⟩)
    | (.ok none, temp) => recvChunks rest temp
    | (.error err, temp) => (.error err, ⟨rest, temp⟩)

def ChannelBuffer.recvFullMsg (self : ChannelBuffer) : Receipt ε M × ChannelBuffer :=
  if self.temp = [] then recvChunks isEndOfInput decode self.fromPlexer self.temp
  else match tryDecodeMessage isEndOfInput decode self.temp with
    | (.ok (some msg), temp) => (.message msg, { self with temp })
    | (.ok none, temp) => recvChunks isEndOfInput decode self.fromPlexer temp
    | (.error err, temp) => (.error err, { self with temp })

/-- Repeated calls return these messages, and the one after them waits. -/
inductive Receives : ChannelBuffer → List M → ChannelBuffer → Prop where
  | waits {self self'} (h : self.recvFullMsg isEndOfInput decode = (.waits, self')) : Receives self [] self'
  | message {self mid self' msg msgs} (h : self.recvFullMsg isEndOfInput decode = (.message msg, mid))
      (hrest : Receives mid msgs self') : Receives self (msg :: msgs) self'

end Decode

/-! ### What the wire carries -/

@[simp] theorem Header.length_toBytes (value : Header) : value.toBytes.length = headerLen := by
  simp [Header.toBytes, headerLen, length_bigEndian]

theorem Header.ofBytes_toBytes (value : Header) : Header.ofBytes value.toBytes = value := by
  have htimestamp := value.timestamp.toNat_lt
  have hprotocol := value.protocol.toNat_lt
  have hlen := value.payloadLen.toNat_lt
  have h4 : (bigEndian 4 value.timestamp.toNat).length = 4 := length_bigEndian _ _
  have h2 : (bigEndian 2 value.protocol.toNat).length = 2 := length_bigEndian _ _
  have h2' : (bigEndian 2 value.payloadLen.toNat).length = 2 := length_bigEndian _ _
  have hfront : (bigEndian 4 value.timestamp.toNat ++ bigEndian 2 value.protocol.toNat).length = 6 := by
    rw [List.length_append, h4, h2]
  have htakeTimestamp : value.toBytes.take 4 = bigEndian 4 value.timestamp.toNat := by
    rw [Header.toBytes, List.append_assoc, List.take_left' h4]
  have htakeProtocol : (value.toBytes.drop 4).take 2 = bigEndian 2 value.protocol.toNat := by
    rw [Header.toBytes, List.append_assoc, List.drop_left' h4, List.take_left' h2]
  have htakeLen : (value.toBytes.drop 6).take 2 = bigEndian 2 value.payloadLen.toNat := by
    rw [Header.toBytes, List.drop_left' hfront, List.take_of_length_le h2'.le]
  rw [Header.ofBytes, htakeTimestamp, htakeProtocol, htakeLen, ofBigEndian_bigEndian (by omega),
    ofBigEndian_bigEndian (by omega), ofBigEndian_bigEndian (by omega)]
  simp

theorem chunks_flatten (k : ℕ) (payload : Bytes) : (chunks k payload).flatten = payload := by
  fun_induction chunks k payload with
  | case1 => rfl
  | case2 payload _ ih => rw [List.flatten_cons, ih, List.take_append_drop]

theorem length_le_of_mem_chunks {k : ℕ} {payload chunk : Bytes} (h : chunk ∈ chunks k payload) :
    chunk.length ≤ k + 1 := by
  fun_induction chunks k payload with
  | case1 => cases h
  | case2 payload _ ih =>
    rcases List.mem_cons.1 h with rfl | h
    · exact List.length_take_le ..
    · exact ih h

@[simp] theorem msgChunks_flatten (payload : Bytes) : (msgChunks payload).flatten = payload := chunks_flatten _ payload

theorem length_le_of_mem_msgChunks {payload chunk : Bytes} (h : chunk ∈ msgChunks payload) :
    chunk.length ≤ maxSegmentPayloadLength :=
  length_le_of_mem_chunks h

/-! ### What an agent receives -/

section Receive
variable {ε M : Type} {isEndOfInput : ε → Bool} {decode : Reader ε M} {w : Bytes} {msg : M}

theorem tryDecodeMessage_message (h : decode.Frames isEndOfInput w msg) (rest : Bytes) :
    tryDecodeMessage isEndOfInput decode (w ++ rest) = (.ok (some msg), rest) := by
  rw [tryDecodeMessage, h.takes rest]

theorem tryDecodeMessage_wait (h : decode.Frames isEndOfInput w msg) {buffer more : Bytes} (hw : w = buffer ++ more)
    (hmore : more ≠ []) : tryDecodeMessage isEndOfInput decode buffer = (.ok none, buffer) := by
  obtain ⟨err, rest, hrun, hend⟩ := h.ends buffer more hw hmore
  simp [tryDecodeMessage, hrun, hend]

theorem front_cases {buffer more rest : Bytes} (h : buffer ++ more = w ++ rest) :
    (∃ missing, missing ≠ [] ∧ w = buffer ++ missing ∧ more = missing ++ rest) ∨
      ∃ extra, buffer = w ++ extra ∧ rest = extra ++ more := by
  rcases List.append_eq_append_iff.1 h with ⟨missing, rfl, rfl⟩ | ⟨extra, rfl, rfl⟩
  · by_cases hmissing : missing = []
    · exact .inr ⟨[], by simp [hmissing]⟩
    · exact .inl ⟨missing, hmissing, rfl, rfl⟩
  · exact .inr ⟨extra, rfl, rfl⟩

theorem recvChunks_message (h : decode.Frames isEndOfInput w msg) {queue : List Payload} {temp rest missing : Bytes}
    (hw : w = temp ++ missing) (hmissing : missing ≠ []) (hqueue : queue.flatten = missing ++ rest) :
    ∃ self, recvChunks isEndOfInput decode queue temp = (.message msg, self) ∧
      self.temp ++ self.fromPlexer.flatten = rest := by
  induction queue generalizing temp missing with
  | nil => simp_all
  | cons chunk queue ih =>
    have hbytes : (temp ++ chunk) ++ queue.flatten = w ++ rest := by
      rw [List.append_assoc, ← List.flatten_cons, hqueue, hw, List.append_assoc]
    rcases front_cases hbytes with ⟨missing', hne, hw', hqueue'⟩ | ⟨extra, htemp, hrest⟩
    · obtain ⟨self, hself, hleft⟩ := ih hw' hne hqueue'
      refine ⟨self, ?_, hleft⟩
      rw [recvChunks, tryDecodeMessage_wait h hw' hne]
      exact hself
    · refine ⟨⟨queue, extra⟩, ?_, hrest.symm⟩
      rw [recvChunks, htemp, tryDecodeMessage_message h]

theorem ChannelBuffer.recvFullMsg_message (h : decode.Frames isEndOfInput w msg) (hw : w ≠ []) {self : ChannelBuffer}
    {rest : Bytes} (hself : self.temp ++ self.fromPlexer.flatten = w ++ rest) :
    ∃ self', self.recvFullMsg isEndOfInput decode = (.message msg, self') ∧
      self'.temp ++ self'.fromPlexer.flatten = rest := by
  by_cases htemp : self.temp = []
  · rw [recvFullMsg, if_pos htemp, htemp]
    rw [htemp, List.nil_append] at hself
    exact recvChunks_message h rfl hw hself
  · rw [recvFullMsg, if_neg htemp]
    rcases front_cases hself with ⟨missing, hne, hw', hqueue⟩ | ⟨extra, htemp', hrest⟩
    · rw [tryDecodeMessage_wait h hw' hne]
      exact recvChunks_message h hw' hne hqueue
    · rw [htemp', tryDecodeMessage_message h]
      exact ⟨{ self with temp := extra }, rfl, hrest.symm⟩

theorem recvChunks_waits (h : tryDecodeMessage isEndOfInput decode [] = (.ok none, [])) {queue : List Payload}
    (hqueue : queue.flatten = []) : recvChunks isEndOfInput decode queue [] = (.waits, ⟨[], []⟩) := by
  induction queue with
  | nil => rfl
  | cons chunk queue ih =>
    obtain ⟨rfl, hqueue⟩ := List.append_eq_nil_iff.1 hqueue
    rw [recvChunks, List.append_nil, h]
    exact ih hqueue

/-- Whatever the boundaries of the payloads, the messages arrive in order and nothing is left over. -/
theorem receives {encode : M → Bytes} (hempty : tryDecodeMessage isEndOfInput decode [] = (.ok none, []))
    {msgs : List M}
    (h : ∀ msg ∈ msgs, encode msg ≠ [] ∧ decode.Frames isEndOfInput (encode msg) msg) {self : ChannelBuffer}
    (hself : self.temp ++ self.fromPlexer.flatten = msgs.flatMap encode) :
    Receives isEndOfInput decode self msgs ⟨[], []⟩ := by
  induction msgs generalizing self with
  | nil =>
    obtain ⟨htemp, hqueue⟩ := List.append_eq_nil_iff.1 hself
    refine .waits ?_
    rw [ChannelBuffer.recvFullMsg, if_pos htemp, htemp]
    exact recvChunks_waits hempty hqueue
  | cons msg msgs ih =>
    obtain ⟨⟨hne, hmsg⟩, hmsgs⟩ := List.forall_mem_cons.1 h
    obtain ⟨mid, hmid, hrest⟩ := ChannelBuffer.recvFullMsg_message hmsg hne hself
    exact .message hmid (ih hmsgs hrest)

end Receive

end Pallas.Network.Multiplexer
