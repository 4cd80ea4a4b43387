import Pallas.Lib.HashTable
import Pallas.Network2.CodecRoundTrip
import Pallas.Network2.CodecStreams

/-!
# Messages from segments (`pallas-network2/src/bearer.rs`, `behavior/mod.rs`)

A read takes one segment, puts its payload behind what is left of those before, and decodes messages until there is not a whole
one. What is left then is kept under the number of the mini-protocol, without the bit for the direction: the two directions of a
mini-protocol share it. So a message is put together from its segments as long as no segment of the other direction comes
between them.
-/

namespace Pallas.Network2
open Cbor Reader

abbrev Payload := Bytes

/-- The bit of a protocol number that marks the responder's segments. -/
def protocolServer : Channel := 0x8000

variable {ε : Type} (m : MinicborValues ε)

/-! ### Messages and their payloads (`behavior/mod.rs`) -/

/-- The result, and what is left in the buffer. An error leaves everything there, whether the bytes end too early or not. -/
def tryDecodeMsg {α : Type} (decode : Reader ε α) (buffer : Payload) : Option α × Payload :=
  match decode.run buffer with
  | (.ok msg, rest) => (some msg, rest)
  | (.error _, _) => (none, buffer)

namespace AnyMessage

/-- An error is a panic of the caller. -/
def payload : AnyMessage → Except String Payload
  | handshake msg => .ok (msg.encode Handshake.VersionData.encode)
  | keepAlive msg => .ok msg.encode
  | chainSync msg => msg.encode
  | peerSharing msg => .ok msg.encode
  | blockFetch msg => .ok msg.encode
  | txSubmission msg => .ok msg.encode
  | leiosNotify msg => .ok msg.encode
  | leiosFetch msg => .ok msg.encode

/-- What the arm of `from_payload` for a channel decodes. -/
def decoder (channel : Channel) : Option (Reader ε AnyMessage) :=
  if channel = Handshake.channelId then
    some (Handshake.Message.decode m (Handshake.VersionData.decode m) >>= fun msg => pure (.handshake msg))
  else if channel = Keepalive.channelId then some (Keepalive.Message.decode m >>= fun msg => pure (.keepAlive msg))
  else if channel = Chainsync.channelId then some (Chainsync.Message.decode m >>= fun msg => pure (.chainSync msg))
  else if channel = Peersharing.channelId then some (Peersharing.Message.decode m >>= fun msg => pure (.peerSharing msg))
  else if channel = Blockfetch.channelId then some (Blockfetch.Message.decode m >>= fun msg => pure (.blockFetch msg))
  else if channel = Txsubmission.channelId then some (Txsubmission.Message.decode m >>= fun msg => pure (.txSubmission msg))
  else if channel = Leiosnotify.channelId then some (Leiosnotify.Message.decode m >>= fun msg => pure (.leiosNotify msg))
  else if channel = Leiosfetch.channelId then some (Leiosfetch.Message.decode m >>= fun msg => pure (.leiosFetch msg))
  else none

def fromPayload (channel : Channel) (payload : Payload) : Option AnyMessage × Payload :=
  match decoder m channel with
  | some decode => tryDecodeMsg decode payload
  | none => (none, [])

end AnyMessage

/-! ### The bearer -/

namespace BearerReadHalf

/-- The loop of `read_full_msgs`. -/
def fromPayloads (channel : Channel) : (fuel : ℕ) → Payload → List AnyMessage × Payload
  | 0, payload => ([], payload)
  | fuel + 1, payload => match AnyMessage.fromPayload m channel payload with
    | (some msg, payload) =>
      let (msgs, payload) := fromPayloads channel fuel payload
      (msg :: msgs, payload)
    | (none, payload) => ([], payload)

/-- `read_full_msgs`, once the segment is read. -/
def readFullMsgs (partialChunks : HashTable Channel Payload) (segment : Channel × Payload) :
    List AnyMessage × HashTable Channel Payload :=
  let channel := segment.1 &&& ~~~protocolServer
  let payload := (partialChunks.lookup channel).getD [] ++ segment.2
  let (msgs, payload) := fromPayloads m channel (payload.length + 1) payload
  if payload = [] then (msgs, partialChunks.erase channel)
  else (msgs, (partialChunks.erase channel).insert channel payload)

/-- Reads all the segments: what each read returns, with the protocol number of its segment, and the chunks that are left. -/
def readAll (partialChunks : HashTable Channel Payload) :
    List (Channel × Payload) → List (Channel × List AnyMessage) × HashTable Channel Payload
  | [] => ([], partialChunks)
  | segment :: segments =>
    let (msgs, partialChunks) := readFullMsgs m partialChunks segment
    let (reads, partialChunks) := readAll partialChunks segments
    ((segment.1, msgs) :: reads, partialChunks)

end BearerReadHalf

/-! ### What it should do -/

section Spec

/-- The message has a payload, and its decoder takes this from the front of a stream. -/
def AnyMessage.Recoverable (msg : AnyMessage) : Prop :=
  ∃ w decode, msg.payload = .ok w ∧ decoder m msg.channel = some decode ∧ decode.Takes w msg

/-- The bytes of a message. -/
def AnyMessage.bytes (msg : AnyMessage) : Payload := msg.payload.toOption.getD []

/-- The bytes of messages, one after the other. -/
def streamOf (msgs : List AnyMessage) : Payload := msgs.flatMap AnyMessage.bytes

/-- Of messages that arrive one after the other, those that are there in full, and what is there of the next. -/
def arrived : (msgs : List AnyMessage) → (received : Payload) → List AnyMessage × Payload
  | [], received => ([], received)
  | msg :: msgs, received =>
    if msg.bytes <+: received then
      let (whole, rest) := arrived msgs (received.drop msg.bytes.length)
      (msg :: whole, rest)
    else ([], received)

/-- What has been received under a protocol number. -/
def received (segments : List (Channel × Payload)) (raw : Channel) : Payload :=
  (segments.filter fun s => s.1 = raw).flatMap Prod.snd

/-- What the reads of segments with a protocol number have returned. -/
def messagesOf (reads : List (Channel × List AnyMessage)) (raw : Channel) : List AnyMessage :=
  (reads.filter fun r => r.1 = raw).flatMap Prod.snd

variable (family : Channel → List AnyMessage) (segments : List (Channel × Payload))

/-- The payloads of the messages under every protocol number, cut into the segments. -/
structure Cut : Prop where
  recoverable : ∀ raw, ∀ msg ∈ family raw, msg.Recoverable m
  channel : ∀ raw, ∀ msg ∈ family raw, msg.channel = raw &&& ~~~protocolServer
  whole : ∀ raw, received segments raw = streamOf (family raw)

/-- When a segment arrives, there is nothing in part of the messages in the other direction. -/
def Apart : Prop := ∀ pre raw chunk post, segments = pre ++ (raw, chunk) :: post → chunk ≠ [] →
  ∀ raw', raw' ≠ raw → raw' &&& ~~~protocolServer = raw &&& ~~~protocolServer →
    (arrived (family raw') (received pre raw')).2 = []

/-- The messages are read as they were sent, and nothing is left. -/
structure Yields : Prop where
  messages : ∀ raw, messagesOf (BearerReadHalf.readAll m ∅ segments).1 raw = family raw
  empty : (BearerReadHalf.readAll m ∅ segments).2 = ∅

end Spec

variable {m} {bs rest w : Bytes} {msg : AnyMessage} {msgs : List AnyMessage} {channel raw : Channel}

/-! ### The decoders -/

section Decoders
variable {decode : Reader ε AnyMessage} (hm : m.Lawful)
include hm

theorem AnyMessage.decoder_streams (h : decoder m channel = some decode) : decode.Streams m.isEndOfInput := by
  unfold decoder at h
  split_ifs at h
  · cases h
    exact (Handshake.Message.decode_streams hm (Handshake.VersionData.decode_streams hm)).map _
  · cases h
    exact (Keepalive.Message.decode_streams hm).map _
  · cases h
    exact (Chainsync.Message.decode_streams hm).map _
  · cases h
    exact (Peersharing.Message.decode_streams hm).map _
  · cases h
    exact (Blockfetch.Message.decode_streams hm).map _
  · cases h
    exact (Txsubmission.Message.decode_streams hm).map _
  · cases h
    exact (Leiosnotify.Message.decode_streams hm).map _
  · cases h
    exact (Leiosfetch.Message.decode_streams hm).map _

theorem array_shortens {α : Type} {f : Option UInt64 → Reader ε α} {a : α} (h : (m.array >>= f).run bs = (.ok a, rest)) :
    rest.length < bs.length := by
  obtain ⟨len, mid, hlen, h⟩ := Reader.bind_eq_ok.1 h
  exact lt_of_le_of_lt (Reader.length_le h) (header_length ((hm.array _ _ _).1 hlen))

theorem AnyMessage.decoder_shortens (h : decoder m channel = some decode) (hrun : decode.run bs = (.ok msg, rest)) :
    rest.length < bs.length := by
  have hmessage : ∀ {α : Type} {f : Option UInt64 → Reader ε α} {g : α → AnyMessage},
      decode = (m.array >>= f) >>= (fun a => pure (g a)) → rest.length < bs.length := by
    rintro α f g rfl
    obtain ⟨a, mid, ha, hpure⟩ := Reader.bind_eq_ok.1 hrun
    cases hpure
    exact array_shortens hm ha
  unfold decoder at h
  split_ifs at h <;> exact hmessage (Option.some.inj h).symm

end Decoders

/-! ### What has arrived -/

theorem arrived_cons_append (msg : AnyMessage) (msgs : List AnyMessage) (bs : Payload) :
    arrived (msg :: msgs) (msg.bytes ++ bs) = (msg :: (arrived msgs bs).1, (arrived msgs bs).2) := by
  rw [arrived, if_pos (List.prefix_append _ _), List.drop_left]

theorem arrived_streamOf (msgs : List AnyMessage) : arrived msgs (streamOf msgs) = (msgs, []) := by
  induction msgs with
  | nil => rfl
  | cons msg msgs ih =>
    rw [streamOf, List.flatMap_cons, arrived_cons_append]
    rw [streamOf] at ih
    rw [ih]

theorem arrived_spec (h : bs <+: streamOf msgs) : ∃ rest, msgs = (arrived msgs bs).1 ++ rest ∧
    bs = streamOf (arrived msgs bs).1 ++ (arrived msgs bs).2 ∧ (arrived msgs bs).2 <+: streamOf rest ∧
    ∀ more, arrived msgs (bs ++ more) = ((arrived msgs bs).1 ++ (arrived rest ((arrived msgs bs).2 ++ more)).1,
      (arrived rest ((arrived msgs bs).2 ++ more)).2) := by
  induction msgs generalizing bs with
  | nil => exact ⟨[], rfl, rfl, h, fun more => rfl⟩
  | cons msg msgs ih =>
    by_cases hmsg : msg.bytes <+: bs
    · obtain ⟨bs, rfl⟩ := hmsg
      have hbs : bs <+: streamOf msgs := (List.prefix_append_right_inj _).1 h
      obtain ⟨rest, hmsgs, hstream, hrest, hmore⟩ := ih hbs
      rw [arrived_cons_append]
      refine ⟨rest, congrArg _ hmsgs, ?_, hrest, fun more => ?_⟩
      · rw [streamOf, List.flatMap_cons, List.append_assoc, ← streamOf, ← hstream]
      · rw [List.append_assoc, arrived_cons_append, hmore more]
        rfl
    · have hnone : arrived (msg :: msgs) bs = ([], bs) := by rw [arrived, if_neg hmsg]
      rw [hnone]
      exact ⟨msg :: msgs, rfl, rfl, h, fun more => rfl⟩

theorem arrived_rest {rest : List AnyMessage} (h : bs <+: streamOf msgs) (hmsgs : msgs = (arrived msgs bs).1 ++ rest) :
    arrived rest (arrived msgs bs).2 = ([], (arrived msgs bs).2) := by
  obtain ⟨rest', hmsgs', -, -, hmore⟩ := arrived_spec h
  obtain rfl : rest = rest' := List.append_cancel_left (hmsgs.symm.trans hmsgs')
  have hsame := hmore []
  rw [List.append_nil, List.append_nil, Prod.ext_iff] at hsame
  exact Prod.ext (List.append_right_eq_self.1 hsame.1.symm) hsame.2.symm

/-! ### The loop -/

theorem AnyMessage.Recoverable.bytes_eq (h : msg.Recoverable m) : ∃ decode, decoder m msg.channel = some decode ∧
    decode.Takes msg.bytes msg := by
  obtain ⟨w, decode, hw, hdecode, htakes⟩ := h
  refine ⟨decode, hdecode, ?_⟩
  rwa [bytes, hw]

theorem tryDecodeMsg_ok {decode : Reader ε AnyMessage} (h : decode.run bs = (.ok msg, rest)) :
    tryDecodeMsg decode bs = (some msg, rest) := by
  unfold tryDecodeMsg
  rw [h]

theorem tryDecodeMsg_error {decode : Reader ε AnyMessage} {e : ε} (h : decode.run bs = (.error e, rest)) :
    tryDecodeMsg decode bs = (none, bs) := by
  unfold tryDecodeMsg
  rw [h]

namespace BearerReadHalf

theorem fromPayloads_some {fuel : ℕ} (h : AnyMessage.fromPayload m channel bs = (some msg, rest)) :
    fromPayloads m channel (fuel + 1) bs =
      (msg :: (fromPayloads m channel fuel rest).1, (fromPayloads m channel fuel rest).2) := by
  rw [fromPayloads, h]

theorem fromPayloads_none {fuel : ℕ} (h : AnyMessage.fromPayload m channel bs = (none, rest)) :
    fromPayloads m channel (fuel + 1) bs = ([], rest) := by
  rw [fromPayloads, h]

variable (hm : m.Lawful)
include hm

theorem fromPayload_nil (channel : Channel) : AnyMessage.fromPayload m channel [] = (none, []) := by
  unfold AnyMessage.fromPayload
  cases hdecode : AnyMessage.decoder m channel with
  | none => rfl
  | some decode =>
    rcases hrun : decode.run [] with ⟨e | msg, rest⟩
    · exact tryDecodeMsg_error hrun
    · exact absurd (AnyMessage.decoder_shortens hm hdecode hrun) (Nat.not_lt_zero _)

theorem fromPayloads_eq {fuel : ℕ} (hrecoverable : ∀ msg ∈ msgs, msg.Recoverable m)
    (hchannel : ∀ msg ∈ msgs, msg.channel = channel) (hbs : bs <+: streamOf msgs) (hfuel : bs.length < fuel) :
    fromPayloads m channel fuel bs = arrived msgs bs := by
  induction msgs generalizing bs fuel with
  | nil =>
    obtain ⟨fuel, rfl⟩ : ∃ k, fuel = k + 1 := ⟨fuel - 1, by omega⟩
    obtain rfl := List.prefix_nil.1 hbs
    exact fromPayloads_none (fromPayload_nil hm channel)
  | cons msg msgs ih =>
    obtain ⟨fuel, rfl⟩ : ∃ k, fuel = k + 1 := ⟨fuel - 1, by omega⟩
    obtain ⟨hmsg, hmsgs⟩ := List.forall_mem_cons.1 hrecoverable
    obtain ⟨hmsgChannel, hmsgsChannel⟩ := List.forall_mem_cons.1 hchannel
    obtain ⟨decode, hdecode, htakes⟩ := hmsg.bytes_eq
    rw [hmsgChannel] at hdecode
    have hstep : AnyMessage.fromPayload m channel bs = tryDecodeMsg decode bs := by rw [AnyMessage.fromPayload, hdecode]
    by_cases hfull : msg.bytes <+: bs
    · obtain ⟨bs, rfl⟩ := hfull
      have hshort := AnyMessage.decoder_shortens hm hdecode (htakes bs)
      rw [fromPayloads_some (hstep.trans (tryDecodeMsg_ok (htakes bs))), arrived_cons_append,
        ih hmsgs hmsgsChannel ((List.prefix_append_right_inj _).1 hbs) (by omega)]
    · -- the bytes end within the message
      obtain ⟨more, hmore⟩ := (List.prefix_or_prefix_of_prefix hbs (List.prefix_append _ _)).resolve_right hfull
      have hne : more ≠ [] := by
        rintro rfl
        exact hfull ⟨[], by rw [← hmore, List.append_nil, List.append_nil]⟩
      rw [← hmore] at htakes
      obtain ⟨e, rest, hrun, -⟩ := (AnyMessage.decoder_streams hm hdecode).ends htakes hne
      rw [fromPayloads_none (hstep.trans (tryDecodeMsg_error hrun)), arrived, if_neg hfull]

end BearerReadHalf

/-! ### The segments -/

section Segments
variable {family : Channel → List AnyMessage} {segments pre post : List (Channel × Payload)} {chunk : Payload}
  {table : HashTable Channel Payload}

theorem received_append (pre post : List (Channel × Payload)) (raw : Channel) :
    received (pre ++ post) raw = received pre raw ++ received post raw := by
  simp [received]

theorem received_next (pre : List (Channel × Payload)) (raw : Channel) (chunk : Payload) :
    received (pre ++ [(raw, chunk)]) raw = received pre raw ++ chunk := by
  rw [received_append]
  simp [received]

theorem received_other {raw' : Channel} (h : raw' ≠ raw ∨ chunk = []) :
    received (pre ++ [(raw, chunk)]) raw' = received pre raw' := by
  rw [received_append]
  rcases h with h | rfl
  · simp [received, Ne.symm h]
  · by_cases hraw : raw = raw'
    · simp [received, hraw]
    · simp [received, hraw]

theorem messagesOf_nil (raw : Channel) : messagesOf [] raw = [] := rfl

theorem messagesOf_cons (raw : Channel) (msgs : List AnyMessage) (reads : List (Channel × List AnyMessage)) (raw' : Channel) :
    messagesOf ((raw, msgs) :: reads) raw' = (if raw = raw' then msgs else []) ++ messagesOf reads raw' := by
  by_cases h : raw = raw' <;> simp [messagesOf, h]

variable (family pre) in
/-- The messages that have arrived in full under a protocol number. -/
def whole (raw : Channel) : List AnyMessage := (arrived (family raw) (received pre raw)).1

variable (family pre) in
/-- What there is of the next message. -/
def left (raw : Channel) : Payload := (arrived (family raw) (received pre raw)).2

variable (family pre table) in
/-- The table holds what is left under each protocol number, of which only one in each direction has anything left. -/
structure Holds : Prop where
  held : ∀ channel rest, table.lookup channel = some rest → rest ≠ [] ∧
    ∃ owner, owner &&& ~~~protocolServer = channel ∧ left family pre owner = rest ∧
      ∀ raw, raw ≠ owner → raw &&& ~~~protocolServer = channel → left family pre raw = []
  free : ∀ raw, table.lookup (raw &&& ~~~protocolServer) = none → left family pre raw = []

theorem Cut.arrived_nil (hm : m.Lawful) (hcut : Cut m family segments) (raw : Channel) :
    arrived (family raw) [] = ([], []) := by
  rw [← BearerReadHalf.fromPayloads_eq hm (hcut.recoverable raw) (hcut.channel raw) List.nil_prefix Nat.zero_lt_one]
  exact BearerReadHalf.fromPayloads_none (BearerReadHalf.fromPayload_nil hm _)

theorem Cut.holds_nil (hm : m.Lawful) (hcut : Cut m family segments) : Holds family [] ∅ := by
  refine ⟨nofun, fun raw _ => ?_⟩
  show (arrived (family raw) []).2 = []
  rw [hcut.arrived_nil hm]

theorem Holds.owner (h : Holds family pre table) (hapart : Apart family segments)
    (hsegments : segments = pre ++ (raw, chunk) :: post) : ∃ owner, (owner = raw ∨ chunk = []) ∧
      owner &&& ~~~protocolServer = raw &&& ~~~protocolServer ∧
      left family pre owner = (table.lookup (raw &&& ~~~protocolServer)).getD [] ∧
      ∀ raw', raw' ≠ owner → raw' &&& ~~~protocolServer = raw &&& ~~~protocolServer → left family pre raw' = [] := by
  rcases hlookup : table.lookup (raw &&& ~~~protocolServer) with _ | rest
  · exact ⟨raw, .inl rfl, rfl, h.free raw hlookup, fun raw' _ hraw' => h.free raw' (by rw [hraw', hlookup])⟩
  · obtain ⟨hne, owner, howner, hleft, hothers⟩ := h.held _ rest hlookup
    refine ⟨owner, ?_, howner, hleft, hothers⟩
    by_contra hcon
    push Not at hcon
    have hnone : left family pre owner = [] := hapart pre raw chunk post hsegments hcon.2 owner hcon.1 howner
    exact hne (hleft.symm.trans hnone)

namespace BearerReadHalf

theorem readFullMsgs_spec (h : fromPayloads m (raw &&& ~~~protocolServer)
    (((table.lookup (raw &&& ~~~protocolServer)).getD [] ++ chunk).length + 1)
    ((table.lookup (raw &&& ~~~protocolServer)).getD [] ++ chunk) = (msgs, rest)) :
    (readFullMsgs m table (raw, chunk)).1 = msgs ∧
    ∀ channel, (readFullMsgs m table (raw, chunk)).2.lookup channel =
      if channel = raw &&& ~~~protocolServer then (if rest = [] then none else some rest) else table.lookup channel := by
  unfold readFullMsgs
  simp only [h]
  by_cases hrest : rest = []
  · simp only [hrest, if_true]
    exact ⟨trivial, fun channel => HashTable.lookup_erase_ite⟩
  · simp only [hrest, if_false]
    refine ⟨trivial, fun channel => ?_⟩
    rw [HashTable.lookup_insert_ite, HashTable.lookup_erase_ite]
    split <;> rfl

end BearerReadHalf

theorem whole_next (hm : m.Lawful) (hcut : Cut m family segments) (hsegments : segments = pre ++ (raw, chunk) :: post)
    {owner : Channel} (howner : owner = raw ∨ chunk = []) {fuel : ℕ} (hfuel : (left family pre owner ++ chunk).length < fuel) :
    ∃ msgs, BearerReadHalf.fromPayloads m (owner &&& ~~~protocolServer) fuel (left family pre owner ++ chunk) =
      (msgs, left family (pre ++ [(raw, chunk)]) owner) ∧
    whole family (pre ++ [(raw, chunk)]) owner = whole family pre owner ++ msgs ∧ (owner ≠ raw → msgs = []) := by
  have hnext : received (pre ++ [(raw, chunk)]) owner = received pre owner ++ chunk := by
    rcases howner with rfl | rfl
    · exact received_next ..
    · rw [received_other (.inr rfl), List.append_nil]
  have hstream : received pre owner ++ chunk <+: streamOf (family owner) := by
    refine ⟨received post owner, ?_⟩
    rw [← hnext, ← received_append, ← hcut.whole, hsegments, List.append_assoc, List.singleton_append]
  have hpre : received pre owner <+: streamOf (family owner) := (List.prefix_append _ _).trans hstream
  obtain ⟨rest, hfamily, hreceived, -, hmore⟩ := arrived_spec hpre
  have hrest : ∀ msg ∈ rest, msg ∈ family owner := by
    intro msg hmsg
    rw [hfamily]
    exact List.mem_append_right _ hmsg
  have hleft : left family pre owner ++ chunk <+: streamOf rest := by
    have hsplit : streamOf (family owner) = streamOf (whole family pre owner) ++ streamOf rest := by
      rw [streamOf, hfamily, List.flatMap_append]
      rfl
    rw [hsplit, hreceived, List.append_assoc] at hstream
    exact (List.prefix_append_right_inj _).1 hstream
  refine ⟨(arrived rest (left family pre owner ++ chunk)).1, ?_, ?_, fun hne => ?_⟩
  · rw [BearerReadHalf.fromPayloads_eq hm (fun msg h => hcut.recoverable owner msg (hrest msg h))
      (fun msg h => hcut.channel owner msg (hrest msg h)) hleft hfuel, left, left, hnext, hmore chunk]
  · rw [whole, hnext, hmore chunk]
    rfl
  · obtain rfl := howner.resolve_left hne
    rw [List.append_nil, left, arrived_rest hpre hfamily]

theorem Holds.next (hm : m.Lawful) (hcut : Cut m family segments) (hapart : Apart family segments)
    (h : Holds family pre table) (hsegments : segments = pre ++ (raw, chunk) :: post) :
    Holds family (pre ++ [(raw, chunk)]) (BearerReadHalf.readFullMsgs m table (raw, chunk)).2 ∧
    ∀ raw', whole family (pre ++ [(raw, chunk)]) raw' =
      whole family pre raw' ++ messagesOf [(raw, (BearerReadHalf.readFullMsgs m table (raw, chunk)).1)] raw' := by
  obtain ⟨owner, howner, hchannel, hleft, hothers⟩ := h.owner hapart hsegments
  obtain ⟨msgs, hread, hwhole, hempty⟩ := whole_next hm hcut hsegments howner (Nat.lt_succ_self _)
  rw [hleft, hchannel] at hread
  obtain ⟨hmsgs, hlookup⟩ := BearerReadHalf.readFullMsgs_spec hread
  have hother : ∀ raw', raw' ≠ owner → received (pre ++ [(raw, chunk)]) raw' = received pre raw' := by
    intro raw' hne
    rcases howner with rfl | rfl
    · exact received_other (.inl hne)
    · exact received_other (.inr rfl)
  have hleftOther : ∀ raw', raw' ≠ owner → left family (pre ++ [(raw, chunk)]) raw' = left family pre raw' := by
    intro raw' hne
    rw [left, hother raw' hne, left]
  refine ⟨⟨fun channel rest hrest => ?_, fun raw' hnone => ?_⟩, fun raw' => ?_⟩
  · rw [hlookup] at hrest
    by_cases hsame : channel = raw &&& ~~~protocolServer
    · rw [if_pos hsame] at hrest
      split_ifs at hrest with hnil
      obtain rfl := Option.some.inj hrest
      refine ⟨hnil, owner, hchannel.trans hsame.symm, rfl, fun raw' hne hraw' => ?_⟩
      rw [hleftOther raw' hne]
      exact hothers raw' hne (hraw'.trans hsame)
    · rw [if_neg hsame] at hrest
      obtain ⟨hne, owner', howner', rfl, hothers'⟩ := h.held channel rest hrest
      have happart : ∀ raw', raw' &&& ~~~protocolServer = channel → raw' ≠ owner := by
        rintro raw' hraw' rfl
        exact hsame (hraw'.symm.trans hchannel)
      refine ⟨hne, owner', howner', hleftOther owner' (happart owner' howner'), fun raw' hraw' hmask => ?_⟩
      rw [hleftOther raw' (happart raw' hmask)]
      exact hothers' raw' hraw' hmask
  · rw [hlookup] at hnone
    by_cases hsame : raw' &&& ~~~protocolServer = raw &&& ~~~protocolServer
    · rw [if_pos hsame] at hnone
      split_ifs at hnone with hnil
      by_cases hraw : raw' = owner
      · rw [hraw, hnil]
      · rw [hleftOther raw' hraw]
        exact hothers raw' hraw hsame
    · rw [if_neg hsame] at hnone
      have hraw : raw' ≠ owner := by
        rintro rfl
        exact hsame hchannel
      rw [hleftOther raw' hraw]
      exact h.free raw' hnone
  · rw [messagesOf_cons, hmsgs]
    by_cases hraw : raw' = raw
    · subst hraw
      rw [if_pos rfl, messagesOf_nil, List.append_nil]
      by_cases hne : owner = raw'
      · subst hne
        exact hwhole
      · rw [hempty hne, List.append_nil, whole, hother raw' (Ne.symm hne), whole]
    · have hsame : received (pre ++ [(raw, chunk)]) raw' = received pre raw' := received_other (.inl hraw)
      rw [if_neg (Ne.symm hraw), messagesOf_nil, List.append_nil, List.append_nil, whole, hsame, whole]

theorem Holds.readAll (hm : m.Lawful) (hcut : Cut m family segments) (hapart : Apart family segments)
    (h : Holds family pre table) (hsegments : segments = pre ++ post) :
    Holds family segments (BearerReadHalf.readAll m table post).2 ∧
    ∀ raw, whole family segments raw = whole family pre raw ++ messagesOf (BearerReadHalf.readAll m table post).1 raw := by
  induction post generalizing pre table with
  | nil =>
    rw [List.append_nil] at hsegments
    subst hsegments
    exact ⟨h, fun raw => (List.append_nil _).symm⟩
  | cons segment post ih =>
    obtain ⟨raw, chunk⟩ := segment
    obtain ⟨hnext, hwhole⟩ := h.next hm hcut hapart hsegments
    obtain ⟨hholds, hrest⟩ := ih hnext (hsegments.trans (List.append_cons ..))
    refine ⟨hholds, fun raw' => ?_⟩
    rw [hrest raw', hwhole raw', List.append_assoc, BearerReadHalf.readAll, messagesOf_cons, messagesOf_cons, messagesOf_nil,
      List.append_nil]

theorem Holds.eq_empty (h : Holds family pre table) (hleft : ∀ raw, left family pre raw = []) : table = ∅ := by
  refine AList.ext (List.eq_nil_iff_forall_not_mem.2 fun entry hentry => ?_)
  obtain ⟨hne, owner, -, howner, -⟩ := h.held _ _ (HashTable.mem_entries.1 hentry)
  exact hne (howner.symm.trans (hleft owner))

theorem readAll_yields (hm : m.Lawful) (hcut : Cut m family segments) (hapart : Apart family segments) :
    Yields m family segments := by
  obtain ⟨hholds, hwhole⟩ := (hcut.holds_nil hm).readAll hm hcut hapart (List.nil_append segments).symm
  have hall : ∀ raw, arrived (family raw) (received segments raw) = (family raw, []) := by
    intro raw
    rw [hcut.whole raw, arrived_streamOf]
  refine ⟨fun raw => ?_, hholds.eq_empty fun raw => ?_⟩
  · have hraw := hwhole raw
    rw [whole, hall] at hraw
    have hnone : whole family [] raw = [] := by
      show (arrived (family raw) []).1 = []
      rw [hcut.arrived_nil hm]
    rw [hnone, List.nil_append] at hraw
    exact hraw.symm
  · rw [left, hall]

end Segments

/-! ### Messages that are recovered -/

namespace AnyMessage

theorem recoverable_of_inverts {α : Type} {x : Reader ε α} {a : α} {g : α → AnyMessage} (hw : (g a).payload = .ok w)
    (hdecode : decoder m (g a).channel = some (x >>= fun msg => pure (g msg))) (h : x.Inverts w a)
    (hlt : (g a).bytes.length < 2 ^ 64) : (g a).Recoverable m := by
  have hall : (x >>= fun msg => pure (g msg)).Inverts w (g a) := h.last rfl
  refine ⟨w, _, hw, hdecode, hall ?_⟩
  rwa [bytes, hw] at hlt

variable (hm : m.Lawful)
include hm

theorem handshake_recoverable {msg : Handshake.Message} (hmsg : msg.Faithful Handshake.VersionData.BothOrNeither)
    (hlt : (handshake msg).bytes.length < 2 ^ 64) : (handshake msg).Recoverable m :=
  recoverable_of_inverts rfl rfl
    (Handshake.Message.decode_inverts hm (fun _ h => Handshake.VersionData.decode_inverts hm h) hmsg) hlt

theorem keepAlive_recoverable {msg : Keepalive.Message} (hlt : (keepAlive msg).bytes.length < 2 ^ 64) :
    (keepAlive msg).Recoverable m :=
  recoverable_of_inverts rfl rfl (Keepalive.Message.decode_inverts hm msg) hlt

theorem chainSync_recoverable {msg : Chainsync.Message} (hmsg : msg.PrefixFits)
    (hlt : (chainSync msg).bytes.length < 2 ^ 64) : (chainSync msg).Recoverable m := by
  obtain ⟨w, hw, hmsg⟩ := Chainsync.Message.decode_inverts hm hmsg
  exact recoverable_of_inverts hw rfl hmsg hlt

theorem blockFetch_recoverable {msg : Blockfetch.Message} (hlt : (blockFetch msg).bytes.length < 2 ^ 64) :
    (blockFetch msg).Recoverable m :=
  recoverable_of_inverts rfl rfl (Blockfetch.Message.decode_inverts hm msg) hlt

theorem txSubmission_recoverable {msg : Txsubmission.Message} (hlt : (txSubmission msg).bytes.length < 2 ^ 64) :
    (txSubmission msg).Recoverable m :=
  recoverable_of_inverts rfl rfl (Txsubmission.Message.decode_inverts hm msg) hlt

theorem peerSharing_recoverable {msg : Peersharing.Message} (hlt : (peerSharing msg).bytes.length < 2 ^ 64) :
    (peerSharing msg).Recoverable m :=
  recoverable_of_inverts rfl rfl (Peersharing.Message.decode_inverts hm msg) hlt

theorem leiosNotify_recoverable {msg : Leiosnotify.Message}
    (hmsg : ∀ raw ∈ msg.raws, ∀ rest, Reads .item (raw ++ rest) rest)
    (hlt : (leiosNotify msg).bytes.length < 2 ^ 64) : (leiosNotify msg).Recoverable m :=
  recoverable_of_inverts rfl rfl (Leiosnotify.Message.decode_inverts hm hmsg) hlt

theorem leiosFetch_recoverable {msg : Leiosfetch.Message}
    (hmsg : ∀ raw ∈ msg.raws, ∀ rest, Reads .item (raw ++ rest) rest)
    (hsorted : ∀ eb bitmaps, msg = .blockTxsRequest eb bitmaps → Entries.Sorted bitmaps.windows)
    (hlt : (leiosFetch msg).bytes.length < 2 ^ 64) : (leiosFetch msg).Recoverable m :=
  recoverable_of_inverts rfl rfl (Leiosfetch.Message.decode_inverts hm hmsg hsorted) hlt

end AnyMessage

/-! ### Both directions of keep-alive -/

section Directions

/-- A request of the initiator, and the response to it. -/
def keepAlives (raw : Channel) : List AnyMessage :=
  if raw = 8 then [.keepAlive (.keepAlive 5)]
  else if raw = 0x8008 then [.keepAlive (.responseKeepAlive 5)]
  else []

variable {segments : List (Channel × Payload)}

theorem keepAlives_other (h : raw ≠ 8 ∧ raw ≠ 0x8008) : keepAlives raw = [] := by
  rw [keepAlives, if_neg h.1, if_neg h.2]

theorem received_none (hraw : ∀ s ∈ segments, s.1 = 8 ∨ s.1 = 0x8008) (h : raw ≠ 8 ∧ raw ≠ 0x8008) :
    received segments raw = [] := by
  have hnone : segments.filter (fun s => s.1 = raw) = [] := by
    refine List.filter_eq_nil_iff.2 fun s hs heq => ?_
    rw [← of_decide_eq_true heq] at h
    exact (hraw s hs).elim h.1 h.2
  rw [received, hnone]
  rfl

theorem keepAlives_cut (hraw : ∀ s ∈ segments, s.1 = 8 ∨ s.1 = 0x8008)
    (hrequest : received segments 8 = [0x82, 0x00, 0x05]) (hresponse : received segments 0x8008 = [0x82, 0x01, 0x05]) :
    Cut .reference keepAlives segments := by
  refine ⟨fun raw msg hmsg => ?_, fun raw msg hmsg => ?_, fun raw => ?_⟩
  · unfold keepAlives at hmsg
    split_ifs at hmsg
    · obtain rfl := List.mem_singleton.1 hmsg
      exact AnyMessage.keepAlive_recoverable MinicborValues.reference_lawful (by decide)
    · obtain rfl := List.mem_singleton.1 hmsg
      exact AnyMessage.keepAlive_recoverable MinicborValues.reference_lawful (by decide)
    · cases hmsg
  · unfold keepAlives at hmsg
    split_ifs at hmsg with hrequests hresponses
    · obtain rfl := List.mem_singleton.1 hmsg
      rw [hrequests]
      rfl
    · obtain rfl := List.mem_singleton.1 hmsg
      rw [hresponses]
      rfl
    · cases hmsg
  · by_cases hrequests : raw = 8
    · rw [hrequests]
      exact hrequest
    · by_cases hresponses : raw = 0x8008
      · rw [hresponses]
        exact hresponse
      · rw [received_none hraw ⟨hrequests, hresponses⟩, keepAlives_other ⟨hrequests, hresponses⟩]
        rfl

/-- The response arrives after the request, both in two segments. -/
theorem readAll_yields_in_turn :
    Yields .reference keepAlives [(8, [0x82]), (8, [0x00, 0x05]), (0x8008, [0x82, 0x01]), (0x8008, [0x05])] := by
  refine readAll_yields MinicborValues.reference_lawful (keepAlives_cut (by decide) rfl rfl) ?_
  intro pre raw chunk post hsegments hne raw' hraw' _
  by_cases h : raw' ≠ 8 ∧ raw' ≠ 0x8008
  · have hpre : received pre raw' = [] := by
      refine received_none (fun s hs => ?_) h
      have hall : ∀ s ∈ [((8 : Channel), ([0x82] : Payload)), (8, [0x00, 0x05]), (0x8008, [0x82, 0x01]), (0x8008, [0x05])],
        s.1 = 8 ∨ s.1 = 0x8008 := by decide
      refine hall s ?_
      rw [hsegments]
      exact List.mem_append_left _ hs
    rw [keepAlives_other h, hpre]
    rfl
  · have hboth : raw' = 8 ∨ raw' = 0x8008 := by tauto
    rcases pre with _ | ⟨s₁, _ | ⟨s₂, _ | ⟨s₃, _ | ⟨s₄, pre⟩⟩⟩⟩
    · cases hsegments
      rcases hboth with rfl | rfl
      · exact absurd rfl hraw'
      · rfl
    · cases hsegments
      rcases hboth with rfl | rfl
      · exact absurd rfl hraw'
      · rfl
    · cases hsegments
      rcases hboth with rfl | rfl
      · rfl
      · exact absurd rfl hraw'
    · cases hsegments
      rcases hboth with rfl | rfl
      · rfl
      · exact absurd rfl hraw'
    · have hlength := congrArg List.length hsegments
      simp at hlength

/-- A request of which the second part arrives behind the response. -/
theorem responses_in_between : ¬ ∀ family segments, Cut .reference family segments → Yields .reference family segments := by
  intro h
  have hyields := h keepAlives [(8, [0x82]), (0x8008, [0x82, 0x01, 0x05]), (8, [0x00, 0x05])] (keepAlives_cut (by decide) rfl rfl)
  have hnone : messagesOf (BearerReadHalf.readAll MinicborValues.reference ∅
    [(8, [0x82]), (0x8008, [0x82, 0x01, 0x05]), (8, [0x00, 0x05])]).1 8 = [] := by
    decide
  cases (hyields.messages 8).symm.trans hnone

end Directions
end Pallas.Network2
