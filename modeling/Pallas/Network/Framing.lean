import Pallas.Network.StreamSafety
import Mathlib.Logic.Relation
import Mathlib.Logic.Function.Basic

/-!
# From one side of the bearer to the other

Agents with ids of their own send through one muxer. The demuxer on the other side files for each the bytes that the agent
has sent, in order, and nothing for anyone else: whatever the muxer does when, and however else the same bytes are cut into
segments. With `receives` every agent then gets the messages of its partner.
-/

namespace Pallas.Network.Multiplexer
open Cbor

/-! ### The bytes on the wire -/

/-- What `write_segment` writes, given what the clock shows. -/
def segmentBytes (elapsed : Timestamp) (protocol : Protocol) (payload : Payload) : Bytes :=
  Header.toBytes { protocol, timestamp := elapsed, payloadLen := .ofNat payload.length } ++ payload

/-- When a segment was written, its protocol and its payload. -/
abbrev Segment := Timestamp × Protocol × Payload

def wire (segments : List Segment) : Bytes := segments.flatMap fun s => segmentBytes s.1 s.2.1 s.2.2

/-- The payloads of a protocol. -/
def payloadsOf (protocol : Protocol) (traffic : List (Protocol × Payload)) : List Payload :=
  (traffic.filter fun msg => msg.1 = protocol).map Prod.snd

section Wire
variable {protocol : Protocol} {payload : Payload} {traffic traffic' : List (Protocol × Payload)}
  {segments : List Segment}

@[simp] theorem wire_cons (s : Segment) (segments : List Segment) :
    wire (s :: segments) = segmentBytes s.1 s.2.1 s.2.2 ++ wire segments := rfl

@[simp] theorem payloadsOf_append :
    payloadsOf protocol (traffic ++ traffic') = payloadsOf protocol traffic ++ payloadsOf protocol traffic' := by
  simp [payloadsOf]

@[simp] theorem payloadsOf_cons_self :
    payloadsOf protocol ((protocol, payload) :: traffic) = payload :: payloadsOf protocol traffic := by
  simp [payloadsOf]

theorem payloadsOf_eq_nil (h : ∀ msg ∈ traffic, msg.1 ≠ protocol) : payloadsOf protocol traffic = [] := by
  simpa [payloadsOf, List.filter_eq_nil_iff] using h

theorem Demuxer.readSegment_segmentBytes (elapsed : Timestamp) {rest : Bytes} {egress : Egress}
    (h : payload.length ≤ maxSegmentPayloadLength) :
    Demuxer.readSegment ⟨segmentBytes elapsed protocol payload ++ rest, egress⟩ =
      some ((protocol, payload), ⟨rest, egress⟩) := by
  set header : Header := { protocol, timestamp := elapsed, payloadLen := .ofNat payload.length }
  have hlen : header.payloadLen.toNat = payload.length := by
    have hlt : payload.length < 2 ^ 16 := by
      rw [maxSegmentPayloadLength] at h
      omega
    exact UInt16.toNat_ofNat_of_lt' hlt
  have hheader : Decoder.take headerLen (header.toBytes ++ (payload ++ rest)) =
      some (header.toBytes, payload ++ rest) := by
    rw [← header.length_toBytes]
    exact take_append _ _
  have hpayload : Decoder.take header.payloadLen.toNat (payload ++ rest) = some (payload, rest) := by
    rw [hlen]
    exact take_append _ _
  rw [readSegment, segmentBytes, List.append_assoc, hheader]
  simp only [Option.bind_eq_bind, Option.bind_some, Header.ofBytes_toBytes, hpayload]
  rfl

end Wire

/-! ### What the demuxer files -/

namespace Demuxer
variable {self self' : Demuxer} {p : Protocol} {segments : List Segment}

theorem lookup_demux (self : Demuxer) (protocol : Protocol) (payload : Payload) (p : Protocol) :
    (self.demux protocol payload).egress.lookup p =
      (self.egress.lookup p).map fun sent => sent ++ payloadsOf p [(protocol, payload)] := by
  unfold demux
  cases hsent : self.egress.lookup protocol with
  | none =>
    by_cases hp : protocol = p
    · subst hp
      simp [hsent]
    · simp [payloadsOf, hp]
  | some sent =>
    by_cases hp : protocol = p
    · subst hp
      simp [hsent, payloadsOf]
    · simp [Finmap.lookup_insert_of_ne _ (Ne.symm hp), payloadsOf, hp]

@[simp] theorem demux_bearer (self : Demuxer) (protocol : Protocol) (payload : Payload) :
    (self.demux protocol payload).bearer = self.bearer := by
  unfold demux
  split <;> rfl

theorem run_wire (hshort : ∀ s ∈ segments, s.2.2.length ≤ maxSegmentPayloadLength) {egress : Egress} {turns : ℕ}
    (hturns : segments.length ≤ turns) :
    (run turns ⟨wire segments, egress⟩).bearer = [] ∧ ∀ p,
      (run turns ⟨wire segments, egress⟩).egress.lookup p =
        (egress.lookup p).map fun sent => sent ++ payloadsOf p (segments.map Prod.snd) := by
  induction segments generalizing egress turns with
  | nil =>
    have hstay : run turns ⟨wire [], egress⟩ = ⟨[], egress⟩ := by cases turns <;> rfl
    simp [hstay, payloadsOf]
  | cons s segments ih =>
    obtain ⟨hs, hsegments⟩ := List.forall_mem_cons.1 hshort
    obtain ⟨turns, rfl⟩ : ∃ n, turns = n + 1 := ⟨turns - 1, by simp at hturns; omega⟩
    set filed := demux ⟨wire segments, egress⟩ s.2.1 s.2.2 with hfiled
    have hbearer : filed = ⟨wire segments, filed.egress⟩ := by
      rw [← show filed.bearer = wire segments from demux_bearer ..]
    have htick : tick ⟨wire (s :: segments), egress⟩ = some filed := by
      rw [tick, wire_cons, readSegment_segmentBytes s.1 hs]
      rfl
    have hrun : run (turns + 1) ⟨wire (s :: segments), egress⟩ = run turns ⟨wire segments, filed.egress⟩ := by
      rw [run, htick, ← hbearer]
    obtain ⟨hempty, hlookup⟩ := @ih hsegments filed.egress turns (by simpa using hturns)
    refine ⟨by rw [hrun, hempty], fun p => ?_⟩
    rw [hrun, hlookup p, hfiled, lookup_demux, Option.map_map]
    congr 1
    funext sent
    rw [List.map_cons, ← List.singleton_append (l := segments.map Prod.snd), payloadsOf_append,
      Function.comp_apply, List.append_assoc]

end Demuxer

/-! ### The sending side -/

section Sending
variable {ι : Type} [DecidableEq ι] {channel : ι → AgentChannel} {stream : ι → Bytes}

/-- The chunks that the agents still have to enqueue, and the muxer. -/
structure Sending (ι : Type) where
  pending : ι → List Payload
  muxer : Muxer

/-- An agent enqueues its next chunk, or the muxer writes the next segment. -/
inductive Sending.Step (channel : ι → AgentChannel) : Sending ι → Sending ι → Prop where
  | enqueue (self : Sending ι) (i : ι) (chunk : Payload) (rest : List Payload) (h : self.pending i = chunk :: rest) :
    Step channel self ⟨Function.update self.pending i rest, (channel i).enqueueChunk self.muxer chunk⟩
  | tick (self : Sending ι) (elapsed : Timestamp) : Step channel self { self with muxer := self.muxer.tick elapsed }

/-- Everything has been written. -/
def Sending.Done (self : Sending ι) : Prop := (∀ i, self.pending i = []) ∧ self.muxer.ingress = []

/-- The bytes of every agent, cut into segments. -/
structure Cut (channel : ι → AgentChannel) (stream : ι → Bytes) (segments : List Segment) : Prop where
  short : ∀ s ∈ segments, s.2.2.length ≤ maxSegmentPayloadLength
  own : ∀ s ∈ segments, ∃ i, s.2.1 = (channel i).protocol
  whole : ∀ i, (payloadsOf (channel i).protocol (segments.map Prod.snd)).flatten = stream i

/-- What has been written and what waits to be is what the agents have enqueued of their bytes. -/
structure Sending.Inv (channel : ι → AgentChannel) (stream : ι → Bytes) (sending : Sending ι)
    (segments : List Segment) : Prop where
  written : sending.muxer.bearer = wire segments
  short : ∀ msg ∈ segments.map Prod.snd ++ sending.muxer.ingress, msg.2.length ≤ maxSegmentPayloadLength
  own : ∀ msg ∈ segments.map Prod.snd ++ sending.muxer.ingress, ∃ i, msg.1 = (channel i).protocol
  whole : ∀ i, (payloadsOf (channel i).protocol (segments.map Prod.snd ++ sending.muxer.ingress)).flatten ++
    (sending.pending i).flatten = stream i
  pendingShort : ∀ i, ∀ chunk ∈ sending.pending i, chunk.length ≤ maxSegmentPayloadLength

namespace Sending
variable {self self' : Sending ι} {segments : List Segment}

theorem Inv.enqueue (hdistinct : Function.Injective fun i => (channel i).protocol)
    (hinv : Inv channel stream self segments)
    {i : ι} {chunk : Payload} {rest : List Payload} (h : self.pending i = chunk :: rest) :
    Inv channel stream ⟨Function.update self.pending i rest, (channel i).enqueueChunk self.muxer chunk⟩ segments := by
  have htraffic : segments.map Prod.snd ++ ((channel i).enqueueChunk self.muxer chunk).ingress =
      (segments.map Prod.snd ++ self.muxer.ingress) ++ [((channel i).protocol, chunk)] := by
    rw [AgentChannel.enqueueChunk, List.append_assoc]
  have hchunk := hinv.pendingShort i
  rw [h] at hchunk
  obtain ⟨hchunk, hrest⟩ := List.forall_mem_cons.1 hchunk
  refine ⟨hinv.written, ?_, ?_, fun j => ?_, fun j => ?_⟩
  · rw [htraffic]
    exact List.forall_mem_append.2 ⟨hinv.short, by simpa using hchunk⟩
  · rw [htraffic]
    exact List.forall_mem_append.2 ⟨hinv.own, List.forall_mem_singleton.2 ⟨i, rfl⟩⟩
  · have hwhole := hinv.whole j
    rw [htraffic, payloadsOf_append]
    by_cases hj : j = i
    · subst hj
      rw [h] at hwhole
      simpa [payloadsOf] using hwhole
    · have hne : (channel i).protocol ≠ (channel j).protocol := fun heq => hj (hdistinct heq).symm
      simpa [hj, payloadsOf, hne] using hwhole
  · by_cases hj : j = i
    · subst hj
      simpa using hrest
    · simpa [hj] using hinv.pendingShort j

omit [DecidableEq ι] in
theorem Inv.tick (hinv : Inv channel stream self segments) (elapsed : Timestamp) :
    ∃ segments', Inv channel stream { self with muxer := self.muxer.tick elapsed } segments' := by
  cases hingress : self.muxer.ingress with
  | nil =>
    have hstay : self.muxer.tick elapsed = self.muxer := by rw [Muxer.tick, hingress]
    exact ⟨segments, by rwa [hstay]⟩
  | cons msg rest =>
    have htick : self.muxer.tick elapsed = ⟨self.muxer.bearer ++ segmentBytes elapsed msg.1 msg.2, rest⟩ := by
      rw [Muxer.tick, hingress]
      simp [Muxer.mux, Muxer.writeSegment, segmentBytes]
    have htraffic : (segments ++ [(elapsed, msg)]).map Prod.snd ++ rest =
        segments.map Prod.snd ++ self.muxer.ingress := by
      simp [hingress]
    refine ⟨segments ++ [(elapsed, msg)], ?_, ?_, ?_, ?_, hinv.pendingShort⟩
    · simp [htick, hinv.written, wire]
    all_goals rw [htick, htraffic]
    · exact hinv.short
    · exact hinv.own
    · exact hinv.whole

theorem Inv.run (hdistinct : Function.Injective fun i => (channel i).protocol)
    (h : Relation.ReflTransGen (Step channel) self self')
    (hinv : Inv channel stream self segments) : ∃ segments', Inv channel stream self' segments' := by
  induction h with
  | refl => exact ⟨segments, hinv⟩
  | tail _ hstep ih =>
    obtain ⟨segments', hinv'⟩ := ih
    cases hstep with
    | enqueue i chunk rest h => exact ⟨segments', hinv'.enqueue hdistinct h⟩
    | tick elapsed => exact hinv'.tick elapsed

theorem cut_of_run (hdistinct : Function.Injective fun i => (channel i).protocol) {pending : ι → List Payload}
    (hshort : ∀ i, ∀ chunk ∈ pending i, chunk.length ≤ maxSegmentPayloadLength)
    (h : Relation.ReflTransGen (Step channel) ⟨pending, .new⟩ self) (hdone : self.Done) :
    ∃ segments, self.muxer.bearer = wire segments ∧ Cut channel (fun i => (pending i).flatten) segments := by
  have hstart : Inv channel (fun i => (pending i).flatten) ⟨pending, .new⟩ [] := by
    refine ⟨rfl, ?_, ?_, ?_, hshort⟩
    all_goals simp [Muxer.new, payloadsOf]
  obtain ⟨segments, hinv⟩ := hstart.run hdistinct h
  have htraffic : segments.map Prod.snd ++ self.muxer.ingress =
      segments.map Prod.snd := by rw [hdone.2, List.append_nil]
  have hown := hinv.own
  have hsegments := hinv.short
  rw [htraffic] at hown hsegments
  refine ⟨segments, hinv.written, fun s hs => hsegments _ (List.mem_map_of_mem hs),
    fun s hs => hown _ (List.mem_map_of_mem hs), ?_⟩
  intro i
  have hwhole := hinv.whole i
  rwa [htraffic, hdone.1 i, List.flatten_nil, List.append_nil] at hwhole

end Sending
end Sending

/-! ### Subscriptions -/

/-- The side of a mini-protocol that an agent is on. -/
inductive Role where
  | client
  | server
  deriving DecidableEq

/-- A role in the mini-protocol of this number. -/
abbrev Agent := Role × Protocol

/-- The agent at the other end. -/
def Agent.partner : Agent → Agent
  | (.client, protocol) => (.server, protocol)
  | (.server, protocol) => (.client, protocol)

def Plexer.subscribe (self : Plexer) : Agent → AgentChannel × Plexer
  | (.client, protocol) => self.subscribeClient protocol
  | (.server, protocol) => self.subscribeServer protocol

/-- A plexer with these agents. -/
def Plexer.subscribeAll (self : Plexer) (agents : List Agent) :
    Plexer := agents.foldl (fun plexer a => (plexer.subscribe a).2) self

/-- The id under which the demuxer files for an agent. -/
def Agent.subscribed : Agent → Protocol
  | (.client, protocol) => protocol ^^^ 0x8000
  | (.server, protocol) => protocol

/-- The channel that it sends on, whatever the plexer. -/
def Agent.channel (agent : Agent) : AgentChannel := ((Plexer.new []).subscribe agent).1

theorem Agent.subscribed_partner (agent : Agent) : agent.partner.subscribed = agent.channel.protocol := by
  rcases agent with ⟨_ | _, protocol⟩ <;> rfl

theorem Plexer.subscribe_demuxer (self : Plexer) (agent : Agent) :
    (self.subscribe agent).2.demuxer = self.demuxer.subscribe agent.subscribed := by
  rcases agent with ⟨_ | _, protocol⟩ <;> rfl

/-- Every queue is empty before the plexer runs. -/
theorem Plexer.subscribeAll_demuxer (agents : List Agent) {self : Plexer} :
    (self.subscribeAll agents).demuxer.bearer = self.demuxer.bearer ∧ ∀ p,
      (self.subscribeAll agents).demuxer.egress.lookup p =
        if ∃ agent ∈ agents, agent.subscribed = p then some [] else self.demuxer.egress.lookup p := by
  induction agents generalizing self with
  | nil => simp [subscribeAll]
  | cons agent agents ih =>
    obtain ⟨hbearer, hlookup⟩ := @ih (self.subscribe agent).2
    rw [subscribe_demuxer] at hbearer
    refine ⟨hbearer, fun p => (hlookup p).trans ?_⟩
    rw [subscribe_demuxer]
    by_cases hp : agent.subscribed = p
    · subst hp
      simp [Demuxer.subscribe]
    · have hcons : (∃ a ∈ agent :: agents, a.subscribed = p) ↔ ∃ a ∈ agents, a.subscribed = p := by
        rw [List.exists_mem_cons_iff, or_iff_right hp]
      simp only [Demuxer.subscribe, Finmap.lookup_insert_of_ne _ (Ne.symm hp), hcons]

/-! ### The three protocols -/

/-- The types that messages of the three protocols are sent at. -/
inductive Kind where
  | chainSyncHeaders
  | chainSyncBlocks
  | chainSyncSkipped
  | blockFetch
  | txSubmission
  deriving DecidableEq

namespace Kind

abbrev Message : Kind → Type
  | chainSyncHeaders => Chainsync.Message Network2.Chainsync.HeaderContent
  | chainSyncBlocks => Chainsync.Message Chainsync.BlockContent
  | chainSyncSkipped => Chainsync.Message Chainsync.SkippedContent
  | blockFetch => Blockfetch.Message
  | txSubmission => Txsubmission.Message Txsubmission.EraTxId Txsubmission.EraTxBody

def encode : (kind : Kind) → kind.Message → Except String Bytes
  | chainSyncHeaders => Chainsync.Message.encode (·.encode)
  | chainSyncBlocks => Chainsync.Message.encode fun content => .ok content.encode
  | chainSyncSkipped => Chainsync.Message.encode fun content => .ok content.encode
  | blockFetch => fun msg => .ok msg.encode
  | txSubmission => fun msg => .ok (msg.encode (·.encode) (·.encode))

def decode {ε : Type} (m : MinicborValues ε) : (kind : Kind) → Reader ε kind.Message
  | chainSyncHeaders => Chainsync.Message.decode m (Network2.Chainsync.HeaderContent.decode m)
  | chainSyncBlocks => Chainsync.Message.decode m (Chainsync.BlockContent.decode m)
  | chainSyncSkipped => Chainsync.Message.decode m (Chainsync.SkippedContent.decode m)
  | blockFetch => Blockfetch.Message.decode m
  | txSubmission => Txsubmission.Message.decode m (Network2.Txsubmission.EraTxId.decode m) (Network2.Txsubmission.EraTxBody.decode m)

/-- The bytes of a message, none if it cannot be encoded and so is not sent. -/
def bytes (kind : Kind) (msg : kind.Message) : Bytes := (kind.encode msg).toOption.getD []

/-- A header has a Byron prefix exactly when it is of variant 0. -/
def Fits : (kind : Kind) → kind.Message → Prop
  | chainSyncHeaders => Chainsync.Message.Carries (·.PrefixFits)
  | _ => fun _ => True

/-- The chunks that sending the messages one after the other enqueues. -/
def chunks (kind : Kind) (msgs : List kind.Message) : List Payload := msgs.flatMap fun msg => msgChunks (kind.bytes msg)

theorem chunks_flatten (kind : Kind) (msgs : List kind.Message) :
    (kind.chunks msgs).flatten = msgs.flatMap kind.bytes := by
  induction msgs with
  | nil => rfl
  | cons msg msgs ih =>
    rw [chunks, List.flatMap_cons, List.flatten_append, msgChunks_flatten, List.flatMap_cons, ← ih]
    rfl

variable {ε : Type} {m : MinicborValues ε} (hm : m.Lawful)
include hm

theorem decode_inverts (kind : Kind) {msg : kind.Message} (h : kind.Fits msg) :
    kind.encode msg = .ok (kind.bytes msg) ∧ (kind.decode m).Inverts (kind.bytes msg) msg := by
  have hbytes : ∀ {bs}, kind.encode msg = .ok bs → kind.bytes msg = bs := fun hbs => by rw [bytes, hbs]; rfl
  suffices hsuff : ∃ bs, kind.encode msg = .ok bs ∧ (kind.decode m).Inverts bs msg by
    obtain ⟨bs, hbs, hinverts⟩ := hsuff
    rw [hbytes hbs]
    exact ⟨hbs, hinverts⟩
  have hall : ∀ {C : Type} (msg : Chainsync.Message C), msg.Carries fun _ => True := fun msg => by cases msg <;> trivial
  cases kind with
  | chainSyncHeaders => exact Chainsync.Message.decode_inverts hm (fun _ => Network2.Chainsync.HeaderContent.decode_inverts hm) h
  | chainSyncBlocks =>
    exact Chainsync.Message.decode_inverts hm
      (fun c _ => ⟨_, rfl, Chainsync.BlockContent.decode_inverts hm c⟩) (hall msg)
  | chainSyncSkipped =>
    exact Chainsync.Message.decode_inverts hm
      (fun c _ => ⟨_, rfl, Chainsync.SkippedContent.decode_inverts hm c⟩) (hall msg)
  | blockFetch => exact ⟨_, rfl, Blockfetch.Message.decode_inverts hm msg⟩
  | txSubmission =>
    exact ⟨_, rfl, Txsubmission.Message.decode_inverts hm (Network2.Txsubmission.EraTxId.decode_inverts hm)
      (Network2.Txsubmission.EraTxBody.decode_inverts hm) (fun _ => Network2.begins_array (by norm_num) _)
      (fun _ => Network2.begins_array (by norm_num) _) msg⟩

theorem decode_streams (kind : Kind) : (kind.decode m).Streams m.isEndOfInput := by
  cases kind with
  | chainSyncHeaders => exact Chainsync.Message.decode_streams hm (Chainsync.HeaderContent.decode_streams hm)
  | chainSyncBlocks => exact Chainsync.Message.decode_streams hm (Chainsync.BlockContent.decode_streams hm)
  | chainSyncSkipped => exact Chainsync.Message.decode_streams hm (Chainsync.SkippedContent.decode_streams hm)
  | blockFetch => exact Blockfetch.Message.decode_streams hm
  | txSubmission =>
    exact Txsubmission.Message.decode_streams hm (Txsubmission.EraTxId.decode_streams hm)
      (Txsubmission.EraTxBody.decode_streams hm)

/-- A message that can be sent can be cut anywhere, and others may follow it. -/
theorem decode_frames (kind : Kind) {msg : kind.Message} (h : kind.Fits msg) (hlen : (kind.bytes msg).length < 2 ^ 64) :
    (kind.decode m).Frames m.isEndOfInput (kind.bytes msg) msg :=
  (decode_streams hm kind).frames ((decode_inverts hm kind h).2 hlen)

theorem tryDecodeMessage_nil (kind : Kind) :
    tryDecodeMessage m.isEndOfInput (kind.decode m) [] = (.ok none, []) := by
  have harray : m.array.Frames m.isEndOfInput (array 0) (some (UInt64.ofNat 0)) :=
    hm.array_streams.frames (hm.array_takes (by norm_num))
  obtain ⟨e, rest, hrun, hend⟩ := harray.ends [] (array 0) rfl (by simp [array, head])
  have hstop : ∀ {α : Type} (f : Option UInt64 → Reader ε α), (m.array >>= f).run [] = (.error e, rest) := fun f => by
    rw [Reader.run_bind, hrun, Reader.next_error]
  have hdecode : (kind.decode m).run [] = (.error e, rest) := by
    cases kind <;> exact hstop _
  simp [tryDecodeMessage, hdecode, hend]

theorem bytes_ne_nil (kind : Kind) {msg : kind.Message} (h : kind.Fits msg) (hlen : (kind.bytes msg).length < 2 ^ 64) :
    kind.bytes msg ≠ [] := by
  intro hnil
  have htakes := (decode_frames hm kind h hlen).takes []
  have hwait := tryDecodeMessage_nil hm kind
  rw [hnil, List.append_nil] at htakes
  rw [tryDecodeMessage, htakes] at hwait
  cases hwait

end Kind

/-! ### End to end -/

/-- The demuxer of a plexer with the agents `far`, when all of these bytes have arrived. -/
def demuxed (far : List Agent) (bytes : Bytes) :
    Demuxer := Demuxer.run bytes.length ((Plexer.new bytes).subscribeAll far).demuxer

/-- The partner of every sender receives exactly its messages, and no other agent anything. -/
structure Delivered {ε ι : Type} (m : MinicborValues ε) (kind : ι → Kind) (agent : ι → Agent)
    (msgs : ∀ i, List (kind i).Message) (far : List Agent) (bytes : Bytes) : Prop where
  read : (demuxed far bytes).bearer = []
  partner : ∀ i, (agent i).partner ∈ far → ∃ queue,
    (demuxed far bytes).egress.lookup (agent i).partner.subscribed = some queue ∧
      Receives m.isEndOfInput ((kind i).decode m) ⟨queue, []⟩ (msgs i) ⟨[], []⟩
  other : ∀ a ∈ far, (∀ i, a.subscribed ≠ (agent i).partner.subscribed) →
    (demuxed far bytes).egress.lookup a.subscribed = some []

theorem length_le_wire (segments : List Segment) : segments.length ≤ (wire segments).length := by
  refine length_le_flatMap fun s _ hnil => ?_
  have hlen := congrArg List.length hnil
  simp [segmentBytes, headerLen] at hlen

theorem demuxed_wire {far : List Agent} {segments : List Segment}
    (hshort : ∀ s ∈ segments, s.2.2.length ≤ maxSegmentPayloadLength) :
    (demuxed far (wire segments)).bearer = [] ∧ ∀ a ∈ far,
      (demuxed far (wire segments)).egress.lookup a.subscribed =
        some (payloadsOf a.subscribed (segments.map Prod.snd)) := by
  obtain ⟨hbearer, hlookup⟩ := @Plexer.subscribeAll_demuxer far (Plexer.new (wire segments))
  unfold demuxed
  generalize ((Plexer.new (wire segments)).subscribeAll far).demuxer = demuxer at hbearer hlookup ⊢
  obtain ⟨bearer, egress⟩ := demuxer
  obtain rfl : bearer = wire segments := hbearer
  obtain ⟨hread, hfiled⟩ := Demuxer.run_wire hshort (length_le_wire segments)
  refine ⟨hread, fun a ha => ?_⟩
  rw [hfiled, hlookup, if_pos ⟨a, ha, rfl⟩]
  rfl

section Delivery
variable {ε ι : Type} {m : MinicborValues ε} (hm : m.Lawful) {kind : ι → Kind} {agent : ι → Agent}
  {msgs : ∀ i, List (kind i).Message} {far : List Agent}
include hm

theorem delivered_of_cut (hfits : ∀ i, ∀ msg ∈ msgs i, (kind i).Fits msg)
    (hlen : ∀ i, ∀ msg ∈ msgs i, ((kind i).bytes msg).length < 2 ^ 64) {segments : List Segment}
    (hcut : Cut (fun i => (agent i).channel) (fun i => (msgs i).flatMap (kind i).bytes) segments) :
    Delivered m kind agent msgs far (wire segments) := by
  obtain ⟨hread, hfiled⟩ := @demuxed_wire far segments hcut.short
  refine ⟨hread, fun i hi => ⟨_, hfiled _ hi, ?_⟩, fun a ha hother => ?_⟩
  · have hempty := Kind.tryDecodeMessage_nil hm (kind i)
    refine @receives _ _ _ _ (kind i).bytes hempty _ (fun msg hmsg => ?_) _ ?_
    · have hf := hfits i msg hmsg
      have hl := hlen i msg hmsg
      exact ⟨Kind.bytes_ne_nil hm _ hf hl, Kind.decode_frames hm _ hf hl⟩
    · rw [Agent.subscribed_partner]
      exact hcut.whole i
  · rw [hfiled a ha, payloadsOf_eq_nil]
    rintro msg hmsg heq
    obtain ⟨s, hs, rfl⟩ := List.mem_map.1 hmsg
    obtain ⟨i, hi⟩ := hcut.own s hs
    exact hother i (by rw [Agent.subscribed_partner, ← hi, heq])

/-- Framing: for agents with ids of their own, whatever the order in which they enqueue the chunks of their messages and the
muxer writes them, and however else their bytes are cut into segments. -/
theorem delivered [DecidableEq ι] (hdistinct : Function.Injective fun i => (agent i).channel.protocol)
    (hfits : ∀ i, ∀ msg ∈ msgs i, (kind i).Fits msg)
    (hlen : ∀ i, ∀ msg ∈ msgs i, ((kind i).bytes msg).length < 2 ^ 64) :
    (∀ self, Relation.ReflTransGen (Sending.Step fun i => (agent i).channel)
      ⟨fun i => (kind i).chunks (msgs i), .new⟩ self →
      self.Done → Delivered m kind agent msgs far self.muxer.bearer) ∧
    ∀ segments, Cut (fun i => (agent i).channel) (fun i => (msgs i).flatMap (kind i).bytes) segments →
      Delivered m kind agent msgs far (wire segments) := by
  refine ⟨fun self hrun hdone => ?_, fun segments hcut => delivered_of_cut hm hfits hlen hcut⟩
  have hshort : ∀ i, ∀ chunk ∈ (kind i).chunks (msgs i), chunk.length ≤ maxSegmentPayloadLength := by
    intro i chunk hchunk
    obtain ⟨msg, -, hmem⟩ := List.mem_flatMap.1 hchunk
    exact length_le_of_mem_msgChunks hmem
  have hflat : (fun i => ((kind i).chunks (msgs i)).flatten) = fun i => (msgs i).flatMap (kind i).bytes := by
    funext i
    exact Kind.chunks_flatten _ _
  obtain ⟨segments, hwritten, hcut⟩ := Sending.cut_of_run hdistinct hshort hrun hdone
  rw [hwritten]
  exact delivered_of_cut hm hfits hlen (hflat ▸ hcut)

end Delivery

open MinicborValues in
/-- A server that announces a Byron header and a client that is done with fetching blocks, in three segments. -/
theorem delivered_reference :
    Delivered reference (fun i : Bool => if i then .chainSyncHeaders else .blockFetch)
      (fun i => if i then (.server, 2) else (.client, 3))
      (fun | true => [.rollForward ⟨0, some (1, 5), [0x80]⟩ ⟨.origin, 7⟩] | false => [.clientDone])
      [(.client, 2), (.server, 3), (.client, 5)]
      (wire [(0, 0x8002, [0x83, 0x02, 0x82, 0x00, 0x82, 0x82]), (1, 3, [0x81, 0x01]),
        (2, 0x8002, [0x01, 0x05, 0xd8, 0x18, 0x41, 0x80, 0x82, 0x80, 0x07])]) := by
  refine (delivered reference_lawful (fun i j => ?_) (fun i => ?_) fun i => ?_).2 _ ⟨by decide, by decide, fun i => ?_⟩
  · revert i j
    decide
  · cases i <;> simp [Kind.Fits, Chainsync.Message.Carries, Network2.Chainsync.HeaderContent.PrefixFits]
  · cases i <;> decide
  · cases i <;> rfl

open MinicborValues in
/-- A prefix on a header of another variant is not sent. -/
theorem prefix_not_delivered :
    let agent : Unit → Agent := fun _ => (.server, 2)
    let msgs : Unit → List Kind.chainSyncHeaders.Message :=
      fun _ => [.rollForward ⟨1, some (1, 5), [0x80]⟩ ⟨.origin, 7⟩]
    let segments : List Segment := [(0, 0x8002, [0x83, 0x02, 0x82, 0x01, 0xd8, 0x18, 0x41, 0x80, 0x82, 0x80, 0x07])]
    Cut (fun i => (agent i).channel) (fun i => (msgs i).flatMap Kind.chainSyncHeaders.bytes) segments ∧
      ¬ Delivered reference (fun _ => .chainSyncHeaders) agent msgs [(.client, 2)] (wire segments) := by
  dsimp only
  refine ⟨⟨by decide, fun s hs => ⟨(), ?_⟩, fun _ => rfl⟩, fun h => ?_⟩
  · obtain rfl := List.mem_singleton.1 hs
    rfl
  obtain ⟨queue, hqueue, hreceives⟩ := h.partner () (by decide)
  obtain rfl : [[0x83, 0x02, 0x82, 0x01, 0xd8, 0x18, 0x41, 0x80, 0x82, 0x80, 0x07]] = queue := Option.some.inj hqueue
  cases hreceives with
  | message hmsg _ =>
    have hrun : ChannelBuffer.recvFullMsg reference.isEndOfInput (Kind.decode reference .chainSyncHeaders)
        ⟨[[0x83, 0x02, 0x82, 0x01, 0xd8, 0x18, 0x41, 0x80, 0x82, 0x80, 0x07]], []⟩ =
          (.message (.rollForward ⟨1, none, [0x80]⟩ ⟨.origin, 7⟩), ⟨[], []⟩) := by rfl
    rw [hrun] at hmsg
    cases hmsg

end Pallas.Network.Multiplexer
