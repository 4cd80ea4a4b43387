import Pallas.Lib.Codewords
import Pallas.Network.Multiplexer
import Pallas.Network2.Bearer

/-!
# Segments on the wire (`pallas-network2/src/bearer.rs`)

A segment goes out as a header and a payload, and the header says how long the payload is; so segments are words of a prefix
code. A message goes out in segments one behind the other. What reads them, from the first on, has the message when it has
read the last of them, and nothing before.
-/

namespace Pallas.Network2
open Cbor Network.Multiplexer

/-! ### Writing -/

def writeSegment (protocol : Channel) (timestamp : Timestamp) (payload : Payload) : Bytes :=
  Header.toBytes { protocol, timestamp, payloadLen := .ofNat payload.length } ++ payload

/-- The segments of a message of this channel and this payload. -/
def segmentsOf (mode channel : Channel) (timestamp : Timestamp) (payload : Payload) : List Bytes :=
  (msgChunks payload).map (writeSegment (channel ||| mode) timestamp)

/-- `write_message`: what it writes, when there is a payload. -/
def writeMessage (mode : Channel) (msg : AnyMessage) (timestamp : Timestamp) : Except String Bytes := do
  let payload ← msg.payload
  .ok (segmentsOf mode msg.channel timestamp payload).flatten

/-! ### Reading -/

/-- How many more bytes `read_segment` waits for. -/
def wanted (buf : Bytes) : ℕ :=
  if buf.length < headerLen then headerLen - buf.length
  else headerLen + (Header.ofBytes buf).payloadLen.toNat - buf.length

/-- `read_segment`, once it waits for no more. -/
def readSegment (buf : Bytes) : Option (Channel × Payload) :=
  if wanted buf = 0 then some ((Header.ofBytes buf).protocol, buf.drop headerLen) else none

/-! ### The code of the segments -/

/-- The bytes of one segment. -/
structure IsSegment (raw : Bytes) : Prop where
  header : headerLen ≤ raw.length
  length : raw.length = headerLen + (Header.ofBytes raw).payloadLen.toNat

/-- Its protocol number and its payload. -/
def segmentOf (raw : Bytes) : Channel × Payload := ((Header.ofBytes raw).protocol, raw.drop headerLen)

section Code
variable {raw buf bs : Bytes} {protocol : Channel} {timestamp : Timestamp} {payload : Payload}

theorem ofBytes_append {header : Bytes} (h : headerLen ≤ header.length) (rest : Bytes) :
    Header.ofBytes (header ++ rest) = Header.ofBytes header := by
  rw [headerLen] at h
  have hdrop : ∀ n k, n + k ≤ 8 → ((header ++ rest).drop n).take k = (header.drop n).take k := by
    intro n k hnk
    rw [List.drop_append_of_le_length (by omega), List.take_append_of_le_length (by rw [List.length_drop]; omega)]
  have hzero := hdrop 0 4 (by omega)
  simp only [List.drop_zero] at hzero
  simp only [Header.ofBytes, hdrop 4 2 (by omega), hdrop 6 2 (by omega), hzero]

theorem segments_prefixCode : PrefixCode IsSegment where
  eq_of_prefix := by
    rintro a b ha hb ⟨rest, rfl⟩
    have hlength := hb.length
    rw [ofBytes_append ha.header, ← ha.length] at hlength
    exact (List.prefix_append a rest).eq_of_length hlength.symm
  ne_nil := by
    rintro _ ha rfl
    exact absurd ha.header (by decide)

theorem ofBytes_writeSegment : Header.ofBytes (writeSegment protocol timestamp payload) =
    { protocol, timestamp, payloadLen := .ofNat payload.length } := by
  rw [writeSegment, ofBytes_append (by rw [Header.length_toBytes]), Header.ofBytes_toBytes]

theorem isSegment_writeSegment (h : payload.length ≤ maxSegmentPayloadLength) :
    IsSegment (writeSegment protocol timestamp payload) := by
  have hlength : (writeSegment protocol timestamp payload).length = headerLen + payload.length := by
    rw [writeSegment, List.length_append, Header.length_toBytes]
  have hfits : (UInt16.ofNat payload.length).toNat = payload.length := by
    rw [maxSegmentPayloadLength] at h
    have hlt : payload.length < 2 ^ 16 := by omega
    exact UInt16.toNat_ofNat_of_lt' hlt
  refine ⟨by omega, ?_⟩
  rw [hlength, ofBytes_writeSegment, hfits]

theorem segmentOf_writeSegment : segmentOf (writeSegment protocol timestamp payload) = (protocol, payload) := by
  have hdrop : (writeSegment protocol timestamp payload).drop headerLen = payload :=
    List.drop_left' (Header.length_toBytes _)
  rw [segmentOf, ofBytes_writeSegment, hdrop]

/-- No byte is there behind the end of a segment. -/
def Within (buf : Bytes) : Prop := headerLen ≤ buf.length → buf.length ≤ headerLen + (Header.ofBytes buf).payloadLen.toNat

theorem within_nil : Within [] := fun h => absurd h (by decide)

/-- No more is taken than is waited for. -/
theorem Within.append (h : Within buf) (hbs : bs.length ≤ wanted buf) : Within (buf ++ bs) := by
  intro _
  rw [List.length_append]
  by_cases hheader : headerLen ≤ buf.length
  · have hlength := h hheader
    rw [wanted, if_neg (by omega)] at hbs
    rw [ofBytes_append hheader]
    omega
  · rw [wanted, if_pos (by omega)] at hbs
    omega

theorem readSegment_eq_some {segment : Channel × Payload} (h : Within buf) (hread : readSegment buf = some segment) :
    IsSegment buf ∧ segmentOf buf = segment := by
  unfold readSegment at hread
  split at hread
  · next hwanted =>
    have hheader : headerLen ≤ buf.length := by
      by_contra hcon
      rw [wanted, if_pos (by omega)] at hwanted
      omega
    have hlength := h hheader
    rw [wanted, if_neg (by omega)] at hwanted
    exact ⟨⟨hheader, by omega⟩, Option.some.inj hread⟩
  · cases hread

end Code

/-! ### The segments of a message -/

section Message
variable {mode : Channel} {msg : AnyMessage} {ts : Timestamp} {w : Payload}

/-- The segments in which the message goes out. -/
def AnyMessage.segments (mode : Channel) (m : AnyMessage × Timestamp) : List Bytes :=
  segmentsOf mode m.1.channel m.2 m.1.bytes

theorem writeMessage_eq_ok {bs : Bytes} (h : writeMessage mode msg ts = .ok bs) :
    bs = (AnyMessage.segments mode (msg, ts)).flatten := by
  unfold writeMessage at h
  cases hpayload : msg.payload with
  | error e =>
    rw [hpayload] at h
    cases h
  | ok payload =>
    rw [hpayload] at h
    cases h
    rw [AnyMessage.segments, AnyMessage.bytes, hpayload]
    rfl

theorem isSegment_of_mem_segments {m : AnyMessage × Timestamp} {raw : Bytes} (h : raw ∈ AnyMessage.segments mode m) :
    IsSegment raw := by
  obtain ⟨payload, hpayload, rfl⟩ := List.mem_map.1 h
  exact isSegment_writeSegment (length_le_of_mem_msgChunks hpayload)

theorem map_segmentOf_segments (m : AnyMessage × Timestamp) : (AnyMessage.segments mode m).map segmentOf =
    (msgChunks m.1.bytes).map fun payload => (m.1.channel ||| mode, payload) := by
  rw [AnyMessage.segments, segmentsOf, List.map_map]
  exact List.map_congr_left fun payload _ => segmentOf_writeSegment

theorem ne_nil_of_mem_chunks {k : ℕ} {payload chunk : Bytes} (h : chunk ∈ chunks k payload) : chunk ≠ [] := by
  fun_induction chunks k payload with
  | case1 => cases h
  | case2 payload hne ih =>
    rcases List.mem_cons.1 h with rfl | h
    · intro hnil
      have hlength := congrArg List.length hnil
      have hpos := List.length_pos_of_ne_nil hne
      rw [List.length_take, List.length_nil] at hlength
      omega
    · exact ih h

theorem AnyMessage.payload_ne_nil (h : msg.payload = .ok w) : w ≠ [] := by
  have harray : ∀ k rest, array k ++ rest ≠ [] := by
    intro k rest hnil
    have hhead := (List.append_eq_nil_iff.1 hnil).1
    unfold array head at hhead
    split_ifs at hhead
  rintro rfl
  cases msg with
  | chainSync msg =>
    cases msg with
    | rollForward content tip =>
      cases hcontent : content.encode with
      | error e => simp [payload, Chainsync.Message.encode, hcontent, bind, Except.bind] at h
      | ok bs =>
        have hbs : payload (chainSync (.rollForward content tip)) = .ok (array 3 ++ (uint 2 ++ (bs ++ tip.encode))) := by
          simp [payload, Chainsync.Message.encode, hcontent, bind, Except.bind]
        exact harray _ _ (Except.ok.inj (hbs.symm.trans h))
    | _ => exact absurd (Except.ok.inj h) (harray _ _)
  | _ msg => cases msg <;> exact absurd (Except.ok.inj h) (harray _ _)

theorem AnyMessage.channel_or_mode (hmode : mode = 0 ∨ mode = protocolServer) (msg : AnyMessage) :
    (msg.channel ||| mode) &&& ~~~protocolServer = msg.channel := by
  rcases hmode with rfl | rfl
  · cases msg <;> simp only [channel] <;> decide
  · cases msg <;> simp only [channel] <;> decide

end Message

/-! ### Reading what was written -/

/-- The messages of some reads. -/
def returned (reads : List (Channel × List AnyMessage)) : List AnyMessage := reads.flatMap Prod.snd

/-- The chunks are those of one channel, if there are any. -/
def Keeps (table : HashTable Channel Payload) (channel : Channel) (acc : Payload) : Prop :=
  ∀ c, table.lookup c = if c = channel ∧ acc ≠ [] then some acc else none

namespace BearerReadHalf
variable {ε : Type} {m : MinicborValues ε} {table : HashTable Channel Payload} {mode raw : Channel} {msg : AnyMessage}
variable {acc chunk : Payload} {a b : List (Channel × Payload)} {raws : List Bytes} {ms : List (AnyMessage × Timestamp)}

theorem readAll_cons (segment : Channel × Payload) : readAll m table (segment :: a) =
    ((segment.1, (readFullMsgs m table segment).1) :: (readAll m (readFullMsgs m table segment).2 a).1,
      (readAll m (readFullMsgs m table segment).2 a).2) :=
  rfl

theorem readAll_append : readAll m table (a ++ b) =
    ((readAll m table a).1 ++ (readAll m (readAll m table a).2 b).1, (readAll m (readAll m table a).2 b).2) := by
  induction a generalizing table with
  | nil => rfl
  | cons segment a ih => rw [List.cons_append, readAll_cons, readAll_cons, ih, List.cons_append]

theorem keeps_nil (h : Keeps table raw []) (channel : Channel) : Keeps table channel [] := by
  intro c
  rw [h c]
  simp

theorem keeps_empty (channel : Channel) : Keeps ∅ channel [] := by
  intro c
  simp

variable (hm : m.Lawful)
include hm

theorem readFullMsgs_chunk (hmsg : msg.Recoverable m) (hraw : raw &&& ~~~protocolServer = msg.channel)
    (h : Keeps table msg.channel acc) (hfront : acc ++ chunk <+: msg.bytes) :
    (readFullMsgs m table (raw, chunk)).1 = (arrived [msg] (acc ++ chunk)).1 ∧
      Keeps (readFullMsgs m table (raw, chunk)).2 msg.channel (arrived [msg] (acc ++ chunk)).2 := by
  have hacc : (table.lookup msg.channel).getD [] = acc := by
    rw [h msg.channel]
    by_cases hnil : acc = []
    · simp [hnil]
    · simp [hnil]
  have hstream : acc ++ chunk <+: streamOf [msg] := by simpa [streamOf] using hfront
  have hloop := fromPayloads_eq hm (List.forall_mem_singleton.2 hmsg) (List.forall_mem_singleton.2 rfl) hstream
    (Nat.lt_succ_self _)
  rw [← hraw] at hacc
  have hread : fromPayloads m (raw &&& ~~~protocolServer)
      (((table.lookup (raw &&& ~~~protocolServer)).getD [] ++ chunk).length + 1)
      ((table.lookup (raw &&& ~~~protocolServer)).getD [] ++ chunk) =
        ((arrived [msg] (acc ++ chunk)).1, (arrived [msg] (acc ++ chunk)).2) := by
    rw [hacc, hraw]
    exact hloop
  obtain ⟨hmsgs, hlookup⟩ := readFullMsgs_spec hread
  refine ⟨hmsgs, fun c => ?_⟩
  rw [hlookup, hraw]
  by_cases hc : c = msg.channel
  · by_cases hnil : (arrived [msg] (acc ++ chunk)).2 = []
    · simp [hc, hnil]
    · simp [hc, hnil]
  · rw [if_neg hc, h c]
    simp [hc]

theorem readAll_chunks (hmsg : msg.Recoverable m) (hraw : raw &&& ~~~protocolServer = msg.channel)
    {cs : List Payload} (hcs : ∀ c ∈ cs, c ≠ []) (h : Keeps table msg.channel acc) (hacc : acc ≠ msg.bytes)
    (hfront : acc ++ cs.flatten <+: msg.bytes) :
    returned (readAll m table (cs.map fun c => (raw, c))).1 = (if acc ++ cs.flatten = msg.bytes then [msg] else []) ∧
      Keeps (readAll m table (cs.map fun c => (raw, c))).2 msg.channel
        (if acc ++ cs.flatten = msg.bytes then [] else acc ++ cs.flatten) := by
  induction cs generalizing table acc with
  | nil =>
    simp only [List.flatten_nil, List.append_nil, if_neg hacc, List.map_nil]
    exact ⟨rfl, h⟩
  | cons chunk cs ih =>
    obtain ⟨-, hcs⟩ := List.forall_mem_cons.1 hcs
    rw [List.flatten_cons, ← List.append_assoc] at hfront ⊢
    have hchunk : acc ++ chunk <+: msg.bytes := (List.prefix_append _ _).trans hfront
    obtain ⟨hmsgs, hkeeps⟩ := readFullMsgs_chunk hm hmsg hraw h hchunk
    have hreads : returned (readAll m table ((chunk :: cs).map fun c => (raw, c))).1 =
        (arrived [msg] (acc ++ chunk)).1 ++
          returned (readAll m (readFullMsgs m table (raw, chunk)).2 (cs.map fun c => (raw, c))).1 := by
      rw [← hmsgs]
      rfl
    by_cases hlast : acc ++ chunk = msg.bytes
    · have hempty : cs = [] := by
        cases cs with
        | nil => rfl
        | cons c cs =>
          have hlength := hfront.length_le
          have hpos := List.length_pos_of_ne_nil (List.forall_mem_cons.1 hcs).1
          rw [List.length_append, hlast, List.flatten_cons, List.length_append] at hlength
          omega
      subst hempty
      have harrived : arrived [msg] (acc ++ chunk) = ([msg], []) := by
        have := arrived_streamOf [msg]
        rwa [streamOf, List.flatMap_cons, List.flatMap_nil, List.append_nil, ← hlast] at this
      rw [harrived] at hreads hkeeps
      simp only [List.flatten_nil, List.append_nil, if_pos hlast]
      exact ⟨hreads, hkeeps⟩
    · have harrived : arrived [msg] (acc ++ chunk) = ([], acc ++ chunk) := by
        rw [arrived, if_neg]
        exact fun hpre => hlast (hchunk.eq_of_length (le_antisymm hchunk.length_le hpre.length_le))
      rw [harrived] at hreads hkeeps
      rw [hreads]
      exact ih hcs hkeeps hlast hfront

theorem readAll_segments (hmode : mode = 0 ∨ mode = protocolServer) (hms : ∀ x ∈ ms, x.1.Recoverable m)
    (h : Keeps table raw []) (hraws : raws <+: ms.flatMap (AnyMessage.segments mode)) :
    returned (readAll m table (raws.map segmentOf)).1 <+: ms.map Prod.fst ∧
      (raws = ms.flatMap (AnyMessage.segments mode) →
        returned (readAll m table (raws.map segmentOf)).1 = ms.map Prod.fst) := by
  induction ms generalizing table raws with
  | nil =>
    obtain rfl := List.prefix_nil.1 hraws
    exact ⟨List.nil_prefix, fun _ => rfl⟩
  | cons x ms ih =>
    obtain ⟨hx, hms⟩ := List.forall_mem_cons.1 hms
    have hchannel := AnyMessage.channel_or_mode hmode x.1
    have hbytes : [] ≠ x.1.bytes := by
      obtain ⟨w, -, hw, -⟩ := hx
      rw [AnyMessage.bytes, hw]
      exact (AnyMessage.payload_ne_nil hw).symm
    have hcs : ∀ c ∈ msgChunks x.1.bytes, c ≠ [] := fun c hc => ne_nil_of_mem_chunks hc
    -- all of the segments of the first message, and some behind them
    have hbehind : ∀ rest,
        ∃ table', Keeps table' raw [] ∧ returned (readAll m table ((AnyMessage.segments mode x ++ rest).map segmentOf)).1 =
          x.1 :: returned (readAll m table' (rest.map segmentOf)).1 := by
      intro rest
      obtain ⟨hmsgs, hkeeps⟩ := readAll_chunks hm hx hchannel hcs (keeps_nil h x.1.channel) hbytes
        (by rw [List.nil_append, msgChunks_flatten])
      rw [List.nil_append, msgChunks_flatten, if_pos rfl] at hmsgs hkeeps
      refine ⟨_, keeps_nil hkeeps raw, ?_⟩
      rw [List.map_append, map_segmentOf_segments, readAll_append, returned, List.flatMap_append, ← returned, ← returned,
        hmsgs]
      rfl
    have hwhole : ∀ rest, rest <+: ms.flatMap (AnyMessage.segments mode) → raws = AnyMessage.segments mode x ++ rest →
        returned (readAll m table (raws.map segmentOf)).1 <+: (x :: ms).map Prod.fst ∧
          (raws = AnyMessage.segments mode x ++ ms.flatMap (AnyMessage.segments mode) →
            returned (readAll m table (raws.map segmentOf)).1 = (x :: ms).map Prod.fst) := by
      rintro rest hrest rfl
      obtain ⟨table', htable', hreads⟩ := hbehind rest
      obtain ⟨hfirst, hall⟩ := ih hms htable' hrest
      rw [hreads, List.map_cons]
      exact ⟨(List.prefix_cons_inj x.1).2 hfirst, fun heq => congrArg _ (hall (List.append_cancel_left heq))⟩
    obtain ⟨more, hmore⟩ := hraws
    rw [List.flatMap_cons] at hmore ⊢
    rcases List.append_eq_append_iff.1 hmore with ⟨left, hsegments, hleft⟩ | ⟨rest, hrest, hmore⟩
    · rcases left with _ | ⟨first, left⟩
      · refine hwhole [] List.nil_prefix ?_
        rw [hsegments, List.append_nil, List.append_nil]
      · -- the segments end within the message
        have hmap := congrArg (List.map segmentOf) hsegments
        rw [map_segmentOf_segments, List.map_append] at hmap
        obtain ⟨cs, ds, hchunks, hraws, hds⟩ := List.map_eq_append_iff.1 hmap
        have hsplit : cs.flatten ++ ds.flatten = x.1.bytes := by
          rw [← List.flatten_append, ← hchunks, msgChunks_flatten]
        have hne : cs.flatten ≠ x.1.bytes := by
          intro heq
          cases ds with
          | nil => cases hds
          | cons d ds =>
            rw [← heq, List.flatten_cons, List.append_right_eq_self, List.append_eq_nil_iff] at hsplit
            exact hcs d (by rw [hchunks]; simp) hsplit.1
        obtain ⟨hmsgs, -⟩ := readAll_chunks hm hx hchannel (fun c hc => hcs c (by rw [hchunks]; exact List.mem_append_left _ hc))
          (keeps_nil h x.1.channel) hbytes (by rw [List.nil_append, ← hsplit]; exact List.prefix_append _ _)
        rw [List.nil_append, if_neg hne, hraws] at hmsgs
        rw [hmsgs]
        refine ⟨List.nil_prefix, fun heq => ?_⟩
        rw [hsegments, List.append_assoc, eq_comm, List.append_right_eq_self] at heq
        cases heq
    · exact hwhole rest ⟨more, hmore.symm⟩ hrest

end BearerReadHalf
end Pallas.Network2
