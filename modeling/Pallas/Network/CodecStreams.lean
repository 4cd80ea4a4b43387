import Pallas.Network.Codecs
import Pallas.Network2.CodecRoundTrip

/-!
# Messages read from a stream

The decoders of chain sync, block fetch and transaction submission take what the encoders write, whatever follows, and say
of every front of it that the bytes end too early: they read from a stream (`Reader.Streams`). Of the messages of the
mempool monitor this holds unless the last field may be missing.
-/

namespace Pallas.Network
open Cbor

variable {ε : Type} {m : MinicborValues ε} (hm : m.Lawful)
include hm

/-! ### Points, tips and contents -/

theorem Point.decode_streams : (Network2.Point.decode m).Streams m.isEndOfInput := by
  refine hm.array_streams.bind fun size => ?_
  split
  · exact .pure _
  · exact hm.u64_streams.bind fun slot => hm.bytes_streams.map _
  · exact .throw _

namespace Chainsync
variable {C : Type}

theorem Tip.decode_streams : (Network2.Chainsync.Tip.decode m).Streams m.isEndOfInput :=
  hm.array_streams.bind fun _ => (Point.decode_streams hm).bind fun _ => hm.u64_streams.map _

theorem HeaderContent.decode_streams : (Network2.Chainsync.HeaderContent.decode m).Streams m.isEndOfInput := by
  refine hm.array_streams.bind fun _ => hm.u8_streams.bind fun variant => ?_
  split
  · refine hm.array_streams.bind fun _ => (hm.pair_streams hm.u8_streams hm.u64_streams).bind fun _ => ?_
    exact hm.tag_streams.bind fun _ => hm.bytes_streams.map _
  · exact hm.tag_streams.bind fun _ => hm.bytes_streams.map _

theorem BlockContent.decode_inverts (content : BlockContent) : (BlockContent.decode m).Inverts content.encode content :=
  (hm.tag_takes Network2.cborTag).inverts.bind ((hm.bytes_inverts content.cbor).last rfl)

theorem BlockContent.decode_streams : (BlockContent.decode m).Streams m.isEndOfInput :=
  hm.tag_streams.bind fun _ => hm.bytes_streams.map _

omit hm in
theorem reads_null (rest : Bytes) : Reads .item (null ++ rest) rest := by
  have hhead : Decoder.header 7 (null ++ rest) = some (some 22, rest) := rfl
  exact .item hhead (by simp [null]) rfl .none

theorem SkippedContent.decode_inverts (content : SkippedContent) :
    (SkippedContent.decode m).Inverts content.encode content := (hm.skip_takes reads_null).inverts.last rfl

theorem SkippedContent.decode_streams : (SkippedContent.decode m).Streams m.isEndOfInput := hm.skip_streams.map _

namespace Message

omit hm in
/-- The content that a message carries can be written. -/
def Carries (fits : C → Prop) : Message C → Prop
  | rollForward content _ => fits content
  | _ => True

theorem decode_inverts {content : Reader ε C} {write : C → Except String Bytes} {fits : C → Prop}
    (h : ∀ c, fits c → ∃ bs, write c = .ok bs ∧ content.Inverts bs c) {msg : Message C} (hmsg : msg.Carries fits) :
    ∃ bs, msg.encode write = .ok bs ∧ (Message.decode m content).Inverts bs msg := by
  have hpoint := Network2.Point.decode_inverts hm
  have htip := Network2.Chainsync.Tip.decode_inverts hm
  cases msg with
  | requestNext => exact ⟨_, rfl, Network2.labelled_alone hm (by norm_num) 0 rfl⟩
  | awaitReply => exact ⟨_, rfl, Network2.labelled_alone hm (by norm_num) 1 rfl⟩
  | rollForward c tip =>
    obtain ⟨bs, hbs, hcontent⟩ := h c hmsg
    refine ⟨array 3 ++ (uint 2 ++ (bs ++ tip.encode)), ?_, ?_⟩
    · rw [encode, hbs]
      rfl
    · exact Network2.labelled hm (by norm_num) 2 (hcontent.bind ((htip tip).last rfl))
  | rollBackward point tip =>
    exact ⟨_, rfl, Network2.labelled hm (by norm_num) 3 ((hpoint point).bind ((htip tip).last rfl))⟩
  | findIntersect points =>
    have hpoints := hm.arrayIter_inverts (fun point _ => hpoint point)
      fun point (_ : point ∈ points) => point.encode_begins
    exact ⟨_, rfl, Network2.labelled hm (by norm_num) 4 (hpoints.last rfl)⟩
  | intersectFound point tip =>
    exact ⟨_, rfl, Network2.labelled hm (by norm_num) 5 ((hpoint point).bind ((htip tip).last rfl))⟩
  | intersectNotFound tip => exact ⟨_, rfl, Network2.labelled hm (by norm_num) 6 ((htip tip).last rfl)⟩
  | done => exact ⟨_, rfl, Network2.labelled_alone hm (by norm_num) 7 rfl⟩

theorem decode_streams {content : Reader ε C} (h : content.Streams m.isEndOfInput) :
    (Message.decode m content).Streams m.isEndOfInput := by
  have hpoint := Point.decode_streams hm
  have htip := Tip.decode_streams hm
  refine hm.array_streams.bind fun _ => hm.u16_streams.bind fun label => ?_
  split
  · exact .pure _
  · exact .pure _
  · exact h.bind fun _ => htip.map _
  · exact hpoint.bind fun _ => htip.map _
  · exact (hm.arrayIter_streams hpoint).map _
  · exact hpoint.bind fun _ => htip.map _
  · exact htip.map _
  · exact .pure _
  · exact .throw _

end Message
end Chainsync

/-! ### Block fetch -/

namespace Blockfetch.Message

theorem decode_inverts (msg : Message) : (Message.decode m).Inverts msg.encode msg := by
  have hpoint := Network2.Point.decode_inverts hm
  cases msg with
  | requestRange range =>
    exact Network2.labelled hm (by norm_num) 0 ((hpoint range.1).bind ((hpoint range.2).last rfl))
  | clientDone => exact Network2.labelled_alone hm (by norm_num) 1 rfl
  | startBatch => exact Network2.labelled_alone hm (by norm_num) 2 rfl
  | noBlocks => exact Network2.labelled_alone hm (by norm_num) 3 rfl
  | block body =>
    exact Network2.labelled hm (by norm_num) 4
      ((hm.tag_takes Network2.cborTag).inverts.bind ((hm.bytes_inverts body).last rfl))
  | batchDone => exact Network2.labelled_alone hm (by norm_num) 5 rfl

theorem decode_streams : (Message.decode m).Streams m.isEndOfInput := by
  refine hm.array_streams.bind fun _ => hm.u16_streams.bind fun label => ?_
  split
  · exact (Point.decode_streams hm).bind fun _ => (Point.decode_streams hm).map _
  · exact .pure _
  · exact .pure _
  · exact .pure _
  · exact hm.tag_streams.bind fun _ => hm.bytes_streams.map _
  · exact .pure _
  · exact .throw _

end Blockfetch.Message

/-! ### Transaction submission -/

namespace Txsubmission

theorem EraTxId.decode_streams : (Network2.Txsubmission.EraTxId.decode m).Streams m.isEndOfInput :=
  hm.array_streams.bind fun _ => hm.u16_streams.bind fun _ => hm.bytes_streams.map _

theorem EraTxBody.decode_streams : (Network2.Txsubmission.EraTxBody.decode m).Streams m.isEndOfInput := by
  refine hm.array_streams.bind fun _ => hm.u16_streams.bind fun _ => hm.tag_streams.bind fun tag => ?_
  split
  · exact .throw _
  · exact hm.bytes_streams.map _

variable {I B : Type} {id : Reader ε I} {body : Reader ε B} {writeId : I → Bytes} {writeBody : B → Bytes}

theorem TxIdAndSize.decode_inverts (hid : ∀ i, id.Inverts (writeId i) i) (self : TxIdAndSize I) :
    (TxIdAndSize.decode m id).Inverts (self.encode writeId) self :=
  (hm.array_takes (by norm_num)).inverts.bind ((hid self.id).bind ((hm.u32_takes self.size).inverts.last rfl))

theorem Message.decode_inverts (hid : ∀ i, id.Inverts (writeId i) i) (hbody : ∀ b, body.Inverts (writeBody b) b)
    (hidBegins : ∀ i, Begins (writeId i)) (hbodyBegins : ∀ b, Begins (writeBody b)) (msg : Message I B) :
    (Message.decode m id body).Inverts (msg.encode writeId writeBody) msg := by
  cases msg with
  | init => exact Network2.labelled_alone hm (by norm_num) 6 rfl
  | requestTxIds blocking ack req =>
    exact Network2.labelled hm (by norm_num) 0 ((hm.bool_takes blocking).inverts.bind
      ((hm.u16_takes ack).inverts.bind ((hm.u16_takes req).inverts.last rfl)))
  | replyTxIds ids =>
    have hids := hm.arrayIter_inverts_indef (fun i _ => TxIdAndSize.decode_inverts hm hid i)
      fun i (_ : i ∈ ids) => Network2.begins_array (by norm_num) _
    exact Network2.labelled hm (by norm_num) 1 (hids.last rfl)
  | requestTxs ids =>
    have hids := hm.arrayIter_inverts_indef (fun i _ => hid i) fun i (_ : i ∈ ids) => hidBegins i
    exact Network2.labelled hm (by norm_num) 2 (hids.last rfl)
  | replyTxs txs =>
    have htxs := hm.arrayIter_inverts_indef (fun b _ => hbody b) fun b (_ : b ∈ txs) => hbodyBegins b
    exact Network2.labelled hm (by norm_num) 3 (htxs.last rfl)
  | done => exact Network2.labelled_alone hm (by norm_num) 4 rfl

theorem Message.decode_streams (hid : id.Streams m.isEndOfInput) (hbody : body.Streams m.isEndOfInput) :
    (Message.decode m id body).Streams m.isEndOfInput := by
  have hsized : (TxIdAndSize.decode m id).Streams m.isEndOfInput :=
    hm.array_streams.bind fun _ => hid.bind fun _ => hm.u32_streams.map _
  refine hm.array_streams.bind fun _ => hm.u16_streams.bind fun label => ?_
  split
  · exact hm.bool_streams.bind fun _ => hm.u16_streams.bind fun _ => hm.u16_streams.map _
  · exact (hm.arrayIter_streams hsized).map _
  · exact (hm.arrayIter_streams hid).map _
  · exact (hm.arrayIter_streams hbody).map _
  · exact .pure _
  · exact .pure _
  · exact .throw _

end Txsubmission

end Pallas.Network
