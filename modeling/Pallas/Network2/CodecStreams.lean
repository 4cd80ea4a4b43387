import Pallas.Network.CodecStreams
import Pallas.Network2.Bitmaps

/-!
# Messages of every mini-protocol, read from a stream

What a decoder returns does not depend on the bytes behind those it reads, and of a front of these it returns the same or says
that they end too early (`Reader.Streams`). So it is with the messages of all eight mini-protocols.
-/

namespace Pallas.Network2
open Cbor Reader

variable {ε α : Type} {m : MinicborValues ε}

/-! ### Raw items -/

theorem AnyCbor.decode_eq_ok {bs rest : Bytes} {a : AnyCbor} : (AnyCbor.decode m).run bs = (.ok a, rest) ↔
    m.skip.run bs = (.ok (), rest) ∧ a = bs.take (bs.length - rest.length) := by
  show Reader.next (m.skip.run bs) _ = _ ↔ _
  rcases m.skip.run bs with ⟨e | u, rest'⟩
  · simp
  · simp only [Reader.next_ok, Prod.mk.injEq, Except.ok.injEq, true_and]
    constructor
    · rintro ⟨rfl, rfl⟩
      exact ⟨rfl, rfl⟩
    · rintro ⟨rfl, rfl⟩
      exact ⟨rfl, rfl⟩

/-- What is cut off the front does not depend on what comes behind. -/
theorem take_skipped (bs rest more : Bytes) :
    (bs ++ more).take ((bs ++ more).length - (rest ++ more).length) = bs.take (bs.length - rest.length) := by
  rw [List.length_append, List.length_append, Nat.add_sub_add_right, List.take_append_of_le_length (Nat.sub_le ..)]

theorem ofExcept_streams {isEnd : ε → Bool} (r : Except ε α) : (Reader.ofExcept r).Streams isEnd := by
  refine ⟨fun bs a rest more h => ?_, fun w more a rest h => .inl ⟨w, ?_⟩⟩
  · obtain ⟨rfl, rfl⟩ := Prod.mk.inj h
    rfl
  · obtain ⟨rfl, -⟩ := Prod.mk.inj h
    rfl

section Decoders
variable (hm : m.Lawful)
include hm

theorem AnyCbor.decode_streams : (AnyCbor.decode m).Streams m.isEndOfInput := by
  constructor
  · intro bs a rest more h
    obtain ⟨hskip, rfl⟩ := AnyCbor.decode_eq_ok.1 h
    exact AnyCbor.decode_eq_ok.2 ⟨hm.skip_steady _ _ _ more hskip, (take_skipped _ _ more).symm⟩
  · intro w more a rest h
    obtain ⟨hskip, rfl⟩ := AnyCbor.decode_eq_ok.1 h
    rcases hm.skip_waits w more () rest hskip with ⟨rest', hw⟩ | ⟨e, rest', hw, he⟩
    · have hlong := hm.skip_steady w () rest' more hw
      obtain rfl : rest = rest' ++ more := (Prod.mk.inj (hskip.symm.trans hlong)).2
      exact .inl ⟨rest', AnyCbor.decode_eq_ok.2 ⟨hw, take_skipped _ _ more⟩⟩
    · refine .inr ⟨e, rest', ?_, he⟩
      show Reader.next (m.skip.run w) _ = _
      rw [hw, Reader.next_error]

theorem CborWrap.decode_streams : (CborWrap.decode m).Streams m.isEndOfInput :=
  hm.tag_streams.bind fun _ => hm.bytes_streams.bind fun _ => ofExcept_streams _

/-! ### Chain sync, block fetch and transactions -/

theorem Chainsync.Message.decode_streams : (Chainsync.Message.decode m).Streams m.isEndOfInput := by
  have hpoint := Network.Point.decode_streams hm
  have htip := Network.Chainsync.Tip.decode_streams hm
  refine hm.array_streams.bind fun _ => hm.u16_streams.bind fun label => ?_
  split
  · exact .pure _
  · exact .pure _
  · exact (Network.Chainsync.HeaderContent.decode_streams hm).bind fun _ => htip.map _
  · exact hpoint.bind fun _ => htip.map _
  · exact (hm.arrayIter_streams hpoint).map _
  · exact hpoint.bind fun _ => htip.map _
  · exact htip.map _
  · exact .pure _
  · exact .throw _

theorem Blockfetch.Message.decode_streams : (Blockfetch.Message.decode m).Streams m.isEndOfInput := by
  have hpoint := Network.Point.decode_streams hm
  refine hm.array_streams.bind fun _ => hm.u16_streams.bind fun label => ?_
  split
  · exact hpoint.bind fun _ => hpoint.map _
  · exact .pure _
  · exact .pure _
  · exact .pure _
  · exact hm.tag_streams.bind fun _ => hm.bytes_streams.map _
  · exact .pure _
  · exact .throw _

theorem Txsubmission.Message.decode_streams : (Txsubmission.Message.decode m).Streams m.isEndOfInput := by
  have hid := Network.Txsubmission.EraTxId.decode_streams hm
  have hsized : (Txsubmission.TxIdAndSize.decode m).Streams m.isEndOfInput :=
    hm.array_streams.bind fun _ => hid.bind fun _ => hm.u32_streams.map _
  refine hm.array_streams.bind fun _ => hm.u16_streams.bind fun label => ?_
  split
  · exact hm.bool_streams.bind fun _ => hm.u16_streams.bind fun _ => hm.u16_streams.map _
  · exact (hm.arrayIter_streams hsized).map _
  · exact (hm.arrayIter_streams hid).map _
  · exact (hm.arrayIter_streams (Network.Txsubmission.EraTxBody.decode_streams hm)).map _
  · exact .pure _
  · exact .pure _
  · exact .throw _

/-! ### Keep alive and peer sharing -/

theorem Keepalive.Message.decode_streams : (Keepalive.Message.decode m).Streams m.isEndOfInput := by
  refine hm.array_streams.bind fun _ => hm.u16_streams.bind fun label => ?_
  split
  · exact hm.u16_streams.map _
  · exact hm.u16_streams.map _
  · exact .pure _
  · exact .throw _

theorem Peersharing.PeerAddress.decode_streams : (Peersharing.PeerAddress.decode m).Streams m.isEndOfInput := by
  have hword := hm.u32_streams
  refine hm.array_streams.bind fun _ => hm.u16_streams.bind fun label => ?_
  split
  · exact hword.bind fun _ => hm.u16_streams.map _
  · exact hword.bind fun _ => hword.bind fun _ => hword.bind fun _ => hword.bind fun _ => hm.u16_streams.map _
  · exact .throw _

theorem Peersharing.Message.decode_streams : (Peersharing.Message.decode m).Streams m.isEndOfInput := by
  refine hm.array_streams.bind fun _ => hm.u16_streams.bind fun label => ?_
  split
  · exact hm.u8_streams.map _
  · exact (hm.arrayIter_streams (Peersharing.PeerAddress.decode_streams hm)).map _
  · exact .pure _
  · exact .throw _

/-! ### Leios -/

omit hm in
theorem begins_of_reads {raw : Bytes} (h : ∀ rest, Reads .item (raw ++ rest) rest) : Begins raw := by
  cases raw with
  | nil => exact absurd (h [0xff]) Reads.not_break
  | cons b tail =>
    refine ⟨b, tail, rfl, ?_⟩
    rintro rfl
    exact Reads.not_break (h [])

omit hm in
theorem AnyCbor.decode_takes {raw : AnyCbor} (h : m.skip.Takes raw ()) : (AnyCbor.decode m).Takes raw raw := by
  intro rest
  refine AnyCbor.decode_eq_ok.2 ⟨h rest, ?_⟩
  rw [List.length_append, Nat.add_sub_cancel, List.take_left]

theorem CborWrap.decode_inverts {raw : AnyCbor} (h : m.skip.Takes raw ()) :
    (CborWrap.decode m).Inverts (CborWrap.encode raw) raw := by
  have hraw := AnyCbor.decode_takes h []
  rw [List.append_nil] at hraw
  refine (hm.tag_takes cborTag).inverts.bind ((hm.bytes_inverts raw).last ?_)
  rw [hraw]
  rfl

/-- What a message carries as it came. -/
def Leiosnotify.Message.raws : Leiosnotify.Message → List AnyCbor
  | .blockAnnouncement header => [header]
  | .votes raws => raws
  | _ => []

def Leiosfetch.Message.raws : Leiosfetch.Message → List AnyCbor
  | .block raw => [raw]
  | .blockTxs txs => txs
  | _ => []

theorem Leiosnotify.Message.decode_inverts {msg : Leiosnotify.Message}
    (h : ∀ raw ∈ msg.raws, ∀ rest, Reads .item (raw ++ rest) rest) :
    (Leiosnotify.Message.decode m).Inverts msg.encode msg := by
  have hraw : ∀ raw ∈ msg.raws, (AnyCbor.decode m).Inverts raw raw :=
    fun raw hmem => (AnyCbor.decode_takes (hm.skip_takes (h raw hmem))).inverts
  cases msg with
  | done => exact labelled_alone hm (by norm_num) 0 rfl
  | quit => exact labelled_alone hm (by norm_num) 1 rfl
  | canceled => exact labelled_alone hm (by norm_num) 2 rfl
  | requestNext => exact labelled_alone hm (by norm_num) 3 rfl
  | blockAnnouncement header => exact labelled hm (by norm_num) 4 ((hraw header (by simp [raws])).last rfl)
  | blockOffer point size =>
    exact labelled hm (by norm_num) 5 ((Point.decode_inverts hm point).bind ((hm.u32_takes size).inverts.last rfl))
  | blockTxsOffer point => exact labelled hm (by norm_num) 6 ((Point.decode_inverts hm point).last rfl)
  | votes raws =>
    have hraws : (m.arrayIter (AnyCbor.decode m)).Inverts (Cbor.array raws.length ++ raws.flatMap id) raws :=
      hm.arrayIter_inverts hraw fun raw hmem => begins_of_reads (h raw hmem)
    exact labelled hm (by norm_num) 7 (hraws.last rfl)

theorem Leiosfetch.Message.decode_inverts {msg : Leiosfetch.Message}
    (h : ∀ raw ∈ msg.raws, ∀ rest, Reads .item (raw ++ rest) rest)
    (hsorted : ∀ eb bitmaps, msg = .blockTxsRequest eb bitmaps → Entries.Sorted bitmaps.windows) :
    (Leiosfetch.Message.decode m).Inverts msg.encode msg := by
  have hskip : ∀ raw ∈ msg.raws, m.skip.Takes raw () := fun raw hmem => hm.skip_takes (h raw hmem)
  cases msg with
  | done => exact labelled_alone hm (by norm_num) 0 rfl
  | blockRequest point => exact labelled hm (by norm_num) 1 ((Point.decode_inverts hm point).last rfl)
  | block raw =>
    exact labelled hm (by norm_num) 2 ((AnyCbor.decode_takes (hskip raw (by simp [raws]))).inverts.last rfl)
  | blockTxsRequest point bitmaps =>
    have hbitmaps := (Bitmaps.decode_takes hm (hsorted point bitmaps rfl)).inverts
    exact labelled hm (by norm_num) 3 ((Point.decode_inverts hm point).bind (hbitmaps.last rfl))
  | blockTxs txs =>
    have htxs := hm.arrayIter_inverts (fun raw hmem => CborWrap.decode_inverts hm (hskip raw hmem))
      fun raw (_ : raw ∈ txs) => (begins_head (by omega) (by decide)).append (bytes raw)
    exact labelled hm (by norm_num) 4 (htxs.last rfl)

theorem Leiosnotify.Message.decode_streams : (Leiosnotify.Message.decode m).Streams m.isEndOfInput := by
  have hpoint := Network.Point.decode_streams hm
  have hraw := AnyCbor.decode_streams hm
  refine hm.array_streams.bind fun _ => hm.u16_streams.bind fun label => ?_
  split
  · exact .pure _
  · exact .pure _
  · exact .pure _
  · exact .pure _
  · exact hraw.map _
  · exact hpoint.bind fun _ => hm.u32_streams.map _
  · exact hpoint.map _
  · exact (hm.arrayIter_streams hraw).map _
  · exact .throw _

theorem Leiosfetch.Message.decode_streams : (Leiosfetch.Message.decode m).Streams m.isEndOfInput := by
  have hpoint := Network.Point.decode_streams hm
  have hbitmaps : (Leiosfetch.Bitmaps.decode m).Streams m.isEndOfInput :=
    (hm.mapIter_streams hm.u16_streams hm.u64_streams).map _
  refine hm.array_streams.bind fun _ => hm.u16_streams.bind fun label => ?_
  split
  · exact .pure _
  · exact hpoint.map _
  · exact (AnyCbor.decode_streams hm).map _
  · exact hpoint.bind fun _ => hbitmaps.map _
  · exact (hm.arrayIter_streams (CborWrap.decode_streams hm)).map _
  · exact .throw _

/-! ### Handshake -/

namespace Handshake
variable {D : Type} {data : Reader ε D}

theorem VersionTable.decodeValues_streams (hdata : data.Streams m.isEndOfInput) (len : ℕ) (values : List (UInt64 × D)) :
    (VersionTable.decodeValues m data len values).Streams m.isEndOfInput := by
  induction len generalizing values with
  | zero => exact .pure _
  | succ len ih => exact hm.u64_streams.bind fun key => hdata.bind fun value => ih _

theorem VersionTable.decode_streams (hdata : data.Streams m.isEndOfInput) :
    (VersionTable.decode m data).Streams m.isEndOfInput := by
  refine hm.map_streams.bind fun len => ?_
  cases len with
  | none => exact .throw _
  | some len => exact (VersionTable.decodeValues_streams hm hdata _ _).map _

theorem RefuseReason.decode_streams : (RefuseReason.decode m).Streams m.isEndOfInput := by
  refine hm.array_streams.bind fun _ => hm.u16_streams.bind fun label => ?_
  split
  · exact (hm.arrayIter_streams hm.u64_streams).map _
  · exact hm.u64_streams.bind fun _ => hm.str_streams.map _
  · exact hm.u64_streams.bind fun _ => hm.str_streams.map _
  · exact .throw _

theorem Message.decode_streams (hdata : data.Streams m.isEndOfInput) :
    (Message.decode m data).Streams m.isEndOfInput := by
  have htable := VersionTable.decode_streams hm hdata
  refine hm.array_streams.bind fun _ => hm.u16_streams.bind fun label => ?_
  split
  · exact htable.map _
  · exact hm.u64_streams.bind fun _ => hdata.map _
  · exact (RefuseReason.decode_streams hm).map _
  · exact htable.map _
  · exact .throw _

theorem VersionData.decode_streams : (VersionData.decode m).Streams m.isEndOfInput := by
  refine hm.array_streams.bind fun len => hm.u64_streams.bind fun _ => hm.bool_streams.bind fun _ => ?_
  split
  · refine hm.u8_streams.bind fun _ => Streams.bind (.pure _) fun _ => hm.bool_streams.bind fun _ => ?_
    exact Streams.bind (.pure _) fun _ => .pure _
  · exact Streams.bind (.pure _) fun _ => Streams.bind (.pure _) fun _ => .pure _

end Handshake
end Decoders
end Pallas.Network2
