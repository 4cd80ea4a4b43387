import Pallas.Codec.ValuesReference
import Pallas.Network.CodecStreams
import Pallas.Network.Multiplexer

/-!
# Codecs that survive segment boundaries

`recvFullMsg` decodes the front of a stream, so a codec has to say of every front of a message that bytes are missing, and
has to stop at its end whatever follows. In the mempool monitor only `responseNextTx` does not: a missing transaction is
told from one that has not arrived by looking at the next byte. In transaction submission no message does, since nothing
at all decodes as a rejection.
-/

namespace Pallas.Network
open Cbor Multiplexer

variable {ε M : Type}

/-- The message can be cut anywhere, and others may follow it. -/
structure Safe (isEndOfInput : ε → Bool) (decode : Reader ε M) (encode : M → Bytes) (msg : M) : Prop where
  ends : ∀ w₁ w₂, encode msg = w₁ ++ w₂ → w₂ ≠ [] → ∃ e rest, decode.run w₁ = (.error e, rest) ∧ isEndOfInput e = true
  takes : ∀ msg', decode.run (encode msg ++ encode msg') = (.ok msg, encode msg')

section
variable {isEndOfInput : ε → Bool} {decode : Reader ε M} {encode : M → Bytes} {msg : M}

theorem Safe.of_frames (h : decode.Frames isEndOfInput (encode msg) msg) : Safe isEndOfInput decode encode msg :=
  ⟨h.ends, fun _ => h.takes _⟩

theorem tryDecodeMessage_nil (h : decode.Frames isEndOfInput (encode msg) msg) (hne : encode msg ≠ []) :
    tryDecodeMessage isEndOfInput decode [] = (.ok none, []) :=
  tryDecodeMessage_wait h (List.nil_append _).symm hne

end

variable {m : MinicborValues ε} {msg : M}

/-- The number of a message in front of its fields. -/
theorem labelled_frames (hm : m.Lawful) {n : ℕ} (hn : n < 2 ^ 64) (label : UInt16) {f : UInt16 → Reader ε M} {w : Bytes}
    (h : (f label).Frames m.isEndOfInput w msg) :
    (do let _ ← m.array; let label ← m.u16; f label).Frames m.isEndOfInput (array n ++ (uint label.toNat ++ w)) msg :=
  (hm.array_streams.frames (hm.array_takes hn)).bind ((hm.u16_streams.frames (hm.u16_takes label)).bind h)

/-- The number of one without fields. -/
theorem labelled_alone_frames (hm : m.Lawful) {n : ℕ} (hn : n < 2 ^ 64) (label : UInt16) {f : UInt16 → Reader ε M}
    (h : f label = pure msg) :
    (do let _ ← m.array; let label ← m.u16; f label).Frames m.isEndOfInput (array n ++ uint label.toNat) msg :=
  (hm.array_streams.frames (hm.array_takes hn)).bind ((hm.u16_streams.frames (hm.u16_takes label)).last h)

theorem array_append_ne_nil {n : ℕ} (hn : n < 2 ^ 64) (w : Bytes) :
    array n ++ w ≠ [] := (Network2.begins_array hn w).ne_nil

namespace Txmonitor.Message
variable {msg : Message}

theorem encode_ne_nil (msg : Message) : msg.encode ≠ [] := by
  rcases msg with _ | _ | _ | _ | _ | _ | _ | (_ | _) | _ | _ | _ <;> exact array_append_ne_nil (by norm_num) _

theorem decode_frames (hm : m.Lawful) (hlen : msg.encode.length < 2 ^ 64) (h : ∀ tx, msg ≠ responseNextTx tx) :
    (decode m).Frames m.isEndOfInput msg.encode msg := by
  cases msg with
  | done => exact labelled_alone_frames hm (by norm_num) 0 rfl
  | acquire => exact labelled_alone_frames hm (by norm_num) 1 rfl
  | release => exact labelled_alone_frames hm (by norm_num) 3 rfl
  | awaitAcquire => exact labelled_alone_frames hm (by norm_num) 4 rfl
  | requestNextTx => exact labelled_alone_frames hm (by norm_num) 5 rfl
  | requestSizeAndCapacity => exact labelled_alone_frames hm (by norm_num) 9 rfl
  | responseNextTx tx => exact absurd rfl (h tx)
  | acquired slot =>
    exact labelled_frames hm (by norm_num) 2 ((hm.u64_streams.frames (hm.u64_takes slot)).last rfl)
  | requestHasTx id =>
    have hid : (encodeText id).length < 2 ^ 64 := by
      simp only [encode, List.length_append] at hlen
      omega
    exact labelled_frames hm (by norm_num) 7 ((hm.str_streams.frames (hm.str_inverts id hid)).last rfl)
  | responseHasTx has =>
    exact labelled_frames hm (by norm_num) 8 ((hm.bool_streams.frames (hm.bool_takes has)).last rfl)
  | responseSizeAndCapacity sz =>
    have hcapacity := hm.u32_streams.frames (hm.u32_takes sz.capacityInBytes)
    have hsize := hm.u32_streams.frames (hm.u32_takes sz.sizeInBytes)
    have htxs := hm.u32_streams.frames (hm.u32_takes sz.numberOfTxs)
    have harray := hm.array_streams.frames (hm.array_takes (show 3 < 2 ^ 64 by norm_num))
    exact labelled_frames hm (by norm_num) 10 (harray.bind (hcapacity.bind (hsize.bind (htxs.last rfl))))

/-- Behind the label of `responseNextTx` the rest decides. -/
theorem run_label_six (hm : m.Lawful) {n : ℕ} (hn : n < 2 ^ 64) (rest : Bytes) :
    (decode m).run (array n ++ (uint 6 ++ rest)) = (decodeNextTx m).run rest := by
  have hlabel : m.u16.Takes (uint 6) 6 := hm.u16_takes 6
  rw [decode, Reader.run_bind, hm.array_takes hn, Reader.next_ok, Reader.run_bind, hlabel, Reader.next_ok]
  rfl

/-- Where nothing follows yet, there is no transaction. -/
theorem decodeNextTx_nil (hm : m.Lawful) : (decodeNextTx m).run [] = (.ok (responseNextTx none), []) := by
  obtain ⟨e, he, -⟩ := hm.datatype_end
  simp [decodeNextTx, he]

theorem decodeNextTx_array (hm : m.Lawful) {n : ℕ} (hn : n < 2 ^ 64) (w rest : Bytes) :
    (decodeNextTx m).run (array n ++ w) ≠ (.ok (responseNextTx none), rest) := by
  intro h
  have htype := hm.datatype_array (array n ++ w) n w (header_head (by omega) hn)
  simp only [decodeNextTx, htype] at h
  obtain ⟨tx, mid, -, hpure⟩ := Reader.bind_eq_ok.1 h
  cases hpure

theorem not_safe_responseNextTx (hm : m.Lawful) (tx : Option Tx) :
    ¬ Safe m.isEndOfInput (decode m) encode (responseNextTx tx) := by
  intro h
  cases tx with
  | none =>
    have hrun := h.takes done
    simp only [encode, List.append_assoc] at hrun
    rw [run_label_six hm (by norm_num)] at hrun
    exact decodeNextTx_array hm (by norm_num) _ _ hrun
  | some tx =>
    have hsplit : encode (responseNextTx (some tx)) = (array 2 ++ (uint 6 ++ [])) ++ tx.encode := by
      simp only [encode, List.append_nil, List.append_assoc]
    obtain ⟨e, rest, hrun, -⟩ := h.ends _ _ hsplit (array_append_ne_nil (by norm_num) _)
    rw [run_label_six hm (by norm_num), decodeNextTx_nil hm] at hrun
    cases hrun

end Txmonitor.Message

theorem Localtxsubmission.Message.decode_nil (hm : m.Lawful) {T R : Type} (text : String → R) (tx : Reader ε T)
    (reject : Reader ε R) : ((Message.decode m text tx reject).run []).1 = .ok (rejectTx (text "")) := by
  have hempty : ofUtf8 [] = some "" := ofUtf8_utf8 ""
  unfold Message.decode
  cases harray : m.array.run [] with
  | mk r rest =>
    cases r with
    | ok n =>
      have hlt := header_length ((hm.array _ _ _).1 harray)
      exact absurd hlt (Nat.not_lt_zero _)
    | error e => simp [harray, hempty]

/-- Messages of the mempool monitor can be cut anywhere unless they carry, or lack, the next transaction; messages of
transaction submission can not. What can be cut anywhere is received whatever the segments. -/
theorem safe_iff (hm : m.Lawful) :
    (∀ msg : Txmonitor.Message, msg.encode.length < 2 ^ 64 →
      (Safe m.isEndOfInput (Txmonitor.Message.decode m) (·.encode) msg ↔ ∀ tx, msg ≠ .responseNextTx tx)) ∧
    (∀ (T R : Type) (text : String → R) (tx : Reader ε T) (reject : Reader ε R) (writeTx : T → Bytes)
      (writeReject : R → Bytes) (msg : Localtxsubmission.Message T R),
      ¬ Safe m.isEndOfInput (Localtxsubmission.Message.decode m text tx reject) (·.encode writeTx writeReject) msg) ∧
    ∀ (msgs : List Txmonitor.Message) (segments : List Payload),
      (∀ msg ∈ msgs, msg.encode.length < 2 ^ 64 ∧ ∀ tx, msg ≠ .responseNextTx tx) →
      segments.flatten = msgs.flatMap (·.encode) →
      Receives m.isEndOfInput (Txmonitor.Message.decode m) ⟨segments, []⟩ msgs ⟨[], []⟩ := by
  refine ⟨fun msg hlen => ⟨?_, fun h => .of_frames (Txmonitor.Message.decode_frames hm hlen h)⟩, ?_, ?_⟩
  · rintro h tx rfl
    exact Txmonitor.Message.not_safe_responseNextTx hm tx h
  · intro T R text tx reject writeTx writeReject msg h
    have hne : msg.encode writeTx writeReject ≠ [] := by
      cases msg <;> exact array_append_ne_nil (by norm_num) _
    obtain ⟨e, rest, hrun, -⟩ := h.ends [] _ rfl hne
    have hnil := Localtxsubmission.Message.decode_nil hm text tx reject
    rw [hrun] at hnil
    cases hnil
  · intro msgs segments h hsegments
    have hdone : (Txmonitor.Message.decode m).Frames m.isEndOfInput (Txmonitor.Message.encode .done) .done :=
      Txmonitor.Message.decode_frames hm (by decide) (by simp)
    refine receives (tryDecodeMessage_nil hdone (Txmonitor.Message.encode_ne_nil _)) (fun msg hmsg => ?_) hsegments
    obtain ⟨hlen, hnext⟩ := h msg hmsg
    exact ⟨msg.encode_ne_nil, Txmonitor.Message.decode_frames hm hlen hnext⟩

open MinicborValues in
theorem safe_iff_reference :
    Safe reference.isEndOfInput (Txmonitor.Message.decode reference) (·.encode) .acquire ∧
      Receives reference.isEndOfInput (Txmonitor.Message.decode reference) ⟨[[0x81], [], [0x01, 0x81], [0x03]], []⟩
        [.acquire, .release] ⟨[], []⟩ :=
  ⟨((safe_iff reference_lawful).1 .acquire (by decide)).2 (by simp),
    (safe_iff reference_lawful).2.2 [.acquire, .release] _
      (by simp [Txmonitor.Message.encode, array, uint, head]) (by decide)⟩

open MinicborValues in
/-- A transaction cut off behind the label is no transaction, and what follows is no message. -/
theorem next_tx_not_safe :
    ¬ Safe reference.isEndOfInput (Txmonitor.Message.decode reference) (·.encode) (.responseNextTx (some (6, [0x80]))) ∧
      ChannelBuffer.recvFullMsg reference.isEndOfInput (Txmonitor.Message.decode reference)
        ⟨[[0x82, 0x06], [0x82, 0x06, 0xd8, 0x18, 0x41, 0x80]], []⟩ =
        (.message (.responseNextTx none), ⟨[[0x82, 0x06, 0xd8, 0x18, 0x41, 0x80]], []⟩) := by
  have hrun : (Txmonitor.Message.decode reference).run [0x82, 0x06] = (.ok (.responseNextTx none), []) := by rfl
  refine ⟨fun h => ?_, by rfl⟩
  obtain ⟨e, rest, hfront, -⟩ := h.ends [0x82, 0x06] [0x82, 0x06, 0xd8, 0x18, 0x41, 0x80] (by decide) (by decide)
  rw [hrun] at hfront
  cases hfront

end Pallas.Network
