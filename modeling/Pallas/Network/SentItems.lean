import Pallas.Lib.CborWrite
import Pallas.Network.Codecs

/-!
# Messages as data items

What the encoders of the mini-protocols write is one data item, and so is every element of a list in it, with three exceptions:
an array of eight is announced for an IPv6 address, and six items follow; an array of three for a blocking reply of local
messages, and two follow; and an endorser block is written as it is, whatever it is.
-/

namespace Pallas
open Cbor

/-! ### The parts of messages -/

section parts
variable {w : Bytes}

theorem writes_cbor (bs : Bytes) : Writes 1 (tag Network2.cborTag.toNat ++ bytes bs) :=
  (writes_bytes bs).tag Network2.cborTag.toNat_lt

theorem writes_label {label : ℕ} (h : label < 2 ^ 64) : Writes 1 (array 1 ++ uint label) := (writes_uint h).array

theorem writes_labelled {n label : ℕ} (hlabel : label < 2 ^ 64) (h : Writes n w) :
    Writes 1 (array (1 + n) ++ (uint label ++ w)) := ((writes_uint hlabel).append h).array

theorem writes_indefinite {α : Type} {f : α → Bytes} (h : ∀ a, Writes 1 (f a)) (as : List α) :
    Writes 1 (beginArray ++ as.flatMap f ++ endIndef) := (writes_flatMap fun a _ => h a).indefinite

theorem writes_vec {α : Type} {f : α → Bytes} (h : ∀ a, Writes 1 (f a)) (as : List α) :
    Writes 1 (array as.length ++ as.flatMap f) := by
  have hall := writes_flatMap fun a (_ : a ∈ as) => h a
  rw [one_mul] at hall
  exact hall.array

end parts

namespace Network2

theorem Point.encode_writes (self : Point) : Writes 1 self.encode := by
  cases self with
  | origin => exact writes_nil.array
  | specific slot hash => exact ((writes_uint slot.toNat_lt).append (writes_bytes hash)).array

namespace Chainsync

theorem Tip.encode_writes (self : Tip) : Writes 1 self.encode :=
  (self.point.encode_writes.append (writes_uint self.height.toNat_lt)).array

theorem HeaderContent.encode_writes {self : HeaderContent} {w : Bytes} (h : self.encode = .ok w) : Writes 1 w := by
  have hvariant : self.variant.toNat < 2 ^ 64 := Nat.lt_trans self.variant.toNat_lt (by norm_num)
  unfold encode at h
  split at h
  · split at h
    · next a b hprefix =>
      cases h
      have ha : a.toNat < 2 ^ 64 := Nat.lt_trans a.toNat_lt (by norm_num)
      have hbyron := ((writes_uint ha).append (writes_uint b.toNat_lt)).array.append (writes_cbor self.cbor)
      exact ((writes_uint hvariant).append hbyron.array).array
    · cases h
  · cases h
    exact ((writes_uint hvariant).append (writes_cbor self.cbor)).array

theorem Message.encode_writes {msg : Message} {w : Bytes} (h : msg.encode = .ok w) : Writes 1 w := by
  cases msg with
  | requestNext => cases h; exact writes_label (by norm_num)
  | awaitReply => cases h; exact writes_label (by norm_num)
  | rollForward content tip =>
    cases hc : content.encode with
    | error e => simp [encode, hc, bind, Except.bind] at h
    | ok c =>
      obtain rfl : array 3 ++ (uint 2 ++ (c ++ tip.encode)) = w := by simpa [encode, hc, bind, Except.bind] using h
      exact writes_labelled (by norm_num) ((HeaderContent.encode_writes hc).append tip.encode_writes)
  | rollBackward point tip =>
    cases h
    exact writes_labelled (by norm_num) (point.encode_writes.append tip.encode_writes)
  | findIntersect points => cases h; exact writes_labelled (by norm_num) (writes_vec Point.encode_writes points)
  | intersectFound point tip =>
    cases h
    exact writes_labelled (by norm_num) (point.encode_writes.append tip.encode_writes)
  | intersectNotFound tip => cases h; exact writes_labelled (by norm_num) tip.encode_writes
  | done => cases h; exact writes_label (by norm_num)

end Chainsync

theorem Blockfetch.Message.encode_writes (msg : Blockfetch.Message) : Writes 1 msg.encode := by
  cases msg with
  | requestRange range =>
    exact writes_labelled (by norm_num) (range.1.encode_writes.append range.2.encode_writes)
  | clientDone => exact writes_label (by norm_num)
  | startBatch => exact writes_label (by norm_num)
  | noBlocks => exact writes_label (by norm_num)
  | block body => exact writes_labelled (by norm_num) (writes_cbor body)
  | batchDone => exact writes_label (by norm_num)

namespace Txsubmission

theorem EraTxId.encode_writes (self : EraTxId) : Writes 1 self.encode :=
  ((writes_uint (Nat.lt_trans self.era.toNat_lt (by norm_num))).append (writes_bytes self.id)).array

theorem EraTxBody.encode_writes (self : EraTxBody) : Writes 1 self.encode :=
  ((writes_uint (Nat.lt_trans self.era.toNat_lt (by norm_num))).append (writes_cbor self.body)).array

theorem TxIdAndSize.encode_writes (self : TxIdAndSize) : Writes 1 self.encode :=
  (self.id.encode_writes.append (writes_uint (Nat.lt_trans self.size.toNat_lt (by norm_num)))).array

theorem Message.encode_writes (msg : Message) : Writes 1 msg.encode := by
  cases msg with
  | init => exact writes_label (by norm_num)
  | requestTxIds blocking ack count =>
    have hack := writes_uint (Nat.lt_trans ack.toNat_lt (show 2 ^ 16 < 2 ^ 64 by norm_num))
    have hcount := writes_uint (Nat.lt_trans count.toNat_lt (show 2 ^ 16 < 2 ^ 64 by norm_num))
    exact writes_labelled (by norm_num) ((writes_bool blocking).append (hack.append hcount))
  | replyTxIds ids => exact writes_labelled (by norm_num) (writes_indefinite TxIdAndSize.encode_writes ids)
  | requestTxs ids => exact writes_labelled (by norm_num) (writes_indefinite EraTxId.encode_writes ids)
  | replyTxs txs => exact writes_labelled (by norm_num) (writes_indefinite EraTxBody.encode_writes txs)
  | done => exact writes_label (by norm_num)

end Txsubmission

theorem Keepalive.Message.encode_writes (msg : Keepalive.Message) : Writes 1 msg.encode := by
  cases msg with
  | keepAlive cookie =>
    exact writes_labelled (by norm_num) (writes_uint (Nat.lt_trans cookie.toNat_lt (by norm_num)))
  | responseKeepAlive cookie =>
    exact writes_labelled (by norm_num) (writes_uint (Nat.lt_trans cookie.toNat_lt (by norm_num)))
  | done => exact writes_label (by norm_num)

/-! ### Addresses of peers -/

namespace Peersharing

theorem encodeV4_writes (address : Vector UInt8 4) {port : ℕ} (h : port < 2 ^ 64) : Writes 1 (encodeV4 address port) :=
  writes_labelled (by norm_num)
    ((writes_uint (Nat.lt_trans (v4Bits address).toNat_lt (by norm_num))).append (writes_uint h))

/-- The eight that are announced are six. -/
theorem encodeV6_not_item (address : Vector UInt16 8) {port : ℕ} (h : port < 2 ^ 64)
    (hlt : (encodeV6 address port).length < 2 ^ 64) : ¬ Reads .item (encodeV6 address port) [] := by
  have hword : ∀ bits : BitVec 128, Writes 1 (uint (word bits).toNat) := fun bits =>
    writes_uint (Nat.lt_trans (word bits).toNat_lt (by norm_num))
  have hsix := (writes_uint (show 1 < 2 ^ 64 by norm_num)).append
    ((hword (v6Bits address >>> 96)).append ((hword (v6Bits address >>> 64 &&& 0xFFFF_FFFF)).append
      ((hword (v6Bits address >>> 32 &&& 0xFFFF_FFFF)).append
        ((hword (v6Bits address &&& 0xFFFF_FFFF)).append (writes_uint h)))))
  rw [encodeV6, List.length_append] at hlt
  rw [encodeV6, reads_array_iff_of_writes (by norm_num) hsix (by omega)]
  norm_num

end Peersharing

namespace Leiosfetch

theorem Bitmaps.encode_writes (self : Bitmaps) : Writes 1 self.encode := by
  have hentry : ∀ e : UInt16 × UInt64, Writes 2 (uint e.1.toNat ++ uint e.2.toNat) := fun e =>
    (writes_uint (Nat.lt_trans e.1.toNat_lt (by norm_num))).append (writes_uint e.2.toNat_lt)
  exact (writes_flatMap fun e _ => hentry e).indefiniteMap

theorem Message.encode_item_iff (msg : Message) (hlt : msg.encode.length < 2 ^ 64) :
    Reads .item msg.encode [] ↔ ∀ raw, msg = .block raw → Reads .item raw [] := by
  have hall : ∀ msg : Message, (∀ raw, msg = .block raw → Writes 1 raw) → Writes 1 msg.encode := by
    intro msg hraw
    cases msg with
    | done => exact writes_label (by norm_num)
    | blockRequest point => exact writes_labelled (by norm_num) point.encode_writes
    | block raw => exact writes_labelled (by norm_num) (hraw raw rfl)
    | blockTxsRequest point bitmaps =>
      exact writes_labelled (by norm_num) (point.encode_writes.append bitmaps.encode_writes)
    | blockTxs txs => exact writes_labelled (by norm_num) (writes_vec writes_cbor txs)
  constructor
  · rintro h raw rfl
    obtain ⟨g, hg, hcontent⟩ := h.content_of_item (header_head (by omega) (show 2 < 2 ^ 64 by norm_num))
    obtain rfl := Option.some.inj hg
    have hlabel := writes_uint (show 2 < 2 ^ 64 by norm_num)
    have hone : Reads (.items 1) raw [] := Reads.items_split hcontent (hlabel (by decide) raw)
    exact hone.items_one
  · exact fun h => (hall msg fun raw hraw => writes_of_reads (h raw hraw)).reads hlt

end Leiosfetch
end Network2

/-! ### The messages of `pallas-network` -/

namespace Network

theorem Chainsync.Message.encode_writes {C : Type} {content : C → Except String Bytes}
    (hcontent : ∀ c w, content c = .ok w → Writes 1 w) {msg : Chainsync.Message C} {w : Bytes}
    (h : msg.encode content = .ok w) : Writes 1 w := by
  cases msg with
  | requestNext => cases h; exact writes_label (by norm_num)
  | awaitReply => cases h; exact writes_label (by norm_num)
  | rollForward c tip =>
    cases hc : content c with
    | error e => simp [encode, hc, bind, Except.bind] at h
    | ok v =>
      obtain rfl : array 3 ++ (uint 2 ++ (v ++ tip.encode)) = w := by simpa [encode, hc, bind, Except.bind] using h
      exact writes_labelled (by norm_num) ((hcontent c v hc).append tip.encode_writes)
  | rollBackward point tip =>
    cases h
    exact writes_labelled (by norm_num) (point.encode_writes.append tip.encode_writes)
  | findIntersect points =>
    cases h
    exact writes_labelled (by norm_num) (writes_vec Network2.Point.encode_writes points)
  | intersectFound point tip =>
    cases h
    exact writes_labelled (by norm_num) (point.encode_writes.append tip.encode_writes)
  | intersectNotFound tip => cases h; exact writes_labelled (by norm_num) tip.encode_writes
  | done => cases h; exact writes_label (by norm_num)

theorem Blockfetch.Message.encode_writes (msg : Blockfetch.Message) : Writes 1 msg.encode := by
  cases msg with
  | requestRange range =>
    exact writes_labelled (by norm_num) (range.1.encode_writes.append range.2.encode_writes)
  | clientDone => exact writes_label (by norm_num)
  | startBatch => exact writes_label (by norm_num)
  | noBlocks => exact writes_label (by norm_num)
  | block body => exact writes_labelled (by norm_num) (writes_cbor body)
  | batchDone => exact writes_label (by norm_num)

theorem Txsubmission.Message.encode_writes (msg : Txsubmission.Message Txsubmission.EraTxId Txsubmission.EraTxBody) :
    Writes 1 (msg.encode (·.encode) (·.encode)) := by
  have hid := Network2.Txsubmission.EraTxId.encode_writes
  have hsized : ∀ i : Txsubmission.TxIdAndSize Txsubmission.EraTxId, Writes 1 (i.encode (·.encode)) := fun i =>
    ((hid i.id).append (writes_uint (Nat.lt_trans i.size.toNat_lt (by norm_num)))).array
  cases msg with
  | init => exact writes_label (by norm_num)
  | requestTxIds blocking ack req =>
    have hack := writes_uint (Nat.lt_trans ack.toNat_lt (show 2 ^ 16 < 2 ^ 64 by norm_num))
    have hreq := writes_uint (Nat.lt_trans req.toNat_lt (show 2 ^ 16 < 2 ^ 64 by norm_num))
    exact writes_labelled (by norm_num) ((writes_bool blocking).append (hack.append hreq))
  | replyTxIds ids => exact writes_labelled (by norm_num) (writes_indefinite hsized ids)
  | requestTxs ids => exact writes_labelled (by norm_num) (writes_indefinite hid ids)
  | replyTxs txs =>
    exact writes_labelled (by norm_num) (writes_indefinite Network2.Txsubmission.EraTxBody.encode_writes txs)
  | done => exact writes_label (by norm_num)

namespace Localmsgsubmission

theorem DmqMsgPayload.encode_writes (self : DmqMsgPayload) : Writes 1 self.encode :=
  ((writes_bytes self.msgBody).append ((writes_uint self.kesPeriod.toNat_lt).append
    (writes_uint (Nat.lt_trans self.expiresAt.toNat_lt (by norm_num))))).array

theorem DmqMsgOperationalCertificate.encode_writes (self : DmqMsgOperationalCertificate) : Writes 1 self.encode :=
  ((writes_bytes self.kesVk).append ((writes_uint self.issueNumber.toNat_lt).append
    ((writes_uint self.startKesPeriod.toNat_lt).append (writes_bytes self.certSig)))).array

theorem DmqMsg.encode_writes (self : DmqMsg) : Writes 1 self.encode :=
  ((writes_bytes self.msgId).append (self.msgPayload.encode_writes.append ((writes_bytes self.kesSignature).append
    (self.operationalCertificate.encode_writes.append (writes_bytes self.coldVerificationKey))))).array

end Localmsgsubmission

theorem Localmsgnotification.Message.encode_item_iff (msg : Localmsgnotification.Message)
    (hlt : msg.encode.length < 2 ^ 64) :
    Reads .item msg.encode [] ↔ ∀ msgs, msg ≠ .replyMessagesBlocking msgs := by
  have hmsgs := writes_indefinite Localmsgsubmission.DmqMsg.encode_writes
  cases msg with
  | requestMessagesNonBlocking =>
    have hwrites : Writes 1 (array 2 ++ (uint 0 ++ bool false)) := writes_labelled (by norm_num) (writes_bool false)
    exact iff_of_true (hwrites.reads hlt) nofun
  | replyMessagesNonBlocking msgs hasMore =>
    have hwrites : Writes 1 (array 3 ++ (uint 1 ++ ((beginArray ++ msgs.flatMap (·.encode) ++ endIndef) ++
      bool hasMore))) := writes_labelled (by norm_num) ((hmsgs msgs).append (writes_bool hasMore))
    exact iff_of_true (hwrites.reads hlt) nofun
  | requestMessagesBlocking =>
    have hwrites : Writes 1 (array 2 ++ (uint 0 ++ bool true)) := writes_labelled (by norm_num) (writes_bool true)
    exact iff_of_true (hwrites.reads hlt) nofun
  | replyMessagesBlocking msgs =>
    have htwo := (writes_uint (show 2 < 2 ^ 64 by norm_num)).append (hmsgs msgs)
    have hlong : (array 3 ++ (uint 2 ++ (beginArray ++ msgs.flatMap Localmsgsubmission.DmqMsg.encode ++
      endIndef))).length < 2 ^ 64 := hlt
    rw [List.length_append] at hlong
    refine iff_of_false (fun h => ?_) fun h => h msgs rfl
    have hcount := (reads_array_iff_of_writes (show 3 < 2 ^ 64 by norm_num) htwo (by omega)).1 h
    omega
  | clientDone =>
    have hwrites : Writes 1 (array 1 ++ uint 3) := writes_label (by norm_num)
    exact iff_of_true (hwrites.reads hlt) nofun

/-! ### All messages -/

/-- A message that an encoder of one of the protocols gets, in either of the crates. -/
inductive Sent where
  | peerSharing (msg : Peersharing.Message)
  | localMsgNotification (msg : Localmsgnotification.Message)
  | chainSyncHeaders (msg : Chainsync.Message Network2.Chainsync.HeaderContent)
  | chainSyncBlocks (msg : Chainsync.Message Chainsync.BlockContent)
  | chainSyncSkipped (msg : Chainsync.Message Chainsync.SkippedContent)
  | blockFetch (msg : Blockfetch.Message)
  | txSubmission (msg : Txsubmission.Message Txsubmission.EraTxId Txsubmission.EraTxBody)
  | keepAlive (msg : Keepalive.Message)
  | peerSharing2 (msg : Network2.Peersharing.Message)
  | chainSync2 (msg : Network2.Chainsync.Message)
  | blockFetch2 (msg : Network2.Blockfetch.Message)
  | txSubmission2 (msg : Network2.Txsubmission.Message)
  | keepAlive2 (msg : Network2.Keepalive.Message)
  | leiosFetch2 (msg : Network2.Leiosfetch.Message)

namespace Sent

def encode : Sent → Except String Bytes
  | peerSharing msg => .ok msg.encode
  | localMsgNotification msg => .ok msg.encode
  | chainSyncHeaders msg => msg.encode (·.encode)
  | chainSyncBlocks msg => msg.encode fun content => .ok content.encode
  | chainSyncSkipped msg => msg.encode fun content => .ok content.encode
  | blockFetch msg => .ok msg.encode
  | txSubmission msg => .ok (msg.encode (·.encode) (·.encode))
  | keepAlive msg => .ok msg.encode
  | peerSharing2 msg => .ok msg.encode
  | chainSync2 msg => msg.encode
  | blockFetch2 msg => .ok msg.encode
  | txSubmission2 msg => .ok msg.encode
  | keepAlive2 msg => .ok msg.encode
  | leiosFetch2 msg => .ok msg.encode

/-- What is written for each element of the list in a message, if it has one. -/
def elements : Sent → List Bytes
  | peerSharing (.sharePeers addresses) => addresses.map (·.encode)
  | localMsgNotification (.replyMessagesNonBlocking msgs _) => msgs.map (·.encode)
  | localMsgNotification (.replyMessagesBlocking msgs) => msgs.map (·.encode)
  | chainSyncHeaders (.findIntersect points) => points.map (·.encode)
  | chainSyncBlocks (.findIntersect points) => points.map (·.encode)
  | chainSyncSkipped (.findIntersect points) => points.map (·.encode)
  | txSubmission (.replyTxIds ids) => ids.map (·.encode (·.encode))
  | txSubmission (.requestTxs ids) => ids.map (·.encode)
  | txSubmission (.replyTxs txs) => txs.map (·.encode)
  | peerSharing2 (.sharePeers addresses) => addresses.map (·.encode)
  | chainSync2 (.findIntersect points) => points.map (·.encode)
  | txSubmission2 (.replyTxIds ids) => ids.map (·.encode)
  | txSubmission2 (.requestTxs ids) => ids.map (·.encode)
  | txSubmission2 (.replyTxs txs) => txs.map (·.encode)
  | leiosFetch2 (.blockTxs txs) => txs.map Network2.CborWrap.encode
  | _ => []

/-- The messages whose arrays have the lengths that are announced: there is no IPv6 address, the message is not a blocking
reply of local messages, and an endorser block is a data item. -/
def Counted : Sent → Prop
  | peerSharing (.sharePeers addresses) => ∀ address port, .v6 address port ∉ addresses
  | peerSharing2 (.sharePeers addresses) => ∀ address port, .v6 address port ∉ addresses
  | localMsgNotification (.replyMessagesBlocking _) => False
  | leiosFetch2 (.block raw) => Reads .item raw []
  | _ => True

section sent
variable {s : Sent} {w : Bytes}

theorem infix_of_mem_elements (h : s.encode = .ok w) {e : Bytes} (he : e ∈ s.elements) : e <:+: w := by
  have hwithin : ∀ {α : Type} {as : List α} {f : α → Bytes} (before behind : Bytes), e ∈ as.map f →
      e <:+: before ++ as.flatMap f ++ behind := by
    intro α as f before behind he
    obtain ⟨a, ha, rfl⟩ := List.mem_map.1 he
    obtain ⟨l, r, rfl⟩ := List.append_of_mem ha
    exact ⟨before ++ l.flatMap f, r.flatMap f ++ behind, by simp⟩
  have hindef : ∀ {α : Type} {as : List α} {f : α → Bytes} (n label : ℕ), e ∈ as.map f →
      e <:+: array n ++ (uint label ++ (beginArray ++ as.flatMap f ++ endIndef)) := fun n label he => by
    simpa only [List.append_assoc] using hwithin (array n ++ (uint label ++ beginArray)) endIndef he
  have hvec : ∀ {α : Type} {as : List α} {f : α → Bytes} (n label : ℕ), e ∈ as.map f →
      e <:+: array n ++ (uint label ++ (array as.length ++ as.flatMap f)) := fun {_ as _} n label he => by
    simpa only [List.append_assoc, List.append_nil] using hwithin (array n ++ (uint label ++ array as.length)) [] he
  unfold elements at he
  split at he
  · cases h; exact hindef _ _ he
  · next msgs more =>
    cases h
    have hmsgs := hwithin (array 3 ++ (uint 1 ++ beginArray)) (endIndef ++ bool more) he
    simp only [List.append_assoc] at hmsgs
    simpa only [encode, Localmsgnotification.Message.encode, List.append_assoc] using hmsgs
  · cases h; exact hindef _ _ he
  · cases h; exact hvec _ _ he
  · cases h; exact hvec _ _ he
  · cases h; exact hvec _ _ he
  · cases h; exact hindef _ _ he
  · cases h; exact hindef _ _ he
  · cases h; exact hindef _ _ he
  · cases h; exact hindef _ _ he
  · cases h; exact hvec _ _ he
  · cases h; exact hindef _ _ he
  · cases h; exact hindef _ _ he
  · cases h; exact hindef _ _ he
  · cases h; exact hvec _ _ he
  · cases he

theorem elements_write (hs : s.Counted) : ∀ e ∈ s.elements, Writes 1 e := by
  have hmap : ∀ {α : Type} {f : α → Bytes} (as : List α), (∀ a ∈ as, Writes 1 (f a)) → ∀ e ∈ as.map f, Writes 1 e :=
    fun as h e he => by
      obtain ⟨a, ha, rfl⟩ := List.mem_map.1 he
      exact h a ha
  unfold elements
  split
  · next addresses =>
    refine hmap addresses fun address haddress => ?_
    cases address with
    | v4 address port => exact Network2.Peersharing.encodeV4_writes address (Nat.lt_trans port.toNat_lt (by norm_num))
    | v6 address port => exact absurd haddress (hs address port)
  · exact hmap _ fun msg _ => msg.encode_writes
  · exact hs.elim
  · exact hmap _ fun point _ => point.encode_writes
  · exact hmap _ fun point _ => point.encode_writes
  · exact hmap _ fun point _ => point.encode_writes
  · exact hmap _ fun i _ =>
      ((Network2.Txsubmission.EraTxId.encode_writes i.id).append
        (writes_uint (Nat.lt_trans i.size.toNat_lt (by norm_num)))).array
  · exact hmap _ fun i _ => Network2.Txsubmission.EraTxId.encode_writes i
  · exact hmap _ fun tx _ => Network2.Txsubmission.EraTxBody.encode_writes tx
  · next addresses =>
    refine hmap addresses fun address haddress => ?_
    cases address with
    | v4 address port => exact Network2.Peersharing.encodeV4_writes address (Nat.lt_trans port.toNat_lt (by norm_num))
    | v6 address port => exact absurd haddress (hs address port)
  · exact hmap _ fun point _ => point.encode_writes
  · exact hmap _ fun i _ => i.encode_writes
  · exact hmap _ fun i _ => i.encode_writes
  · exact hmap _ fun tx _ => tx.encode_writes
  · exact hmap _ fun tx _ => writes_cbor tx
  · simp

theorem encode_item (hs : s.Counted) (h : s.encode = .ok w) (hlt : w.length < 2 ^ 64) : Reads .item w [] := by
  have hpeers : ∀ {α : Type} {f : α → Bytes} {as : List α}, (∀ e ∈ as.map f, Writes 1 e) →
      Writes 1 (array 2 ++ (uint 1 ++ (beginArray ++ as.flatMap f ++ endIndef))) := fun hall =>
    writes_labelled (by norm_num) (writes_flatMap fun a ha => hall _ (List.mem_map_of_mem ha)).indefinite
  have hamount : ∀ amount : UInt8, Writes 1 (array 2 ++ (uint 0 ++ uint amount.toNat)) := fun amount =>
    writes_labelled (by norm_num) (writes_uint (Nat.lt_trans amount.toNat_lt (by norm_num)))
  cases s with
  | peerSharing msg =>
    cases h
    cases msg with
    | shareRequest amount => exact (hamount amount).reads hlt
    | sharePeers addresses => exact (hpeers (elements_write hs)).reads hlt
    | done => exact (writes_label (by norm_num : 2 < 2 ^ 64)).reads hlt
  | localMsgNotification msg =>
    cases h
    refine (msg.encode_item_iff hlt).2 ?_
    rintro msgs rfl
    exact hs
  | chainSyncHeaders msg =>
    have hmsg := Chainsync.Message.encode_writes (fun _ _ => Network2.Chainsync.HeaderContent.encode_writes) h
    exact hmsg.reads hlt
  | chainSyncBlocks msg =>
    have hcontent : ∀ (c : Chainsync.BlockContent) v, Except.ok c.encode = Except.ok (ε := String) v → Writes 1 v :=
      fun c v hc => Except.ok.inj hc ▸ writes_cbor c.cbor
    exact (Chainsync.Message.encode_writes hcontent h).reads hlt
  | chainSyncSkipped msg =>
    have hcontent : ∀ (c : Chainsync.SkippedContent) v, Except.ok c.encode = Except.ok (ε := String) v → Writes 1 v :=
      fun c v hc => Except.ok.inj hc ▸ writes_null
    exact (Chainsync.Message.encode_writes hcontent h).reads hlt
  | blockFetch msg => cases h; exact msg.encode_writes.reads hlt
  | txSubmission msg => cases h; exact msg.encode_writes.reads hlt
  | keepAlive msg => cases h; exact msg.encode_writes.reads hlt
  | peerSharing2 msg =>
    cases h
    cases msg with
    | shareRequest amount => exact (hamount amount).reads hlt
    | sharePeers addresses => exact (hpeers (elements_write hs)).reads hlt
    | done => exact (writes_label (by norm_num : 2 < 2 ^ 64)).reads hlt
  | chainSync2 msg => exact (Network2.Chainsync.Message.encode_writes h).reads hlt
  | blockFetch2 msg => cases h; exact msg.encode_writes.reads hlt
  | txSubmission2 msg => cases h; exact msg.encode_writes.reads hlt
  | keepAlive2 msg => cases h; exact msg.encode_writes.reads hlt
  | leiosFetch2 msg =>
    cases h
    refine (msg.encode_item_iff hlt).2 ?_
    rintro raw rfl
    exact hs

theorem counted_of_items (h : s.encode = .ok w) (hlt : w.length < 2 ^ 64) (hitem : Reads .item w [])
    (helements : ∀ e ∈ s.elements, Reads .item e []) : s.Counted := by
  have hshort : ∀ e ∈ s.elements, e.length < 2 ^ 64 := fun e he =>
    Nat.lt_of_le_of_lt (infix_of_mem_elements h he).length_le hlt
  unfold Counted
  split
  · next addresses =>
    intro address port hmem
    have he := List.mem_map_of_mem (f := Peersharing.PeerAddress.encode) hmem
    exact Network2.Peersharing.encodeV6_not_item address (Nat.lt_trans port.toNat_lt (by norm_num)) (hshort _ he)
      (helements _ he)
  · next addresses =>
    intro address port hmem
    have he := List.mem_map_of_mem (f := Network2.Peersharing.PeerAddress.encode) hmem
    exact Network2.Peersharing.encodeV6_not_item address (Nat.lt_trans port.toNat_lt (by norm_num)) (hshort _ he)
      (helements _ he)
  · next msgs =>
    cases h
    exact (Localmsgnotification.Message.encode_item_iff _ hlt).1 hitem msgs rfl
  · next raw =>
    cases h
    exact (Network2.Leiosfetch.Message.encode_item_iff _ hlt).1 hitem raw rfl
  · trivial

/-- What goes out is one data item, with elements that are data items, if and only if the announced lengths are right. -/
theorem items_iff (h : s.encode = .ok w) (hlt : w.length < 2 ^ 64) :
    (Reads .item w [] ∧ ∀ e ∈ s.elements, Reads .item e []) ↔ s.Counted := by
  constructor
  · exact fun hitems => counted_of_items h hlt hitems.1 hitems.2
  · intro hs
    refine ⟨encode_item hs h hlt, fun e he => (elements_write hs e he).reads ?_⟩
    exact Nat.lt_of_le_of_lt (infix_of_mem_elements h he).length_le hlt

end sent

/-- One address, of IPv4. -/
theorem items_iff_v4 : Reads .item
    [0x82, 0x01, 0x9f, 0x83, 0x00, 0x1a, 0x7f, 0x00, 0x00, 0x01, 0x19, 0x0b, 0xb9, 0xff] [] ∧
    ∀ e ∈ (peerSharing2 (.sharePeers [.v4 #v[127, 0, 0, 1] 3001])).elements, Reads .item e [] :=
  (items_iff (s := peerSharing2
    (.sharePeers [.v4 #v[127, 0, 0, 1] 3001])) (by decide) (by decide)).2 (by simp [Counted])

/-- A blocking reply without messages, in which one item is missing; and an address of IPv6, in which two are. -/
theorem miscounted : (localMsgNotification (.replyMessagesBlocking [])).encode = .ok [0x83, 0x02, 0x9f, 0xff] ∧
    ¬ Reads .item [0x83, 0x02, 0x9f, 0xff] [] ∧
    ∃ e ∈ (peerSharing2 (.sharePeers [.v6 #v[0, 0, 0, 0, 0, 0, 0, 1] 3001])).elements, ¬ Reads .item e [] := by
  refine ⟨by decide, fun h => ?_, _, List.mem_singleton_self _, ?_⟩
  · exact (Localmsgnotification.Message.encode_item_iff (.replyMessagesBlocking []) (by decide)).1 h [] rfl
  · exact Network2.Peersharing.encodeV6_not_item _ (by decide) (by decide)

end Sent
end Network
end Pallas
