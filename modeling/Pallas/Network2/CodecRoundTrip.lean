import Mathlib.Tactic.IntervalCases
import Pallas.Codec.ValuesReference
import Pallas.Lib.BigEndian
import Pallas.Network2.Codecs

/-!
# What is written is read back

The decoder of each type takes the bytes that the encoder writes, whatever follows them, and returns the value
(`Reader.Inverts`). The exceptions are values that the encoder does not write in full: version data with one of the
optional fields, and header contents whose Byron part does not go with their variant.
-/

namespace Pallas.Network2
open Cbor

variable {ε α : Type} {m : MinicborValues ε}

section Labels
variable {f : UInt16 → Reader ε α} {a : α}

/-- The number of a message in front of its fields. -/
theorem labelled (hm : m.Lawful) {n : ℕ} (hn : n < 2 ^ 64) (label : UInt16) {w : Bytes} (h : (f label).Inverts w a) :
    (do let _ ← m.array; let label ← m.u16; f label).Inverts (array n ++ (uint label.toNat ++ w)) a :=
  (hm.array_takes hn).inverts.bind ((hm.u16_takes label).inverts.bind h)

/-- The number of one without fields. -/
theorem labelled_alone (hm : m.Lawful) {n : ℕ} (hn : n < 2 ^ 64) (label : UInt16) (h : f label = pure a) :
    (do let _ ← m.array; let label ← m.u16; f label).Inverts (array n ++ uint label.toNat) a :=
  (hm.array_takes hn).inverts.bind ((hm.u16_takes label).inverts.last h)

end Labels

theorem begins_array {n : ℕ} (hn : n < 2 ^ 64) (w : Bytes) : Begins (array n ++ w) :=
  (begins_head (by omega) hn).append w

section
variable (hm : m.Lawful)
include hm

/-! ### Points and chain sync -/

theorem Point.decode_inverts (point : Point) : (Point.decode m).Inverts point.encode point := by
  cases point with
  | origin =>
    have hsize : m.array.Takes (array 0) (some 0) := hm.array_takes (by norm_num)
    exact hsize.inverts.last rfl
  | specific slot hash =>
    have hsize : m.array.Takes (array 2) (some 2) := hm.array_takes (by norm_num)
    exact hsize.inverts.bind ((hm.u64_takes slot).inverts.bind ((hm.bytes_inverts hash).last rfl))

omit hm in
theorem Point.encode_begins (point : Point) : Begins point.encode := by
  cases point with
  | origin =>
    have hhead : Begins (head 4 0) := begins_head (by omega) (by norm_num)
    exact hhead
  | specific slot hash => exact begins_array (by norm_num) _

namespace Chainsync

theorem Tip.decode_inverts (tip : Tip) : (Tip.decode m).Inverts tip.encode tip :=
  (hm.array_takes (by norm_num)).inverts.bind
    ((Point.decode_inverts hm tip.point).bind ((hm.u64_takes tip.height).inverts.last rfl))

omit hm in
/-- Variant 0 is Byron, and only Byron has the prefix. -/
def HeaderContent.PrefixFits (content : HeaderContent) : Prop := content.byronPrefix.isSome ↔ content.variant = 0

theorem HeaderContent.decode_inverts {content : HeaderContent} (h : content.PrefixFits) :
    ∃ bs, content.encode = .ok bs ∧ (HeaderContent.decode m).Inverts bs content := by
  obtain ⟨variant, byronPrefix, cbor⟩ := content
  have htag : m.tag.Takes (tag cborTag.toNat) cborTag := hm.tag_takes cborTag
  have harray : m.array.Takes (array 2) (some 2) := hm.array_takes (by norm_num)
  by_cases hv : variant = 0
  · subst hv
    obtain ⟨⟨a, b⟩, rfl⟩ := Option.isSome_iff_exists.1 (h.2 rfl)
    refine ⟨_, rfl, harray.inverts.bind ((hm.u8_takes 0).inverts.bind ?_)⟩
    have hpair := hm.pair_takes (hm.u8_takes a) (hm.u64_takes b)
    exact harray.inverts.bind (hpair.inverts.bind (htag.inverts.bind ((hm.bytes_inverts cbor).last rfl)))
  · obtain rfl : byronPrefix = none := by
      rw [← Option.not_isSome_iff_eq_none]
      exact fun hsome => hv (h.1 hsome)
    refine ⟨_, if_neg hv, harray.inverts.bind ((hm.u8_takes variant).inverts.bind ?_)⟩
    split
    · exact absurd rfl hv
    · exact htag.inverts.bind ((hm.bytes_inverts cbor).last rfl)

namespace Message

omit hm in
/-- The header content of a message has its prefix where it belongs. -/
def PrefixFits : Message → Prop
  | rollForward content _ => content.PrefixFits
  | _ => True

theorem decode_inverts {msg : Message} (h : msg.PrefixFits) :
    ∃ bs, msg.encode = .ok bs ∧ (Message.decode m).Inverts bs msg := by
  cases msg with
  | requestNext => exact ⟨_, rfl, labelled_alone hm (by norm_num) 0 rfl⟩
  | awaitReply => exact ⟨_, rfl, labelled_alone hm (by norm_num) 1 rfl⟩
  | rollForward content tip =>
    obtain ⟨bs, hbs, hcontent⟩ := HeaderContent.decode_inverts hm h
    refine ⟨array 3 ++ (uint 2 ++ (bs ++ tip.encode)), ?_, ?_⟩
    · rw [encode, hbs]
      rfl
    · exact labelled hm (by norm_num) 2 (hcontent.bind ((Tip.decode_inverts hm tip).last rfl))
  | rollBackward point tip =>
    exact ⟨_, rfl, labelled hm (by norm_num) 3 ((Point.decode_inverts hm point).bind ((Tip.decode_inverts hm tip).last rfl))⟩
  | findIntersect points =>
    have hpoints := hm.arrayIter_inverts (fun point _ => Point.decode_inverts hm point)
      fun point (_ : point ∈ points) => point.encode_begins
    exact ⟨_, rfl, labelled hm (by norm_num) 4 (hpoints.last rfl)⟩
  | intersectFound point tip =>
    exact ⟨_, rfl, labelled hm (by norm_num) 5 ((Point.decode_inverts hm point).bind ((Tip.decode_inverts hm tip).last rfl))⟩
  | intersectNotFound tip => exact ⟨_, rfl, labelled hm (by norm_num) 6 ((Tip.decode_inverts hm tip).last rfl)⟩
  | done => exact ⟨_, rfl, labelled_alone hm (by norm_num) 7 rfl⟩

end Message
end Chainsync

/-! ### Block fetch -/

theorem Blockfetch.Message.decode_inverts (msg : Blockfetch.Message) :
    (Blockfetch.Message.decode m).Inverts msg.encode msg := by
  cases msg with
  | requestRange range =>
    exact labelled hm (by norm_num) 0 ((Point.decode_inverts hm range.1).bind ((Point.decode_inverts hm range.2).last rfl))
  | clientDone => exact labelled_alone hm (by norm_num) 1 rfl
  | startBatch => exact labelled_alone hm (by norm_num) 2 rfl
  | noBlocks => exact labelled_alone hm (by norm_num) 3 rfl
  | block body =>
    exact labelled hm (by norm_num) 4 ((hm.tag_takes cborTag).inverts.bind ((hm.bytes_inverts body).last rfl))
  | batchDone => exact labelled_alone hm (by norm_num) 5 rfl

/-! ### Keep-alive -/

theorem Keepalive.Message.decode_inverts (msg : Keepalive.Message) :
    (Keepalive.Message.decode m).Inverts msg.encode msg := by
  cases msg with
  | keepAlive cookie => exact labelled hm (by norm_num) 0 ((hm.u16_takes cookie).inverts.last rfl)
  | responseKeepAlive cookie => exact labelled hm (by norm_num) 1 ((hm.u16_takes cookie).inverts.last rfl)
  | done => exact labelled_alone hm (by norm_num) 2 rfl

/-! ### Peer sharing -/

namespace Peersharing

omit hm in
theorem v4OfBits_v4Bits (address : Vector UInt8 4) : v4OfBits (v4Bits address) = address := by
  have hlength : address.toList.length = 4 := Vector.length_toList
  have hlt := ofBigEndian_lt address.toList
  rw [hlength] at hlt
  have hbits : (v4Bits address).toNat = ofBigEndian address.toList := UInt32.toNat_ofNat_of_lt' hlt
  have hbytes := bigEndian_ofBigEndian address.toList
  rw [hlength] at hbytes
  refine Vector.toList_inj.1 ?_
  show bigEndian 4 (v4Bits address).toNat = address.toList
  rw [hbits, hbytes]

omit hm in
theorem v6OfBits_v6Bits (address : Vector UInt16 8) : v6OfBits (v6Bits address) = address := by
  have hsegments : address = #v[address[0], address[1], address[2], address[3], address[4], address[5], address[6],
      address[7]] := by
    refine Vector.ext fun i hi => ?_
    interval_cases i <;> rfl
  rw [hsegments]
  generalize address[0] = a, address[1] = b, address[2] = c, address[3] = d, address[4] = e, address[5] = f,
    address[6] = g, address[7] = h
  have ha := a.toNat_lt
  have hb := b.toNat_lt
  have hc := c.toNat_lt
  have hd := d.toNat_lt
  have he := e.toNat_lt
  have hf := f.toNat_lt
  have hg := g.toNat_lt
  have hh := h.toNat_lt
  obtain ⟨n, hn⟩ : ∃ n, [a, b, c, d, e, f, g, h].foldl (fun n segment => n * 65536 + segment.toNat) 0 = n := ⟨_, rfl⟩
  have hbits : v6Bits #v[a, b, c, d, e, f, g, h] = BitVec.ofNat 128 n := congrArg _ hn
  simp only [List.foldl_cons, List.foldl_nil] at hn
  have hfits : n < 2 ^ 128 := by omega
  rw [v6OfBits, hbits, BitVec.toNat_ofNat, Nat.mod_eq_of_lt hfits]
  refine Vector.ext fun i hi => UInt16.toNat_inj.1 ?_
  rw [Vector.getElem_ofFn, UInt16.toNat_ofNat']
  interval_cases i <;>
    simp only [Vector.getElem_mk, List.getElem_toArray, List.getElem_cons_succ, List.getElem_cons_zero] <;> omega

omit hm in
theorem join_words (bits : BitVec 128) : (word (bits >>> 96)).toBitVec.setWidth 128 <<< 96 |||
    (word (bits >>> 64 &&& 0xFFFF_FFFF)).toBitVec.setWidth 128 <<< 64 |||
    (word (bits >>> 32 &&& 0xFFFF_FFFF)).toBitVec.setWidth 128 <<< 32 |||
    (word (bits &&& 0xFFFF_FFFF)).toBitVec.setWidth 128 = bits := by
  have hmask : ∀ x : BitVec 128, (x &&& 0xFFFF_FFFF).setWidth 32 = x.setWidth 32 := by
    intro x
    refine BitVec.eq_of_toNat_eq ?_
    have hpow : (0xFFFF_FFFF : BitVec 128).toNat = 2 ^ 32 - 1 := rfl
    rw [BitVec.toNat_setWidth, BitVec.toNat_setWidth, BitVec.toNat_and, hpow, Nat.and_two_pow_sub_one_eq_mod]
    exact Nat.mod_mod _ _
  simp only [word, hmask]
  ext i hi
  simp only [BitVec.getElem_or, BitVec.getElem_shiftLeft, BitVec.getElem_setWidth, BitVec.getLsbD_setWidth,
    BitVec.getLsbD_ushiftRight]
  grind

theorem PeerAddress.decode_inverts (address : PeerAddress) :
    (PeerAddress.decode m).Inverts address.encode address := by
  cases address with
  | v4 address port =>
    refine labelled hm (by norm_num) 0 ((hm.u32_takes _).inverts.bind ((hm.u16_takes port).inverts.last ?_))
    rw [v4OfBits_v4Bits]
  | v6 address port =>
    have hword (w : UInt32) := (hm.u32_takes w).inverts
    refine labelled hm (by norm_num) 1 ((hword _).bind ((hword _).bind ((hword _).bind ((hword _).bind
      ((hm.u16_takes port).inverts.last ?_)))))
    rw [join_words, v6OfBits_v6Bits]

omit hm in
theorem PeerAddress.encode_begins (address : PeerAddress) : Begins address.encode := by
  cases address with
  | v4 => exact begins_array (by norm_num) _
  | v6 => exact begins_array (by norm_num) _

theorem Message.decode_inverts (msg : Message) : (Message.decode m).Inverts msg.encode msg := by
  cases msg with
  | shareRequest amount => exact labelled hm (by norm_num) 0 ((hm.u8_takes amount).inverts.last rfl)
  | sharePeers addresses =>
    have haddresses := hm.arrayIter_inverts_indef (fun address _ => PeerAddress.decode_inverts hm address)
      fun address (_ : address ∈ addresses) => address.encode_begins
    exact labelled hm (by norm_num) 1 (haddresses.last rfl)
  | done => exact labelled_alone hm (by norm_num) 2 rfl

end Peersharing

/-! ### Transaction submission -/

namespace Txsubmission

theorem EraTxId.decode_inverts (id : EraTxId) : (EraTxId.decode m).Inverts id.encode id :=
  (hm.array_takes (by norm_num)).inverts.bind ((hm.u16_takes id.era).inverts.bind ((hm.bytes_inverts id.id).last rfl))

theorem EraTxBody.decode_inverts (tx : EraTxBody) : (EraTxBody.decode m).Inverts tx.encode tx := by
  refine (hm.array_takes (by norm_num)).inverts.bind ((hm.u16_takes tx.era).inverts.bind
    ((hm.tag_takes cborTag).inverts.bind ?_))
  exact (hm.bytes_inverts tx.body).last rfl

theorem TxIdAndSize.decode_inverts (id : TxIdAndSize) : (TxIdAndSize.decode m).Inverts id.encode id :=
  (hm.array_takes (by norm_num)).inverts.bind
    ((EraTxId.decode_inverts hm id.id).bind ((hm.u32_takes id.size).inverts.last rfl))

theorem Message.decode_inverts (msg : Message) : (Message.decode m).Inverts msg.encode msg := by
  cases msg with
  | init => exact labelled_alone hm (by norm_num) 6 rfl
  | requestTxIds blocking ack count =>
    exact labelled hm (by norm_num) 0 ((hm.bool_takes blocking).inverts.bind
      ((hm.u16_takes ack).inverts.bind ((hm.u16_takes count).inverts.last rfl)))
  | replyTxIds ids =>
    have hids := hm.arrayIter_inverts_indef (fun id _ => TxIdAndSize.decode_inverts hm id)
      fun id (_ : id ∈ ids) => begins_array (by norm_num) _
    exact labelled hm (by norm_num) 1 (hids.last rfl)
  | requestTxs ids =>
    have hids := hm.arrayIter_inverts_indef (fun id _ => EraTxId.decode_inverts hm id)
      fun id (_ : id ∈ ids) => begins_array (by norm_num) _
    exact labelled hm (by norm_num) 2 (hids.last rfl)
  | replyTxs txs =>
    have htxs := hm.arrayIter_inverts_indef (fun tx _ => EraTxBody.decode_inverts hm tx)
      fun tx (_ : tx ∈ txs) => begins_array (by norm_num) _
    exact labelled hm (by norm_num) 3 (htxs.last rfl)
  | done => exact labelled_alone hm (by norm_num) 4 rfl

end Txsubmission

/-! ### Handshake -/

namespace Handshake
variable {D : Type}

theorem RefuseReason.decode_inverts (reason : RefuseReason) : (RefuseReason.decode m).Inverts reason.encode reason := by
  cases reason with
  | versionMismatch versions =>
    have hversions := hm.arrayIter_inverts (fun v (_ : v ∈ versions) => (hm.u64_takes v).inverts)
      fun v _ => begins_head (by omega) v.toNat_lt
    exact labelled hm (by norm_num) 0 (hversions.last rfl)
  | handshakeDecodeError version text =>
    exact labelled hm (by norm_num) 1 ((hm.u64_takes version).inverts.bind ((hm.str_inverts text).last rfl))
  | refused version text =>
    exact labelled hm (by norm_num) 2 ((hm.u64_takes version).inverts.bind ((hm.str_inverts text).last rfl))

namespace VersionTable
variable {data : Reader ε D} {write : D → Bytes}

theorem decodeValues_inverts {entries : List (UInt64 × D)} (h : ∀ e ∈ entries, data.Inverts (write e.2) e.2)
    (values : List (UInt64 × D)) : (decodeValues m data entries.length values).Inverts
      (entries.flatMap fun (key, value) => uint key.toNat ++ write value)
      (entries.foldl (fun es e => Entries.insert e.1 e.2 es) values) := by
  induction entries generalizing values with
  | nil => exact (Reader.Takes.pure values).inverts
  | cons e entries ih =>
    have hvalue := h e List.mem_cons_self
    have hrest := ih (fun e' he' => h e' (List.mem_cons_of_mem e he')) (Entries.insert e.1 e.2 values)
    rw [List.flatMap_cons, List.append_assoc]
    exact (hm.u64_takes e.1).inverts.bind (hvalue.bind hrest)

theorem decode_inverts {table : VersionTable D} (h : ∀ e ∈ table.values, data.Inverts (write e.2) e.2)
    (hsorted : Entries.Sorted table.values) : (VersionTable.decode m data).Inverts (table.encode write) table := by
  obtain ⟨values⟩ := table
  intro hlt
  have hle : values.length ≤ (values.flatMap fun (key, value) => uint key.toNat ++ write value).length :=
    length_le_flatMap fun e _ => ((begins_head (by omega) e.1.toNat_lt).append _).ne_nil
  have hsum : (map values.length).length + (values.flatMap fun (key, value) => uint key.toNat ++ write value).length <
      2 ^ 64 := by
    rwa [VersionTable.encode, List.length_append] at hlt
  have hlen : values.length < 2 ^ 64 := by omega
  have hwrites : ∀ e ∈ values, data.Inverts (write e.2) e.2 := h
  have hvalues := decodeValues_inverts hm hwrites [] (by omega)
  rw [show values.foldl (fun es e => Entries.insert e.1 e.2 es) [] =
    values from Entries.collect_of_sorted hsorted] at hvalues
  refine (hm.map_takes hlen).bind (Reader.Takes.last ?_ rfl)
  rwa [UInt64.toNat_ofNat_of_lt' hlen]

end VersionTable

omit hm in
/-- A map has its entries in the order of their keys, and the version data of each is written in full. -/
def Message.Faithful (fits : D → Prop) : Message D → Prop
  | .propose table | .queryReply table => Entries.Sorted table.values ∧ ∀ e ∈ table.values, fits e.2
  | .accept _ versionData => fits versionData
  | .refuse _ => True

theorem Message.decode_inverts {data : Reader ε D} {write : D → Bytes} {fits : D → Prop}
    (h : ∀ d, fits d → data.Inverts (write d) d) {msg : Message D} (hmsg : msg.Faithful fits) :
    (Message.decode m data).Inverts (msg.encode write) msg := by
  cases msg with
  | propose table =>
    exact labelled hm (by norm_num) 0
      ((VersionTable.decode_inverts hm (fun e he => h e.2 (hmsg.2 e he)) hmsg.1).last rfl)
  | accept version versionData =>
    exact labelled hm (by norm_num) 1 ((hm.u64_takes version).inverts.bind ((h versionData hmsg).last rfl))
  | refuse reason => exact labelled hm (by norm_num) 2 ((RefuseReason.decode_inverts hm reason).last rfl)
  | queryReply table =>
    exact labelled hm (by norm_num) 3
      ((VersionTable.decode_inverts hm (fun e he => h e.2 (hmsg.2 e he)) hmsg.1).last rfl)

omit hm in
/-- Both of the optional fields are there, or neither. -/
def VersionData.BothOrNeither (versionData : VersionData) :
    Prop := versionData.peerSharing.isSome = versionData.query.isSome

theorem VersionData.decode_inverts {versionData : VersionData} (h : versionData.BothOrNeither) :
    (VersionData.decode m).Inverts versionData.encode versionData := by
  obtain ⟨networkMagic, initiatorOnly, peerSharing, query⟩ := versionData
  have hmagic := (hm.u64_takes networkMagic).inverts
  have hmode := (hm.bool_takes initiatorOnly).inverts
  rcases peerSharing with _ | peerSharing <;> rcases query with _ | query
  · exact (hm.array_takes (by norm_num)).inverts.bind (hmagic.bind (hmode.last rfl))
  · cases h
  · cases h
  · have htwo : (do
        let peerSharing ← m.u8
        let query ← m.bool
        pure (VersionData.mk networkMagic initiatorOnly (some peerSharing) (some query))).Inverts
        (uint peerSharing.toNat ++ bool query) ⟨networkMagic, initiatorOnly, some peerSharing, some query⟩ :=
      (hm.u8_takes peerSharing).inverts.bind ((hm.bool_takes query).inverts.last rfl)
    refine (hm.array_takes (by norm_num)).inverts.bind (hmagic.bind (hmode.bind ?_))
    exact htwo

theorem N2c.VersionData.decode_inverts (versionData : N2c.VersionData) :
    (N2c.VersionData.decode m).Inverts versionData.encode versionData := by
  obtain ⟨networkMagic, query⟩ := versionData
  intro _ rest
  cases query with
  | none =>
    obtain ⟨t, ht, hunsigned⟩ := hm.datatype_unsigned _ _ rest (header_head (by omega) networkMagic.toNat_lt)
    have hmagic : (do
        let networkMagic ← m.u64
        pure (VersionData.mk networkMagic none)).Takes (uint networkMagic.toNat) ⟨networkMagic, none⟩ :=
      (hm.u64_takes networkMagic).last rfl
    refine Reader.bind_eq_ok.2 ⟨t, _, Minicbor.run_peekType_eq_ok.2 ⟨ht, rfl⟩, ?_⟩
    cases t <;> first | exact hmagic rest | cases hunsigned
  | some isQuery =>
    have hfields : (do
        let _ ← m.array
        let networkMagic ← m.u64
        let isQuery ← m.bool
        pure (VersionData.mk networkMagic (some isQuery))).Takes
        (array 2 ++ (uint networkMagic.toNat ++ bool isQuery)) ⟨networkMagic, some isQuery⟩ :=
      (hm.array_takes (by norm_num)).bind ((hm.u64_takes networkMagic).bind ((hm.bool_takes isQuery).last rfl))
    have htype : m.datatype (array 2 ++ (uint networkMagic.toNat ++ bool isQuery) ++ rest) = .ok .array := by
      rw [List.append_assoc]
      exact hm.datatype_array _ _ _ (header_head (by omega) (by norm_num))
    exact Reader.bind_eq_ok.2 ⟨.array, _, Minicbor.run_peekType_eq_ok.2 ⟨htype, rfl⟩, hfields rest⟩

end Handshake

/-! ### All of them -/

/-- Version tables have their entries in the order of their keys: a `HashMap` is the list of its entries, sorted. -/
theorem decode_encode_messages :
    (∀ msg : Chainsync.Message, msg.PrefixFits →
      ∃ bs, msg.encode = .ok bs ∧ (Chainsync.Message.decode m).Inverts bs msg) ∧
    (∀ msg : Blockfetch.Message, (Blockfetch.Message.decode m).Inverts msg.encode msg) ∧
    (∀ msg : Txsubmission.Message, (Txsubmission.Message.decode m).Inverts msg.encode msg) ∧
    (∀ msg : Handshake.Message Handshake.VersionData, msg.Faithful Handshake.VersionData.BothOrNeither →
      (Handshake.Message.decode m (Handshake.VersionData.decode m)).Inverts
        (msg.encode Handshake.VersionData.encode) msg) ∧
    ∀ msg : Handshake.Message Handshake.N2c.VersionData, msg.Faithful (fun _ => True) →
      (Handshake.Message.decode m (Handshake.N2c.VersionData.decode m)).Inverts
        (msg.encode Handshake.N2c.VersionData.encode) msg := by
  refine ⟨?_, Blockfetch.Message.decode_inverts hm, Txsubmission.Message.decode_inverts hm, ?_, ?_⟩
  · intro msg hmsg
    exact Chainsync.Message.decode_inverts hm hmsg
  · intro msg hmsg
    exact Handshake.Message.decode_inverts hm (fun d hd => Handshake.VersionData.decode_inverts hm hd) hmsg
  · intro msg hmsg
    exact Handshake.Message.decode_inverts hm (fun d _ => Handshake.N2c.VersionData.decode_inverts hm d) hmsg

end

section Examples
open Handshake Chainsync

/-- A header of the second era, and a proposal of two versions. -/
theorem decode_encode_messages_reference :
    (∃ bs, (Message.rollForward ⟨1, none, [0x80]⟩ ⟨.origin, 7⟩).encode = .ok bs ∧
      (Chainsync.Message.decode .reference).Inverts bs (.rollForward ⟨1, none, [0x80]⟩ ⟨.origin, 7⟩)) ∧
    (Handshake.Message.decode .reference (VersionData.decode .reference)).Inverts
      (Handshake.Message.encode VersionData.encode
        (.propose ⟨[(10, ⟨1, true, none, none⟩), (13, ⟨1, true, some 1, some false⟩)]⟩))
      (.propose ⟨[(10, ⟨1, true, none, none⟩), (13, ⟨1, true, some 1, some false⟩)]⟩) := by
  obtain ⟨hchainsync, -, -, hhandshake, -⟩ := decode_encode_messages MinicborValues.reference_lawful
  refine ⟨hchainsync _ ?_, hhandshake _ ⟨by decide, ?_⟩⟩
  · exact ⟨fun h => absurd h (by decide), fun h => absurd h (by decide)⟩
  · intro e he
    fin_cases he <;> rfl

/-- The field that is there is not written, and read back as missing. -/
theorem peer_sharing_lost : ¬ ∀ msg : Handshake.Message VersionData, msg.Faithful (fun _ => True) →
    (Handshake.Message.decode .reference (VersionData.decode .reference)).Inverts
      (msg.encode VersionData.encode) msg := by
  intro h
  have hrun := h (.accept 13 ⟨1, true, some 1, none⟩) trivial (by decide) []
  cases hrun

end Examples
end Pallas.Network2
