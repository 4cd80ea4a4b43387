import Pallas.Codec.Values
import Pallas.Lib.Entries
import Pallas.Network2.Protocols

/-!
# The codecs of the mini-protocols (`pallas-network2/src/protocol`)

`encode` is what the `Encode` implementation of a type writes, and `decode` what its `Decode` implementation does with the
decoder. Every message is an array that begins with its number; no decoder looks at the length of that array.
-/

namespace Pallas.Network2
open Cbor

/-- `IanaTag::Cbor`. -/
def cborTag : UInt64 := 24

variable {ε : Type} (m : MinicborValues ε)

/-! ### Points (`common.rs`) -/

namespace Point

def encode : Point → Bytes
  | origin => array 0
  | specific slot hash => array 2 ++ (uint slot.toNat ++ bytes hash)

def decode : Reader ε Point := do
  let size ← m.array
  match size with
  | some 0 => pure origin
  | some 2 =>
    let slot ← m.u64
    let hash ← m.bytes
    pure (specific slot hash)
  | _ => Reader.throw (m.message "can't decode Point from array of size")

end Point

/-! ### Chain sync (`chainsync.rs`) -/

namespace Chainsync

def Tip.encode (self : Tip) : Bytes := array 2 ++ (self.point.encode ++ uint self.height.toNat)

def Tip.decode : Reader ε Tip := do
  let _ ← m.array
  let point ← Point.decode m
  let blockNum ← m.u64
  pure ⟨point, blockNum⟩

namespace HeaderContent

def encode (self : HeaderContent) : Except String Bytes :=
  if self.variant = 0 then
    match self.byronPrefix with
    | some (a, b) => .ok (array 2 ++ (uint self.variant.toNat ++ (array 2 ++ (array 2 ++ (uint a.toNat ++ uint b.toNat) ++
        (tag cborTag.toNat ++ bytes self.cbor)))))
    | none => .error "header variant 0 but no byron prefix"
  else .ok (array 2 ++ (uint self.variant.toNat ++ (tag cborTag.toNat ++ bytes self.cbor)))

def decode : Reader ε HeaderContent := do
  let _ ← m.array
  let variant ← m.u8
  match variant with
  | 0 =>
    let _ ← m.array
    let byronPrefix ← m.pair m.u8 m.u64
    let _ ← m.tag
    let cbor ← m.bytes
    pure ⟨variant, some byronPrefix, cbor⟩
  | _ =>
    let _ ← m.tag
    let cbor ← m.bytes
    pure ⟨variant, none, cbor⟩

end HeaderContent

namespace Message

def encode : Message → Except String Bytes
  | requestNext => .ok (array 1 ++ uint 0)
  | awaitReply => .ok (array 1 ++ uint 1)
  | rollForward content tip => do
    let content ← content.encode
    .ok (array 3 ++ (uint 2 ++ (content ++ tip.encode)))
  | rollBackward point tip => .ok (array 3 ++ (uint 3 ++ (point.encode ++ tip.encode)))
  | findIntersect points => .ok (array 2 ++ (uint 4 ++ (array points.length ++ points.flatMap (·.encode))))
  | intersectFound point tip => .ok (array 3 ++ (uint 5 ++ (point.encode ++ tip.encode)))
  | intersectNotFound tip => .ok (array 2 ++ (uint 6 ++ tip.encode))
  | done => .ok (array 1 ++ uint 7)

def decode : Reader ε Message := do
  let _ ← m.array
  let label ← m.u16
  match label with
  | 0 => pure requestNext
  | 1 => pure awaitReply
  | 2 =>
    let content ← HeaderContent.decode m
    let tip ← Tip.decode m
    pure (rollForward content tip)
  | 3 =>
    let point ← Point.decode m
    let tip ← Tip.decode m
    pure (rollBackward point tip)
  | 4 =>
    let points ← m.arrayIter (Point.decode m)
    pure (findIntersect points)
  | 5 =>
    let point ← Point.decode m
    let tip ← Tip.decode m
    pure (intersectFound point tip)
  | 6 =>
    let tip ← Tip.decode m
    pure (intersectNotFound tip)
  | 7 => pure done
  | _ => Reader.throw (m.message "unknown variant for chainsync message")

end Message
end Chainsync

/-! ### Block fetch (`blockfetch.rs`) -/

namespace Blockfetch.Message

def encode : Message → Bytes
  | requestRange range => array 3 ++ (uint 0 ++ (range.1.encode ++ range.2.encode))
  | clientDone => array 1 ++ uint 1
  | startBatch => array 1 ++ uint 2
  | noBlocks => array 1 ++ uint 3
  | block body => array 2 ++ (uint 4 ++ (tag cborTag.toNat ++ bytes body))
  | batchDone => array 1 ++ uint 5

def decode : Reader ε Message := do
  let _ ← m.array
  let label ← m.u16
  match label with
  | 0 =>
    let point1 ← Point.decode m
    let point2 ← Point.decode m
    pure (requestRange (point1, point2))
  | 1 => pure clientDone
  | 2 => pure startBatch
  | 3 => pure noBlocks
  | 4 =>
    let _ ← m.tag
    let body ← m.bytes
    pure (block body)
  | 5 => pure batchDone
  | _ => Reader.throw (m.message "unknown variant for blockfetch message")

end Blockfetch.Message

/-! ### Transaction submission (`txsubmission.rs`) -/

namespace Txsubmission

def EraTxId.encode (self : EraTxId) : Bytes := array 2 ++ (uint self.era.toNat ++ bytes self.id)

def EraTxId.decode : Reader ε EraTxId := do
  let _ ← m.array
  let era ← m.u16
  let txId ← m.bytes
  pure ⟨era, txId⟩

def EraTxBody.encode (self : EraTxBody) : Bytes :=
  array 2 ++ (uint self.era.toNat ++ (tag cborTag.toNat ++ bytes self.body))

def EraTxBody.decode : Reader ε EraTxBody := do
  let _ ← m.array
  let era ← m.u16
  let tag ← m.tag
  if tag ≠ cborTag then Reader.throw (m.message "Expected encoded CBOR data item")
  else
    let body ← m.bytes
    pure ⟨era, body⟩

def TxIdAndSize.encode (self : TxIdAndSize) : Bytes := array 2 ++ (self.id.encode ++ uint self.size.toNat)

def TxIdAndSize.decode : Reader ε TxIdAndSize := do
  let _ ← m.array
  let txId ← EraTxId.decode m
  let size ← m.u32
  pure ⟨txId, size⟩

namespace Message

def encode : Message → Bytes
  | init => array 1 ++ uint 6
  | requestTxIds blocking ack count => array 4 ++ (uint 0 ++ (bool blocking ++ (uint ack.toNat ++ uint count.toNat)))
  | replyTxIds ids => array 2 ++ (uint 1 ++ (beginArray ++ ids.flatMap (·.encode) ++ endIndef))
  | requestTxs ids => array 2 ++ (uint 2 ++ (beginArray ++ ids.flatMap (·.encode) ++ endIndef))
  | replyTxs txs => array 2 ++ (uint 3 ++ (beginArray ++ txs.flatMap (·.encode) ++ endIndef))
  | done => array 1 ++ uint 4

def decode : Reader ε Message := do
  let _ ← m.array
  let label ← m.u16
  match label with
  | 0 =>
    let blocking ← m.bool
    let ack ← m.u16
    let req ← m.u16
    pure (requestTxIds blocking ack req)
  | 1 =>
    let items ← m.arrayIter (TxIdAndSize.decode m)
    pure (replyTxIds items)
  | 2 =>
    let ids ← m.arrayIter (EraTxId.decode m)
    pure (requestTxs ids)
  | 3 =>
    let txs ← m.arrayIter (EraTxBody.decode m)
    pure (replyTxs txs)
  | 4 => pure done
  | 6 => pure init
  | _ => Reader.throw (m.message "unknown variant for txsubmission message")

end Message
end Txsubmission

/-! ### Keep alive (`keepalive.rs`) -/

namespace Keepalive.Message

def encode : Message → Bytes
  | keepAlive cookie => array 2 ++ (uint 0 ++ uint cookie.toNat)
  | responseKeepAlive cookie => array 2 ++ (uint 1 ++ uint cookie.toNat)
  | done => array 1 ++ uint 2

def decode : Reader ε Message := do
  let _ ← m.array
  let label ← m.u16
  match label with
  | 0 =>
    let cookie ← m.u16
    pure (keepAlive cookie)
  | 1 =>
    let cookie ← m.u16
    pure (responseKeepAlive cookie)
  | 2 => pure done
  | _ => Reader.throw (m.message "can't decode Message")

end Keepalive.Message

/-! ### Peer sharing (`peersharing.rs`) -/

namespace Peersharing

/-- `Ipv4Addr::to_bits`. -/
def v4Bits (address : Vector UInt8 4) : UInt32 := .ofNat (ofBigEndian address.toList)

/-- `Ipv4Addr::from`. -/
def v4OfBits (bits : UInt32) : Vector UInt8 4 := ⟨(bigEndian 4 bits.toNat).toArray, length_bigEndian _ _⟩

/-- `Ipv6Addr::to_bits`. -/
def v6Bits (address : Vector UInt16 8) : BitVec 128 :=
  .ofNat 128 (address.toList.foldl (fun n segment => n * 65536 + segment.toNat) 0)

/-- `Ipv6Addr::from_bits`. -/
def v6OfBits (bits : BitVec 128) : Vector UInt16 8 := .ofFn fun i => .ofNat (bits.toNat / 65536 ^ (7 - i.val))

/-- `as u32` of a `u128`. -/
def word (bits : BitVec 128) : UInt32 := ⟨bits.setWidth 32⟩

/-- The arm of `PeerAddress::V4`. -/
def encodeV4 (address : Vector UInt8 4) (port : ℕ) : Bytes :=
  array 3 ++ (uint 0 ++ (uint (v4Bits address).toNat ++ uint port))

/-- The arm of `PeerAddress::V6`. -/
def encodeV6 (address : Vector UInt16 8) (port : ℕ) : Bytes :=
  let bits := v6Bits address
  let word1 := word (bits >>> 96)
  let word2 := word (bits >>> 64 &&& 0xFFFF_FFFF)
  let word3 := word (bits >>> 32 &&& 0xFFFF_FFFF)
  let word4 := word (bits &&& 0xFFFF_FFFF)
  array 8 ++ (uint 1 ++ (uint word1.toNat ++ (uint word2.toNat ++ (uint word3.toNat ++ (uint word4.toNat ++
    uint port)))))

namespace PeerAddress

def encode : PeerAddress → Bytes
  | v4 address port => encodeV4 address port.toNat
  | v6 address port => encodeV6 address port.toNat

def decode : Reader ε PeerAddress := do
  let _ ← m.array
  let label ← m.u16
  match label with
  | 0 =>
    let ip ← m.u32
    let port ← m.u16
    pure (v4 (v4OfBits ip) port)
  | 1 =>
    let word1 ← m.u32
    let word2 ← m.u32
    let word3 ← m.u32
    let word4 ← m.u32
    let bits : BitVec 128 := word1.toBitVec.setWidth 128 <<< 96 ||| word2.toBitVec.setWidth 128 <<< 64 |||
      word3.toBitVec.setWidth 128 <<< 32 ||| word4.toBitVec.setWidth 128
    let port ← m.u16
    pure (v6 (v6OfBits bits) port)
  | _ => Reader.throw (m.message "can't decode PeerAddress")

end PeerAddress

namespace Message

def encode : Message → Bytes
  | shareRequest amount => array 2 ++ (uint 0 ++ uint amount.toNat)
  | sharePeers addresses => array 2 ++ (uint 1 ++ (beginArray ++ addresses.flatMap (·.encode) ++ endIndef))
  | done => array 1 ++ uint 2

def decode : Reader ε Message := do
  let _ ← m.array
  let label ← m.u16
  match label with
  | 0 =>
    let amount ← m.u8
    pure (shareRequest amount)
  | 1 =>
    let addresses ← m.arrayIter (PeerAddress.decode m)
    pure (sharePeers addresses)
  | 2 => pure done
  | _ => Reader.throw (m.message "can't decode Message")

end Message
end Peersharing

/-! ### Raw items (`pallas-codec/src/utils.rs`) -/

/-- `AnyCbor`: the bytes of an item that is skipped. -/
def AnyCbor.decode : Reader ε AnyCbor where
  run bs := Reader.next (m.skip.run bs) fun _ rest => (.ok (bs.take (bs.length - rest.length)), rest)
  forward bs := by
    have hskip := m.skip.forward bs
    unfold Reader.next
    split
    · next heq => rwa [heq] at hskip
    · next heq => rwa [heq] at hskip

/-- `CborWrap` of an `AnyCbor`. -/
def CborWrap.encode (raw : AnyCbor) : Bytes := tag cborTag.toNat ++ bytes raw

/-- Any tag is read, and what is behind the item in the bytes is dropped. -/
def CborWrap.decode : Reader ε AnyCbor := do
  let _ ← m.tag
  let cbor ← m.bytes
  Reader.ofExcept ((AnyCbor.decode m).run cbor).1

/-! ### Leios notifications (`leiosnotify.rs`) -/

namespace Leiosnotify.Message

def encode : Message → Bytes
  | done => array 1 ++ uint 0
  | quit => array 1 ++ uint 1
  | canceled => array 1 ++ uint 2
  | requestNext => array 1 ++ uint 3
  | blockAnnouncement header => array 2 ++ (uint 4 ++ header)
  | blockOffer point size => array 3 ++ (uint 5 ++ (point.encode ++ uint size.toNat))
  | blockTxsOffer point => array 2 ++ (uint 6 ++ point.encode)
  | votes raws => array 2 ++ (uint 7 ++ (array raws.length ++ raws.flatMap id))

def decode : Reader ε Message := do
  let _ ← m.array
  let label ← m.u16
  match label with
  | 0 => pure done
  | 1 => pure quit
  | 2 => pure canceled
  | 3 => pure requestNext
  | 4 =>
    let header ← AnyCbor.decode m
    pure (blockAnnouncement header)
  | 5 =>
    let point ← Point.decode m
    let size ← m.u32
    pure (blockOffer point size)
  | 6 =>
    let point ← Point.decode m
    pure (blockTxsOffer point)
  | 7 =>
    let raws ← m.arrayIter (AnyCbor.decode m)
    pure (votes raws)
  | _ => Reader.throw (m.message "unknown variant for leiosnotify message")

end Leiosnotify.Message

/-! ### Leios fetch (`leiosfetch.rs`) -/

namespace Leiosfetch

/-- A map of indefinite length. -/
def Bitmaps.encode (self : Bitmaps) : Bytes :=
  beginMap ++ self.windows.flatMap (fun (k, v) => uint k.toNat ++ uint v.toNat) ++ endIndef

/-- A window that comes twice keeps the last selection. -/
def Bitmaps.decode : Reader ε Bitmaps := do
  let entries ← m.mapIter m.u16 m.u64
  pure ⟨Entries.collect entries⟩

namespace Message

/-- A transaction goes out in a `CborWrap`, an endorser block as the bytes it came with. -/
def encode : Message → Bytes
  | done => array 1 ++ uint 0
  | blockRequest point => array 2 ++ (uint 1 ++ point.encode)
  | block raw => array 2 ++ (uint 2 ++ raw)
  | blockTxsRequest point bitmaps => array 3 ++ (uint 3 ++ (point.encode ++ bitmaps.encode))
  | blockTxs txs => array 2 ++ (uint 4 ++ (array txs.length ++ txs.flatMap CborWrap.encode))

def decode : Reader ε Message := do
  let _ ← m.array
  let label ← m.u16
  match label with
  | 0 => pure done
  | 1 =>
    let point ← Point.decode m
    pure (blockRequest point)
  | 2 =>
    let raw ← AnyCbor.decode m
    pure (block raw)
  | 3 =>
    let point ← Point.decode m
    let bitmaps ← Bitmaps.decode m
    pure (blockTxsRequest point bitmaps)
  | 4 =>
    let txs ← m.arrayIter (CborWrap.decode m)
    pure (blockTxs txs)
  | _ => Reader.throw (m.message "unknown variant for leiosfetch message")

end Message
end Leiosfetch

/-! ### Handshake (`handshake/mod.rs`, `handshake/n2n.rs`, `handshake/n2c.rs`) -/

namespace Handshake
variable {D : Type}

namespace VersionTable

/-- The entries are written in the order of their keys. -/
def encode (data : D → Bytes) (self : VersionTable D) : Bytes :=
  map self.values.length ++ self.values.flatMap fun (key, value) => uint key.toNat ++ data value

/-- `for _ in 0..len { .. values.insert(key, value); }`. -/
def decodeValues (data : Reader ε D) : (len : ℕ) → (values : List (UInt64 × D)) → Reader ε (List (UInt64 × D))
  | 0, values => pure values
  | len + 1, values => do
    let key ← m.u64
    let value ← data
    decodeValues data len (Entries.insert key value values)

def decode (data : Reader ε D) : Reader ε (VersionTable D) := do
  let len ← m.map
  match len with
  | none => Reader.throw (m.message "expected def-length map for versiontable")
  | some len =>
    let values ← decodeValues m data len.toNat []
    pure ⟨values⟩

end VersionTable

namespace RefuseReason

def encode : RefuseReason → Bytes
  | versionMismatch versions =>
    array 2 ++ (uint 0 ++ (array versions.length ++ versions.flatMap fun v => uint v.toNat))
  | handshakeDecodeError version text => array 3 ++ (uint 1 ++ (uint version.toNat ++ encodeText text))
  | refused version text => array 3 ++ (uint 2 ++ (uint version.toNat ++ encodeText text))

def decode : Reader ε RefuseReason := do
  let _ ← m.array
  let label ← m.u16
  match label with
  | 0 =>
    let versions ← m.arrayIter m.u64
    pure (versionMismatch versions)
  | 1 =>
    let version ← m.u64
    let text ← m.str
    pure (handshakeDecodeError version text)
  | 2 =>
    let version ← m.u64
    let text ← m.str
    pure (refused version text)
  | _ => Reader.throw (m.message "unknown variant for refusereason")

end RefuseReason

namespace Message

def encode (data : D → Bytes) : Message D → Bytes
  | propose table => array 2 ++ (uint 0 ++ table.encode data)
  | accept version versionData => array 3 ++ (uint 1 ++ (uint version.toNat ++ data versionData))
  | refuse reason => array 2 ++ (uint 2 ++ reason.encode)
  | queryReply table => array 2 ++ (uint 3 ++ table.encode data)

def decode (data : Reader ε D) : Reader ε (Message D) := do
  let _ ← m.array
  let label ← m.u16
  match label with
  | 0 =>
    let table ← VersionTable.decode m data
    pure (propose table)
  | 1 =>
    let version ← m.u64
    let versionData ← data
    pure (accept version versionData)
  | 2 =>
    let reason ← RefuseReason.decode m
    pure (refuse reason)
  | 3 =>
    let table ← VersionTable.decode m data
    pure (queryReply table)
  | _ => Reader.throw (m.message "unknown variant for handshake message")

end Message

/-- The two optional fields are written if both are there. -/
def VersionData.encode (self : VersionData) : Bytes :=
  match self.peerSharing, self.query with
  | some peerSharing, some query =>
    array 4 ++ (uint self.networkMagic.toNat ++ (bool self.initiatorOnlyDiffusionMode ++
      (uint peerSharing.toNat ++ bool query)))
  | _, _ => array 2 ++ (uint self.networkMagic.toNat ++ bool self.initiatorOnlyDiffusionMode)

def VersionData.decode : Reader ε VersionData := do
  let len ← m.array
  let networkMagic ← m.u64
  let initiatorOnlyDiffusionMode ← m.bool
  let peerSharing ← match len with
    | some 4 => do
      let peerSharing ← m.u8
      pure (some peerSharing)
    | _ => pure none
  let query ← match len with
    | some 4 => do
      let query ← m.bool
      pure (some query)
    | _ => pure none
  pure ⟨networkMagic, initiatorOnlyDiffusionMode, peerSharing, query⟩

namespace N2c

structure VersionData where
  networkMagic : UInt64
  query : Option Bool
  deriving DecidableEq

def VersionData.encode (self : VersionData) : Bytes :=
  match self.query with
  | none => uint self.networkMagic.toNat
  | some isQuery => array 2 ++ (uint self.networkMagic.toNat ++ bool isQuery)

def VersionData.decode : Reader ε VersionData := do
  let datatype ← m.peekType
  match datatype with
  | .u8 | .u16 | .u32 | .u64 =>
    let networkMagic ← m.u64
    pure ⟨networkMagic, none⟩
  | .array =>
    let _ ← m.array
    let networkMagic ← m.u64
    let isQuery ← m.bool
    pure ⟨networkMagic, some isQuery⟩
  | _ => Reader.throw (m.message "unknown type for VersionData")

end N2c
end Handshake
end Pallas.Network2
