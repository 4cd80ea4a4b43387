import Pallas.Network.Blockfetch
import Pallas.Network.Localmsgnotification
import Pallas.Network.Txmonitor
import Pallas.Network.Txsubmission
import Pallas.Network2.Codecs

/-!
# The codecs of the mini-protocols (`pallas-network/src/miniprotocols/*/codec.rs`)

Points, tips, the contents of headers, and ids and bodies of transactions are encoded as in `pallas-network2`, which has
taken these files over.
-/

namespace Pallas.Network
open Cbor

variable {ε : Type} (m : MinicborValues ε)

/-! ### Chain sync -/

namespace Chainsync

structure BlockContent where
  cbor : Bytes
  deriving DecidableEq

def BlockContent.encode (self : BlockContent) : Bytes := tag Network2.cborTag.toNat ++ bytes self.cbor

def BlockContent.decode : Reader ε BlockContent := do
  let _ ← m.tag
  let bytes ← m.bytes
  pure ⟨bytes⟩

/-- `SkippedContent`, in the place of a content that no one wants to see. -/
structure SkippedContent where
  deriving DecidableEq

def SkippedContent.encode (_ : SkippedContent) : Bytes := null

def SkippedContent.decode : Reader ε SkippedContent := do
  let _ ← m.skip
  pure ⟨⟩

namespace Message
variable {C : Type}

def encode (content : C → Except String Bytes) : Message C → Except String Bytes
  | requestNext => .ok (array 1 ++ uint 0)
  | awaitReply => .ok (array 1 ++ uint 1)
  | rollForward c tip => do
    let c ← content c
    .ok (array 3 ++ (uint 2 ++ (c ++ tip.encode)))
  | rollBackward point tip => .ok (array 3 ++ (uint 3 ++ (point.encode ++ tip.encode)))
  | findIntersect points => .ok (array 2 ++ (uint 4 ++ (array points.length ++ points.flatMap (·.encode))))
  | intersectFound point tip => .ok (array 3 ++ (uint 5 ++ (point.encode ++ tip.encode)))
  | intersectNotFound tip => .ok (array 2 ++ (uint 6 ++ tip.encode))
  | done => .ok (array 1 ++ uint 7)

def decode (content : Reader ε C) : Reader ε (Message C) := do
  let _ ← m.array
  let label ← m.u16
  match label with
  | 0 => pure requestNext
  | 1 => pure awaitReply
  | 2 =>
    let c ← content
    let tip ← Network2.Chainsync.Tip.decode m
    pure (rollForward c tip)
  | 3 =>
    let point ← Network2.Point.decode m
    let tip ← Network2.Chainsync.Tip.decode m
    pure (rollBackward point tip)
  | 4 =>
    let points ← m.arrayIter (Network2.Point.decode m)
    pure (findIntersect points)
  | 5 =>
    let point ← Network2.Point.decode m
    let tip ← Network2.Chainsync.Tip.decode m
    pure (intersectFound point tip)
  | 6 =>
    let tip ← Network2.Chainsync.Tip.decode m
    pure (intersectNotFound tip)
  | 7 => pure done
  | _ => Reader.throw (m.message "unknown variant for chainsync message")

end Message
end Chainsync

/-! ### Block fetch -/

namespace Blockfetch.Message

def encode : Message → Bytes
  | requestRange range => array 3 ++ (uint 0 ++ (range.1.encode ++ range.2.encode))
  | clientDone => array 1 ++ uint 1
  | startBatch => array 1 ++ uint 2
  | noBlocks => array 1 ++ uint 3
  | block body => array 2 ++ (uint 4 ++ (tag Network2.cborTag.toNat ++ bytes body))
  | batchDone => array 1 ++ uint 5

def decode : Reader ε Message := do
  let _ ← m.array
  let label ← m.u16
  match label with
  | 0 =>
    let point1 ← Network2.Point.decode m
    let point2 ← Network2.Point.decode m
    pure (requestRange (point1, point2))
  | 1 => pure clientDone
  | 2 => pure startBatch
  | 3 => pure noBlocks
  | 4 =>
    let _ ← m.tag
    let body ← m.bytes
    pure (block body)
  | 5 => pure batchDone
  | _ => Reader.throw (m.message "unknown variant for blockfetch message")

end Blockfetch.Message

/-! ### Transaction submission -/

namespace Txsubmission

/-- The id of a transaction of an era. -/
abbrev EraTxId := Network2.Txsubmission.EraTxId

/-- The body of a transaction of an era. -/
abbrev EraTxBody := Network2.Txsubmission.EraTxBody

variable {I B : Type}

def TxIdAndSize.encode (id : I → Bytes) (self : TxIdAndSize I) :
    Bytes := array 2 ++ (id self.id ++ uint self.size.toNat)

def TxIdAndSize.decode (id : Reader ε I) : Reader ε (TxIdAndSize I) := do
  let _ ← m.array
  let txId ← id
  let size ← m.u32
  pure ⟨txId, size⟩

namespace Message

def encode (id : I → Bytes) (body : B → Bytes) : Message I B → Bytes
  | init => array 1 ++ uint 6
  | requestTxIds blocking ack req => array 4 ++ (uint 0 ++ (bool blocking ++ (uint ack.toNat ++ uint req.toNat)))
  | replyTxIds ids => array 2 ++ (uint 1 ++ (beginArray ++ ids.flatMap (·.encode id) ++ endIndef))
  | requestTxs ids => array 2 ++ (uint 2 ++ (beginArray ++ ids.flatMap id ++ endIndef))
  | replyTxs txs => array 2 ++ (uint 3 ++ (beginArray ++ txs.flatMap body ++ endIndef))
  | done => array 1 ++ uint 4

def decode (id : Reader ε I) (body : Reader ε B) : Reader ε (Message I B) := do
  let _ ← m.array
  let label ← m.u16
  match label with
  | 0 =>
    let blocking ← m.bool
    let ack ← m.u16
    let req ← m.u16
    pure (requestTxIds blocking ack req)
  | 1 =>
    let items ← m.arrayIter (TxIdAndSize.decode m id)
    pure (replyTxIds items)
  | 2 =>
    let ids ← m.arrayIter id
    pure (requestTxs ids)
  | 3 =>
    let txs ← m.arrayIter body
    pure (replyTxs txs)
  | 4 => pure done
  | 6 => pure init
  | _ => Reader.throw (m.message "unknown variant for txsubmission message")

end Message
end Txsubmission

/-! ### Keep alive, peer sharing and the notification of local messages, only the encoders -/

/-- The messages of keep alive are those of `pallas-network2`, and so is their encoder. -/
abbrev Keepalive.Message := Network2.Keepalive.Message

namespace Peersharing

abbrev Port := UInt32

/-- The addresses are those of `pallas-network2`; a port has 32 bits. -/
inductive PeerAddress where
  | v4 (address : Vector UInt8 4) (port : Port)
  | v6 (address : Vector UInt16 8) (port : Port)
  deriving DecidableEq

inductive Message where
  | shareRequest (amount : Network2.Peersharing.Amount)
  | sharePeers (addresses : List PeerAddress)
  | done
  deriving DecidableEq

def PeerAddress.encode : PeerAddress → Bytes
  | v4 address port => Network2.Peersharing.encodeV4 address port.toNat
  | v6 address port => Network2.Peersharing.encodeV6 address port.toNat

def Message.encode : Message → Bytes
  | shareRequest amount => array 2 ++ (uint 0 ++ uint amount.toNat)
  | sharePeers addresses => array 2 ++ (uint 1 ++ (beginArray ++ addresses.flatMap (·.encode) ++ endIndef))
  | done => array 1 ++ uint 2

end Peersharing

namespace Localmsgsubmission

def DmqMsgPayload.encode (self : DmqMsgPayload) : Bytes :=
  array 3 ++ (bytes self.msgBody ++ (uint self.kesPeriod.toNat ++ uint self.expiresAt.toNat))

def DmqMsgOperationalCertificate.encode (self : DmqMsgOperationalCertificate) : Bytes :=
  array 4 ++ (bytes self.kesVk ++ (uint self.issueNumber.toNat ++ (uint self.startKesPeriod.toNat ++
    bytes self.certSig)))

def DmqMsg.encode (self : DmqMsg) : Bytes :=
  array 5 ++ (bytes self.msgId ++ (self.msgPayload.encode ++ (bytes self.kesSignature ++
    (self.operationalCertificate.encode ++ bytes self.coldVerificationKey))))

end Localmsgsubmission

def Localmsgnotification.Message.encode : Localmsgnotification.Message → Bytes
  | .requestMessagesNonBlocking => array 2 ++ (uint 0 ++ bool false)
  | .replyMessagesNonBlocking msgs hasMore =>
    array 3 ++ (uint 1 ++ ((beginArray ++ msgs.flatMap (·.encode) ++ endIndef) ++ bool hasMore))
  | .requestMessagesBlocking => array 2 ++ (uint 0 ++ bool true)
  | .replyMessagesBlocking msgs => array 3 ++ (uint 2 ++ (beginArray ++ msgs.flatMap (·.encode) ++ endIndef))
  | .clientDone => array 1 ++ uint 3

/-! ### The monitor of the mempool -/

namespace Txmonitor

/-- A tuple of the era and the tagged body. -/
def Tx.encode (tx : Tx) : Bytes := array 2 ++ (uint tx.1.toNat ++ (tag Network2.cborTag.toNat ++ bytes tx.2))

/-- `TagWrap` reads any tag, and the body may be in either form (`decode_bytes_def_or_indef`). -/
def Tx.decode : Reader ε Tx := m.pair m.u8 do
  let _ ← m.tag
  let datatype ← m.peekType
  if datatype = .bytesIndef then
    let chunks ← m.bytesIter
    pure chunks.flatten
  else m.bytes

namespace Message

def encode : Message → Bytes
  | done => array 1 ++ uint 0
  | acquire => array 1 ++ uint 1
  | acquired slot => array 2 ++ (uint 2 ++ uint slot.toNat)
  | release => array 1 ++ uint 3
  | awaitAcquire => array 1 ++ uint 4
  | requestNextTx => array 1 ++ uint 5
  | responseNextTx none => array 1 ++ uint 6
  | responseNextTx (some tx) => array 2 ++ (uint 6 ++ tx.encode)
  | requestHasTx id => array 2 ++ (uint 7 ++ encodeText id)
  | responseHasTx has => array 2 ++ (uint 8 ++ bool has)
  | requestSizeAndCapacity => array 1 ++ uint 9
  | responseSizeAndCapacity sz =>
    array 2 ++ (uint 10 ++ (array 3 ++ (uint sz.capacityInBytes.toNat ++ (uint sz.sizeInBytes.toNat ++
      uint sz.numberOfTxs.toNat))))

/-- The branch of label 6: `d.datatype()` looks at what comes next, and an error of it is no error. -/
def decodeNextTx : Reader ε Message where
  run bs := match m.datatype bs with
    | .ok .array | .ok .arrayIndef => (do
      let tx ← Tx.decode m
      pure (responseNextTx (some tx))).run bs
    | _ => (.ok (responseNextTx none), bs)
  forward bs := by
    split
    · exact Reader.forward _ bs
    · exact Reader.forward _ bs
    · exact List.suffix_refl bs

def decode : Reader ε Message := do
  let _ ← m.array
  let label ← m.u16
  match label with
  | 0 => pure done
  | 1 => pure acquire
  | 2 =>
    let slot ← m.u64
    pure (acquired slot)
  | 3 => pure release
  | 4 => pure awaitAcquire
  | 5 => pure requestNextTx
  | 6 => decodeNextTx m
  | 7 =>
    let id ← m.str
    pure (requestHasTx id)
  | 8 =>
    let has ← m.bool
    pure (responseHasTx has)
  | 9 => pure requestSizeAndCapacity
  | 10 =>
    let _ ← m.array
    let capacityInBytes ← m.u32
    let sizeInBytes ← m.u32
    let numberOfTxs ← m.u32
    pure (responseSizeAndCapacity ⟨capacityInBytes, sizeInBytes, numberOfTxs⟩)
  | _ => Reader.throw (m.message "can't decode Message")

end Message
end Txmonitor

/-! ### Local transaction submission -/

namespace Localtxsubmission

/-- `T` is the type of transactions, `R` of rejections. -/
inductive Message (T R : Type) where
  | submitTx (tx : T)
  | acceptTx
  | rejectTx (rejection : R)
  | done
  deriving DecidableEq

structure EraTx where
  era : UInt16
  tx : Bytes
  deriving DecidableEq

def EraTx.encode (self : EraTx) :
    Bytes := array 2 ++ (uint self.era.toNat ++ (tag Network2.cborTag.toNat ++ bytes self.tx))

def EraTx.decode : Reader ε EraTx := do
  let _ ← m.array
  let era ← m.u16
  let tag ← m.tag
  if tag ≠ Network2.cborTag then Reader.throw (m.message "Expected encoded CBOR data item")
  else
    let tx ← m.bytes
    pure ⟨era, tx⟩

namespace Message
variable {T R : Type}

def encode (tx : T → Bytes) (reject : R → Bytes) : Message T R → Bytes
  | submitTx t => array 2 ++ (uint 0 ++ tx t)
  | acceptTx => array 1 ++ uint 1
  | rejectTx rejection => array 2 ++ (uint 2 ++ reject rejection)
  | done => array 1 ++ uint 3

/-- What is read behind the head of the array. -/
def decodeLabelled (tx : Reader ε T) (reject : Reader ε R) : Reader ε (Message T R) := do
  let label ← m.u16
  match label with
  | 0 =>
    let t ← tx
    pure (submitTx t)
  | 1 => pure acceptTx
  | 2 =>
    let rejection ← reject
    pure (rejectTx rejection)
  | 3 => pure done
  | _ => Reader.throw (m.message "can't decode Message")

/-- Without an array in front, all of the input is taken for the text of a rejection. `text` is `From<String>`. The position
is left behind what `d.array()` has read. -/
def decode (text : String → R) (tx : Reader ε T) (reject : Reader ε R) : Reader ε (Message T R) where
  run bs := match m.array.run bs with
    | (.ok _, rest) => (decodeLabelled m tx reject).run rest
    | (.error _, rest) => match ofUtf8 bs with
      | some s => (.ok (rejectTx (text s)), rest)
      | none => (.error (m.message "Not valid as a string"), rest)
  forward bs := by
    have harray := m.array.forward bs
    split
    · next heq =>
      rw [heq] at harray
      exact (Reader.forward _ _).trans harray
    · next heq =>
      rw [heq] at harray
      split
      · exact harray
      · exact harray

end Message
end Localtxsubmission
end Pallas.Network
