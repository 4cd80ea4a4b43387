import Pallas.Lib.Cbor

/-!
# The mini-protocols (`pallas-network2/src/protocol`)

Each mini-protocol is a type of messages, a type of states, and `apply`, which gives the state after a message or says
that the message is not valid there. One `apply` serves both directions: a message of ours and one of the peer move the
state in the same way, and nothing in it asks who sent the message.
-/

namespace Pallas.Network2

/-- The two errors `apply` returns. -/
inductive ProtocolError where
  | invalidInbound
  | invalidOutbound
  deriving DecidableEq

abbrev Channel := UInt16

/-- A point within a chain. -/
inductive Point where
  | origin
  | specific (slot : UInt64) (hash : Bytes)
  deriving DecidableEq

abbrev EbId := Point
abbrev AnyCbor := Bytes

/-! ### Handshake -/

namespace Handshake

def channelId : Channel := 0

structure VersionData where
  networkMagic : UInt64
  initiatorOnlyDiffusionMode : Bool
  peerSharing : Option UInt8
  query : Option Bool
  deriving DecidableEq

/-- The entries of the `HashMap`, in the order of their keys. The version data are those of node-to-node connections,
where nothing else is said. -/
structure VersionTable (D : Type := VersionData) where
  values : List (UInt64 × D)
  deriving DecidableEq

inductive RefuseReason where
  | versionMismatch (versions : List UInt64)
  | handshakeDecodeError (version : UInt64) (text : String)
  | refused (version : UInt64) (text : String)
  deriving DecidableEq

inductive Message (D : Type := VersionData) where
  | propose (table : VersionTable D)
  | accept (version : UInt64) (data : D)
  | refuse (reason : RefuseReason)
  | queryReply (table : VersionTable D)
  deriving DecidableEq

inductive DoneState (D : Type := VersionData) where
  | accepted (version : UInt64) (data : D)
  | rejected (reason : RefuseReason)
  | queryReply (table : VersionTable D)
  deriving DecidableEq

inductive State (D : Type := VersionData) where
  | propose
  | confirm (table : VersionTable D)
  | done (result : DoneState D)
  deriving DecidableEq

variable {D : Type}

instance : Inhabited (State D) := ⟨.propose⟩

def State.apply : State D → Message D → Except ProtocolError (State D)
  | .propose, .propose x => .ok (.confirm x)
  | .propose, _ => .error .invalidOutbound
  | .confirm _, .accept x y => .ok (.done (.accepted x y))
  | .confirm _, .refuse x => .ok (.done (.rejected x))
  | .confirm _, .queryReply x => .ok (.done (.queryReply x))
  | .confirm _, _ => .error .invalidInbound
  | .done _, _ => .error .invalidInbound

/-- The first version with the Leios overlay. -/
def leiosMinVersion : UInt64 := 15

end Handshake

/-! ### Keep-alive -/

namespace Keepalive

def channelId : Channel := 8

abbrev Cookie := UInt16

inductive ClientState where
  | empty
  | response (cookie : Cookie)
  deriving DecidableEq

inductive Message where
  | keepAlive (cookie : Cookie)
  | responseKeepAlive (cookie : Cookie)
  | done
  deriving DecidableEq

inductive State where
  | client (state : ClientState)
  | server (cookie : Cookie)
  | done
  deriving DecidableEq

instance : Inhabited State := ⟨.client .empty⟩

def State.apply : State → Message → Except ProtocolError State
  | .client _, .keepAlive x => .ok (.server x)
  | .client _, _ => .error .invalidOutbound
  | .server _, .responseKeepAlive x => .ok (.client (.response x))
  | .server _, _ => .error .invalidInbound
  | .done, _ => .error .invalidOutbound

end Keepalive

/-! ### Peer sharing -/

namespace Peersharing

def channelId : Channel := 10

abbrev Amount := UInt8
abbrev Port := UInt16

/-- `V4` has the four octets of the address, `V6` its eight segments. -/
inductive PeerAddress where
  | v4 (address : Vector UInt8 4) (port : Port)
  | v6 (address : Vector UInt16 8) (port : Port)
  deriving DecidableEq

inductive Message where
  | shareRequest (amount : Amount)
  | sharePeers (peers : List PeerAddress)
  | done
  deriving DecidableEq

inductive IdleState where
  | empty
  | response (peers : List PeerAddress)
  deriving DecidableEq

inductive State where
  | idle (state : IdleState)
  | busy (amount : Amount)
  | done
  deriving DecidableEq

instance : Inhabited State := ⟨.idle .empty⟩

def State.apply : State → Message → Except ProtocolError State
  | .idle _, .shareRequest x => .ok (.busy x)
  | .idle _, _ => .error .invalidOutbound
  | .busy _, .sharePeers x => .ok (.idle (.response x))
  | .busy _, _ => .error .invalidInbound
  | .done, _ => .error .invalidOutbound

end Peersharing

/-! ### Block fetch -/

namespace Blockfetch

def channelId : Channel := 3

abbrev Body := Bytes

/-- Two points, both inclusive. -/
abbrev Range := Point × Point

inductive Message where
  | requestRange (range : Range)
  | clientDone
  | startBatch
  | noBlocks
  | block (body : Body)
  | batchDone
  deriving DecidableEq

inductive State where
  | idle
  | busy (range : Range)
  | streaming (last : Option Body)
  | done
  deriving DecidableEq

instance : Inhabited State := ⟨.idle⟩

def State.apply : State → Message → Except ProtocolError State
  | .idle, .requestRange range => .ok (.busy range)
  | .idle, .clientDone => .ok .done
  | .idle, _ => .error .invalidOutbound
  | .busy _, .noBlocks => .ok .idle
  | .busy _, .startBatch => .ok (.streaming none)
  | .busy _, _ => .error .invalidInbound
  | .streaming _, .block body => .ok (.streaming (some body))
  | .streaming _, .batchDone => .ok .idle
  | .streaming _, _ => .error .invalidInbound
  | .done, _ => .error .invalidOutbound

end Blockfetch

/-! ### Chain sync -/

namespace Chainsync

def channelId : Channel := 2

/-- A point and its block height. -/
structure Tip where
  point : Point
  height : UInt64
  deriving DecidableEq

structure HeaderContent where
  variant : UInt8
  byronPrefix : Option (UInt8 × UInt64)
  cbor : Bytes
  deriving DecidableEq

inductive Message where
  | requestNext
  | awaitReply
  | rollForward (content : HeaderContent) (tip : Tip)
  | rollBackward (point : Point) (tip : Tip)
  | findIntersect (points : List Point)
  | intersectFound (point : Point) (tip : Tip)
  | intersectNotFound (tip : Tip)
  | done
  deriving DecidableEq

inductive Data where
  | new
  | intersection (point : Point) (tip : Tip)
  | noIntersection (tip : Tip)
  | content (content : HeaderContent) (tip : Tip)
  | rollback (point : Point) (tip : Tip)
  | drained
  deriving DecidableEq

inductive State where
  | idle (data : Data)
  | canAwait
  | mustReply
  | intersect (points : List Point)
  | done
  deriving DecidableEq

instance : Inhabited State := ⟨.idle .new⟩

namespace State

def isNew (self : State) : Bool := self = .idle .new

def isIdle : State → Bool
  | .idle _ => true
  | _ => false

/-- The idle data, and the state with the data drained. -/
def drain : State → Option Data × State
  | .idle data => (some data, .idle .drained)
  | self => (none, self)

def apply : State → Message → Except ProtocolError State
  | .idle _, .findIntersect x => .ok (.intersect x)
  | .idle _, .requestNext => .ok .canAwait
  | .idle _, .done => .ok .done
  | .idle _, _ => .error .invalidInbound
  | .intersect _, .intersectFound p t => .ok (.idle (.intersection p t))
  | .intersect _, .intersectNotFound tip => .ok (.idle (.noIntersection tip))
  | .intersect _, _ => .error .invalidInbound
  | .canAwait, .rollForward c t => .ok (.idle (.content c t))
  | .canAwait, .rollBackward p t => .ok (.idle (.rollback p t))
  | .canAwait, .awaitReply => .ok .mustReply
  | .canAwait, _ => .error .invalidInbound
  | .mustReply, .rollForward c t => .ok (.idle (.content c t))
  | .mustReply, .rollBackward p t => .ok (.idle (.rollback p t))
  | .mustReply, _ => .error .invalidInbound
  | .done, _ => .error .invalidInbound

end State
end Chainsync

/-! ### Transaction submission -/

namespace Txsubmission

def channelId : Channel := 4

/-- Tagged with the number of its era. -/
structure EraTxId where
  era : UInt16
  id : Bytes
  deriving DecidableEq

structure EraTxBody where
  era : UInt16
  body : Bytes
  deriving DecidableEq

structure TxIdAndSize where
  id : EraTxId
  size : UInt32
  deriving DecidableEq

inductive Message where
  | init
  | requestTxIds (blocking : Bool) (ack : UInt16) (count : UInt16)
  | replyTxIds (ids : List TxIdAndSize)
  | requestTxs (ids : List EraTxId)
  | replyTxs (txs : List EraTxBody)
  | done
  deriving DecidableEq

inductive State where
  | init
  | idle
  | txIdsNonBlocking
  | txIdsBlocking
  | txs (txs : List EraTxBody)
  | done
  deriving DecidableEq

instance : Inhabited State := ⟨.init⟩

def State.apply : State → Message → Except ProtocolError State
  | .init, .init => .ok .idle
  | .init, _ => .error .invalidInbound
  | .idle, .requestTxIds .. => .ok .txIdsBlocking
  | .idle, .requestTxs _ => .ok (.txs [])
  | .idle, _ => .error .invalidInbound
  | .txIdsNonBlocking, .replyTxIds _ => .ok .txIdsNonBlocking
  | .txIdsNonBlocking, _ => .error .invalidInbound
  | .txIdsBlocking, .replyTxIds _ => .ok .txIdsBlocking
  | .txIdsBlocking, _ => .error .invalidInbound
  | .txs _, .replyTxs bodies => .ok (.txs bodies)
  | .txs _, _ => .error .invalidInbound
  | .done, _ => .error .invalidInbound

end Txsubmission

/-! ### Leios notifications -/

namespace Leiosnotify

def channelId : Channel := 18

inductive Message where
  | done
  | quit
  | canceled
  | requestNext
  | blockAnnouncement (header : AnyCbor)
  | blockOffer (eb : EbId) (size : UInt32)
  | blockTxsOffer (eb : EbId)
  | votes (votes : List AnyCbor)
  deriving DecidableEq

inductive Notification where
  | blockAnnouncement (header : AnyCbor)
  | blockOffer (eb : EbId) (size : UInt32)
  | blockTxsOffer (eb : EbId)
  | votes (votes : List AnyCbor)
  deriving DecidableEq

inductive State where
  | idle (pending : Option Notification)
  | busy
  | quit
  | done
  deriving DecidableEq

instance : Inhabited State := ⟨.idle none⟩

def State.apply : State → Message → Except ProtocolError State
  | .idle _, .requestNext => .ok .busy
  | .idle _, .quit => .ok .quit
  | .idle _, _ => .error .invalidOutbound
  | .busy, .blockAnnouncement h => .ok (.idle (some (.blockAnnouncement h)))
  | .busy, .blockOffer p s => .ok (.idle (some (.blockOffer p s)))
  | .busy, .blockTxsOffer p => .ok (.idle (some (.blockTxsOffer p)))
  | .busy, .votes v => .ok (.idle (some (.votes v)))
  | .busy, .canceled => .ok (.idle none)
  | .busy, _ => .error .invalidInbound
  | .quit, .done => .ok .done
  | .quit, _ => .error .invalidInbound
  | .done, _ => .error .invalidOutbound

/-- The pending notification, and the state without it. -/
def State.drain : State → Option Notification × State
  | .idle pending => (pending, .idle none)
  | self => (none, self)

end Leiosnotify

/-! ### Leios fetch -/

namespace Leiosfetch

def channelId : Channel := 19

/-- The entries of the `BTreeMap`, in the order of their keys: a window of 64 transactions and its selection. -/
structure Bitmaps where
  windows : List (UInt16 × UInt64)
  deriving DecidableEq

inductive Message where
  | done
  | blockRequest (eb : EbId)
  | block (block : AnyCbor)
  | blockTxsRequest (eb : EbId) (bitmaps : Bitmaps)
  | blockTxs (txs : List AnyCbor)
  deriving DecidableEq

inductive Response where
  | block (block : AnyCbor)
  | blockTxs (txs : List AnyCbor)
  deriving DecidableEq

inductive State where
  | idle (pending : Option (EbId × Response))
  | awaitingBlock (eb : EbId)
  | awaitingBlockTxs (eb : EbId) (bitmaps : Bitmaps)
  | done
  deriving DecidableEq

instance : Inhabited State := ⟨.idle none⟩

def State.apply : State → Message → Except ProtocolError State
  | .idle _, .blockRequest p => .ok (.awaitingBlock p)
  | .idle _, .blockTxsRequest p b => .ok (.awaitingBlockTxs p b)
  | .idle _, .done => .ok .done
  | .idle _, _ => .error .invalidOutbound
  | .awaitingBlock eb, .block b => .ok (.idle (some (eb, .block b)))
  | .awaitingBlock _, _ => .error .invalidInbound
  | .awaitingBlockTxs eb _, .blockTxs txs => .ok (.idle (some (eb, .blockTxs txs)))
  | .awaitingBlockTxs .., _ => .error .invalidInbound
  | .done, _ => .error .invalidOutbound

/-- The pending response, and the state without it. -/
def State.drain : State → Option (EbId × Response) × State
  | .idle pending => (pending, .idle none)
  | self => (none, self)

end Leiosfetch

/-! ### All of them together -/

/-- A message of any mini-protocol (`behavior/mod.rs`). -/
inductive AnyMessage where
  | handshake (msg : Handshake.Message)
  | keepAlive (msg : Keepalive.Message)
  | chainSync (msg : Chainsync.Message)
  | peerSharing (msg : Peersharing.Message)
  | blockFetch (msg : Blockfetch.Message)
  | txSubmission (msg : Txsubmission.Message)
  | leiosNotify (msg : Leiosnotify.Message)
  | leiosFetch (msg : Leiosfetch.Message)
  deriving DecidableEq

def AnyMessage.channel : AnyMessage → Channel
  | .handshake _ => Handshake.channelId
  | .keepAlive _ => Keepalive.channelId
  | .chainSync _ => Chainsync.channelId
  | .peerSharing _ => Peersharing.channelId
  | .blockFetch _ => Blockfetch.channelId
  | .txSubmission _ => Txsubmission.channelId
  | .leiosNotify _ => Leiosnotify.channelId
  | .leiosFetch _ => Leiosfetch.channelId

theorem AnyMessage.channel_eq_blockfetch {msg : AnyMessage} :
    msg.channel = Blockfetch.channelId ↔ ∃ m, msg = .blockFetch m := by
  cases msg <;> simp [channel, Handshake.channelId, Keepalive.channelId, Chainsync.channelId, Peersharing.channelId,
    Blockfetch.channelId, Txsubmission.channelId, Leiosnotify.channelId, Leiosfetch.channelId]

end Pallas.Network2
