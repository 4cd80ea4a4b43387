import Mathlib.Data.List.MinMax
import Pallas.Network2.Agency
import Pallas.Network2.Initiator

/-!
# The responder (`behavior/responder`)

The other side of a connection: peers connect, and are answered. Its sub-behaviors differ from the initiator's in when
they are run: an inbound message is shown to the one that owns its protocol, and to none once the peer is in violation.
A method that the source leaves at the default, and metrics, are left out, as in the initiator.
-/

namespace Pallas.Network2

/-- `a + b` on `usize`. -/
def usizeAdd (a b : ℕ) : Call ℕ := if a + b < 2 ^ 64 then .ok (a + b) else .panic

theorem usizeAdd_eq_ok {a b c : ℕ} : usizeAdd a b = .ok c ↔ a + b < 2 ^ 64 ∧ a + b = c := by
  unfold usizeAdd
  split
  · next h => simp only [Outcome.ok.injEq, h, true_and]
  · next h => simp only [h, false_and, reduceCtorEq]

structure ResponderState where
  connection : ConnectionState
  handshake : Handshake.State
  keepalive : Keepalive.State
  peersharing : Peersharing.State
  blockfetch : Blockfetch.State
  chainsync : Chainsync.State
  txSubmission : Txsubmission.State
  leiosNotify : Leiosnotify.State
  leiosFetch : Leiosfetch.State
  violation : Bool
  errorCount : UInt32
  unsent : UnsentRequests

inductive ResponderCommand where
  | housekeeping
  | provideIntersection (pid : PeerId) (point : Point) (tip : Chainsync.Tip)
  | provideHeader (pid : PeerId) (header : Chainsync.HeaderContent) (tip : Chainsync.Tip)
  | provideRollback (pid : PeerId) (point : Point) (tip : Chainsync.Tip)
  | provideBlocks (pid : PeerId) (blocks : List Blockfetch.Body)
  | providePeers (pid : PeerId) (peers : List Peersharing.PeerAddress)
  | provideEbAnnouncement (pid : PeerId) (header : AnyCbor)
  | provideEbOffer (pid : PeerId) (eb : EbId) (size : UInt32)
  | provideEbTxsOffer (pid : PeerId) (eb : EbId)
  | provideVotes (pid : PeerId) (votes : List AnyCbor)
  | provideEb (pid : PeerId) (block : AnyCbor)
  | provideEbTxs (pid : PeerId) (txs : List AnyCbor)
  | banPeer (pid : PeerId)
  | disconnectPeer (pid : PeerId)
  deriving DecidableEq

inductive ResponderEvent where
  | peerInitialized (pid : PeerId) (version : UInt64 × Handshake.VersionData)
  | peerDisconnected (pid : PeerId)
  | intersectionRequested (pid : PeerId) (points : List Point)
  | nextHeaderRequested (pid : PeerId)
  | blockRangeRequested (pid : PeerId) (range : BlockRange)
  | peersRequested (pid : PeerId) (amount : Peersharing.Amount)
  | txReceived (pid : PeerId) (tx : Txsubmission.EraTxBody)
  | ebNotificationRequested (pid : PeerId)
  | ebRequested (pid : PeerId) (eb : EbId)
  | ebTxsRequested (pid : PeerId) (eb : EbId) (bitmaps : Leiosfetch.Bitmaps)
  deriving DecidableEq

/-- `BehaviorOutput<ResponderBehavior>`. -/
inductive ResponderOutput where
  | interfaceCommand (cmd : InterfaceCommand)
  | externalEvent (event : ResponderEvent)
  deriving DecidableEq

abbrev ResponderQueue := List ResponderOutput

namespace ResponderState

def new : ResponderState where
  connection := .new
  handshake := default
  keepalive := default
  peersharing := default
  blockfetch := default
  chainsync := default
  txSubmission := default
  leiosNotify := default
  leiosFetch := default
  violation := false
  errorCount := 0
  unsent := .empty

/-- Back to the initial state, except for the error count. -/
def reset (self : ResponderState) : ResponderState := { new with errorCount := self.errorCount }

def isInitialized (self : ResponderState) : Bool := self.connection = .initialized

/-- A message that is not valid leaves the state and sets `violation`. -/
def applyMsg (self : ResponderState) : AnyMessage → ResponderState
  | .handshake msg => match self.handshake.apply msg with
    | .ok s => { self with handshake := s }
    | .error _ => { self with violation := true }
  | .keepAlive msg => match self.keepalive.apply msg with
    | .ok s => { self with keepalive := s }
    | .error _ => { self with violation := true }
  | .peerSharing msg => match self.peersharing.apply msg with
    | .ok s => { self with peersharing := s }
    | .error _ => { self with violation := true }
  | .blockFetch msg => match self.blockfetch.apply msg with
    | .ok s => { self with blockfetch := s }
    | .error _ => { self with violation := true }
  | .chainSync msg => match self.chainsync.apply msg with
    | .ok s => { self with chainsync := s }
    | .error _ => { self with violation := true }
  | .txSubmission msg => match self.txSubmission.apply msg with
    | .ok s => { self with txSubmission := s }
    | .error _ => { self with violation := true }
  | .leiosNotify msg => match self.leiosNotify.apply msg with
    | .ok s => { self with leiosNotify := s }
    | .error _ => { self with violation := true }
  | .leiosFetch msg => match self.leiosFetch.apply msg with
    | .ok s => { self with leiosFetch := s }
    | .error _ => { self with violation := true }

/-- The responder asks in tx-submission only. -/
def canApply (self : ResponderState) : AnyMessage → Bool
  | .txSubmission m => (self.txSubmission.apply m).isOk
  | _ => false

/-- Pushes `msg` when it is a request, its channel has no unsent request, and the protocol state can apply it. -/
def trySendRequest (self : ResponderState) (pid : PeerId) (msg : AnyMessage) (outbound : ResponderQueue) :
    ResponderState × ResponderQueue :=
  if self.canApply msg then
    match self.unsent.insert msg with
    | some unsent => ({ self with unsent }, outbound ++ [.interfaceCommand (.send pid msg)])
    | none => (self, outbound)
  else (self, outbound)

/-- Drops the unsent copy of `msg` when the protocol state before `msg` can apply it. -/
def clearUnsent (self : ResponderState) (msg : AnyMessage) : ResponderState :=
  if self.unsent.contains msg && self.canApply msg then { self with unsent := self.unsent.remove msg.channel } else self

/-- The states of the protocols of a peer. -/
def protocols (st : ResponderState) : ProtocolStates where
  handshake := st.handshake
  keepalive := st.keepalive
  peersharing := st.peersharing
  blockfetch := st.blockfetch
  chainsync := st.chainsync
  txSubmission := st.txSubmission
  leiosNotify := st.leiosNotify
  leiosFetch := st.leiosFetch

theorem applyMsg_protocols (st : ResponderState) (msg : AnyMessage) :
    (st.applyMsg msg).protocols = st.protocols.next msg := by
  cases msg <;> simp only [applyMsg, ProtocolStates.next, advance, protocols] <;> split <;> simp [*]

theorem applyMsg_violation (st : ResponderState) (msg : AnyMessage) :
    (st.applyMsg msg).violation = (st.violation || !st.protocols.accepts msg) := by
  cases msg <;> simp only [applyMsg, ProtocolStates.accepts, protocols] <;> split <;>
    simp [*, Except.isOk, Except.toBool]

end ResponderState

/-! ### Connections (`connection.rs`) -/

structure ConnectionResponderConfig where
  maxErrorCount : UInt32
  maxConnectionsPerIp : ℕ
  deriving DecidableEq

def ConnectionResponderConfig.default : ConnectionResponderConfig := ⟨1, 10⟩

structure ConnectionResponder where
  config : ConnectionResponderConfig
  bannedPeers : Finset PeerId
  connectionsPerIp : Finmap fun _ : String => ℕ
  acceptedPeers : Finset PeerId
  activePeers : ℕ

namespace ConnectionResponder

def new (config : ConnectionResponderConfig) : ConnectionResponder where
  config := config
  bannedPeers := ∅
  connectionsPerIp := ∅
  acceptedPeers := ∅
  activePeers := 0

def needsDisconnect (self : ConnectionResponder) (pid : PeerId) (state : ResponderState) : Bool :=
  if pid ∈ self.bannedPeers then true else state.connection = .errored

def needsBan (self : ConnectionResponder) (pid : PeerId) (state : ResponderState) : Bool :=
  if pid ∈ self.bannedPeers then false else state.violation || self.config.maxErrorCount < state.errorCount

def disconnect (pid : PeerId) (outbound : ResponderQueue) : ResponderQueue :=
  outbound ++ [.interfaceCommand (.disconnect pid)]

/-- The connections of the host, as they are counted. -/
def count (self : ConnectionResponder) (host : String) : ℕ := (self.connectionsPerIp.lookup host).getD 0

/-- The limit is checked on the count that has the connection in it. -/
def takeOn (self : ConnectionResponder) (pid : PeerId) (outbound : ResponderQueue) :
    Call (ConnectionResponder × ResponderQueue) :=
  if self.config.maxConnectionsPerIp < self.count pid.host then .ok (self, disconnect pid outbound)
  else if pid ∈ self.acceptedPeers then .ok (self, outbound)
  else do
    let active ← usizeAdd self.activePeers 1
    .ok ({ self with acceptedPeers := insert pid self.acceptedPeers, activePeers := active }, outbound)

/-- A banned peer is rejected before it is counted, one over the limit after. -/
def visitConnected (self : ConnectionResponder) (pid : PeerId) (outbound : ResponderQueue) :
    Call (ConnectionResponder × ResponderQueue) :=
  if pid ∈ self.bannedPeers then .ok (self, disconnect pid outbound)
  else do
    let count ← usizeAdd (self.count pid.host) 1
    { self with
      connectionsPerIp := self.connectionsPerIp.insert pid.host count : ConnectionResponder }.takeOn pid outbound

/-- One connection less for the host; an entry that comes to zero is removed. -/
def release (self : ConnectionResponder) (host : String) : Finmap fun _ : String => ℕ :=
  match self.connectionsPerIp.lookup host with
  | some count =>
    if count - 1 = 0 then self.connectionsPerIp.erase host else self.connectionsPerIp.insert host (count - 1)
  | none => self.connectionsPerIp

def visitDisconnected (self : ConnectionResponder) (pid : PeerId) : ConnectionResponder :=
  { self with
    connectionsPerIp := self.release pid.host
    acceptedPeers := self.acceptedPeers.erase pid
    activePeers := if pid ∈ self.acceptedPeers then self.activePeers - 1 else self.activePeers }

def visitErrored (self : ConnectionResponder) (pid : PeerId) (state : ResponderState) (outbound : ResponderQueue) :
    ResponderQueue :=
  if self.needsDisconnect pid state then disconnect pid outbound else outbound

def visitHousekeeping (self : ConnectionResponder) (pid : PeerId) (state : ResponderState) (outbound : ResponderQueue) :
    ConnectionResponder × ResponderQueue :=
  if self.needsBan pid state then
    ({ self with bannedPeers := insert pid self.bannedPeers }, disconnect pid outbound)
  else if self.needsDisconnect pid state then (self, disconnect pid outbound)
  else (self, outbound)

end ConnectionResponder

/-! ### Handshake (`handshake.rs`) -/

structure HandshakeResponder where
  supportedVersion : Handshake.VersionTable
  deriving DecidableEq

/-- Version 13 on mainnet, with peer sharing. -/
def HandshakeResponder.default : HandshakeResponder := ⟨HandshakeBehavior.default.supportedVersion⟩

namespace HandshakeResponder

/-- The highest version that both tables have, with the peer's data and ours. -/
def negotiate (self : HandshakeResponder) (proposed : Handshake.VersionTable) :
    Option (UInt64 × Handshake.VersionData × Handshake.VersionData) := do
  let (num, peerData) ← (proposed.values.filter fun (num, _) =>
    (self.supportedVersion.values.lookup num).isSome).argmax (·.1.toNat)
  let ourData ← self.supportedVersion.values.lookup num
  some (num, peerData, ourData)

def tryAcceptHandshake (self : HandshakeResponder) (pid : PeerId) (state : ResponderState) (outbound : ResponderQueue) :
    ResponderState × ResponderQueue :=
  match state.handshake with
  | .confirm proposed => match self.negotiate proposed with
    | some (version, peerData, ourData) =>
      if peerData.networkMagic ≠ ourData.networkMagic then
        (state, outbound ++
          [.interfaceCommand (.send pid (.handshake (.refuse (.refused version "network magic mismatch"))))])
      else
        ({ state with connection := .initialized },
          outbound ++ [.interfaceCommand (.send pid (.handshake (.accept version ourData))),
            .externalEvent (.peerInitialized pid (version, ourData))])
    | none =>
      (state, outbound ++
        [.interfaceCommand (.send pid
          (.handshake (.refuse (.versionMismatch (self.supportedVersion.values.map (·.1))))))])
  | _ => (state, outbound)

end HandshakeResponder

/-! ### The other sub-behaviors -/

def KeepaliveResponder.tryRespond (pid : PeerId) (state : ResponderState) (outbound : ResponderQueue) :
    ResponderQueue :=
  if !state.isInitialized then outbound
  else match state.keepalive with
    | .server cookie => outbound ++ [.interfaceCommand (.send pid (.keepAlive (.responseKeepAlive cookie)))]
    | _ => outbound

def ChainSyncResponder.checkRequests (pid : PeerId) (state : ResponderState) (outbound : ResponderQueue) :
    ResponderQueue :=
  if !state.isInitialized then outbound
  else match state.chainsync with
    | .intersect points => outbound ++ [.externalEvent (.intersectionRequested pid points)]
    | .canAwait => outbound ++ [.externalEvent (.nextHeaderRequested pid)]
    | .mustReply => outbound ++ [.externalEvent (.nextHeaderRequested pid)]
    | _ => outbound

def BlockFetchResponder.checkRequests (pid : PeerId) (state : ResponderState) (outbound : ResponderQueue) :
    ResponderQueue :=
  if !state.isInitialized then outbound
  else match state.blockfetch with
    | .busy range => outbound ++ [.externalEvent (.blockRangeRequested pid range)]
    | _ => outbound

def PeerSharingResponder.checkRequests (pid : PeerId) (state : ResponderState) (outbound : ResponderQueue) :
    ResponderQueue :=
  if !state.isInitialized then outbound
  else match state.peersharing with
    | .busy amount => outbound ++ [.externalEvent (.peersRequested pid amount)]
    | _ => outbound

structure TxSubmissionResponder where
  maxTxRequest : UInt16
  deriving DecidableEq

def TxSubmissionResponder.default : TxSubmissionResponder := ⟨10⟩

namespace TxSubmissionResponder

def tryRequestTxIds (self : TxSubmissionResponder) (pid : PeerId) (state : ResponderState) (outbound : ResponderQueue) :
    ResponderState × ResponderQueue :=
  if !state.isInitialized then (state, outbound)
  else if state.txSubmission ≠ .idle then (state, outbound)
  else state.trySendRequest pid (.txSubmission (.requestTxIds true 0 self.maxTxRequest)) outbound

def tryExtractTxs (pid : PeerId) (state : ResponderState) (outbound : ResponderQueue) : ResponderQueue :=
  match state.txSubmission with
  | .txs txs => outbound ++ txs.map fun tx => .externalEvent (.txReceived pid tx)
  | _ => outbound

end TxSubmissionResponder

def LeiosNotifyResponder.visitInboundMsg (pid : PeerId) (state : ResponderState) (outbound : ResponderQueue) :
    ResponderQueue :=
  if !state.isInitialized then outbound
  else match state.leiosNotify with
    | .busy => outbound ++ [.externalEvent (.ebNotificationRequested pid)]
    | .quit => outbound ++ [.interfaceCommand (.send pid (.leiosNotify .done))]
    | _ => outbound

def LeiosFetchResponder.visitInboundMsg (pid : PeerId) (state : ResponderState) (outbound : ResponderQueue) :
    ResponderQueue :=
  if !state.isInitialized then outbound
  else match state.leiosFetch with
    | .awaitingBlock eb => outbound ++ [.externalEvent (.ebRequested pid eb)]
    | .awaitingBlockTxs eb bitmaps => outbound ++ [.externalEvent (.ebTxsRequested pid eb bitmaps)]
    | _ => outbound

/-! ### The behavior (`mod.rs`) -/

structure ResponderBehavior where
  connection : ConnectionResponder
  handshake : HandshakeResponder
  txsubmission : TxSubmissionResponder
  peers : Finmap fun _ : PeerId => ResponderState
  outbound : ResponderQueue

inductive ResponderInput where
  | io (event : InterfaceEvent)
  | command (cmd : ResponderCommand)
  deriving DecidableEq

namespace ResponderBehavior

/-- A responder without peers, with the given configuration. -/
def new (connection : ConnectionResponderConfig) (handshake : HandshakeResponder)
    (txsubmission : TxSubmissionResponder) : ResponderBehavior where
  connection := .new connection
  handshake := handshake
  txsubmission := txsubmission
  peers := ∅
  outbound := []

/-- The one visitor that is shown an inbound message; the connection's does nothing. -/
def visitInboundMsg (self : ResponderBehavior) (pid : PeerId) (msg : AnyMessage) (state : ResponderState) :
    ResponderState × ResponderQueue :=
  match msg with
  | .handshake _ => self.handshake.tryAcceptHandshake pid state self.outbound
  | .keepAlive _ => (state, KeepaliveResponder.tryRespond pid state self.outbound)
  | .chainSync _ => (state, ChainSyncResponder.checkRequests pid state self.outbound)
  | .blockFetch _ => (state, BlockFetchResponder.checkRequests pid state self.outbound)
  | .peerSharing _ => (state, PeerSharingResponder.checkRequests pid state self.outbound)
  | .txSubmission _ => (state, TxSubmissionResponder.tryExtractTxs pid state self.outbound)
  | .leiosNotify _ => (state, LeiosNotifyResponder.visitInboundMsg pid state self.outbound)
  | .leiosFetch _ => (state, LeiosFetchResponder.visitInboundMsg pid state self.outbound)

/-- What an inbound message does to its peer. -/
def receive (self : ResponderBehavior) (pid : PeerId) (msg : AnyMessage) (state : ResponderState) :
    ResponderState × ResponderQueue :=
  let state := state.applyMsg msg
  if state.violation then (state, self.outbound) else self.visitInboundMsg pid msg state

def onInboundMsg (self : ResponderBehavior) (pid : PeerId) (msg : AnyMessage) : ResponderBehavior :=
  match self.peers.lookup pid with
  | none => self
  | some state =>
    let (state, outbound) := self.receive pid msg state
    { self with peers := self.peers.insert pid state, outbound }

/-- No visitor takes part in outbound messages. -/
def onOutboundMsg (self : ResponderBehavior) (pid : PeerId) (msg : AnyMessage) : ResponderBehavior :=
  match self.peers.lookup pid with
  | none => self
  | some state => { self with peers := self.peers.insert pid ((state.clearUnsent msg).applyMsg msg) }

/-- A peer that connects starts afresh, tracked or not. -/
def onConnected (self : ResponderBehavior) (pid : PeerId) : Call ResponderBehavior := do
  let (connection, outbound) ← self.connection.visitConnected pid self.outbound
  .ok { self with
    connection
    outbound
    peers := self.peers.insert pid { ResponderState.new with connection := .connected } }

def onDisconnected (self : ResponderBehavior) (pid : PeerId) : ResponderBehavior :=
  let connection := match self.peers.lookup pid with
    | none => self.connection
    | some _ => self.connection.visitDisconnected pid
  { self with
    connection
    peers := self.peers.erase pid
    outbound := self.outbound ++ [.externalEvent (.peerDisconnected pid)] }

/-- `error_count += 1` on `u32`. -/
def countError (state : ResponderState) : Call ResponderState :=
  if state.errorCount.toNat + 1 < 2 ^ 32 then .ok { state with errorCount := state.errorCount + 1 } else .panic

def onErrored (self : ResponderBehavior) (pid : PeerId) : Call ResponderBehavior :=
  match self.peers.lookup pid with
  | none => .ok self
  | some state => do
    let state ← countError { state with connection := .errored }
    .ok { self with
      peers := self.peers.insert pid state
      outbound := self.connection.visitErrored pid state self.outbound }

/-- One peer in `housekeeping`. -/
def visitHousekeeping (self : ResponderBehavior) (pid : PeerId) : ResponderBehavior :=
  match self.peers.lookup pid with
  | none => self
  | some state =>
    let (connection, outbound) := self.connection.visitHousekeeping pid state self.outbound
    let (state, outbound) := self.txsubmission.tryRequestTxIds pid state outbound
    { self with connection, peers := self.peers.insert pid state, outbound }

/-- `iter` is the order in which the peers are iterated. -/
def housekeeping (self : ResponderBehavior) (iter : List PeerId) :
    ResponderBehavior := iter.foldl visitHousekeeping self

/-- `send_msg`; the `provide_*` functions push in the same way. -/
def sendMsg (self : ResponderBehavior) (pid : PeerId) (msg : AnyMessage) : ResponderBehavior :=
  { self with outbound := self.outbound ++ [.interfaceCommand (.send pid msg)] }

def provideIntersection (self : ResponderBehavior) (pid : PeerId) (point : Point) (tip : Chainsync.Tip) :
    ResponderBehavior := self.sendMsg pid (.chainSync (.intersectFound point tip))

def provideHeader (self : ResponderBehavior) (pid : PeerId) (header : Chainsync.HeaderContent) (tip : Chainsync.Tip) :
    ResponderBehavior := self.sendMsg pid (.chainSync (.rollForward header tip))

def provideRollback (self : ResponderBehavior) (pid : PeerId) (point : Point) (tip : Chainsync.Tip) :
    ResponderBehavior := self.sendMsg pid (.chainSync (.rollBackward point tip))

def provideBlocks (self : ResponderBehavior) (pid : PeerId) (blocks : List Blockfetch.Body) : ResponderBehavior :=
  let self := self.sendMsg pid (.blockFetch .startBatch)
  let self := blocks.foldl (fun self block => self.sendMsg pid (.blockFetch (.block block))) self
  self.sendMsg pid (.blockFetch .batchDone)

def providePeers (self : ResponderBehavior) (pid : PeerId) (peers : List Peersharing.PeerAddress) : ResponderBehavior :=
  self.sendMsg pid (.peerSharing (.sharePeers peers))

def disconnectPeer (self : ResponderBehavior) (pid : PeerId) : ResponderBehavior :=
  { self with outbound := self.outbound ++ [.interfaceCommand (.disconnect pid)] }

def banPeer (self : ResponderBehavior) (pid : PeerId) : ResponderBehavior :=
  { self with
    connection :=
      { self.connection with bannedPeers := insert pid self.connection.bannedPeers } : ResponderBehavior }.disconnectPeer pid

def handleIo (self : ResponderBehavior) (iter : List PeerId) : InterfaceEvent → Call ResponderBehavior
  | .connected pid => self.onConnected pid
  | .disconnected pid => .ok (self.onDisconnected pid)
  | .recv pid msgs => .ok (msgs.foldl (fun self msg => self.onInboundMsg pid msg) self)
  | .sent pid msg => .ok (self.onOutboundMsg pid msg)
  | .error pid _ => self.onErrored pid
  | .idle => .ok (self.housekeeping iter)

def execute (self : ResponderBehavior) (iter : List PeerId) : ResponderCommand → ResponderBehavior
  | .housekeeping => self.housekeeping iter
  | .provideIntersection pid point tip => self.provideIntersection pid point tip
  | .provideHeader pid header tip => self.provideHeader pid header tip
  | .provideRollback pid point tip => self.provideRollback pid point tip
  | .provideBlocks pid blocks => self.provideBlocks pid blocks
  | .providePeers pid peers => self.providePeers pid peers
  | .provideEbAnnouncement pid header => self.sendMsg pid (.leiosNotify (.blockAnnouncement header))
  | .provideEbOffer pid eb size => self.sendMsg pid (.leiosNotify (.blockOffer eb size))
  | .provideEbTxsOffer pid eb => self.sendMsg pid (.leiosNotify (.blockTxsOffer eb))
  | .provideVotes pid votes => self.sendMsg pid (.leiosNotify (.votes votes))
  | .provideEb pid block => self.sendMsg pid (.leiosFetch (.block block))
  | .provideEbTxs pid txs => self.sendMsg pid (.leiosFetch (.blockTxs txs))
  | .banPeer pid => self.banPeer pid
  | .disconnectPeer pid => self.disconnectPeer pid

def handle (self : ResponderBehavior) (iter : List PeerId) : ResponderInput → Call ResponderBehavior
  | .io event => self.handleIo iter event
  | .command cmd => .ok (self.execute iter cmd)

/-- `iter` lists the peers, each once. -/
def Lists (self : ResponderBehavior) (iter : List PeerId) : Prop := iter.Nodup ∧ iter.toFinset = self.peers.keys

instance (self : ResponderBehavior) (iter : List PeerId) : Decidable (self.Lists iter) :=
  inferInstanceAs (Decidable (_ ∧ _))

/-- A responder to which nothing has happened, in any configuration. -/
def Init (s : ResponderBehavior) :
    Prop := ∃ connection handshake txsubmission, s = new connection handshake txsubmission

/-- One input handled with the queue empty, so that the queue of `t` has the outputs of this input. -/
def Step (s : ResponderBehavior) (input : ResponderInput) (t : ResponderBehavior) : Prop :=
  ∃ iter, s.Lists iter ∧ { s with outbound := [] : ResponderBehavior }.handle iter input = .ok t

/-- One step, if `iter` lists the peers and the call returns. -/
def move (s : ResponderBehavior) (iter : List PeerId) (input : ResponderInput) : Option ResponderBehavior :=
  if s.Lists iter then
    match { s with outbound := [] : ResponderBehavior }.handle iter input with
    | .ok t => some t
    | _ => none
  else none

theorem step_of_move (s : ResponderBehavior) (iter : List PeerId) (input : ResponderInput) (t : ResponderBehavior)
    (h : s.move iter input = some t) : s.Step input t := by
  unfold move at h
  split at h
  · next hlists =>
    split at h
    · next u hu =>
      obtain rfl := Option.some.inj h
      exact ⟨iter, hlists, hu⟩
    · cases h
  · cases h

end ResponderBehavior
end Pallas.Network2
