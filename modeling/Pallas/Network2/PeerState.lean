import Mathlib.Data.Finmap
import Pallas.Network2.Protocols

/-!
# What the initiator keeps of a peer (`behavior/initiator/mod.rs`, `behavior/unsent.rs`)

An `InitiatorState` has the peer's connection, its promotion tag, the state of each mini-protocol, and the requests
pushed to it whose `Sent` is still to come. A hash map is a `Finmap`: it has no order.
-/

namespace Pallas.Network2

structure PeerId where
  host : String
  port : UInt16
  deriving DecidableEq

/-- A range of blocks defined by start and end points. -/
abbrev BlockRange := Blockfetch.Range

inductive ConnectionState where
  | new
  | connecting
  | connected
  | initialized
  | disconnected
  | errored
  deriving DecidableEq

inductive PromotionTag where
  | cold
  | warm
  | hot
  | banned
  deriving DecidableEq

instance : Fintype PromotionTag := ⟨{.cold, .warm, .hot, .banned}, fun tag => by cases tag <;> decide⟩

inductive InterfaceCommand where
  | connect (pid : PeerId)
  | send (pid : PeerId) (msg : AnyMessage)
  | disconnect (pid : PeerId)
  deriving DecidableEq

/-- `InitiatorEvent`; `TxRequested` is never emitted. -/
inductive InitiatorEvent where
  | peerInitialized (pid : PeerId) (version : UInt64 × Handshake.VersionData)
  | intersectionFound (pid : PeerId) (point : Point) (tip : Chainsync.Tip)
  | blockHeaderReceived (pid : PeerId) (header : Chainsync.HeaderContent) (tip : Chainsync.Tip)
  | rollbackReceived (pid : PeerId) (point : Point) (tip : Chainsync.Tip)
  | blockBodyReceived (pid : PeerId) (body : Blockfetch.Body)
  | ebNotification (pid : PeerId) (notification : Leiosnotify.Notification)
  | ebFetched (pid : PeerId) (eb : EbId) (response : Leiosfetch.Response)
  deriving DecidableEq

inductive BehaviorOutput where
  | interfaceCommand (cmd : InterfaceCommand)
  | externalEvent (event : InitiatorEvent)
  deriving DecidableEq

/-- The outputs pushed and not yet polled, oldest first. -/
abbrev OutboundQueue := List BehaviorOutput

/-! ### Unsent requests -/

def AnyMessage.isRequest : AnyMessage → Bool
  | .keepAlive (.keepAlive _) => true
  | .peerSharing (.shareRequest _) => true
  | .blockFetch (.requestRange _) => true
  | .chainSync .requestNext => true
  | .chainSync (.findIntersect _) => true
  | .leiosNotify .requestNext => true
  | .leiosFetch (.blockRequest _) => true
  | .leiosFetch (.blockTxsRequest ..) => true
  | .txSubmission (.requestTxIds ..) => true
  | _ => false

/-- One peer's pushed requests whose `Sent` the protocol state has not applied, each under its own channel. -/
structure UnsentRequests where
  byChannel : Finmap fun _ : Channel => AnyMessage
  request : ∀ channel msg, byChannel.lookup channel = some msg → msg.channel = channel ∧ msg.isRequest = true

namespace UnsentRequests

def empty : UnsentRequests := ⟨∅, by simp⟩

/-- The source compares the two payloads, which are the CBOR texts of the messages. -/
def contains (self : UnsentRequests) (msg : AnyMessage) : Bool := self.byChannel.lookup msg.channel = some msg

/-- `insert` refuses a message that is no request, and a second one for its channel. -/
def insert (self : UnsentRequests) (msg : AnyMessage) : Option UnsentRequests :=
  if h : msg.isRequest = true ∧ self.byChannel.lookup msg.channel = none then
    some ⟨self.byChannel.insert msg.channel msg, fun channel m hm => by
      by_cases hc : channel = msg.channel
      · subst hc
        obtain rfl : msg = m := by simpa using hm
        exact ⟨rfl, h.1⟩
      · rw [Finmap.lookup_insert_of_ne _ hc] at hm
        exact self.request channel m hm⟩
  else none

def remove (self : UnsentRequests) (channel : Channel) : UnsentRequests :=
  ⟨self.byChannel.erase channel, fun c m hm => by
    by_cases hc : c = channel
    · subst hc
      rw [Finmap.lookup_erase] at hm
      cases hm
    · rw [Finmap.lookup_erase_ne hc] at hm
      exact self.request c m hm⟩

end UnsentRequests

/-! ### The state of a peer -/

structure InitiatorState where
  connection : ConnectionState
  promotion : PromotionTag
  handshake : Handshake.State
  keepalive : Keepalive.State
  peersharing : Peersharing.State
  blockfetch : Blockfetch.State
  chainsync : Chainsync.State
  txSubmission : Txsubmission.State
  leiosNotify : Leiosnotify.State
  leiosFetch : Leiosfetch.State
  violation : Bool
  errorCount : UInt32
  continueSync : Bool
  syncNextDeferred : Bool
  unsent : UnsentRequests
  inFlight : Option BlockRange

namespace InitiatorState

def new : InitiatorState where
  connection := .new
  promotion := .cold
  handshake := default
  keepalive := default
  peersharing := default
  blockfetch := default
  chainsync := default
  txSubmission := default
  leiosNotify := default
  leiosFetch := default
  violation := false
  errorCount := 0
  continueSync := false
  syncNextDeferred := false
  unsent := .empty
  inFlight := none

/-- Back to the initial state, except for the error count. -/
def reset (self : InitiatorState) : InitiatorState := { new with errorCount := self.errorCount }

def isInitialized (self : InitiatorState) : Bool := self.connection = .initialized

def version (self : InitiatorState) : Option Handshake.VersionData :=
  match self.handshake with
  | .done (.accepted _ data) => some data
  | _ => none

def supportsPeerSharing (self : InitiatorState) : Bool :=
  0 < (self.version.bind (·.peerSharing)).getD 0

def acceptedVersion (self : InitiatorState) : Option UInt64 :=
  match self.handshake with
  | .done (.accepted num _) => some num
  | _ => none

def supportsLeios (self : InitiatorState) : Bool :=
  match self.acceptedVersion with
  | some v => Handshake.leiosMinVersion ≤ v
  | none => false

/-- A message that is not valid leaves the state and sets `violation`. -/
def applyMsg (self : InitiatorState) : AnyMessage → InitiatorState
  | .handshake msg => match self.handshake.apply msg with
    | .ok s => { self with handshake := s }
    | .error _ => { self with violation := true }
  | .keepAlive msg => match self.keepalive.apply msg with
    | .ok s => { self with keepalive := s }
    | .error _ => { self with violation := true }
  | .peerSharing msg => match self.peersharing.apply msg with
    | .ok s => { self with peersharing := s }
    | .error _ => { self with violation := true }
  | .blockFetch msg => match self.blockfetch.apply msg with
    | .ok s => { self with blockfetch := s }
    | .error _ => { self with violation := true }
  | .chainSync msg => match self.chainsync.apply msg with
    | .ok s => { self with chainsync := s }
    | .error _ => { self with violation := true }
  | .txSubmission msg => match self.txSubmission.apply msg with
    | .ok s => { self with txSubmission := s }
    | .error _ => { self with violation := true }
  | .leiosNotify msg => match self.leiosNotify.apply msg with
    | .ok s => { self with leiosNotify := s }
    | .error _ => { self with violation := true }
  | .leiosFetch msg => match self.leiosFetch.apply msg with
    | .ok s => { self with leiosFetch := s }
    | .error _ => { self with violation := true }

/-! ### Sending requests -/

def canApply (self : InitiatorState) : AnyMessage → Bool
  | .keepAlive m => (self.keepalive.apply m).isOk
  | .peerSharing m => (self.peersharing.apply m).isOk
  | .blockFetch m => (self.blockfetch.apply m).isOk
  | .chainSync m => (self.chainsync.apply m).isOk
  | .leiosNotify m => (self.leiosNotify.apply m).isOk
  | .leiosFetch m => (self.leiosFetch.apply m).isOk
  | .handshake _ => false
  | .txSubmission _ => false

/-- Pushes `msg` when it is a request, its channel has no unsent request, and the protocol state can apply it. The
result says whether it did. -/
def trySendRequest (self : InitiatorState) (pid : PeerId) (msg : AnyMessage) (outbound : OutboundQueue) :
    Bool × InitiatorState × OutboundQueue :=
  if self.canApply msg then
    match self.unsent.insert msg with
    | some unsent => (true, { self with unsent }, outbound ++ [.interfaceCommand (.send pid msg)])
    | none => (false, self, outbound)
  else (false, self, outbound)

def deferSyncNext (self : InitiatorState) : InitiatorState := { self with syncNextDeferred := true }

def trySendDeferredNext (self : InitiatorState) (pid : PeerId) (outbound : OutboundQueue) :
    InitiatorState × OutboundQueue :=
  if self.syncNextDeferred then
    match self.trySendRequest pid (.chainSync .requestNext) outbound with
    | (true, state, out) => ({ state with syncNextDeferred := false }, out)
    | (false, state, out) => (state, out)
  else (self, outbound)

/-- The block range that is unsent. -/
def unsentRange (self : InitiatorState) : Option BlockRange :=
  match self.unsent.byChannel.lookup Blockfetch.channelId with
  | some (.blockFetch (.requestRange range)) => some range
  | _ => none

def takeUnsentRange (self : InitiatorState) : Option BlockRange × InitiatorState :=
  (self.unsentRange, { self with unsent := self.unsent.remove Blockfetch.channelId })

/-- Drops the unsent copy of `msg` when the protocol state before `msg` can apply it. -/
def clearUnsent (self : InitiatorState) (msg : AnyMessage) : InitiatorState :=
  if self.unsent.contains msg && self.canApply msg then { self with unsent := self.unsent.remove msg.channel } else self

end InitiatorState
end Pallas.Network2
