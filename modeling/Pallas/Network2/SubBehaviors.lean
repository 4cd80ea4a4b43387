import Pallas.Lib.Outcome
import Pallas.Network2.PeerState

/-!
# The sub-behaviors of the initiator (`behavior/initiator`)

Each sub-behavior keeps its own data and reacts to what happens to a peer by changing the state of the peer and pushing
outputs. Its visitor methods are the functions below under their names; a method the source leaves at the default does
nothing and is not repeated here. Arithmetic on `usize` and `u32` is that of a build with overflow checks: where a
result does not fit, the call panics.
-/

namespace Pallas.Network2

/-- A call that returns no error, but may panic. -/
abbrev Call := Outcome Empty

/-- `a - b` on `usize`. -/
def usizeSub (a b : ℕ) : Call ℕ := if b ≤ a then .ok (a - b) else .panic

theorem usizeSub_eq_ok {a b c : ℕ} : usizeSub a b = .ok c ↔ b ≤ a ∧ a - b = c := by
  unfold usizeSub
  split <;> simp [*]

/-! ### Promotion (`promotion.rs`) -/

structure PromotionConfig where
  maxPeers : ℕ
  maxWarmPeers : ℕ
  maxHotPeers : ℕ
  maxErrorCount : UInt32
  deriving DecidableEq

def PromotionConfig.default : PromotionConfig where
  maxPeers := 100
  maxWarmPeers := 50
  maxHotPeers := 10
  maxErrorCount := 1

structure PromotionBehavior where
  config : PromotionConfig
  coldPeers : Finset PeerId
  warmPeers : Finset PeerId
  hotPeers : Finset PeerId
  bannedPeers : Finset PeerId
  deriving DecidableEq

namespace PromotionBehavior

def new (config : PromotionConfig) : PromotionBehavior where
  config := config
  coldPeers := ∅
  warmPeers := ∅
  hotPeers := ∅
  bannedPeers := ∅

def totalPeers (self : PromotionBehavior) : ℕ := self.coldPeers.card + self.warmPeers.card + self.hotPeers.card

def peerDeficit (self : PromotionBehavior) : Call ℕ := usizeSub self.config.maxPeers self.totalPeers

def requiredColdPeers (self : PromotionBehavior) : Call ℕ := usizeSub self.config.maxPeers self.totalPeers

def requiredWarmPeers (self : PromotionBehavior) : Call ℕ := usizeSub self.config.maxWarmPeers self.warmPeers.card

def requiredHotPeers (self : PromotionBehavior) : Call ℕ := usizeSub self.config.maxHotPeers self.hotPeers.card

def promoteWarmPeer (self : PromotionBehavior) (pid : PeerId) (peer : InitiatorState) :
    PromotionBehavior × InitiatorState :=
  if pid ∈ self.warmPeers then
    ({ self with warmPeers := self.warmPeers.erase pid, hotPeers := insert pid self.hotPeers },
      { peer with promotion := .hot })
  else (self, peer)

def promoteColdPeer (self : PromotionBehavior) (pid : PeerId) (peer : InitiatorState) :
    PromotionBehavior × InitiatorState :=
  if pid ∈ self.coldPeers then
    ({ self with coldPeers := self.coldPeers.erase pid, warmPeers := insert pid self.warmPeers },
      { peer with promotion := .warm })
  else (self, peer)

def banPeer (self : PromotionBehavior) (pid : PeerId) (peer : InitiatorState) : PromotionBehavior × InitiatorState :=
  ({ self with
      hotPeers := self.hotPeers.erase pid
      warmPeers := self.warmPeers.erase pid
      coldPeers := self.coldPeers.erase pid
      bannedPeers := insert pid self.bannedPeers },
    { peer with promotion := .banned })

def categorizePeer (self : PromotionBehavior) (pid : PeerId) (peer : InitiatorState) :
    Call (PromotionBehavior × InitiatorState) :=
  if peer.violation = true ∧ pid ∉ self.bannedPeers then .ok (self.banPeer pid peer)
  else if self.config.maxErrorCount < peer.errorCount ∧ pid ∉ self.bannedPeers then .ok (self.banPeer pid peer)
  else do
    let warm ← self.requiredWarmPeers
    if 0 < warm ∧ pid ∈ self.coldPeers then .ok (self.promoteColdPeer pid peer)
    else do
      let hot ← self.requiredHotPeers
      if 0 < hot ∧ pid ∈ self.warmPeers ∧ peer.isInitialized = true then .ok (self.promoteWarmPeer pid peer)
      else .ok (self, peer)

/-- Adds a newly discovered peer to the cold set if capacity allows. -/
def onPeerDiscovered (self : PromotionBehavior) (pid : PeerId) (state : InitiatorState) :
    Call (PromotionBehavior × InitiatorState) :=
  if pid ∈ self.bannedPeers then .ok (self, state)
  else do
    let cold ← self.requiredColdPeers
    if 0 < cold then .ok ({ self with coldPeers := insert pid self.coldPeers }, { state with promotion := .cold })
    else .ok (self, state)

def visitDiscovered := onPeerDiscovered
def visitHousekeeping := categorizePeer
def visitInboundMsg := categorizePeer

end PromotionBehavior

/-! ### Connection (`connection.rs`) -/

def needsConnection (peer : InitiatorState) : Bool :=
  match peer.connection with
  | .connected => false
  | .connecting => false
  | .initialized => false
  | .errored => false
  | _ => match peer.promotion with
    | .warm => true
    | .hot => true
    | .banned => false
    | .cold => false

def needsDisconnect (peer : InitiatorState) : Bool :=
  match peer.connection with
  | .errored => true
  | .new => false
  | .connecting => false
  | .disconnected => false
  | .connected | .initialized => match peer.promotion with
    | .cold => true
    | .banned => true
    | .warm => false
    | .hot => false

/-- `ConnectionBehavior` has metrics only. -/
structure ConnectionBehavior where
  deriving DecidableEq

namespace ConnectionBehavior

/-- The first half of `visit_housekeeping`. -/
def connect (pid : PeerId) (state : InitiatorState) (outbound : OutboundQueue) : InitiatorState × OutboundQueue :=
  if needsConnection state then
    ({ state with connection := .connecting }, outbound ++ [.interfaceCommand (.connect pid)])
  else (state, outbound)

/-- The second half of `visit_housekeeping`, and `visit_errored`. -/
def disconnect (pid : PeerId) (state : InitiatorState) (outbound : OutboundQueue) : OutboundQueue :=
  if needsDisconnect state then outbound ++ [.interfaceCommand (.disconnect pid)] else outbound

def visitHousekeeping (_ : ConnectionBehavior) (pid : PeerId) (state : InitiatorState) (outbound : OutboundQueue) :
    InitiatorState × OutboundQueue :=
  let (state, outbound) := connect pid state outbound
  (state, disconnect pid state outbound)

def visitErrored (_ : ConnectionBehavior) (pid : PeerId) (state : InitiatorState) (outbound : OutboundQueue) :
    OutboundQueue :=
  disconnect pid state outbound

end ConnectionBehavior

/-! ### Handshake (`handshake.rs`) -/

structure HandshakeBehavior where
  supportedVersion : Handshake.VersionTable
  deriving DecidableEq

/-- Version 13 on mainnet, with peer sharing. -/
def HandshakeBehavior.default : HandshakeBehavior where
  supportedVersion := ⟨[(13, {
    networkMagic := 764824073
    initiatorOnlyDiffusionMode := false
    peerSharing := some 1
    query := some false })]⟩

namespace HandshakeBehavior

/-- A handshake that is under way already fails the `assert!`. -/
def proposeHandshake (self : HandshakeBehavior) (pid : PeerId) (state : InitiatorState) (outbound : OutboundQueue) :
    Call OutboundQueue :=
  if state.handshake = .propose then
    .ok (outbound ++ [.interfaceCommand (.send pid (.handshake (.propose self.supportedVersion)))])
  else .panic

def checkConfirmation (pid : PeerId) (state : InitiatorState) (outbound : OutboundQueue) :
    InitiatorState × OutboundQueue :=
  match state.handshake with
  | .done (.accepted num data) =>
    ({ state with connection := .initialized }, outbound ++ [.externalEvent (.peerInitialized pid (num, data))])
  | _ => (state, outbound)

def visitConnected := proposeHandshake

def visitInboundMsg (_ : HandshakeBehavior) (pid : PeerId) (state : InitiatorState) (outbound : OutboundQueue) :
    InitiatorState × OutboundQueue :=
  if state.connection = .connected then checkConfirmation pid state outbound else (state, outbound)

end HandshakeBehavior

/-! ### Keep-alive (`keepalive.rs`) -/

structure KeepaliveBehavior where
  token : UInt16
  deriving DecidableEq

def KeepaliveBehavior.default : KeepaliveBehavior := ⟨65535⟩

def KeepaliveBehavior.visitHousekeeping (self : KeepaliveBehavior) (pid : PeerId) (state : InitiatorState)
    (outbound : OutboundQueue) : InitiatorState × OutboundQueue :=
  if state.isInitialized then (state.trySendRequest pid (.keepAlive (.keepAlive self.token)) outbound).2
  else (state, outbound)

/-! ### Discovery (`discovery.rs`) -/

namespace Peersharing

/-- `Ipv4Addr::to_string`. -/
def ipv4ToString (address : Vector UInt8 4) : String :=
  ".".intercalate (address.toList.map fun octet => toString octet.toNat)

/-- One segment of an `Ipv6Addr`, in hexadecimal without leading zeros. -/
def segmentToString (segment : UInt16) : String := String.ofList (Nat.toDigits 16 segment.toNat)

/-- Start and length of the first of the longest runs of zero segments. -/
def longestZeroes (segments : List UInt16) : ℕ × ℕ :=
  let step := fun (longest, current, i) segment =>
    if segment = 0 then
      let current : ℕ × ℕ := if current.2 = 0 then (i, 1) else (current.1, current.2 + 1)
      (if longest.2 < current.2 then current else longest, current, i + 1)
    else (longest, (0, 0), i + 1)
  (segments.foldl step ((0, 0), (0, 0), 0)).1

/-- `Ipv6Addr::to_string`. -/
def ipv6ToString (address : Vector UInt16 8) : String :=
  match address.toList with
  | [0, 0, 0, 0, 0, 0xffff, ab, cd] =>
    "::ffff:" ++ ipv4ToString #v[(ab >>> 8).toUInt8, ab.toUInt8, (cd >>> 8).toUInt8, cd.toUInt8]
  | segments =>
    let (start, len) := longestZeroes segments
    let show' := fun segs => ":".intercalate (segs.map segmentToString)
    if 1 < len then show' (segments.take start) ++ "::" ++ show' (segments.drop (start + len)) else show' segments

/-- `From<PeerAddress> for PeerId`. -/
def PeerAddress.toPeerId : PeerAddress → PeerId
  | .v4 address port => ⟨ipv4ToString address, port⟩
  | .v6 address port => ⟨ipv6ToString address, port⟩

end Peersharing

structure DiscoveryBehavior where
  highWaterMark : UInt8
  discovered : Finset PeerId
  deriving DecidableEq

def DiscoveryBehavior.default : DiscoveryBehavior := ⟨100, ∅⟩

namespace DiscoveryBehavior

def peerIsAvailable (peer : InitiatorState) : Bool :=
  peer.isInitialized && peer.supportsPeerSharing && peer.peersharing = .idle .empty

def needsMorePeers (self : DiscoveryBehavior) : Bool := self.discovered.card < self.highWaterMark.toNat

def requestPeers (self : DiscoveryBehavior) (pid : PeerId) (state : InitiatorState) (outbound : OutboundQueue) :
    Call (InitiatorState × OutboundQueue) := do
  let amount ← usizeSub self.highWaterMark.toNat self.discovered.card
  .ok (state.trySendRequest pid (.peerSharing (.shareRequest (UInt8.ofNat amount))) outbound).2

def visitHousekeeping (self : DiscoveryBehavior) (pid : PeerId) (state : InitiatorState) (outbound : OutboundQueue) :
    Call (InitiatorState × OutboundQueue) :=
  if !self.needsMorePeers then .ok (state, outbound)
  else if !peerIsAvailable state then .ok (state, outbound)
  else self.requestPeers pid state outbound

/-- Takes the addresses of a response, and asks this peer no more. -/
def tryTakePeers (self : DiscoveryBehavior) (peer : InitiatorState) : DiscoveryBehavior × InitiatorState :=
  match peer.peersharing with
  | .idle (.response peers) =>
    ({ self with discovered := self.discovered ∪ (peers.map (·.toPeerId)).toFinset },
      { peer with peersharing := .done })
  | _ => (self, peer)

def visitInboundMsg (self : DiscoveryBehavior) (state : InitiatorState) : DiscoveryBehavior × InitiatorState :=
  if state.isInitialized && state.supportsPeerSharing then self.tryTakePeers state else (self, state)

/-- Takes up to `count` discovered peers, in the order `iter` in which the set is iterated. -/
def drainNewPeers (self : DiscoveryBehavior) (iter : List PeerId) (count : ℕ) : List PeerId × DiscoveryBehavior :=
  let selected := iter.take count
  (selected, { self with discovered := self.discovered \ selected.toFinset })

end DiscoveryBehavior

/-! ### Block fetch (`blockfetch.rs`) -/

structure BlockFetchBehavior where
  requests : List BlockRange
  deriving DecidableEq

def BlockFetchBehavior.default : BlockFetchBehavior := ⟨[]⟩

namespace BlockFetchBehavior

def enqueue (self : BlockFetchBehavior) (request : BlockRange) : BlockFetchBehavior := ⟨self.requests ++ [request]⟩

def hasRequests (self : BlockFetchBehavior) : Bool := !self.requests.isEmpty

def peerIsAvailable (state : InitiatorState) : Bool :=
  state.connection = .initialized && state.blockfetch = .idle && !needsDisconnect state

/-- Sends the first queued range to a peer that is available and holds no unsent range request. -/
def serveNext (self : BlockFetchBehavior) (pid : PeerId) (state : InitiatorState) (outbound : OutboundQueue) :
    BlockFetchBehavior × InitiatorState × OutboundQueue :=
  if !peerIsAvailable state then (self, state, outbound)
  else match self.requests with
    | [] => (self, state, outbound)
    | request :: rest => match state.trySendRequest pid (.blockFetch (.requestRange request)) outbound with
      | (true, state, outbound) => (⟨rest⟩, state, outbound)
      | (false, state, outbound) => (self, state, outbound)

/-- The event comes from the state of the protocol, whatever message was the last. -/
def dispatchBlock (pid : PeerId) (state : InitiatorState) (outbound : OutboundQueue) : OutboundQueue :=
  match state.blockfetch with
  | .streaming (some block) => outbound ++ [.externalEvent (.blockBodyReceived pid block)]
  | _ => outbound

/-- The slot of a peer that is idle again is cleared. -/
def settleInFlight (state : InitiatorState) : InitiatorState :=
  match state.blockfetch with
  | .idle => { state with inFlight := none }
  | _ => state

def visitInboundMsg (self : BlockFetchBehavior) (pid : PeerId) (state : InitiatorState) (outbound : OutboundQueue) :
    BlockFetchBehavior × InitiatorState × OutboundQueue :=
  let outbound := dispatchBlock pid state outbound
  self.serveNext pid (settleInFlight state) outbound

def visitOutboundMsg (state : InitiatorState) : InitiatorState :=
  match state.blockfetch, state.inFlight with
  | .busy range, none => { state with inFlight := some range }
  | _, _ => state

def visitHousekeeping := serveNext

/-- What was in flight goes back to the front of the queue, and what was unsent in front of it. -/
def visitDisconnected (self : BlockFetchBehavior) (state : InitiatorState) : BlockFetchBehavior × InitiatorState :=
  let requests := state.inFlight.toList ++ self.requests
  let (range, state) := { state with inFlight := none }.takeUnsentRange
  (⟨range.toList ++ requests⟩, state)

end BlockFetchBehavior

/-! ### Chain sync (`chainsync.rs`) -/

structure ChainSyncBehavior where
  intersection : Option (List Point)
  deriving DecidableEq

def ChainSyncBehavior.default : ChainSyncBehavior := ⟨none⟩

namespace ChainSyncBehavior

def start (intersection : List Point) : ChainSyncBehavior := ⟨some intersection⟩

def peerIsSyncing (state : InitiatorState) : Bool := !state.chainsync.isNew

def peerShouldSync (state : InitiatorState) : Bool := state.connection = .initialized && state.promotion = .hot

def drainData (pid : PeerId) (state : InitiatorState) (outbound : OutboundQueue) : InitiatorState × OutboundQueue :=
  match state.chainsync.drain with
  | (none, _) => (state, outbound)
  | (some data, chainsync) =>
    let state := { state with chainsync }
    match data with
    | .content h tip => (state, outbound ++ [.externalEvent (.blockHeaderReceived pid h tip)])
    | .rollback point tip => (state, outbound ++ [.externalEvent (.rollbackReceived pid point tip)])
    | .intersection point tip => (state, outbound ++ [.externalEvent (.intersectionFound pid point tip)])
    | .noIntersection _ => ({ state with violation := true }, outbound)
    | _ => (state, outbound)

def visitInboundMsg (_ : ChainSyncBehavior) (pid : PeerId) (state : InitiatorState) (outbound : OutboundQueue) :
    InitiatorState × OutboundQueue :=
  if !peerIsSyncing state then (state, outbound)
  else
    let (state, outbound) := drainData pid state outbound
    state.trySendDeferredNext pid outbound

def visitTagged (_ : ChainSyncBehavior) (pid : PeerId) (state : InitiatorState) (outbound : OutboundQueue) :
    InitiatorState × OutboundQueue :=
  if !peerIsSyncing state then (state, outbound)
  else if !state.chainsync.isIdle then (state, outbound)
  else if state.continueSync then
    match state.trySendRequest pid (.chainSync .requestNext) outbound with
    | (true, state, outbound) => (state, outbound)
    | (false, state, outbound) => (state.deferSyncNext, outbound)
  else (state, outbound)

def visitHousekeeping (self : ChainSyncBehavior) (pid : PeerId) (state : InitiatorState) (outbound : OutboundQueue) :
    InitiatorState × OutboundQueue :=
  match self.intersection with
  | none => (state, outbound)
  | some intersection =>
    if !peerShouldSync state then (state, outbound)
    else if peerIsSyncing state then (state, outbound)
    else (state.trySendRequest pid (.chainSync (.findIntersect intersection)) outbound).2

end ChainSyncBehavior

/-! ### Leios notifications (`leiosnotify.rs`) -/

structure LeiosNotifyBehavior where
  deriving DecidableEq

namespace LeiosNotifyBehavior

def peerReady (state : InitiatorState) : Bool := state.isInitialized && state.supportsLeios

def dispatch (pid : PeerId) (state : InitiatorState) (outbound : OutboundQueue) : InitiatorState × OutboundQueue :=
  match state.leiosNotify.drain with
  | (some notification, leiosNotify) =>
    ({ state with leiosNotify }, outbound ++ [.externalEvent (.ebNotification pid notification)])
  | (none, leiosNotify) => ({ state with leiosNotify }, outbound)

def visitInboundMsg (_ : LeiosNotifyBehavior) := dispatch

def visitHousekeeping (_ : LeiosNotifyBehavior) (pid : PeerId) (state : InitiatorState) (outbound : OutboundQueue) :
    InitiatorState × OutboundQueue :=
  if !peerReady state then (state, outbound)
  else if state.leiosNotify = .idle none then (state.trySendRequest pid (.leiosNotify .requestNext) outbound).2
  else (state, outbound)

end LeiosNotifyBehavior

/-! ### Leios fetch (`leiosfetch.rs`) -/

inductive FetchRequest where
  | block (eb : EbId)
  | blockTxs (eb : EbId) (bitmaps : Leiosfetch.Bitmaps)
  deriving DecidableEq

def FetchRequest.requestMsg : FetchRequest → AnyMessage
  | .block point => .leiosFetch (.blockRequest point)
  | .blockTxs point bitmaps => .leiosFetch (.blockTxsRequest point bitmaps)

structure LeiosFetchBehavior where
  requests : List (PeerId × FetchRequest)
  deriving DecidableEq

def LeiosFetchBehavior.default : LeiosFetchBehavior := ⟨[]⟩

namespace LeiosFetchBehavior

def enqueue (self : LeiosFetchBehavior) (pid : PeerId) (request : FetchRequest) : LeiosFetchBehavior :=
  ⟨self.requests ++ [(pid, request)]⟩

def peerIsAvailable (state : InitiatorState) : Bool :=
  state.isInitialized && state.supportsLeios && state.leiosFetch = .idle none && !needsDisconnect state

/-- Sends the first queued request that targets `pid`. -/
def serveNext (self : LeiosFetchBehavior) (pid : PeerId) (state : InitiatorState) (outbound : OutboundQueue) :
    LeiosFetchBehavior × InitiatorState × OutboundQueue :=
  if !peerIsAvailable state then (self, state, outbound)
  else match self.requests.find? (·.1 = pid) with
    | none => (self, state, outbound)
    | some (_, request) => match state.trySendRequest pid request.requestMsg outbound with
      | (true, state, outbound) => (⟨self.requests.eraseP (·.1 = pid)⟩, state, outbound)
      | (false, state, outbound) => (self, state, outbound)

def purge (self : LeiosFetchBehavior) (pid : PeerId) : LeiosFetchBehavior := ⟨self.requests.filter (·.1 ≠ pid)⟩

def dispatch (pid : PeerId) (state : InitiatorState) (outbound : OutboundQueue) : InitiatorState × OutboundQueue :=
  match state.leiosFetch.drain with
  | (some (eb, response), leiosFetch) =>
    ({ state with leiosFetch }, outbound ++ [.externalEvent (.ebFetched pid eb response)])
  | (none, leiosFetch) => ({ state with leiosFetch }, outbound)

def visitInboundMsg (self : LeiosFetchBehavior) (pid : PeerId) (state : InitiatorState) (outbound : OutboundQueue) :
    LeiosFetchBehavior × InitiatorState × OutboundQueue :=
  let (state, outbound) := dispatch pid state outbound
  self.serveNext pid state outbound

def visitHousekeeping := serveNext
def visitDisconnected := purge
def visitErrored := purge

end LeiosFetchBehavior
end Pallas.Network2
