import Pallas.Lib.Runs
import Pallas.Network2.SubBehaviors

/-!
# The initiator (`behavior/initiator/mod.rs`)

`InitiatorBehavior` owns the peers and the sub-behaviors. An interface event or a command finds the peer it is about,
changes its state, and has every sub-behavior visit it, in the order of `all_visitors!`. `handleIo` and `execute` are the
two entry points, and `Step` is one of them taken with the outbound queue polled empty.

`peers` and `discovered` are hash tables. In what order they are iterated is not known, so `Iteration` is an argument of
the calls that iterate, and `Step` takes any.
-/

namespace Pallas.Network2

/-- The sub-behaviors, and the queue they push to. -/
structure SubBehaviors where
  promotion : PromotionBehavior
  connection : ConnectionBehavior
  handshake : HandshakeBehavior
  keepalive : KeepaliveBehavior
  discovery : DiscoveryBehavior
  blockfetch : BlockFetchBehavior
  chainsync : ChainSyncBehavior
  leiosnotify : LeiosNotifyBehavior
  leiosfetch : LeiosFetchBehavior
  outbound : OutboundQueue

/-! ### `all_visitors!` -/

namespace SubBehaviors

def visitConnected (self : SubBehaviors) (pid : PeerId) (state : InitiatorState) :
    Call (SubBehaviors × InitiatorState) := do
  let outbound ← self.handshake.visitConnected pid state self.outbound
  .ok ({ self with outbound }, state)

def visitDisconnected (self : SubBehaviors) (pid : PeerId) (state : InitiatorState) : SubBehaviors × InitiatorState :=
  let (blockfetch, state) := self.blockfetch.visitDisconnected state
  ({ self with blockfetch, leiosfetch := self.leiosfetch.visitDisconnected pid }, state)

def visitErrored (self : SubBehaviors) (pid : PeerId) (state : InitiatorState) : SubBehaviors × InitiatorState :=
  let outbound := self.connection.visitErrored pid state self.outbound
  ({ self with outbound, leiosfetch := self.leiosfetch.visitErrored pid }, state)

def visitDiscovered (self : SubBehaviors) (pid : PeerId) (state : InitiatorState) :
    Call (SubBehaviors × InitiatorState) := do
  let (promotion, state) ← self.promotion.visitDiscovered pid state
  .ok ({ self with promotion }, state)

def visitInboundMsg (self : SubBehaviors) (pid : PeerId) (state : InitiatorState) :
    Call (SubBehaviors × InitiatorState) := do
  let (promotion, state) ← self.promotion.visitInboundMsg pid state
  let (state, outbound) := self.handshake.visitInboundMsg pid state self.outbound
  let (discovery, state) := self.discovery.visitInboundMsg state
  let (blockfetch, state, outbound) := self.blockfetch.visitInboundMsg pid state outbound
  let (state, outbound) := self.chainsync.visitInboundMsg pid state outbound
  let (state, outbound) := self.leiosnotify.visitInboundMsg pid state outbound
  let (leiosfetch, state, outbound) := self.leiosfetch.visitInboundMsg pid state outbound
  .ok ({ self with promotion, discovery, blockfetch, leiosfetch, outbound }, state)

def visitOutboundMsg (self : SubBehaviors) (state : InitiatorState) : SubBehaviors × InitiatorState :=
  (self, BlockFetchBehavior.visitOutboundMsg state)

def visitTagged (self : SubBehaviors) (pid : PeerId) (state : InitiatorState) : SubBehaviors × InitiatorState :=
  let (state, outbound) := self.chainsync.visitTagged pid state self.outbound
  ({ self with outbound }, state)

def visitHousekeeping (self : SubBehaviors) (pid : PeerId) (state : InitiatorState) :
    Call (SubBehaviors × InitiatorState) := do
  let (promotion, state) ← self.promotion.visitHousekeeping pid state
  let (state, outbound) := self.connection.visitHousekeeping pid state self.outbound
  let (state, outbound) := self.keepalive.visitHousekeeping pid state outbound
  let (state, outbound) ← self.discovery.visitHousekeeping pid state outbound
  let (blockfetch, state, outbound) := self.blockfetch.visitHousekeeping pid state outbound
  let (state, outbound) := self.chainsync.visitHousekeeping pid state outbound
  let (state, outbound) := self.leiosnotify.visitHousekeeping pid state outbound
  let (leiosfetch, state, outbound) := self.leiosfetch.visitHousekeeping pid state outbound
  .ok ({ self with promotion, blockfetch, leiosfetch, outbound }, state)

end SubBehaviors

/-! ### Events and commands -/

inductive InterfaceEvent where
  | connected (pid : PeerId)
  | disconnected (pid : PeerId)
  | sent (pid : PeerId) (msg : AnyMessage)
  | recv (pid : PeerId) (msgs : List AnyMessage)
  | error (pid : PeerId) (text : String)
  | idle
  deriving DecidableEq

inductive InitiatorCommand where
  | includePeer (pid : PeerId)
  | housekeeping
  | startSync (points : List Point)
  | continueSync (pid : PeerId)
  | requestBlocks (range : BlockRange)
  | sendTx (pid : PeerId) (id : Txsubmission.EraTxId) (body : Txsubmission.EraTxBody)
  | fetchEb (pid : PeerId) (eb : EbId)
  | fetchEbTxs (pid : PeerId) (eb : EbId) (bitmaps : Leiosfetch.Bitmaps)
  | banPeer (pid : PeerId)
  | demotePeer (pid : PeerId)
  deriving DecidableEq

/-- What the initiator is called with. -/
inductive Input where
  | io (event : InterfaceEvent)
  | command (cmd : InitiatorCommand)
  deriving DecidableEq

/-- The order in which one call iterates `peers` and `discovered`. -/
structure Iteration where
  peers : List PeerId
  discovered : List PeerId

structure InitiatorBehavior extends SubBehaviors where
  peers : Finmap fun _ : PeerId => InitiatorState

namespace InitiatorBehavior

/-- An initiator without peers, with the given configuration. -/
def new (promotion : PromotionConfig) (handshake : HandshakeBehavior) : InitiatorBehavior where
  promotion := .new promotion
  connection := {}
  handshake := handshake
  keepalive := .default
  discovery := .default
  blockfetch := .default
  chainsync := .default
  leiosnotify := {}
  leiosfetch := .default
  outbound := []
  peers := ∅

/-- `self.peers.entry(pid).and_modify(..)`. -/
def modifyPeer (self : InitiatorBehavior) (pid : PeerId)
    (f : SubBehaviors → InitiatorState → Call (SubBehaviors × InitiatorState)) : Call InitiatorBehavior :=
  match self.peers.lookup pid with
  | none => .ok self
  | some state => do
    let (subs, state) ← f self.toSubBehaviors state
    .ok { subs with peers := self.peers.insert pid state }

def onInboundMsg (self : InitiatorBehavior) (pid : PeerId) (msg : AnyMessage) : Call InitiatorBehavior :=
  self.modifyPeer pid fun subs state => subs.visitInboundMsg pid (state.applyMsg msg)

def onOutboundMsg (self : InitiatorBehavior) (pid : PeerId) (msg : AnyMessage) : Call InitiatorBehavior :=
  self.modifyPeer pid fun subs state => .ok (subs.visitOutboundMsg ((state.clearUnsent msg).applyMsg msg))

def onConnected (self : InitiatorBehavior) (pid : PeerId) : Call InitiatorBehavior :=
  self.modifyPeer pid fun subs state => subs.visitConnected pid { state with connection := .connected }

/-- Sends one queued block range to each available peer while ranges remain. -/
def serveBlockFetch (self : InitiatorBehavior) (iter : List PeerId) : Call InitiatorBehavior :=
  Outcome.fold (fun (self : InitiatorBehavior) pid =>
    if !self.blockfetch.hasRequests then .ok self
    else self.modifyPeer pid fun subs state =>
      let (blockfetch, state, outbound) := subs.blockfetch.serveNext pid state subs.outbound
      .ok ({ subs with blockfetch, outbound }, state)) self iter

def onDisconnected (self : InitiatorBehavior) (iter : List PeerId) (pid : PeerId) : Call InitiatorBehavior := do
  let self ← self.modifyPeer pid fun subs state =>
    let (subs, state) := subs.visitDisconnected pid { state with connection := .disconnected }
    .ok (subs, state.reset)
  self.serveBlockFetch iter

/-- `error_count += 1` on `u32`. -/
def countError (state : InitiatorState) : Call InitiatorState :=
  if state.errorCount.toNat + 1 < 2 ^ 32 then .ok { state with errorCount := state.errorCount + 1 } else .panic

def onErrored (self : InitiatorBehavior) (pid : PeerId) : Call InitiatorBehavior :=
  self.modifyPeer pid fun subs state => do
    let state ← countError { state with connection := .errored }
    .ok (subs.visitErrored pid state)

def onTagged (self : InitiatorBehavior) (pid : PeerId) (tagger : InitiatorState → InitiatorState) :
    Call InitiatorBehavior :=
  self.modifyPeer pid fun subs state => .ok (subs.visitTagged pid (tagger state))

def onDiscovered (self : InitiatorBehavior) (pid : PeerId) : Call InitiatorBehavior := do
  let (subs, state) ← self.toSubBehaviors.visitDiscovered pid .new
  .ok { subs with peers := self.peers.insert pid state }

def moveDiscoveredIntoPromotion (self : InitiatorBehavior) (iter : List PeerId) : Call InitiatorBehavior := do
  let deficit ← self.promotion.peerDeficit
  if deficit = 0 then .ok self
  else
    let (new, discovery) := self.discovery.drainNewPeers iter deficit
    Outcome.fold (fun (self : InitiatorBehavior) pid =>
      if pid ∈ self.peers then .ok self else self.onDiscovered pid) { self with discovery } new

def housekeeping (self : InitiatorBehavior) (iter : Iteration) : Call InitiatorBehavior := do
  let self ← Outcome.fold (fun (self : InitiatorBehavior) pid =>
    self.modifyPeer pid fun subs state => subs.visitHousekeeping pid state) self iter.peers
  self.moveDiscoveredIntoPromotion iter.discovered

def serveLeiosFetch (self : InitiatorBehavior) (pid : PeerId) : Call InitiatorBehavior :=
  self.modifyPeer pid fun subs state =>
    let (leiosfetch, state, outbound) := subs.leiosfetch.serveNext pid state subs.outbound
    .ok ({ subs with leiosfetch, outbound }, state)

/-- `for msg in msgs { self.on_inbound_msg(pid, msg); }`. -/
def onInboundMsgs (self : InitiatorBehavior) (pid : PeerId) (msgs : List AnyMessage) : Call InitiatorBehavior :=
  Outcome.fold (fun (self : InitiatorBehavior) msg => self.onInboundMsg pid msg) self msgs

def handleIo (self : InitiatorBehavior) (iter : Iteration) : InterfaceEvent → Call InitiatorBehavior
  | .connected pid => self.onConnected pid
  | .disconnected pid => self.onDisconnected iter.peers pid
  | .recv pid msgs => self.onInboundMsgs pid msgs
  | .sent pid msg => self.onOutboundMsg pid msg
  | .error pid _ => self.onErrored pid
  | .idle => self.housekeeping iter

/-- The condition on which `IncludePeer` starts the peer afresh. -/
def isNewPeer (self : InitiatorBehavior) (pid : PeerId) : Bool :=
  (self.peers.lookup pid).all fun state => state.connection = .new

def execute (self : InitiatorBehavior) (iter : Iteration) : InitiatorCommand → Call InitiatorBehavior
  | .includePeer pid => if self.isNewPeer pid then self.onDiscovered pid else .ok self
  | .startSync points => .ok { self with chainsync := .start points }
  | .continueSync pid => self.onTagged pid fun state => { state with continueSync := true }
  | .requestBlocks range =>
    { self with blockfetch := self.blockfetch.enqueue range : InitiatorBehavior }.serveBlockFetch iter.peers
  | .housekeeping => self.housekeeping iter
  | .banPeer pid => self.onTagged pid fun state => { state with promotion := .banned }
  | .demotePeer pid => self.onTagged pid fun state => { state with promotion := .cold }
  | .sendTx .. => .ok self
  | .fetchEb pid point =>
    { self with leiosfetch := self.leiosfetch.enqueue pid (.block point) : InitiatorBehavior }.serveLeiosFetch pid
  | .fetchEbTxs pid point bitmaps =>
    { self with
      leiosfetch := self.leiosfetch.enqueue pid (.blockTxs point bitmaps) : InitiatorBehavior }.serveLeiosFetch pid

def handle (self : InitiatorBehavior) (iter : Iteration) : Input → Call InitiatorBehavior
  | .io event => self.handleIo iter event
  | .command cmd => self.execute iter cmd

/-- `iter` lists the keys of both tables, each once. -/
structure Lists (self : InitiatorBehavior) (iter : Iteration) : Prop where
  nodup_peers : iter.peers.Nodup
  peers : iter.peers.toFinset = self.peers.keys
  nodup_discovered : iter.discovered.Nodup
  discovered : iter.discovered.toFinset = self.discovery.discovered

instance (self : InitiatorBehavior) (iter : Iteration) : Decidable (self.Lists iter) :=
  decidable_of_iff (iter.peers.Nodup ∧ iter.peers.toFinset = self.peers.keys ∧ iter.discovered.Nodup ∧
      iter.discovered.toFinset = self.discovery.discovered)
    ⟨fun ⟨h1, h2, h3, h4⟩ => ⟨h1, h2, h3, h4⟩, fun ⟨h1, h2, h3, h4⟩ => ⟨h1, h2, h3, h4⟩⟩

/-- An initiator to which nothing has happened, in any configuration. -/
def Init (s : InitiatorBehavior) : Prop := ∃ promotion handshake, s = new promotion handshake

/-- One input handled with the queue empty, so that the queue of `t` has the outputs of this input. -/
def Step (s : InitiatorBehavior) (input : Input) (t : InitiatorBehavior) : Prop :=
  ∃ iter, s.Lists iter ∧ { s with outbound := [] : InitiatorBehavior }.handle iter input = .ok t

/-- The steps of an initiator that is given these inputs, if every iteration lists the tables as they are then. -/
def play (s : InitiatorBehavior) :
    List (Iteration × Input) → Call (List (Transition InitiatorBehavior Input) × InitiatorBehavior)
  | [] => .ok ([], s)
  | (iter, input) :: script =>
    if s.Lists iter then do
      let t ← { s with outbound := [] : InitiatorBehavior }.handle iter input
      let (tr, u) ← t.play script
      .ok (⟨s, input, t⟩ :: tr, u)
    else .panic

theorem play_run {s t : InitiatorBehavior} {script : List (Iteration × Input)}
    {pre tr : List (Transition InitiatorBehavior Input)} (hs : Run Init Step pre s) (h : s.play script = .ok (tr, t)) :
    Run Init Step (pre ++ tr) t := by
  induction script generalizing s pre tr with
  | nil =>
    obtain ⟨rfl, rfl⟩ := Prod.mk.inj (Outcome.ok.inj h)
    simpa using hs
  | cons line script ih =>
    obtain ⟨iter, input⟩ := line
    rw [play] at h
    split at h
    · next hlists =>
      obtain ⟨u, hu, h⟩ := Outcome.bind_eq_ok.1 h
      obtain ⟨⟨rest, _⟩, hrest, h⟩ := Outcome.bind_eq_ok.1 h
      obtain ⟨rfl, rfl⟩ := Prod.mk.inj (Outcome.ok.inj h)
      simpa using ih (hs.next ⟨iter, hlists, hu⟩) hrest
    · cases h

/-- A test of the run that a script gives. -/
def plays (s : InitiatorBehavior) (script : List (Iteration × Input))
    (test : List (Transition InitiatorBehavior Input) → InitiatorBehavior → Bool) : Bool :=
  match s.play script with
  | .ok (tr, t) => test tr t
  | _ => false

theorem exists_run_of_plays {s : InitiatorBehavior} {script : List (Iteration × Input)}
    {test : List (Transition InitiatorBehavior Input) → InitiatorBehavior → Bool} (hs : s.Init)
    (h : s.plays script test = true) : ∃ tr t, Run Init Step tr t ∧ test tr t = true := by
  unfold plays at h
  split at h
  · next tr t hplay => exact ⟨tr, t, by simpa using play_run (.start hs) hplay, h⟩
  · cases h

end InitiatorBehavior
end Pallas.Network2
