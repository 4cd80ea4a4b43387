import Pallas.Network2.PeerState

/-!
# Who may send

In each state of a mini-protocol one of the two parties has agency, or none has, and each message is one that the client
sends or one that the server sends. `apply` does not ask for the sender, but it takes only messages of the party that has
agency: a message that is taken is one the other party could not have sent in that state (`agency_of_apply`).

`ProtocolStates` are the states of all protocols of one connection. Both behaviors keep them in the state of a peer.
-/

namespace Pallas.Network2

/-- The client of a mini-protocol is the side that opened the connection. -/
inductive Party where
  | client
  | server
  deriving DecidableEq

namespace Handshake

def Message.sender : Message → Party
  | .propose _ => .client
  | .accept .. => .server
  | .refuse _ => .server
  | .queryReply _ => .server

def State.agency : State → Option Party
  | .propose => some .client
  | .confirm _ => some .server
  | .done _ => none

theorem State.agency_of_apply {s t : State} {msg : Message} (h : s.apply msg = .ok t) : s.agency = some msg.sender := by
  cases s <;> cases msg <;> first | rfl | cases h

end Handshake

namespace Keepalive

def Message.sender : Message → Party
  | .keepAlive _ => .client
  | .responseKeepAlive _ => .server
  | .done => .client

def State.agency : State → Option Party
  | .client _ => some .client
  | .server _ => some .server
  | .done => none

theorem State.agency_of_apply {s t : State} {msg : Message} (h : s.apply msg = .ok t) : s.agency = some msg.sender := by
  cases s <;> cases msg <;> first | rfl | cases h

end Keepalive

namespace Peersharing

def Message.sender : Message → Party
  | .shareRequest _ => .client
  | .sharePeers _ => .server
  | .done => .client

def State.agency : State → Option Party
  | .idle _ => some .client
  | .busy _ => some .server
  | .done => none

theorem State.agency_of_apply {s t : State} {msg : Message} (h : s.apply msg = .ok t) : s.agency = some msg.sender := by
  cases s <;> cases msg <;> first | rfl | cases h

end Peersharing

namespace Blockfetch

def Message.sender : Message → Party
  | .requestRange _ => .client
  | .clientDone => .client
  | .startBatch => .server
  | .noBlocks => .server
  | .block _ => .server
  | .batchDone => .server

def State.agency : State → Option Party
  | .idle => some .client
  | .busy _ => some .server
  | .streaming _ => some .server
  | .done => none

theorem State.agency_of_apply {s t : State} {msg : Message} (h : s.apply msg = .ok t) : s.agency = some msg.sender := by
  cases s <;> cases msg <;> first | rfl | cases h

end Blockfetch

namespace Chainsync

def Message.sender : Message → Party
  | .requestNext => .client
  | .awaitReply => .server
  | .rollForward .. => .server
  | .rollBackward .. => .server
  | .findIntersect _ => .client
  | .intersectFound .. => .server
  | .intersectNotFound _ => .server
  | .done => .client

def State.agency : State → Option Party
  | .idle _ => some .client
  | .canAwait => some .server
  | .mustReply => some .server
  | .intersect _ => some .server
  | .done => none

theorem State.agency_of_apply {s t : State} {msg : Message} (h : s.apply msg = .ok t) : s.agency = some msg.sender := by
  cases s <;> cases msg <;> first | rfl | cases h

end Chainsync

/-- Here the server asks and the client replies. -/
def Txsubmission.Message.sender : Message → Party
  | .init => .client
  | .requestTxIds .. => .server
  | .replyTxIds _ => .client
  | .requestTxs _ => .server
  | .replyTxs _ => .client
  | .done => .client

def Txsubmission.State.agency : State → Option Party
  | .init => some .client
  | .idle => some .server
  | .txIdsNonBlocking => some .client
  | .txIdsBlocking => some .client
  | .txs _ => some .client
  | .done => none

theorem Txsubmission.State.agency_of_apply {s t : State} {msg : Message} (h : s.apply msg = .ok t) :
    s.agency = some msg.sender := by
  cases s <;> cases msg <;> first | rfl | cases h

namespace Leiosnotify

def Message.sender : Message → Party
  | .done => .server
  | .quit => .client
  | .canceled => .server
  | .requestNext => .client
  | .blockAnnouncement _ => .server
  | .blockOffer .. => .server
  | .blockTxsOffer _ => .server
  | .votes _ => .server

def State.agency : State → Option Party
  | .idle _ => some .client
  | .busy => some .server
  | .quit => some .server
  | .done => none

theorem State.agency_of_apply {s t : State} {msg : Message} (h : s.apply msg = .ok t) : s.agency = some msg.sender := by
  cases s <;> cases msg <;> first | rfl | cases h

end Leiosnotify

namespace Leiosfetch

def Message.sender : Message → Party
  | .done => .client
  | .blockRequest _ => .client
  | .block _ => .server
  | .blockTxsRequest .. => .client
  | .blockTxs _ => .server

def State.agency : State → Option Party
  | .idle _ => some .client
  | .awaitingBlock _ => some .server
  | .awaitingBlockTxs .. => some .server
  | .done => none

theorem State.agency_of_apply {s t : State} {msg : Message} (h : s.apply msg = .ok t) : s.agency = some msg.sender := by
  cases s <;> cases msg <;> first | rfl | cases h

end Leiosfetch

def AnyMessage.sender : AnyMessage → Party
  | .handshake msg => msg.sender
  | .keepAlive msg => msg.sender
  | .chainSync msg => msg.sender
  | .peerSharing msg => msg.sender
  | .blockFetch msg => msg.sender
  | .txSubmission msg => msg.sender
  | .leiosNotify msg => msg.sender
  | .leiosFetch msg => msg.sender

/-! ### All protocols of a connection -/

/-- The state after a message: one that is not valid leaves it. -/
def advance {σ μ : Type} (apply : σ → μ → Except ProtocolError σ) (s : σ) (msg : μ) : σ :=
  match apply s msg with
  | .ok t => t
  | .error _ => s

structure ProtocolStates where
  handshake : Handshake.State
  keepalive : Keepalive.State
  peersharing : Peersharing.State
  blockfetch : Blockfetch.State
  chainsync : Chainsync.State
  txSubmission : Txsubmission.State
  leiosNotify : Leiosnotify.State
  leiosFetch : Leiosfetch.State
  deriving DecidableEq

namespace ProtocolStates

/-- Those of a new connection. -/
def new : ProtocolStates := ⟨default, default, default, default, default, default, default, default⟩

/-- The state of its protocol takes the message. -/
def accepts (self : ProtocolStates) : AnyMessage → Bool
  | .handshake msg => (self.handshake.apply msg).isOk
  | .keepAlive msg => (self.keepalive.apply msg).isOk
  | .chainSync msg => (self.chainsync.apply msg).isOk
  | .peerSharing msg => (self.peersharing.apply msg).isOk
  | .blockFetch msg => (self.blockfetch.apply msg).isOk
  | .txSubmission msg => (self.txSubmission.apply msg).isOk
  | .leiosNotify msg => (self.leiosNotify.apply msg).isOk
  | .leiosFetch msg => (self.leiosFetch.apply msg).isOk

/-- The states after a message: one that is not valid leaves them. -/
def next (self : ProtocolStates) : AnyMessage → ProtocolStates
  | .handshake msg => { self with handshake := advance Handshake.State.apply self.handshake msg }
  | .keepAlive msg => { self with keepalive := advance Keepalive.State.apply self.keepalive msg }
  | .chainSync msg => { self with chainsync := advance Chainsync.State.apply self.chainsync msg }
  | .peerSharing msg => { self with peersharing := advance Peersharing.State.apply self.peersharing msg }
  | .blockFetch msg => { self with blockfetch := advance Blockfetch.State.apply self.blockfetch msg }
  | .txSubmission msg => { self with txSubmission := advance Txsubmission.State.apply self.txSubmission msg }
  | .leiosNotify msg => { self with leiosNotify := advance Leiosnotify.State.apply self.leiosNotify msg }
  | .leiosFetch msg => { self with leiosFetch := advance Leiosfetch.State.apply self.leiosFetch msg }

/-- Who has agency in the protocol of the message. -/
def agency (self : ProtocolStates) : AnyMessage → Option Party
  | .handshake _ => self.handshake.agency
  | .keepAlive _ => self.keepalive.agency
  | .chainSync _ => self.chainsync.agency
  | .peerSharing _ => self.peersharing.agency
  | .blockFetch _ => self.blockfetch.agency
  | .txSubmission _ => self.txSubmission.agency
  | .leiosNotify _ => self.leiosNotify.agency
  | .leiosFetch _ => self.leiosFetch.agency

variable {ps : ProtocolStates} {msg msg' : AnyMessage}

theorem agency_of_accepts (h : ps.accepts msg = true) : ps.agency msg = some msg.sender := by
  have hok {α : Type} {x : Except ProtocolError α} (hx : x.isOk = true) : ∃ a, x = .ok a := by
    cases x with
    | ok a => exact ⟨a, rfl⟩
    | error e => cases hx
  cases msg <;> obtain ⟨s, hs⟩ := hok h
  · exact Handshake.State.agency_of_apply hs
  · exact Keepalive.State.agency_of_apply hs
  · exact Chainsync.State.agency_of_apply hs
  · exact Peersharing.State.agency_of_apply hs
  · exact Blockfetch.State.agency_of_apply hs
  · exact Txsubmission.State.agency_of_apply hs
  · exact Leiosnotify.State.agency_of_apply hs
  · exact Leiosfetch.State.agency_of_apply hs

theorem next_accepts_other (hc : msg'.channel ≠ msg.channel) : (ps.next msg).accepts msg' = ps.accepts msg' := by
  cases msg <;> cases msg' <;> first | rfl | exact absurd (Eq.refl _) hc

theorem agency_congr (hc : msg'.channel = msg.channel) : ps.agency msg' = ps.agency msg := by
  cases msg <;> cases msg' <;> first | rfl | simp [AnyMessage.channel, Handshake.channelId, Keepalive.channelId,
    Chainsync.channelId, Peersharing.channelId, Blockfetch.channelId, Txsubmission.channelId, Leiosnotify.channelId,
    Leiosfetch.channelId] at hc

/-- A message that is not taken changes nothing. -/
theorem next_of_not_accepts (h : ps.accepts msg = false) : ps.next msg = ps := by
  have hstay {σ μ : Type} {apply : σ → μ → Except ProtocolError σ} {s : σ} {m : μ} (hs : (apply s m).isOk = false) :
      advance apply s m = s := by
    unfold advance
    cases hx : apply s m with
    | ok t => simp [hx, Except.isOk, Except.toBool] at hs
    | error e => rfl
  cases msg <;> simp only [next] <;> rw [hstay h]

end ProtocolStates

namespace InitiatorState

/-- The states of the protocols of a peer. -/
def protocols (st : InitiatorState) : ProtocolStates where
  handshake := st.handshake
  keepalive := st.keepalive
  peersharing := st.peersharing
  blockfetch := st.blockfetch
  chainsync := st.chainsync
  txSubmission := st.txSubmission
  leiosNotify := st.leiosNotify
  leiosFetch := st.leiosFetch

theorem applyMsg_protocols (st : InitiatorState) (msg : AnyMessage) :
    (st.applyMsg msg).protocols = st.protocols.next msg := by
  cases msg <;> simp only [applyMsg, ProtocolStates.next, advance, protocols] <;> split <;> simp [*]

theorem applyMsg_violation (st : InitiatorState) (msg : AnyMessage) :
    (st.applyMsg msg).violation = (st.violation || !st.protocols.accepts msg) := by
  cases msg <;> simp only [applyMsg, ProtocolStates.accepts, protocols] <;> split <;>
    simp [*, Except.isOk, Except.toBool]

theorem applyMsg_of_not_accepts {st : InitiatorState} {msg : AnyMessage} (h : st.protocols.accepts msg = false) :
    st.applyMsg msg = { st with violation := true } := by
  cases msg <;> simp only [applyMsg] <;> split
  all_goals first
    | rfl
    | next hok => simp [ProtocolStates.accepts, protocols, hok, Except.isOk, Except.toBool] at h

/-- Requests are never made in the handshake, nor in tx-submission. -/
theorem canApply_eq (st : InitiatorState) (msg : AnyMessage) :
    st.canApply msg = (st.protocols.accepts msg && msg.channel != Handshake.channelId &&
      msg.channel != Txsubmission.channelId) := by
  cases msg with
  | handshake m => simp [canApply, AnyMessage.channel]
  | txSubmission m => simp [canApply, AnyMessage.channel]
  | _ => simp [canApply, ProtocolStates.accepts, protocols, AnyMessage.channel, Handshake.channelId, Keepalive.channelId,
      Chainsync.channelId, Peersharing.channelId, Blockfetch.channelId, Txsubmission.channelId, Leiosnotify.channelId,
      Leiosfetch.channelId]

end InitiatorState
end Pallas.Network2
