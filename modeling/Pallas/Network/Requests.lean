import Pallas.Network.Codecs
import Pallas.Network.Duality
import Pallas.Network.Handshake

/-!
# Peer sharing, transaction submission and keep-alive (`pallas-network/src/miniprotocols`)

In these protocols the client asks, the server answers, and that is all. No operation of theirs, nor of the handshake, is
without an arm for a message that the tables let pass, so the two sides stay in step in every run (`always_dual`).

The operations of keep-alive depend on the cookie that the agent is waiting with, and a run of them is a system of its own.
-/

namespace Turns.Pair
variable {S M ε δ C D : Type} {pair : Pair S M ε δ C D} {P : Protocol S M} {start s : System S M}

/-- Every message that the tables let pass has an arm. -/
def Covers (pair : Pair S M ε δ C D) : Prop :=
  (∀ op guard arms, pair.clientOp op = .recv guard arms → ∀ s msg, guard s = .ok () →
    pair.client.assertInboundState s msg = .ok () → arms msg ≠ none) ∧
  ∀ op guard arms, pair.serverOp op = .recv guard arms → ∀ s msg, guard s = .ok () →
    pair.server.assertInboundState s msg = .ok () → arms msg ≠ none

theorem Covers.not_misses (h : pair.Covers) (P : Protocol S M) (x : Transition (System S M) (Call C D)) :
    ¬ pair.Misses P x := by
  obtain ⟨source, input, target⟩ := x
  cases input with
  | client op =>
    intro hmiss
    cases hop : pair.clientOp op with
    | send msg next result =>
      simp only [Misses, hop] at hmiss
      exact hmiss
    | recv guard arms =>
      simp only [Misses, hop] at hmiss
      obtain ⟨hguard, -, msg, -, -, hin, harms, -⟩ := hmiss
      exact h.1 op guard arms hop _ msg hguard hin harms
  | server op =>
    intro hmiss
    cases hop : pair.serverOp op with
    | send msg next result =>
      simp only [Misses, hop] at hmiss
      exact hmiss
    | recv guard arms =>
      simp only [Misses, hop] at hmiss
      obtain ⟨hguard, -, msg, -, -, hin, harms, -⟩ := hmiss
      exact h.2 op guard arms hop _ msg hguard hin harms

/-- The message that arrives first is not refused: its receiver has no agency, the table lets it pass, and every operation that
may receive it has an arm for it. -/
def Welcomes {ε ρ O : Type} (agent : Agent S M ε) (ops : O → Operation S M ε ρ) (state : S) (inbox : List M) : Prop :=
  ∀ msg ∈ inbox.head?, agent.hasAgency state = false ∧ agent.assertInboundState state msg = .ok () ∧
    ∀ op guard arms, ops op = .recv guard arms → guard state = .ok () → arms msg ≠ none

/-- The messages under way, all in one direction, lead from the state of the receiver to that of the sender; at most one of
the two has agency; and no message is refused on arrival. -/
structure Together (pair : Pair S M ε δ C D) (P : Protocol S M) (s : System S M) : Prop where
  aligned : Aligned P s
  agency : ¬ (pair.client.hasAgency s.client = true ∧ pair.server.hasAgency s.server = true)
  atClient : Welcomes pair.client pair.clientOp s.client s.toClient
  atServer : Welcomes pair.server pair.serverOp s.server s.toServer

theorem Covers.together (h : pair.Covers) (hfollows : pair.Follows P)
    (hclient : ∀ s, pair.client.hasAgency s = true → P.turn s = some .client) (hs : Aligned P s) : pair.Together P s where
  aligned := hs
  agency := by
    rintro ⟨hours, htheirs⟩
    have hturn := hclient _ hours
    have hsame : P.turn s.server = some .client := by
      rcases hs with ⟨-, hleads⟩ | ⟨-, hleads⟩
      · cases hin : s.toClient with
        | nil =>
          rw [hin] at hleads
          have heq : s.client = s.server := hleads
          rwa [← heq]
        | cons msg rest =>
          rw [hin] at hleads
          cases hturn.symm.trans hleads.1
      · cases hout : s.toServer with
        | nil =>
          rw [hout] at hleads
          have heq : s.server = s.client := hleads
          rwa [heq]
        | cons msg rest =>
          rw [hout] at hleads
          exact hleads.1
    exact Bool.noConfusion ((hfollows.server.theirs _ hsame).symm.trans htheirs)
  atClient := by
    intro msg hmsg
    obtain ⟨rest, hin⟩ : ∃ rest, s.toClient = msg :: rest := List.head?_eq_some_iff.1 hmsg
    have hs : P.Aligned .client s.client s.toClient s.toServer s.server := hs
    rw [hin] at hs
    obtain ⟨-, hturn, t, hmove, -⟩ := hs.head
    have hok : pair.client.assertInboundState s.client msg = .ok () :=
      (hfollows.client.inbound _ _).2 ⟨hturn, by rw [hmove]; rfl⟩
    exact ⟨hfollows.client.theirs _ hturn, hok, fun op guard arms hop hguard => h.1 op guard arms hop _ _ hguard hok⟩
  atServer := by
    intro msg hmsg
    obtain ⟨rest, hin⟩ : ∃ rest, s.toServer = msg :: rest := List.head?_eq_some_iff.1 hmsg
    have hs := Protocol.Aligned.swap hs
    rw [hin] at hs
    obtain ⟨-, hturn, t, hmove, -⟩ := hs.head
    have hok : pair.server.assertInboundState s.server msg = .ok () :=
      (hfollows.server.inbound _ _).2 ⟨hturn, by rw [hmove]; rfl⟩
    exact ⟨hfollows.server.theirs _ hturn, hok, fun op guard arms hop hguard => h.2 op guard arms hop _ _ hguard hok⟩

/-- In every state of such a run the two are together. -/
theorem Covers.throughout (h : pair.Covers) (hfollows : pair.Follows P)
    (hclient : ∀ s, pair.client.hasAgency s = true → P.turn s = some .client) {first : S}
    {tr : List (Transition (System S M) (Call C D))} (hrun : pair.Runs first tr s) :
    Run.Throughout (pair.Together P) tr s := by
  obtain ⟨hall, hlast⟩ := hfollows.throughout_aligned hrun fun x _ => h.not_misses P x
  exact ⟨fun x hx => h.together hfollows hclient (hall x hx), h.together hfollows hclient hlast⟩

/-- Agents that go by the protocol, and miss nothing, stay in step. -/
theorem Covers.dual (h : pair.Covers) (hfollows : pair.Follows P) {first : S}
    {tr : List (Transition (System S M) (Call C D))} (hrun : pair.Runs first tr s) : pair.Dual P tr s :=
  (inStep_iff hfollows hrun).2 fun x _ => h.not_misses P x

end Turns.Pair

namespace Pallas.Network
open Turns

/-! ### Peer sharing -/

namespace Peersharing

abbrev Amount := Network2.Peersharing.Amount

inductive State where
  | idle
  | busy (amount : Amount)
  | done
  deriving DecidableEq

def protocol : Protocol State Message where
  turn
    | .idle => some .client
    | .busy _ => some .server
    | .done => none
  move
    | .idle, .shareRequest amount => some (.busy amount)
    | .idle, .done => some .done
    | .busy _, .sharePeers _ => some .idle
    | _, _ => none

/-- `ClientError` and `ServerError`. The mismatch of the client's is never returned. -/
inductive Error where
  | agencyIsOurs
  | agencyIsTheirs
  | invalidInbound
  | invalidOutbound
  deriving DecidableEq

namespace Client

def hasAgency : State → Bool
  | .idle => true
  | .busy _ => false
  | .done => false

def assertOutboundState : State → Message → Except Error Unit
  | .idle, .shareRequest _ => .ok ()
  | .idle, .done => .ok ()
  | _, _ => .error .invalidOutbound

def assertInboundState : State → Message → Except Error Unit
  | .busy _, .sharePeers _ => .ok ()
  | _, _ => .error .invalidInbound

def agent : Agent State Message Error :=
  ⟨hasAgency, assertOutboundState, assertInboundState, .agencyIsOurs, .agencyIsTheirs, .invalidInbound⟩

def sendShareRequest (amount : Amount) : Operation State Message Error Unit :=
  .send (.shareRequest amount) (some (.busy amount)) ()

/-- However many addresses were asked for. -/
def recvPeerAddresses : Operation State Message Error (List PeerAddress) := .receive fun
  | .sharePeers addresses => some (some .idle, .ok addresses)
  | _ => none

def sendDone : Operation State Message Error Unit := .send .done (some .done) ()

end Client

inductive ClientCall where
  | sendShareRequest (amount : Amount)
  | recvPeerAddresses
  | sendDone

def ClientCall.operation : ClientCall → Operation State Message Error Unit
  | sendShareRequest amount => Client.sendShareRequest amount
  | recvPeerAddresses => Client.recvPeerAddresses.void
  | sendDone => Client.sendDone

namespace Server

def hasAgency : State → Bool
  | .idle => false
  | .busy _ => true
  | .done => false

def assertOutboundState : State → Message → Except Error Unit
  | .busy _, .sharePeers _ => .ok ()
  | _, _ => .error .invalidOutbound

def assertInboundState : State → Message → Except Error Unit
  | .idle, .shareRequest _ => .ok ()
  | .idle, .done => .ok ()
  | _, _ => .error .invalidInbound

def agent : Agent State Message Error :=
  ⟨hasAgency, assertOutboundState, assertInboundState, .agencyIsOurs, .agencyIsTheirs, .invalidInbound⟩

def recvShareRequest : Operation State Message Error (Option Amount) := .receive fun
  | .shareRequest amount => some (some (.busy amount), .ok (some amount))
  | .done => some (some .done, .ok none)
  | _ => none

def sendPeerAddresses (response : List PeerAddress) : Operation State Message Error Unit :=
  .send (.sharePeers response) (some .idle) ()

end Server

inductive ServerCall where
  | recvShareRequest
  | sendPeerAddresses (response : List PeerAddress)

def ServerCall.operation : ServerCall → Operation State Message Error Unit
  | recvShareRequest => Server.recvShareRequest.void
  | sendPeerAddresses response => Server.sendPeerAddresses response

def pair : Pair State Message Error Error ClientCall ServerCall :=
  ⟨Client.agent, Server.agent, ClientCall.operation, ServerCall.operation⟩

theorem Client.follows : Client.agent.Follows protocol .client where
  theirs s h := by cases s <;> first | rfl | cases h
  ours s h := by cases s <;> first | rfl | cases h
  outbound s m hs h := by cases s <;> first | rfl | cases hs
  inbound s m := by
    constructor
    · intro h
      cases s <;> cases m <;> first | (cases h; done) | exact ⟨rfl, rfl⟩
    · rintro ⟨hturn, hmove⟩
      cases s <;> cases m <;> first | rfl | (cases hturn; done) | cases hmove

theorem Server.follows : Server.agent.Follows protocol .server where
  theirs s h := by cases s <;> first | rfl | cases h
  ours s h := by cases s <;> first | rfl | cases h
  outbound s m hs h := by cases s <;> first | rfl | cases hs
  inbound s m := by
    constructor
    · intro h
      cases s <;> cases m <;> first | (cases h; done) | exact ⟨rfl, rfl⟩
    · rintro ⟨hturn, hmove⟩
      cases s <;> cases m <;> first | rfl | (cases hturn; done) | cases hmove

theorem ClientCall.follows (op : ClientCall) : op.operation.Follows protocol Client.agent := by
  cases op with
  | sendShareRequest | sendDone =>
    intro s _ hout
    cases s <;> first | rfl | cases hout
  | recvPeerAddresses =>
    intro s msg next result _ hin harms
    cases s <;> cases msg <;> first | (cases hin; done) | (cases harms; done) | (cases harms; rfl)

theorem ServerCall.follows (op : ServerCall) : op.operation.Follows protocol Server.agent := by
  cases op with
  | sendPeerAddresses =>
    intro s _ hout
    cases s <;> first | rfl | cases hout
  | recvShareRequest =>
    intro s msg next result _ hin harms
    cases s <;> cases msg <;> first | (cases hin; done) | (cases harms; done) | (cases harms; rfl)

theorem pair_follows : pair.Follows protocol := ⟨Client.follows, Server.follows, ClientCall.follows, ServerCall.follows⟩

theorem pair_covers : pair.Covers := by
  constructor
  · intro op guard arms hop s msg _ hin harms
    cases op with
    | sendShareRequest | sendDone => cases hop
    | recvPeerAddresses =>
      cases hop
      cases s <;> cases msg <;> first | (cases hin; done) | cases harms
  · intro op guard arms hop s msg _ hin harms
    cases op with
    | sendPeerAddresses => cases hop
    | recvShareRequest =>
      cases hop
      cases s <;> cases msg <;> first | (cases hin; done) | cases harms

end Peersharing

/-! ### Transaction submission of node-to-client connections -/

namespace Localtxsubmission
variable {T R : Type}

inductive State where
  | idle
  | busy
  | done
  deriving DecidableEq

def protocol (T R : Type) : Protocol State (Message T R) where
  turn
    | .idle => some .client
    | .busy => some .server
    | .done => none
  move
    | .idle, .submitTx _ => some .busy
    | .idle, .done => some .done
    | .busy, .acceptTx => some .idle
    | .busy, .rejectTx _ => some .idle
    | _, _ => none

inductive Error where
  | agencyIsOurs
  | agencyIsTheirs
  | invalidInbound
  | invalidOutbound
  deriving DecidableEq

inductive Response (R : Type) where
  | accepted
  | rejected (rejection : R)
  deriving DecidableEq

namespace Client

def hasAgency : State → Bool
  | .idle => true
  | .busy => false
  | .done => false

def assertOutboundState : State → Message T R → Except Error Unit
  | .idle, .submitTx _ => .ok ()
  | .idle, .done => .ok ()
  | _, _ => .error .invalidOutbound

def assertInboundState : State → Message T R → Except Error Unit
  | .busy, .acceptTx => .ok ()
  | .busy, .rejectTx _ => .ok ()
  | _, _ => .error .invalidInbound

def agent : Agent State (Message T R) Error :=
  ⟨hasAgency, assertOutboundState, assertInboundState, .agencyIsOurs, .agencyIsTheirs, .invalidInbound⟩

def sendSubmitTx (tx : T) : Operation State (Message T R) Error Unit := .send (.submitTx tx) (some .busy) ()

def recvSubmitTxResponse : Operation State (Message T R) Error (Response R) := .receive fun
  | .acceptTx => some (some .idle, .ok .accepted)
  | .rejectTx rejection => some (some .idle, .ok (.rejected rejection))
  | _ => none

def terminateGracefully : Operation State (Message T R) Error Unit := .send .done (some .done) ()

end Client

/-- `submit_tx` calls the first two one after the other. -/
inductive ClientCall (T : Type) where
  | sendSubmitTx (tx : T)
  | recvSubmitTxResponse
  | terminateGracefully

def ClientCall.operation : ClientCall T → Operation State (Message T R) Error Unit
  | sendSubmitTx tx => Client.sendSubmitTx tx
  | recvSubmitTxResponse => Client.recvSubmitTxResponse.void
  | terminateGracefully => Client.terminateGracefully

inductive Request (T : Type) where
  | submit (tx : T)
  | done
  deriving DecidableEq

namespace Server

/-- The server keeps the agency when the protocol is over. -/
def hasAgency : State → Bool
  | .idle => false
  | .busy => true
  | .done => true

/-- The errors of this check and the next have changed places. -/
def assertOutboundState : State → Message T R → Except Error Unit
  | .busy, .acceptTx => .ok ()
  | .busy, .rejectTx _ => .ok ()
  | _, _ => .error .invalidInbound

def assertInboundState : State → Message T R → Except Error Unit
  | .idle, .submitTx _ => .ok ()
  | .idle, .done => .ok ()
  | _, _ => .error .invalidOutbound

def agent : Agent State (Message T R) Error :=
  ⟨hasAgency, assertOutboundState, assertInboundState, .agencyIsOurs, .agencyIsTheirs, .invalidInbound⟩

def sendSubmitTxResponse : Response R → Operation State (Message T R) Error Unit
  | .accepted => .send .acceptTx (some .idle) ()
  | .rejected reject => .send (.rejectTx reject) (some .idle) ()

def recvNextRequest : Operation State (Message T R) Error (Request T) := .receive fun
  | .submitTx tx => some (some .busy, .ok (.submit tx))
  | .done => some (some .done, .ok .done)
  | _ => none

end Server

inductive ServerCall (R : Type) where
  | sendSubmitTxResponse (response : Response R)
  | recvNextRequest

def ServerCall.operation : ServerCall R → Operation State (Message T R) Error Unit
  | sendSubmitTxResponse response => Server.sendSubmitTxResponse response
  | recvNextRequest => Server.recvNextRequest.void

def pair (T R : Type) : Pair State (Message T R) Error Error (ClientCall T) (ServerCall R) :=
  ⟨Client.agent, Server.agent, ClientCall.operation, ServerCall.operation⟩

theorem Client.follows : Client.agent.Follows (protocol T R) .client where
  theirs s h := by cases s <;> first | rfl | cases h
  ours s h := by cases s <;> first | rfl | cases h
  outbound s m hs h := by cases s <;> first | rfl | cases hs
  inbound s m := by cases s <;> cases m <;> simp [agent, assertInboundState, protocol, Side.other]

theorem Server.follows : Server.agent.Follows (protocol T R) .server where
  theirs s h := by cases s <;> first | rfl | cases h
  ours s h := by cases s <;> first | rfl | cases h
  outbound s m _ h := by cases s <;> cases m <;> first | rfl | cases h
  inbound s m := by cases s <;> cases m <;> simp [agent, assertInboundState, protocol, Side.other]

theorem ClientCall.follows (op : ClientCall T) : op.operation.Follows (protocol T R) Client.agent := by
  cases op with
  | sendSubmitTx | terminateGracefully =>
    intro s _ hout
    cases s <;> first | rfl | cases hout
  | recvSubmitTxResponse =>
    intro s msg next result _ hin harms
    cases s <;> cases msg <;> first | (cases hin; done) | (cases harms; done) | (cases harms; rfl)

theorem ServerCall.follows (op : ServerCall R) : op.operation.Follows (protocol T R) Server.agent := by
  cases op with
  | sendSubmitTxResponse response =>
    cases response <;>
    · intro s _ hout
      cases s <;> first | rfl | cases hout
  | recvNextRequest =>
    intro s msg next result _ hin harms
    cases s <;> cases msg <;> first | (cases hin; done) | (cases harms; done) | (cases harms; rfl)

theorem pair_follows : (pair T R).Follows (protocol T R) :=
  ⟨Client.follows, Server.follows, ClientCall.follows, ServerCall.follows⟩

theorem pair_covers : (pair T R).Covers := by
  constructor
  · intro op guard arms hop s msg _ hin harms
    cases op with
    | sendSubmitTx | terminateGracefully => cases hop
    | recvSubmitTxResponse =>
      cases hop
      cases s <;> cases msg <;> first | (cases hin; done) | cases harms
  · intro op guard arms hop s msg _ hin harms
    cases op with
    | sendSubmitTxResponse response => cases response <;> cases hop
    | recvNextRequest =>
      cases hop
      cases s <;> cases msg <;> first | (cases hin; done) | cases harms

end Localtxsubmission

/-! ### The handshake -/

theorem Handshake.pair_covers {D : Type} : (Handshake.pair D).Covers := by
  constructor
  · intro op guard arms hop s msg _ hin harms
    cases op with
    | sendPropose => cases hop
    | recvWhileConfirm =>
      cases hop
      cases s <;> cases msg <;> first | (cases hin; done) | cases harms
  · intro op guard arms hop s msg _ hin harms
    cases op with
    | acceptVersion | refuse => cases hop
    | receiveProposedVersions =>
      cases hop
      cases s <;> cases msg <;> first | (cases hin; done) | cases harms

/-- In every run of the operations of the two sides they stay together and in step, and every message does what it stands for. -/
theorem always_dual (D T R : Type) :
    (∀ tr s, (Handshake.pair D).Runs .propose tr s →
      Run.Throughout ((Handshake.pair D).Together (Handshake.protocol D)) tr s ∧
        (Handshake.pair D).Dual (Handshake.protocol D) tr s) ∧
    (∀ tr s, Peersharing.pair.Runs .idle tr s →
      Run.Throughout (Peersharing.pair.Together Peersharing.protocol) tr s ∧
        Peersharing.pair.Dual Peersharing.protocol tr s) ∧
    ∀ tr s, (Localtxsubmission.pair T R).Runs .idle tr s →
      Run.Throughout ((Localtxsubmission.pair T R).Together (Localtxsubmission.protocol T R)) tr s ∧
        (Localtxsubmission.pair T R).Dual (Localtxsubmission.protocol T R) tr s := by
  refine ⟨fun tr s hrun => ⟨?_, Handshake.pair_covers.dual Handshake.pair_follows hrun⟩,
    fun tr s hrun => ⟨?_, Peersharing.pair_covers.dual Peersharing.pair_follows hrun⟩,
    fun tr s hrun => ⟨?_, Localtxsubmission.pair_covers.dual Localtxsubmission.pair_follows hrun⟩⟩
  · refine Handshake.pair_covers.throughout Handshake.pair_follows (fun s h => ?_) hrun
    cases s <;> first | rfl | cases h
  · refine Peersharing.pair_covers.throughout Peersharing.pair_follows (fun s h => ?_) hrun
    cases s <;> first | rfl | cases h
  · refine Localtxsubmission.pair_covers.throughout Localtxsubmission.pair_follows (fun s h => ?_) hrun
    cases s <;> first | rfl | cases h

/-- A proposal that the server receives. -/
theorem always_dual_proposal : ∃ tr s, (Handshake.pair Unit).Runs .propose tr s ∧ tr.length = 2 ∧
    Run.Throughout ((Handshake.pair Unit).Together (Handshake.protocol Unit)) tr s ∧
      (Handshake.pair Unit).Dual (Handshake.protocol Unit) tr s := by
  have hsent := (Run.start rfl : (Handshake.pair Unit).Runs .propose [] _).next
    (i := .client (.sendPropose ⟨[(7, ())]⟩)) rfl
  have hreceived := hsent.next (i := .server .receiveProposedVersions) rfl
  exact ⟨_, _, hreceived, rfl, (always_dual Unit Unit Unit).1 _ _ hreceived⟩

/-! ### Keep-alive -/

namespace Keepalive

abbrev Cookie := Network2.Keepalive.Cookie

inductive State where
  | client
  | server (cookie : Cookie)
  | done
  deriving DecidableEq

/-- `ClientError`, and `ServerError` without the mismatch. -/
inductive Error where
  | agencyIsOurs
  | agencyIsTheirs
  | invalidInbound
  | invalidOutbound
  | keepAliveCookieMismatch
  deriving DecidableEq

namespace Client

def hasAgency : State → Bool
  | .client => true
  | .server _ => false
  | .done => false

def assertOutboundState : State → Message → Except Error Unit
  | .client, .keepAlive _ => .ok ()
  | .client, .done => .ok ()
  | _, _ => .error .invalidOutbound

def assertInboundState : State → Message → Except Error Unit
  | .server _, .responseKeepAlive _ => .ok ()
  | _, _ => .error .invalidInbound

def agent : Agent State Message Error :=
  ⟨hasAgency, assertOutboundState, assertInboundState, .agencyIsOurs, .agencyIsTheirs, .invalidInbound⟩

/-- The cookie is a random one. -/
def sendKeepaliveRequest (cookie : Cookie) : Operation State Message Error Unit :=
  .send (.keepAlive cookie) (some (.server cookie)) ()

/-- The tables let a response pass in a state with a cookie only. -/
def recvKeepaliveResponse (state : State) : Operation State Message Error Unit := .receive fun
  | .responseKeepAlive cookie => match state with
    | .server expected =>
      if expected = cookie then some (some .client, .ok ()) else some (none, .error .keepAliveCookieMismatch)
    | _ => none
  | _ => none

end Client

namespace Server

def hasAgency : State → Bool
  | .client => false
  | .server _ => true
  | .done => false

def assertOutboundState : State → Message → Except Error Unit
  | .server _, .responseKeepAlive _ => .ok ()
  | _, _ => .error .invalidOutbound

def assertInboundState : State → Message → Except Error Unit
  | .client, .keepAlive _ => .ok ()
  | .client, .done => .ok ()
  | _, _ => .error .invalidInbound

def agent : Agent State Message Error :=
  ⟨hasAgency, assertOutboundState, assertInboundState, .agencyIsOurs, .agencyIsTheirs, .invalidInbound⟩

def recvKeepaliveRequest : Operation State Message Error Unit := .receive fun
  | .keepAlive cookie => some (some (.server cookie), .ok ())
  | .done => some (some .done, .ok ())
  | _ => none

/-- Without a cookie there is nothing to send, and that is no error. -/
def sendKeepaliveResponse : State → Option (Operation State Message Error Unit)
  | .server cookie => some (.send (.responseKeepAlive cookie) (some .client) ())
  | _ => none

end Server

/-- The operations of the two sides; `keepalive_roundtrip` calls those of its side one after the other. -/
inductive Call where
  | sendKeepaliveRequest (cookie : Cookie)
  | recvKeepaliveResponse
  | recvKeepaliveRequest
  | sendKeepaliveResponse
  deriving DecidableEq

/-- One operation, with what it returns. -/
def step (s : System State Message) : Call → Option (System State Message × Except Error Unit)
  | .sendKeepaliveRequest cookie =>
    ((Client.sendKeepaliveRequest cookie).run Client.agent s.client s.toClient).map fun e => (s.after .client e, e.result)
  | .recvKeepaliveResponse =>
    ((Client.recvKeepaliveResponse s.client).run Client.agent s.client s.toClient).map fun e =>
      (s.after .client e, e.result)
  | .recvKeepaliveRequest =>
    (Server.recvKeepaliveRequest.run Server.agent s.server s.toServer).map fun e => (s.after .server e, e.result)
  | .sendKeepaliveResponse => match Server.sendKeepaliveResponse s.server with
    | some op => (op.run Server.agent s.server s.toServer).map fun e => (s.after .server e, e.result)
    | none => some (s, .ok ())

def Runs : List (Transition (System State Message) Call) → System State Message → Prop :=
  Run (· = ⟨.client, .client, [], []⟩) fun s call t => ∃ result, step s call = some (t, result)

/-- Where a round trip can be. -/
inductive Phase : System State Message → Prop where
  | quiet : Phase ⟨.client, .client, [], []⟩
  | requested {cookie : Cookie} : Phase ⟨.server cookie, .client, [], [.keepAlive cookie]⟩
  | received {cookie : Cookie} : Phase ⟨.server cookie, .server cookie, [], []⟩
  | answered {cookie : Cookie} : Phase ⟨.server cookie, .client, [.responseKeepAlive cookie], []⟩

/-- An operation succeeds, or it comes out of turn and leaves all as it is. -/
theorem Phase.step {s t : System State Message} {call : Call} {result : Except Error Unit} (h : Phase s)
    (hstep : Keepalive.step s call = some (t, result)) :
    Phase t ∧ (result = .ok () ∨ t = s ∧ (result = .error .agencyIsOurs ∨ result = .error .agencyIsTheirs)) := by
  cases h with
  | quiet =>
    cases call with
    | sendKeepaliveRequest =>
      cases hstep
      exact ⟨.requested, .inl rfl⟩
    | recvKeepaliveResponse =>
      cases hstep
      exact ⟨.quiet, .inr ⟨rfl, .inl rfl⟩⟩
    | recvKeepaliveRequest => cases hstep
    | sendKeepaliveResponse =>
      cases hstep
      exact ⟨.quiet, .inl rfl⟩
  | requested =>
    cases call with
    | sendKeepaliveRequest =>
      cases hstep
      exact ⟨.requested, .inr ⟨rfl, .inr rfl⟩⟩
    | recvKeepaliveResponse => cases hstep
    | recvKeepaliveRequest =>
      cases hstep
      exact ⟨.received, .inl rfl⟩
    | sendKeepaliveResponse =>
      cases hstep
      exact ⟨.requested, .inl rfl⟩
  | received =>
    cases call with
    | sendKeepaliveRequest =>
      cases hstep
      exact ⟨.received, .inr ⟨rfl, .inr rfl⟩⟩
    | recvKeepaliveResponse => cases hstep
    | recvKeepaliveRequest =>
      cases hstep
      exact ⟨.received, .inr ⟨rfl, .inl rfl⟩⟩
    | sendKeepaliveResponse =>
      cases hstep
      exact ⟨.answered, .inl rfl⟩
  | @answered cookie =>
    cases call with
    | sendKeepaliveRequest =>
      cases hstep
      exact ⟨.answered, .inr ⟨rfl, .inr rfl⟩⟩
    | recvKeepaliveResponse =>
      -- the response carries the cookie that the client waits for
      have hrun : Keepalive.step ⟨.server cookie, .client, [.responseKeepAlive cookie], []⟩ .recvKeepaliveResponse =
          some (⟨.client, .client, [], []⟩, .ok ()) := by
        simp [Keepalive.step, Client.recvKeepaliveResponse, Operation.receive, Operation.run, Client.agent,
          Client.hasAgency, Client.assertInboundState, System.after]
      cases hrun.symm.trans hstep
      exact ⟨.quiet, .inl rfl⟩
    | recvKeepaliveRequest => cases hstep
    | sendKeepaliveResponse =>
      cases hstep
      exact ⟨.answered, .inl rfl⟩

/-- In every run of the two sides, with any cookies, at most one message is under way, the sides agree when none is, and no
operation fails but for being out of turn: no response has another cookie than the one that was sent. -/
theorem runs_in_step {tr : List (Transition (System State Message) Call)} {s : System State Message} (h : Runs tr s) :
    s.toClient.length + s.toServer.length ≤ 1 ∧ (s.Quiet → s.client = s.server) ∧
    ∀ call t result, step s call = some (t, result) →
      result = .ok () ∨ t = s ∧ (result = .error .agencyIsOurs ∨ result = .error .agencyIsTheirs) := by
  have hphase : Phase s := by
    refine Run.invariant (K := fun _ => True) (fun s hs => ?_) (fun s i t hs _ hstep => ?_) h fun _ _ => trivial
    · rw [hs]
      exact .quiet
    · obtain ⟨result, hstep⟩ := hstep
      exact (hs.step hstep).1
  refine ⟨?_, ?_, fun call t result hstep => (hphase.step hstep).2⟩
  · cases hphase <;> simp
  · rintro ⟨hclient, hserver⟩
    cases hphase with
    | quiet => rfl
    | requested => cases hserver
    | received => rfl
    | answered => cases hclient

/-- A round trip. -/
theorem runs_in_step_roundtrip : ∃ (tr : List (Transition (System State Message) Call)) (s : System State Message),
    tr.length = 4 ∧ Runs tr s ∧ (s.Quiet → s.client = s.server) := by
  have hstart : Runs [] ⟨.client, .client, [], []⟩ := .start rfl
  have hsent := hstart.next (i := .sendKeepaliveRequest 7) ⟨_, rfl⟩
  have hreceived := hsent.next (i := .recvKeepaliveRequest) ⟨_, rfl⟩
  have hanswered := hreceived.next (i := .sendKeepaliveResponse) ⟨_, rfl⟩
  have hback := hanswered.next (i := .recvKeepaliveResponse) ⟨_, rfl⟩
  exact ⟨_, _, rfl, hback, (runs_in_step hback).2.1⟩

end Keepalive

end Pallas.Network
