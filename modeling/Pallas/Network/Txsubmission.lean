import Pallas.Lib.Agents
import Pallas.Network2.Protocols

/-!
# Transaction submission (`pallas-network/src/miniprotocols/txsubmission`)

`GenericClient` and `GenericServer`, for any type of ids and of bodies. Here the server asks and the client answers, except
for the `Init` that opens the protocol.
-/

namespace Pallas.Network.Txsubmission
open Turns

inductive State where
  | init
  | idle
  | txIdsNonBlocking
  | txIdsBlocking
  | txs
  | done
  deriving DecidableEq

/-- An id and the size of its body. -/
structure TxIdAndSize (I : Type) where
  id : I
  size : UInt32
  deriving DecidableEq

inductive Message (I B : Type) where
  | init
  | requestTxIds (blocking : Bool) (ack req : UInt16)
  | replyTxIds (ids : List (TxIdAndSize I))
  | requestTxs (ids : List I)
  | replyTxs (txs : List B)
  | done
  deriving DecidableEq

/-- The errors of both sides. -/
inductive Error where
  | agencyIsOurs
  | agencyIsTheirs
  | invalidInbound
  | invalidOutbound
  | alreadyInitialized
  deriving DecidableEq

variable {I B : Type}

def protocol : Protocol State (Message I B) where
  turn
    | .init | .txIdsNonBlocking | .txIdsBlocking | .txs => some .client
    | .idle => some .server
    | .done => none
  move
    | .init, .init => some .idle
    | .idle, .requestTxIds true _ _ => some .txIdsBlocking
    | .idle, .requestTxIds false _ _ => some .txIdsNonBlocking
    | .idle, .requestTxs _ => some .txs
    | .txIdsBlocking, .replyTxIds _ | .txIdsNonBlocking, .replyTxIds _ => some .idle
    | .txIdsBlocking, .done => some .done
    | .txs, .replyTxs _ => some .idle
    | _, _ => none

/-! ### The client (`client.rs`) -/

inductive Request (I : Type) where
  | txIds (ack req : UInt16)
  | txIdsNonBlocking (ack req : UInt16)
  | txs (ids : List I)
  deriving DecidableEq

namespace Client

def hasAgency (s : State) : Bool := s ≠ .idle

def assertOutboundState : State → Message I B → Except Error Unit
  | .init, .init => .ok ()
  | .txIdsBlocking, .replyTxIds _ => .ok ()
  | .txIdsBlocking, .done => .ok ()
  | .txIdsNonBlocking, .replyTxIds _ => .ok ()
  | .txs, .replyTxs _ => .ok ()
  | _, _ => .error .invalidOutbound

def assertInboundState : State → Message I B → Except Error Unit
  | .idle, .requestTxIds _ _ _ => .ok ()
  | .idle, .requestTxs _ => .ok ()
  | _, _ => .error .invalidInbound

def agent : Agent State (Message I B) Error :=
  ⟨hasAgency, assertOutboundState, assertInboundState, .agencyIsOurs, .agencyIsTheirs, .invalidInbound⟩

def sendInit : Operation State (Message I B) Error Unit := .send .init (some .idle) ()

def replyTxIds (ids : List (TxIdAndSize I)) : Operation State (Message I B) Error Unit :=
  .send (.replyTxIds ids) (some .idle) ()

def replyTxs (txs : List B) : Operation State (Message I B) Error Unit := .send (.replyTxs txs) (some .idle) ()

def nextRequest : Operation State (Message I B) Error (Request I) := .receive fun
  | .requestTxIds true ack req => some (some .txIdsBlocking, .ok (.txIds ack req))
  | .requestTxIds false ack req => some (some .txIdsNonBlocking, .ok (.txIdsNonBlocking ack req))
  | .requestTxs ids => some (some .txs, .ok (.txs ids))
  | _ => none

def sendDone : Operation State (Message I B) Error Unit := .send .done (some .done) ()

end Client

inductive ClientCall (I B : Type) where
  | sendInit
  | replyTxIds (ids : List (TxIdAndSize I))
  | replyTxs (txs : List B)
  | nextRequest
  | sendDone
  deriving DecidableEq

def ClientCall.operation : ClientCall I B → Operation State (Message I B) Error Unit
  | sendInit => Client.sendInit
  | replyTxIds ids => Client.replyTxIds ids
  | replyTxs txs => Client.replyTxs txs
  | nextRequest => Client.nextRequest.void
  | sendDone => Client.sendDone

/-! ### The server (`server.rs`) -/

inductive Reply (I B : Type) where
  | txIds (ids : List (TxIdAndSize I))
  | txs (txs : List B)
  | done
  deriving DecidableEq

namespace Server

def hasAgency (s : State) : Bool := s = .idle

/-- The two tables of the server name the error of the other. -/
def assertOutboundState : State → Message I B → Except Error Unit
  | .idle, .requestTxIds _ _ _ => .ok ()
  | .idle, .requestTxs _ => .ok ()
  | _, _ => .error .invalidInbound

def assertInboundState : State → Message I B → Except Error Unit
  | .init, .init => .ok ()
  | .txIdsBlocking, .replyTxIds _ => .ok ()
  | .txIdsBlocking, .done => .ok ()
  | .txIdsNonBlocking, .replyTxIds _ => .ok ()
  | .txs, .replyTxs _ => .ok ()
  | _, _ => .error .invalidOutbound

def agent : Agent State (Message I B) Error :=
  ⟨hasAgency, assertOutboundState, assertInboundState, .agencyIsOurs, .agencyIsTheirs, .invalidInbound⟩

/-- The message itself is not looked at: only `Init` passes the table in this state. -/
def waitForInit : Operation State (Message I B) Error Unit :=
  .recv (fun s => if s ≠ .init then .error .alreadyInitialized else .ok ()) fun _ => some (some .idle, .ok ())

def acknowledgeAndRequestTxIds (blocking : Bool) (acknowledge count : UInt16) :
    Operation State (Message I B) Error Unit :=
  .send (.requestTxIds blocking acknowledge count) (some (if blocking then .txIdsBlocking else .txIdsNonBlocking)) ()

def requestTxs (ids : List I) : Operation State (Message I B) Error Unit := .send (.requestTxs ids) (some .txs) ()

def receiveNextReply : Operation State (Message I B) Error (Reply I B) := .receive fun
  | .replyTxIds ids => some (some .idle, .ok (.txIds ids))
  | .replyTxs txs => some (some .idle, .ok (.txs txs))
  | .done => some (some .done, .ok .done)
  | _ => none

end Server

inductive ServerCall (I : Type) where
  | waitForInit
  | acknowledgeAndRequestTxIds (blocking : Bool) (acknowledge count : UInt16)
  | requestTxs (ids : List I)
  | receiveNextReply
  deriving DecidableEq

def ServerCall.operation : ServerCall I → Operation State (Message I B) Error Unit
  | waitForInit => Server.waitForInit
  | acknowledgeAndRequestTxIds blocking acknowledge count => Server.acknowledgeAndRequestTxIds blocking acknowledge count
  | requestTxs ids => Server.requestTxs ids
  | receiveNextReply => Server.receiveNextReply.void

/-! ### Both -/

def pair : Pair State (Message I B) Error Error (ClientCall I B) (ServerCall I) :=
  ⟨Client.agent, Server.agent, ClientCall.operation, ServerCall.operation⟩

theorem Client.follows : (Client.agent (I := I) (B := B)).Follows protocol .client where
  theirs s h := by cases s <;> first | rfl | cases h
  ours s h := by cases s <;> first | rfl | cases h
  outbound s m hs h := by cases s <;> first | rfl | (cases hs; done) | (cases m <;> cases h)
  inbound s m := by
    cases s <;> rcases m with _ | ⟨_ | _, _, _⟩ | _ | _ | _ | _ <;>
      simp [agent, assertInboundState, protocol, Side.other]

theorem Server.follows : (Server.agent (I := I) (B := B)).Follows protocol .server where
  theirs s h := by cases s <;> first | rfl | cases h
  ours s h := by cases s <;> first | rfl | cases h
  outbound s m hs h := by cases s <;> first | rfl | cases hs
  inbound s m := by
    cases s <;> rcases m with _ | ⟨_ | _, _, _⟩ | _ | _ | _ | _ <;>
      simp [agent, assertInboundState, protocol, Side.other]

theorem ClientCall.follows (op : ClientCall I B) : op.operation.Follows protocol Client.agent := by
  cases op with
  | sendInit | replyTxIds | replyTxs | sendDone =>
    intro s hs hout
    cases s <;> first | rfl | cases hout
  | nextRequest =>
    intro s msg next result _ hin harms
    cases s <;> rcases msg with _ | ⟨_ | _, _, _⟩ | _ | _ | _ | _ <;> first | (cases hin; done) | (cases harms; rfl)

theorem ServerCall.follows (op : ServerCall I) : (op.operation (B := B)).Follows protocol Server.agent := by
  cases op with
  | waitForInit =>
    intro s msg next result hguard hin harms
    cases s <;> cases msg <;> first | (cases hguard; done) | (cases hin; done) | (cases harms; rfl)
  | acknowledgeAndRequestTxIds blocking =>
    intro s _ hout
    cases s <;> cases blocking <;> first | rfl | cases hout
  | requestTxs =>
    intro s _ hout
    cases s <;> first | rfl | cases hout
  | receiveNextReply =>
    intro s msg next result _ hin harms
    cases s <;> cases msg <;> first | (cases hin; done) | (cases harms; done) | (cases harms; rfl)

theorem pair_follows : (pair (I := I) (B := B)).Follows protocol :=
  ⟨Client.follows, Server.follows, ClientCall.follows, ServerCall.follows⟩

end Pallas.Network.Txsubmission
