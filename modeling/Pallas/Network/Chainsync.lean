import Pallas.Lib.Agents
import Pallas.Network2.Protocols

/-!
# Chain sync (`pallas-network/src/miniprotocols/chainsync`)

The states and messages, and the operations of `Client` and `Server` that send or receive one message. `find_intersect`,
`request_next`, `request_or_await_next`, `intersect_origin` and `intersect_tip` call these one after the other.
-/

namespace Pallas.Network
open Turns

/-- `miniprotocols::Point`, which `pallas-network2` has taken over. -/
abbrev Point := Network2.Point

namespace Chainsync

/-- A point and its block height. -/
abbrev Tip := Network2.Chainsync.Tip

inductive State where
  | idle
  | canAwait
  | mustReply
  | intersect
  | done
  deriving DecidableEq

/-- `C` is the content of a block: `HeaderContent` or `BlockContent`. -/
inductive Message (C : Type) where
  | requestNext
  | awaitReply
  | rollForward (content : C) (tip : Tip)
  | rollBackward (point : Point) (tip : Tip)
  | findIntersect (points : List Point)
  | intersectFound (point : Point) (tip : Tip)
  | intersectNotFound (tip : Tip)
  | done
  deriving DecidableEq

variable {C : Type}

/-- Who speaks in which state, and where that leads. -/
def protocol : Protocol State (Message C) where
  turn
    | .idle => some .client
    | .canAwait | .mustReply | .intersect => some .server
    | .done => none
  move
    | .idle, .requestNext => some .canAwait
    | .idle, .findIntersect _ => some .intersect
    | .idle, .done => some .done
    | .canAwait, .awaitReply => some .mustReply
    | .canAwait, .rollForward _ _ | .mustReply, .rollForward _ _ => some .idle
    | .canAwait, .rollBackward _ _ | .mustReply, .rollBackward _ _ => some .idle
    | .intersect, .intersectFound _ _ | .intersect, .intersectNotFound _ => some .idle
    | _, _ => none

/-! ### The client (`client.rs`) -/

inductive ClientError where
  | agencyIsOurs
  | agencyIsTheirs
  | invalidInbound
  | invalidOutbound
  | intersectionNotFound
  deriving DecidableEq

inductive NextResponse (C : Type) where
  | rollForward (content : C) (tip : Tip)
  | rollBackward (point : Point) (tip : Tip)
  | await
  deriving DecidableEq

namespace Client

def hasAgency : State → Bool
  | .idle => true
  | .canAwait => false
  | .mustReply => false
  | .intersect => false
  | .done => false

def assertOutboundState : State → Message C → Except ClientError Unit
  | .idle, .requestNext => .ok ()
  | .idle, .findIntersect _ => .ok ()
  | .idle, .done => .ok ()
  | _, _ => .error .invalidOutbound

def assertInboundState : State → Message C → Except ClientError Unit
  | .canAwait, .rollForward _ _ => .ok ()
  | .canAwait, .rollBackward _ _ => .ok ()
  | .canAwait, .awaitReply => .ok ()
  | .mustReply, .rollForward _ _ => .ok ()
  | .mustReply, .rollBackward _ _ => .ok ()
  | .intersect, .intersectFound _ _ => .ok ()
  | .intersect, .intersectNotFound _ => .ok ()
  | _, _ => .error .invalidInbound

def agent : Agent State (Message C) ClientError :=
  ⟨hasAgency, assertOutboundState, assertInboundState, .agencyIsOurs, .agencyIsTheirs, .invalidInbound⟩

def sendFindIntersect (points : List Point) : Operation State (Message C) ClientError Unit :=
  .send (.findIntersect points) (some .intersect) ()

def recvIntersectResponse : Operation State (Message C) ClientError (Option Point × Tip) := .receive fun
  | .intersectFound point tip => some (some .idle, .ok (some point, tip))
  | .intersectNotFound tip => some (some .idle, .ok (none, tip))
  | _ => none

def sendRequestNext : Operation State (Message C) ClientError Unit := .send .requestNext (some .canAwait) ()

def recvWhileCanAwait : Operation State (Message C) ClientError (NextResponse C) := .receive fun
  | .awaitReply => some (some .mustReply, .ok .await)
  | .rollForward a b => some (some .idle, .ok (.rollForward a b))
  | .rollBackward a b => some (some .idle, .ok (.rollBackward a b))
  | _ => none

def recvWhileMustReply : Operation State (Message C) ClientError (NextResponse C) := .receive fun
  | .rollForward a b => some (some .idle, .ok (.rollForward a b))
  | .rollBackward a b => some (some .idle, .ok (.rollBackward a b))
  | _ => none

def sendDone : Operation State (Message C) ClientError Unit := .send .done (some .done) ()

end Client

inductive ClientCall where
  | sendFindIntersect (points : List Point)
  | recvIntersectResponse
  | sendRequestNext
  | recvWhileCanAwait
  | recvWhileMustReply
  | sendDone
  deriving DecidableEq

def ClientCall.operation : ClientCall → Operation State (Message C) ClientError Unit
  | sendFindIntersect points => Client.sendFindIntersect points
  | recvIntersectResponse => Client.recvIntersectResponse.void
  | sendRequestNext => Client.sendRequestNext
  | recvWhileCanAwait => Client.recvWhileCanAwait.void
  | recvWhileMustReply => Client.recvWhileMustReply.void
  | sendDone => Client.sendDone

/-! ### The server (`server.rs`) -/

inductive ServerError where
  | agencyIsOurs
  | agencyIsTheirs
  | invalidInbound
  | invalidOutbound
  deriving DecidableEq

inductive ClientRequest where
  | intersect (points : List Point)
  | requestNext
  deriving DecidableEq

namespace Server

def hasAgency : State → Bool
  | .idle => false
  | .canAwait => true
  | .mustReply => true
  | .intersect => true
  | .done => false

def assertOutboundState : State → Message C → Except ServerError Unit
  | .canAwait, .rollForward _ _ => .ok ()
  | .canAwait, .rollBackward _ _ => .ok ()
  | .canAwait, .awaitReply => .ok ()
  | .mustReply, .rollForward _ _ => .ok ()
  | .mustReply, .rollBackward _ _ => .ok ()
  | .intersect, .intersectFound _ _ => .ok ()
  | .intersect, .intersectNotFound _ => .ok ()
  | _, _ => .error .invalidOutbound

def assertInboundState : State → Message C → Except ServerError Unit
  | .idle, .requestNext => .ok ()
  | .idle, .findIntersect _ => .ok ()
  | .idle, .done => .ok ()
  | _, _ => .error .invalidInbound

def agent : Agent State (Message C) ServerError :=
  ⟨hasAgency, assertOutboundState, assertInboundState, .agencyIsOurs, .agencyIsTheirs, .invalidInbound⟩

def recvWhileIdle : Operation State (Message C) ServerError (Option ClientRequest) := .receive fun
  | .findIntersect points => some (some .intersect, .ok (some (.intersect points)))
  | .requestNext => some (some .canAwait, .ok (some .requestNext))
  | .done => some (some .done, .ok none)
  | _ => none

def sendIntersectNotFound (tip : Tip) : Operation State (Message C) ServerError Unit :=
  .send (.intersectNotFound tip) (some .idle) ()

def sendIntersectFound (point : Point) (tip : Tip) : Operation State (Message C) ServerError Unit :=
  .send (.intersectFound point tip) (some .idle) ()

def sendRollForward (content : C) (tip : Tip) : Operation State (Message C) ServerError Unit :=
  .send (.rollForward content tip) (some .idle) ()

def sendRollBackward (point : Point) (tip : Tip) : Operation State (Message C) ServerError Unit :=
  .send (.rollBackward point tip) (some .idle) ()

def sendAwaitReply : Operation State (Message C) ServerError Unit := .send .awaitReply (some .mustReply) ()

end Server

inductive ServerCall (C : Type) where
  | recvWhileIdle
  | sendIntersectNotFound (tip : Tip)
  | sendIntersectFound (point : Point) (tip : Tip)
  | sendRollForward (content : C) (tip : Tip)
  | sendRollBackward (point : Point) (tip : Tip)
  | sendAwaitReply
  deriving DecidableEq

def ServerCall.operation : ServerCall C → Operation State (Message C) ServerError Unit
  | recvWhileIdle => Server.recvWhileIdle.void
  | sendIntersectNotFound tip => Server.sendIntersectNotFound tip
  | sendIntersectFound point tip => Server.sendIntersectFound point tip
  | sendRollForward content tip => Server.sendRollForward content tip
  | sendRollBackward point tip => Server.sendRollBackward point tip
  | sendAwaitReply => Server.sendAwaitReply

/-! ### Both -/

def pair : Pair State (Message C) ClientError ServerError ClientCall (ServerCall C) :=
  ⟨Client.agent, Server.agent, ClientCall.operation, ServerCall.operation⟩

theorem Client.follows : (Client.agent (C := C)).Follows protocol .client where
  theirs s h := by cases s <;> first | rfl | cases h
  ours s h := by cases s <;> first | rfl | cases h
  outbound s m hs h := by cases s <;> first | rfl | cases hs
  inbound s m := by cases s <;> cases m <;> simp [agent, assertInboundState, protocol, Side.other]

theorem Server.follows : (Server.agent (C := C)).Follows protocol .server where
  theirs s h := by cases s <;> first | rfl | cases h
  ours s h := by cases s <;> first | rfl | cases h
  outbound s m hs h := by cases s <;> first | rfl | cases hs
  inbound s m := by cases s <;> cases m <;> simp [agent, assertInboundState, protocol, Side.other]

theorem ClientCall.follows (op : ClientCall) : (op.operation (C := C)).Follows protocol Client.agent := by
  cases op with
  | sendFindIntersect | sendRequestNext | sendDone =>
    intro s hs
    cases s <;> first | (intro _; rfl) | cases hs
  | recvIntersectResponse | recvWhileCanAwait | recvWhileMustReply =>
    intro s msg next result _ hin harms
    cases s <;> cases msg <;> first | (cases hin; done) | (cases harms; done) | (cases harms; rfl)

theorem ServerCall.follows (op : ServerCall C) : op.operation.Follows protocol Server.agent := by
  cases op with
  | recvWhileIdle =>
    intro s msg next result _ hin harms
    cases s <;> cases msg <;> first | (cases hin; done) | (cases harms; rfl)
  | sendIntersectNotFound | sendIntersectFound | sendRollForward | sendRollBackward | sendAwaitReply =>
    intro s _ hout
    cases s <;> first | rfl | cases hout

theorem pair_follows : (pair (C := C)).Follows protocol :=
    ⟨Client.follows, Server.follows, ClientCall.follows, ServerCall.follows⟩

end Chainsync
end Pallas.Network
