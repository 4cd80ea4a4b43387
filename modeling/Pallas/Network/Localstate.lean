import Pallas.Lib.Agents
import Pallas.Network2.Protocols

/-!
# Local state queries (`pallas-network/src/miniprotocols/localstate`)

`GenericClient` and `GenericServer`. A query and its result are items of CBOR that the protocol does not look into.
`acquire`, `query_any` and `query` call the operations of the client one after the other.
-/

namespace Pallas.Network.Localstate
open Turns Cbor

abbrev Point := Network2.Point

inductive State where
  | idle
  | acquiring
  | acquired
  | querying
  | done
  deriving DecidableEq

inductive AcquireFailure where
  | pointTooOld
  | pointNotOnChain
  deriving DecidableEq

/-- `query` and `result` carry the bytes of an `AnyCbor`. -/
inductive Message where
  | acquire (point : Option Point)
  | failure (reason : AcquireFailure)
  | acquired
  | query (request : Bytes)
  | result (response : Bytes)
  | reAcquire (point : Option Point)
  | release
  | done
  deriving DecidableEq

def protocol : Protocol State Message where
  turn
    | .idle | .acquired => some .client
    | .acquiring | .querying => some .server
    | .done => none
  move
    | .idle, .acquire _ => some .acquiring
    | .idle, .done => some .done
    | .acquiring, .acquired => some .acquired
    | .acquiring, .failure _ => some .idle
    | .acquired, .query _ => some .querying
    | .acquired, .reAcquire _ => some .acquiring
    | .acquired, .release => some .idle
    | .querying, .result _ => some .acquired
    | _, _ => none

/-! ### The client (`client.rs`) -/

inductive ClientError where
  | agencyIsOurs
  | agencyIsTheirs
  | invalidInbound
  | invalidOutbound
  | acquirePointNotFound
  | acquirePointTooOld
  deriving DecidableEq

def ClientError.from : AcquireFailure → ClientError
  | .pointTooOld => acquirePointTooOld
  | .pointNotOnChain => acquirePointNotFound

namespace Client

def hasAgency : State → Bool
  | .idle => true
  | .acquired => true
  | _ => false

def assertOutboundState : State → Message → Except ClientError Unit
  | .idle, .acquire _ => .ok ()
  | .idle, .done => .ok ()
  | .acquired, .query _ => .ok ()
  | .acquired, .reAcquire _ => .ok ()
  | .acquired, .release => .ok ()
  | _, _ => .error .invalidOutbound

def assertInboundState : State → Message → Except ClientError Unit
  | .acquiring, .acquired => .ok ()
  | .acquiring, .failure _ => .ok ()
  | .querying, .result _ => .ok ()
  | _, _ => .error .invalidInbound

def agent : Agent State Message ClientError :=
  ⟨hasAgency, assertOutboundState, assertInboundState, .agencyIsOurs, .agencyIsTheirs, .invalidInbound⟩

def sendAcquire (point : Option Point) : Operation State Message ClientError Unit :=
  .send (.acquire point) (some .acquiring) ()

def sendReacquire (point : Option Point) : Operation State Message ClientError Unit :=
  .send (.reAcquire point) (some .acquiring) ()

def sendRelease : Operation State Message ClientError Unit := .send .release (some .idle) ()

def sendDone : Operation State Message ClientError Unit := .send .done (some .done) ()

/-- A failure is an error of the operation, and sets the state. -/
def recvWhileAcquiring : Operation State Message ClientError Unit := .receive fun
  | .acquired => some (some .acquired, .ok ())
  | .failure x => some (some .idle, .error (.from x))
  | _ => none

def sendQuery (request : Bytes) : Operation State Message ClientError Message :=
  .send (.query request) (some .querying) (.query request)

def recvWhileQuerying : Operation State Message ClientError Bytes := .receive fun
  | .result result => some (some .acquired, .ok result)
  | _ => none

end Client

inductive ClientCall where
  | sendAcquire (point : Option Point)
  | sendReacquire (point : Option Point)
  | sendRelease
  | sendDone
  | recvWhileAcquiring
  | sendQuery (request : Bytes)
  | recvWhileQuerying
  deriving DecidableEq

def ClientCall.operation : ClientCall → Operation State Message ClientError Unit
  | sendAcquire point => Client.sendAcquire point
  | sendReacquire point => Client.sendReacquire point
  | sendRelease => Client.sendRelease
  | sendDone => Client.sendDone
  | recvWhileAcquiring => Client.recvWhileAcquiring
  | sendQuery request => (Client.sendQuery request).void
  | recvWhileQuerying => Client.recvWhileQuerying.void

/-! ### The server (`server.rs`) -/

inductive ServerError where
  | agencyIsOurs
  | agencyIsTheirs
  | invalidInbound
  | invalidOutbound
  deriving DecidableEq

inductive ClientQueryRequest where
  | reAcquire (point : Option Point)
  | query (request : Bytes)
  | release
  deriving DecidableEq

namespace Server

def hasAgency (s : State) : Bool := s = .acquiring ∨ s = .querying

def assertOutboundState : State → Message → Except ServerError Unit
  | .acquiring, .acquired => .ok ()
  | .acquiring, .failure _ => .ok ()
  | .querying, .result _ => .ok ()
  | _, _ => .error .invalidOutbound

def assertInboundState : State → Message → Except ServerError Unit
  | .idle, .acquire _ => .ok ()
  | .idle, .done => .ok ()
  | .acquired, .query _ => .ok ()
  | .acquired, .reAcquire _ => .ok ()
  | .acquired, .release => .ok ()
  | _, _ => .error .invalidInbound

def agent : Agent State Message ServerError :=
  ⟨hasAgency, assertOutboundState, assertInboundState, .agencyIsOurs, .agencyIsTheirs, .invalidInbound⟩

def sendFailure (reason : AcquireFailure) : Operation State Message ServerError Unit :=
  .send (.failure reason) (some .idle) ()

def sendAcquired : Operation State Message ServerError Unit := .send .acquired (some .acquired) ()

def sendResult (response : Bytes) : Operation State Message ServerError Unit :=
  .send (.result response) (some .acquired) ()

/-- The point to acquire, if the client goes on. -/
def recvWhileIdle : Operation State Message ServerError (Option (Option Point)) := .receive fun
  | .acquire point => some (some .acquiring, .ok (some point))
  | .done => some (some .done, .ok none)
  | _ => none

def recvWhileAcquired : Operation State Message ServerError ClientQueryRequest := .receive fun
  | .reAcquire point => some (some .acquiring, .ok (.reAcquire point))
  | .query query => some (some .querying, .ok (.query query))
  | .release => some (some .idle, .ok .release)
  | _ => none

end Server

inductive ServerCall where
  | sendFailure (reason : AcquireFailure)
  | sendAcquired
  | sendResult (response : Bytes)
  | recvWhileIdle
  | recvWhileAcquired
  deriving DecidableEq

def ServerCall.operation : ServerCall → Operation State Message ServerError Unit
  | sendFailure reason => Server.sendFailure reason
  | sendAcquired => Server.sendAcquired
  | sendResult response => Server.sendResult response
  | recvWhileIdle => Server.recvWhileIdle.void
  | recvWhileAcquired => Server.recvWhileAcquired.void

/-! ### Both -/

def pair : Pair State Message ClientError ServerError ClientCall ServerCall :=
  ⟨Client.agent, Server.agent, ClientCall.operation, ServerCall.operation⟩

theorem Client.follows : Client.agent.Follows protocol .client where
  theirs s h := by cases s <;> first | rfl | cases h
  ours s h := by cases s <;> first | rfl | cases h
  outbound s m hs h := by cases s <;> first | rfl | cases hs
  inbound s m := by cases s <;> cases m <;> simp [agent, assertInboundState, protocol, Side.other]

theorem Server.follows : Server.agent.Follows protocol .server where
  theirs s h := by cases s <;> first | rfl | cases h
  ours s h := by cases s <;> first | rfl | cases h
  outbound s m hs h := by cases s <;> first | rfl | cases hs
  inbound s m := by cases s <;> cases m <;> simp [agent, assertInboundState, protocol, Side.other]

theorem ClientCall.follows (op : ClientCall) : op.operation.Follows protocol Client.agent := by
  cases op with
  | sendAcquire | sendReacquire | sendRelease | sendDone | sendQuery =>
    intro s _ hout
    cases s <;> first | rfl | cases hout
  | recvWhileAcquiring | recvWhileQuerying =>
    intro s msg next result _ hin harms
    cases s <;> cases msg <;> first | (cases hin; done) | (cases harms; done) | (cases harms; rfl)

theorem ServerCall.follows (op : ServerCall) : op.operation.Follows protocol Server.agent := by
  cases op with
  | sendFailure | sendAcquired | sendResult =>
    intro s _ hout
    cases s <;> first | rfl | cases hout
  | recvWhileIdle | recvWhileAcquired =>
    intro s msg next result _ hin harms
    cases s <;> cases msg <;> first | (cases hin; done) | (cases harms; done) | (cases harms; rfl)

theorem pair_follows : pair.Follows protocol := ⟨Client.follows, Server.follows, ClientCall.follows, ServerCall.follows⟩

end Pallas.Network.Localstate
