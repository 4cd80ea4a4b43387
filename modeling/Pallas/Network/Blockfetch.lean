import Pallas.Network.Chainsync

/-!
# Block fetch (`pallas-network/src/miniprotocols/blockfetch`)

`request_range`, `fetch_single` and `fetch_range` of the client, and `send_block_range` of the server, call the operations
here one after the other.
-/

namespace Pallas.Network.Blockfetch
open Turns Cbor

inductive State where
  | idle
  | busy
  | streaming
  | done
  deriving DecidableEq

inductive Message where
  | requestRange (range : Point × Point)
  | clientDone
  | startBatch
  | noBlocks
  | block (body : Bytes)
  | batchDone
  deriving DecidableEq

def protocol : Protocol State Message where
  turn
    | .idle => some .client
    | .busy | .streaming => some .server
    | .done => none
  move
    | .idle, .requestRange _ => some .busy
    | .idle, .clientDone => some .done
    | .busy, .startBatch => some .streaming
    | .busy, .noBlocks => some .idle
    | .streaming, .block _ => some .streaming
    | .streaming, .batchDone => some .idle
    | _, _ => none

/-! ### The client (`client.rs`) -/

inductive ClientError where
  | agencyIsOurs
  | agencyIsTheirs
  | invalidInbound
  | invalidOutbound
  | noBlocks
  deriving DecidableEq

namespace Client

def hasAgency : State → Bool
  | .idle => true
  | .busy => false
  | .streaming => false
  | .done => false

def assertOutboundState : State → Message → Except ClientError Unit
  | .idle, .requestRange _ => .ok ()
  | .idle, .clientDone => .ok ()
  | _, _ => .error .invalidOutbound

def assertInboundState : State → Message → Except ClientError Unit
  | .busy, .startBatch => .ok ()
  | .busy, .noBlocks => .ok ()
  | .streaming, .block _ => .ok ()
  | .streaming, .batchDone => .ok ()
  | _, _ => .error .invalidInbound

def agent : Agent State Message ClientError :=
  ⟨hasAgency, assertOutboundState, assertInboundState, .agencyIsOurs, .agencyIsTheirs, .invalidInbound⟩

def sendRequestRange (range : Point × Point) : Operation State Message ClientError Unit :=
  .send (.requestRange range) (some .busy) ()

/-- `None` if there are no blocks. -/
def recvWhileBusy : Operation State Message ClientError (Option Unit) := .receive fun
  | .startBatch => some (some .streaming, .ok (some ()))
  | .noBlocks => some (some .idle, .ok none)
  | _ => none

def recvWhileStreaming : Operation State Message ClientError (Option Bytes) := .receive fun
  | .block body => some (none, .ok (some body))
  | .batchDone => some (some .idle, .ok none)
  | _ => none

def sendDone : Operation State Message ClientError Unit := .send .clientDone (some .done) ()

end Client

inductive ClientCall where
  | sendRequestRange (range : Point × Point)
  | recvWhileBusy
  | recvWhileStreaming
  | sendDone
  deriving DecidableEq

def ClientCall.operation : ClientCall → Operation State Message ClientError Unit
  | sendRequestRange range => Client.sendRequestRange range
  | recvWhileBusy => Client.recvWhileBusy.void
  | recvWhileStreaming => Client.recvWhileStreaming.void
  | sendDone => Client.sendDone

/-! ### The server (`server.rs`) -/

inductive ServerError where
  | agencyIsOurs
  | agencyIsTheirs
  | invalidInbound
  | invalidOutbound
  deriving DecidableEq

namespace Server

def hasAgency : State → Bool
  | .idle => false
  | .busy => true
  | .streaming => true
  | .done => false

def assertOutboundState : State → Message → Except ServerError Unit
  | .busy, .noBlocks => .ok ()
  | .busy, .startBatch => .ok ()
  | .streaming, .block _ => .ok ()
  | .streaming, .batchDone => .ok ()
  | _, _ => .error .invalidOutbound

def assertInboundState : State → Message → Except ServerError Unit
  | .idle, .requestRange _ => .ok ()
  | .idle, .clientDone => .ok ()
  | _, _ => .error .invalidInbound

def agent : Agent State Message ServerError :=
  ⟨hasAgency, assertOutboundState, assertInboundState, .agencyIsOurs, .agencyIsTheirs, .invalidInbound⟩

def sendStartBatch : Operation State Message ServerError Unit := .send .startBatch (some .streaming) ()

def sendNoBlocks : Operation State Message ServerError Unit := .send .noBlocks (some .idle) ()

def sendBlock (body : Bytes) : Operation State Message ServerError Unit := .send (.block body) none ()

def sendBatchDone : Operation State Message ServerError Unit := .send .batchDone (some .idle) ()

def recvWhileIdle : Operation State Message ServerError (Option (Point × Point)) := .receive fun
  | .requestRange range => some (some .busy, .ok (some range))
  | .clientDone => some (some .done, .ok none)
  | _ => none

end Server

inductive ServerCall where
  | sendStartBatch
  | sendNoBlocks
  | sendBlock (body : Bytes)
  | sendBatchDone
  | recvWhileIdle
  deriving DecidableEq

def ServerCall.operation : ServerCall → Operation State Message ServerError Unit
  | sendStartBatch => Server.sendStartBatch
  | sendNoBlocks => Server.sendNoBlocks
  | sendBlock body => Server.sendBlock body
  | sendBatchDone => Server.sendBatchDone
  | recvWhileIdle => Server.recvWhileIdle.void

/-! ### Both -/

def pair : Pair State Message ClientError ServerError ClientCall ServerCall :=
  ⟨Client.agent, Server.agent, ClientCall.operation, ServerCall.operation⟩

theorem Client.follows : Client.agent.Follows protocol .client where
  theirs s h := by cases s <;> first | rfl | cases h
  ours s h := by cases s <;> first | rfl | cases h
  outbound s m hs h := by cases s <;> first | rfl | cases hs
  inbound s m := by cases s <;> cases m <;> simp [agent, assertInboundState, protocol, Side.other]

theorem Server.follows : Server.agent.Follows protocol .server where
  theirs s h := by cases s <;> first | rfl | cases h
  ours s h := by cases s <;> first | rfl | cases h
  outbound s m hs h := by cases s <;> first | rfl | cases hs
  inbound s m := by cases s <;> cases m <;> simp [agent, assertInboundState, protocol, Side.other]

theorem ClientCall.follows (op : ClientCall) : op.operation.Follows protocol Client.agent := by
  cases op with
  | sendRequestRange | sendDone =>
    intro s hs
    cases s <;> first | (intro _; rfl) | cases hs
  | recvWhileBusy | recvWhileStreaming =>
    intro s msg next result _ hin harms
    cases s <;> cases msg <;> first | (cases hin; done) | (cases harms; done) | (cases harms; rfl)

theorem ServerCall.follows (op : ServerCall) : op.operation.Follows protocol Server.agent := by
  cases op with
  | recvWhileIdle =>
    intro s msg next result _ hin harms
    cases s <;> cases msg <;> first | (cases hin; done) | (cases harms; rfl)
  | sendStartBatch | sendNoBlocks | sendBlock | sendBatchDone =>
    intro s _ hout
    cases s <;> first | rfl | cases hout

theorem pair_follows : pair.Follows protocol := ⟨Client.follows, Server.follows, ClientCall.follows, ServerCall.follows⟩

end Pallas.Network.Blockfetch
