import Pallas.Lib.Agents
import Pallas.Network2.Protocols

/-!
# Notification of local messages (`pallas-network/src/miniprotocols/localmsgnotification`)

The client asks a node for the messages it has, and says whether it wants to wait for one.
-/

namespace Pallas.Network

/-! ### The messages of `localmsgsubmission` -/

namespace Localmsgsubmission
open Cbor

structure DmqMsgPayload where
  msgBody : Bytes
  kesPeriod : UInt64
  expiresAt : UInt32
  deriving DecidableEq

structure DmqMsgOperationalCertificate where
  kesVk : Bytes
  issueNumber : UInt64
  startKesPeriod : UInt64
  certSig : Bytes
  deriving DecidableEq

structure DmqMsg where
  msgId : Bytes
  msgPayload : DmqMsgPayload
  kesSignature : Bytes
  operationalCertificate : DmqMsgOperationalCertificate
  coldVerificationKey : Bytes
  deriving DecidableEq

end Localmsgsubmission

namespace Localmsgnotification
open Turns Localmsgsubmission

inductive State where
  | idle
  | busyBlocking
  | busyNonBlocking
  | done
  deriving DecidableEq

inductive Message where
  | requestMessagesNonBlocking
  | replyMessagesNonBlocking (msgs : List DmqMsg) (hasMore : Bool)
  | requestMessagesBlocking
  | replyMessagesBlocking (msgs : List DmqMsg)
  | clientDone
  deriving DecidableEq

/-- The errors of both sides. -/
inductive Error where
  | agencyIsOurs
  | agencyIsTheirs
  | invalidInbound
  | invalidOutbound
  | alreadyInitialized
  deriving DecidableEq

def protocol : Protocol State Message where
  turn
    | .idle => some .client
    | .busyBlocking | .busyNonBlocking => some .server
    | .done => none
  move
    | .idle, .requestMessagesNonBlocking => some .busyNonBlocking
    | .idle, .requestMessagesBlocking => some .busyBlocking
    | .idle, .clientDone => some .done
    | .busyNonBlocking, .replyMessagesNonBlocking _ _ => some .idle
    | .busyBlocking, .replyMessagesBlocking _ => some .idle
    | _, _ => none

/-! ### The client (`client.rs`) -/

/-- The messages, and whether there are more. -/
structure Reply where
  msgs : List DmqMsg
  hasMore : Bool
  deriving DecidableEq

namespace Client

def hasAgency (s : State) : Bool := s = .idle

def assertOutboundState : State → Message → Except Error Unit
  | .idle, .requestMessagesNonBlocking => .ok ()
  | .idle, .requestMessagesBlocking => .ok ()
  | .idle, .clientDone => .ok ()
  | _, _ => .error .invalidOutbound

def assertInboundState : State → Message → Except Error Unit
  | .busyNonBlocking, .replyMessagesNonBlocking _ _ => .ok ()
  | .busyBlocking, .replyMessagesBlocking _ => .ok ()
  | _, _ => .error .invalidInbound

def agent : Agent State Message Error :=
  ⟨hasAgency, assertOutboundState, assertInboundState, .agencyIsOurs, .agencyIsTheirs, .invalidInbound⟩

def sendRequestMessagesNonBlocking : Operation State Message Error Unit :=
  .send .requestMessagesNonBlocking (some .busyNonBlocking) ()

def sendRequestMessagesBlocking : Operation State Message Error Unit :=
  .send .requestMessagesBlocking (some .busyBlocking) ()

def recvNextReply : Operation State Message Error Reply := .receive fun
  | .replyMessagesNonBlocking msgs hasMore => some (some .idle, .ok ⟨msgs, hasMore⟩)
  | .replyMessagesBlocking msgs => some (some .idle, .ok ⟨msgs, false⟩)
  | _ => none

def sendDone : Operation State Message Error Unit := .send .clientDone (some .done) ()

end Client

inductive ClientCall where
  | sendRequestMessagesNonBlocking
  | sendRequestMessagesBlocking
  | recvNextReply
  | sendDone
  deriving DecidableEq

def ClientCall.operation : ClientCall → Operation State Message Error Unit
  | sendRequestMessagesNonBlocking => Client.sendRequestMessagesNonBlocking
  | sendRequestMessagesBlocking => Client.sendRequestMessagesBlocking
  | recvNextReply => Client.recvNextReply.void
  | sendDone => Client.sendDone

/-! ### The server (`server.rs`) -/

inductive Request where
  | nonBlocking
  | blocking
  deriving DecidableEq

namespace Server

def hasAgency (s : State) : Bool := s ≠ .idle

/-- The two tables of the server name the error of the other. -/
def assertOutboundState : State → Message → Except Error Unit
  | .busyNonBlocking, .replyMessagesNonBlocking _ _ => .ok ()
  | .busyBlocking, .replyMessagesBlocking _ => .ok ()
  | _, _ => .error .invalidInbound

def assertInboundState : State → Message → Except Error Unit
  | .idle, .requestMessagesNonBlocking => .ok ()
  | .idle, .requestMessagesBlocking => .ok ()
  | .idle, .clientDone => .ok ()
  | _, _ => .error .invalidOutbound

def agent : Agent State Message Error :=
  ⟨hasAgency, assertOutboundState, assertInboundState, .agencyIsOurs, .agencyIsTheirs, .invalidInbound⟩

def sendReplyMessagesNonBlocking (msgs : List DmqMsg) (hasMore : Bool) : Operation State Message Error Unit :=
  .send (.replyMessagesNonBlocking msgs hasMore) (some .idle) ()

def sendReplyMessagesBlocking (msgs : List DmqMsg) : Operation State Message Error Unit :=
  .send (.replyMessagesBlocking msgs) (some .idle) ()

def recvNextRequest : Operation State Message Error Request := .receive fun
  | .requestMessagesNonBlocking => some (some .busyNonBlocking, .ok .nonBlocking)
  | .requestMessagesBlocking => some (some .busyBlocking, .ok .blocking)
  | _ => none

def recvDone : Operation State Message Error Unit := .receive fun
  | .clientDone => some (some .done, .ok ())
  | _ => none

end Server

inductive ServerCall where
  | sendReplyMessagesNonBlocking (msgs : List DmqMsg) (hasMore : Bool)
  | sendReplyMessagesBlocking (msgs : List DmqMsg)
  | recvNextRequest
  | recvDone
  deriving DecidableEq

def ServerCall.operation : ServerCall → Operation State Message Error Unit
  | sendReplyMessagesNonBlocking msgs hasMore => Server.sendReplyMessagesNonBlocking msgs hasMore
  | sendReplyMessagesBlocking msgs => Server.sendReplyMessagesBlocking msgs
  | recvNextRequest => Server.recvNextRequest.void
  | recvDone => Server.recvDone

/-! ### Both -/

def pair : Pair State Message Error Error ClientCall ServerCall :=
  ⟨Client.agent, Server.agent, ClientCall.operation, ServerCall.operation⟩

theorem Client.follows : Client.agent.Follows protocol .client where
  theirs s h := by cases s <;> first | rfl | cases h
  ours s h := by cases s <;> first | rfl | cases h
  outbound s m hs h := by cases s <;> first | rfl | cases hs
  inbound s m := by cases s <;> cases m <;> simp [agent, assertInboundState, protocol, Side.other]

theorem Server.follows : Server.agent.Follows protocol .server where
  theirs s h := by cases s <;> first | rfl | cases h
  ours s h := by cases s <;> first | rfl | cases h
  outbound s m hs h := by cases s <;> first | rfl | (cases hs; done) | (cases m <;> cases h)
  inbound s m := by cases s <;> cases m <;> simp [agent, assertInboundState, protocol, Side.other]

theorem ClientCall.follows (op : ClientCall) : op.operation.Follows protocol Client.agent := by
  cases op with
  | sendRequestMessagesNonBlocking | sendRequestMessagesBlocking | sendDone =>
    intro s _ hout
    cases s <;> first | rfl | cases hout
  | recvNextReply =>
    intro s msg next result _ hin harms
    cases s <;> cases msg <;> first | (cases hin; done) | (cases harms; rfl)

theorem ServerCall.follows (op : ServerCall) : op.operation.Follows protocol Server.agent := by
  cases op with
  | sendReplyMessagesNonBlocking | sendReplyMessagesBlocking =>
    intro s _ hout
    cases s <;> first | rfl | cases hout
  | recvNextRequest | recvDone =>
    intro s msg next result _ hin harms
    cases s <;> cases msg <;> first | (cases hin; done) | (cases harms; done) | (cases harms; rfl)

theorem pair_follows : pair.Follows protocol := ⟨Client.follows, Server.follows, ClientCall.follows, ServerCall.follows⟩

end Localmsgnotification
end Pallas.Network
