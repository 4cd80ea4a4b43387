import Pallas.Lib.Agents
import Pallas.Lib.Cbor

/-!
# The monitor of the mempool (`pallas-network/src/miniprotocols/txmonitor`)

There is only a client here. Its public operations send a request and receive the answer, so it is run against a server that
answers: a machine that gets every message the client sends, and whose replies the client receives in order.
-/

namespace Pallas.Network.Txmonitor
open Turns Cbor

inductive State where
  | idle
  | acquiring
  | acquired
  | busy
  | done
  deriving DecidableEq

structure MempoolSizeAndCapacity where
  capacityInBytes : UInt32
  sizeInBytes : UInt32
  numberOfTxs : UInt32
  deriving DecidableEq

/-- `(Era, TagWrap<TxBody, 24>)`. -/
abbrev Tx := UInt8 × Bytes

inductive Message where
  | acquire
  | awaitAcquire
  | acquired (slot : UInt64)
  | requestHasTx (id : String)
  | requestNextTx
  | requestSizeAndCapacity
  | responseHasTx (has : Bool)
  | responseNextTx (tx : Option Tx)
  | responseSizeAndCapacity (sz : MempoolSizeAndCapacity)
  | release
  | done
  deriving DecidableEq

inductive Error where
  | agencyIsOurs
  | agencyIsTheirs
  | invalidInbound
  | invalidOutbound
  deriving DecidableEq

/-! ### The client (`client.rs`) -/

namespace Client

def hasAgency : State → Bool
  | .idle => true
  | .acquiring => false
  | .acquired => true
  | .busy => false
  | .done => false

def assertOutboundState : State → Message → Except Error Unit
  | .idle, .acquire => .ok ()
  | .idle, .done => .ok ()
  | .acquired, .acquire => .ok ()
  | .acquired, .requestHasTx _ => .ok ()
  | .acquired, .requestNextTx => .ok ()
  | .acquired, .requestSizeAndCapacity => .ok ()
  | _, _ => .error .invalidOutbound

def assertInboundState : State → Message → Except Error Unit
  | .acquiring, .acquired _ => .ok ()
  | .busy, .responseHasTx _ => .ok ()
  | .busy, .responseNextTx _ => .ok ()
  | .busy, .responseSizeAndCapacity _ => .ok ()
  | _, _ => .error .invalidInbound

def agent : Agent State Message Error :=
  ⟨hasAgency, assertOutboundState, assertInboundState, .agencyIsOurs, .agencyIsTheirs, .invalidInbound⟩

def sendAcquire : Operation State Message Error Unit := .send .acquire (some .acquiring) ()

def recvWhileAcquiring : Operation State Message Error UInt64 := .receive fun
  | .acquired slot => some (some .acquired, .ok slot)
  | _ => none

def sendRequestHasTx (id : String) : Operation State Message Error Unit := .send (.requestHasTx id) (some .busy) ()

def recvWhileRequestingHasTx : Operation State Message Error Bool := .receive fun
  | .responseHasTx x => some (some .acquired, .ok x)
  | _ => none

def sendRequestNextTx : Operation State Message Error Unit := .send .requestNextTx (some .busy) ()

def recvWhileRequestingNextTx : Operation State Message Error (Option Tx) := .receive fun
  | .responseNextTx x => some (some .acquired, .ok x)
  | _ => none

def sendRequestSizeAndCapacity : Operation State Message Error Unit := .send .requestSizeAndCapacity (some .busy) ()

def recvWhileRequestingSizeAndCapacity : Operation State Message Error MempoolSizeAndCapacity := .receive fun
  | .responseSizeAndCapacity x => some (some .acquired, .ok x)
  | _ => none

def release : Operation State Message Error Unit := .send .release (some .idle) ()

end Client

/-! ### The client and a server -/

/-- A machine that takes a message and replies. -/
structure Server (σ : Type) where
  serve : σ → Message → σ × List Message

/-- Every request is answered with one response to it. -/
structure Server.Answers {σ : Type} (server : Server σ) : Prop where
  acquire : ∀ s, ∃ slot, (server.serve s .acquire).2 = [.acquired slot]
  hasTx : ∀ s id, ∃ has, (server.serve s (.requestHasTx id)).2 = [.responseHasTx has]
  nextTx : ∀ s, ∃ tx, (server.serve s .requestNextTx).2 = [.responseNextTx tx]
  sizeAndCapacity : ∀ s, ∃ sz, (server.serve s .requestSizeAndCapacity).2 = [.responseSizeAndCapacity sz]

structure Session (σ : Type) where
  state : State
  inbox : List Message
  remote : σ
  deriving DecidableEq

namespace Session
variable {σ ρ : Type} (server : Server σ)

/-- What an operation returns and leaves, once the server has got what it sent. -/
def perform (op : Operation State Message Error ρ) (s : Session σ) : Option (Except Error ρ × Session σ) :=
  (op.run Client.agent s.state s.inbox).map fun e => (e.result,
    e.sent.foldl (fun s msg =>
      { s with remote := (server.serve s.remote msg).1, inbox := s.inbox ++ (server.serve s.remote msg).2 })
      { s with state := e.state, inbox := e.inbox })

/-- `self.send_request().await?; self.recv_response().await`. -/
def exchange (request : Operation State Message Error Unit) (response : Operation State Message Error ρ)
    (s : Session σ) :
    Option (Except Error ρ × Session σ) :=
  (perform server request s).bind fun
    | (.ok (), s) => perform server response s
    | (.error e, s) => some (.error e, s)

def acquire : Session σ → Option (Except Error UInt64 × Session σ) :=
  exchange server Client.sendAcquire Client.recvWhileAcquiring

def queryHasTx (id : String) : Session σ → Option (Except Error Bool × Session σ) :=
  exchange server (Client.sendRequestHasTx id) Client.recvWhileRequestingHasTx

def queryNextTx : Session σ → Option (Except Error (Option Tx) × Session σ) :=
  exchange server Client.sendRequestNextTx Client.recvWhileRequestingNextTx

def querySizeAndCapacity : Session σ → Option (Except Error MempoolSizeAndCapacity × Session σ) :=
  exchange server Client.sendRequestSizeAndCapacity Client.recvWhileRequestingSizeAndCapacity

def release : Session σ → Option (Except Error Unit × Session σ) := perform server Client.release

end Session

inductive Call where
  | acquire
  | queryHasTx (id : String)
  | queryNextTx
  | querySizeAndCapacity
  | release
  deriving DecidableEq

namespace Call
variable {σ : Type} (server : Server σ)

/-- The call without the value that it returns. -/
def run (s : Session σ) : Call → Option (Except Error Unit × Session σ)
  | acquire => (s.acquire server).map fun (r, s) => (r.map fun _ => (), s)
  | queryHasTx id => (s.queryHasTx server id).map fun (r, s) => (r.map fun _ => (), s)
  | queryNextTx => (s.queryNextTx server).map fun (r, s) => (r.map fun _ => (), s)
  | querySizeAndCapacity => (s.querySizeAndCapacity server).map fun (r, s) => (r.map fun _ => (), s)
  | release => s.release server

/-- The state of the protocol after the call. -/
def leads : Call → State
  | release => .idle
  | _ => .acquired

/-- A client acquires first, then queries or acquires again as often as it likes, and releases, again and again. -/
def Legal : State → List Call → Prop
  | _, [] => True
  | .idle, call :: calls => call = acquire ∧ Legal .acquired calls
  | .acquired, call :: calls => Legal call.leads calls
  | _, _ :: _ => False

/-- Every call returns `Ok` and leaves the state of the protocol. -/
def Accepted : List Call → Session σ → Prop
  | [], _ => True
  | call :: calls, s => ∃ s', call.run server s = some (.ok (), s') ∧ s'.state = call.leads ∧ Accepted calls s'

end Call

section Runs
variable {σ : Type} {server : Server σ} {s : Session σ}

theorem Session.exchange_ok {ρ : Type} {state : State} {remote : σ} {msg response : Message} {next : State} {r : ρ}
    {arms : Message → Option (Option State × Except Error ρ)} (hagency : Client.hasAgency state = true)
    (hout : Client.assertOutboundState state msg = .ok ()) (htheirs : Client.hasAgency next = false)
    (hin : Client.assertInboundState next response = .ok ()) (harms : arms response = some (some .acquired, .ok r))
    (hserve : (server.serve remote msg).2 = [response]) :
    Session.exchange server (.send msg (some next) ()) (.receive arms) ⟨state, [], remote⟩ =
      some (.ok r, ⟨.acquired, [], (server.serve remote msg).1⟩) := by
  simp [exchange, perform, Operation.run, Operation.receive, Client.agent, hagency, hout, htheirs, hin, harms, hserve]

theorem Call.run_ok (hserver : server.Answers) {call : Call} {state : State} (remote : σ)
    (hstate : state = .idle ∧ call = acquire ∨ state = .acquired) (hcall : call ≠ release) :
    ∃ remote', call.run server ⟨state, [], remote⟩ = some (.ok (), ⟨.acquired, [], remote'⟩) := by
  cases call with
  | acquire =>
    obtain ⟨slot, hserve⟩ := hserver.acquire remote
    have hout : Client.hasAgency state = true ∧ Client.assertOutboundState state .acquire = .ok () := by
      rcases hstate with ⟨rfl, -⟩ | rfl <;> exact ⟨rfl, rfl⟩
    have hrun : Session.acquire server ⟨state, [], remote⟩ = _ := Session.exchange_ok hout.1 hout.2 rfl rfl rfl hserve
    exact ⟨_, by rw [run, hrun]; rfl⟩
  | queryHasTx id =>
    obtain ⟨has, hserve⟩ := hserver.hasTx remote id
    obtain rfl : state = .acquired := by simpa using hstate
    have hrun : Session.queryHasTx server id ⟨.acquired, [], remote⟩ = _ :=
      Session.exchange_ok rfl rfl rfl rfl rfl hserve
    exact ⟨_, by rw [run, hrun]; rfl⟩
  | queryNextTx =>
    obtain ⟨tx, hserve⟩ := hserver.nextTx remote
    obtain rfl : state = .acquired := by simpa using hstate
    have hrun : Session.queryNextTx server ⟨.acquired, [], remote⟩ = _ := Session.exchange_ok rfl rfl rfl rfl rfl hserve
    exact ⟨_, by rw [run, hrun]; rfl⟩
  | querySizeAndCapacity =>
    obtain ⟨sz, hserve⟩ := hserver.sizeAndCapacity remote
    obtain rfl : state = .acquired := by simpa using hstate
    have hrun : Session.querySizeAndCapacity server ⟨.acquired, [], remote⟩ = _ :=
      Session.exchange_ok rfl rfl rfl rfl rfl hserve
    exact ⟨_, by rw [run, hrun]; rfl⟩
  | release => exact absurd rfl hcall

/-- `Release` is in no row of the outbound table. -/
theorem Session.release_refused (s : Session σ) : ∃ e, s.release server = some (.error e, s) := by
  obtain ⟨state, inbox, remote⟩ := s
  cases state
  · exact ⟨.invalidOutbound, rfl⟩
  · exact ⟨.agencyIsTheirs, rfl⟩
  · exact ⟨.invalidOutbound, rfl⟩
  · exact ⟨.agencyIsTheirs, rfl⟩
  · exact ⟨.agencyIsTheirs, rfl⟩

/-- A legal run is accepted exactly up to its first release. -/
theorem accepted_iff (hserver : server.Answers) {calls : List Call} {remote : σ} (h : Call.Legal .idle calls) :
    Call.Accepted server calls ⟨.idle, [], remote⟩ ↔ .release ∉ calls := by
  suffices hall : ∀ state remote, state = .idle ∨ state = .acquired → Call.Legal state calls →
      (Call.Accepted server calls ⟨state, [], remote⟩ ↔ .release ∉ calls) from hall .idle remote (.inl rfl) h
  clear h
  induction calls with
  | nil => simp [Call.Accepted]
  | cons call calls ih =>
    intro state remote hstate hlegal
    by_cases hrelease : call = .release
    · subst hrelease
      obtain ⟨e, hrefused⟩ := @Session.release_refused _ server ⟨state, [], remote⟩
      refine iff_of_false ?_ (by simp)
      rintro ⟨s', hrun, -⟩
      cases hrefused.symm.trans hrun
    · have hnext : (state = .idle ∧ call = .acquire ∨ state = .acquired) ∧ Call.Legal .acquired calls := by
        rcases hstate with rfl | rfl
        · exact ⟨.inl ⟨rfl, hlegal.1⟩, hlegal.2⟩
        · refine ⟨.inr rfl, ?_⟩
          cases call with
          | release => exact absurd rfl hrelease
          | _ => exact hlegal
      obtain ⟨remote', hrun⟩ := Call.run_ok hserver remote hnext.1 hrelease
      have hleads : call.leads = .acquired := by
        cases call with
        | release => exact absurd rfl hrelease
        | _ => rfl
      have hrest := ih .acquired remote' (.inr rfl) hnext.2
      rw [List.mem_cons, not_or, ← hrest, Call.Accepted]
      constructor
      · rintro ⟨s', hrun', -, haccepted⟩
        obtain ⟨-, rfl⟩ := Prod.mk.inj (Option.some.inj (hrun.symm.trans hrun'))
        exact ⟨fun heq => hrelease heq.symm, haccepted⟩
      · rintro ⟨-, haccepted⟩
        exact ⟨_, hrun, hleads.symm, haccepted⟩

end Runs

/-! ### A server -/

/-- An empty mempool of the slot that it counts. -/
def empty : Server UInt64 where
  serve slot
    | .acquire => (slot + 1, [.acquired slot])
    | .requestHasTx _ => (slot, [.responseHasTx false])
    | .requestNextTx => (slot, [.responseNextTx none])
    | .requestSizeAndCapacity => (slot, [.responseSizeAndCapacity ⟨1000, 0, 0⟩])
    | _ => (slot, [])

theorem empty_answers : empty.Answers :=
  ⟨fun slot => ⟨slot, rfl⟩, fun _ _ => ⟨false, rfl⟩, fun _ => ⟨none, rfl⟩, fun _ => ⟨_, rfl⟩⟩

theorem accepted_iff_empty : Call.Accepted empty [.acquire, .queryNextTx, .acquire, .queryHasTx "00"] ⟨.idle, [], 5⟩ ↔
    .release ∉ [Call.acquire, .queryNextTx, .acquire, .queryHasTx "00"] :=
  accepted_iff empty_answers ⟨rfl, trivial⟩

/-- Acquiring and releasing a snapshot fails. -/
theorem release_not_accepted : ¬ ∀ calls, Call.Legal .idle calls → Call.Accepted empty calls ⟨.idle, [], 5⟩ := by
  intro h
  obtain ⟨s, hacquire, -, s', hrelease, -⟩ := h [.acquire, .release] ⟨rfl, trivial⟩
  cases hacquire
  cases hrelease

end Pallas.Network.Txmonitor
