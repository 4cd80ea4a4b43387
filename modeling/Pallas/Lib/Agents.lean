import Pallas.Lib.Runs

/-!
# Two agents that take turns

A protocol between a client and a server has states, in each of which one side may speak or none, and a message moves it
from state to state. Each side runs an `Agent` that keeps the state for itself: tables say when it has agency, what it may
send and what it may receive, and every `Operation` sends or receives one message and then sets the state. The two are
joined by a queue in each direction.

The agents stay in step (`Pair.InStep`) as long as no operation takes a message off the queue that it has no arm for
(`Pair.Misses`): `Pair.inStep_iff`.
-/

namespace Turns

inductive Side where
  | client
  | server
  deriving DecidableEq

def Side.other : Side → Side
  | client => server
  | server => client

/-- The protocol itself: who may speak in a state, and where a message leads. -/
structure Protocol (S M : Type) where
  turn : S → Option Side
  move : S → M → Option S

/-- The tables of one side. -/
structure Agent (S M ε : Type) where
  hasAgency : S → Bool
  assertOutboundState : S → M → Except ε Unit
  assertInboundState : S → M → Except ε Unit
  agencyIsOurs : ε
  agencyIsTheirs : ε
  /-- What an operation returns for a message that none of its arms is for. -/
  invalidInbound : ε

/-- `send` is `self.send_message(&msg).await?; self.0 = next;`, and `recv` is `match self.recv_message().await? { .. }`.
A state that is `none` is not assigned. -/
inductive Operation (S M ε ρ : Type) where
  | send (msg : M) (next : Option S) (result : ρ)
  | recv (guard : S → Except ε Unit) (arms : M → Option (Option S × Except ε ρ))

variable {S M ε ρ : Type}

/-- What an operation leaves behind. -/
structure Effect (S M ε ρ : Type) where
  result : Except ε ρ
  state : S
  inbox : List M
  sent : List M

namespace Operation

/-- No effect at all means that the operation still waits for a message. -/
def run (agent : Agent S M ε) (op : Operation S M ε ρ) (state : S) (inbox : List M) : Option (Effect S M ε ρ) :=
  match op with
  | send msg next result =>
    if !agent.hasAgency state then some ⟨.error agent.agencyIsTheirs, state, inbox, []⟩
    else match agent.assertOutboundState state msg with
      | .error e => some ⟨.error e, state, inbox, []⟩
      | .ok () => some ⟨.ok result, next.getD state, inbox, [msg]⟩
  | recv guard arms => match guard state with
    | .error e => some ⟨.error e, state, inbox, []⟩
    | .ok () =>
      if agent.hasAgency state then some ⟨.error agent.agencyIsOurs, state, inbox, []⟩
      else match inbox with
        | [] => none
        | msg :: inbox => match agent.assertInboundState state msg with
          | .error e => some ⟨.error e, state, inbox, []⟩
          | .ok () => match arms msg with
            | none => some ⟨.error agent.invalidInbound, state, inbox, []⟩
            | some (next, result) => some ⟨result, next.getD state, inbox, []⟩

/-- The operation without what it returns. -/
def void : Operation S M ε ρ → Operation S M ε Unit
  | send msg next _ => send msg next ()
  | recv guard arms => recv guard fun msg => (arms msg).map fun (next, result) => (next, result.map fun _ => ())

/-- A receive without a condition of its own. -/
def receive (arms : M → Option (Option S × Except ε ρ)) : Operation S M ε ρ := recv (fun _ => .ok ()) arms

end Operation

/-- An agent that goes by the protocol. -/
structure Agent.Follows (agent : Agent S M ε) (P : Protocol S M) (side : Side) : Prop where
  theirs : ∀ s, P.turn s = some side.other → agent.hasAgency s = false
  ours : ∀ s, P.turn s = some side → agent.hasAgency s = true
  outbound : ∀ s m, agent.hasAgency s = true → agent.assertOutboundState s m = .ok () → P.turn s = some side
  inbound : ∀ s m, agent.assertInboundState s m = .ok () ↔ P.turn s = some side.other ∧ (P.move s m).isSome

/-- An operation that sets the state to where its message leads. -/
def Operation.Follows (P : Protocol S M) (agent : Agent S M ε) : Operation S M ε ρ → Prop
  | send msg next _ => ∀ s, agent.hasAgency s = true → agent.assertOutboundState s msg = .ok () →
      P.move s msg = some (next.getD s)
  | recv guard arms => ∀ s msg next result, guard s = .ok () → agent.assertInboundState s msg = .ok () →
      arms msg = some (next, result) → P.move s msg = some (next.getD s)

/-- The operation takes the first message off the queue and has no arm for it, although the protocol moves on. -/
def Operation.Misses (P : Protocol S M) (agent : Agent S M ε) (state : S) (inbox : List M) : Operation S M ε ρ → Prop
  | send .. => False
  | recv guard arms => guard state = .ok () ∧ agent.hasAgency state = false ∧ ∃ msg rest, inbox = msg :: rest ∧
      agent.assertInboundState state msg = .ok () ∧ arms msg = none ∧ P.move state msg ≠ some state

/-! ### What one operation does -/

/-- The messages are all sent by the side, and lead from the one state to the other. -/
def Protocol.Leads (P : Protocol S M) (side : Side) : S → List M → S → Prop
  | s, [], t => s = t
  | s, m :: ms, t => P.turn s = some side ∧ ∃ s', P.move s m = some s' ∧ P.Leads side s' ms t

theorem Protocol.Leads.concat {P : Protocol S M} {side : Side} {s t u : S} {ms : List M} {m : M}
    (h : P.Leads side s ms t)
    (hturn : P.turn t = some side) (hmove : P.move t m = some u) : P.Leads side s (ms ++ [m]) u := by
  induction ms generalizing s with
  | nil =>
    obtain rfl : s = t := h
    exact ⟨hturn, u, hmove, rfl⟩
  | cons m' ms ih =>
    obtain ⟨hs, s', hs', hrest⟩ := h
    exact ⟨hs, s', hs', ih hrest⟩

/-- Messages are under way in one direction at most, and lead from the state of the receiver to that of the sender. -/
def Protocol.Aligned (P : Protocol S M) (side : Side) (mine : S) (inbox outbox : List M) (peer : S) : Prop :=
  outbox = [] ∧ P.Leads side.other mine inbox peer ∨ inbox = [] ∧ P.Leads side peer outbox mine

theorem Protocol.Aligned.swap {P : Protocol S M} {side : Side} {mine peer : S} {inbox outbox : List M}
    (h : P.Aligned side mine inbox outbox peer) : P.Aligned side.other peer outbox inbox mine := by
  rcases h with ⟨hout, hleads⟩ | ⟨hin, hleads⟩
  · exact .inr ⟨hout, hleads⟩
  · cases side
    · exact .inl ⟨hin, hleads⟩
    · exact .inl ⟨hin, hleads⟩

theorem Side.ne_other {side : Side} (h : some side = some side.other) : False := by
  cases side <;> cases h

section Step
variable {P : Protocol S M} {agent : Agent S M ε} {side : Side} {op : Operation S M ε ρ} {s : S} {inbox : List M}
variable {e : Effect S M ε ρ}

/-- A step leaves all as it is, sends a message, or takes one off the queue. -/
theorem Operation.run_cases (h : op.run agent s inbox = some e) :
    (e.state = s ∧ e.inbox = inbox ∧ e.sent = []) ∨
    (∃ msg next result, op = send msg next result ∧ agent.hasAgency s = true ∧
      agent.assertOutboundState s msg = .ok () ∧ e = ⟨.ok result, next.getD s, inbox, [msg]⟩) ∨
    ∃ guard arms msg, op = recv guard arms ∧ guard s = .ok () ∧ agent.hasAgency s = false ∧ inbox = msg :: e.inbox ∧
      e.sent = [] ∧ (e.state = s ∧ (agent.assertInboundState s msg = .ok () → arms msg = none) ∨
        agent.assertInboundState s msg = .ok () ∧ ∃ next result, arms msg = some (next, result) ∧
          e.state = next.getD s) := by
  cases op with
  | send msg next result =>
    simp only [run] at h
    split at h
    · cases h
      exact .inl ⟨rfl, rfl, rfl⟩
    · next hagency =>
      split at h
      · cases h
        exact .inl ⟨rfl, rfl, rfl⟩
      · next hout =>
        cases h
        exact .inr (.inl ⟨msg, next, result, rfl, by simpa using hagency, hout, rfl⟩)
  | recv guard arms =>
    simp only [run] at h
    split at h
    · cases h
      exact .inl ⟨rfl, rfl, rfl⟩
    · next hguard =>
      split at h
      · cases h
        exact .inl ⟨rfl, rfl, rfl⟩
      · next hagency =>
        refine .inr (.inr ⟨guard, arms, ?_⟩)
        have hagency : agent.hasAgency s = false := by simpa using hagency
        split at h
        · cases h
        · next msg rest =>
          refine ⟨msg, rfl, hguard, hagency, ?_⟩
          split at h
          · next hin =>
            cases h
            exact ⟨rfl, rfl, .inl ⟨rfl, fun hok => by rw [hok] at hin; cases hin⟩⟩
          · next hin =>
            split at h
            · next harms =>
              cases h
              exact ⟨rfl, rfl, .inl ⟨rfl, fun _ => harms⟩⟩
            · next next' result harms =>
              cases h
              exact ⟨rfl, rfl, .inr ⟨hin, next', result, harms, rfl⟩⟩

theorem Protocol.Aligned.head {m : M} {rest outbox : List M} {peer : S} (h : P.Aligned side s (m :: rest) outbox peer) :
    outbox = [] ∧ P.turn s = some side.other ∧ ∃ t, P.move s m = some t ∧ P.Leads side.other t rest peer := by
  rcases h with ⟨hout, hturn, t, hmove, hrest⟩ | ⟨hin, -⟩
  · exact ⟨hout, hturn, t, hmove, hrest⟩
  · cases hin

theorem Operation.obeys (hagent : agent.Follows P side) (hop : op.Follows P agent) (hmiss : ¬ op.Misses P agent s inbox)
    (hrun : op.run agent s inbox = some e) {msg : M} {t : S} (hin : inbox = msg :: e.inbox)
    (hturn : P.turn s = some side.other) (hmove : P.move s msg = some t) : e.state = t := by
  have hok : agent.assertInboundState s msg = .ok () := (hagent.inbound s msg).2 ⟨hturn, by rw [hmove]; rfl⟩
  rcases run_cases hrun with ⟨-, hsame, -⟩ | ⟨msg', next, result, -, -, -, rfl⟩ |
    ⟨guard, arms, msg', rfl, hguard, hagency,
    hin', -, hstate⟩
  · rw [hsame] at hin
    exact absurd hin (List.cons_ne_self msg inbox).symm
  · exact absurd hin (List.cons_ne_self msg inbox).symm
  · obtain ⟨rfl, -⟩ := List.cons.inj (hin.symm.trans hin')
    rcases hstate with ⟨hs, harms⟩ | ⟨-, next, result, harms, hs⟩
    · by_contra hne
      refine hmiss ⟨hguard, hagency, msg, e.inbox, hin, hok, harms hok, fun hsame => hne ?_⟩
      rw [hs]
      exact Option.some.inj (hsame.symm.trans hmove)
    · rw [hs]
      exact Option.some.inj ((hop s msg next result hguard hok harms).symm.trans hmove)

theorem Operation.exists_of_misses (hagent : agent.Follows P side) (hmiss : op.Misses P agent s inbox)
    (hrun : op.run agent s inbox = some e) : ∃ msg t, inbox = msg :: e.inbox ∧ P.turn s = some side.other ∧
      P.move s msg = some t ∧ e.state ≠ t := by
  cases op with
  | send => exact hmiss.elim
  | recv guard arms =>
    obtain ⟨hguard, hagency, msg, rest, rfl, hin, harms, hne⟩ := hmiss
    obtain ⟨hturn, hsome⟩ := (hagent.inbound s msg).1 hin
    obtain ⟨t, hmove⟩ := Option.isSome_iff_exists.1 hsome
    simp only [run, hguard, hagency, hin, harms] at hrun
    cases hrun
    refine ⟨msg, t, rfl, hturn, hmove, ?_⟩
    rintro rfl
    exact hne hmove

theorem Operation.aligned (hagent : agent.Follows P side) (hop : op.Follows P agent) {outbox : List M} {peer : S}
    (h : P.Aligned side s inbox outbox peer) (hmiss : ¬ op.Misses P agent s inbox)
    (hrun : op.run agent s inbox = some e) :
    P.Aligned side e.state e.inbox (outbox ++ e.sent) peer := by
  rcases run_cases hrun with ⟨hs, hin, hsent⟩ | ⟨msg, next, result, rfl, hagency, hok, rfl⟩ |
    ⟨_, _, msg, -, -, -, hin, hsent, -⟩
  · rw [hs, hin, hsent, List.append_nil]
    exact h
  · have hturn := hagent.outbound s msg hagency hok
    have hmove := hop s hagency hok
    cases inbox with
    | cons m rest =>
      have hother := h.head.2.1
      rw [hturn] at hother
      exact (Side.ne_other hother).elim
    | nil =>
      refine .inr ⟨rfl, ?_⟩
      rcases h with ⟨rfl, rfl⟩ | ⟨-, hleads⟩
      · exact ⟨hturn, _, hmove, rfl⟩
      · exact hleads.concat hturn hmove
  · rw [hin] at h
    obtain ⟨rfl, hturn, t, hmove, hrest⟩ := h.head
    rw [obeys hagent hop hmiss hrun hin hturn hmove, hsent]
    exact .inl ⟨rfl, hrest⟩

end Step

/-! ### The two of them -/

/-- A client and a server, with the operations of each. -/
structure Pair (S M ε δ C D : Type) where
  client : Agent S M ε
  server : Agent S M δ
  clientOp : C → Operation S M ε Unit
  serverOp : D → Operation S M δ Unit

/-- An operation of either side. -/
inductive Call (C D : Type) where
  | client (op : C)
  | server (op : D)
  deriving DecidableEq

/-- The states of the two, and the messages under way to each. -/
structure System (S M : Type) where
  client : S
  server : S
  toClient : List M
  toServer : List M
  deriving DecidableEq

namespace System

def state (s : System S M) : Side → S
  | .client => s.client
  | .server => s.server

def inbox (s : System S M) : Side → List M
  | .client => s.toClient
  | .server => s.toServer

/-- The side has finished an operation. -/
def after (s : System S M) (side : Side) (e : Effect S M ε ρ) : System S M :=
  match side with
  | .client => { s with client := e.state, toClient := e.inbox, toServer := s.toServer ++ e.sent }
  | .server => { s with server := e.state, toServer := e.inbox, toClient := s.toClient ++ e.sent }

/-- Nothing is under way. -/
def Quiet (s : System S M) : Prop := s.toClient = [] ∧ s.toServer = []

end System

namespace Pair
variable {δ C D : Type} (pair : Pair S M ε δ C D) (P : Protocol S M)

def step (s : System S M) : Call C D → Option (System S M)
  | .client op => ((pair.clientOp op).run pair.client s.client s.toClient).map (s.after .client)
  | .server op => ((pair.serverOp op).run pair.server s.server s.toServer).map (s.after .server)

/-- Runs of operations in any order, from a state that both begin in. -/
def Runs (start : S) : List (Transition (System S M) (Call C D)) → System S M → Prop :=
  Run (· = ⟨start, start, [], []⟩) fun s i t => pair.step s i = some t

/-- With nothing under way both are in the same state, and one of them has agency if anyone may speak. -/
def InStep (s : System S M) : Prop :=
  s.Quiet → s.client = s.server ∧
    (P.turn s.client ≠ none → pair.client.hasAgency s.client ≠ pair.server.hasAgency s.server)

/-- A message that is taken off a queue, and that the protocol allows, has led to the state it stands for. -/
def Obeys (x : Transition (System S M) (Call C D)) : Prop :=
  ∀ side msg t, x.source.inbox side = msg :: x.target.inbox side → P.turn (x.source.state side) = some side.other →
    P.move (x.source.state side) msg = some t → x.target.state side = t

/-- The operation has no arm for the message it takes off the queue. -/
def Misses (x : Transition (System S M) (Call C D)) : Prop :=
  match x.input with
  | .client op => (pair.clientOp op).Misses P pair.client x.source.client x.source.toClient
  | .server op => (pair.serverOp op).Misses P pair.server x.source.server x.source.toServer

/-- Both go by the protocol, with all of their operations. -/
structure Follows : Prop where
  client : pair.client.Follows P .client
  server : pair.server.Follows P .server
  clientOp : ∀ op, (pair.clientOp op).Follows P pair.client
  serverOp : ∀ op, (pair.serverOp op).Follows P pair.server

variable {pair P} {s t : System S M} {start : S} {call : Call C D}

def Aligned (P : Protocol S M) (s : System S M) : Prop := P.Aligned .client s.client s.toClient s.toServer s.server

theorem Follows.aligned (h : pair.Follows P) (hs : Aligned P s) (hmiss : ¬ pair.Misses P ⟨s, call, t⟩)
    (hstep : pair.step s call = some t) : Aligned P t := by
  cases call with
  | client op =>
    obtain ⟨e, hrun, rfl⟩ := Option.map_eq_some_iff.1 hstep
    exact Operation.aligned h.client (h.clientOp op) hs hmiss hrun
  | server op =>
    obtain ⟨e, hrun, rfl⟩ := Option.map_eq_some_iff.1 hstep
    exact (Operation.aligned h.server (h.serverOp op) hs.swap hmiss hrun).swap

theorem Follows.obeys_iff (h : pair.Follows P) (hstep : pair.step s call = some t) :
    Obeys P (C := C) (D := D) ⟨s, call, t⟩ ↔ ¬ pair.Misses P ⟨s, call, t⟩ := by
  cases call with
  | client op =>
    obtain ⟨e, hrun, rfl⟩ := Option.map_eq_some_iff.1 hstep
    constructor
    · intro hobeys hmiss
      obtain ⟨msg, t, hin, hturn, hmove, hne⟩ := Operation.exists_of_misses h.client hmiss hrun
      exact hne (hobeys .client msg t hin hturn hmove)
    · intro hmiss side msg t hin hturn hmove
      cases side with
      | client => exact Operation.obeys h.client (h.clientOp op) hmiss hrun hin hturn hmove
      | server =>
        have hlen := congrArg List.length hin
        simp only [System.inbox, System.after, List.length_cons, List.length_append] at hlen
        omega
  | server op =>
    obtain ⟨e, hrun, rfl⟩ := Option.map_eq_some_iff.1 hstep
    constructor
    · intro hobeys hmiss
      obtain ⟨msg, t, hin, hturn, hmove, hne⟩ := Operation.exists_of_misses h.server hmiss hrun
      exact hne (hobeys .server msg t hin hturn hmove)
    · intro hmiss side msg t hin hturn hmove
      cases side with
      | server => exact Operation.obeys h.server (h.serverOp op) hmiss hrun hin hturn hmove
      | client =>
        have hlen := congrArg List.length hin
        simp only [System.inbox, System.after, List.length_cons, List.length_append] at hlen
        omega

theorem Follows.inStep (h : pair.Follows P) (hs : Aligned P s) : pair.InStep P s := by
  rintro ⟨hclient, hserver⟩
  have heq : s.client = s.server := by
    rcases hs with ⟨-, hleads⟩ | ⟨-, hleads⟩
    · rw [hclient] at hleads
      exact hleads
    · rw [hserver] at hleads
      exact hleads.symm
  refine ⟨heq, fun hturn => ?_⟩
  obtain ⟨side, hside⟩ := Option.ne_none_iff_exists'.1 hturn
  rw [← heq]
  cases side with
  | client => rw [h.client.ours _ hside, h.server.theirs _ hside]; exact Bool.noConfusion
  | server => rw [h.client.theirs _ hside, h.server.ours _ hside]; exact Bool.noConfusion

theorem Follows.throughout_aligned (h : pair.Follows P) {tr : List (Transition (System S M) (Call C D))}
    (hrun : pair.Runs start tr s) (hmiss : ∀ x ∈ tr, ¬ pair.Misses P x) : Run.Throughout (Aligned P) tr s := by
  induction hrun with
  | start hs =>
    rw [hs]
    exact ⟨by simp, .inl ⟨rfl, rfl⟩⟩
  | next _ hstep ih =>
    rw [List.forall_mem_append] at hmiss
    have hbefore := ih hmiss.1
    exact Run.throughout_concat.2 ⟨hbefore, h.aligned hbefore.2 (hmiss.2 _ (List.mem_singleton.2 rfl)) hstep⟩

theorem inStep_iff (h : pair.Follows P) {tr : List (Transition (System S M) (Call C D))} (hrun : pair.Runs start tr s) :
    Run.Throughout (pair.InStep P) tr s ∧ (∀ x ∈ tr, Obeys P x) ↔ ∀ x ∈ tr, ¬ pair.Misses P x := by
  have hobeys : (∀ x ∈ tr, Obeys P x) ↔ ∀ x ∈ tr, ¬ pair.Misses P x :=
    forall₂_congr fun x hx => h.obeys_iff (Run.step_of_mem hrun hx)
  rw [hobeys]
  refine and_iff_right_of_imp fun hmiss => ?_
  have hall := h.throughout_aligned hrun hmiss
  exact ⟨fun x hx => h.inStep (hall.1 x hx), h.inStep hall.2⟩

end Pair

end Turns
