import Mathlib.Data.List.Forall2
import Mathlib.Tactic.Common
import Pallas.Network2.Protocols

/-!
# Sessions of tx-submission

A session opens with `Init`, goes through exchanges of a request of the server and a reply of the client, and ends with a
blocking request that is answered by `Done`. `intended` is the state machine that the states are named for: a reply goes
back to `Idle`, and the two kinds of requests for ids wait in two states. It takes every session. `apply` differs from it
in five transitions (`apply_eq_intended_iff`), and so it takes none: no state accepts `Done`, and no reply goes back.
-/

namespace Pallas.Network2.Txsubmission

/-- A request of the server and the reply to it. -/
inductive Exchange where
  | txIds (blocking : Bool) (ack count : UInt16) (ids : List TxIdAndSize)
  | txs (ids : List EraTxId) (bodies : List EraTxBody)

def Exchange.messages : Exchange → List Message
  | .txIds blocking ack count ids => [.requestTxIds blocking ack count, .replyTxIds ids]
  | .txs ids bodies => [.requestTxs ids, .replyTxs bodies]

def opening (exchanges : List Exchange) : List Message := .init :: exchanges.flatMap Exchange.messages

def session (exchanges : List Exchange) (ack count : UInt16) : List Message :=
  opening exchanges ++ [.requestTxIds true ack count, .done]

/-- The states that the messages lead to one after the other, unless one of them is rejected. -/
def run (apply : State → Message → Except ProtocolError State) :
    State → List Message → Except ProtocolError (List State)
  | _, [] => .ok []
  | s, msg :: msgs => match apply s msg with
    | .error e => .error e
    | .ok t => match run apply t msgs with
      | .error e => .error e
      | .ok states => .ok (t :: states)

/-- What is asked of the state a message leads to: idle after a reply, and a state for each value of the blocking flag
after a request for ids. -/
def Message.Leaves : Message → State → Prop
  | .requestTxIds true .., t => t = .txIdsBlocking
  | .requestTxIds false .., t => t = .txIdsNonBlocking
  | .replyTxIds _, t => t = .idle
  | .replyTxs _, t => t = .idle
  | _, _ => True

/-- No message is rejected, and each leads to a state it is to lead to. -/
def FollowsFrom (apply : State → Message → Except ProtocolError State) (s : State) (msgs : List Message) : Prop :=
  ∃ states, run apply s msgs = .ok states ∧ List.Forall₂ Message.Leaves msgs states

def Follows (apply : State → Message → Except ProtocolError State) (msgs : List Message) : Prop :=
  FollowsFrom apply default msgs

variable {apply : State → Message → Except ProtocolError State} {s t : State} {msg : Message} {msgs : List Message}

theorem run_cons_ok {states : List State} :
    run apply s (msg :: msgs) = .ok states ↔
      ∃ t rest, apply s msg = .ok t ∧ run apply t msgs = .ok rest ∧ states = t :: rest := by
  rw [run]
  cases apply s msg with
  | error e => simp
  | ok t =>
    cases hr : run apply t msgs with
    | error e => simp [hr]
    | ok rest => simp [hr, eq_comm]

theorem run_mem_ok {states : List State} (h : run apply s msgs = .ok states) (hm : msg ∈ msgs) :
    ∃ u t, apply u msg = .ok t := by
  induction msgs generalizing s states with
  | nil => simp at hm
  | cons m msgs ih =>
    obtain ⟨t, rest, ht, hrest, -⟩ := run_cons_ok.1 h
    rcases List.mem_cons.1 hm with rfl | hm
    · exact ⟨s, t, ht⟩
    · exact ih hrest hm

@[simp] theorem followsFrom_nil : FollowsFrom apply s [] := ⟨[], rfl, .nil⟩

theorem followsFrom_cons :
    FollowsFrom apply s (msg :: msgs) ↔ ∃ t, apply s msg = .ok t ∧ msg.Leaves t ∧ FollowsFrom apply t msgs := by
  constructor
  · rintro ⟨states, hrun, hleaves⟩
    obtain ⟨t, rest, ht, hrest, rfl⟩ := run_cons_ok.1 hrun
    obtain ⟨hm, hms⟩ := List.forall₂_cons.1 hleaves
    exact ⟨t, ht, hm, rest, hrest, hms⟩
  · rintro ⟨t, ht, hm, rest, hrest, hms⟩
    exact ⟨t :: rest, run_cons_ok.2 ⟨t, rest, ht, hrest, rfl⟩, .cons hm hms⟩

/-! ### The machine the states are named for -/

def State.intended : State → Message → Except ProtocolError State
  | .init, .init => .ok .idle
  | .idle, .requestTxIds true .. => .ok .txIdsBlocking
  | .idle, .requestTxIds false .. => .ok .txIdsNonBlocking
  | .idle, .requestTxs _ => .ok (.txs [])
  | .txIdsNonBlocking, .replyTxIds _ => .ok .idle
  | .txIdsBlocking, .replyTxIds _ => .ok .idle
  | .txIdsBlocking, .done => .ok .done
  | .txs _, .replyTxs _ => .ok .idle
  | _, _ => .error .invalidInbound

/-- The transitions that `apply` misses. -/
def State.Slips : State → Message → Prop
  | .idle, .requestTxIds false .. => True
  | .txIdsNonBlocking, .replyTxIds _ => True
  | .txIdsBlocking, .replyTxIds _ => True
  | .txIdsBlocking, .done => True
  | .txs _, .replyTxs _ => True
  | _, _ => False

theorem State.apply_eq_intended_iff (s : State) (msg : Message) : s.apply msg = s.intended msg ↔ ¬ s.Slips msg := by
  constructor
  · intro heq hslips
    rcases s with _ | _ | _ | _ | txs | _ <;> rcases msg with _ | ⟨_ | _, _, _⟩ | _ | _ | _ | _ <;>
      first | exact hslips | cases heq
  · intro hkept
    rcases s with _ | _ | _ | _ | txs | _ <;> rcases msg with _ | ⟨_ | _, _, _⟩ | _ | _ | _ | _ <;>
      first | rfl | exact absurd trivial hkept

theorem intended_exchange (x : Exchange) (h : FollowsFrom State.intended .idle msgs) :
    FollowsFrom State.intended .idle (x.messages ++ msgs) := by
  cases x with
  | txIds blocking ack count ids =>
    cases blocking with
    | true => exact followsFrom_cons.2 ⟨.txIdsBlocking, rfl, rfl, followsFrom_cons.2 ⟨.idle, rfl, rfl, h⟩⟩
    | false => exact followsFrom_cons.2 ⟨.txIdsNonBlocking, rfl, rfl, followsFrom_cons.2 ⟨.idle, rfl, rfl, h⟩⟩
  | txs ids bodies => exact followsFrom_cons.2 ⟨.txs [], rfl, trivial, followsFrom_cons.2 ⟨.idle, rfl, rfl, h⟩⟩

theorem intended_follows (exchanges : List Exchange) (ack count : UInt16) :
    Follows State.intended (session exchanges ack count) := by
  refine followsFrom_cons.2 ⟨.idle, rfl, trivial, ?_⟩
  change FollowsFrom _ _ (exchanges.flatMap Exchange.messages ++ _)
  induction exchanges with
  | nil =>
    have hdone : FollowsFrom State.intended .txIdsBlocking [.done] :=
      followsFrom_cons.2 ⟨.done, rfl, trivial, followsFrom_nil⟩
    exact followsFrom_cons.2 ⟨.txIdsBlocking, rfl, rfl, hdone⟩
  | cons x exchanges ih =>
    rw [List.flatMap_cons, List.append_assoc]
    exact intended_exchange x ih

/-! ### The machine of the code -/

theorem apply_done (s : State) : s.apply .done = .error .invalidInbound := by
  cases s <;> rfl

/-- Where an exchange stops in: waiting still. -/
def Exchange.rest : Exchange → State
  | .txIds .. => .txIdsBlocking
  | .txs _ bodies => .txs bodies

theorem run_exchange (x : Exchange) (msgs : List Message) :
    (run State.apply .idle (x.messages ++ msgs)).isOk = (run State.apply x.rest msgs).isOk := by
  cases x with
  | txIds blocking ack count ids =>
    simp only [Exchange.messages, Exchange.rest, List.cons_append, List.nil_append, run, State.apply]
    cases run State.apply .txIdsBlocking msgs <;> rfl
  | txs ids bodies =>
    simp only [Exchange.messages, Exchange.rest, List.cons_append, List.nil_append, run, State.apply]
    cases run State.apply (.txs bodies) msgs <;> rfl

/-- From there no request is accepted. -/
theorem run_rest (x y : Exchange) (msgs : List Message) :
    (run State.apply x.rest (y.messages ++ msgs)).isOk = false := by
  cases x <;> cases y <;> rfl

theorem opening_isOk_iff (exchanges : List Exchange) :
    (run State.apply default (opening exchanges)).isOk = true ↔ exchanges.length ≤ 1 := by
  have hinit : (run State.apply default (opening exchanges)).isOk =
      (run State.apply .idle (exchanges.flatMap Exchange.messages)).isOk := by
    change (run State.apply .init (.init :: exchanges.flatMap Exchange.messages)).isOk = _
    simp only [run, State.apply]
    cases run State.apply .idle (exchanges.flatMap Exchange.messages) <;> rfl
  rw [hinit]
  match exchanges with
  | [] => simp [run, Except.isOk, Except.toBool]
  | [x] => simpa [run, Except.isOk, Except.toBool] using run_exchange x []
  | x :: y :: exchanges =>
    rw [List.flatMap_cons, List.flatMap_cons, run_exchange, run_rest]
    simp

theorem not_followsFrom_exchange (x : Exchange) : ¬ FollowsFrom State.apply .idle (x.messages ++ msgs) := by
  intro h
  cases x with
  | txIds blocking ack count ids =>
    obtain ⟨t, ht, -, h⟩ := followsFrom_cons.1 h
    obtain rfl : State.txIdsBlocking = t := Except.ok.inj ht
    obtain ⟨u, hu, hleaves, -⟩ := followsFrom_cons.1 h
    obtain rfl : State.txIdsBlocking = u := Except.ok.inj hu
    cases hleaves
  | txs ids bodies =>
    obtain ⟨t, ht, -, h⟩ := followsFrom_cons.1 h
    obtain rfl : State.txs [] = t := Except.ok.inj ht
    obtain ⟨u, hu, hleaves, -⟩ := followsFrom_cons.1 h
    obtain rfl : State.txs bodies = u := Except.ok.inj hu
    cases hleaves

theorem opening_follows_iff (exchanges : List Exchange) : Follows State.apply (opening exchanges) ↔ exchanges = [] := by
  constructor
  · intro h
    obtain ⟨t, ht, -, h⟩ := followsFrom_cons.1 h
    obtain rfl : State.idle = t := Except.ok.inj ht
    cases exchanges with
    | nil => rfl
    | cons x exchanges =>
      rw [List.flatMap_cons] at h
      exact absurd h (not_followsFrom_exchange x)
  · rintro rfl
    exact followsFrom_cons.2 ⟨.idle, rfl, trivial, followsFrom_nil⟩

/-- No session follows the protocol: its last message is always rejected. Before that, only the opening without
exchanges does, and a second exchange is cut short. -/
theorem session_never_follows (exchanges : List Exchange) (ack count : UInt16) :
    ¬ Follows State.apply (session exchanges ack count) ∧
      (Follows State.apply (opening exchanges) ↔ exchanges = []) ∧
      ((run State.apply default (opening exchanges)).isOk = true ↔ exchanges.length ≤ 1) := by
  refine ⟨?_, opening_follows_iff exchanges, opening_isOk_iff exchanges⟩
  rintro ⟨states, hrun, -⟩
  have hlast : .done ∈ session exchanges ack count := by simp [session]
  obtain ⟨s, t, h⟩ := run_mem_ok hrun hlast
  rw [apply_done] at h
  cases h

/-- One exchange for a transaction, and then a blocking request answered by `Done`. -/
theorem session_cut_short : ¬ ∀ exchanges ack count, Follows State.apply (session exchanges ack count) := by
  intro h
  obtain ⟨states, hrun, -⟩ := h [.txs [⟨6, [1]⟩] [⟨6, [130, 1, 2]⟩]] 0 1
  have herror : run State.apply default (session [.txs [⟨6, [1]⟩] [⟨6, [130, 1, 2]⟩]] 0 1) =
      .error .invalidInbound := rfl
  rw [herror] at hrun
  cases hrun

end Pallas.Network2.Txsubmission
