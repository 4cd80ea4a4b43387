import Pallas.Network2.OnePeer
import Pallas.Network2.Responder

/-!
# Messages of the wrong side

`State::apply` takes a message from whoever sends it. So an inbound message that only the local side may send is taken
where the local side has agency, as if it had been sent. `Minds` says of a message received that it was treated as agency
demands; where no message of the local side comes that the state takes, it holds of every message (`responder_minds_iff`,
`minds_of_settled`). The initiator runs its visitors after a violation, too, so there what is still to be reported must
have been reported before.
-/

namespace Pallas.Network2

/-- An inbound message of a tracked peer, the state of the peer before it and after it, and how many external events are
pushed. -/
structure Receipt (σ : Type) where
  message : AnyMessage
  before : σ
  after : σ
  events : ℕ

/-- A message is taken only from the side that has agency, and one that only the local side may send is a violation, and
nothing else comes of it. -/
structure Receipt.Minds {σ : Type} (y : Receipt σ) (protocols : σ → ProtocolStates) (violation : σ → Bool)
    (remote : Party) : Prop where
  taken : (protocols y.before).accepts y.message = true → (protocols y.before).agency y.message = some remote
  refused : y.message.sender ≠ remote →
    violation y.after = true ∧ protocols y.after = protocols y.before ∧ y.events = 0

theorem Receipt.taken_of {σ : Type} {y : Receipt σ} {ps : ProtocolStates} {remote : Party}
    (h : y.message.sender ≠ remote → ps.accepts y.message = false) (ha : ps.accepts y.message = true) :
    ps.agency y.message = some remote := by
  have hs : y.message.sender = remote := by
    by_contra hne
    rw [h hne] at ha
    cases ha
  rw [ProtocolStates.agency_of_accepts ha, hs]

/-! ### The responder -/

def ResponderOutput.isEvent : ResponderOutput → Bool
  | .externalEvent _ => true
  | _ => false

namespace ResponderBehavior
variable {s : ResponderBehavior}

/-- Messages of one peer, each received in the state after those before. -/
def recvReceipts (pid : PeerId) : ResponderBehavior → List AnyMessage → List (Receipt ResponderState)
  | _, [] => []
  | s, msg :: msgs =>
    ((s.peers.lookup pid).map fun st =>
      let (after, outbound) := s.receive pid msg st
      ⟨msg, st, after, (outbound.drop s.outbound.length).countP (·.isEvent)⟩).toList ++
    recvReceipts pid (s.onInboundMsg pid msg) msgs

/-- The messages received in a step. -/
def receipts (x : Transition ResponderBehavior ResponderInput) : List (Receipt ResponderState) :=
  match x.input with
  | .io (.recv pid msgs) => recvReceipts pid { x.source with outbound := [] } msgs
  | _ => []

/-- A receipt is what `receive` makes of a message. -/
theorem mem_recvReceipts {pid : PeerId} {msgs : List AnyMessage} {y : Receipt ResponderState}
    (h : y ∈ recvReceipts pid s msgs) : ∃ u : ResponderBehavior, y.after = (u.receive pid y.message y.before).1 ∧
      y.events = (((u.receive pid y.message y.before).2.drop u.outbound.length).countP (·.isEvent)) := by
  induction msgs generalizing s with
  | nil => simp [recvReceipts] at h
  | cons msg msgs ih =>
    rcases List.mem_append.1 h with h | h
    · cases hl : s.peers.lookup pid with
      | none => simp [hl] at h
      | some st =>
        obtain rfl : y = ⟨msg, st, (s.receive pid msg st).1, _⟩ := by simpa [hl] using h
        exact ⟨s, rfl, rfl⟩
    · exact ih h

theorem exists_of_mem_receipts {x : Transition ResponderBehavior ResponderInput} {y : Receipt ResponderState}
    (h : y ∈ receipts x) : ∃ (u : ResponderBehavior) (pid : PeerId), y.after = (u.receive pid y.message y.before).1 ∧
      y.events = (((u.receive pid y.message y.before).2.drop u.outbound.length).countP (·.isEvent)) := by
  unfold receipts at h
  split at h
  · next pid msgs _ =>
    obtain ⟨u, hu⟩ := mem_recvReceipts h
    exact ⟨u, pid, hu⟩
  · simp at h

theorem receive_of_not_accepts {pid : PeerId} {msg : AnyMessage} {st : ResponderState}
    (h : st.protocols.accepts msg = false) : s.receive pid msg st = (st.applyMsg msg, s.outbound) := by
  have hv : (st.applyMsg msg).violation = true := by rw [st.applyMsg_violation, h, Bool.not_false, Bool.or_true]
  unfold receive
  rw [if_pos hv]

/-- The message is not one of the server that the state takes. -/
def FromClient (y : Receipt ResponderState) : Prop :=
  y.message.sender = .server → y.before.protocols.accepts y.message = false

instance (y : Receipt ResponderState) : Decidable (FromClient y) := inferInstanceAs (Decidable (_ → _))

theorem minds_iff_fromClient {x : Transition ResponderBehavior ResponderInput} {y : Receipt ResponderState}
    (h : y ∈ receipts x) : y.Minds (·.protocols) (·.violation) .client ↔ FromClient y := by
  have hserver : y.message.sender ≠ .client ↔ y.message.sender = .server := by cases y.message.sender <;> simp
  constructor
  · intro hminds hs
    by_contra hacc
    have hagency := hminds.taken (Bool.not_eq_false _ ▸ hacc)
    rw [ProtocolStates.agency_of_accepts (Bool.not_eq_false _ ▸ hacc), hs] at hagency
    cases hagency
  · intro hfrom
    refine ⟨Receipt.taken_of fun hs => hfrom (hserver.1 hs), fun hs => ?_⟩
    obtain ⟨u, pid, hafter, hevents⟩ := exists_of_mem_receipts h
    have hacc := hfrom (hserver.1 hs)
    rw [receive_of_not_accepts hacc] at hafter hevents
    refine ⟨?_, ?_, ?_⟩
    · rw [hafter, ResponderState.applyMsg_violation, hacc, Bool.not_false, Bool.or_true]
    · rw [hafter, ResponderState.applyMsg_protocols, ProtocolStates.next_of_not_accepts hacc]
    · simpa using hevents

end ResponderBehavior

/-! ### The initiator -/

def BehaviorOutput.isEvent : BehaviorOutput → Bool
  | .externalEvent _ => true
  | _ => false

/-- The visitors find nothing to report. -/
structure InitiatorState.Settled (st : InitiatorState) : Prop where
  confirmed : st.connection = .connected → ∀ num data, st.handshake ≠ .done (.accepted num data)
  peers : ∀ peers, st.peersharing ≠ .idle (.response peers)
  body : ∀ body, st.blockfetch ≠ .streaming (some body)
  header : ∀ data, st.chainsync = .idle data → data = .new ∨ data = .drained
  notification : ∀ pending, st.leiosNotify ≠ .idle (some pending)
  fetched : ∀ pending, st.leiosFetch ≠ .idle (some pending)

variable {pid : PeerId} {st st' : InitiatorState} {outs : OutboundQueue}

/-- The peer is still settled, and what was done shows neither in its protocols nor in an event. -/
structure Unnoticed (st : InitiatorState) (outs : OutboundQueue) (st' : InitiatorState) : Prop where
  settled : st'.Settled
  protocols : st'.protocols = st.protocols
  violation : st'.violation = st.violation
  events : outs.countP (·.isEvent) = 0

theorem Move.unnoticed (h : Move pid st outs st') (hs : st.Settled) : Unnoticed st outs st' := by
  cases h with
  | request _ _ _ => exact ⟨⟨hs.confirmed, hs.peers, hs.body, hs.header, hs.notification, hs.fetched⟩, rfl, rfl, rfl⟩
  | deferredNext _ _ _ => exact ⟨⟨hs.confirmed, hs.peers, hs.body, hs.header, hs.notification, hs.fetched⟩, rfl, rfl, rfl⟩
  | promote tag => exact ⟨⟨hs.confirmed, hs.peers, hs.body, hs.header, hs.notification, hs.fetched⟩, rfl, rfl, rfl⟩
  | connect _ => exact ⟨⟨nofun, hs.peers, hs.body, hs.header, hs.notification, hs.fetched⟩, rfl, rfl, rfl⟩
  | disconnect _ => exact ⟨hs, rfl, rfl, rfl⟩
  | confirmed hc hd => exact absurd hd (hs.confirmed hc _ _)
  | takePeers hp => exact absurd hp (hs.peers _)
  | body hb => exact absurd hb (hs.body _)
  | inFlight range => exact ⟨⟨hs.confirmed, hs.peers, hs.body, hs.header, hs.notification, hs.fetched⟩, rfl, rfl, rfl⟩
  | header hn =>
    have hdrained : ChainSyncBehavior.drainData pid st [] = (st, []) := by
      unfold ChainSyncBehavior.drainData
      split
      · rfl
      · next data chainsync hdrain =>
        have hidle : st.chainsync = .idle data ∧ chainsync = .idle .drained := by
          cases hc : st.chainsync <;> simp [hc, Chainsync.State.drain] at hdrain
          exact ⟨by rw [hdrain.1], hdrain.2.symm⟩
        rcases hs.header data hidle.1 with rfl | rfl
        · simp [Chainsync.State.isNew, hidle.1] at hn
        · have hsame : { st with chainsync := chainsync } = st := by rw [hidle.2, ← hidle.1]
          simp [hsame]
    rw [hdrained]
    exact ⟨hs, rfl, rfl, rfl⟩
  | notification =>
    have hnone : LeiosNotifyBehavior.dispatch pid st [] = (st, []) := by
      have hdrain : st.leiosNotify.drain = (none, st.leiosNotify) := by
        cases hc : st.leiosNotify with
        | idle pending =>
          cases pending with
          | none => rfl
          | some n => exact absurd hc (hs.notification n)
        | _ => rfl
      simp [LeiosNotifyBehavior.dispatch, hdrain]
    rw [hnone]
    exact ⟨hs, rfl, rfl, rfl⟩
  | fetched =>
    have hnone : LeiosFetchBehavior.dispatch pid st [] = (st, []) := by
      have hdrain : st.leiosFetch.drain = (none, st.leiosFetch) := by
        cases hc : st.leiosFetch with
        | idle pending =>
          cases pending with
          | none => rfl
          | some n => exact absurd hc (hs.fetched n)
        | _ => rfl
      simp [LeiosFetchBehavior.dispatch, hdrain]
    rw [hnone]
    exact ⟨hs, rfl, rfl, rfl⟩

theorem Moves.unnoticed (h : Moves pid st outs st') (hs : st.Settled) : Unnoticed st outs st' := by
  induction h with
  | refl => exact ⟨hs, rfl, rfl, rfl⟩
  | snoc _ hmove ih =>
    obtain ⟨hs₁, hp₁, hv₁, he₁⟩ := ih
    obtain ⟨hs₂, hp₂, hv₂, he₂⟩ := hmove.unnoticed hs₁
    exact ⟨hs₂, hp₂.trans hp₁, hv₂.trans hv₁, by rw [List.countP_append, he₁, he₂]⟩

namespace InitiatorBehavior
variable {s : InitiatorBehavior}

/-- Messages of one peer, each received in the state after those before. -/
def recvReceipts (pid : PeerId) : InitiatorBehavior → List AnyMessage → List (Receipt InitiatorState)
  | _, [] => []
  | s, msg :: msgs => match s.onInboundMsg pid msg with
    | .ok t =>
      (match s.peers.lookup pid, t.peers.lookup pid with
        | some before, some after => [⟨msg, before, after, (t.outbound.drop s.outbound.length).countP (·.isEvent)⟩]
        | _, _ => []) ++ recvReceipts pid t msgs
    | _ => []

/-- The messages received in a step. -/
def receipts (x : Transition InitiatorBehavior Input) : List (Receipt InitiatorState) :=
  match x.input with
  | .io (.recv pid msgs) => recvReceipts pid { x.source with outbound := [] } msgs
  | _ => []

theorem mem_recvReceipts {msgs : List AnyMessage} {y : Receipt InitiatorState} (h : y ∈ recvReceipts pid s msgs) :
    ∃ outs, Moves pid (y.before.applyMsg y.message) outs y.after ∧ y.events = outs.countP (·.isEvent) := by
  induction msgs generalizing s with
  | nil => simp [recvReceipts] at h
  | cons msg msgs ih =>
    rw [recvReceipts] at h
    split at h
    · next t ht =>
      rcases List.mem_append.1 h with h | h
      · split at h
        · next st st' hl hl' =>
          obtain rfl := List.mem_singleton.1 h
          rcases modifyPeer_eq_ok.1 ht with ⟨hnone, -⟩ | ⟨st₁, r, hl₁, hr, rfl⟩
          · cases hl.symm.trans hnone
          · obtain rfl := Option.some.inj (hl.symm.trans hl₁)
            obtain ⟨-, outs, hout, hmoves⟩ := (SubBehaviors.visitInboundMsg_tends hr).moves
            obtain rfl : r.2 = st' := Option.some.inj ((Finmap.lookup_insert _).symm.trans hl')
            have hdrop : r.1.outbound.drop s.outbound.length = outs := by rw [hout, List.drop_left]
            exact ⟨outs, hmoves, congrArg (List.countP (·.isEvent)) hdrop⟩
        · simp at h
      · exact ih h
    · simp at h

/-- The message is not one of the client that the state takes; and if it is one of the client, there is nothing that the
visitors still have to report. -/
def FromServer (y : Receipt InitiatorState) : Prop :=
  y.message.sender = .client → y.before.protocols.accepts y.message = false ∧ y.before.Settled

theorem minds_of_fromServer {x : Transition InitiatorBehavior Input} {y : Receipt InitiatorState}
    (h : y ∈ receipts x) (hfrom : FromServer y) : y.Minds (·.protocols) (·.violation) .server := by
  have hclient : y.message.sender ≠ .server → y.message.sender = .client := by cases y.message.sender <;> simp
  refine ⟨Receipt.taken_of fun hs => (hfrom (hclient hs)).1, fun hs => ?_⟩
  obtain ⟨hacc, hsettled⟩ := hfrom (hclient hs)
  unfold receipts at h
  split at h
  · obtain ⟨outs, hmoves, hevents⟩ := mem_recvReceipts h
    rw [InitiatorState.applyMsg_of_not_accepts hacc] at hmoves
    have hs₁ : InitiatorState.Settled { y.before with violation := true } :=
      ⟨hsettled.confirmed, hsettled.peers, hsettled.body, hsettled.header, hsettled.notification, hsettled.fetched⟩
    obtain ⟨-, hprotocols, hviolation, hcount⟩ := hmoves.unnoticed hs₁
    exact ⟨hviolation, hprotocols, hevents.trans hcount⟩
  · simp at h

end InitiatorBehavior

/-- In a run of the responder agency is minded in every message received exactly if no message of the server comes that
the state takes; in a run of the initiator it is if none of the client comes that the state takes, nor one while
something is still to be reported. -/
theorem agency_minded (served : List (Transition ResponderBehavior ResponderInput)) (s : ResponderBehavior)
    (asked : List (Transition InitiatorBehavior Input)) (t : InitiatorBehavior) :
    (Run ResponderBehavior.Init ResponderBehavior.Step served s →
      ((∀ x ∈ served, ∀ y ∈ ResponderBehavior.receipts x, y.Minds (·.protocols) (·.violation) .client) ↔
        ∀ x ∈ served, ∀ y ∈ ResponderBehavior.receipts x, ResponderBehavior.FromClient y)) ∧
    (Run InitiatorBehavior.Init InitiatorBehavior.Step asked t →
      (∀ x ∈ asked, ∀ y ∈ InitiatorBehavior.receipts x, InitiatorBehavior.FromServer y) →
        ∀ x ∈ asked, ∀ y ∈ InitiatorBehavior.receipts x, y.Minds (·.protocols) (·.violation) .server) := by
  refine ⟨fun _ => ?_, fun _ hfrom x hx y hy => ?_⟩
  · exact forall₄_congr fun x _ y hy => ResponderBehavior.minds_iff_fromClient hy
  · exact InitiatorBehavior.minds_of_fromServer hy (hfrom x hx y hy)

/-- A responder takes a proposal of the client, and not a keep-alive response; an initiator takes an `Accept` of the server,
and not a proposal. -/
theorem agency_minded_proposal :
    (∃ tr s, Run ResponderBehavior.Init ResponderBehavior.Step tr s ∧
      (tr.flatMap ResponderBehavior.receipts).map (·.message.sender) = [.client, .server] ∧
      ∀ x ∈ tr, ∀ y ∈ ResponderBehavior.receipts x, y.Minds (·.protocols) (·.violation) .client) ∧
    ∃ tr s, Run InitiatorBehavior.Init InitiatorBehavior.Step tr s ∧
      (tr.flatMap InitiatorBehavior.receipts).map (·.message.sender) = [.server, .client] ∧
      ∀ x ∈ tr, ∀ y ∈ InitiatorBehavior.receipts x, y.Minds (·.protocols) (·.violation) .server := by
  constructor
  · have hplays : (Run.play ResponderBehavior.move (.new .default .default .default)
        [([], .io (.connected ⟨"a", 1⟩)),
          ([⟨"a", 1⟩], .io (.recv ⟨"a", 1⟩ [.handshake (.propose HandshakeBehavior.default.supportedVersion),
            .keepAlive (.responseKeepAlive 7)]))]).any
        (fun (tr, _) => (tr.flatMap ResponderBehavior.receipts).map (·.message.sender) = [.client, .server] ∧
          ∀ x ∈ tr, ∀ y ∈ ResponderBehavior.receipts x, ResponderBehavior.FromClient y) = true := by decide
    have hinit : ResponderBehavior.Init (.new .default .default .default) := ⟨_, _, _, rfl⟩
    obtain ⟨tr, s, hrun, htest⟩ := Run.exists_of_play ResponderBehavior.step_of_move hinit hplays
    obtain ⟨hsenders, hfrom⟩ := of_decide_eq_true htest
    exact ⟨tr, s, hrun, hsenders, ((agency_minded tr s [] (.new .default .default)).1 hrun).2 hfrom⟩
  · have hplays : (InitiatorBehavior.new .default .default).plays
        [(⟨[], []⟩, .command (.includePeer ⟨"a", 1⟩)), (⟨[⟨"a", 1⟩], []⟩, .io .idle),
          (⟨[⟨"a", 1⟩], []⟩, .io (.connected ⟨"a", 1⟩)),
          (⟨[⟨"a", 1⟩], []⟩,
            .io (.sent ⟨"a", 1⟩ (.handshake (.propose HandshakeBehavior.default.supportedVersion)))),
          (⟨[⟨"a", 1⟩], []⟩, .io (.recv ⟨"a", 1⟩ [.handshake (.accept 13 ⟨764824073, false, none, none⟩),
            .handshake (.propose HandshakeBehavior.default.supportedVersion)]))]
        (fun tr _ => (tr.flatMap InitiatorBehavior.receipts).map (·.message.sender) = [.server, .client] ∧
          ∀ x ∈ tr, ∀ y ∈ InitiatorBehavior.receipts x, y.message.sender = .client →
            y.before.protocols.accepts y.message = false ∧ y.before.connection = .initialized ∧
              y.before.peersharing = .idle .empty ∧ y.before.blockfetch = .idle ∧ y.before.chainsync = .idle .new ∧
              y.before.leiosNotify = .idle none ∧ y.before.leiosFetch = .idle none) = true := by decide
    obtain ⟨tr, s, hrun, htest⟩ := InitiatorBehavior.exists_run_of_plays ⟨_, _, rfl⟩ hplays
    obtain ⟨hsenders, hserver⟩ := of_decide_eq_true htest
    refine ⟨tr, s, hrun, hsenders, (agency_minded [] (.new .default .default .default) tr s).2 hrun
      fun x hx y hy hclient => ?_⟩
    obtain ⟨hacc, hconnection, hpeers, hblocks, hchain, hnotify, hfetch⟩ := hserver x hx y hy hclient
    exact ⟨hacc, by simp [hconnection], by simp [hpeers], by simp [hblocks], by simp [hchain], by simp [hnotify],
      by simp [hfetch]⟩

/-- A client accepts its own proposal for the responder. -/
theorem agency_not_minded : ¬ ∀ tr s, Run ResponderBehavior.Init ResponderBehavior.Step tr s →
    ∀ x ∈ tr, ∀ y ∈ ResponderBehavior.receipts x, y.Minds (·.protocols) (·.violation) .client := by
  intro h
  have hplays : (Run.play ResponderBehavior.move (.new .default .default .default)
      [([], .io (.connected ⟨"a", 1⟩)),
        ([⟨"a", 1⟩], .io (.recv ⟨"a", 1⟩ [.handshake (.propose HandshakeBehavior.default.supportedVersion)])),
        ([⟨"a", 1⟩], .io (.recv ⟨"a", 1⟩ [.handshake (.accept 13 ⟨764824073, false, none, none⟩)]))]).any
      (fun (tr, _) => ¬ ∀ x ∈ tr, ∀ y ∈ ResponderBehavior.receipts x, ResponderBehavior.FromClient y) =
        true := by decide
  have hinit : ResponderBehavior.Init (.new .default .default .default) := ⟨_, _, _, rfl⟩
  obtain ⟨tr, s, hrun, htest⟩ := Run.exists_of_play ResponderBehavior.step_of_move hinit hplays
  exact of_decide_eq_true htest fun x hx y hy => (ResponderBehavior.minds_iff_fromClient hy).1 (h tr s hrun x hx y hy)

end Pallas.Network2
