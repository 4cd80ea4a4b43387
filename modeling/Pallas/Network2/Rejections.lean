import Pallas.Network2.Responder
import Pallas.Lib.Runs

/-!
# Peers that are turned away

A peer that is banned, or that connects while its host has too many connections, is only queued for a disconnection: its
state is there, and what it sends is handled. So it is served whenever it sends what the responder answers, when
housekeeping finds it ready to be asked for transactions, and when a command says so; and only then (`unserved_iff`).
-/

namespace Pallas.Network2

/-- The peer that an output serves: a message to it, its initialization, or what it requests or sends. -/
def ResponderOutput.served : ResponderOutput → Option PeerId
  | .interfaceCommand (.send pid _) => some pid
  | .interfaceCommand _ => none
  | .externalEvent event => match event with
    | .peerInitialized pid _ => some pid
    | .peerDisconnected _ => none
    | .intersectionRequested pid _ => some pid
    | .nextHeaderRequested pid => some pid
    | .blockRangeRequested pid _ => some pid
    | .peersRequested pid _ => some pid
    | .txReceived pid _ => some pid
    | .ebNotificationRequested pid => some pid
    | .ebRequested pid _ => some pid
    | .ebTxsRequested pid _ _ => some pid

/-- Messages that the responder answers, or tells of. -/
def AnyMessage.asks : AnyMessage → Bool
  | .handshake (.propose _) => true
  | .keepAlive (.keepAlive _) => true
  | .chainSync (.findIntersect _) => true
  | .chainSync .requestNext => true
  | .chainSync .awaitReply => true
  | .blockFetch (.requestRange _) => true
  | .peerSharing (.shareRequest _) => true
  | .txSubmission (.replyTxs txs) => !txs.isEmpty
  | .leiosNotify .requestNext => true
  | .leiosNotify .quit => true
  | .leiosFetch (.blockRequest _) => true
  | .leiosFetch (.blockTxsRequest ..) => true
  | _ => false

/-- Those that need no handshake before them. -/
def AnyMessage.anytime : AnyMessage → Bool
  | .handshake _ => true
  | .txSubmission _ => true
  | _ => false

namespace ResponderState
variable {st : ResponderState} {msg : AnyMessage}

/-- The message asks for an answer where the protocol lets it. -/
def answers (st : ResponderState) (msg : AnyMessage) : Bool :=
  !st.violation && st.protocols.accepts msg && msg.asks && (st.isInitialized || msg.anytime)

/-- None of the messages, one after the other, asks for an answer where the protocol lets it. -/
def unanswered : ResponderState → List AnyMessage → Bool
  | _, [] => true
  | st, msg :: msgs => !st.answers msg && unanswered (st.applyMsg msg) msgs

/-- It can be asked for ids of transactions. -/
def asksForTxs (st : ResponderState) : Prop :=
  st.isInitialized = true ∧ st.txSubmission = .idle ∧ st.unsent.byChannel.lookup Txsubmission.channelId = none

instance (st : ResponderState) : Decidable st.asksForTxs := inferInstanceAs (Decidable (_ ∧ _))

theorem applyMsg_connection (st : ResponderState) (msg : AnyMessage) :
    (st.applyMsg msg).connection = st.connection := by
  cases msg <;> simp only [applyMsg] <;> split <;> rfl

@[simp] theorem applyMsg_isInitialized (st : ResponderState) (msg : AnyMessage) :
    (st.applyMsg msg).isInitialized = st.isInitialized := by rw [isInitialized, applyMsg_connection, isInitialized]

end ResponderState

/-! ### Connections -/

namespace ConnectionResponder
variable {c : ConnectionResponder} {pid : PeerId} {st : ResponderState} {out : ResponderQueue}

theorem visitHousekeeping_outbound (c : ConnectionResponder) (pid : PeerId) (st : ResponderState)
    (out : ResponderQueue) :
    ∃ outs, (c.visitHousekeeping pid st out).2 = out ++ outs ∧ ∀ o ∈ outs, o = .interfaceCommand (.disconnect pid) := by
  unfold visitHousekeeping
  split
  · exact ⟨[_], rfl, by simp⟩
  · split
    · exact ⟨[_], rfl, by simp⟩
    · exact ⟨[], (List.append_nil _).symm, by simp⟩

theorem visitErrored_outbound (c : ConnectionResponder) (pid : PeerId) (st : ResponderState) (out : ResponderQueue) :
    ∃ outs, c.visitErrored pid st out = out ++ outs ∧ ∀ o ∈ outs, o = .interfaceCommand (.disconnect pid) := by
  unfold visitErrored
  split
  · exact ⟨[_], rfl, by simp⟩
  · exact ⟨[], (List.append_nil _).symm, by simp⟩

theorem takeOn_outbound {r : ConnectionResponder × ResponderQueue} (h : c.takeOn pid out = .ok r) :
    ∃ outs, r.2 = out ++ outs ∧ ∀ o ∈ outs, o = .interfaceCommand (.disconnect pid) := by
  unfold takeOn at h
  split at h
  · cases h
    exact ⟨[_], rfl, by simp⟩
  · split at h
    · cases h
      exact ⟨[], (List.append_nil _).symm, by simp⟩
    · obtain ⟨active, -, h⟩ := Outcome.bind_eq_ok.1 h
      cases h
      exact ⟨[], (List.append_nil _).symm, by simp⟩

theorem visitConnected_outbound {r : ConnectionResponder × ResponderQueue} (h : c.visitConnected pid out = .ok r) :
    ∃ outs, r.2 = out ++ outs ∧ ∀ o ∈ outs, o = .interfaceCommand (.disconnect pid) := by
  unfold visitConnected at h
  split at h
  · cases h
    exact ⟨[_], rfl, by simp⟩
  · obtain ⟨count, -, h⟩ := Outcome.bind_eq_ok.1 h
    exact takeOn_outbound h

end ConnectionResponder

namespace ResponderBehavior
variable {s t : ResponderBehavior} {pid : PeerId} {msg : AnyMessage} {st : ResponderState}

/-! ### One message -/

theorem tryAcceptHandshake_confirm (b : HandshakeResponder) {proposed : Handshake.VersionTable} {out : ResponderQueue}
    (h : st.handshake = .confirm proposed) :
    ∃ st' o outs, b.tryAcceptHandshake pid st out = (st', out ++ o :: outs) ∧ o.served = some pid ∧
      ∀ o' ∈ outs, o'.served = some pid := by
  unfold HandshakeResponder.tryAcceptHandshake
  rw [h]
  dsimp only
  split
  · split
    · exact ⟨_, _, [], rfl, rfl, by simp⟩
    · exact ⟨_, _, [_], rfl, rfl, by simp [ResponderOutput.served]⟩
  · exact ⟨_, _, [], rfl, rfl, by simp⟩

theorem handshake_cases {ps : ProtocolStates} {m : Handshake.Message} (ha : ps.accepts (.handshake m) = true) :
    (AnyMessage.handshake m).asks = true ∧ (∃ table, (ps.next (.handshake m)).handshake = .confirm table) ∨
      (AnyMessage.handshake m).asks = false ∧ ∃ result, (ps.next (.handshake m)).handshake = .done result := by
  simp only [ProtocolStates.accepts, ProtocolStates.next, advance] at ha ⊢
  generalize ps.handshake = k at ha ⊢
  cases k <;> cases m <;>
    first | exact absurd ha Bool.false_ne_true | exact .inl ⟨rfl, _, rfl⟩ | exact .inr ⟨rfl, _, rfl⟩

/-- What the responder has to say once its protocols are in these states, beside the handshake. -/
def told (pid : PeerId) (ps : ProtocolStates) : AnyMessage → ResponderQueue
  | .handshake _ => []
  | .keepAlive _ => match ps.keepalive with
    | .server cookie => [.interfaceCommand (.send pid (.keepAlive (.responseKeepAlive cookie)))]
    | _ => []
  | .chainSync _ => match ps.chainsync with
    | .intersect points => [.externalEvent (.intersectionRequested pid points)]
    | .canAwait => [.externalEvent (.nextHeaderRequested pid)]
    | .mustReply => [.externalEvent (.nextHeaderRequested pid)]
    | _ => []
  | .blockFetch _ => match ps.blockfetch with
    | .busy range => [.externalEvent (.blockRangeRequested pid range)]
    | _ => []
  | .peerSharing _ => match ps.peersharing with
    | .busy amount => [.externalEvent (.peersRequested pid amount)]
    | _ => []
  | .txSubmission _ => match ps.txSubmission with
    | .txs txs => txs.map fun tx => .externalEvent (.txReceived pid tx)
    | _ => []
  | .leiosNotify _ => match ps.leiosNotify with
    | .busy => [.externalEvent (.ebNotificationRequested pid)]
    | .quit => [.interfaceCommand (.send pid (.leiosNotify .done))]
    | _ => []
  | .leiosFetch _ => match ps.leiosFetch with
    | .awaitingBlock eb => [.externalEvent (.ebRequested pid eb)]
    | .awaitingBlockTxs eb bitmaps => [.externalEvent (.ebTxsRequested pid eb bitmaps)]
    | _ => []

theorem served_of_mem_told {ps : ProtocolStates} {o : ResponderOutput} (h : o ∈ told pid ps msg) :
    o.served = some pid := by
  unfold told at h
  split at h <;> try split at h
  all_goals simp at h
  all_goals try subst h
  all_goals try rfl
  obtain ⟨tx, -, rfl⟩ := h
  rfl

/-- A message that is taken leaves something to say exactly if it asks. -/
theorem told_eq_nil {ps : ProtocolStates} (ha : ps.accepts msg = true) (hh : ∀ m, msg ≠ .handshake m) :
    told pid (ps.next msg) msg = [] ↔ msg.asks = false := by
  cases msg with
  | handshake m => exact absurd rfl (hh m)
  | keepAlive m =>
    simp only [ProtocolStates.accepts, ProtocolStates.next, told, advance] at ha ⊢
    generalize ps.keepalive = k at ha ⊢
    cases k <;> cases m <;>
      first
        | exact absurd ha Bool.false_ne_true
        | exact iff_of_true rfl rfl
        | exact iff_of_false (List.cons_ne_nil _ _) Bool.false_ne_true.symm
  | chainSync m =>
    simp only [ProtocolStates.accepts, ProtocolStates.next, told, advance] at ha ⊢
    generalize ps.chainsync = k at ha ⊢
    cases k <;> cases m <;>
      first
        | exact absurd ha Bool.false_ne_true
        | exact iff_of_true rfl rfl
        | exact iff_of_false (List.cons_ne_nil _ _) Bool.false_ne_true.symm
  | blockFetch m =>
    simp only [ProtocolStates.accepts, ProtocolStates.next, told, advance] at ha ⊢
    generalize ps.blockfetch = k at ha ⊢
    cases k <;> cases m <;>
      first
        | exact absurd ha Bool.false_ne_true
        | exact iff_of_true rfl rfl
        | exact iff_of_false (List.cons_ne_nil _ _) Bool.false_ne_true.symm
  | peerSharing m =>
    simp only [ProtocolStates.accepts, ProtocolStates.next, told, advance] at ha ⊢
    generalize ps.peersharing = k at ha ⊢
    cases k <;> cases m <;>
      first
        | exact absurd ha Bool.false_ne_true
        | exact iff_of_true rfl rfl
        | exact iff_of_false (List.cons_ne_nil _ _) Bool.false_ne_true.symm
  | txSubmission m =>
    simp only [ProtocolStates.accepts, ProtocolStates.next, told, advance] at ha ⊢
    generalize ps.txSubmission = k at ha ⊢
    cases m with
    | replyTxs txs =>
      cases txs <;> cases k <;>
        first
          | exact absurd ha Bool.false_ne_true
          | exact iff_of_true rfl rfl
          | exact iff_of_false (List.cons_ne_nil _ _) Bool.false_ne_true.symm
    | _ => cases k <;> first | exact absurd ha Bool.false_ne_true | exact iff_of_true rfl rfl
  | leiosNotify m =>
    simp only [ProtocolStates.accepts, ProtocolStates.next, told, advance] at ha ⊢
    generalize ps.leiosNotify = k at ha ⊢
    cases k <;> cases m <;>
      first
        | exact absurd ha Bool.false_ne_true
        | exact iff_of_true rfl rfl
        | exact iff_of_false (List.cons_ne_nil _ _) Bool.false_ne_true.symm
  | leiosFetch m =>
    simp only [ProtocolStates.accepts, ProtocolStates.next, told, advance] at ha ⊢
    generalize ps.leiosFetch = k at ha ⊢
    cases k <;> cases m <;>
      first
        | exact absurd ha Bool.false_ne_true
        | exact iff_of_true rfl rfl
        | exact iff_of_false (List.cons_ne_nil _ _) Bool.false_ne_true.symm

theorem visitInboundMsg_told (s : ResponderBehavior) (pid : PeerId) (st : ResponderState)
    (hh : ∀ m, msg ≠ .handshake m) :
    s.visitInboundMsg pid msg st =
      (st, s.outbound ++ if st.isInitialized || msg.anytime then told pid st.protocols msg else []) := by
  cases msg with
  | handshake m => exact absurd rfl (hh m)
  | txSubmission m =>
    simp only [visitInboundMsg, TxSubmissionResponder.tryExtractTxs, told, ResponderState.protocols, AnyMessage.anytime,
      Bool.or_true, if_true]
    cases st.txSubmission <;> simp
  | _ =>
    simp only [visitInboundMsg, told, ResponderState.protocols, AnyMessage.anytime, Bool.or_false,
      KeepaliveResponder.tryRespond, ChainSyncResponder.checkRequests, BlockFetchResponder.checkRequests,
      PeerSharingResponder.checkRequests, LeiosNotifyResponder.visitInboundMsg, LeiosFetchResponder.visitInboundMsg]
    cases st.isInitialized
    · simp
    · simp only [Bool.not_true, Bool.false_eq_true, if_false, if_true]
      split <;> simp [*]

theorem receive_answered (h : st.answers msg = true) :
    ∃ st' o outs, s.receive pid msg st = (st', s.outbound ++ o :: outs) ∧ o.served = some pid ∧
      ∀ o' ∈ outs, o'.served = some pid := by
  simp only [ResponderState.answers, Bool.and_eq_true, Bool.not_eq_true'] at h
  obtain ⟨⟨⟨hv, haccepts⟩, hasks⟩, hready⟩ := h
  have hvalid : (st.applyMsg msg).violation = false := by rw [st.applyMsg_violation, hv, haccepts]; rfl
  have hvisit : s.receive pid msg st = s.visitInboundMsg pid msg (st.applyMsg msg) := by simp [receive, hvalid]
  rw [hvisit]
  by_cases hh : ∃ m, msg = .handshake m
  · obtain ⟨m, rfl⟩ := hh
    rcases handshake_cases haccepts with ⟨-, table, hstate⟩ | ⟨hnone, -⟩
    · rw [← st.applyMsg_protocols] at hstate
      exact tryAcceptHandshake_confirm s.handshake hstate
    · rw [hnone] at hasks
      cases hasks
  · have hne : ∀ m, msg ≠ .handshake m := fun m hm => hh ⟨m, hm⟩
    have htold : told pid _ _ = [] ↔ _ := told_eq_nil haccepts hne
    rw [visitInboundMsg_told s pid _ hne, ResponderState.applyMsg_isInitialized, if_pos hready, st.applyMsg_protocols]
    cases houts : told pid (st.protocols.next msg) msg with
    | nil =>
      rw [htold.1 houts] at hasks
      cases hasks
    | cons o outs =>
      have hserved : ∀ o' ∈ o :: outs, o'.served = some pid := fun o' ho' => served_of_mem_told (houts ▸ ho')
      exact ⟨_, o, outs, rfl, hserved o List.mem_cons_self, fun o' ho' => hserved o' (List.mem_cons_of_mem o ho')⟩

/-- One that does not leaves the queue. -/
theorem receive_unanswered (h : st.answers msg = false) : s.receive pid msg st = (st.applyMsg msg, s.outbound) := by
  unfold receive
  by_cases hv : (st.applyMsg msg).violation = true
  · simp [hv]
  · have hv' := Bool.eq_false_iff.2 hv
    have happly := hv'
    rw [st.applyMsg_violation, Bool.or_eq_false_iff, Bool.not_eq_false'] at happly
    obtain ⟨hbefore, haccepts⟩ := happly
    simp only [ResponderState.answers, hbefore, haccepts, Bool.not_false, Bool.true_and] at h
    simp only [hv', Bool.false_eq_true, if_false]
    by_cases hh : ∃ m, msg = .handshake m
    · obtain ⟨m, rfl⟩ := hh
      rcases handshake_cases haccepts with ⟨hasks, -⟩ | ⟨-, result, hstate⟩
      · simp [hasks, AnyMessage.anytime] at h
      · rw [← st.applyMsg_protocols] at hstate
        have hdone : (st.applyMsg (.handshake m)).handshake = .done result := hstate
        simp [visitInboundMsg, HandshakeResponder.tryAcceptHandshake, hdone]
    · have hne : ∀ m, msg ≠ .handshake m := fun m hm => hh ⟨m, hm⟩
      have htold : told pid _ _ = [] ↔ _ := told_eq_nil haccepts hne
      rw [visitInboundMsg_told s pid _ hne, ResponderState.applyMsg_isInitialized, st.applyMsg_protocols]
      rcases Bool.and_eq_false_iff.1 h with hasks | hready
      · simp [htold.2 hasks]
      · simp [hready]

/-! ### One input -/

/-- Something in the queue serves the peer. -/
def serves (s : ResponderBehavior) (pid : PeerId) : Prop := ∃ o ∈ s.outbound, o.served = some pid

instance (s : ResponderBehavior) (pid : PeerId) : Decidable (s.serves pid) := inferInstanceAs (Decidable (∃ o ∈ _, _))

theorem onInboundMsgs_none {msgs : List AnyMessage} (hl : s.peers.lookup pid = none) :
    msgs.foldl (fun s msg => s.onInboundMsg pid msg) s = s := by
  induction msgs with
  | nil => rfl
  | cons msg msgs ih =>
    have hstay : s.onInboundMsg pid msg = s := by rw [onInboundMsg, hl]
    rw [List.foldl_cons, hstay, ih]

theorem onInboundMsgs_some {msgs : List AnyMessage} (hl : s.peers.lookup pid = some st) :
    ∃ outs, (msgs.foldl (fun s msg => s.onInboundMsg pid msg) s).outbound = s.outbound ++ outs ∧
      (∀ o ∈ outs, o.served = some pid) ∧ (outs = [] ↔ st.unanswered msgs = true) := by
  induction msgs generalizing s st with
  | nil => exact ⟨[], (List.append_nil _).symm, by simp, by simp [ResponderState.unanswered]⟩
  | cons msg msgs ih =>
    have hstep : ∀ st' out, s.receive pid msg st = (st', out) →
        s.onInboundMsg pid msg = { s with peers := s.peers.insert pid st', outbound := out } := fun st' out hr => by
      rw [onInboundMsg, hl]
      simp only [hr]
    rw [List.foldl_cons]
    by_cases ha : st.answers msg = true
    · obtain ⟨st', o, outs, hreceive, ho, houts⟩ := @receive_answered s pid msg st ha
      obtain ⟨more, hmore, hserved, -⟩ := @ih (s.onInboundMsg pid msg) st'
        (by rw [hstep _ _ hreceive]; exact Finmap.lookup_insert _)
      refine ⟨o :: outs ++ more, ?_, ?_, by simp [ResponderState.unanswered, ha]⟩
      · rw [hmore, hstep _ _ hreceive, List.append_assoc]
      · exact List.forall_mem_append.2 ⟨List.forall_mem_cons.2 ⟨ho, houts⟩, hserved⟩
    · have hreceive := @receive_unanswered s pid msg st (Bool.eq_false_iff.2 ha)
      obtain ⟨more, hmore, hserved, hiff⟩ := @ih (s.onInboundMsg pid msg) (st.applyMsg msg)
        (by rw [hstep _ _ hreceive]; exact Finmap.lookup_insert _)
      refine ⟨more, ?_, hserved, hiff.trans ?_⟩
      · rw [hmore, hstep _ _ hreceive]
      · simp [ResponderState.unanswered, ha]

theorem onInboundMsg_connection (s : ResponderBehavior) (pid : PeerId) (msg : AnyMessage) :
    (s.onInboundMsg pid msg).connection = s.connection := by
  unfold onInboundMsg
  split <;> rfl

theorem foldl_connection {α : Type} {f : ResponderBehavior → α → ResponderBehavior}
    (hf : ∀ s x, (f s x).connection = s.connection) (s : ResponderBehavior) (xs : List α) :
    (xs.foldl f s).connection = s.connection := by
  induction xs generalizing s with
  | nil => rfl
  | cons x xs ih => rw [List.foldl_cons, ih, hf]

theorem tryRequestTxIds_eq (b : TxSubmissionResponder) (pid : PeerId) (st : ResponderState) (out : ResponderQueue) :
    ∃ st', b.tryRequestTxIds pid st out = (st', out ++
      if st.asksForTxs then [.interfaceCommand
        (.send pid (.txSubmission (.requestTxIds true 0 b.maxTxRequest)))] else []) := by
  unfold TxSubmissionResponder.tryRequestTxIds
  by_cases hi : st.isInitialized = true
  · by_cases hidle : st.txSubmission = .idle
    · have hcan : st.canApply (.txSubmission (.requestTxIds true 0 b.maxTxRequest)) = true := by
        simp [ResponderState.canApply, hidle, Txsubmission.State.apply, Except.isOk, Except.toBool]
      have hrequest : (AnyMessage.txSubmission (.requestTxIds true 0 b.maxTxRequest)).isRequest = true := rfl
      by_cases hnone : st.unsent.byChannel.lookup Txsubmission.channelId = none
      · simp [hi, hidle, hcan, hnone, ResponderState.trySendRequest, ResponderState.asksForTxs, UnsentRequests.insert,
          hrequest, AnyMessage.channel]
      · simp [hi, hidle, hcan, hnone, ResponderState.trySendRequest, ResponderState.asksForTxs, UnsentRequests.insert,
          AnyMessage.channel]
    · simp [hi, hidle, ResponderState.asksForTxs]
  · simp [hi, ResponderState.asksForTxs]

theorem needsBan_congr {c c' : ConnectionResponder} (hconfig : c'.config = c.config)
    (hbanned : pid ∈ c'.bannedPeers ↔ pid ∈ c.bannedPeers) (st : ResponderState) :
    c'.needsBan pid st = c.needsBan pid st := by
  simp only [ConnectionResponder.needsBan, hconfig, hbanned]

theorem visitHousekeeping_spec (s : ResponderBehavior) (pid : PeerId) :
    (∀ p, (s.visitHousekeeping pid).serves p ↔ s.serves p ∨ p = pid ∧ ∃ st ∈ s.peers.lookup p, st.asksForTxs) ∧
      (∀ p, p ∈ (s.visitHousekeeping pid).connection.bannedPeers ↔ p ∈ s.connection.bannedPeers ∨
        p = pid ∧ ∃ st ∈ s.peers.lookup p, s.connection.needsBan p st = true) ∧
      (s.visitHousekeeping pid).connection.config = s.connection.config ∧
      ∀ p ≠ pid, (s.visitHousekeeping pid).peers.lookup p = s.peers.lookup p := by
  cases hl : s.peers.lookup pid with
  | none =>
    have hstay : s.visitHousekeeping pid = s := by rw [visitHousekeeping, hl]
    rw [hstay]
    refine ⟨fun p => ⟨.inl, ?_⟩, fun p => ⟨.inl, ?_⟩, rfl, fun _ _ => rfl⟩
    · rintro (h | ⟨rfl, st, hst, -⟩)
      · exact h
      · simp [hl] at hst
    · rintro (h | ⟨rfl, st, hst, -⟩)
      · exact h
      · simp [hl] at hst
  | some st =>
    obtain ⟨outs, houts, hquiet⟩ := s.connection.visitHousekeeping_outbound pid st s.outbound
    obtain ⟨st', htxs⟩ := tryRequestTxIds_eq s.txsubmission pid st (s.outbound ++ outs)
    have hvisit : s.visitHousekeeping pid = { s with
        connection := (s.connection.visitHousekeeping pid st s.outbound).1
        peers := s.peers.insert pid st'
        outbound := s.outbound ++ outs ++
          if st.asksForTxs then [.interfaceCommand
            (.send pid (.txSubmission (.requestTxIds true 0 s.txsubmission.maxTxRequest)))]
          else [] } := by
      rw [visitHousekeeping, hl]
      simp only [houts, htxs]
    rw [hvisit]
    refine ⟨fun p => ?_, fun p => ?_, ?_, fun p hp => Finmap.lookup_insert_of_ne _ hp⟩
    · have hnone : ∀ o ∈ outs, o.served ≠ some p := fun o ho h => by
        rw [hquiet o ho] at h
        cases h
      simp only [serves, List.mem_append, or_and_right, exists_or]
      rw [or_assoc]
      refine or_congr_right ⟨?_, ?_⟩
      · rintro (⟨o, ho, hp⟩ | ⟨o, ho, hp⟩)
        · exact absurd hp (hnone o ho)
        · split at ho
          · next hasks =>
            obtain rfl := List.mem_singleton.1 ho
            obtain rfl := Option.some.inj hp
            exact ⟨rfl, st, hl, hasks⟩
          · cases ho
      · rintro ⟨rfl, st'', hst'', hasks⟩
        obtain rfl : st = st'' := Option.some.inj (hl.symm.trans hst'')
        rw [if_pos hasks]
        exact .inr ⟨_, List.mem_singleton_self _, rfl⟩
    · have hiff : (∃ st' ∈ s.peers.lookup pid, s.connection.needsBan pid st' = true) ↔
          s.connection.needsBan pid st = true := by
        simp [hl]
      simp only [ConnectionResponder.visitHousekeeping]
      by_cases hb : s.connection.needsBan pid st = true
      · rw [if_pos hb]
        by_cases hp : p = pid
        · subst hp
          exact iff_of_true (Finset.mem_insert_self _ _) (.inr ⟨rfl, hiff.2 hb⟩)
        · simp [hp]
      · rw [if_neg hb]
        by_cases hp : p = pid
        · subst hp
          rw [hiff]
          split <;> simp [hb]
        · split <;> simp [hp]
    · unfold ConnectionResponder.visitHousekeeping
      split
      · rfl
      · split <;> rfl

theorem housekeeping_spec {iter : List PeerId} (hnodup : iter.Nodup) (s : ResponderBehavior) (p : PeerId) :
    ((s.housekeeping iter).serves p ↔ s.serves p ∨ p ∈ iter ∧ ∃ st ∈ s.peers.lookup p, st.asksForTxs) ∧
      (p ∈ (s.housekeeping iter).connection.bannedPeers ↔ p ∈ s.connection.bannedPeers ∨
        p ∈ iter ∧ ∃ st ∈ s.peers.lookup p, s.connection.needsBan p st = true) := by
  unfold housekeeping
  induction iter generalizing s with
  | nil => simp
  | cons pid iter ih =>
    obtain ⟨hnew, hnodup⟩ := List.nodup_cons.1 hnodup
    obtain ⟨hserves, hbanned, hconfig, hlookup⟩ := s.visitHousekeeping_spec pid
    obtain ⟨ihserves, ihbanned⟩ := ih hnodup (s.visitHousekeeping pid)
    rw [List.foldl_cons, ihserves, ihbanned, hserves, hbanned]
    by_cases hp : p = pid
    · subst hp
      simp [hnew]
    · have hban : ∀ st, (s.visitHousekeeping pid).connection.needsBan p st = s.connection.needsBan p st :=
        needsBan_congr hconfig (by simp [hbanned, hp])
      simp [hp, hlookup p hp, hban]

theorem sendMsg_serves (s : ResponderBehavior) (pid : PeerId) (msg : AnyMessage) (p : PeerId) :
    (s.sendMsg pid msg).serves p ↔ s.serves p ∨ p = pid := by
  simp [sendMsg, serves, or_and_right, exists_or, ResponderOutput.served, eq_comm]

theorem provideBlocks_serves (s : ResponderBehavior) (pid : PeerId) (blocks : List Blockfetch.Body) (p : PeerId) :
    (s.provideBlocks pid blocks).serves p ↔ s.serves p ∨ p = pid := by
  have hfold : ∀ s : ResponderBehavior,
      (blocks.foldl (fun self block => self.sendMsg pid (.blockFetch (.block block))) s).serves p ∨
      p = pid ↔ s.serves p ∨ p = pid := by
    induction blocks with
    | nil => exact fun _ => Iff.rfl
    | cons block blocks ih =>
      intro s
      rw [List.foldl_cons, ih, sendMsg_serves, or_assoc, or_self]
  rw [provideBlocks, sendMsg_serves, hfold, sendMsg_serves, or_assoc, or_self]

end ResponderBehavior

/-- The peer that a command provides something for. -/
def ResponderCommand.provides : ResponderCommand → Option PeerId
  | .housekeeping => none
  | .provideIntersection pid _ _ => some pid
  | .provideHeader pid _ _ => some pid
  | .provideRollback pid _ _ => some pid
  | .provideBlocks pid _ => some pid
  | .providePeers pid _ => some pid
  | .provideEbAnnouncement pid _ => some pid
  | .provideEbOffer pid _ _ => some pid
  | .provideEbTxsOffer pid _ => some pid
  | .provideVotes pid _ => some pid
  | .provideEb pid _ => some pid
  | .provideEbTxs pid _ => some pid
  | .banPeer _ => none
  | .disconnectPeer _ => none

namespace ResponderBehavior
variable {s t : ResponderBehavior} {pid : PeerId} {H : Finset PeerId} {input : ResponderInput}

theorem execute_serves {cmd : ResponderCommand} (h : cmd.provides = some pid) (s : ResponderBehavior)
    (iter : List PeerId)
    (p : PeerId) : (s.execute iter cmd).serves p ↔ s.serves p ∨ p = pid := by
  cases cmd with
  | housekeeping => cases h
  | banPeer _ => cases h
  | disconnectPeer _ => cases h
  | provideBlocks pid' blocks =>
    obtain rfl := Option.some.inj h
    exact s.provideBlocks_serves _ blocks p
  | _ =>
    obtain rfl := Option.some.inj h
    exact s.sendMsg_serves _ _ p

theorem execute_connection {cmd : ResponderCommand} (h : cmd.provides = some pid) (s : ResponderBehavior)
    (iter : List PeerId) :
    (s.execute iter cmd).connection = s.connection := by
  cases cmd with
  | housekeeping => cases h
  | banPeer _ => cases h
  | disconnectPeer _ => cases h
  | provideBlocks pid' blocks =>
    exact foldl_connection (f := fun self block => self.sendMsg pid' (.blockFetch (.block block))) (fun _ _ => rfl)
      (s.sendMsg pid' (.blockFetch .startBatch)) blocks
  | _ => rfl

/-! ### Runs -/

/-- The peer would be rejected if it connected. -/
def rejects (s : ResponderBehavior) (pid : PeerId) : Prop :=
  pid ∈ s.connection.bannedPeers ∨ s.connection.config.maxConnectionsPerIp < s.connection.count pid.host + 1

instance (s : ResponderBehavior) (pid : PeerId) : Decidable (s.rejects pid) := inferInstanceAs (Decidable (_ ∨ _))

/-- The peers that are banned, and those that were rejected when they last connected. -/
def turnedAway (H : Finset PeerId) (x : Transition ResponderBehavior ResponderInput) : Finset PeerId :=
  (match x.input with
    | .io (.connected pid) => if x.source.rejects pid then insert pid H else H.erase pid
    | _ => H) ∪ x.target.connection.bannedPeers

/-- No step serves a peer that is turned away, by then or by this very step. -/
def unserved : Monitor ResponderBehavior ResponderInput (Finset PeerId) where
  keep := turnedAway
  accept H x := ∀ pid ∈ turnedAway H x, ¬ x.target.serves pid

/-- Of the peers in `H`: none sends what asks for an answer, none is to be asked for transactions when there is
housekeeping, nor is one that is about to be banned, and nothing is provided for them. -/
def Unprovoked (H : Finset PeerId) (s : ResponderBehavior) : ResponderInput → Prop
  | .io (.recv pid msgs) => pid ∈ H → ∀ st ∈ s.peers.lookup pid, st.unanswered msgs = true
  | .io .idle | .command .housekeeping =>
    ∀ pid ∈ s.peers.keys, ∀ st ∈ s.peers.lookup pid, pid ∈ H ∨ s.connection.needsBan pid st = true → ¬ st.asksForTxs
  | .command cmd => ∀ pid ∈ cmd.provides, pid ∉ H
  | _ => True

def unprovoked : Monitor ResponderBehavior ResponderInput (Finset PeerId) where
  keep := turnedAway
  accept H x := Unprovoked H x.source x.input

theorem mem_turnedAway_of_source (hsub : s.connection.bannedPeers ⊆ H) (hc : ∀ pid, input ≠ .io (.connected pid))
    (ht : t.connection.bannedPeers ⊆ s.connection.bannedPeers) : turnedAway H ⟨s, input, t⟩ = H := by
  have hmatch : turnedAway H ⟨s, input, t⟩ = H ∪ t.connection.bannedPeers := by
    unfold turnedAway
    split
    · next pid h => exact absurd h (hc pid)
    · rfl
  rw [hmatch, Finset.union_eq_left]
  exact ht.trans hsub

/-- A connection, an error or a `Sent` brings about no more than a disconnection. -/
theorem serves_quiet (h : ∀ o ∈ t.outbound, o.served = none) (p : PeerId) : ¬ t.serves p := by
  rintro ⟨o, ho, hp⟩
  rw [h o ho] at hp
  cases hp

/-- Inputs that serve nobody, whoever is turned away. -/
def Silent : ResponderInput → Prop
  | .io (.recv _ _) => False
  | .io .idle => False
  | .command .housekeeping => False
  | .command cmd => cmd.provides = none
  | _ => True

theorem Step.quiet (h : s.Step input t) (hinput : Silent input) : ∀ p, ¬ t.serves p := by
  obtain ⟨iter, -, h⟩ := h
  refine serves_quiet ?_
  cases input with
  | io event =>
    cases event with
    | connected pid =>
      obtain ⟨⟨connection, outbound⟩, hvisit, h⟩ := Outcome.bind_eq_ok.1 h
      obtain rfl := Outcome.ok.inj h
      obtain ⟨outs, houts, hdisconnect⟩ := ConnectionResponder.visitConnected_outbound hvisit
      rw [List.nil_append] at houts
      subst houts
      intro o ho
      rw [hdisconnect o ho]
      rfl
    | disconnected pid =>
      obtain rfl := Outcome.ok.inj h
      simp [onDisconnected, ResponderOutput.served]
    | sent pid msg =>
      obtain rfl := Outcome.ok.inj h
      unfold onOutboundMsg
      split <;> simp
    | error pid text =>
      replace h : onErrored { s with outbound := [] } pid = .ok t := h
      unfold onErrored at h
      split at h
      · obtain rfl := Outcome.ok.inj h
        simp
      · obtain ⟨state, -, h⟩ := Outcome.bind_eq_ok.1 h
        obtain rfl := Outcome.ok.inj h
        obtain ⟨outs, houts, hdisconnect⟩ := s.connection.visitErrored_outbound pid state []
        rw [List.nil_append] at houts
        intro o ho
        rw [hdisconnect o (houts ▸ ho)]
        rfl
    | recv pid msgs => exact hinput.elim
    | idle => exact hinput.elim
  | command cmd =>
    obtain rfl := Outcome.ok.inj h
    cases cmd with
    | housekeeping => exact hinput.elim
    | banPeer pid => simp [execute, banPeer, disconnectPeer, ResponderOutput.served]
    | disconnectPeer pid => simp [execute, disconnectPeer, ResponderOutput.served]
    | _ => cases hinput

theorem recv_unserved (hsub : s.connection.bannedPeers ⊆ H) {msgs : List AnyMessage}
    (h : s.Step (.io (.recv pid msgs)) t) :
    (∀ p ∈ turnedAway H ⟨s, .io (.recv pid msgs), t⟩, ¬ t.serves p) ↔ Unprovoked H s (.io (.recv pid msgs)) := by
  obtain ⟨iter, -, h⟩ := h
  obtain rfl := Outcome.ok.inj h
  set t := msgs.foldl (fun self msg => self.onInboundMsg pid msg) { s with outbound := [] } with ht
  have hconnection : t.connection = s.connection :=
    foldl_connection (fun s msg => s.onInboundMsg_connection pid msg) _ msgs
  rw [mem_turnedAway_of_source hsub (by simp) (by rw [hconnection])]
  cases hl : s.peers.lookup pid with
  | none =>
    have hstay : t = { s with outbound := [] } := onInboundMsgs_none hl
    refine iff_of_true (fun p _ => ?_) (by simp [Unprovoked, hl])
    rw [hstay]
    exact serves_quiet (by simp) p
  | some st =>
    obtain ⟨outs, houts, hserved, hiff⟩ := @onInboundMsgs_some { s with outbound := [] } pid st msgs hl
    rw [List.nil_append, ← ht] at houts
    have hserves : ∀ p, t.serves p ↔ p = pid ∧ outs ≠ [] := by
      intro p
      rw [serves, houts]
      constructor
      · rintro ⟨o, ho, hp⟩
        exact ⟨Option.some.inj (hp.symm.trans (hserved o ho)), List.ne_nil_of_mem ho⟩
      · rintro ⟨rfl, hne⟩
        obtain ⟨o, ho⟩ := List.exists_mem_of_ne_nil outs hne
        exact ⟨o, ho, hserved o ho⟩
    simp only [hserves, Unprovoked, hl, Option.mem_def, Option.some.injEq, forall_eq', ← hiff]
    constructor
    · intro hall hp
      by_contra hne
      exact hall pid hp ⟨rfl, hne⟩
    · rintro hall p hp ⟨rfl, hne⟩
      exact hne (hall hp)

theorem housekeeping_unserved (hsub : s.connection.bannedPeers ⊆ H) {iter : List PeerId} (hlists : s.Lists iter)
    (hinput : input = .io .idle ∨ input = .command .housekeeping) :
    (∀ p ∈ turnedAway H ⟨s, input, housekeeping { s with outbound := [] } iter⟩,
      ¬ (housekeeping { s with outbound := [] } iter).serves p) ↔ Unprovoked H s input := by
  set t := housekeeping { s with outbound := [] } iter
  have hspec := fun p => housekeeping_spec hlists.1 { s with outbound := [] } p
  have hmem : ∀ p, p ∈ iter ↔ p ∈ s.peers.keys := fun p => by rw [← hlists.2, List.mem_toFinset]
  have hnone : ∀ p, ¬ serves { s with outbound := [] } p := serves_quiet (by simp)
  have haway : ∀ p, p ∈ turnedAway H ⟨s, input, t⟩ ↔
      p ∈ H ∨ p ∈ s.peers.keys ∧ ∃ st ∈ s.peers.lookup p, s.connection.needsBan p st = true := by
    intro p
    have hkeep : turnedAway H ⟨s, input, t⟩ = H ∪ t.connection.bannedPeers := by rcases hinput with rfl | rfl <;> rfl
    rw [hkeep, Finset.mem_union, (hspec p).2, hmem, ← or_assoc, or_iff_left_of_imp (@hsub p)]
  have hunprovoked : Unprovoked H s input ↔ ∀ pid ∈ s.peers.keys, ∀ st ∈ s.peers.lookup pid,
      pid ∈ H ∨ s.connection.needsBan pid st = true → ¬ st.asksForTxs := by rcases hinput with rfl | rfl <;> rfl
  rw [hunprovoked]
  refine forall_congr' fun p => ?_
  rw [haway, (hspec p).1, hmem, or_iff_right (hnone p)]
  cases hl : s.peers.lookup p with
  | none => simp
  | some st =>
    have hkey : p ∈ s.peers.keys := Finmap.mem_keys.2 (Finmap.mem_of_lookup_eq_some hl)
    simp [hkey]

theorem provide_unserved (hsub : s.connection.bannedPeers ⊆ H) {cmd : ResponderCommand} (hcmd : cmd.provides = some pid)
    {iter : List PeerId} :
    (∀ p ∈ turnedAway H ⟨s, .command cmd, execute { s with outbound := [] } iter cmd⟩,
      ¬ (execute { s with outbound := [] } iter cmd).serves p) ↔ Unprovoked H s (.command cmd) := by
  have hnone : ∀ p, ¬ serves { s with outbound := [] } p := serves_quiet (by simp)
  rw [mem_turnedAway_of_source hsub (by simp) (by rw [execute_connection hcmd])]
  have hunprovoked : Unprovoked H s (.command cmd) ↔ ∀ pid ∈ cmd.provides, pid ∉ H := by
    cases cmd with
    | housekeeping => cases hcmd
    | _ => rfl
  rw [hunprovoked]
  simp only [execute_serves hcmd, hnone, false_or, hcmd, Option.mem_def, Option.some.injEq, forall_eq']
  exact ⟨fun h hp => h pid hp rfl, fun h p hp hpid => h (hpid ▸ hp)⟩

theorem Step.unserved (h : s.Step input t) (hsub : s.connection.bannedPeers ⊆ H) :
    (∀ p ∈ turnedAway H ⟨s, input, t⟩, ¬ t.serves p) ↔ Unprovoked H s input := by
  by_cases hsilent : Silent input
  · refine iff_of_true (fun p _ => h.quiet hsilent p) ?_
    cases input with
    | io event =>
      cases event with
      | recv => exact hsilent.elim
      | idle => exact hsilent.elim
      | _ => trivial
    | command cmd =>
      cases cmd with
      | housekeeping => exact hsilent.elim
      | banPeer => simp [Unprovoked, ResponderCommand.provides]
      | disconnectPeer => simp [Unprovoked, ResponderCommand.provides]
      | _ => cases hsilent
  · cases input with
    | io event =>
      cases event with
      | recv pid msgs => exact recv_unserved hsub h
      | idle =>
        obtain ⟨iter, hlists, h⟩ := h
        obtain rfl := Outcome.ok.inj h
        exact housekeeping_unserved hsub hlists (.inl rfl)
      | _ => exact absurd trivial hsilent
    | command cmd =>
      obtain ⟨iter, hlists, h⟩ := h
      obtain rfl := Outcome.ok.inj h
      cases hcmd : cmd.provides with
      | some pid => exact provide_unserved hsub hcmd
      | none =>
        cases cmd with
        | housekeeping => exact housekeeping_unserved hsub hlists (.inr rfl)
        | banPeer => exact absurd rfl hsilent
        | disconnectPeer => exact absurd rfl hsilent
        | _ => cases hcmd

/-- In a run no peer that is turned away is served exactly if none of them provokes it. -/
theorem unserved_iff {tr : List (Transition ResponderBehavior ResponderInput)} (h : Run Init Step tr s) :
    unserved.Accepts ∅ tr ↔ unprovoked.Accepts ∅ tr := by
  refine Run.accepts_iff (M := unserved) (N := unprovoked) (R := fun H s => s.connection.bannedPeers ⊆ H) rfl ?_ ?_ h
  · rintro s ⟨connection, handshake, txsubmission, rfl⟩
    exact Finset.Subset.refl _
  · exact fun H s input t hsub hstep => ⟨Finset.subset_union_right, hstep.unserved hsub⟩

instance Unprovoked.decidable (H : Finset PeerId) (s : ResponderBehavior) : ∀ input, Decidable (Unprovoked H s input)
  | .io (.recv pid msgs) =>
    inferInstanceAs (Decidable (pid ∈ H → ∀ st ∈ s.peers.lookup pid, st.unanswered msgs = true))
  | .io .idle | .command .housekeeping => inferInstanceAs (Decidable (∀ pid ∈ s.peers.keys, ∀ st ∈ s.peers.lookup pid,
      pid ∈ H ∨ s.connection.needsBan pid st = true → ¬ st.asksForTxs))
  | .io (.connected _) | .io (.disconnected _) | .io (.sent ..) | .io (.error ..) => inferInstanceAs (Decidable True)
  | .command (.provideIntersection pid _ _) | .command (.provideHeader pid _ _) | .command (.provideRollback pid _ _)
  | .command (.provideBlocks pid _) | .command (.providePeers pid _) | .command (.provideEbAnnouncement pid _)
  | .command (.provideEbOffer pid _ _) | .command (.provideEbTxsOffer pid _) | .command (.provideVotes pid _)
  | .command (.provideEb pid _) | .command (.provideEbTxs pid _) => inferInstanceAs (Decidable (∀ p ∈ some pid, p ∉ H))
  | .command (.banPeer _) | .command (.disconnectPeer _) =>
    inferInstanceAs (Decidable (∀ p ∈ (none : Option PeerId), p ∉ H))

instance (H : Finset PeerId) (x : Transition ResponderBehavior ResponderInput) : Decidable (unprovoked.accept H x) :=
  inferInstanceAs (Decidable (Unprovoked H x.source x.input))

instance (H : Finset PeerId) (x : Transition ResponderBehavior ResponderInput) : Decidable (unserved.accept H x) :=
  inferInstanceAs (Decidable (∀ pid ∈ turnedAway H x, ¬ x.target.serves pid))

/-- A peer that is banned while it is connected keeps quiet; another one is served. -/
theorem unserved_iff_quiet : ∃ tr s, Run Init Step tr s ∧ ⟨"a", 1⟩ ∈ unserved.after ∅ tr ∧
    (∃ x ∈ tr, x.target.serves ⟨"b", 1⟩) ∧ unserved.Accepts ∅ tr := by
  have hplays : (Run.play move (new .default .default .default)
      [([], .io (.connected ⟨"a", 1⟩)), ([⟨"a", 1⟩], .command (.banPeer ⟨"a", 1⟩)),
        ([⟨"a", 1⟩], .io (.recv ⟨"a", 1⟩ [.keepAlive (.keepAlive 3)])), ([⟨"a", 1⟩], .io (.connected ⟨"b", 1⟩)),
        ([⟨"a", 1⟩, ⟨"b", 1⟩], .io (.recv ⟨"b", 1⟩ [.handshake (.propose HandshakeResponder.default.supportedVersion)]))]).any
      (fun (tr, _) => ⟨"a", 1⟩ ∈ unserved.after ∅ tr ∧ (∃ x ∈ tr, x.target.serves ⟨"b", 1⟩) ∧
        unprovoked.Accepts ∅ tr) = true := by decide
  have hinit : Init (new .default .default .default) := ⟨_, _, _, rfl⟩
  obtain ⟨tr, s, hrun, htest⟩ := Run.exists_of_play step_of_move hinit hplays
  obtain ⟨haway, hserved, hquiet⟩ := of_decide_eq_true htest
  exact ⟨tr, s, hrun, haway, hserved, (unserved_iff hrun).2 hquiet⟩

/-- A banned peer that connects again and proposes versions is initialized. -/
theorem banned_served : ¬ ∀ tr s, Run Init Step tr s → unserved.Accepts ∅ tr := by
  intro h
  have hplays : (Run.play move (new .default .default .default)
      [([], .command (.banPeer ⟨"a", 1⟩)), ([], .io (.connected ⟨"a", 1⟩)),
        ([⟨"a", 1⟩], .io (.recv ⟨"a", 1⟩ [.handshake (.propose HandshakeResponder.default.supportedVersion)]))]).any
      (fun (tr, _) => ¬ unserved.Accepts ∅ tr) = true := by decide
  have hinit : Init (new .default .default .default) := ⟨_, _, _, rfl⟩
  obtain ⟨tr, s, hrun, htest⟩ := Run.exists_of_play step_of_move hinit hplays
  exact of_decide_eq_true htest (h tr s hrun)

end ResponderBehavior
end Pallas.Network2
