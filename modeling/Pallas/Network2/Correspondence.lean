import Pallas.Network2.Rejections
import Pallas.Network2.WrongSide

/-!
# Requests and what comes of them

The responder reads off the stored state of a protocol what it has to answer or to tell of, and not off the message. It
does so for the message that moved the protocol and at no other time, so that in each connection what it says is, in
order, what the requests received ask for (`correspondence`). Of the handshake it speaks at most once: a peer that has
proposed versions does not come back to where it can.
-/

namespace Pallas.Network2

/-! ### What is owed for a message -/

/-- A message of the handshake to the peer. -/
def ResponderOutput.repliesTo (pid : PeerId) : ResponderOutput → Bool
  | .interfaceCommand (.send p (.handshake _)) => p = pid
  | _ => false

def ResponderOutput.initializes (pid : PeerId) : ResponderOutput → Bool
  | .externalEvent (.peerInitialized p _) => p = pid
  | _ => false

/-- A message of keep-alive to the peer, or a request of it in chain-sync, block-fetch, peer-sharing or leios-fetch. -/
def ResponderOutput.dueTo (pid : PeerId) : ResponderOutput → Bool
  | .interfaceCommand (.send p (.keepAlive _)) => p = pid
  | .externalEvent (.intersectionRequested p _) => p = pid
  | .externalEvent (.nextHeaderRequested p) => p = pid
  | .externalEvent (.blockRangeRequested p _) => p = pid
  | .externalEvent (.peersRequested p _) => p = pid
  | .externalEvent (.ebRequested p _) => p = pid
  | .externalEvent (.ebTxsRequested p _ _) => p = pid
  | _ => false

/-- What neither a command nor housekeeping brings about. -/
def ResponderOutput.isOwn : ResponderOutput → Bool
  | .interfaceCommand (.send _ (.handshake _)) => true
  | .interfaceCommand (.send _ (.keepAlive _)) => true
  | .interfaceCommand _ => false
  | .externalEvent (.peerDisconnected _) => false
  | .externalEvent _ => true

/-- The answer to a request, or the event that tells of it. -/
def AnyMessage.due (pid : PeerId) : AnyMessage → Option ResponderOutput
  | .keepAlive (.keepAlive cookie) => some (.interfaceCommand (.send pid (.keepAlive (.responseKeepAlive cookie))))
  | .chainSync (.findIntersect points) => some (.externalEvent (.intersectionRequested pid points))
  | .chainSync .requestNext => some (.externalEvent (.nextHeaderRequested pid))
  | .blockFetch (.requestRange range) => some (.externalEvent (.blockRangeRequested pid range))
  | .peerSharing (.shareRequest amount) => some (.externalEvent (.peersRequested pid amount))
  | .leiosFetch (.blockRequest eb) => some (.externalEvent (.ebRequested pid eb))
  | .leiosFetch (.blockTxsRequest eb bitmaps) => some (.externalEvent (.ebTxsRequested pid eb bitmaps))
  | _ => none

/-- A kind of outputs that the responder makes of its own for the peer. -/
structure ResponderOutput.OwnTo (pid : PeerId) (f : ResponderOutput → Bool) : Prop where
  own : ∀ o, f o = true → o.isOwn = true
  served : ∀ o, f o = true → o.served = some pid

namespace ResponderOutput
variable {pid : PeerId} {o : ResponderOutput} {f : ResponderOutput → Bool}

theorem ownTo_repliesTo (pid : PeerId) : OwnTo pid (repliesTo pid) where
  own o h := by
    unfold repliesTo at h
    split at h <;> first | rfl | cases h
  served o h := by
    unfold repliesTo at h
    split at h
    · exact congrArg some (of_decide_eq_true h)
    · cases h

theorem ownTo_initializes (pid : PeerId) : OwnTo pid (initializes pid) where
  own o h := by
    unfold initializes at h
    split at h <;> first | rfl | cases h
  served o h := by
    unfold initializes at h
    split at h
    · exact congrArg some (of_decide_eq_true h)
    · cases h

theorem ownTo_dueTo (pid : PeerId) : OwnTo pid (dueTo pid) where
  own o h := by
    unfold dueTo at h
    split at h <;> first | rfl | cases h
  served o h := by
    unfold dueTo at h
    split at h <;> first | exact congrArg some (of_decide_eq_true h) | cases h

theorem OwnTo.filter_eq_nil (hf : OwnTo pid f) {out : ResponderQueue} (h : ∀ o ∈ out, o.isOwn = false) :
    out.filter f = [] := by
  refine List.filter_eq_nil_iff.2 fun o ho hfo => ?_
  cases (hf.own o hfo).symm.trans (h o ho)

end ResponderOutput

/-! ### One message -/

/-- What the responder tells of a message, or answers to it, in the state before it. -/
def HandshakeResponder.tells (self : HandshakeResponder) (pid : PeerId) (msg : AnyMessage) (st : ResponderState) :
    ResponderQueue :=
  if (st.applyMsg msg).violation then []
  else match msg with
    | .handshake _ => (self.tryAcceptHandshake pid (st.applyMsg msg) []).2
    | _ => if st.isInitialized || msg.anytime then ResponderBehavior.told pid (st.protocols.next msg) msg else []

/-- The version is the highest of those that both tables have, and the networks are the same. -/
structure HandshakeResponder.Agrees (self : HandshakeResponder) (proposed : Handshake.VersionTable) (version : UInt64)
    (data : Handshake.VersionData) : Prop where
  ours : self.supportedVersion.values.lookup version = some data
  theirs : ∃ peerData, (version, peerData) ∈ proposed.values ∧ peerData.networkMagic = data.networkMagic
  greatest : ∀ entry ∈ proposed.values, (self.supportedVersion.values.lookup entry.1).isSome = true → entry.1 ≤ version

namespace HandshakeResponder
variable {b : HandshakeResponder} {pid : PeerId} {st : ResponderState} {msg : AnyMessage}

theorem negotiate_eq_some {proposed : Handshake.VersionTable} {version : UInt64}
    {peerData ourData : Handshake.VersionData}
    (h : b.negotiate proposed = some (version, peerData, ourData))
    (hmagic : peerData.networkMagic = ourData.networkMagic) :
    b.Agrees proposed version ourData := by
  obtain ⟨⟨num, data⟩, hmax, h⟩ := Option.bind_eq_some_iff.1 h
  obtain ⟨ours, hours, h⟩ := Option.bind_eq_some_iff.1 h
  obtain ⟨rfl, rfl, rfl⟩ : num = version ∧ data = peerData ∧ ours = ourData := by simpa using h
  refine ⟨hours, ⟨data, (List.mem_filter.1 (List.argmax_mem hmax)).1, hmagic⟩, fun entry hentry hboth => ?_⟩
  have hle := List.le_of_mem_argmax (f := fun entry => entry.1.toNat) (List.mem_filter.2 ⟨hentry, hboth⟩) hmax
  exact UInt64.le_iff_toNat_le.2 hle

theorem tryAcceptHandshake_append (b : HandshakeResponder) (pid : PeerId) (st : ResponderState) (out : ResponderQueue) :
    b.tryAcceptHandshake pid st out =
      ((b.tryAcceptHandshake pid st []).1, out ++ (b.tryAcceptHandshake pid st []).2) := by
  unfold tryAcceptHandshake
  split
  · split
    · split <;> rfl
    · rfl
  · simp

theorem tryAcceptHandshake_eq (b : HandshakeResponder) (pid : PeerId) (st : ResponderState) :
    ∃ connection reply events, b.tryAcceptHandshake pid st [] = ({ st with connection }, reply ++ events) ∧
      reply.length ≤ 1 ∧ (∀ o ∈ reply, ∃ m, o = .interfaceCommand (.send pid (.handshake m))) ∧
      ((∀ proposed, st.handshake ≠ .confirm proposed) → reply = []) ∧
      (events = [] ∨ ∃ proposed version data, st.handshake = .confirm proposed ∧ b.Agrees proposed version data ∧
        events = [.externalEvent (.peerInitialized pid (version, data))]) := by
  unfold tryAcceptHandshake
  split
  · next proposed hconfirm =>
    have hreply : (∀ proposed, st.handshake ≠ .confirm proposed) → ∀ reply : ResponderQueue, reply = [] :=
      fun hne => absurd hconfirm (hne proposed)
    split
    · next version peerData ourData hnegotiated =>
      split
      · exact ⟨st.connection, [_], [], rfl, Nat.le_refl 1, by simp, fun hne => hreply hne _, .inl rfl⟩
      · next hmagic =>
        have hagrees := negotiate_eq_some hnegotiated (not_not.1 hmagic)
        exact ⟨.initialized, [_], [_], rfl, Nat.le_refl 1, by simp, fun hne => hreply hne _,
          .inr ⟨proposed, version, ourData, hconfirm, hagrees, rfl⟩⟩
    · exact ⟨st.connection, [_], [], rfl, Nat.le_refl 1, by simp, fun hne => hreply hne _, .inl rfl⟩
  · exact ⟨st.connection, [], [], by simp, Nat.zero_le 1, by simp, fun _ => rfl, .inl rfl⟩

end HandshakeResponder

namespace ResponderBehavior
variable {s t : ResponderBehavior} {pid : PeerId} {st : ResponderState} {msg : AnyMessage} {b : HandshakeResponder}

theorem receive_spec (s : ResponderBehavior) (pid : PeerId) (msg : AnyMessage) (st : ResponderState) :
    (s.receive pid msg st).2 = s.outbound ++ s.handshake.tells pid msg st ∧
      (s.receive pid msg st).1.violation = (st.applyMsg msg).violation ∧
      (s.receive pid msg st).1.handshake = (st.protocols.next msg).handshake := by
  have hhandshake : (st.protocols.next msg).handshake = (st.applyMsg msg).handshake := by
    rw [← st.applyMsg_protocols]
    rfl
  rw [hhandshake]
  unfold receive HandshakeResponder.tells
  by_cases hv : (st.applyMsg msg).violation = true
  · simp [hv]
  · simp only [hv, Bool.false_eq_true, if_false]
    by_cases hh : ∃ m, msg = .handshake m
    · obtain ⟨m, rfl⟩ := hh
      obtain ⟨connection, reply, events, haccept, -⟩ :=
        s.handshake.tryAcceptHandshake_eq pid (st.applyMsg (.handshake m))
      rw [visitInboundMsg, HandshakeResponder.tryAcceptHandshake_append, haccept]
      exact ⟨rfl, by simpa using hv, rfl⟩
    · have hne : ∀ m, msg ≠ .handshake m := fun m hm => hh ⟨m, hm⟩
      rw [visitInboundMsg_told s pid _ hne, ResponderState.applyMsg_isInitialized, st.applyMsg_protocols]
      cases msg with
      | handshake m => exact absurd rfl (hne m)
      | _ => exact ⟨rfl, by simpa using hv, rfl⟩

theorem told_eq_due {ps : ProtocolStates} (ha : ps.accepts msg = true) (hs : msg.sender ≠ .server)
    (ht : ∀ m, msg ≠ .txSubmission m) (hn : ∀ m, msg ≠ .leiosNotify m) :
    told pid (ps.next msg) msg = (msg.due pid).toList := by
  cases msg with
  | handshake m => cases m <;> rfl
  | keepAlive m =>
    simp only [ProtocolStates.accepts, ProtocolStates.next, told, advance] at ha ⊢
    generalize ps.keepalive = k at ha ⊢
    cases k <;> cases m <;> first | exact absurd ha Bool.false_ne_true | exact (hs rfl).elim | rfl
  | chainSync m =>
    simp only [ProtocolStates.accepts, ProtocolStates.next, told, advance] at ha ⊢
    generalize ps.chainsync = k at ha ⊢
    cases k <;> cases m <;> first | exact absurd ha Bool.false_ne_true | exact (hs rfl).elim | rfl
  | blockFetch m =>
    simp only [ProtocolStates.accepts, ProtocolStates.next, told, advance] at ha ⊢
    generalize ps.blockfetch = k at ha ⊢
    cases k <;> cases m <;> first | exact absurd ha Bool.false_ne_true | exact (hs rfl).elim | rfl
  | peerSharing m =>
    simp only [ProtocolStates.accepts, ProtocolStates.next, told, advance] at ha ⊢
    generalize ps.peersharing = k at ha ⊢
    cases k <;> cases m <;> first | exact absurd ha Bool.false_ne_true | exact (hs rfl).elim | rfl
  | txSubmission m => exact absurd rfl (ht m)
  | leiosNotify m => exact absurd rfl (hn m)
  | leiosFetch m =>
    simp only [ProtocolStates.accepts, ProtocolStates.next, told, advance] at ha ⊢
    generalize ps.leiosFetch = k at ha ⊢
    cases k <;> cases m <;> first | exact absurd ha Bool.false_ne_true | exact (hs rfl).elim | rfl

theorem dueTo_of_due {o : ResponderOutput} (h : msg.due pid = some o) : o.dueTo pid = true := by
  cases msg with
  | txSubmission m => cases h
  | leiosNotify m => cases h
  | handshake m => cases m <;> cases h
  | _ m => cases m <;> cases h <;> simp [ResponderOutput.dueTo]

theorem told_dueTo {ps : ProtocolStates} (ha : ps.accepts msg = true) (hs : msg.sender ≠ .server) :
    (told pid (ps.next msg) msg).filter (·.dueTo pid) = (msg.due pid).toList := by
  have hother : (∀ o ∈ told pid (ps.next msg) msg, o.dueTo pid = false) → msg.due pid = none →
      (told pid (ps.next msg) msg).filter (·.dueTo pid) = (msg.due pid).toList := fun hall hnone => by
    rw [hnone, List.filter_eq_nil_iff.2 fun o ho => by simp [hall o ho]]
    rfl
  by_cases ht : ∃ m, msg = .txSubmission m
  · obtain ⟨m, rfl⟩ := ht
    refine hother ?_ rfl
    simp only [told]
    split <;> simp [ResponderOutput.dueTo]
  by_cases hn : ∃ m, msg = .leiosNotify m
  · obtain ⟨m, rfl⟩ := hn
    refine hother ?_ rfl
    simp only [told]
    split <;> simp [ResponderOutput.dueTo]
  rw [told_eq_due ha hs (fun m hm => ht ⟨m, hm⟩) fun m hm => hn ⟨m, hm⟩, List.filter_eq_self]
  exact fun o ho => dueTo_of_due (Option.mem_toList.1 ho)

theorem tells_dueTo (hfrom : msg.sender = .server → st.protocols.accepts msg = false) :
    (b.tells pid msg st).filter (·.dueTo pid) =
      if st.isInitialized && !(st.applyMsg msg).violation then (msg.due pid).toList else [] := by
  unfold HandshakeResponder.tells
  cases hv : (st.applyMsg msg).violation with
  | true => simp
  | false =>
    have haccepts : st.protocols.accepts msg = true := by
      rw [st.applyMsg_violation, Bool.or_eq_false_iff, Bool.not_eq_false'] at hv
      exact hv.2
    have hs : msg.sender ≠ .server := fun hs => Bool.false_ne_true ((hfrom hs).symm.trans haccepts)
    have htold : (told pid (st.protocols.next msg) msg).filter (·.dueTo pid) = _ := told_dueTo haccepts hs
    have hanytime : msg.anytime = true → (msg.due pid).toList = [] := by
      cases msg with
      | handshake m => cases m <;> exact fun _ => rfl
      | txSubmission m => exact fun _ => rfl
      | _ => exact nofun
    cases msg with
    | handshake m =>
      obtain ⟨connection, reply, events, haccept, -, hreply, -, hevents⟩ :=
        b.tryAcceptHandshake_eq pid (st.applyMsg (.handshake m))
      have hnone : ∀ o ∈ reply ++ events, ¬ o.dueTo pid = true := by
        refine List.forall_mem_append.2 ⟨fun o ho => ?_, fun o ho => ?_⟩
        · obtain ⟨m, rfl⟩ := hreply o ho
          exact Bool.false_ne_true
        · rcases hevents with rfl | ⟨_, _, _, -, -, rfl⟩
          · cases ho
          · obtain rfl := List.mem_singleton.1 ho
            exact Bool.false_ne_true
      simp only [haccept, Bool.false_eq_true, if_false]
      rw [List.filter_eq_nil_iff.2 hnone, hanytime rfl, ite_self]
    | _ m =>
      cases hi : st.isInitialized with
      | true => simpa using htold
      | false =>
        simp only [Bool.false_eq_true, if_false, Bool.false_or, Bool.false_and]
        split
        · next hany => rw [htold, hanytime hany]
        · rfl

theorem told_handshake {ps : ProtocolStates} {o : ResponderOutput} (h : o ∈ told pid ps msg) (p : PeerId) :
    o.repliesTo p = false ∧ o.initializes p = false := by
  unfold told at h
  split at h <;> try split at h
  all_goals simp at h
  all_goals try subst h
  all_goals try exact ⟨rfl, rfl⟩
  obtain ⟨tx, -, rfl⟩ := h
  exact ⟨rfl, rfl⟩

theorem tells_cases (b : HandshakeResponder) (pid : PeerId) (msg : AnyMessage) (st : ResponderState) :
    (∀ o ∈ b.tells pid msg st, ∀ p, o.repliesTo p = false ∧ o.initializes p = false) ∨
      ∃ proposed reply events, msg = .handshake (.propose proposed) ∧ st.handshake = .propose ∧
        b.tells pid msg st = reply ++ events ∧ reply.length ≤ 1 ∧ (∀ o ∈ reply, ∀ p, o.initializes p = false) ∧
        (events = [] ∨ ∃ version data, b.Agrees proposed version data ∧
          events = [.externalEvent (.peerInitialized pid (version, data))]) := by
  unfold HandshakeResponder.tells
  cases hv : (st.applyMsg msg).violation with
  | true => exact .inl (by simp)
  | false =>
    cases msg with
    | handshake m =>
      obtain ⟨connection, reply, events, haccept, hlength, hreply, hnone, hevents⟩ :=
        b.tryAcceptHandshake_eq pid (st.applyMsg (.handshake m))
      simp only [haccept, Bool.false_eq_true, if_false]
      have htaken : st.protocols.accepts (.handshake m) = true := by
        rw [st.applyMsg_violation, Bool.or_eq_false_iff, Bool.not_eq_false'] at hv
        exact hv.2
      have hnext : (st.applyMsg (.handshake m)).handshake = advance Handshake.State.apply st.handshake m := by
        have hp := congrArg ProtocolStates.handshake (st.applyMsg_protocols (.handshake m))
        exact hp
      rw [hnext] at hnone hevents
      simp only [ProtocolStates.accepts, ResponderState.protocols] at htaken
      cases hstate : st.handshake with
      | propose =>
        rw [hstate] at htaken hevents
        cases m with
        | propose proposed =>
          refine .inr ⟨proposed, reply, events, rfl, rfl, rfl, hlength, fun o ho p => ?_, ?_⟩
          · obtain ⟨m, rfl⟩ := hreply o ho
            rfl
          · rcases hevents with rfl | ⟨proposed', version, data, hconfirm, hagrees, rfl⟩
            · exact .inl rfl
            · obtain rfl : proposed = proposed' := Handshake.State.confirm.inj hconfirm
              exact .inr ⟨version, data, hagrees, rfl⟩
        | _ => cases htaken
      | confirm table =>
        rw [hstate] at htaken hnone hevents
        have hdone : ∀ proposed, advance Handshake.State.apply (.confirm table) m ≠ .confirm proposed := by
          intro proposed hconfirm
          cases m <;> first | exact absurd htaken Bool.false_ne_true | cases hconfirm
        have hnoevents : events = [] := by
          rcases hevents with rfl | ⟨proposed, _, _, hconfirm, -⟩
          · rfl
          · exact absurd hconfirm (hdone proposed)
        rw [hnone hdone, hnoevents]
        exact .inl (by simp)
      | done result =>
        rw [hstate] at htaken
        cases m <;> cases htaken
    | _ m =>
      refine .inl fun o ho p => ?_
      simp only [Bool.false_eq_true, if_false] at ho
      split at ho
      · exact told_handshake ho p
      · cases ho

/-- Whether the peer has yet to propose versions. -/
def unproposed (ps : ProtocolStates) : ℕ := if ps.handshake = .propose then 1 else 0

theorem unproposed_next_le (ps : ProtocolStates) (msg : AnyMessage) : unproposed (ps.next msg) ≤ unproposed ps := by
  unfold unproposed
  split
  · next h =>
    have hbefore : ps.handshake = .propose := by
      cases msg with
      | handshake m =>
        simp only [ProtocolStates.next, advance] at h
        generalize ps.handshake = k at h ⊢
        cases k <;> cases m <;> first | rfl | cases h
      | _ => exact h
    rw [if_pos hbefore]
  · exact Nat.zero_le _

theorem tells_unproposed (b : HandshakeResponder) (pid : PeerId) (msg : AnyMessage) (st : ResponderState) (p : PeerId) :
    (b.tells pid msg st).countP (·.repliesTo p) + unproposed (st.protocols.next msg) ≤ unproposed st.protocols ∧
      (b.tells pid msg st).countP (·.initializes p) + unproposed (st.protocols.next msg) ≤ unproposed st.protocols := by
  rcases tells_cases b pid msg st with hsilent |
    ⟨proposed, reply, events, rfl, hstate, htells, hlength, hreply, hevents⟩
  · have hreplies : (b.tells pid msg st).countP (·.repliesTo p) = 0 :=
      List.countP_eq_zero.2 fun o ho => by simp [(hsilent o ho p).1]
    have hevents : (b.tells pid msg st).countP (·.initializes p) = 0 :=
      List.countP_eq_zero.2 fun o ho => by simp [(hsilent o ho p).2]
    rw [hreplies, hevents, Nat.zero_add]
    exact ⟨unproposed_next_le _ _, unproposed_next_le _ _⟩
  · have hbefore : unproposed st.protocols = 1 := if_pos hstate
    have hafter : unproposed (st.protocols.next (.handshake (.propose proposed))) = 0 := by
      have hconfirm : (st.protocols.next (.handshake (.propose proposed))).handshake = .confirm proposed := by
        change advance Handshake.State.apply st.handshake (.propose proposed) = _
        rw [hstate]
        rfl
      rw [unproposed, hconfirm]
      rfl
    have hquiet : events.countP (·.repliesTo p) = 0 := by
      rcases hevents with rfl | ⟨version, data, -, rfl⟩ <;> rfl
    have hlast : events.countP (·.initializes p) ≤ 1 := by
      refine Nat.le_trans List.countP_le_length ?_
      rcases hevents with rfl | ⟨version, data, -, rfl⟩ <;> simp
    have hfirst : reply.countP (·.initializes p) = 0 := List.countP_eq_zero.2 fun o ho => by simp [hreply o ho p]
    rw [hbefore, hafter, htells, List.countP_append, List.countP_append, hquiet, hfirst]
    exact ⟨Nat.le_trans List.countP_le_length hlength, by simpa using hlast⟩

theorem mem_tells_initialized {version : UInt64} {data : Handshake.VersionData}
    (h : .externalEvent (.peerInitialized pid (version, data)) ∈ b.tells pid msg st) :
    ∃ proposed, msg = .handshake (.propose proposed) ∧ b.Agrees proposed version data := by
  have hself : (ResponderOutput.externalEvent (.peerInitialized pid (version, data))).initializes pid = true := by
    simp [ResponderOutput.initializes]
  rcases tells_cases b pid msg st with hsilent | ⟨proposed, reply, events, rfl, -, htells, -, hreply, hevents⟩
  · cases hself.symm.trans (hsilent _ h pid).2
  · rw [htells] at h
    rcases List.mem_append.1 h with h | h
    · cases hself.symm.trans (hreply _ h pid)
    · rcases hevents with rfl | ⟨version', data', hagrees, rfl⟩
      · cases h
      · obtain ⟨rfl, rfl⟩ : version = version' ∧ data = data' := by simpa using h
        exact ⟨proposed, rfl, hagrees⟩

/-! ### One input -/

/-- The messages received of a peer in a step. -/
def receiptsOf (pid : PeerId) (x : Transition ResponderBehavior ResponderInput) : List (Receipt ResponderState) :=
  match x.input with
  | .io (.recv p _) => if p = pid then receipts x else []
  | _ => []

/-- What is told of messages received, or answered to them. -/
def tellings (b : HandshakeResponder) (pid : PeerId) (ys : List (Receipt ResponderState)) : ResponderQueue :=
  ys.flatMap fun y => b.tells pid y.message y.before

/-- Whether a peer is there that has yet to propose versions. -/
def awaited (s : ResponderBehavior) (pid : PeerId) : ℕ :=
  match s.peers.lookup pid with
  | some st => unproposed st.protocols
  | none => 0

theorem onInboundMsg_none (hl : s.peers.lookup pid = none) : s.onInboundMsg pid msg = s := by rw [onInboundMsg, hl]

theorem onInboundMsg_some (hl : s.peers.lookup pid = some st) : s.onInboundMsg pid msg = { s with
    peers := s.peers.insert pid (s.receive pid msg st).1
    outbound := s.outbound ++ s.handshake.tells pid msg st } := by
  rw [onInboundMsg, hl]
  simp only [(receive_spec s pid msg st).1]

/-- Messages of a peer, one after the other: what each brings about, and what it takes of the handshake. -/
structure Inbound (s : ResponderBehavior) (pid : PeerId) (ys : List (Receipt ResponderState)) (t : ResponderBehavior) :
    Prop where
  outbound : t.outbound = s.outbound ++ tellings s.handshake pid ys
  handshake : t.handshake = s.handshake
  others : ∀ p ≠ pid, t.peers.lookup p = s.peers.lookup p
  replies : (tellings s.handshake pid ys).countP (·.repliesTo pid) + t.awaited pid ≤ s.awaited pid
  events : (tellings s.handshake pid ys).countP (·.initializes pid) + t.awaited pid ≤ s.awaited pid

theorem onInboundMsgs_inbound (s : ResponderBehavior) (pid : PeerId) (msgs : List AnyMessage) :
    s.Inbound pid (recvReceipts pid s msgs) (msgs.foldl (fun s msg => s.onInboundMsg pid msg) s) := by
  induction msgs generalizing s with
  | nil => exact ⟨by simp [recvReceipts, tellings], rfl, fun _ _ => rfl, by simp [recvReceipts, tellings],
      by simp [recvReceipts, tellings]⟩
  | cons msg msgs ih =>
    rw [List.foldl_cons, recvReceipts]
    have hrest := ih (s.onInboundMsg pid msg)
    cases hl : s.peers.lookup pid with
    | none =>
      rw [onInboundMsg_none hl] at hrest ⊢
      exact hrest
    | some st =>
      obtain ⟨houtbound, hviolation, hhandshake⟩ := receive_spec s pid msg st
      have hnext := @onInboundMsg_some s pid st msg hl
      obtain ⟨hout, hsame, hothers, hreplies, hevents⟩ := hrest
      have hs : (s.onInboundMsg pid msg).handshake = s.handshake := by rw [hnext]
      have hawaited : s.awaited pid = unproposed st.protocols := by rw [awaited, hl]
      have hawaited' : (s.onInboundMsg pid msg).awaited pid = unproposed (st.protocols.next msg) := by
        rw [awaited, hnext]
        simp only [Finmap.lookup_insert]
        rw [unproposed, unproposed, ← hhandshake]
        rfl
      rw [hs, hawaited'] at hreplies hevents
      rw [hs] at hout
      obtain ⟨hreply, hevent⟩ := tells_unproposed s.handshake pid msg st pid
      have htellings : ∀ after events ys, tellings s.handshake pid ([⟨msg, st, after, events⟩] ++ ys) =
          s.handshake.tells pid msg st ++ tellings s.handshake pid ys := fun _ _ _ => by simp [tellings]
      refine ⟨?_, hsame.trans hs, fun p hp => ?_, ?_, ?_⟩
      · rw [hout, hnext]
        simp only [Option.map_some, Option.toList_some, htellings, List.append_assoc]
      · rw [hothers p hp, hnext]
        exact Finmap.lookup_insert_of_ne _ hp
      · simp only [Option.map_some, Option.toList_some, htellings, List.countP_append, hawaited]
        omega
      · simp only [Option.map_some, Option.toList_some, htellings, List.countP_append, hawaited]
        omega

/-- Nothing is answered or told, and no peer comes to where it may propose versions, but the peer may go. -/
structure Aside (pid : PeerId) (s t : ResponderBehavior) : Prop where
  outbound : (∀ o ∈ s.outbound, o.isOwn = false) → ∀ o ∈ t.outbound, o.isOwn = false
  handshake : t.handshake = s.handshake
  awaited : t.awaited pid ≤ s.awaited pid

namespace Aside

theorem refl (pid : PeerId) (s : ResponderBehavior) : Aside pid s s := ⟨id, rfl, Nat.le_refl _⟩

theorem trans {u : ResponderBehavior} (h : Aside pid s t) (h' : Aside pid t u) : Aside pid s u where
  outbound hs := h'.outbound (h.outbound hs)
  handshake := h'.handshake.trans h.handshake
  awaited := Nat.le_trans h'.awaited h.awaited

theorem foldl {α : Type} {f : ResponderBehavior → α → ResponderBehavior} (hf : ∀ s x, Aside pid s (f s x))
    (s : ResponderBehavior) (xs : List α) : Aside pid s (xs.foldl f s) := by
  induction xs generalizing s with
  | nil => exact refl pid s
  | cons x xs ih => exact (hf s x).trans (ih (f s x))

theorem push {outs : ResponderQueue} (houts : ∀ o ∈ outs, o.isOwn = false) (hout : t.outbound = s.outbound ++ outs)
    (hhandshake : t.handshake = s.handshake) (hawaited : t.awaited pid ≤ s.awaited pid) : Aside pid s t where
  outbound hs := by
    rw [hout]
    exact List.forall_mem_append.2 ⟨hs, houts⟩
  handshake := hhandshake
  awaited := hawaited

theorem pushOne {o : ResponderOutput} (ho : o.isOwn = false) (hout : t.outbound = s.outbound ++ [o])
    (hhandshake : t.handshake = s.handshake) (hawaited : t.awaited pid ≤ s.awaited pid) : Aside pid s t :=
  .push (by simpa using ho) hout hhandshake hawaited

end Aside

theorem awaited_congr (h : t.peers.lookup pid = s.peers.lookup pid) : t.awaited pid = s.awaited pid := by
  rw [awaited, awaited, h]

theorem awaited_insert_le {p : PeerId} {st' : ResponderState} (hl : s.peers.lookup p = some st)
    (hle : unproposed st'.protocols ≤ unproposed st.protocols) (ht : t.peers = s.peers.insert p st') (pid : PeerId) :
    t.awaited pid ≤ s.awaited pid := by
  by_cases hp : pid = p
  · subst hp
    simpa only [awaited, ht, hl, Finmap.lookup_insert] using hle
  · exact Nat.le_of_eq (awaited_congr (by rw [ht, Finmap.lookup_insert_of_ne _ hp]))

theorem isOwn_of_disconnect {p : PeerId} {outs : ResponderQueue}
    (h : ∀ o ∈ outs, o = .interfaceCommand (.disconnect p)) : ∀ o ∈ outs, o.isOwn = false := fun o ho => by
  rw [h o ho]
  rfl

theorem sendMsg_aside (s : ResponderBehavior) (p : PeerId) (pid : PeerId)
    (h : (ResponderOutput.interfaceCommand (.send p msg)).isOwn = false) : Aside pid s (s.sendMsg p msg) :=
  .pushOne h rfl rfl (Nat.le_refl _)

theorem disconnectPeer_aside (s : ResponderBehavior) (p pid : PeerId) : Aside pid s (s.disconnectPeer p) :=
  .pushOne rfl rfl rfl (Nat.le_refl _)

theorem tryRequestTxIds_protocols (b : TxSubmissionResponder) (pid : PeerId) (st : ResponderState)
    (out : ResponderQueue) :
    (b.tryRequestTxIds pid st out).1.protocols = st.protocols := by
  unfold TxSubmissionResponder.tryRequestTxIds ResponderState.trySendRequest
  repeat' split
  all_goals rfl

theorem visitHousekeeping_aside (s : ResponderBehavior) (p pid : PeerId) : Aside pid s (s.visitHousekeeping p) := by
  unfold visitHousekeeping
  split
  · exact .refl pid s
  · next st hl =>
    obtain ⟨outs, houts, hdisconnect⟩ := s.connection.visitHousekeeping_outbound p st s.outbound
    obtain ⟨st', htxs⟩ := tryRequestTxIds_eq s.txsubmission p st (s.outbound ++ outs)
    have hprotocols := tryRequestTxIds_protocols s.txsubmission p st (s.outbound ++ outs)
    rw [htxs] at hprotocols
    simp only [houts, htxs]
    refine .push (List.forall_mem_append.2 ⟨isOwn_of_disconnect hdisconnect, ?_⟩) (List.append_assoc ..) rfl
      (awaited_insert_le hl (Nat.le_of_eq (congrArg unproposed hprotocols)) rfl pid)
    split <;> simp [ResponderOutput.isOwn]

theorem onOutboundMsg_aside (s : ResponderBehavior) (p : PeerId) (msg : AnyMessage) (pid : PeerId) :
    Aside pid s (s.onOutboundMsg p msg) := by
  unfold onOutboundMsg
  split
  · exact .refl pid s
  · next st hl =>
    have hclear : (st.clearUnsent msg).protocols = st.protocols := by
      unfold ResponderState.clearUnsent
      split <;> rfl
    have hle : unproposed ((st.clearUnsent msg).applyMsg msg).protocols ≤ unproposed st.protocols := by
      rw [ResponderState.applyMsg_protocols, hclear]
      exact unproposed_next_le _ _
    exact ⟨id, rfl, awaited_insert_le hl hle rfl pid⟩

theorem onErrored_aside {p : PeerId} (h : s.onErrored p = .ok t) (pid : PeerId) : Aside pid s t := by
  unfold onErrored at h
  split at h
  · obtain rfl := Outcome.ok.inj h
    exact .refl pid s
  · next st hl =>
    obtain ⟨st', hcount, h⟩ := Outcome.bind_eq_ok.1 h
    obtain rfl := Outcome.ok.inj h
    have hprotocols : st'.protocols = st.protocols := by
      unfold countError at hcount
      split at hcount
      · obtain rfl := Outcome.ok.inj hcount
        rfl
      · cases hcount
    obtain ⟨outs, houts, hdisconnect⟩ := s.connection.visitErrored_outbound p st' s.outbound
    exact .push (isOwn_of_disconnect hdisconnect) houts rfl
      (awaited_insert_le hl (Nat.le_of_eq (congrArg unproposed hprotocols)) rfl pid)

theorem onDisconnected_aside (s : ResponderBehavior) (p pid : PeerId) : Aside pid s (s.onDisconnected p) := by
  refine .pushOne (o := .externalEvent (.peerDisconnected p)) rfl rfl rfl ?_
  by_cases hp : pid = p
  · subst hp
    simp [awaited, onDisconnected]
  · exact Nat.le_of_eq (awaited_congr (Finmap.lookup_erase_ne hp))

theorem onConnected_spec {p : PeerId} (h : s.onConnected p = .ok t) :
    t.peers = s.peers.insert p { ResponderState.new with connection := .connected } ∧ t.handshake = s.handshake ∧
      ∃ outs, t.outbound = s.outbound ++ outs ∧ ∀ o ∈ outs, o.isOwn = false := by
  obtain ⟨⟨connection, outbound⟩, hvisit, h⟩ := Outcome.bind_eq_ok.1 h
  obtain rfl := Outcome.ok.inj h
  obtain ⟨outs, houts, hdisconnect⟩ := ConnectionResponder.visitConnected_outbound hvisit
  exact ⟨rfl, rfl, outs, houts, isOwn_of_disconnect hdisconnect⟩

theorem onConnected_aside {p : PeerId} (h : s.onConnected p = .ok t) (hp : p ≠ pid) : Aside pid s t := by
  obtain ⟨hpeers, hhandshake, outs, hout, houts⟩ := onConnected_spec h
  exact .push houts hout hhandshake
    (Nat.le_of_eq (awaited_congr (by rw [hpeers, Finmap.lookup_insert_of_ne _ hp.symm])))

theorem banPeer_aside (s : ResponderBehavior) (p pid : PeerId) : Aside pid s (s.banPeer p) :=
  .pushOne rfl rfl rfl (Nat.le_refl _)

theorem housekeeping_aside (s : ResponderBehavior) (iter : List PeerId) (pid : PeerId) :
    Aside pid s (s.housekeeping iter) :=
  .foldl (fun s p => s.visitHousekeeping_aside p pid) s iter

theorem execute_aside (s : ResponderBehavior) (iter : List PeerId) (cmd : ResponderCommand) (pid : PeerId) :
    Aside pid s (s.execute iter cmd) := by
  cases cmd with
  | housekeeping => exact s.housekeeping_aside iter pid
  | banPeer p => exact s.banPeer_aside p pid
  | disconnectPeer p => exact s.disconnectPeer_aside p pid
  | provideBlocks p blocks =>
    have hblock : ∀ (s : ResponderBehavior) block, Aside pid s (s.sendMsg p (.blockFetch (.block block))) :=
      fun s block => s.sendMsg_aside p pid rfl
    have hblocks := Aside.foldl hblock
    exact ((s.sendMsg_aside p pid rfl).trans (hblocks _ blocks)).trans (sendMsg_aside _ p pid rfl)
  | _ p => exact s.sendMsg_aside p pid rfl

theorem Step.aside {input : ResponderInput} (h : s.Step input t) (hrecv : ∀ p msgs, input ≠ .io (.recv p msgs))
    (hconnected : input ≠ .io (.connected pid)) : Aside pid { s with outbound := [] } t := by
  obtain ⟨iter, -, h⟩ := h
  cases input with
  | io event =>
    cases event with
    | connected p => exact onConnected_aside h fun hp => hconnected (hp ▸ rfl)
    | disconnected p =>
      obtain rfl := Outcome.ok.inj h
      exact onDisconnected_aside _ p pid
    | sent p msg =>
      obtain rfl := Outcome.ok.inj h
      exact onOutboundMsg_aside _ p msg pid
    | error p text => exact onErrored_aside h pid
    | recv p msgs => exact absurd rfl (hrecv p msgs)
    | idle =>
      obtain rfl := Outcome.ok.inj h
      exact housekeeping_aside _ iter pid
  | command cmd =>
    obtain rfl := Outcome.ok.inj h
    exact execute_aside _ iter cmd pid

variable {input : ResponderInput} {f : ResponderOutput → Bool}

theorem onInboundMsgs_served {msgs : List AnyMessage} (hs : s.outbound = []) :
    ∀ o ∈ (msgs.foldl (fun s msg => s.onInboundMsg pid msg) s).outbound, o.served = some pid := by
  cases hl : s.peers.lookup pid with
  | none =>
    rw [onInboundMsgs_none hl, hs]
    simp
  | some st =>
    obtain ⟨outs, hout, hserved, -⟩ := @onInboundMsgs_some s pid st msgs hl
    rw [hout, hs]
    exact hserved

theorem receiptsOf_eq_nil (h : ∀ msgs, input ≠ .io (.recv pid msgs)) : receiptsOf pid ⟨s, input, t⟩ = [] := by
  unfold receiptsOf
  split
  · next p msgs hi =>
    by_cases hp : p = pid
    · subst hp
      exact absurd hi (h msgs)
    · exact if_neg hp
  · rfl

theorem Step.own (h : s.Step input t) (hf : ResponderOutput.OwnTo pid f) :
    t.outbound.filter f = (tellings s.handshake pid (receiptsOf pid ⟨s, input, t⟩)).filter f := by
  by_cases hrecv : ∃ p msgs, input = .io (.recv p msgs)
  · obtain ⟨p, msgs, rfl⟩ := hrecv
    obtain ⟨iter, -, h⟩ := h
    obtain rfl := Outcome.ok.inj h
    by_cases hp : p = pid
    · subst hp
      have hout := (onInboundMsgs_inbound { s with outbound := [] } p msgs).outbound
      simp only [receiptsOf, receipts, if_true]
      exact congrArg (List.filter f) (hout.trans (List.nil_append _))
    · rw [receiptsOf_eq_nil (by simp [hp])]
      refine List.filter_eq_nil_iff.2 fun o ho hfo => ?_
      exact hp (Option.some.inj ((onInboundMsgs_served rfl o ho).symm.trans (hf.served o hfo)))
  · have hne : ∀ p msgs, input ≠ .io (.recv p msgs) := fun p msgs hi => hrecv ⟨p, msgs, hi⟩
    have hown : ∀ o ∈ t.outbound, o.isOwn = false := by
      by_cases hc : ∃ p, input = .io (.connected p)
      · obtain ⟨p, rfl⟩ := hc
        obtain ⟨iter, -, h⟩ := h
        obtain ⟨-, -, outs, hout, houts⟩ := onConnected_spec h
        rw [hout]
        exact houts
      · exact (h.aside hne fun hi => hc ⟨pid, hi⟩).outbound (by simp)
    rw [receiptsOf_eq_nil (hne pid), hf.filter_eq_nil hown]
    rfl

theorem Step.handshake (h : s.Step input t) : t.handshake = s.handshake := by
  by_cases hrecv : ∃ p msgs, input = .io (.recv p msgs)
  · obtain ⟨p, msgs, rfl⟩ := hrecv
    obtain ⟨iter, -, h⟩ := h
    obtain rfl := Outcome.ok.inj h
    exact (onInboundMsgs_inbound { s with outbound := [] } p msgs).handshake
  by_cases hc : ∃ p, input = .io (.connected p)
  · obtain ⟨p, rfl⟩ := hc
    obtain ⟨iter, -, h⟩ := h
    exact (onConnected_spec h).2.1
  · have haside : Aside ⟨"", 0⟩ _ t := h.aside (fun p msgs hi => hrecv ⟨p, msgs, hi⟩) fun hi => hc ⟨_, hi⟩
    exact haside.handshake

theorem Step.awaited (h : s.Step input t) (hc : input ≠ .io (.connected pid)) :
    t.outbound.countP (·.repliesTo pid) + t.awaited pid ≤ s.awaited pid ∧
      t.outbound.countP (·.initializes pid) + t.awaited pid ≤ s.awaited pid := by
  have hreplies := h.own (ResponderOutput.ownTo_repliesTo pid)
  have hevents := h.own (ResponderOutput.ownTo_initializes pid)
  rw [List.countP_eq_length_filter, List.countP_eq_length_filter, hreplies, hevents, ← List.countP_eq_length_filter,
    ← List.countP_eq_length_filter]
  have hnone : ∀ {f}, receiptsOf pid ⟨s, input, t⟩ = [] → t.awaited pid ≤ s.awaited pid →
      (tellings s.handshake pid (receiptsOf pid ⟨s, input, t⟩)).countP f + t.awaited pid ≤ s.awaited pid :=
        fun hr hle => by
    rw [hr]
    simpa [tellings] using hle
  by_cases hrecv : ∃ p msgs, input = .io (.recv p msgs)
  · obtain ⟨p, msgs, rfl⟩ := hrecv
    have hinbound := onInboundMsgs_inbound { s with outbound := [] } p msgs
    obtain ⟨iter, -, h⟩ := h
    obtain rfl := Outcome.ok.inj h
    by_cases hp : p = pid
    · subst hp
      simp only [receiptsOf, receipts, if_true]
      exact ⟨hinbound.replies, hinbound.events⟩
    · have hstay := Nat.le_of_eq (awaited_congr (hinbound.others pid (Ne.symm hp)))
      have hother : ∀ msgs', ResponderInput.io (.recv p msgs) ≠ .io (.recv pid msgs') := by simp [hp]
      exact ⟨hnone (receiptsOf_eq_nil hother) hstay, hnone (receiptsOf_eq_nil hother) hstay⟩
  · have hne : ∀ p msgs, input ≠ .io (.recv p msgs) := fun p msgs hi => hrecv ⟨p, msgs, hi⟩
    have hstay := (h.aside hne hc).awaited
    exact ⟨hnone (receiptsOf_eq_nil (hne pid)) hstay, hnone (receiptsOf_eq_nil (hne pid)) hstay⟩

/-! ### Connections -/

/-- All that is pushed in these steps. -/
def outputs (tr : List (Transition ResponderBehavior ResponderInput)) : ResponderQueue := tr.flatMap (·.target.outbound)

/-- The messages received of the peer in these steps. -/
def received (pid : PeerId) (tr : List (Transition ResponderBehavior ResponderInput)) : List (Receipt ResponderState) :=
  tr.flatMap (receiptsOf pid)

/-- The steps of one connection of the peer: it connects in the first, and neither connects nor disconnects after it. -/
def IsConnection (pid : PeerId) : List (Transition ResponderBehavior ResponderInput) → Prop
  | [] => False
  | x :: tr => x.input = .io (.connected pid) ∧
      ∀ y ∈ tr, y.input ≠ .io (.connected pid) ∧ y.input ≠ .io (.disconnected pid)

instance (pid : PeerId) : ∀ tr, Decidable (IsConnection pid tr)
  | [] => inferInstanceAs (Decidable False)
  | _ :: _ => inferInstanceAs (Decidable (_ ∧ _))

/-- What a responder does of its own for a peer in these steps corresponds to what it receives of the peer. -/
structure Corresponds (b : HandshakeResponder) (pid : PeerId)
    (tr : List (Transition ResponderBehavior ResponderInput)) :
    Prop where
  /-- The `Accept` of the version and data in the event, or a `Refuse` where none is agreed on. -/
  oneReply : (outputs tr).countP (·.repliesTo pid) ≤ 1
  oneEvent : (outputs tr).countP (·.initializes pid) ≤ 1
  agreed : ∀ version data, .externalEvent (.peerInitialized pid (version, data)) ∈ outputs tr →
    ∃ y ∈ received pid tr, ∃ proposed, y.message = .handshake (.propose proposed) ∧ b.Agrees proposed version data
  /-- In order, one for each request that comes when the peer is initialized and that leaves it without violation. -/
  answered : (outputs tr).filter (·.dueTo pid) = (received pid tr).flatMap fun y =>
    if y.before.isInitialized && !y.after.violation then (y.message.due pid).toList else []
  /-- A request where the client has agency is no violation. -/
  unviolated : ∀ y ∈ received pid tr, y.before.protocols.agency y.message = some .client → y.message.due pid ≠ none →
    y.after.violation = y.before.violation

variable {pre post tr : List (Transition ResponderBehavior ResponderInput)}

theorem mem_receipts_of_receiptsOf {x : Transition ResponderBehavior ResponderInput} {y : Receipt ResponderState}
    (h : y ∈ receiptsOf pid x) : y ∈ receipts x ∧ y.after.violation = (y.before.applyMsg y.message).violation := by
  unfold receiptsOf at h
  split at h
  · split at h
    · obtain ⟨u, p, hafter, -⟩ := exists_of_mem_receipts h
      exact ⟨h, by rw [hafter, (receive_spec u p y.message y.before).2.1]⟩
    · cases h
  · cases h

theorem accepts_of_due {ps : ProtocolStates} (ha : ps.agency msg = some .client) (hdue : msg.due pid ≠ none) :
    ps.accepts msg = true := by
  cases msg with
  | handshake m => cases m <;> exact absurd rfl hdue
  | txSubmission m => exact absurd rfl hdue
  | leiosNotify m => exact absurd rfl hdue
  | keepAlive m =>
    simp only [ProtocolStates.accepts, ProtocolStates.agency] at ha ⊢
    generalize ps.keepalive = k at ha ⊢
    cases k <;> cases m <;> first | rfl | exact absurd rfl hdue | cases ha
  | chainSync m =>
    simp only [ProtocolStates.accepts, ProtocolStates.agency] at ha ⊢
    generalize ps.chainsync = k at ha ⊢
    cases k <;> cases m <;> first | rfl | exact absurd rfl hdue | cases ha
  | blockFetch m =>
    simp only [ProtocolStates.accepts, ProtocolStates.agency] at ha ⊢
    generalize ps.blockfetch = k at ha ⊢
    cases k <;> cases m <;> first | rfl | exact absurd rfl hdue | cases ha
  | peerSharing m =>
    simp only [ProtocolStates.accepts, ProtocolStates.agency] at ha ⊢
    generalize ps.peersharing = k at ha ⊢
    cases k <;> cases m <;> first | rfl | exact absurd rfl hdue | cases ha
  | leiosFetch m =>
    simp only [ProtocolStates.accepts, ProtocolStates.agency] at ha ⊢
    generalize ps.leiosFetch = k at ha ⊢
    cases k <;> cases m <;> first | rfl | exact absurd rfl hdue | cases ha

theorem spoken_le_one (h : Run Init Step (pre ++ tr) s) (hconnection : IsConnection pid tr) :
    (outputs tr).countP (·.repliesTo pid) ≤ 1 ∧ (outputs tr).countP (·.initializes pid) ≤ 1 := by
  cases tr with
  | nil => exact hconnection.elim
  | cons x tr =>
    obtain ⟨hx, hlater⟩ := hconnection
    rw [← List.singleton_append, ← List.append_assoc] at h
    have hfirst : ∀ {f}, ResponderOutput.OwnTo pid f → x.target.outbound.countP f = 0 := fun {f} hf => by
      have hown := (h.step_of_mem (x := x) (by simp)).own hf
      rw [receiptsOf_eq_nil (by simp [hx])] at hown
      rw [List.countP_eq_length_filter, hown]
      rfl
    have hle : x.target.awaited pid ≤ 1 := by
      unfold awaited unproposed
      split
      · split <;> simp
      · exact Nat.zero_le 1
    have hspent : ∀ {f}, ResponderOutput.OwnTo pid f → (∀ s i t, i ≠ .io (.connected pid) → Step s i t →
        t.outbound.countP f + t.awaited pid ≤ s.awaited pid) → (outputs (x :: tr)).countP f ≤ 1 :=
          fun {f} hf hstep => by
      obtain ⟨u, hu, hcost⟩ := h.potential (V := (awaited · pid)) (C := fun y => y.target.outbound.countP f)
        (K := fun y => y.input ≠ .io (.connected pid)) hstep fun y hy => (hlater y hy).1
      obtain ⟨-, -, rfl⟩ := Run.of_concat hu
      have hsum : (outputs tr).countP f = (tr.map fun y => y.target.outbound.countP f).sum := List.countP_flatMap
      have hall : outputs (x :: tr) = x.target.outbound ++ outputs tr := List.flatMap_cons
      rw [hall, List.countP_append, hfirst hf, hsum]
      omega
    exact ⟨hspent (ResponderOutput.ownTo_repliesTo pid) fun s i t hi hs => (hs.awaited hi).1,
      hspent (ResponderOutput.ownTo_initializes pid) fun s i t hi hs => (hs.awaited hi).2⟩

/-- In each connection of a run whose client sends no message that only the server may send and the responder would
take, what the responder answers and tells of corresponds to the requests received. -/
theorem correspondence (h : Run Init Step (pre ++ tr ++ post) s) (hconnection : IsConnection pid tr)
    (hclient : ∀ y ∈ received pid tr, FromClient y) : Corresponds s.handshake pid tr := by
  have hhandshake : ∀ x ∈ tr, x.source.handshake = s.handshake := fun x hx =>
    h.constant (fun _ _ _ hs => hs.handshake) x (by simp [hx])
  have hown : ∀ {f}, ResponderOutput.OwnTo pid f →
      (outputs tr).filter f = (tellings s.handshake pid (received pid tr)).filter f := fun {f} hf => by
    unfold outputs tellings received
    rw [List.flatMap_assoc, List.filter_flatMap, List.filter_flatMap]
    refine List.flatMap_congr fun x hx => ?_
    rw [← hhandshake x hx]
    exact Step.own (h.step_of_mem (by simp [hx])) hf
  obtain ⟨t, hrun⟩ := h.exists_of_append
  obtain ⟨hreplies, hevents⟩ := spoken_le_one hrun hconnection
  refine ⟨hreplies, hevents, fun version data hmem => ?_, ?_, fun y hy hagency hdue => ?_⟩
  · have hself : (ResponderOutput.externalEvent (.peerInitialized pid (version, data))).initializes pid = true := by
      simp [ResponderOutput.initializes]
    have hfilter := List.mem_filter.2 ⟨hmem, hself⟩
    rw [hown (ResponderOutput.ownTo_initializes pid)] at hfilter
    obtain ⟨y, hy, htells⟩ := List.mem_flatMap.1 (List.mem_filter.1 hfilter).1
    exact ⟨y, hy, mem_tells_initialized htells⟩
  · rw [hown (ResponderOutput.ownTo_dueTo pid), tellings, List.filter_flatMap]
    refine List.flatMap_congr fun y hy => ?_
    obtain ⟨x, -, hyx⟩ := List.mem_flatMap.1 hy
    rw [(mem_receipts_of_receiptsOf hyx).2]
    exact tells_dueTo (hclient y hy)
  · obtain ⟨x, -, hyx⟩ := List.mem_flatMap.1 hy
    rw [(mem_receipts_of_receiptsOf hyx).2, ResponderState.applyMsg_violation, accepts_of_due hagency hdue]
    simp

/-- Two peers, one of them with a violation: each request before it is answered, beside a handshake of the other. -/
theorem correspondence_two : ∃ pre tr s, Run Init Step (pre ++ tr ++ []) s ∧ Corresponds s.handshake ⟨"a", 1⟩ tr ∧
    (outputs tr).filter (·.dueTo ⟨"a", 1⟩) = [.interfaceCommand (.send ⟨"a", 1⟩ (.keepAlive (.responseKeepAlive 3))),
      .externalEvent (.nextHeaderRequested ⟨"a", 1⟩)] := by
  have hplays : (Run.play move (new .default .default .default)
      [([], .io (.connected ⟨"b", 1⟩)), ([⟨"b", 1⟩], .io (.connected ⟨"a", 1⟩)),
        ([⟨"a", 1⟩, ⟨"b", 1⟩], .io (.recv ⟨"a", 1⟩
          [.handshake (.propose HandshakeResponder.default.supportedVersion), .keepAlive (.keepAlive 3)])),
        ([⟨"a", 1⟩, ⟨"b", 1⟩], .io (.recv ⟨"b", 1⟩
          [.handshake (.propose HandshakeResponder.default.supportedVersion), .keepAlive (.keepAlive 5)])),
        ([⟨"a", 1⟩, ⟨"b", 1⟩], .io .idle),
        ([⟨"a", 1⟩, ⟨"b", 1⟩], .io (.recv ⟨"a", 1⟩ [.chainSync .requestNext, .keepAlive (.keepAlive 4)]))]).any
      (fun (tr, _) => IsConnection ⟨"a", 1⟩ (tr.drop 1) ∧ (∀ y ∈ received ⟨"a", 1⟩ (tr.drop 1), FromClient y) ∧
        (outputs (tr.drop 1)).filter (·.dueTo ⟨"a", 1⟩) =
          [.interfaceCommand (.send ⟨"a", 1⟩ (.keepAlive (.responseKeepAlive 3))),
            .externalEvent (.nextHeaderRequested ⟨"a", 1⟩)]) = true := by decide
  have hinit : Init (new .default .default .default) := ⟨_, _, _, rfl⟩
  obtain ⟨tr, s, hrun, htest⟩ := Run.exists_of_play step_of_move hinit hplays
  obtain ⟨hconnection, hclient, hanswers⟩ := of_decide_eq_true htest
  have hrun' : Run Init Step (tr.take 1 ++ tr.drop 1 ++ []) s := by
    rw [List.take_append_drop, List.append_nil]
    exact hrun
  exact ⟨tr.take 1, tr.drop 1, s, hrun', correspondence hrun' hconnection hclient, hanswers⟩

end ResponderBehavior
end Pallas.Network2
