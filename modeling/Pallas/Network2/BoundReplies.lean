import Pallas.Lib.Runs
import Pallas.Network2.OnePeer

/-!
# Replies and what they answer

`Handshake.State.apply` takes an `Accept` of any version, whatever was proposed, and `Keepalive.State.apply` takes a
response with any cookie. `Bound` says of a step that no reply does more than answer its request; `Answers` says what the
peer has to send for that, and it is necessary, too: nothing in between checks a reply (`bound_iff_answers`).

A `Recv` carries several messages, so a step is looked at message by message (`stages`). The table that was proposed is
read off the outputs (`proposals`).
-/

namespace Pallas.Network2

/-! ### One message in a handshake and in keep-alive -/

/-- The state after a message: one that is not valid leaves it, and so does one of another protocol. -/
def Handshake.State.next (self : State) : AnyMessage → State
  | .handshake msg => match self.apply msg with
    | .ok s => s
    | .error _ => self
  | _ => self

def Keepalive.State.next (self : State) : AnyMessage → State
  | .keepAlive msg => match self.apply msg with
    | .ok s => s
    | .error _ => self
  | _ => self

def Handshake.VersionTable.versions (table : VersionTable) : List UInt64 := table.values.map (·.1)

variable {pid : PeerId} {st st' : InitiatorState} {out outs : OutboundQueue} {msg : AnyMessage}

theorem Handshake.State.next_eq_accepted {self : State} {num : UInt64} {data : VersionData} :
    self.next msg = .done (.accepted num data) ↔ self = .done (.accepted num data) ∨
      (∃ table, self = .confirm table) ∧ msg = .handshake (.accept num data) := by
  cases msg with
  | handshake m => cases self <;> cases m <;> simp [next, apply]
  | _ => simp [next]

theorem Keepalive.State.next_eq_client {self : State} {cookie : Cookie} (hs : self = .server cookie) :
    (∃ state, self.next msg = .client state) ↔ ∃ reply, msg = .keepAlive (.responseKeepAlive reply) := by
  subst hs
  cases msg with
  | keepAlive m => cases m <;> simp [next, apply]
  | _ => simp [next]

namespace InitiatorState

theorem applyMsg_handshake (st : InitiatorState) (msg : AnyMessage) :
    (st.applyMsg msg).handshake = st.handshake.next msg := by
  cases msg <;> simp only [applyMsg, Handshake.State.next] <;> split <;> simp [*]

theorem applyMsg_keepalive (st : InitiatorState) (msg : AnyMessage) :
    (st.applyMsg msg).keepalive = st.keepalive.next msg := by
  cases msg <;> simp only [applyMsg, Keepalive.State.next] <;> split <;> simp [*]

theorem clearUnsent_handshake (st : InitiatorState) (msg : AnyMessage) :
    (st.clearUnsent msg).handshake = st.handshake := by
  unfold clearUnsent
  split <;> rfl

theorem clearUnsent_keepalive (st : InitiatorState) (msg : AnyMessage) :
    (st.clearUnsent msg).keepalive = st.keepalive := by
  unfold clearUnsent
  split <;> rfl

end InitiatorState

/-- The two protocols of this module are in the states they were in. -/
def SameReplies (st st' : InitiatorState) : Prop := st'.handshake = st.handshake ∧ st'.keepalive = st.keepalive

theorem ChainSyncBehavior.drainData_sameReplies : SameReplies st (drainData pid st out).1 := by
  unfold drainData
  split
  · exact ⟨rfl, rfl⟩
  · split <;> exact ⟨rfl, rfl⟩

theorem Move.sameReplies (h : Move pid st outs st') : SameReplies st st' := by
  cases h with
  | header _ => exact ChainSyncBehavior.drainData_sameReplies
  | notification =>
    unfold LeiosNotifyBehavior.dispatch
    split <;> exact ⟨rfl, rfl⟩
  | fetched =>
    unfold LeiosFetchBehavior.dispatch
    split <;> exact ⟨rfl, rfl⟩
  | _ => exact ⟨rfl, rfl⟩

/-- No visitor takes part in a handshake or in keep-alive. -/
theorem Moves.sameReplies (h : Moves pid st outs st') : SameReplies st st' := by
  induction h with
  | refl => exact ⟨rfl, rfl⟩
  | snoc _ hmove ih => exact ⟨hmove.sameReplies.1.trans ih.1, hmove.sameReplies.2.trans ih.2⟩

theorem ChainSyncBehavior.visitTagged_sameReplies (b : ChainSyncBehavior) :
    SameReplies st (b.visitTagged pid st out).1 := by
  unfold visitTagged
  split
  · exact ⟨rfl, rfl⟩
  · split
    · exact ⟨rfl, rfl⟩
    · split
      · rcases st.trySendRequest_cases pid (.chainSync .requestNext) out with h | ⟨unsent, -, -, h⟩
        · rw [h]
          exact ⟨rfl, rfl⟩
        · rw [h]
          exact ⟨rfl, rfl⟩
      · exact ⟨rfl, rfl⟩

theorem Moves.not_propose (h : Moves pid st outs st') {p : PeerId} {m : Handshake.Message} :
    .interfaceCommand (.send p (.handshake m)) ∉ outs := by
  induction h with
  | refl => simp
  | snoc _ hmove ih =>
    rw [List.mem_append, not_or]
    refine ⟨ih, ?_⟩
    cases hmove with
    | request hn hc hi =>
      intro hmem
      obtain ⟨rfl, rfl⟩ := by simpa using hmem
      cases hc
    | header _ =>
      unfold ChainSyncBehavior.drainData
      split
      · simp
      · split <;> simp
    | notification =>
      unfold LeiosNotifyBehavior.dispatch
      split <;> simp
    | fetched =>
      unfold LeiosFetchBehavior.dispatch
      split <;> simp
    | _ => simp

theorem PeerStep.propose_eq {table table' : Handshake.VersionTable} {input : Input}
    (h : PeerStep table pid st input outs st')
    (hm : .interfaceCommand (.send pid (.handshake (.propose table'))) ∈ outs) : table' = table := by
  cases h with
  | connected _ => simpa using hm
  | disconnected => simp at hm
  | included _ => simp at hm
  | sent hmoves => exact absurd hm hmoves.not_propose
  | recv hreceives =>
    induction hreceives with
    | nil => simp at hm
    | snoc _ hmoves ih =>
      rcases List.mem_append.1 hm with hm | hm
      · exact ih hm
      · exact absurd hm hmoves.not_propose
  | error hmoves => exact absurd hm hmoves.not_propose
  | tagged _ =>
    unfold ChainSyncBehavior.visitTagged at hm
    split at hm
    · simp at hm
    · split at hm
      · simp at hm
      · split at hm
        · rename_i f _ _ _ _
          rcases (f st).trySendRequest_cases pid (.chainSync .requestNext) [] with h | ⟨unsent, -, -, h⟩
          · simp [h] at hm
          · simp [h] at hm
        · simp at hm
  | other _ hmoves => exact absurd hm hmoves.not_propose

namespace InitiatorBehavior
variable {s t u v : InitiatorBehavior} {input : Input}

def handshakeOf (s : InitiatorBehavior) (pid : PeerId) : Option Handshake.State :=
  (s.peers.lookup pid).map (·.handshake)

def keepaliveOf (s : InitiatorBehavior) (pid : PeerId) : Option Keepalive.State :=
  (s.peers.lookup pid).map (·.keepalive)

/-! ### The stages of a step -/

/-- A message that is applied, with the state before it and the state after it and the visitors; or a whole step that
applies none. -/
structure Stage where
  message : Option (PeerId × AnyMessage)
  before : InitiatorBehavior
  after : InitiatorBehavior

def recvStages (s : InitiatorBehavior) (pid : PeerId) : List AnyMessage → List Stage
  | [] => []
  | msg :: msgs => match s.onInboundMsg pid msg with
    | .ok t => ⟨some (pid, msg), s, t⟩ :: t.recvStages pid msgs
    | _ => []

def stages (x : Transition InitiatorBehavior Input) : List Stage :=
  match x.input with
  | .io (.recv pid msgs) => recvStages { x.source with outbound := [] } pid msgs
  | .io (.sent pid msg) => [⟨some (pid, msg), x.source, x.target⟩]
  | _ => [⟨none, x.source, x.target⟩]

theorem mem_recvStages {y : Stage} {msgs : List AnyMessage} (h : y ∈ s.recvStages pid msgs) :
    ∃ msg, y.message = some (pid, msg) ∧ y.before.onInboundMsg pid msg = .ok y.after := by
  induction msgs generalizing s with
  | nil => simp [recvStages] at h
  | cons msg msgs ih =>
    rw [recvStages] at h
    split at h
    · next t ht =>
      rcases List.mem_cons.1 h with rfl | h
      · exact ⟨msg, rfl, ht⟩
      · exact ih h
    · simp at h

/-- What a message does to the two protocols of its peer, and to those of another. -/
def Passes (msg : AnyMessage) (pid : PeerId) (u v : InitiatorBehavior) : Prop :=
  (v.handshakeOf pid = (u.handshakeOf pid).map (·.next msg) ∧
    v.keepaliveOf pid = (u.keepaliveOf pid).map (·.next msg)) ∧
    ∀ x, x ≠ pid → v.handshakeOf x = u.handshakeOf x ∧ v.keepaliveOf x = u.keepaliveOf x

theorem onInboundMsg_passes (h : u.onInboundMsg pid msg = .ok v) : Passes msg pid u v := by
  obtain ⟨-, huntracked, outs, -, -, hsome⟩ := onInboundMsg_onlyAt h
  have hfix : ∀ x, u.peers.lookup x = none → v.handshakeOf x = none ∧ v.keepaliveOf x = none := fun x hl => by
    simp [handshakeOf, keepaliveOf, huntracked x hl]
  constructor
  · cases hl : u.peers.lookup pid with
    | none => simp [handshakeOf, keepaliveOf, hl, huntracked pid hl]
    | some st =>
      obtain ⟨st', hl', ⟨-, hmoves⟩ | ⟨hx, -⟩⟩ := hsome pid st hl
      · obtain ⟨hh, hk⟩ := hmoves.sameReplies
        simp [handshakeOf, keepaliveOf, hl, hl', hh, hk, st.applyMsg_handshake, st.applyMsg_keepalive]
      · exact absurd rfl hx
  · intro x hx
    cases hl : u.peers.lookup x with
    | none => simp [handshakeOf, keepaliveOf, hl, huntracked x hl]
    | some st =>
      obtain ⟨st', hl', ⟨hx', -⟩ | ⟨-, -, rfl⟩⟩ := hsome x st hl
      · exact absurd hx' hx
      · simp [handshakeOf, keepaliveOf, hl, hl']

/-- A step that is a `Sent`. -/
theorem Step.sent_passes (h : s.Step (.io (.sent pid msg)) t) : Passes msg pid s t := by
  have hnone : ∀ x, s.peers.lookup x = none → t.peers.lookup x = none := fun x hl => by
    rcases ((h.onePeer x).2.1 hl).2 with hl' | ⟨ha, -⟩
    · exact hl'
    · cases ha
  constructor
  · cases hl : s.peers.lookup pid with
    | none => simp [handshakeOf, keepaliveOf, hl, hnone pid hl]
    | some st =>
      obtain ⟨st', hl', hstep⟩ := (h.onePeer pid).2.2 st hl
      generalize t.outbound.about pid = outs at hstep
      cases hstep with
      | sent hmoves =>
        obtain ⟨hh, hk⟩ := hmoves.sameReplies
        simp [handshakeOf, keepaliveOf, hl, hl', hh, hk, InitiatorState.applyMsg_handshake,
          InitiatorState.applyMsg_keepalive, InitiatorState.clearUnsent_handshake, InitiatorState.clearUnsent_keepalive]
      | tagged htag => cases htag
      | other ha => exact absurd rfl ha
  · intro x hx
    cases hl : s.peers.lookup x with
    | none => simp [handshakeOf, keepaliveOf, hl, hnone x hl]
    | some st =>
      obtain ⟨st', hl', hstep⟩ := (h.onePeer x).2.2 st hl
      generalize t.outbound.about x = outs at hstep
      cases hstep with
      | sent _ => exact absurd rfl hx
      | tagged htag => cases htag
      | other _ hmoves =>
        obtain ⟨hh, hk⟩ := hmoves.sameReplies
        simp [handshakeOf, keepaliveOf, hl, hl', hh, hk]

theorem Step.idle_replies (h : s.Step input t) (hrecv : ∀ pid msgs, input ≠ .io (.recv pid msgs))
    (hsent : ∀ pid msg, input ≠ .io (.sent pid msg)) (pid : PeerId) :
    (t.handshakeOf pid = s.handshakeOf pid ∧ t.keepaliveOf pid = s.keepaliveOf pid) ∨
      (t.handshakeOf pid = some default ∧ t.keepaliveOf pid = some default) ∧
        (s.peers.lookup pid = none ∨ input = .io (.disconnected pid) ∨ input = .command (.includePeer pid)) := by
  obtain ⟨-, hnone, hsome⟩ := h.onePeer pid
  cases hl : s.peers.lookup pid with
  | none =>
    rcases (hnone hl).2 with hl' | ⟨-, hl'⟩
    · exact .inl (by simp [handshakeOf, keepaliveOf, hl, hl'])
    · exact .inr ⟨by simp [handshakeOf, keepaliveOf, hl', InitiatorState.new], .inl rfl⟩
  | some st =>
    obtain ⟨st', hl', hstep⟩ := hsome st hl
    have hsame (hs : SameReplies st st') :
        t.handshakeOf pid = s.handshakeOf pid ∧ t.keepaliveOf pid = s.keepaliveOf pid := by
      simp [handshakeOf, keepaliveOf, hl, hl', hs.1, hs.2]
    generalize t.outbound.about pid = outs at hstep
    cases hstep with
    | connected _ => exact .inl (hsame ⟨rfl, rfl⟩)
    | disconnected =>
      exact .inr ⟨by simp [handshakeOf, keepaliveOf, hl', InitiatorState.reset, InitiatorState.new], .inr (.inl rfl)⟩
    | sent _ => exact absurd rfl (hsent _ _)
    | recv _ => exact absurd rfl (hrecv _ _)
    | error hmoves => exact .inl (hsame hmoves.sameReplies)
    | tagged htag =>
      refine .inl (hsame ?_)
      rcases Input.tagger_eq_some htag with ⟨-, rfl⟩ | ⟨-, rfl⟩ | ⟨-, rfl⟩
      · exact ChainSyncBehavior.visitTagged_sameReplies _
      · exact ChainSyncBehavior.visitTagged_sameReplies _
      · exact ChainSyncBehavior.visitTagged_sameReplies _
    | included _ => exact .inr ⟨by simp [handshakeOf, keepaliveOf, hl', InitiatorState.new], .inr (.inr rfl)⟩
    | other _ hmoves => exact .inl (hsame hmoves.sameReplies)

/-! ### What was proposed -/

/-- The table of the last proposal that the outputs send to the peer. -/
def proposal (out : OutboundQueue) (pid : PeerId) : Option Handshake.VersionTable :=
  (out.filterMap fun
    | .interfaceCommand (.send x (.handshake (.propose table))) => if x = pid then some table else none
    | _ => none).getLast?

/-- The table proposed to each peer on its current connection. -/
abbrev Proposals := PeerId → Option Handshake.VersionTable

def proposals (g : Proposals) (x : Transition InitiatorBehavior Input) : Proposals := fun pid =>
  match x.input with
  | .io (.connected p) => if p = pid then proposal x.target.outbound pid else g pid
  | .io (.disconnected p) => if p = pid then none else g pid
  | _ => (proposal x.target.outbound pid).orElse fun _ => g pid

/-! ### Bound replies, and answers -/

/-- A version is accepted only if it was proposed on the connection. A keep-alive request is over only with a response
that has its cookie, or when the peer starts afresh. -/
structure Bound (g : Proposals) (x : Transition InitiatorBehavior Input) : Prop where
  accepted : ∀ y ∈ stages x, ∀ pid num data, y.after.handshakeOf pid = some (.done (.accepted num data)) →
    y.before.handshakeOf pid ≠ some (.done (.accepted num data)) → ∃ table, g pid = some table ∧ num ∈ table.versions
  cookie : ∀ y ∈ stages x, ∀ pid cookie state, y.before.keepaliveOf pid = some (.server cookie) →
    y.after.keepaliveOf pid = some (.client state) → x.input ≠ .io (.disconnected pid) →
    x.input ≠ .command (.includePeer pid) → y.message = some (pid, .keepAlive (.responseKeepAlive cookie))

/-- An `Accept` that confirms a proposal has a version from the table of the initiator, on a connection on which it was
proposed. A response to a request has its cookie. -/
def Stage.Answers (g : Proposals) (table : Handshake.VersionTable) (y : Stage) : Prop :=
  match y.message with
  | some (pid, .handshake (.accept num _)) => match y.before.handshakeOf pid with
    | some (.confirm _) => g pid ≠ none ∧ num ∈ table.versions
    | _ => True
  | some (pid, .keepAlive (.responseKeepAlive reply)) => match y.before.keepaliveOf pid with
    | some (.server cookie) => reply = cookie
    | _ => True
  | _ => True

def Answers (g : Proposals) (x : Transition InitiatorBehavior Input) : Prop :=
  ∀ y ∈ stages x, y.Answers g x.source.handshake.supportedVersion

instance (g : Proposals) (table : Handshake.VersionTable) (y : Stage) : Decidable (y.Answers g table) := by
  unfold Stage.Answers
  split
  · split <;> infer_instance
  · split <;> infer_instance
  · infer_instance

instance (g : Proposals) (x : Transition InitiatorBehavior Input) : Decidable (Answers g x) :=
  inferInstanceAs (Decidable (∀ y ∈ stages x, _))

variable {g : Proposals} {x : Transition InitiatorBehavior Input} {y : Stage}

theorem stage_cases (h : x.source.Step x.input x.target) (hy : y ∈ stages x) :
    (∃ pid msg, y.message = some (pid, msg) ∧ Passes msg pid y.before y.after ∧ x.input.addressee = some pid ∧
        ∀ p, x.input ≠ .io (.disconnected p)) ∨
      y.message = none ∧ y.before = x.source ∧ y.after = x.target ∧ (∀ pid msgs, x.input ≠ .io (.recv pid msgs)) ∧
        ∀ pid msg, x.input ≠ .io (.sent pid msg) := by
  obtain ⟨s, input, t⟩ := x
  unfold stages at hy
  split at hy
  · next pid msgs hinput =>
    obtain rfl : input = .io (.recv pid msgs) := hinput
    obtain ⟨msg, hmsg, hstep⟩ := mem_recvStages hy
    exact .inl ⟨pid, msg, hmsg, onInboundMsg_passes hstep, rfl, by simp⟩
  · next pid msg hinput =>
    obtain rfl : input = .io (.sent pid msg) := hinput
    obtain rfl := List.mem_singleton.1 hy
    exact .inl ⟨pid, msg, rfl, h.sent_passes, rfl, by simp⟩
  · next hrecv hsent =>
    obtain rfl := List.mem_singleton.1 hy
    exact .inr ⟨rfl, rfl, rfl, fun pid msgs he => hrecv pid msgs he, fun pid msg he => hsent pid msg he⟩

theorem Passes.accepted {p : PeerId} {num : UInt64} {data : Handshake.VersionData} (h : Passes msg pid u v)
    (hv : v.handshakeOf p = some (.done (.accepted num data)))
    (hu : u.handshakeOf p ≠ some (.done (.accepted num data))) :
    p = pid ∧ (∃ table, u.handshakeOf p = some (.confirm table)) ∧ msg = .handshake (.accept num data) := by
  obtain ⟨⟨hself, -⟩, hother⟩ := h
  by_cases hp : p = pid
  · subst hp
    rw [hself, Option.map_eq_some_iff] at hv
    obtain ⟨hs, hlookup, hnext⟩ := hv
    rcases Handshake.State.next_eq_accepted.1 hnext with rfl | ⟨⟨table, rfl⟩, rfl⟩
    · exact absurd hlookup hu
    · exact ⟨rfl, ⟨table, hlookup⟩, rfl⟩
  · rw [(hother p hp).1] at hv
    exact absurd hv hu

theorem Passes.returned {p : PeerId} {cookie : Keepalive.Cookie} {state : Keepalive.ClientState}
    (h : Passes msg pid u v)
    (hu : u.keepaliveOf p = some (.server cookie)) (hv : v.keepaliveOf p = some (.client state)) :
    p = pid ∧ ∃ reply, msg = .keepAlive (.responseKeepAlive reply) := by
  obtain ⟨⟨-, hself⟩, hother⟩ := h
  by_cases hp : p = pid
  · subst hp
    rw [hself, hu] at hv
    exact ⟨rfl, (Keepalive.State.next_eq_client rfl).1 ⟨state, Option.some.inj hv⟩⟩
  · rw [(hother p hp).2, hu] at hv
    cases hv

theorem bound_iff_answers (h : x.source.Step x.input x.target)
    (hg : ∀ pid table, g pid = some table → table = x.source.handshake.supportedVersion) : Bound g x ↔ Answers g x := by
  constructor
  · intro hbound y hy
    rcases stage_cases h hy with ⟨pid, msg, hmsg, hpasses, haddressee, hdisc⟩ | ⟨hmsg, -⟩
    · unfold Stage.Answers
      split
      · next p num data hm =>
        obtain ⟨rfl, rfl⟩ := Prod.mk.inj (Option.some.inj (hmsg.symm.trans hm))
        split
        · next table hu =>
          have hv : y.after.handshakeOf pid = some (.done (.accepted num data)) := by
            rw [hpasses.1.1, hu]
            rfl
          obtain ⟨proposed, hgp, hnum⟩ := hbound.accepted y hy pid num data hv (by simp [hu])
          exact ⟨by simp [hgp], hg pid proposed hgp ▸ hnum⟩
        · trivial
      · next p reply hm =>
        obtain ⟨rfl, rfl⟩ := Prod.mk.inj (Option.some.inj (hmsg.symm.trans hm))
        split
        · next cookie hu =>
          have hv : y.after.keepaliveOf pid = some (.client (.response reply)) := by
            rw [hpasses.1.2, hu]
            rfl
          have hinclude : x.input ≠ .command (.includePeer pid) := fun he => by
            rw [he] at haddressee
            cases haddressee
          have hbind := hbound.cookie y hy pid cookie _ hu hv (hdisc pid) hinclude
          rw [hm] at hbind
          cases hbind
          rfl
        · trivial
      · trivial
    · unfold Stage.Answers
      rw [hmsg]
      trivial
  · intro hanswers
    refine ⟨fun y hy p num data hv hu => ?_, fun y hy p cookie state hu hv hdisc hinclude => ?_⟩
    · rcases stage_cases h hy with ⟨pid, msg, hmsg, hpasses, -⟩ | ⟨-, hbefore, hafter, hrecv, hsent⟩
      · obtain ⟨rfl, ⟨table, hconfirm⟩, rfl⟩ := hpasses.accepted hv hu
        have hanswer := hanswers y hy
        simp only [Stage.Answers, hmsg, hconfirm] at hanswer
        obtain ⟨hproposed, hnum⟩ := hanswer
        obtain ⟨proposed, hgp⟩ := Option.ne_none_iff_exists'.1 hproposed
        exact ⟨proposed, hgp, (hg p proposed hgp).symm ▸ hnum⟩
      · rw [hafter] at hv
        rw [hbefore] at hu
        rcases h.idle_replies hrecv hsent p with ⟨hsame, -⟩ | ⟨⟨hfresh, -⟩, -⟩
        · exact absurd (hsame ▸ hv) hu
        · rw [hfresh] at hv
          cases hv
    · rcases stage_cases h hy with ⟨pid, msg, hmsg, hpasses, -⟩ | ⟨-, hbefore, hafter, hrecv, hsent⟩
      · obtain ⟨rfl, reply, rfl⟩ := hpasses.returned hu hv
        have hanswer := hanswers y hy
        simp only [Stage.Answers, hmsg, hu] at hanswer
        rw [hmsg, hanswer]
      · rw [hafter] at hv
        rw [hbefore] at hu
        rcases h.idle_replies hrecv hsent p with ⟨-, hsame⟩ | ⟨-, hl | hd | hi⟩
        · rw [hsame, hu] at hv
          cases hv
        · simp [keepaliveOf, hl] at hu
        · exact absurd hd hdisc
        · exact absurd hi hinclude

/-! ### Whole runs -/

theorem Step.proposal_eq {table : Handshake.VersionTable} (h : s.Step input t)
    (hp : proposal t.outbound pid = some table) : table = s.handshake.supportedVersion := by
  obtain ⟨o, ho, hmatch⟩ := List.mem_filterMap.1 (List.mem_of_getLast? hp)
  have hmem : .interfaceCommand (.send pid (.handshake (.propose table))) ∈ t.outbound.about pid := by
    split at hmatch
    · next p table' =>
      split at hmatch
      · next hpid =>
        cases hmatch
        subst hpid
        exact List.mem_filter.2 ⟨ho, by simp [BehaviorOutput.peer]⟩
      · cases hmatch
    · cases hmatch
  obtain ⟨-, hnone, hsome⟩ := h.onePeer pid
  cases hl : s.peers.lookup pid with
  | none =>
    rw [(hnone hl).1] at hmem
    simp at hmem
  | some st =>
    obtain ⟨st', -, hstep⟩ := hsome st hl
    exact hstep.propose_eq hmem

/-- Whatever was proposed is the table of the initiator. -/
def ProposedOwn (g : Proposals) (s : InitiatorBehavior) : Prop :=
  ∀ pid table, g pid = some table → table = s.handshake.supportedVersion

theorem Step.proposals_eq (h : s.Step input t) (hg : ProposedOwn g s) {table : Handshake.VersionTable}
    (hp : proposals g ⟨s, input, t⟩ pid = some table) :
    table = t.handshake.supportedVersion := by
  rw [(h.onePeer pid).1]
  unfold proposals at hp
  split at hp
  · split at hp
    · exact h.proposal_eq hp
    · exact hg pid table hp
  · split at hp
    · cases hp
    · exact hg pid table hp
  · rcases (Option.orElse_eq_some ..).1 hp with hp | ⟨-, hp⟩
    · exact h.proposal_eq hp
    · exact hg pid table hp

def boundReplies : Monitor InitiatorBehavior Input Proposals := ⟨proposals, Bound⟩

def answeredRequests : Monitor InitiatorBehavior Input Proposals := ⟨proposals, Answers⟩

instance (g : Proposals) (x : Transition InitiatorBehavior Input) : Decidable (answeredRequests.accept g x) :=
  inferInstanceAs (Decidable (Answers g x))

theorem Step.boundReplies_iff (h : s.Step input t) (hg : ProposedOwn g s) :
    ProposedOwn (boundReplies.keep g ⟨s, input, t⟩) t ∧
      (boundReplies.accept g ⟨s, input, t⟩ ↔ answeredRequests.accept g ⟨s, input, t⟩) :=
  ⟨fun _ _ hp => h.proposals_eq hg hp, bound_iff_answers (x := ⟨s, input, t⟩) h hg⟩

/-- In a run, replies are bound to their requests all along exactly if the peers answer all along what they were asked:
`Accept` has a version of the table that was proposed on the connection, a keep-alive response the cookie of the request. -/
theorem replies_bound_iff {tr : List (Transition InitiatorBehavior Input)} (h : Run Init Step tr s) :
    boundReplies.Accepts (fun _ => none) tr ↔ answeredRequests.Accepts (fun _ => none) tr := by
  exact Run.accepts_iff (M := boundReplies) (N := answeredRequests) rfl (fun _ _ _ _ hp => nomatch hp)
    (fun _ _ _ _ hg hstep => hstep.boundReplies_iff hg) h

/-- A peer is included, connected to, and sent the proposal. -/
def proposing (pid : PeerId) : List (Iteration × Input) :=
  [(⟨[], []⟩, .command (.includePeer pid)), (⟨[pid], []⟩, .io .idle), (⟨[pid], []⟩, .io (.connected pid)),
    (⟨[pid], []⟩, .io (.sent pid (.handshake (.propose HandshakeBehavior.default.supportedVersion))))]

/-- Version 13 is proposed and accepted, and a keep-alive request is answered with its cookie. -/
theorem replies_bound_accepted : ∃ tr s, Run Init Step tr s ∧
    (∃ data, s.handshakeOf ⟨"a", 1⟩ = some (.done (.accepted 13 data))) ∧
    s.keepaliveOf ⟨"a", 1⟩ = some (.client (.response 65535)) ∧ boundReplies.Accepts (fun _ => none) tr := by
  have hplays : (new .default .default).plays (proposing ⟨"a", 1⟩ ++
      [(⟨[⟨"a", 1⟩], []⟩, .io (.recv ⟨"a", 1⟩ [.handshake (.accept 13 ⟨764824073, false, none, none⟩)])),
        (⟨[⟨"a", 1⟩], []⟩, .io .idle), (⟨[⟨"a", 1⟩], []⟩, .io (.sent ⟨"a", 1⟩ (.keepAlive (.keepAlive 65535)))),
        (⟨[⟨"a", 1⟩], []⟩, .io (.recv ⟨"a", 1⟩ [.keepAlive (.responseKeepAlive 65535)]))])
      (fun tr s => s.handshakeOf ⟨"a", 1⟩ = some (.done (.accepted 13 ⟨764824073, false, none, none⟩)) ∧
        s.keepaliveOf ⟨"a", 1⟩ = some (.client (.response 65535)) ∧ answeredRequests.Accepts (fun _ => none) tr) = true := by
    decide
  obtain ⟨tr, s, hrun, htest⟩ := exists_run_of_plays ⟨_, _, rfl⟩ hplays
  obtain ⟨hh, hk, hanswers⟩ := of_decide_eq_true htest
  exact ⟨tr, s, hrun, ⟨_, hh⟩, hk, (replies_bound_iff hrun).2 hanswers⟩

/-- Version 13 is proposed, and version 99 accepted. -/
theorem replies_not_bound : ¬ ∀ tr s, Run Init Step tr s → boundReplies.Accepts (fun _ => none) tr := by
  intro h
  have hplays : (new .default .default).plays (proposing ⟨"a", 1⟩ ++
      [(⟨[⟨"a", 1⟩], []⟩, .io (.recv ⟨"a", 1⟩ [.handshake (.accept 99 ⟨764824073, false, none, none⟩)]))])
      (fun tr _ => ¬ answeredRequests.Accepts (fun _ => none) tr) = true := by
    decide
  obtain ⟨tr, s, hrun, htest⟩ := exists_run_of_plays ⟨_, _, rfl⟩ hplays
  have hiff : boundReplies.Accepts (fun _ => none) tr ↔ answeredRequests.Accepts (fun _ => none) tr :=
    Run.accepts_iff (M := boundReplies) (N := answeredRequests) (R := ProposedOwn) rfl (fun _ _ _ _ hp => nomatch hp)
      (fun _ _ _ _ hg hstep => hstep.boundReplies_iff hg) hrun
  exact of_decide_eq_true htest (hiff.1 (h tr s hrun))

end InitiatorBehavior
end Pallas.Network2
