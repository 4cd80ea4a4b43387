import Pallas.Network2.Moves

/-!
# One peer of the initiator

A peer is changed by the inputs about it and by visitors. `PeerStep` is a step of the initiator as one peer sees it: the
input is about it, and is followed by the moves of the visitors, or it is not, and there are moves alone. Other peers have
no part in it (`Step.onePeer`), so what is proved of every `PeerStep` holds of every peer in every run.
-/

namespace Pallas.Network2

variable {pid : PeerId} {st st₁ : InitiatorState} {outs : OutboundQueue}

/-! ### A step, as one peer sees it -/

/-- What a tag command does to the state of its peer. -/
def Input.tagger : Input → Option (PeerId × (InitiatorState → InitiatorState))
  | .command (.continueSync pid) => some (pid, fun st => { st with continueSync := true })
  | .command (.banPeer pid) => some (pid, fun st => { st with promotion := .banned })
  | .command (.demotePeer pid) => some (pid, fun st => { st with promotion := .cold })
  | _ => none

theorem Input.tagger_eq_some {input : Input} {f : InitiatorState → InitiatorState} (h : input.tagger = some (pid, f)) :
    input = .command (.continueSync pid) ∧ f = (fun st => { st with continueSync := true }) ∨
      (input = .command (.banPeer pid) ∧ f = fun st => { st with promotion := .banned }) ∨
      (input = .command (.demotePeer pid) ∧ f = fun st => { st with promotion := .cold }) := by
  cases input with
  | io event => cases h
  | command cmd =>
    cases cmd with
    | continueSync x =>
      cases h
      exact .inl ⟨rfl, rfl⟩
    | banPeer x =>
      cases h
      exact .inr (.inl ⟨rfl, rfl⟩)
    | demotePeer x =>
      cases h
      exact .inr (.inr ⟨rfl, rfl⟩)
    | _ => cases h

/-- The peer that an event or a tag command is about. -/
def Input.addressee : Input → Option PeerId
  | .io (.connected pid) => some pid
  | .io (.disconnected pid) => some pid
  | .io (.sent pid _) => some pid
  | .io (.recv pid _) => some pid
  | .io (.error pid _) => some pid
  | input => input.tagger.map (·.1)

/-- The messages of one `Recv`, each followed by the visitors. -/
inductive Receives (pid : PeerId) (st : InitiatorState) : List AnyMessage → OutboundQueue → InitiatorState → Prop
  | nil : Receives pid st [] [] st
  | snoc {msgs : List AnyMessage} {msg : AnyMessage} {outs out : OutboundQueue} {st₁ st₂ : InitiatorState} :
      Receives pid st msgs outs st₁ → Moves pid (st₁.applyMsg msg) out st₂ →
      Receives pid st (msgs ++ [msg]) (outs ++ out) st₂

/-- From `st` to the last state, with what is pushed about the peer. -/
inductive PeerStep (table : Handshake.VersionTable) (pid : PeerId) (st : InitiatorState) :
    Input → OutboundQueue → InitiatorState → Prop
  | connected : st.handshake = .propose →
      PeerStep table pid st (.io (.connected pid)) [.interfaceCommand (.send pid (.handshake (.propose table)))]
        { st with connection := .connected }
  | disconnected : PeerStep table pid st (.io (.disconnected pid)) [] st.reset
  | sent {msg : AnyMessage} {outs : OutboundQueue} {st' : InitiatorState} :
      Moves pid ((st.clearUnsent msg).applyMsg msg) outs st' → PeerStep table pid st (.io (.sent pid msg)) outs st'
  | recv {msgs : List AnyMessage} {outs : OutboundQueue} {st' : InitiatorState} :
      Receives pid st msgs outs st' → PeerStep table pid st (.io (.recv pid msgs)) outs st'
  | error {text : String} {count : UInt32} {outs : OutboundQueue} {st' : InitiatorState} :
      Moves pid { st with connection := .errored, errorCount := count } outs st' →
      PeerStep table pid st (.io (.error pid text)) outs st'
  | tagged {input : Input} {f : InitiatorState → InitiatorState} : input.tagger = some (pid, f) →
      PeerStep table pid st input (ChainSyncBehavior.default.visitTagged pid (f st) []).2
        (ChainSyncBehavior.default.visitTagged pid (f st) []).1
  | included : st.connection = .new → PeerStep table pid st (.command (.includePeer pid)) [] .new
  | other {input : Input} {outs : OutboundQueue} {st' : InitiatorState} : input.addressee ≠ some pid →
      Moves pid st outs st' → PeerStep table pid st input outs st'

theorem ChainSyncBehavior.drainData_about : ∀ o ∈ (drainData pid st []).2, o.peer = pid := by
  unfold drainData
  split
  · simp
  · split <;> simp [BehaviorOutput.peer]

theorem Moves.about (h : Moves pid st outs st₁) : ∀ o ∈ outs, o.peer = pid := by
  induction h with
  | refl => simp
  | snoc _ hmove ih =>
    refine List.forall_mem_append.2 ⟨ih, ?_⟩
    cases hmove with
    | header _ => exact ChainSyncBehavior.drainData_about
    | notification =>
      unfold LeiosNotifyBehavior.dispatch
      split <;> simp [BehaviorOutput.peer]
    | fetched =>
      unfold LeiosFetchBehavior.dispatch
      split <;> simp [BehaviorOutput.peer]
    | _ => simp [BehaviorOutput.peer]

theorem ChainSyncBehavior.visitTagged_eq (b : ChainSyncBehavior) (pid : PeerId) (st : InitiatorState)
    (out : OutboundQueue) : b.visitTagged pid st out =
      ((default.visitTagged pid st []).1, out ++ (default.visitTagged pid st []).2) := by
  unfold visitTagged
  split
  · simp
  · split
    · simp
    · split
      · rcases st.trySendRequest_cases pid (.chainSync .requestNext) out with h | ⟨unsent, hc, hi, h⟩
        · have hnot : ¬ (st.canApply (.chainSync .requestNext) = true ∧
              ∃ unsent, st.unsent.insert (.chainSync .requestNext) = some unsent) := by
            rintro ⟨hc, unsent, hi⟩
            simp [InitiatorState.trySendRequest, hc, hi] at h
          have h' : st.trySendRequest pid (.chainSync .requestNext) [] = (false, st, []) := by
            rcases st.trySendRequest_cases pid (.chainSync .requestNext) [] with h' | ⟨unsent, hc, hi, -⟩
            · exact h'
            · exact absurd ⟨hc, unsent, hi⟩ hnot
          simp [h, h']
        · have h' : st.trySendRequest pid (.chainSync .requestNext) [] =
              (true, { st with unsent }, [.interfaceCommand (.send pid (.chainSync .requestNext))]) := by
            simp [InitiatorState.trySendRequest, hc, hi]
          simp [h, h']
      · simp

theorem ChainSyncBehavior.visitTagged_about (b : ChainSyncBehavior) :
    ∀ o ∈ (b.visitTagged pid st []).2, o.peer = pid := by
  unfold visitTagged
  split
  · simp
  · split
    · simp
    · split
      · rcases st.trySendRequest_cases pid (.chainSync .requestNext) [] with h | ⟨unsent, -, -, h⟩
        · simp [h]
        · simp [h, BehaviorOutput.peer]
      · simp

namespace InitiatorBehavior
variable {s t u : InitiatorBehavior} {R R' : PeerId → InitiatorState → OutboundQueue → InitiatorState → Prop}

/-- Every tracked peer goes from its state to a new one by `R`, with the outputs about it; no other is touched. -/
structure Evolves (R : PeerId → InitiatorState → OutboundQueue → InitiatorState → Prop) (s t : InitiatorBehavior) :
    Prop where
  handshake : t.handshake = s.handshake
  untracked : ∀ pid, s.peers.lookup pid = none → t.peers.lookup pid = none
  pushed : ∃ outs, t.outbound = s.outbound ++ outs ∧ (∀ pid, s.peers.lookup pid = none → outs.about pid = []) ∧
    ∀ pid st, s.peers.lookup pid = some st → ∃ st', t.peers.lookup pid = some st' ∧ R pid st (outs.about pid) st'

theorem Evolves.refl (hR : ∀ pid st, s.peers.lookup pid = some st → R pid st [] st) : Evolves R s s :=
  ⟨rfl, fun _ => id, [], by simp, fun _ _ => rfl, fun pid st hl => ⟨st, hl, hR pid st hl⟩⟩

theorem Evolves.trans {R'' : PeerId → InitiatorState → OutboundQueue → InitiatorState → Prop} (h : Evolves R s t)
    (h' : Evolves R' t u)
    (hR : ∀ pid st outs st₁ outs' st₂, R pid st outs st₁ → R' pid st₁ outs' st₂ → R'' pid st (outs ++ outs') st₂) :
    Evolves R'' s u := by
  obtain ⟨outs, ho, hnone, hsome⟩ := h.pushed
  obtain ⟨outs', ho', hnone', hsome'⟩ := h'.pushed
  refine ⟨h'.handshake.trans h.handshake, fun pid hl => h'.untracked pid (h.untracked pid hl),
    outs ++ outs', ?_, ?_, ?_⟩
  · rw [ho', ho, List.append_assoc]
  · intro pid hl
    rw [OutboundQueue.about_append, hnone pid hl, hnone' pid (h.untracked pid hl), List.nil_append]
  · intro pid st hl
    obtain ⟨st₁, hl₁, hR₁⟩ := hsome pid st hl
    obtain ⟨st₂, hl₂, hR₂⟩ := hsome' pid st₁ hl₁
    rw [OutboundQueue.about_append]
    exact ⟨st₂, hl₂, hR _ _ _ _ _ _ hR₁ hR₂⟩

theorem about_of_forall (h : ∀ o ∈ outs, o.peer = pid) :
    outs.about pid = outs ∧ ∀ x, x ≠ pid → outs.about x = [] := by
  constructor
  · exact List.filter_eq_self.2 fun o ho => by simp [h o ho]
  · intro x hx
    refine List.filter_eq_nil_iff.2 fun o ho => ?_
    simpa [h o ho] using hx.symm

theorem modifyPeer_evolves {f : SubBehaviors → InitiatorState → Call (SubBehaviors × InitiatorState)}
    (hf : ∀ st r, s.peers.lookup pid = some st → f s.toSubBehaviors st = .ok r → r.1.handshake = s.handshake ∧
      ∃ outs, r.1.outbound = s.outbound ++ outs ∧ (∀ o ∈ outs, o.peer = pid) ∧ R pid st outs r.2)
    (hR : ∀ x st, x ≠ pid → R x st [] st) (h : s.modifyPeer pid f = .ok t) : Evolves R s t := by
  rcases modifyPeer_eq_ok.1 h with ⟨hl, rfl⟩ | ⟨st, r, hl, hr, rfl⟩
  · refine .refl fun x st hx => hR x st ?_
    rintro rfl
    rw [hl] at hx
    cases hx
  · obtain ⟨hhandshake, outs, hout, habout, hstep⟩ := hf st r hl hr
    obtain ⟨hself, hother⟩ := about_of_forall habout
    refine ⟨hhandshake, fun x hx => ?_, outs, hout, fun x hx => ?_, fun x st' hx => ?_⟩
    · have hne : x ≠ pid := by
        rintro rfl
        rw [hl] at hx
        cases hx
      exact (Finmap.lookup_insert_of_ne _ hne).trans hx
    · refine hother x ?_
      rintro rfl
      rw [hl] at hx
      cases hx
    · by_cases hne : x = pid
      · subst hne
        obtain rfl : st = st' := Option.some.inj (hl.symm.trans hx)
        exact ⟨r.2, Finmap.lookup_insert _, hself.symm ▸ hstep⟩
      · exact ⟨st', (Finmap.lookup_insert_of_ne _ hne).trans hx, (hother x hne).symm ▸ hR x st' hne⟩

/-- A visit of the visitors only. -/
theorem modifyPeer_moves {f : SubBehaviors → InitiatorState → Call (SubBehaviors × InitiatorState)}
    (hf : ∀ subs st r, f subs st = .ok r →
      r.1.handshake = subs.handshake ∧ ∃ outs, r.1.outbound = subs.outbound ++ outs ∧ Moves pid st outs r.2)
    (h : s.modifyPeer pid f = .ok t) : Evolves Moves s t := by
  refine modifyPeer_evolves (fun st r _ hr => ?_) (fun x st _ => .refl st) h
  obtain ⟨hhandshake, outs, hout, hmoves⟩ := hf _ _ _ hr
  exact ⟨hhandshake, outs, hout, hmoves.about, hmoves⟩

theorem moves_trans (h : Evolves Moves s t) (h' : Evolves Moves t u) : Evolves Moves s u :=
  h.trans h' fun _ _ _ _ _ _ hm hm' => hm.trans hm'

theorem moves_refl (s : InitiatorBehavior) : Evolves Moves s s := .refl fun _ st _ => .refl st

/-- Moves of a peer that is initialized; one that is not stays as it is. -/
def ServedMoves (pid : PeerId) (st : InitiatorState) (outs : OutboundQueue) (st' : InitiatorState) : Prop :=
  Moves pid st outs st' ∧ (st.connection ≠ .initialized → outs = [] ∧ st' = st)

theorem serveNext_served (b : BlockFetchBehavior) (pid : PeerId) (st : InitiatorState) (out : OutboundQueue) :
    ∃ outs, (b.serveNext pid st out).2.2 = out ++ outs ∧ ServedMoves pid st outs (b.serveNext pid st out).2.1 := by
  obtain ⟨outs, hout, hmoves⟩ := b.serveNext_visit pid st out
  refine ⟨outs, hout, hmoves.moves, fun hn => ?_⟩
  have heq : b.serveNext pid st out = (b, st, out) := by
    simp [BlockFetchBehavior.serveNext, BlockFetchBehavior.peerIsAvailable, hn]
  rw [heq] at hout ⊢
  exact ⟨by simpa using hout, rfl⟩

theorem serveBlockFetch_served {iter : List PeerId} (h : s.serveBlockFetch iter = .ok t) : Evolves ServedMoves s t := by
  have hrefl : ∀ pid st, ServedMoves pid st [] st := fun pid st => ⟨.refl st, fun _ => ⟨rfl, rfl⟩⟩
  refine Outcome.fold_inv (fun _ b => Evolves ServedMoves s b) (fun _ pid b b' hb hstep => ?_)
    (.refl fun pid st _ => hrefl pid st) h
  split at hstep
  · cases hstep
    exact hb
  · have hvisit : Evolves ServedMoves b b' := by
      refine modifyPeer_evolves (fun st r _ hr => ?_) (fun x st _ => hrefl x st) hstep
      obtain rfl := Outcome.ok.inj hr
      obtain ⟨outs, hout, hserved⟩ := serveNext_served b.blockfetch pid st b.outbound
      exact ⟨rfl, outs, hout, hserved.1.about, hserved⟩
    refine hb.trans hvisit fun pid st outs st₁ outs' st₂ hm hm' => ⟨hm.1.trans hm'.1, fun hn => ?_⟩
    obtain ⟨rfl, rfl⟩ := hm.2 hn
    obtain ⟨rfl, rfl⟩ := hm'.2 hn
    exact ⟨rfl, rfl⟩

theorem Evolves.mono (h : Evolves R s t)
    (hR : ∀ pid st outs st', s.peers.lookup pid = some st → R pid st outs st' → R' pid st outs st') :
    Evolves R' s t := by
  obtain ⟨outs, hout, hnone, hsome⟩ := h.pushed
  refine ⟨h.handshake, h.untracked, outs, hout, hnone, fun pid st hl => ?_⟩
  obtain ⟨st', hl', hR₁⟩ := hsome pid st hl
  exact ⟨st', hl', hR pid st _ st' hl hR₁⟩

theorem housekeeping_visits {iter : List PeerId}
    (h : Outcome.fold (fun (self : InitiatorBehavior) pid =>
      self.modifyPeer pid fun subs state => subs.visitHousekeeping pid state) s iter = .ok t) : Evolves Moves s t := by
  refine Outcome.fold_inv (fun _ b => Evolves Moves s b) (fun _ pid b b' hb hstep => ?_) (moves_refl s) h
  exact moves_trans hb (modifyPeer_moves (fun _ _ _ hr => (SubBehaviors.visitHousekeeping_tends hr).moves) hstep)

/-- The peers that are discovered are new; nothing else happens. -/
structure Discovers (s t : InitiatorBehavior) : Prop where
  handshake : t.handshake = s.handshake
  outbound : t.outbound = s.outbound
  tracked : ∀ pid st, s.peers.lookup pid = some st → t.peers.lookup pid = some st
  untracked : ∀ pid, s.peers.lookup pid = none → t.peers.lookup pid = none ∨ t.peers.lookup pid = some .new

theorem Discovers.refl (s : InitiatorBehavior) : Discovers s s := ⟨rfl, rfl, fun _ _ => id, fun _ => .inl⟩

theorem Discovers.trans (h : Discovers s t) (h' : Discovers t u) : Discovers s u := by
  refine ⟨h'.handshake.trans h.handshake, h'.outbound.trans h.outbound,
    fun pid st hl => h'.tracked pid st (h.tracked pid st hl), fun pid hl => ?_⟩
  rcases h.untracked pid hl with hl | hl
  · exact h'.untracked pid hl
  · exact .inr (h'.tracked pid _ hl)

theorem onDiscovered_eq (h : s.onDiscovered pid = .ok t) :
    t.handshake = s.handshake ∧ t.outbound = s.outbound ∧ t.peers = s.peers.insert pid .new := by
  obtain ⟨⟨subs, st⟩, hsubs, h⟩ := Outcome.bind_eq_ok.1 h
  obtain ⟨p, hp, hsubs⟩ := Outcome.bind_eq_ok.1 hsubs
  obtain ⟨rfl, rfl⟩ := Prod.mk.inj (Outcome.ok.inj hsubs)
  obtain rfl := Outcome.ok.inj h
  refine ⟨rfl, rfl, ?_⟩
  have hnew : p.2 = .new := by
    have hdiscovered : s.promotion.onPeerDiscovered pid .new = .ok p := hp
    unfold PromotionBehavior.onPeerDiscovered at hdiscovered
    split at hdiscovered
    · cases hdiscovered
      rfl
    · obtain ⟨cold, -, hdiscovered⟩ := Outcome.bind_eq_ok.1 hdiscovered
      split at hdiscovered
      · cases hdiscovered
        rfl
      · cases hdiscovered
        rfl
  rw [hnew]

theorem onDiscovered_discovers (h : s.onDiscovered pid = .ok t) (hl : s.peers.lookup pid = none) : Discovers s t := by
  obtain ⟨hhandshake, hout, hpeers⟩ := onDiscovered_eq h
  refine ⟨hhandshake, hout, fun x st hx => ?_, fun x hx => ?_⟩
  · have hne : x ≠ pid := by
      rintro rfl
      rw [hl] at hx
      cases hx
    rw [hpeers, Finmap.lookup_insert_of_ne _ hne, hx]
  · rw [hpeers]
    by_cases hne : x = pid
    · subst hne
      exact .inr (Finmap.lookup_insert _)
    · rw [Finmap.lookup_insert_of_ne _ hne]
      exact .inl hx

theorem moveDiscoveredIntoPromotion_discovers {iter : List PeerId} (h : s.moveDiscoveredIntoPromotion iter = .ok t) :
    Discovers s t := by
  obtain ⟨deficit, -, h⟩ := Outcome.bind_eq_ok.1 h
  split at h
  · cases h
    exact .refl s
  · have hstart : Discovers s { s with discovery := (s.discovery.drainNewPeers iter deficit).2 } :=
      ⟨rfl, rfl, fun _ _ => id, fun _ => .inl⟩
    refine Outcome.fold_inv (fun _ b => Discovers s b) (fun _ pid b b' hb hstep => ?_) hstart h
    split at hstep
    · cases hstep
      exact hb
    · next hnew => exact hb.trans (onDiscovered_discovers hstep (Finmap.lookup_eq_none.2 hnew))

/-- One input as every peer sees it: a tracked one makes a `PeerStep`, one that is not may become new, if the input is
about none. -/
structure Affects (s : InitiatorBehavior) (input : Input) (t : InitiatorBehavior) : Prop where
  handshake : t.handshake = s.handshake
  pushed : ∃ outs, t.outbound = s.outbound ++ outs ∧ ∀ pid,
    (s.peers.lookup pid = none →
      outs.about pid = [] ∧
        (t.peers.lookup pid = none ∨ input.addressee = none ∧ t.peers.lookup pid = some .new)) ∧
    ∀ st, s.peers.lookup pid = some st → ∃ st', t.peers.lookup pid = some st' ∧
      PeerStep s.handshake.supportedVersion pid st input (outs.about pid) st'

theorem Evolves.affects {input : Input}
    (h : Evolves (fun pid st outs st' => PeerStep s.handshake.supportedVersion pid st input outs st') s t) :
    s.Affects input t := by
  obtain ⟨outs, hout, hnone, hsome⟩ := h.pushed
  exact ⟨h.handshake, outs, hout, fun pid => ⟨fun hl => ⟨hnone pid hl, .inl (h.untracked pid hl)⟩, hsome pid⟩⟩

theorem Evolves.affects_of_moves {input : Input} (h : Evolves Moves s t) (ha : input.addressee = none) :
    s.Affects input t :=
  Evolves.affects (h.mono fun _ _ _ _ _ hm => .other (by simp [ha]) hm)

theorem modifyPeer_affects {f : SubBehaviors → InitiatorState → Call (SubBehaviors × InitiatorState)} {input : Input}
    (ha : input.addressee = some pid)
    (hf : ∀ st r, s.peers.lookup pid = some st → f s.toSubBehaviors st = .ok r → r.1.handshake = s.handshake ∧
      ∃ outs, r.1.outbound = s.outbound ++ outs ∧ (∀ o ∈ outs, o.peer = pid) ∧
        PeerStep s.handshake.supportedVersion pid st input outs r.2)
    (h : s.modifyPeer pid f = .ok t) : s.Affects input t := by
  refine Evolves.affects (modifyPeer_evolves hf (fun x st hx => .other ?_ (.refl st)) h)
  rw [ha]
  exact fun he => hx (Option.some.inj he).symm

theorem onTagged_affects {input : Input} {f : InitiatorState → InitiatorState} (hf : input.tagger = some (pid, f))
    (ha : input.addressee = some pid) (h : s.onTagged pid f = .ok t) : s.Affects input t := by
  refine modifyPeer_affects ha (fun st r _ hr => ?_) h
  obtain rfl := Outcome.ok.inj hr
  have heq := s.chainsync.visitTagged_eq pid (f st) s.outbound
  refine ⟨rfl, (ChainSyncBehavior.default.visitTagged pid (f st) []).2, ?_, ?_, ?_⟩
  · simp only [SubBehaviors.visitTagged, heq]
  · exact ChainSyncBehavior.visitTagged_about _
  · have hstep : PeerStep s.handshake.supportedVersion pid st input
        (ChainSyncBehavior.default.visitTagged pid (f st) []).2
        (ChainSyncBehavior.default.visitTagged pid (f st) []).1 := .tagged hf
    simpa only [SubBehaviors.visitTagged, heq] using hstep

theorem onConnected_affects (h : s.onConnected pid = .ok t) : s.Affects (.io (.connected pid)) t := by
  refine modifyPeer_affects rfl (fun st r _ hr => ?_) h
  obtain ⟨out, hout, hr⟩ := Outcome.bind_eq_ok.1 hr
  obtain rfl := Outcome.ok.inj hr
  simp only [HandshakeBehavior.visitConnected, HandshakeBehavior.proposeHandshake] at hout
  split at hout
  · next hpropose =>
    obtain rfl := Outcome.ok.inj hout
    exact ⟨rfl, _, rfl, by simp [BehaviorOutput.peer], .connected hpropose⟩
  · cases hout

theorem onOutboundMsg_affects {msg : AnyMessage} (h : s.onOutboundMsg pid msg = .ok t) :
    s.Affects (.io (.sent pid msg)) t := by
  refine modifyPeer_affects rfl (fun st r _ hr => ?_) h
  obtain rfl := Outcome.ok.inj hr
  obtain ⟨outs, hout, hmoves⟩ :=
    BlockFetchBehavior.visitOutboundMsg_visit pid ((st.clearUnsent msg).applyMsg msg) s.outbound
  exact ⟨rfl, outs, hout, hmoves.moves.about, .sent hmoves.moves⟩

theorem onErrored_affects {text : String} (h : s.onErrored pid = .ok t) : s.Affects (.io (.error pid text)) t := by
  refine modifyPeer_affects rfl (fun st r _ hr => ?_) h
  obtain ⟨st', hst, hr⟩ := Outcome.bind_eq_ok.1 hr
  obtain rfl := Outcome.ok.inj hr
  obtain rfl := countError_eq_ok hst
  obtain ⟨outs, hout, hmoves⟩ := ConnectionBehavior.disconnect_visit pid
    { st with connection := .errored, errorCount := st.errorCount + 1 } s.outbound
  exact ⟨rfl, outs, hout, hmoves.moves.about, .error hmoves.moves⟩

/-- The peer `pid` goes by `R`, any other stays as it is. -/
def OnlyAt (pid : PeerId) (R : InitiatorState → OutboundQueue → InitiatorState → Prop) (x : PeerId)
    (st : InitiatorState) (outs : OutboundQueue) (st' : InitiatorState) : Prop :=
  x = pid ∧ R st outs st' ∨ x ≠ pid ∧ outs = [] ∧ st' = st

theorem onInboundMsg_onlyAt {msg : AnyMessage} (h : s.onInboundMsg pid msg = .ok t) :
    Evolves (OnlyAt pid fun st outs st' => Moves pid (st.applyMsg msg) outs st') s t := by
  refine modifyPeer_evolves (fun st r _ hr => ?_) (fun x st hx => .inr ⟨hx, rfl, rfl⟩) h
  obtain ⟨hhandshake, outs, hout, hmoves⟩ := (SubBehaviors.visitInboundMsg_tends hr).moves
  exact ⟨hhandshake, outs, hout, hmoves.about, .inl ⟨rfl, hmoves⟩⟩

/-- The messages of a `Recv` one by one. -/
theorem onInboundMsgs_onlyAt {msgs : List AnyMessage} (h : s.onInboundMsgs pid msgs = .ok t) :
    Evolves (OnlyAt pid fun st outs st' => Receives pid st msgs outs st') s t := by
  refine Outcome.fold_inv (fun pre b => Evolves (OnlyAt pid fun st outs st' => Receives pid st pre outs st') s b)
    (fun pre msg b b' hb hstep => ?_) (.refl fun x st _ => ?_) h
  · refine hb.trans (onInboundMsg_onlyAt hstep) fun x st outs st₁ outs' st₂ hm hm' => ?_
    rcases hm with ⟨hx, hm⟩ | ⟨hx, rfl, rfl⟩
    · rcases hm' with ⟨-, hm'⟩ | ⟨hx', -⟩
      · exact .inl ⟨hx, hm.snoc hm'⟩
      · exact absurd hx hx'
    · rcases hm' with ⟨hx', -⟩ | ⟨-, hm'⟩
      · exact absurd hx' hx
      · exact .inr ⟨hx, hm'⟩
  · by_cases hx : x = pid
    · exact .inl ⟨hx, .nil⟩
    · exact .inr ⟨hx, rfl, rfl⟩

theorem onInboundMsgs_affects {msgs : List AnyMessage} (h : s.onInboundMsgs pid msgs = .ok t) :
    s.Affects (.io (.recv pid msgs)) t := by
  refine Evolves.affects ((onInboundMsgs_onlyAt h).mono fun x st outs st' _ hm => ?_)
  rcases hm with ⟨rfl, hm⟩ | ⟨hx, rfl, rfl⟩
  · exact .recv hm
  · exact .other (fun he => hx (Option.some.inj he).symm) (.refl st')

/-- The peer is reset first, so the ranges it held are served to others. -/
theorem onDisconnected_affects {iter : List PeerId} (h : s.onDisconnected iter pid = .ok t) :
    s.Affects (.io (.disconnected pid)) t := by
  obtain ⟨u, hu, h⟩ := Outcome.bind_eq_ok.1 h
  have hreset : Evolves (OnlyAt pid fun st outs st' => outs = [] ∧ st' = st.reset) s u := by
    refine modifyPeer_evolves (fun st r _ hr => ?_) (fun x st hx => .inr ⟨hx, rfl, rfl⟩) hu
    obtain rfl := Outcome.ok.inj hr
    exact ⟨rfl, [], (List.append_nil _).symm, by simp, .inl ⟨rfl, rfl, rfl⟩⟩
  refine Evolves.affects (hreset.trans (serveBlockFetch_served h) fun x st outs st₁ outs' st₂ hm hm' => ?_)
  rcases hm with ⟨rfl, rfl, rfl⟩ | ⟨hx, rfl, rfl⟩
  · obtain ⟨rfl, rfl⟩ := hm'.2 (by simp [InitiatorState.reset, InitiatorState.new])
    exact .disconnected
  · exact .other (fun he => hx (Option.some.inj he).symm) hm'.1

theorem housekeeping_affects {iter : Iteration} {input : Input} (ha : input.addressee = none)
    (h : s.housekeeping iter = .ok t) : s.Affects input t := by
  obtain ⟨u, hu, h⟩ := Outcome.bind_eq_ok.1 h
  have hvisits := housekeeping_visits hu
  have hdiscovers := moveDiscoveredIntoPromotion_discovers h
  obtain ⟨outs, hout, hnone, hsome⟩ := hvisits.pushed
  refine ⟨hdiscovers.handshake.trans hvisits.handshake, outs, hdiscovers.outbound.trans hout,
    fun pid => ⟨fun hl => ?_, ?_⟩⟩
  · exact ⟨hnone pid hl, (hdiscovers.untracked pid (hvisits.untracked pid hl)).imp_right fun hnew => ⟨ha, hnew⟩⟩
  · intro st hl
    obtain ⟨st', hl', hmoves⟩ := hsome pid st hl
    exact ⟨st', hdiscovers.tracked pid st' hl', .other (by simp [ha]) hmoves⟩

theorem includePeer_affects (h : s.onDiscovered pid = .ok t) (hnew : s.isNewPeer pid = true) :
    s.Affects (.command (.includePeer pid)) t := by
  obtain ⟨hhandshake, hout, hpeers⟩ := onDiscovered_eq h
  refine ⟨hhandshake, [], by simpa using hout, fun x => ⟨fun hl => ⟨rfl, ?_⟩, fun st hl => ?_⟩⟩
  · rw [hpeers]
    by_cases hx : x = pid
    · subst hx
      exact .inr ⟨rfl, Finmap.lookup_insert _⟩
    · rw [Finmap.lookup_insert_of_ne _ hx]
      exact .inl hl
  · rw [hpeers]
    by_cases hx : x = pid
    · subst hx
      have hconn : st.connection = .new := by simpa [isNewPeer, hl] using hnew
      exact ⟨.new, Finmap.lookup_insert _, .included hconn⟩
    · exact ⟨st, (Finmap.lookup_insert_of_ne _ hx).trans hl,
        .other (by simp [Input.addressee, Input.tagger]) (.refl st)⟩

theorem serveLeiosFetch_moves (h : s.serveLeiosFetch pid = .ok t) : Evolves Moves s t := by
  refine modifyPeer_moves (fun subs st r hr => ?_) h
  obtain rfl := Outcome.ok.inj hr
  obtain ⟨outs, hout, hmoves⟩ := subs.leiosfetch.serveNext_visit pid st subs.outbound
  exact ⟨rfl, outs, hout, hmoves.moves⟩

theorem handle_affects {iter : Iteration} {input : Input} (h : s.handle iter input = .ok t) : s.Affects input t := by
  cases input with
  | io event =>
    cases event with
    | connected pid => exact onConnected_affects h
    | disconnected pid => exact onDisconnected_affects h
    | sent pid msg => exact onOutboundMsg_affects h
    | recv pid msgs => exact onInboundMsgs_affects h
    | error pid text => exact onErrored_affects h
    | idle => exact housekeeping_affects rfl h
  | command cmd =>
    cases cmd with
    | includePeer pid =>
      simp only [handle, execute] at h
      split at h
      · next hnew => exact includePeer_affects h hnew
      · obtain rfl := Outcome.ok.inj h
        exact (moves_refl s).affects_of_moves rfl
    | housekeeping => exact housekeeping_affects rfl h
    | startSync points =>
      obtain rfl := Outcome.ok.inj h
      exact Evolves.affects_of_moves (t := { s with chainsync := .start points })
        ⟨rfl, fun _ => id, (moves_refl s).pushed⟩ rfl
    | continueSync pid => exact onTagged_affects rfl rfl h
    | requestBlocks range =>
      have hserved := serveBlockFetch_served (s := { s with blockfetch := s.blockfetch.enqueue range }) h
      have hmoves : Evolves Moves s t := by
        obtain ⟨hhandshake, huntracked, hpushed⟩ := hserved.mono fun _ _ _ _ _ hm => hm.1
        exact ⟨hhandshake, huntracked, hpushed⟩
      exact hmoves.affects_of_moves rfl
    | sendTx pid id body =>
      obtain rfl := Outcome.ok.inj h
      exact (moves_refl s).affects_of_moves rfl
    | fetchEb pid eb =>
      obtain ⟨hhandshake, huntracked, hpushed⟩ :=
        serveLeiosFetch_moves (s := { s with leiosfetch := s.leiosfetch.enqueue pid (.block eb) }) h
      exact Evolves.affects_of_moves ⟨hhandshake, huntracked, hpushed⟩ rfl
    | fetchEbTxs pid eb bitmaps =>
      obtain ⟨hhandshake, huntracked, hpushed⟩ :=
        serveLeiosFetch_moves (s := { s with leiosfetch := s.leiosfetch.enqueue pid (.blockTxs eb bitmaps) }) h
      exact Evolves.affects_of_moves ⟨hhandshake, huntracked, hpushed⟩ rfl
    | banPeer pid => exact onTagged_affects rfl rfl h
    | demotePeer pid => exact onTagged_affects rfl rfl h

/-- What a peer sees of a step: a tracked one makes a `PeerStep`, and all that is pushed about it comes from that. -/
theorem Step.onePeer {input : Input} (h : s.Step input t) (pid : PeerId) :
    t.handshake = s.handshake ∧
      (s.peers.lookup pid = none →
        t.outbound.about pid = [] ∧
          (t.peers.lookup pid = none ∨ input.addressee = none ∧ t.peers.lookup pid = some .new)) ∧
      ∀ st, s.peers.lookup pid = some st → ∃ st', t.peers.lookup pid = some st' ∧
        PeerStep s.handshake.supportedVersion pid st input (t.outbound.about pid) st' := by
  obtain ⟨iter, -, h⟩ := h
  obtain ⟨hhandshake, outs, hout, hpeers⟩ := handle_affects h
  obtain rfl : t.outbound = outs := hout
  exact ⟨hhandshake, hpeers pid⟩

end InitiatorBehavior
end Pallas.Network2
