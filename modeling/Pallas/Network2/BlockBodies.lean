import Pallas.Network2.Frames

/-!
# Block bodies, received and emitted

`BlockBodyReceived` is read off the state of the block-fetch protocol after every message of the peer, on whatever
channel: a message emits the body the state has afterwards, if it has one (`onInboundMsg_bodies`). A `Block` the protocol
accepts is emitted by that, and emitted again by each further message that leaves it in the state; one the protocol
refuses is not. `Heeds` says of a message that none of this happens, and along a run all of whose messages do, events and
`Block` messages are the same (`emitted_eq_received`).
-/

namespace Pallas.Network2

/-- The bodies emitted, each with its peer. -/
def emittedBodies (out : OutboundQueue) : List (PeerId × Blockfetch.Body) :=
  out.filterMap fun
    | .externalEvent (.blockBodyReceived pid body) => some (pid, body)
    | _ => none

/-- The bodies that a list of messages carries. -/
def blockBodies (msgs : List AnyMessage) : List Blockfetch.Body :=
  msgs.filterMap fun
    | .blockFetch (.block body) => some body
    | _ => none

/-- The bodies received, each with its peer. -/
def receivedBodies : Input → List (PeerId × Blockfetch.Body)
  | .io (.recv pid msgs) => (blockBodies msgs).map (pid, ·)
  | _ => []

namespace Blockfetch

/-- The body that the state has. -/
def State.body : State → List Body
  | .streaming (some body) => [body]
  | _ => []

/-- What a list of messages has the protocol emit: after each of them, the body that the state has by then. -/
def State.emits : State → List AnyMessage → List Body
  | _, [] => []
  | self, msg :: msgs => (self.next msg).body ++ emits (self.next msg) msgs

/-- A block comes while a batch is streamed; any other message leaves no block in the state. -/
def State.Heeds (self : State) : AnyMessage → Prop
  | .blockFetch (.block _) => ∃ last, self = .streaming last
  | msg => ∀ body, self.next msg ≠ .streaming (some body)

/-- Each message finds the protocol in a state where it is heeded. -/
def State.HeedsAll : State → List AnyMessage → Prop
  | _, [] => True
  | self, msg :: msgs => self.Heeds msg ∧ HeedsAll (self.next msg) msgs

theorem State.body_next_iff (self : State) (msg : AnyMessage) :
    (self.next msg).body = blockBodies [msg] ↔ self.Heeds msg := by
  cases msg with
  | blockFetch m =>
    cases m with
    | block body => cases self <;> simp [next, apply, State.body, blockBodies, Heeds]
    | _ => cases self <;> simp [next, apply, State.body, blockBodies, Heeds] <;> split <;> simp_all
  | _ =>
    cases self <;> simp [next, State.body, blockBodies, Heeds]
    split <;> simp_all

instance (self : State) (msg : AnyMessage) : Decidable (self.Heeds msg) :=
  decidable_of_iff _ (self.body_next_iff msg)

instance State.decidableHeedsAll : ∀ (self : State) (msgs : List AnyMessage), Decidable (self.HeedsAll msgs)
  | _, [] => inferInstanceAs (Decidable True)
  | self, msg :: msgs => @instDecidableAnd _ _ _ (decidableHeedsAll (self.next msg) msgs)

theorem State.emits_of_heedsAll {self : State} {msgs : List AnyMessage} (h : self.HeedsAll msgs) :
    self.emits msgs = blockBodies msgs := by
  induction msgs generalizing self with
  | nil => rfl
  | cons msg msgs ih =>
    obtain ⟨hmsg, h⟩ := h
    rw [emits, ih h, (self.body_next_iff msg).2 hmsg, blockBodies, blockBodies, ← List.filterMap_append]
    rfl

end Blockfetch

variable {pid : PeerId} {st : InitiatorState} {out : OutboundQueue}

/-! ### Visitors -/

theorem emittedBodies_append (out out' : OutboundQueue) :
    emittedBodies (out ++ out') = emittedBodies out ++ emittedBodies out' := List.filterMap_append

theorem emittedBodies_of_offFetch (h : ∀ o ∈ out, o.OffFetch) : emittedBodies out = [] := by
  rw [emittedBodies, List.filterMap_eq_nil_iff]
  intro o ho
  have hoff := h o ho
  cases o with
  | interfaceCommand cmd => rfl
  | externalEvent event =>
    cases event with
    | blockBodyReceived pid body => exact hoff.elim
    | _ => rfl

theorem FetchFrame.emittedBodies {st' : InitiatorState} {out' : OutboundQueue} (h : FetchFrame st out st' out') :
    emittedBodies out' = emittedBodies out := by
  obtain ⟨outs, rfl, houts⟩ := h.pushed
  rw [emittedBodies_append, emittedBodies_of_offFetch houts, List.append_nil]

namespace BlockFetchBehavior

theorem serveNext_bodies (b : BlockFetchBehavior) (pid : PeerId) (st : InitiatorState) (out : OutboundQueue) :
    emittedBodies (b.serveNext pid st out).2.2 = emittedBodies out ∧
      (b.serveNext pid st out).2.1.blockfetch = st.blockfetch := by
  rcases b.serveNext_cases pid st out with h | ⟨range, rest, unsent, -, -, -, -, -, h⟩
  · rw [h]
    exact ⟨rfl, rfl⟩
  · rw [h, emittedBodies_append]
    exact ⟨List.append_nil _, rfl⟩

theorem settleInFlight_blockfetch : (settleInFlight st).blockfetch = st.blockfetch := by
  unfold settleInFlight
  split <;> rfl

theorem dispatchBlock_bodies :
    emittedBodies (dispatchBlock pid st out) = emittedBodies out ++ st.blockfetch.body.map (pid, ·) := by
  unfold dispatchBlock
  split
  · next body hb =>
    rw [hb, emittedBodies_append]
    rfl
  · next hb =>
    have hnone : st.blockfetch.body = [] := by
      unfold Blockfetch.State.body
      split
      · next body hb' => exact absurd hb' (hb body)
      · rfl
    rw [hnone, List.map_nil, List.append_nil]

theorem visitInboundMsg_bodies (b : BlockFetchBehavior) :
    emittedBodies (b.visitInboundMsg pid st out).2.2 = emittedBodies out ++ st.blockfetch.body.map (pid, ·) ∧
      (b.visitInboundMsg pid st out).2.1.blockfetch = st.blockfetch := by
  obtain ⟨hbodies, hstate⟩ := b.serveNext_bodies pid (settleInFlight st) (dispatchBlock pid st out)
  exact ⟨hbodies.trans dispatchBlock_bodies, hstate.trans settleInFlight_blockfetch⟩

end BlockFetchBehavior

/-! ### Inputs -/

namespace InitiatorBehavior
variable {s t : InitiatorBehavior}

/-- The block-fetch state of a peer that is tracked. -/
def fetchState (s : InitiatorBehavior) (pid : PeerId) : Option Blockfetch.State :=
  (s.peers.lookup pid).map (·.blockfetch)

theorem onInboundMsg_bodies {msg : AnyMessage} (h : s.onInboundMsg pid msg = .ok t) :
    t.fetchState pid = (s.fetchState pid).map (·.next msg) ∧
      emittedBodies t.outbound = emittedBodies s.outbound ++
        ((s.fetchState pid).elim [] fun bf => (bf.next msg).body).map (pid, ·) := by
  rcases modifyPeer_eq_ok.1 h with ⟨hl, rfl⟩ | ⟨st, r, hl, hr, rfl⟩
  · simp [fetchState, hl]
  · obtain ⟨p, st₂, out₂, hp, -, hbefore, -, hafter⟩ := SubBehaviors.visitInboundMsg_inv hr
    have hstate : st₂.blockfetch = st.blockfetch.next msg := by
      rw [hbefore.blockfetch, (PromotionBehavior.categorizePeer_frame hp []).blockfetch, st.applyMsg_blockfetch]
    obtain ⟨hbodies, hvisit⟩ := @BlockFetchBehavior.visitInboundMsg_bodies pid st₂ out₂ s.blockfetch
    refine ⟨?_, ?_⟩
    · simp [fetchState, hl, hafter.blockfetch, hvisit, hstate]
    · change emittedBodies r.1.outbound = _
      rw [hafter.emittedBodies, hbodies, hbefore.emittedBodies, hstate, fetchState, hl]
      rfl

theorem onInboundMsgs_bodies {msgs : List AnyMessage} (h : s.onInboundMsgs pid msgs = .ok t) :
    emittedBodies t.outbound = emittedBodies s.outbound ++
      ((s.fetchState pid).elim [] fun bf => bf.emits msgs).map (pid, ·) := by
  induction msgs generalizing s with
  | nil =>
    obtain rfl := Outcome.ok.inj h
    cases s.fetchState pid <;> simp [Blockfetch.State.emits]
  | cons msg msgs ih =>
    obtain ⟨u, hu, h⟩ := Outcome.bind_eq_ok.1 h
    obtain ⟨hstate, hbodies⟩ := onInboundMsg_bodies hu
    rw [ih h, hbodies, hstate]
    cases s.fetchState pid <;> simp [Blockfetch.State.emits]

/-- No body is emitted. -/
def SameBodies (s t : InitiatorBehavior) : Prop := emittedBodies t.outbound = emittedBodies s.outbound

theorem modifyPeer_sameBodies {f : SubBehaviors → InitiatorState → Call (SubBehaviors × InitiatorState)}
    (hf : ∀ subs st r, f subs st = .ok r → emittedBodies r.1.outbound = emittedBodies subs.outbound)
    (h : s.modifyPeer pid f = .ok t) : s.SameBodies t := by
  rcases modifyPeer_eq_ok.1 h with ⟨-, rfl⟩ | ⟨st, r, -, hr, rfl⟩
  · rfl
  · exact hf _ _ _ hr

theorem serveBlockFetch_sameBodies {iter : List PeerId} (h : s.serveBlockFetch iter = .ok t) : s.SameBodies t := by
  refine Outcome.fold_inv (fun _ b => s.SameBodies b) (fun _ pid b b' hb hstep => ?_) rfl h
  split at hstep
  · cases hstep
    exact hb
  · refine (modifyPeer_sameBodies (fun subs st r hr => ?_) hstep).trans hb
    obtain rfl := Outcome.ok.inj hr
    exact (subs.blockfetch.serveNext_bodies pid st subs.outbound).1

theorem serveLeiosFetch_sameBodies (h : s.serveLeiosFetch pid = .ok t) : s.SameBodies t := by
  refine modifyPeer_sameBodies (fun subs st r hr => ?_) h
  obtain rfl := Outcome.ok.inj hr
  exact (subs.leiosfetch.serveNext_frame pid st subs.outbound).emittedBodies

theorem onTagged_sameBodies {f : InitiatorState → InitiatorState} (h : s.onTagged pid f = .ok t) : s.SameBodies t := by
  refine modifyPeer_sameBodies (fun subs st r hr => ?_) h
  obtain rfl := Outcome.ok.inj hr
  exact (subs.chainsync.visitTagged_frame pid (f st) subs.outbound).emittedBodies

theorem onDiscovered_sameBodies (h : s.onDiscovered pid = .ok t) : s.SameBodies t := by
  obtain ⟨⟨subs, st⟩, hsubs, h⟩ := Outcome.bind_eq_ok.1 h
  obtain ⟨p, -, hsubs⟩ := Outcome.bind_eq_ok.1 hsubs
  obtain ⟨rfl, rfl⟩ := Prod.mk.inj (Outcome.ok.inj hsubs)
  obtain rfl := Outcome.ok.inj h
  rfl

theorem housekeeping_sameBodies {iter : Iteration} (h : s.housekeeping iter = .ok t) : s.SameBodies t := by
  obtain ⟨u, hu, h⟩ := Outcome.bind_eq_ok.1 h
  have hvisits : s.SameBodies u := by
    refine Outcome.fold_inv (fun _ b => s.SameBodies b) (fun _ pid b b' hb hstep => ?_) rfl hu
    refine (modifyPeer_sameBodies (fun subs st r hr => ?_) hstep).trans hb
    obtain ⟨p, st₂, out₂, -, -, hbefore, -, hafter⟩ := SubBehaviors.visitHousekeeping_inv hr
    rw [hafter.emittedBodies, (subs.blockfetch.serveNext_bodies pid st₂ out₂).1, hbefore.emittedBodies]
  obtain ⟨deficit, -, h⟩ := Outcome.bind_eq_ok.1 h
  split at h
  · obtain rfl := Outcome.ok.inj h
    exact hvisits
  · have hdrained : s.SameBodies
        { u with discovery := (u.discovery.drainNewPeers iter.discovered deficit).2 } := hvisits
    refine Outcome.fold_inv (fun _ b => s.SameBodies b) (fun _ pid b b' hb hstep => ?_) hdrained h
    split at hstep
    · cases hstep
      exact hb
    · exact (onDiscovered_sameBodies hstep).trans hb

theorem onConnected_sameBodies (h : s.onConnected pid = .ok t) : s.SameBodies t := by
  refine modifyPeer_sameBodies (fun subs st r hr => ?_) h
  obtain ⟨out, hout, hr⟩ := Outcome.bind_eq_ok.1 hr
  obtain rfl := Outcome.ok.inj hr
  exact (HandshakeBehavior.visitConnected_frame hout).emittedBodies

theorem onErrored_sameBodies (h : s.onErrored pid = .ok t) : s.SameBodies t := by
  refine modifyPeer_sameBodies (fun subs st r hr => ?_) h
  obtain ⟨st', -, hr⟩ := Outcome.bind_eq_ok.1 hr
  obtain rfl := Outcome.ok.inj hr
  exact (subs.connection.visitErrored_frame pid st' subs.outbound).emittedBodies

theorem onDisconnected_sameBodies {iter : List PeerId} (h : s.onDisconnected iter pid = .ok t) : s.SameBodies t := by
  obtain ⟨u, hu, h⟩ := Outcome.bind_eq_ok.1 h
  refine (serveBlockFetch_sameBodies h).trans (modifyPeer_sameBodies (fun subs st r hr => ?_) hu)
  obtain rfl := Outcome.ok.inj hr
  rfl

theorem onOutboundMsg_sameBodies {msg : AnyMessage} (h : s.onOutboundMsg pid msg = .ok t) : s.SameBodies t := by
  refine modifyPeer_sameBodies (fun subs st r hr => ?_) h
  obtain rfl := Outcome.ok.inj hr
  rfl

/-- Every message that is received is heeded by the block-fetch protocol of its peer; a peer that is not tracked sends no
block. -/
def DeliversBodies (s : InitiatorBehavior) : Input → Prop
  | .io (.recv pid msgs) => match s.fetchState pid with
    | some bf => bf.HeedsAll msgs
    | none => blockBodies msgs = []
  | _ => True

instance DeliversBodies.decidable (s : InitiatorBehavior) : ∀ input, Decidable (s.DeliversBodies input)
  | .io (.recv pid msgs) => match hb : s.fetchState pid with
    | some bf => decidable_of_iff (bf.HeedsAll msgs) (by simp [DeliversBodies, hb])
    | none => decidable_of_iff (blockBodies msgs = []) (by simp [DeliversBodies, hb])
  | .io (.connected _) | .io (.disconnected _) | .io (.sent ..) | .io (.error ..) | .io .idle
  | .command (.includePeer _) | .command .housekeeping | .command (.startSync _) | .command (.continueSync _)
  | .command (.requestBlocks _) | .command (.sendTx ..) | .command (.fetchEb ..) | .command (.fetchEbTxs ..)
  | .command (.banPeer _) | .command (.demotePeer _) => inferInstanceAs (Decidable True)

/-- What one input emits. Only `Recv` emits bodies, and where it delivers them, they are those it carries. -/
theorem handle_bodies {iter : Iteration} {input : Input} (h : s.handle iter input = .ok t)
    (hdelivers : s.DeliversBodies input) :
    emittedBodies t.outbound = emittedBodies s.outbound ++ receivedBodies input := by
  have hsame : s.SameBodies t → emittedBodies t.outbound = emittedBodies s.outbound ++ [] := fun hs => by
    rw [List.append_nil]
    exact hs
  cases input with
  | io event =>
    cases event with
    | connected pid => exact hsame (onConnected_sameBodies h)
    | disconnected pid => exact hsame (onDisconnected_sameBodies h)
    | sent pid msg => exact hsame (onOutboundMsg_sameBodies h)
    | recv pid msgs =>
      rw [onInboundMsgs_bodies h, receivedBodies]
      simp only [DeliversBodies] at hdelivers
      split at hdelivers
      · next bf hbf => rw [hbf, Option.elim_some, Blockfetch.State.emits_of_heedsAll hdelivers]
      · next hnone => rw [hnone, Option.elim_none, hdelivers]
    | error pid text => exact hsame (onErrored_sameBodies h)
    | idle => exact hsame (housekeeping_sameBodies h)
  | command cmd =>
    cases cmd with
    | includePeer pid =>
      simp only [handle, execute] at h
      split at h
      · exact hsame (onDiscovered_sameBodies h)
      · obtain rfl := Outcome.ok.inj h
        exact hsame rfl
    | housekeeping => exact hsame (housekeeping_sameBodies h)
    | startSync points =>
      obtain rfl := Outcome.ok.inj h
      exact hsame rfl
    | continueSync pid => exact hsame (onTagged_sameBodies h)
    | requestBlocks range =>
      have hserve := serveBlockFetch_sameBodies h
      exact hsame hserve
    | sendTx pid id body =>
      obtain rfl := Outcome.ok.inj h
      exact hsame rfl
    | fetchEb pid eb =>
      have hserve := serveLeiosFetch_sameBodies h
      exact hsame hserve
    | fetchEbTxs pid eb bitmaps =>
      have hserve := serveLeiosFetch_sameBodies h
      exact hsame hserve
    | banPeer pid => exact hsame (onTagged_sameBodies h)
    | demotePeer pid => exact hsame (onTagged_sameBodies h)

theorem Step.bodies {input : Input} (h : s.Step input t) (hdelivers : s.DeliversBodies input) :
    emittedBodies t.outbound = receivedBodies input := by
  obtain ⟨iter, -, h⟩ := h
  exact handle_bodies h hdelivers

/-! ### Whole runs -/

/-- The `BlockBodyReceived` events of a run, oldest first. -/
def bodyEvents (tr : List (Transition InitiatorBehavior Input)) : List (PeerId × Blockfetch.Body) :=
  tr.flatMap fun x => emittedBodies x.target.outbound

/-- The `Block` messages received along a run, oldest first. -/
def bodyMessages (tr : List (Transition InitiatorBehavior Input)) : List (PeerId × Blockfetch.Body) :=
  tr.flatMap fun x => receivedBodies x.input

/-- Along a run in which every message is heeded, the events of a peer with a body are as many as its `Block` messages
with that body. -/
theorem emitted_eq_received {tr : List (Transition InitiatorBehavior Input)} (h : Run Init Step tr s)
    (hdelivers : ∀ x ∈ tr, x.source.DeliversBodies x.input) (pid : PeerId) (body : Blockfetch.Body) :
    (bodyEvents tr).count (pid, body) = (bodyMessages tr).count (pid, body) := by
  have hstep : ∀ x ∈ tr, emittedBodies x.target.outbound = receivedBodies x.input :=
    fun x hx => (h.step_of_mem hx).bodies (hdelivers x hx)
  rw [bodyEvents, bodyMessages, List.flatMap_congr hstep]

/-- A peer is included and connected to, its handshake completes, and it is asked for a range of blocks. -/
def fetching (pid : PeerId) (range : BlockRange) : List (Iteration × Input) :=
  [(⟨[], []⟩, .command (.includePeer pid)), (⟨[pid], []⟩, .io .idle), (⟨[pid], []⟩, .io (.connected pid)),
    (⟨[pid], []⟩, .io (.sent pid (.handshake (.propose HandshakeBehavior.default.supportedVersion)))),
    (⟨[pid], []⟩, .io (.recv pid [.handshake (.accept 13 ⟨764824073, false, some 1, some false⟩)])),
    (⟨[pid], []⟩, .command (.requestBlocks range)),
    (⟨[pid], []⟩, .io (.sent pid (.blockFetch (.requestRange range))))]

/-- A batch of two blocks, each emitted once. -/
theorem emitted_eq_received_batch : ∃ tr s, Run Init Step tr s ∧
    (bodyMessages tr).count (⟨"a", 1⟩, [7]) = 1 ∧ (bodyEvents tr).count (⟨"a", 1⟩, [7]) = 1 := by
  have hplays : (new .default .default).plays (fetching ⟨"a", 1⟩ (.origin, .origin) ++
      [(⟨[⟨"a", 1⟩], []⟩, .io (.recv ⟨"a", 1⟩ [.blockFetch .startBatch, .blockFetch (.block [7])])),
        (⟨[⟨"a", 1⟩], []⟩, .io (.recv ⟨"a", 1⟩ [.blockFetch (.block [8]), .blockFetch .batchDone]))])
      (fun tr _ => (bodyMessages tr).count (⟨"a", 1⟩, [7]) = 1 ∧ ∀ x ∈ tr, x.source.DeliversBodies x.input) = true := by
    decide
  obtain ⟨tr, s, hrun, htest⟩ := exists_run_of_plays ⟨_, _, rfl⟩ hplays
  obtain ⟨hcount, hdelivers⟩ := of_decide_eq_true htest
  exact ⟨tr, s, hrun, hcount, (emitted_eq_received hrun hdelivers _ _).trans hcount⟩

/-- A keep-alive response while a batch is streamed: the one block received is emitted twice. -/
theorem emitted_twice : ¬ ∀ tr s, Run Init Step tr s → ∀ pid body,
    (bodyEvents tr).count (pid, body) = (bodyMessages tr).count (pid, body) := by
  intro h
  have hplays : (new .default .default).plays (fetching ⟨"a", 1⟩ (.origin, .origin) ++
      [(⟨[⟨"a", 1⟩], []⟩, .io (.recv ⟨"a", 1⟩ [.blockFetch .startBatch, .blockFetch (.block [7])])),
        (⟨[⟨"a", 1⟩], []⟩, .io .idle),
        (⟨[⟨"a", 1⟩], []⟩, .io (.sent ⟨"a", 1⟩ (.keepAlive (.keepAlive 65535)))),
        (⟨[⟨"a", 1⟩], []⟩, .io (.recv ⟨"a", 1⟩ [.keepAlive (.responseKeepAlive 65535)]))])
      (fun tr _ => (bodyMessages tr).count (⟨"a", 1⟩, [7]) = 1 ∧ (bodyEvents tr).count (⟨"a", 1⟩, [7]) = 2) = true := by
    decide
  obtain ⟨tr, s, hrun, htest⟩ := exists_run_of_plays ⟨_, _, rfl⟩ hplays
  obtain ⟨hreceived, hemitted⟩ := of_decide_eq_true htest
  have := h tr s hrun ⟨"a", 1⟩ [7]
  omega

end InitiatorBehavior
end Pallas.Network2
