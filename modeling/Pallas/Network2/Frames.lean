import Pallas.Network2.Initiator

/-!
# What a visit leaves alone

Most visitors have nothing to do with block fetching, and most do not promote or demote a peer. `FetchFrame` says that
block fetching is as it was: the state of the protocol, the range in flight, the unsent range, and that nothing pushed
belongs to block fetching. `Frame` adds that the promotion tag is as it was. Each visitor has one lemma below, and
`visitInboundMsg_inv` and `visitHousekeeping_inv` put them together around the two that do more: promotion, which comes
first, and block fetch.
-/

namespace Pallas.Network2

/-- Neither a block body nor a message of the block-fetch protocol. -/
def BehaviorOutput.OffFetch : BehaviorOutput → Prop
  | .externalEvent (.blockBodyReceived ..) => False
  | .interfaceCommand (.send _ (.blockFetch _)) => False
  | _ => True

/-- From `st` and the queue `out` to `st'` and `out'`, block fetching is left alone. -/
structure FetchFrame (st : InitiatorState) (out : OutboundQueue) (st' : InitiatorState) (out' : OutboundQueue) :
    Prop where
  blockfetch : st'.blockfetch = st.blockfetch
  inFlight : st'.inFlight = st.inFlight
  unsentRange : st'.unsentRange = st.unsentRange
  new : st'.connection = .new → st.connection = .new
  pushed : ∃ outs, out' = out ++ outs ∧ ∀ o ∈ outs, o.OffFetch

/-- And so is the promotion tag. -/
structure Frame (st : InitiatorState) (out : OutboundQueue) (st' : InitiatorState) (out' : OutboundQueue) : Prop extends
    FetchFrame st out st' out' where
  promotion : st'.promotion = st.promotion

variable {st st₁ st₂ st₃ : InitiatorState} {out out₁ out₂ out₃ : OutboundQueue} {pid : PeerId}

theorem FetchFrame.refl (st : InitiatorState) (out : OutboundQueue) : FetchFrame st out st out :=
  ⟨rfl, rfl, rfl, id, [], by simp, by simp⟩

theorem FetchFrame.trans (h : FetchFrame st₁ out₁ st₂ out₂) (h' : FetchFrame st₂ out₂ st₃ out₃) :
    FetchFrame st₁ out₁ st₃ out₃ := by
  obtain ⟨outs, rfl, houts⟩ := h.pushed
  obtain ⟨outs', rfl, houts'⟩ := h'.pushed
  refine ⟨h'.blockfetch.trans h.blockfetch, h'.inFlight.trans h.inFlight, h'.unsentRange.trans h.unsentRange,
    fun hn => h.new (h'.new hn), outs ++ outs', by simp, ?_⟩
  exact List.forall_mem_append.2 ⟨houts, houts'⟩

theorem Frame.refl (st : InitiatorState) (out : OutboundQueue) : Frame st out st out := ⟨.refl st out, rfl⟩

theorem Frame.trans (h : Frame st₁ out₁ st₂ out₂) (h' : Frame st₂ out₂ st₃ out₃) : Frame st₁ out₁ st₃ out₃ :=
  ⟨h.toFetchFrame.trans h'.toFetchFrame, h'.promotion.trans h.promotion⟩

theorem Frame.push {o : BehaviorOutput} (ho : o.OffFetch) (hb : st₁.blockfetch = st.blockfetch)
    (hi : st₁.inFlight = st.inFlight) (hu : st₁.unsent = st.unsent) (hc : st₁.connection = .new → st.connection = .new)
    (hp : st₁.promotion = st.promotion) : Frame st out st₁ (out ++ [o]) :=
  ⟨⟨hb, hi, by simp only [InitiatorState.unsentRange, hu], hc, [o], rfl, by simpa using ho⟩, hp⟩

/-- Nothing pushed. -/
theorem Frame.quiet (hb : st₁.blockfetch = st.blockfetch) (hi : st₁.inFlight = st.inFlight)
    (hu : st₁.unsent = st.unsent) (hc : st₁.connection = .new → st.connection = .new)
    (hp : st₁.promotion = st.promotion) : Frame st out st₁ out :=
  ⟨⟨hb, hi, by simp only [InitiatorState.unsentRange, hu], hc, [], by simp, by simp⟩, hp⟩

/-! ### Unsent requests -/

namespace UnsentRequests
variable {u v : UnsentRequests} {msg : AnyMessage}

theorem insert_eq_some (h : u.insert msg = some v) :
    msg.isRequest = true ∧ u.byChannel.lookup msg.channel = none ∧
      v.byChannel = u.byChannel.insert msg.channel msg := by
  unfold insert at h
  split at h
  · next hm =>
    cases h
    exact ⟨hm.1, hm.2, rfl⟩
  · cases h

theorem lookup_blockfetch (h : u.byChannel.lookup Blockfetch.channelId = some msg) :
    ∃ range, msg = .blockFetch (.requestRange range) := by
  obtain ⟨hc, hr⟩ := u.request _ _ h
  obtain ⟨m, rfl⟩ := AnyMessage.channel_eq_blockfetch.1 hc
  cases m with
  | requestRange range => exact ⟨range, rfl⟩
  | _ => exact absurd hr Bool.false_ne_true

end UnsentRequests

namespace InitiatorState

theorem unsentRange_eq_some {range : BlockRange} :
    st.unsentRange = some range ↔
      st.unsent.byChannel.lookup Blockfetch.channelId = some (.blockFetch (.requestRange range)) := by
  unfold unsentRange
  constructor
  · intro h
    split at h
    · next hl =>
      cases h
      exact hl
    · cases h
  · intro h
    rw [h]

theorem unsentRange_eq_none : st.unsentRange = none ↔ st.unsent.byChannel.lookup Blockfetch.channelId = none := by
  constructor
  · intro h
    cases hl : st.unsent.byChannel.lookup Blockfetch.channelId with
    | none => rfl
    | some msg =>
      obtain ⟨range, rfl⟩ := UnsentRequests.lookup_blockfetch hl
      rw [unsentRange_eq_some.2 hl] at h
      cases h
  · intro h
    simp [unsentRange, h]

theorem trySendRequest_cases (st : InitiatorState) (pid : PeerId) (msg : AnyMessage) (out : OutboundQueue) :
    st.trySendRequest pid msg out = (false, st, out) ∨
      ∃ unsent, st.canApply msg = true ∧ st.unsent.insert msg = some unsent ∧
        st.trySendRequest pid msg out = (true, { st with unsent }, out ++ [.interfaceCommand (.send pid msg)]) := by
  unfold trySendRequest
  split
  · next hc =>
    cases hi : st.unsent.insert msg with
    | none => exact .inl rfl
    | some unsent => exact .inr ⟨unsent, hc, rfl, rfl⟩
  · exact .inl rfl

theorem trySendRequest_frame (st : InitiatorState) (pid : PeerId) (out : OutboundQueue) {msg : AnyMessage}
    (hm : ∀ m, msg ≠ .blockFetch m) :
    Frame st out (st.trySendRequest pid msg out).2.1 (st.trySendRequest pid msg out).2.2 := by
  have hchan : Blockfetch.channelId ≠ msg.channel := fun h => by
    obtain ⟨m, hm'⟩ := AnyMessage.channel_eq_blockfetch.1 h.symm
    exact hm m hm'
  rcases st.trySendRequest_cases pid msg out with h | ⟨unsent, -, hi, h⟩
  · rw [h]
    exact .refl st out
  · rw [h]
    obtain ⟨-, -, hu⟩ := UnsentRequests.insert_eq_some hi
    refine ⟨⟨rfl, rfl, ?_, id, _, rfl, ?_⟩, rfl⟩
    · simp only [unsentRange, hu, Finmap.lookup_insert_of_ne _ hchan]
    · cases msg with
      | blockFetch m => exact absurd rfl (hm m)
      | _ => simp [BehaviorOutput.OffFetch]

theorem trySendDeferredNext_frame (st : InitiatorState) (pid : PeerId) (out : OutboundQueue) :
    Frame st out (st.trySendDeferredNext pid out).1 (st.trySendDeferredNext pid out).2 := by
  unfold trySendDeferredNext
  split
  · have hm : ∀ m, AnyMessage.chainSync .requestNext ≠ .blockFetch m := by simp
    have hsend := st.trySendRequest_frame pid out hm
    rcases st.trySendRequest_cases pid (.chainSync .requestNext) out with h | ⟨unsent, -, -, h⟩
    · rw [h]
      exact .refl st out
    · rw [h] at hsend ⊢
      exact hsend.trans (.quiet rfl rfl rfl id rfl)
  · exact .refl st out

end InitiatorState

/-! ### Applying a message -/

/-- The state of the block-fetch protocol after a message: only one that it accepts has moved it. -/
def Blockfetch.State.next (self : State) : AnyMessage → State
  | .blockFetch msg => match self.apply msg with
    | .ok s => s
    | .error _ => self
  | _ => self

namespace InitiatorState

theorem applyMsg_blockfetch (st : InitiatorState) (msg : AnyMessage) :
    (st.applyMsg msg).blockfetch = st.blockfetch.next msg := by
  cases msg <;> simp only [applyMsg, Blockfetch.State.next] <;> split <;> simp [*]

@[simp] theorem applyMsg_promotion (st : InitiatorState) (msg : AnyMessage) :
    (st.applyMsg msg).promotion = st.promotion := by
  cases msg <;> simp only [applyMsg] <;> split <;> rfl

@[simp] theorem applyMsg_connection (st : InitiatorState) (msg : AnyMessage) :
    (st.applyMsg msg).connection = st.connection := by
  cases msg <;> simp only [applyMsg] <;> split <;> rfl

@[simp] theorem applyMsg_unsent (st : InitiatorState) (msg : AnyMessage) : (st.applyMsg msg).unsent = st.unsent := by
  cases msg <;> simp only [applyMsg] <;> split <;> rfl

@[simp] theorem applyMsg_inFlight (st : InitiatorState) (msg : AnyMessage) :
    (st.applyMsg msg).inFlight = st.inFlight := by
  cases msg <;> simp only [applyMsg] <;> split <;> rfl

@[simp] theorem applyMsg_unsentRange (st : InitiatorState) (msg : AnyMessage) :
    (st.applyMsg msg).unsentRange = st.unsentRange := by
  simp only [unsentRange, applyMsg_unsent]

@[simp] theorem clearUnsent_promotion (st : InitiatorState) (msg : AnyMessage) :
    (st.clearUnsent msg).promotion = st.promotion := by
  unfold clearUnsent
  split <;> rfl

@[simp] theorem clearUnsent_connection (st : InitiatorState) (msg : AnyMessage) :
    (st.clearUnsent msg).connection = st.connection := by
  unfold clearUnsent
  split <;> rfl

@[simp] theorem clearUnsent_blockfetch (st : InitiatorState) (msg : AnyMessage) :
    (st.clearUnsent msg).blockfetch = st.blockfetch := by
  unfold clearUnsent
  split <;> rfl

@[simp] theorem clearUnsent_inFlight (st : InitiatorState) (msg : AnyMessage) :
    (st.clearUnsent msg).inFlight = st.inFlight := by
  unfold clearUnsent
  split <;> rfl

end InitiatorState

/-! ### The visitors, one by one -/

theorem ConnectionBehavior.visitHousekeeping_frame (b : ConnectionBehavior) (pid : PeerId) (st : InitiatorState)
    (out : OutboundQueue) :
    Frame st out (b.visitHousekeeping pid st out).1 (b.visitHousekeeping pid st out).2 := by
  have hconn : Frame st out (connect pid st out).1 (connect pid st out).2 := by
    unfold connect
    split
    · exact .push trivial rfl rfl rfl (fun h => by cases h) rfl
    · exact .refl st out
  have hdisc : ∀ (st : InitiatorState) (out : OutboundQueue), Frame st out st (disconnect pid st out) := by
    intro st out
    unfold disconnect
    split
    · exact .push trivial rfl rfl rfl id rfl
    · exact .refl st out
  exact hconn.trans (hdisc _ _)

theorem ConnectionBehavior.visitErrored_frame (b : ConnectionBehavior) (pid : PeerId) (st : InitiatorState)
    (out : OutboundQueue) :
    Frame st out st (b.visitErrored pid st out) := by
  unfold visitErrored disconnect
  split
  · exact .push trivial rfl rfl rfl id rfl
  · exact .refl st out

theorem HandshakeBehavior.visitConnected_frame {b : HandshakeBehavior} (h : b.visitConnected pid st out = .ok out₁) :
    Frame st out st out₁ := by
  unfold visitConnected proposeHandshake at h
  split at h
  · cases h
    exact .push trivial rfl rfl rfl id rfl
  · cases h

theorem HandshakeBehavior.visitInboundMsg_frame (b : HandshakeBehavior) (pid : PeerId) (st : InitiatorState)
    (out : OutboundQueue) :
    Frame st out (b.visitInboundMsg pid st out).1 (b.visitInboundMsg pid st out).2 := by
  unfold visitInboundMsg
  split
  · unfold checkConfirmation
    split
    · exact .push trivial rfl rfl rfl (fun h => by cases h) rfl
    · exact .refl st out
  · exact .refl st out

theorem KeepaliveBehavior.visitHousekeeping_frame (b : KeepaliveBehavior) (pid : PeerId) (st : InitiatorState)
    (out : OutboundQueue) :
    Frame st out (b.visitHousekeeping pid st out).1 (b.visitHousekeeping pid st out).2 := by
  unfold visitHousekeeping
  split
  · exact st.trySendRequest_frame pid out (by simp)
  · exact .refl st out

theorem DiscoveryBehavior.visitHousekeeping_frame {b : DiscoveryBehavior} {r : InitiatorState × OutboundQueue}
    (h : b.visitHousekeeping pid st out = .ok r) : Frame st out r.1 r.2 := by
  unfold visitHousekeeping at h
  split at h
  · cases h
    exact .refl st out
  · split at h
    · cases h
      exact .refl st out
    · obtain ⟨amount, -, h⟩ := Outcome.bind_eq_ok.1 h
      cases h
      exact st.trySendRequest_frame pid out (by simp)

theorem DiscoveryBehavior.visitInboundMsg_frame (b : DiscoveryBehavior) (st : InitiatorState) (out : OutboundQueue) :
    Frame st out (b.visitInboundMsg st).2 out := by
  unfold visitInboundMsg
  split
  · unfold tryTakePeers
    split
    · exact .quiet rfl rfl rfl id rfl
    · exact .refl st out
  · exact .refl st out

theorem ChainSyncBehavior.drainData_frame (pid : PeerId) (st : InitiatorState) (out : OutboundQueue) :
    Frame st out (drainData pid st out).1 (drainData pid st out).2 := by
  unfold drainData
  split
  · exact .refl st out
  · split
    · exact .push trivial rfl rfl rfl id rfl
    · exact .push trivial rfl rfl rfl id rfl
    · exact .push trivial rfl rfl rfl id rfl
    · exact .quiet rfl rfl rfl id rfl
    · exact .quiet rfl rfl rfl id rfl

theorem ChainSyncBehavior.visitInboundMsg_frame (b : ChainSyncBehavior) (pid : PeerId) (st : InitiatorState)
    (out : OutboundQueue) :
    Frame st out (b.visitInboundMsg pid st out).1 (b.visitInboundMsg pid st out).2 := by
  unfold visitInboundMsg
  split
  · exact .refl st out
  · exact (drainData_frame pid st out).trans (InitiatorState.trySendDeferredNext_frame _ pid _)

theorem ChainSyncBehavior.visitTagged_frame (b : ChainSyncBehavior) (pid : PeerId) (st : InitiatorState)
    (out : OutboundQueue) :
    Frame st out (b.visitTagged pid st out).1 (b.visitTagged pid st out).2 := by
  unfold visitTagged
  split
  · exact .refl st out
  · split
    · exact .refl st out
    · split
      · have hm : ∀ m, AnyMessage.chainSync .requestNext ≠ .blockFetch m := by simp
        have hsend := st.trySendRequest_frame pid out hm
        rcases st.trySendRequest_cases pid (.chainSync .requestNext) out with h | ⟨unsent, -, -, h⟩
        · rw [h]
          exact .quiet rfl rfl rfl id rfl
        · rw [h] at hsend ⊢
          exact hsend
      · exact .refl st out

theorem ChainSyncBehavior.visitHousekeeping_frame (b : ChainSyncBehavior) (pid : PeerId) (st : InitiatorState)
    (out : OutboundQueue) :
    Frame st out (b.visitHousekeeping pid st out).1 (b.visitHousekeeping pid st out).2 := by
  unfold visitHousekeeping
  split
  · exact .refl st out
  · split
    · exact .refl st out
    · split
      · exact .refl st out
      · exact st.trySendRequest_frame pid out (by simp)

theorem LeiosNotifyBehavior.visitInboundMsg_frame (b : LeiosNotifyBehavior) (pid : PeerId) (st : InitiatorState)
    (out : OutboundQueue) :
    Frame st out (b.visitInboundMsg pid st out).1 (b.visitInboundMsg pid st out).2 := by
  unfold visitInboundMsg dispatch
  split
  · exact .push trivial rfl rfl rfl id rfl
  · exact .quiet rfl rfl rfl id rfl

theorem LeiosNotifyBehavior.visitHousekeeping_frame (b : LeiosNotifyBehavior) (pid : PeerId) (st : InitiatorState)
    (out : OutboundQueue) :
    Frame st out (b.visitHousekeeping pid st out).1 (b.visitHousekeeping pid st out).2 := by
  unfold visitHousekeeping
  split
  · exact .refl st out
  · split
    · exact st.trySendRequest_frame pid out (by simp)
    · exact .refl st out

theorem LeiosFetchBehavior.serveNext_frame (b : LeiosFetchBehavior) (pid : PeerId) (st : InitiatorState)
    (out : OutboundQueue) :
    Frame st out (b.serveNext pid st out).2.1 (b.serveNext pid st out).2.2 := by
  unfold serveNext
  split
  · exact .refl st out
  · split
    · exact .refl st out
    · next request _ =>
      have hm : ∀ m, request.requestMsg ≠ .blockFetch m := by
        intro m
        cases request <;> simp [FetchRequest.requestMsg]
      have hsend := st.trySendRequest_frame pid out hm
      rcases st.trySendRequest_cases pid request.requestMsg out with h | ⟨unsent, -, -, h⟩
      · rw [h]
        exact .refl st out
      · rw [h] at hsend ⊢
        exact hsend

theorem LeiosFetchBehavior.visitInboundMsg_frame (b : LeiosFetchBehavior) (pid : PeerId) (st : InitiatorState)
    (out : OutboundQueue) :
    Frame st out (b.visitInboundMsg pid st out).2.1 (b.visitInboundMsg pid st out).2.2 := by
  have hdispatch : Frame st out (dispatch pid st out).1 (dispatch pid st out).2 := by
    unfold dispatch
    split
    · exact .push trivial rfl rfl rfl id rfl
    · exact .quiet rfl rfl rfl id rfl
  exact hdispatch.trans (serveNext_frame b pid _ _)

/-! ### Block fetch -/

namespace BlockFetchBehavior

theorem serveNext_cases (b : BlockFetchBehavior) (pid : PeerId) (st : InitiatorState) (out : OutboundQueue) :
    b.serveNext pid st out = (b, st, out) ∨
      ∃ range rest unsent, b.requests = range :: rest ∧ st.connection = .initialized ∧ st.blockfetch = .idle ∧
        st.unsentRange = none ∧ ({ st with unsent : InitiatorState }).unsentRange = some range ∧
        b.serveNext pid st out = (⟨rest⟩, { st with unsent },
          out ++ [.interfaceCommand (.send pid (.blockFetch (.requestRange range)))]) := by
  unfold serveNext
  split
  · exact .inl rfl
  · next havail =>
    simp only [peerIsAvailable, Bool.not_eq_true', Bool.not_eq_false, Bool.and_eq_true, decide_eq_true_eq] at havail
    split
    · exact .inl rfl
    · next range rest hreq =>
      rcases st.trySendRequest_cases pid (.blockFetch (.requestRange range)) out with h | ⟨unsent, -, hi, h⟩
      · rw [h]
        exact .inl rfl
      · rw [h]
        obtain ⟨-, hnone, hu⟩ := UnsentRequests.insert_eq_some hi
        refine .inr ⟨range, rest, unsent, hreq, havail.1.1, havail.1.2,
          InitiatorState.unsentRange_eq_none.2 hnone, ?_, rfl⟩
        rw [InitiatorState.unsentRange_eq_some]
        simp only [hu]
        exact Finmap.lookup_insert _

theorem serveNext_promotion (b : BlockFetchBehavior) : (b.serveNext pid st out).2.1.promotion = st.promotion := by
  rcases b.serveNext_cases pid st out with h | ⟨_, _, _, _, _, _, _, _, h⟩ <;> rw [h]

theorem settleInFlight_promotion : (settleInFlight st).promotion = st.promotion := by
  unfold settleInFlight
  split <;> rfl

theorem visitInboundMsg_promotion (b : BlockFetchBehavior) :
    (b.visitInboundMsg pid st out).2.1.promotion = st.promotion :=
  (serveNext_promotion b).trans settleInFlight_promotion

theorem visitOutboundMsg_promotion : (visitOutboundMsg st).promotion = st.promotion := by
  unfold visitOutboundMsg
  split <;> rfl

end BlockFetchBehavior

/-! ### Promotion -/

namespace PromotionBehavior
variable {b : PromotionBehavior} {r : PromotionBehavior × InitiatorState}

theorem categorizePeer_state (h : b.categorizePeer pid st = .ok r) : ∃ tag, r.2 = { st with promotion := tag } := by
  unfold categorizePeer at h
  split at h
  · cases h
    exact ⟨_, rfl⟩
  · split at h
    · cases h
      exact ⟨_, rfl⟩
    · obtain ⟨warm, -, h⟩ := Outcome.bind_eq_ok.1 h
      split at h
      · cases h
        unfold promoteColdPeer
        split
        · exact ⟨_, rfl⟩
        · exact ⟨_, rfl⟩
      · obtain ⟨hot, -, h⟩ := Outcome.bind_eq_ok.1 h
        split at h
        · cases h
          unfold promoteWarmPeer
          split
          · exact ⟨_, rfl⟩
          · exact ⟨_, rfl⟩
        · cases h
          exact ⟨_, rfl⟩

theorem categorizePeer_frame (h : b.categorizePeer pid st = .ok r) (out : OutboundQueue) :
    FetchFrame st out r.2 out := by
  obtain ⟨tag, hr⟩ := categorizePeer_state h
  rw [hr]
  exact ⟨rfl, rfl, rfl, id, [], by simp, by simp⟩

end PromotionBehavior

/-! ### All visitors -/

namespace SubBehaviors
variable {subs : SubBehaviors} {r : SubBehaviors × InitiatorState}

/-- What the visitors of an inbound message do: the promotion visitor categorizes the peer, the block-fetch visitor
comes in between, and all others leave block fetching and the tag alone. -/
theorem visitInboundMsg_inv (h : subs.visitInboundMsg pid st = .ok r) :
    ∃ p st₂ out₂, subs.promotion.categorizePeer pid st = .ok p ∧ r.1.promotion = p.1 ∧
      Frame p.2 subs.outbound st₂ out₂ ∧ r.1.blockfetch = (subs.blockfetch.visitInboundMsg pid st₂ out₂).1 ∧
      Frame (subs.blockfetch.visitInboundMsg pid st₂ out₂).2.1 (subs.blockfetch.visitInboundMsg pid st₂ out₂).2.2
        r.2 r.1.outbound := by
  unfold visitInboundMsg at h
  obtain ⟨p, hp, h⟩ := Outcome.bind_eq_ok.1 h
  obtain rfl := Outcome.ok.inj h
  let hs := subs.handshake.visitInboundMsg pid p.2 subs.outbound
  let ds := subs.discovery.visitInboundMsg hs.1
  let bf := subs.blockfetch.visitInboundMsg pid ds.2 hs.2
  let cs := subs.chainsync.visitInboundMsg pid bf.2.1 bf.2.2
  let ln := subs.leiosnotify.visitInboundMsg pid cs.1 cs.2
  have hbefore : Frame p.2 subs.outbound ds.2 hs.2 :=
    (subs.handshake.visitInboundMsg_frame pid p.2 subs.outbound).trans (subs.discovery.visitInboundMsg_frame hs.1 hs.2)
  have hafter : Frame bf.2.1 bf.2.2 (subs.leiosfetch.visitInboundMsg pid ln.1 ln.2).2.1
      (subs.leiosfetch.visitInboundMsg pid ln.1 ln.2).2.2 :=
    (subs.chainsync.visitInboundMsg_frame pid bf.2.1 bf.2.2).trans
      ((subs.leiosnotify.visitInboundMsg_frame pid cs.1 cs.2).trans
        (subs.leiosfetch.visitInboundMsg_frame pid ln.1 ln.2))
  exact ⟨p, ds.2, hs.2, hp, rfl, hbefore, rfl, hafter⟩

theorem visitHousekeeping_inv (h : subs.visitHousekeeping pid st = .ok r) :
    ∃ p st₂ out₂, subs.promotion.categorizePeer pid st = .ok p ∧ r.1.promotion = p.1 ∧
      Frame p.2 subs.outbound st₂ out₂ ∧ r.1.blockfetch = (subs.blockfetch.serveNext pid st₂ out₂).1 ∧
      Frame (subs.blockfetch.serveNext pid st₂ out₂).2.1 (subs.blockfetch.serveNext pid st₂ out₂).2.2
        r.2 r.1.outbound := by
  unfold visitHousekeeping at h
  obtain ⟨p, hp, h⟩ := Outcome.bind_eq_ok.1 h
  let cn := subs.connection.visitHousekeeping pid p.2 subs.outbound
  let ka := subs.keepalive.visitHousekeeping pid cn.1 cn.2
  obtain ⟨ds, hds, h⟩ := Outcome.bind_eq_ok.1 h
  obtain rfl := Outcome.ok.inj h
  let bf := subs.blockfetch.serveNext pid ds.1 ds.2
  let cs := subs.chainsync.visitHousekeeping pid bf.2.1 bf.2.2
  let ln := subs.leiosnotify.visitHousekeeping pid cs.1 cs.2
  have hbefore : Frame p.2 subs.outbound ds.1 ds.2 :=
    (subs.connection.visitHousekeeping_frame pid p.2 subs.outbound).trans
      ((subs.keepalive.visitHousekeeping_frame pid cn.1 cn.2).trans
        (DiscoveryBehavior.visitHousekeeping_frame hds))
  have hafter : Frame bf.2.1 bf.2.2 (subs.leiosfetch.serveNext pid ln.1 ln.2).2.1
      (subs.leiosfetch.serveNext pid ln.1 ln.2).2.2 :=
    (subs.chainsync.visitHousekeeping_frame pid bf.2.1 bf.2.2).trans
      ((subs.leiosnotify.visitHousekeeping_frame pid cs.1 cs.2).trans (subs.leiosfetch.serveNext_frame pid ln.1 ln.2))
  exact ⟨p, ds.1, ds.2, hp, rfl, hbefore, rfl, hafter⟩

end SubBehaviors

/-! ### One peer -/

namespace InitiatorBehavior
variable {s t : InitiatorBehavior}

theorem countError_eq_ok {st st' : InitiatorState} (h : countError st = .ok st') :
    st' = { st with errorCount := st.errorCount + 1 } := by
  unfold countError at h
  split at h
  · exact (Outcome.ok.inj h).symm
  · cases h

theorem modifyPeer_eq_ok {f : SubBehaviors → InitiatorState → Call (SubBehaviors × InitiatorState)} :
    s.modifyPeer pid f = .ok t ↔ s.peers.lookup pid = none ∧ t = s ∨
      ∃ st r, s.peers.lookup pid = some st ∧ f s.toSubBehaviors st = .ok r ∧
        t = { r.1 with peers := s.peers.insert pid r.2 } := by
  unfold modifyPeer
  cases hl : s.peers.lookup pid with
  | none => simp [eq_comm]
  | some st =>
    constructor
    · intro h
      obtain ⟨r, hr, ht⟩ := Outcome.bind_eq_ok.1 h
      exact .inr ⟨st, r, rfl, hr, (Outcome.ok.inj ht).symm⟩
    · rintro (⟨h, -⟩ | ⟨_, r, hst, hr, rfl⟩)
      · cases h
      · cases hst
        exact Outcome.bind_eq_ok.2 ⟨r, hr, rfl⟩

end InitiatorBehavior
end Pallas.Network2
