import Pallas.Network2.Frames

/-!
# What visitors do to a peer

`Move` lists the things that a visitor does to a peer, and what it pushes with each; `Moves` is any number of them. Every
visitor of the initiator is made of moves, so what holds of every move holds of all that the visitors do.
-/

namespace Pallas.Network2

/-- The peer an output is about. -/
def BehaviorOutput.peer : BehaviorOutput → PeerId
  | .interfaceCommand (.connect pid) => pid
  | .interfaceCommand (.send pid _) => pid
  | .interfaceCommand (.disconnect pid) => pid
  | .externalEvent (.peerInitialized pid _) => pid
  | .externalEvent (.intersectionFound pid ..) => pid
  | .externalEvent (.blockHeaderReceived pid ..) => pid
  | .externalEvent (.rollbackReceived pid ..) => pid
  | .externalEvent (.blockBodyReceived pid _) => pid
  | .externalEvent (.ebNotification pid _) => pid
  | .externalEvent (.ebFetched pid ..) => pid

def OutboundQueue.about (out : OutboundQueue) (pid : PeerId) : OutboundQueue := out.filter (·.peer = pid)

theorem OutboundQueue.about_append (out out' : OutboundQueue) (pid : PeerId) :
    OutboundQueue.about (out ++ out') pid = out.about pid ++ out'.about pid := List.filter_append ..

/-- What visitors ask of their own accord, they ask of an initialized peer; for peers they ask one that has not been
asked yet, and for the next header they do not ask. -/
structure InitiatorState.MayAsk (st : InitiatorState) (msg : AnyMessage) : Prop where
  initialized : st.connection = .initialized
  next : msg ≠ .chainSync .requestNext
  peers : ∀ amount, msg = .peerSharing (.shareRequest amount) → st.peersharing = .idle .empty

/-- One thing that a visitor does: what it pushes, and the state of the peer afterwards. -/
inductive Move (pid : PeerId) (st : InitiatorState) : OutboundQueue → InitiatorState → Prop
  | request {msg : AnyMessage} {unsent : UnsentRequests} : st.MayAsk msg → st.canApply msg = true →
      st.unsent.insert msg = some unsent → Move pid st [.interfaceCommand (.send pid msg)] { st with unsent }
  | deferredNext {unsent : UnsentRequests} : st.syncNextDeferred = true → st.canApply (.chainSync .requestNext) = true →
      st.unsent.insert (.chainSync .requestNext) = some unsent →
      Move pid st [.interfaceCommand (.send pid (.chainSync .requestNext))]
        { st with unsent, syncNextDeferred := false }
  | promote (tag : PromotionTag) : Move pid st [] { st with promotion := tag }
  | connect : needsConnection st = true →
      Move pid st [.interfaceCommand (.connect pid)] { st with connection := .connecting }
  | disconnect : needsDisconnect st = true → Move pid st [.interfaceCommand (.disconnect pid)] st
  | confirmed {num : UInt64} {data : Handshake.VersionData} : st.connection = .connected →
      st.handshake = .done (.accepted num data) →
      Move pid st [.externalEvent (.peerInitialized pid (num, data))] { st with connection := .initialized }
  | takePeers {peers : List Peersharing.PeerAddress} : st.peersharing = .idle (.response peers) →
      Move pid st [] { st with peersharing := .done }
  | body {body : Blockfetch.Body} : st.blockfetch = .streaming (some body) →
      Move pid st [.externalEvent (.blockBodyReceived pid body)] st
  | inFlight (range : Option BlockRange) : Move pid st [] { st with inFlight := range }
  | header : st.chainsync.isNew = false →
      Move pid st (ChainSyncBehavior.drainData pid st []).2 (ChainSyncBehavior.drainData pid st []).1
  | notification : Move pid st (LeiosNotifyBehavior.dispatch pid st []).2 (LeiosNotifyBehavior.dispatch pid st []).1
  | fetched : Move pid st (LeiosFetchBehavior.dispatch pid st []).2 (LeiosFetchBehavior.dispatch pid st []).1

/-- Any number of moves, and all that they push. -/
inductive Moves (pid : PeerId) : InitiatorState → OutboundQueue → InitiatorState → Prop
  | refl (st : InitiatorState) : Moves pid st [] st
  | snoc {st st₁ st₂ : InitiatorState} {outs out : OutboundQueue} :
      Moves pid st outs st₁ → Move pid st₁ out st₂ → Moves pid st (outs ++ out) st₂

/-- Moves that leave the tag alone. -/
inductive PlainMoves (pid : PeerId) : InitiatorState → OutboundQueue → InitiatorState → Prop
  | refl (st : InitiatorState) : PlainMoves pid st [] st
  | snoc {st st₁ st₂ : InitiatorState} {outs out : OutboundQueue} :
      PlainMoves pid st outs st₁ → Move pid st₁ out st₂ → st₂.promotion = st₁.promotion →
      PlainMoves pid st (outs ++ out) st₂

/-- A visit pushes behind what is there, and is made of moves that leave the tag alone. -/
def Visit (pid : PeerId) (st : InitiatorState) (out : OutboundQueue) (st' : InitiatorState) (out' : OutboundQueue) :
    Prop := ∃ outs, out' = out ++ outs ∧ PlainMoves pid st outs st'

variable {pid : PeerId} {st st₁ st₂ st₃ : InitiatorState} {out outs out₁ out₂ out₃ : OutboundQueue}

theorem Moves.trans (h : Moves pid st₁ out₁ st₂) (h' : Moves pid st₂ out₂ st₃) : Moves pid st₁ (out₁ ++ out₂) st₃ := by
  induction h' with
  | refl => simpa using h
  | snoc _ hmove ih =>
    rw [← List.append_assoc]
    exact ih.snoc hmove

theorem PlainMoves.trans (h : PlainMoves pid st₁ out₁ st₂) (h' : PlainMoves pid st₂ out₂ st₃) :
    PlainMoves pid st₁ (out₁ ++ out₂) st₃ := by
  induction h' with
  | refl => simpa using h
  | snoc _ hmove hp ih =>
    rw [← List.append_assoc]
    exact ih.snoc hmove hp

theorem PlainMoves.moves (h : PlainMoves pid st outs st₁) : Moves pid st outs st₁ := by
  induction h with
  | refl => exact .refl _
  | snoc _ hmove _ ih => exact ih.snoc hmove

theorem Move.moves (h : Move pid st out st₁) : Moves pid st out st₁ := (Moves.refl st).snoc h

theorem Visit.refl (pid : PeerId) (st : InitiatorState) (out : OutboundQueue) : Visit pid st out st out :=
  ⟨[], by simp, .refl st⟩

theorem Visit.trans (h : Visit pid st₁ out₁ st₂ out₂) (h' : Visit pid st₂ out₂ st₃ out₃) :
    Visit pid st₁ out₁ st₃ out₃ := by
  obtain ⟨outs, rfl, hmoves⟩ := h
  obtain ⟨outs', rfl, hmoves'⟩ := h'
  exact ⟨outs ++ outs', by simp, hmoves.trans hmoves'⟩

theorem Move.visit (h : Move pid st outs st₁) (hp : st₁.promotion = st.promotion) (out : OutboundQueue) :
    Visit pid st out st₁ (out ++ outs) := ⟨outs, rfl, (PlainMoves.refl st).snoc h hp⟩

theorem Move.silent (h : Move pid st [] st₁) (hp : st₁.promotion = st.promotion) (out : OutboundQueue) :
    Visit pid st out st₁ out := ⟨[], by simp, (PlainMoves.refl st).snoc h hp⟩

/-! ### The visitors are made of moves -/

theorem InitiatorState.trySendRequest_visit (st : InitiatorState) (pid : PeerId) (out : OutboundQueue)
    {msg : AnyMessage} (hm : st.MayAsk msg) :
    Visit pid st out (st.trySendRequest pid msg out).2.1 (st.trySendRequest pid msg out).2.2 := by
  rcases st.trySendRequest_cases pid msg out with h | ⟨unsent, hc, hi, h⟩
  · rw [h]
    exact .refl pid st out
  · rw [h]
    exact (Move.request hm hc hi).visit rfl out

theorem InitiatorState.trySendDeferredNext_visit (st : InitiatorState) (pid : PeerId) (out : OutboundQueue) :
    Visit pid st out (st.trySendDeferredNext pid out).1 (st.trySendDeferredNext pid out).2 := by
  unfold trySendDeferredNext
  split
  · next hd =>
    rcases st.trySendRequest_cases pid (.chainSync .requestNext) out with h | ⟨unsent, hc, hi, h⟩
    · rw [h]
      exact .refl pid st out
    · rw [h]
      exact (Move.deferredNext hd hc hi).visit rfl out
  · exact .refl pid st out

theorem ConnectionBehavior.disconnect_visit (pid : PeerId) (st : InitiatorState) (out : OutboundQueue) :
    Visit pid st out st (disconnect pid st out) := by
  unfold disconnect
  split
  · next hn => exact (Move.disconnect hn).visit rfl out
  · exact .refl pid st out

theorem ConnectionBehavior.visitHousekeeping_visit (b : ConnectionBehavior) (pid : PeerId) (st : InitiatorState)
    (out : OutboundQueue) : Visit pid st out (b.visitHousekeeping pid st out).1 (b.visitHousekeeping pid st out).2 := by
  have hconn : Visit pid st out (connect pid st out).1 (connect pid st out).2 := by
    unfold connect
    split
    · next hn => exact (Move.connect hn).visit rfl out
    · exact .refl pid st out
  exact hconn.trans (disconnect_visit pid _ _)

theorem HandshakeBehavior.visitInboundMsg_visit (b : HandshakeBehavior) (pid : PeerId) (st : InitiatorState)
    (out : OutboundQueue) : Visit pid st out (b.visitInboundMsg pid st out).1 (b.visitInboundMsg pid st out).2 := by
  unfold visitInboundMsg
  split
  · next hc =>
    unfold checkConfirmation
    split
    · next hd => exact (Move.confirmed hc hd).visit rfl out
    · exact .refl pid st out
  · exact .refl pid st out

theorem KeepaliveBehavior.visitHousekeeping_visit (b : KeepaliveBehavior) (pid : PeerId) (st : InitiatorState)
    (out : OutboundQueue) : Visit pid st out (b.visitHousekeeping pid st out).1 (b.visitHousekeeping pid st out).2 := by
  unfold visitHousekeeping
  split
  · next hi =>
      exact st.trySendRequest_visit pid out ⟨by simpa [InitiatorState.isInitialized] using hi, by simp, by simp⟩
  · exact .refl pid st out

theorem DiscoveryBehavior.visitHousekeeping_visit {b : DiscoveryBehavior} {r : InitiatorState × OutboundQueue}
    (h : b.visitHousekeeping pid st out = .ok r) : Visit pid st out r.1 r.2 := by
  unfold visitHousekeeping at h
  split at h
  · cases h
    exact .refl pid st out
  · split at h
    · cases h
      exact .refl pid st out
    · next havail =>
      obtain ⟨amount, -, h⟩ := Outcome.bind_eq_ok.1 h
      cases h
      simp only [peerIsAvailable, InitiatorState.isInitialized, Bool.not_eq_true', Bool.not_eq_false, Bool.and_eq_true,
        decide_eq_true_eq] at havail
      exact st.trySendRequest_visit pid out ⟨havail.1.1, by simp, fun _ _ => havail.2⟩

theorem DiscoveryBehavior.visitInboundMsg_visit (b : DiscoveryBehavior) (pid : PeerId) (st : InitiatorState)
    (out : OutboundQueue) : Visit pid st out (b.visitInboundMsg st).2 out := by
  unfold visitInboundMsg
  split
  · unfold tryTakePeers
    split
    · next hp => exact (Move.takePeers hp).silent rfl out
    · exact .refl pid st out
  · exact .refl pid st out

theorem BlockFetchBehavior.serveNext_visit (b : BlockFetchBehavior) (pid : PeerId) (st : InitiatorState)
    (out : OutboundQueue) : Visit pid st out (b.serveNext pid st out).2.1 (b.serveNext pid st out).2.2 := by
  unfold serveNext
  split
  · exact .refl pid st out
  · next havail =>
    simp only [peerIsAvailable, Bool.not_eq_true', Bool.not_eq_false, Bool.and_eq_true, decide_eq_true_eq] at havail
    split
    · exact .refl pid st out
    · next request rest _ =>
      have hm : st.MayAsk (.blockFetch (.requestRange request)) := ⟨havail.1.1, by simp, by simp⟩
      have hvisit := st.trySendRequest_visit pid out hm
      rcases st.trySendRequest_cases pid (.blockFetch (.requestRange request)) out with h | ⟨unsent, -, -, h⟩
      · rw [h]
        exact .refl pid st out
      · rw [h] at hvisit ⊢
        exact hvisit

theorem BlockFetchBehavior.visitInboundMsg_visit (b : BlockFetchBehavior) (pid : PeerId) (st : InitiatorState)
    (out : OutboundQueue) : Visit pid st out (b.visitInboundMsg pid st out).2.1 (b.visitInboundMsg pid st out).2.2 := by
  have hbody : Visit pid st out st (dispatchBlock pid st out) := by
    unfold dispatchBlock
    split
    · next hb => exact (Move.body hb).visit rfl out
    · exact .refl pid st out
  have hsettle : ∀ out, Visit pid st out (settleInFlight st) out := by
    intro out
    unfold settleInFlight
    split
    · exact (Move.inFlight none).silent rfl out
    · exact .refl pid st out
  exact (hbody.trans (hsettle _)).trans (serveNext_visit b pid _ _)

theorem BlockFetchBehavior.visitOutboundMsg_visit (pid : PeerId) (st : InitiatorState) (out : OutboundQueue) :
    Visit pid st out (visitOutboundMsg st) out := by
  unfold visitOutboundMsg
  split
  · exact (Move.inFlight _).silent rfl out
  · exact .refl pid st out

/-- What `drainData` pushes does not depend on the queue. -/
theorem ChainSyncBehavior.drainData_visit (pid : PeerId) (st : InitiatorState) (out : OutboundQueue)
    (hn : st.chainsync.isNew = false) : Visit pid st out (drainData pid st out).1 (drainData pid st out).2 := by
  have heq : drainData pid st out = ((drainData pid st []).1, out ++ (drainData pid st []).2) := by
    unfold drainData
    split
    · simp
    · split <;> simp
  rw [heq]
  exact (Move.header hn).visit (drainData_frame pid st []).promotion out

theorem ChainSyncBehavior.visitInboundMsg_visit (b : ChainSyncBehavior) (pid : PeerId) (st : InitiatorState)
    (out : OutboundQueue) : Visit pid st out (b.visitInboundMsg pid st out).1 (b.visitInboundMsg pid st out).2 := by
  unfold visitInboundMsg
  split
  · exact .refl pid st out
  · next hn =>
    exact (drainData_visit pid st out (by simpa [peerIsSyncing] using hn)).trans
      (InitiatorState.trySendDeferredNext_visit _ pid _)

theorem ChainSyncBehavior.visitHousekeeping_visit (b : ChainSyncBehavior) (pid : PeerId) (st : InitiatorState)
    (out : OutboundQueue) : Visit pid st out (b.visitHousekeeping pid st out).1 (b.visitHousekeeping pid st out).2 := by
  unfold visitHousekeeping
  split
  · exact .refl pid st out
  · split
    · exact .refl pid st out
    · next hsync =>
      split
      · exact .refl pid st out
      · simp only [peerShouldSync, Bool.not_eq_true', Bool.not_eq_false, Bool.and_eq_true, decide_eq_true_eq] at hsync
        exact st.trySendRequest_visit pid out ⟨hsync.1, by simp, by simp⟩

theorem LeiosNotifyBehavior.visitInboundMsg_visit (b : LeiosNotifyBehavior) (pid : PeerId) (st : InitiatorState)
    (out : OutboundQueue) : Visit pid st out (b.visitInboundMsg pid st out).1 (b.visitInboundMsg pid st out).2 := by
  have heq : b.visitInboundMsg pid st out = ((dispatch pid st []).1, out ++ (dispatch pid st []).2) := by
    unfold visitInboundMsg dispatch
    split <;> simp
  rw [heq]
  exact Move.notification.visit (b.visitInboundMsg_frame pid st []).promotion out

theorem LeiosNotifyBehavior.visitHousekeeping_visit (b : LeiosNotifyBehavior) (pid : PeerId) (st : InitiatorState)
    (out : OutboundQueue) : Visit pid st out (b.visitHousekeeping pid st out).1 (b.visitHousekeeping pid st out).2 := by
  unfold visitHousekeeping
  split
  · exact .refl pid st out
  · next hready =>
    split
    · simp only [peerReady, InitiatorState.isInitialized, Bool.not_eq_true', Bool.not_eq_false, Bool.and_eq_true,
        decide_eq_true_eq] at hready
      exact st.trySendRequest_visit pid out ⟨hready.1, by simp, by simp⟩
    · exact .refl pid st out

theorem LeiosFetchBehavior.serveNext_visit (b : LeiosFetchBehavior) (pid : PeerId) (st : InitiatorState)
    (out : OutboundQueue) : Visit pid st out (b.serveNext pid st out).2.1 (b.serveNext pid st out).2.2 := by
  unfold serveNext
  split
  · exact .refl pid st out
  · next havail =>
    simp only [peerIsAvailable, InitiatorState.isInitialized, Bool.not_eq_true', Bool.not_eq_false, Bool.and_eq_true,
      decide_eq_true_eq] at havail
    split
    · exact .refl pid st out
    · next request _ =>
      have hm : st.MayAsk request.requestMsg := by
        refine ⟨havail.1.1.1, ?_, ?_⟩ <;> cases request <;> simp [FetchRequest.requestMsg]
      have hvisit := st.trySendRequest_visit pid out hm
      rcases st.trySendRequest_cases pid request.requestMsg out with h | ⟨unsent, -, -, h⟩
      · rw [h]
        exact .refl pid st out
      · rw [h] at hvisit ⊢
        exact hvisit

theorem LeiosFetchBehavior.visitInboundMsg_visit (b : LeiosFetchBehavior) (pid : PeerId) (st : InitiatorState)
    (out : OutboundQueue) : Visit pid st out (b.visitInboundMsg pid st out).2.1 (b.visitInboundMsg pid st out).2.2 := by
  have hdispatch : Visit pid st out (dispatch pid st out).1 (dispatch pid st out).2 := by
    have heq : dispatch pid st out = ((dispatch pid st []).1, out ++ (dispatch pid st []).2) := by
      unfold dispatch
      split <;> simp
    have hpromotion : (dispatch pid st []).1.promotion = st.promotion := by
      unfold dispatch
      split <;> rfl
    rw [heq]
    exact Move.fetched.visit hpromotion out
  exact hdispatch.trans (serveNext_visit b pid _ _)

namespace SubBehaviors
variable {subs : SubBehaviors} {r : SubBehaviors × InitiatorState}

/-- The promotion visitor categorizes the peer, and the visitors after it leave the tag alone. -/
def Tends (pid : PeerId) (subs : SubBehaviors) (st : InitiatorState) (r : SubBehaviors × InitiatorState) : Prop :=
  ∃ p, subs.promotion.categorizePeer pid st = .ok p ∧ r.1.promotion = p.1 ∧ r.1.handshake = subs.handshake ∧
    Visit pid p.2 subs.outbound r.2 r.1.outbound

theorem Tends.moves (h : Tends pid subs st r) :
    r.1.handshake = subs.handshake ∧ ∃ outs, r.1.outbound = subs.outbound ++ outs ∧ Moves pid st outs r.2 := by
  obtain ⟨p, hp, -, hhandshake, outs, hout, hmoves⟩ := h
  refine ⟨hhandshake, outs, hout, ?_⟩
  obtain ⟨tag, htag⟩ := PromotionBehavior.categorizePeer_state hp
  have hpromote : Moves pid st [] p.2 := htag ▸ (Move.promote tag).moves
  exact hpromote.trans hmoves.moves

theorem visitInboundMsg_tends (h : subs.visitInboundMsg pid st = .ok r) : Tends pid subs st r := by
  unfold visitInboundMsg at h
  obtain ⟨p, hp, h⟩ := Outcome.bind_eq_ok.1 h
  obtain rfl := Outcome.ok.inj h
  refine ⟨p, hp, rfl, rfl, ?_⟩
  have hhandshake := subs.handshake.visitInboundMsg_visit pid p.2 subs.outbound
  have hdiscovery := subs.discovery.visitInboundMsg_visit pid
    (subs.handshake.visitInboundMsg pid p.2 subs.outbound).1 (subs.handshake.visitInboundMsg pid p.2 subs.outbound).2
  exact hhandshake.trans (hdiscovery.trans
    ((subs.blockfetch.visitInboundMsg_visit pid _ _).trans ((subs.chainsync.visitInboundMsg_visit pid _ _).trans
      ((subs.leiosnotify.visitInboundMsg_visit pid _ _).trans (subs.leiosfetch.visitInboundMsg_visit pid _ _)))))

theorem visitHousekeeping_tends (h : subs.visitHousekeeping pid st = .ok r) : Tends pid subs st r := by
  unfold visitHousekeeping at h
  obtain ⟨p, hp, h⟩ := Outcome.bind_eq_ok.1 h
  obtain ⟨d, hd, h⟩ := Outcome.bind_eq_ok.1 h
  obtain rfl := Outcome.ok.inj h
  refine ⟨p, hp, rfl, rfl, ?_⟩
  have hconnection := subs.connection.visitHousekeeping_visit pid p.2 subs.outbound
  have hkeepalive := subs.keepalive.visitHousekeeping_visit pid
    (subs.connection.visitHousekeeping pid p.2 subs.outbound).1
      (subs.connection.visitHousekeeping pid p.2 subs.outbound).2
  have hdiscovery := DiscoveryBehavior.visitHousekeeping_visit hd
  exact hconnection.trans (hkeepalive.trans (hdiscovery.trans
    ((subs.blockfetch.serveNext_visit pid _ _).trans ((subs.chainsync.visitHousekeeping_visit pid _ _).trans
      ((subs.leiosnotify.visitHousekeeping_visit pid _ _).trans (subs.leiosfetch.serveNext_visit pid _ _))))))

end SubBehaviors

end Pallas.Network2
