import Pallas.Network2.Frames

/-!
# The limits of promotion, and the subtractions that rest on them

A peer is promoted only while its new set has room, and a promotion takes it out of the old set in the same breath, so no
set outgrows its limit and the three sets together do not outgrow `max_peers`. Every other path only shrinks the sets.
This is what makes the subtractions safe: `max_peers - total` and its like are taken while the limits hold, also in the
middle of a sweep over the peers. What is left that can panic is two things that are no subtraction (`Asserts`).
-/

namespace Pallas.Network2
open Outcome

/-- No set is over its limit. -/
structure PromotionBehavior.InLimits (b : PromotionBehavior) : Prop where
  total : b.totalPeers ≤ b.config.maxPeers
  warm : b.warmPeers.card ≤ b.config.maxWarmPeers
  hot : b.hotPeers.card ≤ b.config.maxHotPeers

theorem usizeSub_ensures {a b : ℕ} (h : b ≤ a) : (usizeSub a b).Ensures (· = a - b) := by
  simp [usizeSub, h]

variable {pid : PeerId} {st : InitiatorState}

/-! ### Promotion -/

namespace PromotionBehavior
variable {b : PromotionBehavior}

theorem InLimits.deficits (h : b.InLimits) :
    b.peerDeficit ≠ .panic ∧ b.requiredColdPeers ≠ .panic ∧ b.requiredWarmPeers ≠ .panic ∧
      b.requiredHotPeers ≠ .panic :=
  ⟨(usizeSub_ensures h.total).1, (usizeSub_ensures h.total).1, (usizeSub_ensures h.warm).1, (usizeSub_ensures h.hot).1⟩

theorem banPeer_inLimits (h : b.InLimits) : (b.banPeer pid st).1.InLimits := by
  have hcold := Finset.card_erase_le (s := b.coldPeers) (a := pid)
  have hwarm := Finset.card_erase_le (s := b.warmPeers) (a := pid)
  have hhot := Finset.card_erase_le (s := b.hotPeers) (a := pid)
  obtain ⟨h1, h2, h3⟩ := h
  simp only [totalPeers] at h1
  refine ⟨?_, hwarm.trans h2, hhot.trans h3⟩
  simp only [banPeer, totalPeers]
  omega

theorem promoteColdPeer_inLimits (h : b.InLimits) (hroom : b.warmPeers.card < b.config.maxWarmPeers) :
    (b.promoteColdPeer pid st).1.InLimits := by
  unfold promoteColdPeer
  split
  · next hp =>
    have hcold := Finset.card_erase_add_one hp
    have hwarm := Finset.card_insert_le pid b.warmPeers
    obtain ⟨h1, -, h3⟩ := h
    simp only [totalPeers] at h1
    refine ⟨?_, ?_, h3⟩
    · simp only [totalPeers]
      omega
    · change (insert pid b.warmPeers).card ≤ b.config.maxWarmPeers
      omega
  · exact h

theorem promoteWarmPeer_inLimits (h : b.InLimits) (hroom : b.hotPeers.card < b.config.maxHotPeers) :
    (b.promoteWarmPeer pid st).1.InLimits := by
  unfold promoteWarmPeer
  split
  · next hp =>
    have hwarm := Finset.card_erase_add_one hp
    have hhot := Finset.card_insert_le pid b.hotPeers
    obtain ⟨h1, h2, -⟩ := h
    simp only [totalPeers] at h1
    refine ⟨?_, ?_, ?_⟩
    · simp only [totalPeers]
      omega
    · change (b.warmPeers.erase pid).card ≤ b.config.maxWarmPeers
      omega
    · change (insert pid b.hotPeers).card ≤ b.config.maxHotPeers
      omega
  · exact h

theorem categorizePeer_ensures (h : b.InLimits) : (b.categorizePeer pid st).Ensures fun r => r.1.InLimits := by
  unfold categorizePeer
  split
  · exact ensures_ok.2 (banPeer_inLimits h)
  · split
    · exact ensures_ok.2 (banPeer_inLimits h)
    · refine (usizeSub_ensures h.warm).bind fun warm hwarm => ?_
      split
      · next hc => exact ensures_ok.2 (promoteColdPeer_inLimits h (by omega))
      · refine (usizeSub_ensures h.hot).bind fun hot hhot => ?_
        split
        · next hc => exact ensures_ok.2 (promoteWarmPeer_inLimits h (by omega))
        · exact ensures_ok.2 h

theorem onPeerDiscovered_ensures (h : b.InLimits) : (b.onPeerDiscovered pid st).Ensures fun r => r.1.InLimits := by
  unfold onPeerDiscovered
  split
  · exact ensures_ok.2 h
  · refine (usizeSub_ensures h.total).bind fun cold hcold => ?_
    split
    · have hinsert := Finset.card_insert_le pid b.coldPeers
      obtain ⟨h1, h2, h3⟩ := h
      simp only [totalPeers] at h1 hcold
      refine ensures_ok.2 ⟨?_, h2, h3⟩
      simp only [totalPeers]
      omega
    · exact ensures_ok.2 h

end PromotionBehavior

/-- The amount of peers to ask for is taken after the test that more are needed. -/
theorem DiscoveryBehavior.visitHousekeeping_ensures (self : DiscoveryBehavior) (pid : PeerId) (st : InitiatorState)
    (out : OutboundQueue) : (self.visitHousekeeping pid st out).Ensures fun _ => True := by
  unfold visitHousekeeping
  split
  · exact ensures_ok.2 trivial
  · next hmore =>
    split
    · exact ensures_ok.2 trivial
    · have hlt : self.discovered.card < self.highWaterMark.toNat := by simpa [needsMorePeers] using hmore
      exact (usizeSub_ensures hlt.le).bind fun _ _ => ensures_ok.2 trivial

namespace SubBehaviors
variable {subs : SubBehaviors}

theorem visitInboundMsg_ensures (h : subs.promotion.InLimits) :
    (subs.visitInboundMsg pid st).Ensures fun r => r.1.promotion.InLimits :=
  (PromotionBehavior.categorizePeer_ensures h).bind fun _ hp => ensures_ok.2 hp

theorem visitHousekeeping_ensures (h : subs.promotion.InLimits) :
    (subs.visitHousekeeping pid st).Ensures fun r => r.1.promotion.InLimits :=
  (PromotionBehavior.categorizePeer_ensures h).bind fun _ hp =>
    (DiscoveryBehavior.visitHousekeeping_ensures _ _ _ _).bind fun _ _ => ensures_ok.2 hp

end SubBehaviors

/-! ### The initiator -/

namespace InitiatorBehavior
variable {s t : InitiatorBehavior}

theorem modifyPeer_ensures {f : SubBehaviors → InitiatorState → Call (SubBehaviors × InitiatorState)}
    (h : s.promotion.InLimits)
    (hf : ∀ st, s.peers.lookup pid = some st → (f s.toSubBehaviors st).Ensures fun r => r.1.promotion.InLimits) :
    (s.modifyPeer pid f).Ensures fun t => t.promotion.InLimits := by
  unfold modifyPeer
  split
  · exact ensures_ok.2 h
  · next st hl => exact (hf st hl).bind fun _ hr => ensures_ok.2 hr

theorem serveBlockFetch_ensures (h : s.promotion.InLimits) (iter : List PeerId) :
    (s.serveBlockFetch iter).Ensures fun t => t.promotion.InLimits := by
  refine fold_ensures (P := fun s : InitiatorBehavior => s.promotion.InLimits) (fun s pid h => ?_) h iter
  split
  · exact ensures_ok.2 h
  · exact modifyPeer_ensures h fun _ _ => ensures_ok.2 h

theorem onInboundMsgs_ensures (h : s.promotion.InLimits) (pid : PeerId) (msgs : List AnyMessage) :
    (s.onInboundMsgs pid msgs).Ensures fun t => t.promotion.InLimits :=
  fold_ensures (P := fun s : InitiatorBehavior => s.promotion.InLimits)
    (fun _ _ h => modifyPeer_ensures h fun _ _ => SubBehaviors.visitInboundMsg_ensures h) h msgs

theorem modifyPeer_pure_ensures {f : SubBehaviors → InitiatorState → SubBehaviors × InitiatorState}
    (h : s.promotion.InLimits) (hf : ∀ subs st, (f subs st).1.promotion = subs.promotion) :
    (s.modifyPeer pid fun subs st => .ok (f subs st)).Ensures fun t => t.promotion.InLimits := by
  refine modifyPeer_ensures h fun st _ => ensures_ok.2 ?_
  rw [hf]
  exact h

theorem onOutboundMsg_ensures (h : s.promotion.InLimits) (pid : PeerId) (msg : AnyMessage) :
    (s.onOutboundMsg pid msg).Ensures fun t => t.promotion.InLimits :=
  modifyPeer_pure_ensures h fun _ _ => rfl

theorem onTagged_ensures (h : s.promotion.InLimits) (pid : PeerId) (tagger : InitiatorState → InitiatorState) :
    (s.onTagged pid tagger).Ensures fun t => t.promotion.InLimits :=
  modifyPeer_pure_ensures h fun _ _ => rfl

theorem serveLeiosFetch_ensures (h : s.promotion.InLimits) (pid : PeerId) :
    (s.serveLeiosFetch pid).Ensures fun t => t.promotion.InLimits := by
  refine modifyPeer_ensures h fun st _ => ?_
  exact ensures_ok.2 h

theorem onDisconnected_ensures (h : s.promotion.InLimits) (iter : List PeerId) (pid : PeerId) :
    (s.onDisconnected iter pid).Ensures fun t => t.promotion.InLimits := by
  refine (modifyPeer_ensures h fun st _ => ?_).bind fun u hu => serveBlockFetch_ensures hu iter
  exact ensures_ok.2 h

theorem onDiscovered_ensures (h : s.promotion.InLimits) (pid : PeerId) :
    (s.onDiscovered pid).Ensures fun t => t.promotion.InLimits := by
  have hvisit : (s.toSubBehaviors.visitDiscovered pid .new).Ensures fun r => r.1.promotion.InLimits :=
    (PromotionBehavior.onPeerDiscovered_ensures h).bind fun _ hp => ensures_ok.2 hp
  exact hvisit.bind fun _ hr => ensures_ok.2 hr

theorem housekeeping_ensures (h : s.promotion.InLimits) (iter : Iteration) :
    (s.housekeeping iter).Ensures fun t => t.promotion.InLimits := by
  have hvisits : (fold (fun (self : InitiatorBehavior) pid =>
      self.modifyPeer pid fun subs state => subs.visitHousekeeping pid state) s iter.peers).Ensures
      fun t => t.promotion.InLimits :=
    fold_ensures (fun s pid h => modifyPeer_ensures h fun _ _ => SubBehaviors.visitHousekeeping_ensures h) h _
  refine hvisits.bind fun u hu => ?_
  refine (usizeSub_ensures hu.total).bind fun deficit _ => ?_
  split
  · exact ensures_ok.2 hu
  · let start : InitiatorBehavior := { u with discovery := (u.discovery.drainNewPeers iter.discovered deficit).2 }
    refine fold_ensures (P := fun s : InitiatorBehavior => s.promotion.InLimits) (s := start) (fun s pid h => ?_) hu _
    split
    · exact ensures_ok.2 h
    · exact onDiscovered_ensures h pid

/-- The panics that are left: the `assert!` that no handshake is under way on a new connection, and the error count
of a peer. -/
def Asserts (s : InitiatorBehavior) : Input → Prop
  | .io (.connected pid) => ∃ st, s.peers.lookup pid = some st ∧ st.handshake ≠ .propose
  | .io (.error pid _) => ∃ st, s.peers.lookup pid = some st ∧ st.errorCount.toNat + 1 = 2 ^ 32
  | _ => False

theorem onConnected_ensures (h : s.promotion.InLimits) (ha : ¬ s.Asserts (.io (.connected pid))) :
    (s.onConnected pid).Ensures fun t => t.promotion.InLimits := by
  refine modifyPeer_ensures h fun st hl => ?_
  have hpropose : st.handshake = .propose := by
    by_contra hne
    exact ha ⟨st, hl, hne⟩
  have hvisit : (s.handshake.visitConnected pid { st with connection := .connected } s.outbound).Ensures
      fun _ => True := by
    simp [HandshakeBehavior.visitConnected, HandshakeBehavior.proposeHandshake, hpropose]
  exact hvisit.bind fun _ _ => ensures_ok.2 h

theorem onErrored_ensures {text : String} (h : s.promotion.InLimits) (ha : ¬ s.Asserts (.io (.error pid text))) :
    (s.onErrored pid).Ensures fun t => t.promotion.InLimits := by
  refine modifyPeer_ensures h fun st hl => ?_
  have hlt : st.errorCount.toNat + 1 < 2 ^ 32 := by
    have := st.errorCount.toNat_lt
    have : st.errorCount.toNat + 1 ≠ 2 ^ 32 := fun he => ha ⟨st, hl, he⟩
    omega
  have hcount : (countError { st with connection := .errored }).Ensures fun _ => True := by
    rw [countError, if_pos hlt]
    exact ensures_ok.2 trivial
  exact hcount.bind fun _ _ => ensures_ok.2 h

theorem handle_ensures (h : s.promotion.InLimits) (iter : Iteration) {input : Input} (ha : ¬ s.Asserts input) :
    (s.handle iter input).Ensures fun t => t.promotion.InLimits := by
  cases input with
  | io event =>
    cases event with
    | connected pid => exact onConnected_ensures h ha
    | disconnected pid => exact onDisconnected_ensures h iter.peers pid
    | sent pid msg => exact onOutboundMsg_ensures h pid msg
    | recv pid msgs =>
      exact onInboundMsgs_ensures h pid msgs
    | error pid text => exact onErrored_ensures h ha
    | idle => exact housekeeping_ensures h iter
  | command cmd =>
    cases cmd with
    | includePeer pid =>
      simp only [handle, execute]
      split
      · exact onDiscovered_ensures h pid
      · exact ensures_ok.2 h
    | housekeeping => exact housekeeping_ensures h iter
    | startSync points => exact ensures_ok.2 h
    | continueSync pid => exact onTagged_ensures h pid _
    | requestBlocks range =>
      exact serveBlockFetch_ensures (s := { s with blockfetch := s.blockfetch.enqueue range }) h iter.peers
    | sendTx pid id body => exact ensures_ok.2 h
    | fetchEb pid eb => exact serveLeiosFetch_ensures (s := { s with leiosfetch := s.leiosfetch.enqueue pid (.block eb) }) h pid
    | fetchEbTxs pid eb bitmaps => exact serveLeiosFetch_ensures (s := { s with leiosfetch := s.leiosfetch.enqueue pid (.blockTxs eb bitmaps) }) h pid
    | banPeer pid => exact onTagged_ensures h pid _
    | demotePeer pid => exact onTagged_ensures h pid _

theorem handle_panics {iter : Iteration} {input : Input} (ha : s.Asserts input) : s.handle iter input = .panic := by
  cases input with
  | command cmd => exact ha.elim
  | io event =>
    cases event with
    | connected pid =>
      obtain ⟨st, hl, hne⟩ := ha
      simp [handle, handleIo, onConnected, modifyPeer, hl, SubBehaviors.visitConnected,
        HandshakeBehavior.visitConnected, HandshakeBehavior.proposeHandshake, hne]
    | error pid text =>
      obtain ⟨st, hl, he⟩ := ha
      simp [handle, handleIo, onErrored, modifyPeer, hl, countError, he]
    | disconnected pid => exact ha.elim
    | sent pid msg => exact ha.elim
    | recv pid msgs => exact ha.elim
    | idle => exact ha.elim

theorem Step.inLimits {input : Input} (h : s.Step input t) (hs : s.promotion.InLimits) : t.promotion.InLimits := by
  obtain ⟨iter, -, h⟩ := h
  have hasserts : ¬ ({ s with outbound := [] } : InitiatorBehavior).Asserts input := fun ha => by
    rw [handle_panics ha] at h
    cases h
  exact (handle_ensures (s := { s with outbound := [] }) hs iter hasserts).2 t h

theorem Init.inLimits (h : s.Init) : s.promotion.InLimits := by
  obtain ⟨config, handshake, rfl⟩ := h
  exact ⟨Nat.zero_le _, Nat.zero_le _, Nat.zero_le _⟩

/-- In every configuration and after every run, no set is over its limit and no deficit is negative, and the next input,
in whatever order it goes through the peers, panics at the assertion on the handshake or the error count only: at no
subtraction. -/
theorem promotion_inLimits {tr : List (Transition InitiatorBehavior Input)} (h : Run Init Step tr s) :
    s.promotion.InLimits ∧
      (s.promotion.peerDeficit ≠ .panic ∧ s.promotion.requiredColdPeers ≠ .panic ∧
        s.promotion.requiredWarmPeers ≠ .panic ∧ s.promotion.requiredHotPeers ≠ .panic) ∧
      ∀ iter input, { s with outbound := [] : InitiatorBehavior }.handle iter input = .panic ↔ s.Asserts input := by
  have hs : s.promotion.InLimits :=
    h.invariant (P := fun s => s.promotion.InLimits) (K := fun _ => True) (fun _ hinit => Init.inLimits hinit)
      (fun _ _ _ hs _ hstep => Step.inLimits hstep hs) fun _ _ => trivial
  refine ⟨hs, hs.deficits, fun iter input => ⟨fun hpanic => ?_, fun ha => handle_panics ha⟩⟩
  by_contra ha
  exact (handle_ensures (s := { s with outbound := [] }) hs iter ha).1 hpanic

/-- A peer is included and promoted where there is room for one. -/
theorem promotion_inLimits_one :
    ∃ tr s, Run Init Step tr s ∧ s.promotion.warmPeers.card = 1 ∧ s.promotion.InLimits := by
  have hplays : (new ⟨1, 1, 0, 0⟩ .default).plays
      [(⟨[], []⟩, .command (.includePeer ⟨"a", 1⟩)), (⟨[⟨"a", 1⟩], []⟩, .io .idle)]
      (fun _ s => s.promotion.warmPeers.card = 1) = true := by decide
  obtain ⟨tr, s, hrun, htest⟩ := exists_run_of_plays ⟨_, _, rfl⟩ hplays
  exact ⟨tr, s, hrun, of_decide_eq_true htest, (promotion_inLimits hrun).1⟩

end InitiatorBehavior
end Pallas.Network2
