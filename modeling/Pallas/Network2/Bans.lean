import Pallas.Network2.OnePeer
import Pallas.Network2.PromotionSets

/-!
# Banned peers

A peer is connected to while its tag is warm or hot, and it comes by such a tag out of the cold set, or as an initialized
one out of the warm set. `Away` says of a peer that neither can happen. Promotion bans a peer by putting it into the banned
set, out of all others, and it stays away for good. `BanPeer` writes the tag only, which is as good for a peer that
has left the cold set, until it is included again and finds room there.
-/

namespace Pallas.Network2

/-- The peer neither needs a connection nor waits for one in the cold set. -/
structure Away (b : PromotionBehavior) (pid : PeerId) (st : InitiatorState) : Prop where
  cold : pid ∉ b.coldPeers
  unneeded : needsConnection st = false

variable {pid : PeerId} {st st₁ : InitiatorState} {out outs : OutboundQueue}

theorem needsConnection_congr (hc : st₁.connection = st.connection) (hp : st₁.promotion = st.promotion) :
    needsConnection st₁ = needsConnection st := by
  rw [needsConnection, needsConnection, hc, hp]

theorem needsConnection_cold (h : st.promotion = .cold) : needsConnection st = false := by
  unfold needsConnection
  split <;> simp [h]

theorem needsConnection_banned (h : st.promotion = .banned) : needsConnection st = false := by
  unfold needsConnection
  split <;> simp [h]

theorem ChainSyncBehavior.drainData_connection : (drainData pid st out).1.connection = st.connection := by
  unfold drainData
  split
  · rfl
  · split <;> rfl

/-! ### Visitors -/

theorem Move.unneeded (h : Move pid st out st₁) (hp : st₁.promotion = st.promotion) (hn : needsConnection st = false) :
    needsConnection st₁ = false ∧ .interfaceCommand (.connect pid) ∉ out := by
  have hcongr : st₁.connection = st.connection → needsConnection st₁ = false := fun hc =>
    (needsConnection_congr hc hp).trans hn
  cases h with
  | connect hneeds =>
    rw [hn] at hneeds
    cases hneeds
  | confirmed hc hd => exact ⟨rfl, by simp⟩
  | header _ =>
    refine ⟨hcongr ChainSyncBehavior.drainData_connection, ?_⟩
    unfold ChainSyncBehavior.drainData
    split
    · simp
    · split <;> simp
  | notification =>
    refine ⟨hcongr ?_, ?_⟩
    · unfold LeiosNotifyBehavior.dispatch
      split <;> rfl
    · unfold LeiosNotifyBehavior.dispatch
      split <;> simp
  | fetched =>
    refine ⟨hcongr ?_, ?_⟩
    · unfold LeiosFetchBehavior.dispatch
      split <;> rfl
    · unfold LeiosFetchBehavior.dispatch
      split <;> simp
  | _ => exact ⟨hcongr rfl, by simp⟩

theorem PlainMoves.unneeded (h : PlainMoves pid st outs st₁) (hn : needsConnection st = false) :
    needsConnection st₁ = false ∧ .interfaceCommand (.connect pid) ∉ outs := by
  induction h with
  | refl => exact ⟨hn, by simp⟩
  | snoc _ hmove hp ih =>
    obtain ⟨hn₁, hquiet⟩ := ih
    obtain ⟨hn₂, hquiet'⟩ := hmove.unneeded hp hn₁
    exact ⟨hn₂, by simp [hquiet, hquiet']⟩

/-- Categorizing puts no peer into the cold set, a peer into the banned set only away from the others, and leaves one that
is away there. -/
theorem PromotionBehavior.categorizePeer_away {b : PromotionBehavior} {p : PromotionBehavior × InitiatorState}
    (h : b.categorizePeer pid st = .ok p) :
    p.1.coldPeers ⊆ b.coldPeers ∧ (∀ x ∈ p.1.bannedPeers, x ∈ b.bannedPeers ∨ x = pid ∧ Away p.1 pid p.2) ∧
      (Away b pid st → Away p.1 pid p.2) := by
  have hbanned : Away (b.banPeer pid st).1 pid (b.banPeer pid st).2 :=
    ⟨Finset.notMem_erase _ _, needsConnection_banned rfl⟩
  have hban : (b.banPeer pid st).1.coldPeers ⊆ b.coldPeers ∧ (∀ x ∈ (b.banPeer pid st).1.bannedPeers,
      x ∈ b.bannedPeers ∨ x = pid ∧ Away (b.banPeer pid st).1 pid (b.banPeer pid st).2) ∧
      (Away b pid st → Away (b.banPeer pid st).1 pid (b.banPeer pid st).2) := by
    refine ⟨Finset.erase_subset _ _, fun x hx => ?_, fun _ => hbanned⟩
    rcases Finset.mem_insert.1 hx with rfl | hx
    · exact .inr ⟨rfl, hbanned⟩
    · exact .inl hx
  unfold categorizePeer at h
  split at h
  · cases h
    exact hban
  · split at h
    · cases h
      exact hban
    · obtain ⟨warm, -, h⟩ := Outcome.bind_eq_ok.1 h
      split at h
      · next hc =>
        cases h
        simp only [promoteColdPeer, hc.2, if_true]
        exact ⟨Finset.erase_subset _ _, fun x => .inl, fun ha => absurd hc.2 ha.cold⟩
      · obtain ⟨hot, -, h⟩ := Outcome.bind_eq_ok.1 h
        split at h
        · next hw =>
          cases h
          simp only [promoteWarmPeer, hw.2.1, if_true]
          have hinitialized : st.connection = .initialized := by simpa [InitiatorState.isInitialized] using hw.2.2
          refine ⟨Finset.Subset.refl _, fun x => .inl, fun ha => ⟨ha.cold, ?_⟩⟩
          simp [needsConnection, hinitialized]
        · cases h
          exact ⟨Finset.Subset.refl _, fun x => .inl, id⟩

/-- A visit of `pid`: what it pushes is about the peer, and as long as that is away it is no `Connect`. -/
structure SubBehaviors.Shuns (pid : PeerId) (subs : SubBehaviors) (st : InitiatorState)
    (r : SubBehaviors × InitiatorState) : Prop where
  cold : r.1.promotion.coldPeers ⊆ subs.promotion.coldPeers
  banned : ∀ x ∈ r.1.promotion.bannedPeers,
    x ∈ subs.promotion.bannedPeers ∨ x = pid ∧ Away r.1.promotion pid r.2
  away : Away subs.promotion pid st → Away r.1.promotion pid r.2
  pushed : ∃ outs, r.1.outbound = subs.outbound ++ outs ∧ (∀ o ∈ outs, o.peer = pid) ∧
    (Away subs.promotion pid st → .interfaceCommand (.connect pid) ∉ outs)

namespace SubBehaviors
variable {subs : SubBehaviors} {r : SubBehaviors × InitiatorState}

theorem Tends.shuns (h : Tends pid subs st r) : Shuns pid subs st r := by
  obtain ⟨p, hp, hpromotion, -, outs, hout, hmoves⟩ := h
  obtain ⟨hcold, hbanned, haway⟩ := PromotionBehavior.categorizePeer_away hp
  have hstays : ∀ b : PromotionBehavior, Away b pid p.2 → Away b pid r.2 := fun b ha =>
    ⟨ha.cold, (hmoves.unneeded ha.unneeded).1⟩
  rw [← hpromotion] at hcold hbanned haway
  refine ⟨hcold, fun x hx => ?_, fun ha => hstays _ (haway ha), outs, hout, hmoves.moves.about, fun ha => ?_⟩
  · rcases hbanned x hx with hx | ⟨hx, ha⟩
    · exact .inl hx
    · exact .inr ⟨hx, hstays _ ha⟩
  · exact (hmoves.unneeded (haway ha).unneeded).2

theorem shuns_of_promotion (hp : r.1.promotion = subs.promotion) (hout : r.1.outbound = subs.outbound ++ outs)
    (habout : ∀ o ∈ outs, o.peer = pid)
    (hn : needsConnection st = false → needsConnection r.2 = false ∧ .interfaceCommand (.connect pid) ∉ outs) :
    Shuns pid subs st r := by
  refine ⟨hp ▸ Finset.Subset.refl _, fun x hx => .inl (hp ▸ hx), fun ha => ?_, outs, hout, habout, fun ha => ?_⟩
  · rw [hp]
    exact ⟨ha.cold, (hn ha.unneeded).1⟩
  · exact (hn ha.unneeded).2

/-- What is done to the peer before the visit. -/
theorem Shuns.after (h : Shuns pid subs st₁ r) (hn : needsConnection st₁ = needsConnection st) :
    Shuns pid subs st r := by
  have haway : Away subs.promotion pid st → Away subs.promotion pid st₁ := fun ha => ⟨ha.cold, hn.trans ha.unneeded⟩
  obtain ⟨outs, hout, habout, hquiet⟩ := h.pushed
  exact ⟨h.cold, h.banned, fun ha => h.away (haway ha), outs, hout, habout, fun ha => hquiet (haway ha)⟩

end SubBehaviors

/-! ### One input -/

namespace InitiatorBehavior
variable {s t : InitiatorBehavior} {H : Finset PeerId}

/-- The peers of `H` and the banned ones are tracked and away, and none of `H` is being connected to. -/
structure Shunned (H : Finset PeerId) (s : InitiatorBehavior) : Prop where
  away : ∀ x, x ∈ H ∨ x ∈ s.promotion.bannedPeers → ∃ st, s.peers.lookup x = some st ∧ Away s.promotion x st
  quiet : ∀ x ∈ H, .interfaceCommand (.connect x) ∉ s.outbound

theorem modifyPeer_shunned {f : SubBehaviors → InitiatorState → Call (SubBehaviors × InitiatorState)}
    (hf : ∀ st r, s.peers.lookup pid = some st → f s.toSubBehaviors st = .ok r →
      SubBehaviors.Shuns pid s.toSubBehaviors st r)
    (h : s.modifyPeer pid f = .ok t) (hs : s.Shunned H) : t.Shunned H := by
  rcases modifyPeer_eq_ok.1 h with ⟨-, rfl⟩ | ⟨st, r, hl, hr, rfl⟩
  · exact hs
  · have hshuns := hf st r hl hr
    obtain ⟨outs, hout, habout, hquiet⟩ := hshuns.pushed
    have hself : ∀ x, x ∈ H ∨ x ∈ s.promotion.bannedPeers → x = pid → Away s.promotion pid st := fun x hx hxp => by
      obtain ⟨st', hl', ha⟩ := hs.away x hx
      rw [hxp, hl] at hl'
      exact Option.some.inj hl' ▸ hxp ▸ ha
    refine ⟨fun x hx => ?_, fun x hx hmem => ?_⟩
    · by_cases hxp : x = pid
      · subst hxp
        refine ⟨r.2, Finmap.lookup_insert _, ?_⟩
        rcases hx with hx | hx
        · exact hshuns.away (hself x (.inl hx) rfl)
        · rcases hshuns.banned x hx with hx | ⟨-, ha⟩
          · exact hshuns.away (hself x (.inr hx) rfl)
          · exact ha
      · have hx' : x ∈ H ∨ x ∈ s.promotion.bannedPeers :=
          hx.imp_right fun hx => (hshuns.banned x hx).resolve_right fun h => hxp h.1
        obtain ⟨st', hl', ha⟩ := hs.away x hx'
        exact ⟨st', (Finmap.lookup_insert_of_ne _ hxp).trans hl', fun hc => ha.cold (hshuns.cold hc), ha.unneeded⟩
    · have hpushed : .interfaceCommand (.connect x) ∈ s.outbound ++ outs := hout ▸ hmem
      rcases List.mem_append.1 hpushed with hold | hnew
      · exact hs.quiet x hx hold
      · obtain rfl : x = pid := habout _ hnew
        exact hquiet (hself x (.inl hx) rfl) hnew

theorem fold_shunned {ι : Type} {f : InitiatorBehavior → ι → Call InitiatorBehavior} {iter : List ι}
    (hf : ∀ b i b', f b i = .ok b' → b.Shunned H → b'.Shunned H) (h : Outcome.fold f s iter = .ok t)
    (hs : s.Shunned H) : t.Shunned H :=
  Outcome.fold_inv (fun _ b => b.Shunned H) (fun _ i b b' hb hstep => hf b i b' hstep hb) hs h

theorem onInboundMsgs_shunned {msgs : List AnyMessage} (h : s.onInboundMsgs pid msgs = .ok t) (hs : s.Shunned H) :
    t.Shunned H := by
  refine fold_shunned (fun b msg b' hb => modifyPeer_shunned (fun st r _ hr => ?_) hb) h hs
  exact (SubBehaviors.visitInboundMsg_tends hr).shuns.after (needsConnection_congr (by simp) (by simp))

theorem serveBlockFetch_shunned {iter : List PeerId} (h : s.serveBlockFetch iter = .ok t) (hs : s.Shunned H) :
    t.Shunned H := by
  refine fold_shunned (fun b pid b' hstep hb => ?_) h hs
  split at hstep
  · cases hstep
    exact hb
  · refine modifyPeer_shunned (fun st r _ hr => ?_) hstep hb
    obtain rfl := Outcome.ok.inj hr
    obtain ⟨outs, hout, hmoves⟩ := b.blockfetch.serveNext_visit pid st b.outbound
    exact SubBehaviors.shuns_of_promotion rfl hout hmoves.moves.about hmoves.unneeded

theorem serveLeiosFetch_shunned (h : s.serveLeiosFetch pid = .ok t) (hs : s.Shunned H) : t.Shunned H := by
  refine modifyPeer_shunned (fun st r _ hr => ?_) h hs
  obtain rfl := Outcome.ok.inj hr
  obtain ⟨outs, hout, hmoves⟩ := s.leiosfetch.serveNext_visit pid st s.outbound
  exact SubBehaviors.shuns_of_promotion rfl hout hmoves.moves.about hmoves.unneeded

theorem onConnected_shunned (h : s.onConnected pid = .ok t) (hs : s.Shunned H) : t.Shunned H := by
  refine modifyPeer_shunned (fun st r _ hr => ?_) h hs
  obtain ⟨out, hout, hr⟩ := Outcome.bind_eq_ok.1 hr
  obtain rfl := Outcome.ok.inj hr
  simp only [HandshakeBehavior.visitConnected, HandshakeBehavior.proposeHandshake] at hout
  split at hout
  · obtain rfl := Outcome.ok.inj hout
    exact SubBehaviors.shuns_of_promotion rfl rfl (by simp [BehaviorOutput.peer]) fun _ => ⟨rfl, by simp⟩
  · cases hout

theorem onOutboundMsg_shunned {msg : AnyMessage} (h : s.onOutboundMsg pid msg = .ok t) (hs : s.Shunned H) :
    t.Shunned H := by
  refine modifyPeer_shunned (fun st r _ hr => ?_) h hs
  obtain rfl := Outcome.ok.inj hr
  obtain ⟨outs, hout, hmoves⟩ :=
    BlockFetchBehavior.visitOutboundMsg_visit pid ((st.clearUnsent msg).applyMsg msg) s.outbound
  have hshuns : SubBehaviors.Shuns pid s.toSubBehaviors ((st.clearUnsent msg).applyMsg msg)
      (s.visitOutboundMsg ((st.clearUnsent msg).applyMsg msg)) :=
    SubBehaviors.shuns_of_promotion rfl hout hmoves.moves.about hmoves.unneeded
  exact hshuns.after (needsConnection_congr (by simp) (by simp))

theorem onErrored_shunned (h : s.onErrored pid = .ok t) (hs : s.Shunned H) : t.Shunned H := by
  refine modifyPeer_shunned (fun st r _ hr => ?_) h hs
  obtain ⟨st', hst, hr⟩ := Outcome.bind_eq_ok.1 hr
  obtain rfl := Outcome.ok.inj hr
  obtain rfl := countError_eq_ok hst
  obtain ⟨outs, hout, hmoves⟩ := ConnectionBehavior.disconnect_visit pid
    { st with connection := .errored, errorCount := st.errorCount + 1 } s.outbound
  exact SubBehaviors.shuns_of_promotion rfl hout hmoves.moves.about fun _ => hmoves.unneeded rfl

theorem onDisconnected_shunned {iter : List PeerId} (h : s.onDisconnected iter pid = .ok t) (hs : s.Shunned H) :
    t.Shunned H := by
  obtain ⟨u, hu, h⟩ := Outcome.bind_eq_ok.1 h
  refine serveBlockFetch_shunned h (modifyPeer_shunned (fun st r _ hr => ?_) hu hs)
  obtain rfl := Outcome.ok.inj hr
  exact SubBehaviors.shuns_of_promotion rfl (List.append_nil _).symm (by simp) fun _ => ⟨rfl, by simp⟩

theorem visitTagged_shuns (subs : SubBehaviors) (f : InitiatorState → InitiatorState)
    (hf : needsConnection st = false → needsConnection (f st) = false) :
    SubBehaviors.Shuns pid subs st (subs.visitTagged pid (f st)) := by
  have heq := subs.chainsync.visitTagged_eq pid (f st) subs.outbound
  refine @SubBehaviors.shuns_of_promotion _ _ (ChainSyncBehavior.default.visitTagged pid (f st) []).2 _ _ rfl ?_
    (ChainSyncBehavior.visitTagged_about _) fun hn => ?_
  · simp only [SubBehaviors.visitTagged, heq]
  · simp only [SubBehaviors.visitTagged, heq]
    unfold ChainSyncBehavior.visitTagged
    split
    · exact ⟨hf hn, by simp⟩
    · split
      · exact ⟨hf hn, by simp⟩
      · split
        · rcases (f st).trySendRequest_cases pid (.chainSync .requestNext) [] with h | ⟨unsent, -, -, h⟩
          · rw [h]
            exact ⟨(needsConnection_congr rfl rfl).trans (hf hn), by simp⟩
          · rw [h]
            exact ⟨(needsConnection_congr rfl rfl).trans (hf hn), by simp⟩
        · exact ⟨hf hn, by simp⟩

theorem onTagged_shunned {f : InitiatorState → InitiatorState}
    (hf : ∀ st, needsConnection st = false → needsConnection (f st) = false) (h : s.onTagged pid f = .ok t)
    (hs : s.Shunned H) : t.Shunned H := by
  refine modifyPeer_shunned (fun st r _ hr => ?_) h hs
  obtain rfl := Outcome.ok.inj hr
  exact visitTagged_shuns _ f (hf st)

theorem onDiscovered_shunned (h : s.onDiscovered pid = .ok t)
    (hcareful : pid ∈ H → pid ∈ s.promotion.bannedPeers ∨ ¬ s.HasRoom) (hs : s.Shunned H) : t.Shunned H := by
  obtain ⟨-, hout, hpeers⟩ := onDiscovered_eq h
  obtain ⟨p, hp, hpromotion, -⟩ := onDiscovered_cases h
  have hsame : t.promotion = s.promotion ∨ pid ∉ H ∧ pid ∉ s.promotion.bannedPeers ∧
      t.promotion = { s.promotion with coldPeers := insert pid s.promotion.coldPeers } := by
    rcases (PromotionBehavior.onPeerDiscovered_cases hp).2 with ⟨-, hset⟩ | ⟨hb, hroom, hset⟩ | ⟨-, -, hset⟩
    · exact .inl (hpromotion.trans hset)
    · exact .inr ⟨fun hH => (hcareful hH).elim hb fun hfull => hfull hroom, hb, hpromotion.trans hset⟩
    · exact .inl (hpromotion.trans hset)
  refine ⟨fun x hx => ?_, fun x hx => hout ▸ hs.quiet x hx⟩
  rcases hsame with hset | ⟨hH, hb, hset⟩
  · rw [hset] at hx ⊢
    obtain ⟨st, hl, ha⟩ := hs.away x hx
    rw [hpeers]
    by_cases hxp : x = pid
    · subst hxp
      exact ⟨.new, Finmap.lookup_insert _, ha.cold, rfl⟩
    · exact ⟨st, (Finmap.lookup_insert_of_ne _ hxp).trans hl, ha⟩
  · rw [hset] at hx ⊢
    have hxp : x ≠ pid := by
      rintro rfl
      exact hx.elim hH hb
    obtain ⟨st, hl, ha⟩ := hs.away x hx
    refine ⟨st, by rw [hpeers, Finmap.lookup_insert_of_ne _ hxp, hl], fun hc => ?_, ha.unneeded⟩
    exact ha.cold (Finset.mem_of_mem_insert_of_ne hc hxp)

theorem housekeeping_shunned {iter : Iteration} (h : s.housekeeping iter = .ok t) (hs : s.Shunned H) : t.Shunned H := by
  obtain ⟨u, hu, h⟩ := Outcome.bind_eq_ok.1 h
  have hvisits : u.Shunned H := fold_shunned
    (fun b pid b' hb => modifyPeer_shunned (fun _ _ _ hr => (SubBehaviors.visitHousekeeping_tends hr).shuns) hb) hu hs
  obtain ⟨deficit, -, h⟩ := Outcome.bind_eq_ok.1 h
  split at h
  · cases h
    exact hvisits
  · refine fold_shunned (fun b pid b' hstep hb => ?_) h ⟨hvisits.away, hvisits.quiet⟩
    split at hstep
    · cases hstep
      exact hb
    -- who is shunned is tracked, and who is tracked is not discovered
    · next hnew =>
      refine onDiscovered_shunned hstep (fun hH => ?_) hb
      obtain ⟨st, hl, -⟩ := hb.away pid (.inl hH)
      exact absurd (Finmap.mem_of_lookup_eq_some hl) hnew

/-! ### Whole runs -/

/-- The peers banned by a command or by promotion. -/
def bannedBy (x : Transition InitiatorBehavior Input) : Finset PeerId :=
  match x.input with
  | .command (.banPeer pid) => insert pid x.target.promotion.bannedPeers
  | _ => x.target.promotion.bannedPeers

/-- A peer is banned by a command only when it is tracked and has left the cold set, and is not included afresh after that
unless promotion turns it down. -/
def BansHold (H : Finset PeerId) (s : InitiatorBehavior) : Input → Prop
  | .command (.banPeer pid) => pid ∈ H ∨ pid ∈ s.peers ∧ pid ∉ s.promotion.coldPeers
  | .command (.includePeer pid) => pid ∈ H → s.isNewPeer pid = true → pid ∈ s.promotion.bannedPeers ∨ ¬ s.HasRoom
  | _ => True

instance BansHold.decidable (H : Finset PeerId) (s : InitiatorBehavior) : ∀ input, Decidable (s.BansHold H input)
  | .command (.banPeer pid) => inferInstanceAs (Decidable (pid ∈ H ∨ pid ∈ s.peers ∧ pid ∉ s.promotion.coldPeers))
  | .command (.includePeer pid) => inferInstanceAs (Decidable (pid ∈ H → s.isNewPeer pid = true →
      pid ∈ s.promotion.bannedPeers ∨ ¬ s.promotion.totalPeers < s.promotion.config.maxPeers))
  | .io _ | .command .housekeeping | .command (.startSync _) | .command (.continueSync _) | .command (.requestBlocks _)
  | .command (.sendTx ..) | .command (.fetchEb ..) | .command (.fetchEbTxs ..) | .command (.demotePeer _) =>
    inferInstanceAs (Decidable True)

/-- The record is of the peers banned so far. -/
def bansHold : Monitor InitiatorBehavior Input (Finset PeerId) where
  keep H x := H ∪ bannedBy x
  accept H x := x.source.BansHold H x.input

/-- No peer banned before is connected to. -/
def shunning : Monitor InitiatorBehavior Input (Finset PeerId) where
  keep := bansHold.keep
  accept H x := ∀ pid ∈ H, .interfaceCommand (.connect pid) ∉ x.target.outbound

instance (g : Finset PeerId) (x : Transition InitiatorBehavior Input) : Decidable (bansHold.accept g x) :=
  BansHold.decidable g x.source x.input

instance (g : Finset PeerId) (x : Transition InitiatorBehavior Input) : Decidable (shunning.accept g x) :=
  inferInstanceAs (Decidable (∀ pid ∈ g, .interfaceCommand (.connect pid) ∉ x.target.outbound))

theorem handle_shunned {iter : Iteration} {input : Input} (h : s.handle iter input = .ok t) (hs : s.Shunned H)
    (hb : s.BansHold H input) : t.Shunned H := by
  cases input with
  | io event =>
    cases event with
    | connected pid => exact onConnected_shunned h hs
    | disconnected pid => exact onDisconnected_shunned h hs
    | sent pid msg => exact onOutboundMsg_shunned h hs
    | recv pid msgs => exact onInboundMsgs_shunned h hs
    | error pid text => exact onErrored_shunned h hs
    | idle => exact housekeeping_shunned h hs
  | command cmd =>
    cases cmd with
    | includePeer pid =>
      simp only [handle, execute] at h
      split at h
      · next hnew => exact onDiscovered_shunned h (fun hH => hb hH hnew) hs
      · obtain rfl := Outcome.ok.inj h
        exact hs
    | housekeeping => exact housekeeping_shunned h hs
    | startSync points =>
      obtain rfl := Outcome.ok.inj h
      exact ⟨hs.away, hs.quiet⟩
    | continueSync pid =>
      have hf : ∀ st : InitiatorState, needsConnection { st with continueSync := true } = needsConnection st :=
        fun st => needsConnection_congr rfl rfl
      exact onTagged_shunned (fun st hn => (hf st).trans hn) h hs
    | requestBlocks range =>
      exact serveBlockFetch_shunned (s := { s with blockfetch := s.blockfetch.enqueue range }) h ⟨hs.away, hs.quiet⟩
    | sendTx pid id body =>
      obtain rfl := Outcome.ok.inj h
      exact hs
    | fetchEb pid eb =>
      exact serveLeiosFetch_shunned (s := { s with leiosfetch := s.leiosfetch.enqueue pid (.block eb) }) h
        ⟨hs.away, hs.quiet⟩
    | fetchEbTxs pid eb bitmaps =>
      exact serveLeiosFetch_shunned (s := { s with leiosfetch := s.leiosfetch.enqueue pid (.blockTxs eb bitmaps) }) h
        ⟨hs.away, hs.quiet⟩
    | banPeer pid => exact onTagged_shunned (fun st _ => needsConnection_banned rfl) h hs
    | demotePeer pid => exact onTagged_shunned (fun st _ => needsConnection_cold rfl) h hs

theorem banPeer_away (h : s.onTagged pid (fun st => { st with promotion := .banned }) = .ok t) (hl : pid ∈ s.peers)
    (hc : pid ∉ s.promotion.coldPeers) : ∃ st, t.peers.lookup pid = some st ∧ Away t.promotion pid st := by
  rcases modifyPeer_eq_ok.1 h with ⟨hnone, -⟩ | ⟨st, r, -, hr, rfl⟩
  · exact absurd hl (Finmap.lookup_eq_none.1 hnone)
  · obtain rfl := Outcome.ok.inj hr
    have htag := (s.chainsync.visitTagged_frame pid { st with promotion := .banned } s.outbound).promotion
    exact ⟨_, Finmap.lookup_insert _, hc, needsConnection_banned htag⟩

theorem Step.shunned {input : Input} (h : s.Step input t) (hb : s.BansHold H input) (hsub : s.promotion.bannedPeers ⊆ H)
    (haway : ∀ x ∈ H, ∃ st, s.peers.lookup x = some st ∧ Away s.promotion x st) :
    (∀ pid ∈ H, .interfaceCommand (.connect pid) ∉ t.outbound) ∧
      ∀ x ∈ H ∪ bannedBy ⟨s, input, t⟩, ∃ st, t.peers.lookup x = some st ∧ Away t.promotion x st := by
  obtain ⟨iter, -, h⟩ := h
  have hs : ({ s with outbound := [] } : InitiatorBehavior).Shunned H :=
    ⟨fun x hx => haway x (hx.elim id fun hx => hsub hx), by simp⟩
  have ht := handle_shunned h hs hb
  refine ⟨ht.quiet, fun x hx => ?_⟩
  rcases Finset.mem_union.1 hx with hx | hx
  · exact ht.away x (.inl hx)
  · unfold bannedBy at hx
    split at hx
    · next pid hinput =>
      obtain rfl : input = .command (.banPeer pid) := hinput
      rcases Finset.mem_insert.1 hx with rfl | hx
      · rcases hb with hH | ⟨hl, hc⟩
        · exact ht.away x (.inl hH)
        · exact banPeer_away h hl hc
      · exact ht.away x (.inr hx)
    · exact ht.away x (.inr hx)

/-- A peer once banned is not connected to in any step after that, if the commands keep `BansHold`. -/
theorem banned_not_connected {tr : List (Transition InitiatorBehavior Input)} (h : Run Init Step tr s)
    (hb : bansHold.Accepts ∅ tr) : shunning.Accepts ∅ tr := by
  let any : Monitor InitiatorBehavior Input (Finset PeerId) := ⟨bansHold.keep, fun _ _ => True⟩
  have hiff : shunning.Accepts ∅ tr ↔ any.Accepts ∅ tr := by
    refine Run.accepts_iff_under (E := bansHold) (M := shunning) (N := any) rfl rfl
      (R := fun H s => s.promotion.bannedPeers ⊆ H ∧
        ∀ x ∈ H, ∃ st, s.peers.lookup x = some st ∧ Away s.promotion x st) ?_ ?_ h hb
    · rintro s ⟨config, handshake, rfl⟩
      exact ⟨Finset.Subset.refl _, by simp⟩
    · intro H s input t ⟨hsub, haway⟩ haccept hstep
      obtain ⟨hquiet, haway'⟩ := hstep.shunned haccept hsub haway
      refine ⟨⟨fun _ => trivial, fun _ => hquiet⟩, fun _ => ⟨fun x hx => ?_, haway'⟩⟩
      refine Finset.mem_union_right _ ?_
      unfold bannedBy
      split
      · exact Finset.mem_insert_of_mem hx
      · exact hx
  exact hiff.2 (any.accepts_of_forall (fun _ _ => trivial) ∅ tr)

/-- A peer that breaks its protocol is banned, and is not connected to when it is included again. -/
theorem banned_not_connected_violation : ∃ tr s, Run Init Step tr s ∧ ⟨"a", 1⟩ ∈ bansHold.after ∅ tr ∧
    (∃ x ∈ tr.drop 6, x.input = .command (.includePeer ⟨"a", 1⟩)) ∧ shunning.Accepts ∅ tr := by
  have hplays : (new .default .default).plays
      [(⟨[], []⟩, .command (.includePeer ⟨"a", 1⟩)), (⟨[⟨"a", 1⟩], []⟩, .io .idle),
        (⟨[⟨"a", 1⟩], []⟩, .io (.connected ⟨"a", 1⟩)),
        (⟨[⟨"a", 1⟩], []⟩, .io (.recv ⟨"a", 1⟩ [.keepAlive (.responseKeepAlive 7)])),
        (⟨[⟨"a", 1⟩], []⟩, .io .idle), (⟨[⟨"a", 1⟩], []⟩, .io (.disconnected ⟨"a", 1⟩)),
        (⟨[⟨"a", 1⟩], []⟩, .command (.includePeer ⟨"a", 1⟩)), (⟨[⟨"a", 1⟩], []⟩, .io .idle)]
      (fun tr _ => ⟨"a", 1⟩ ∈ bansHold.after ∅ tr ∧
        (∃ x ∈ tr.drop 6, x.input = .command (.includePeer ⟨"a", 1⟩)) ∧ bansHold.Accepts ∅ tr) = true := by decide
  obtain ⟨tr, s, hrun, htest⟩ := exists_run_of_plays ⟨_, _, rfl⟩ hplays
  obtain ⟨hbanned, hincluded, haccepts⟩ := of_decide_eq_true htest
  exact ⟨tr, s, hrun, hbanned, hincluded, banned_not_connected hrun haccepts⟩

/-- A peer banned by a command while connected is disconnected from, included again and connected to. -/
theorem banned_connected : ¬ ∀ tr s, Run Init Step tr s → shunning.Accepts ∅ tr := by
  intro h
  have hplays : (new .default .default).plays
      [(⟨[], []⟩, .command (.includePeer ⟨"a", 1⟩)), (⟨[⟨"a", 1⟩], []⟩, .io .idle),
        (⟨[⟨"a", 1⟩], []⟩, .io (.connected ⟨"a", 1⟩)), (⟨[⟨"a", 1⟩], []⟩, .command (.banPeer ⟨"a", 1⟩)),
        (⟨[⟨"a", 1⟩], []⟩, .io .idle), (⟨[⟨"a", 1⟩], []⟩, .io (.disconnected ⟨"a", 1⟩)),
        (⟨[⟨"a", 1⟩], []⟩, .command (.includePeer ⟨"a", 1⟩)), (⟨[⟨"a", 1⟩], []⟩, .io .idle)]
      (fun tr _ => ¬ shunning.Accepts ∅ tr) = true := by decide
  obtain ⟨tr, s, hrun, htest⟩ := exists_run_of_plays ⟨_, _, rfl⟩ hplays
  exact of_decide_eq_true htest (h tr s hrun)

end InitiatorBehavior
end Pallas.Network2
