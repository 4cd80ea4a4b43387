import Pallas.Lib.Filing
import Pallas.Lib.Runs
import Pallas.Network2.Frames

/-!
# The promotion sets and the promotion tags

The promotion of a peer is kept twice: `PromotionBehavior` has one set of peers for each tag, and the state of a peer has
its tag. Promotion itself moves a peer and writes the tag with it. Four inputs write the tag alone: `BanPeer`,
`DemotePeer`, a disconnection, whose reset makes any tag `Cold`, and `IncludePeer` of a peer that has not connected since.
So the two agree exactly as long as the peer is in no other set by then (`agree_iff`).

Sets and tags are the `sets` and the `label` of `Filing`.
-/

namespace Pallas.Network2
open Filing

/-- The set of the peers with a tag. -/
def PromotionBehavior.setOf (self : PromotionBehavior) : PromotionTag → Finset PeerId
  | .cold => self.coldPeers
  | .warm => self.warmPeers
  | .hot => self.hotPeers
  | .banned => self.bannedPeers

/-- The tag in the state of a peer. -/
def InitiatorBehavior.tag (self : InitiatorBehavior) (pid : PeerId) : Option PromotionTag :=
  (self.peers.lookup pid).map (·.promotion)

/-- The four sets are pairwise disjoint, and the set a tracked peer is in is that of its tag. -/
def InitiatorBehavior.PromotionAgrees (self : InitiatorBehavior) : Prop := Agree self.promotion.setOf self.tag

/-- Moreover every tracked peer is in a set. -/
def InitiatorBehavior.PromotionFiled (self : InitiatorBehavior) : Prop :=
  self.PromotionAgrees ∧ Filed self.promotion.setOf self.tag

variable {pid : PeerId} {st : InitiatorState}

/-! ### What promotion does -/

namespace PromotionBehavior
variable {b : PromotionBehavior} {r : PromotionBehavior × InitiatorState} {label : PeerId → Option PromotionTag}

theorem banPeer_refiled (b : PromotionBehavior) (pid : PeerId) (st : InitiatorState) :
    Refiled b.setOf (b.banPeer pid st).1.setOf pid .banned := by
  intro tag x
  cases tag <;> simp [banPeer, setOf]
  tauto

theorem promoteColdPeer_refiled (h : Agree b.setOf label) (hp : pid ∈ b.coldPeers) :
    Refiled b.setOf (b.promoteColdPeer pid st).1.setOf pid .warm := by
  have hother : ∀ tag, pid ∈ b.setOf tag → tag = .cold := fun tag ht => (h.eq_of_mem (a := .cold) hp ht).symm
  intro tag x
  cases tag <;> simp [promoteColdPeer, setOf, hp]
  · tauto
  · rintro hx rfl
    cases hother .hot hx
  · rintro hx rfl
    cases hother .banned hx

theorem promoteWarmPeer_refiled (h : Agree b.setOf label) (hp : pid ∈ b.warmPeers) :
    Refiled b.setOf (b.promoteWarmPeer pid st).1.setOf pid .hot := by
  have hother : ∀ tag, pid ∈ b.setOf tag → tag = .warm := fun tag ht => (h.eq_of_mem (a := .warm) hp ht).symm
  intro tag x
  cases tag <;> simp [promoteWarmPeer, setOf, hp]
  · rintro hx rfl
    cases hother .cold hx
  · tauto
  · rintro hx rfl
    cases hother .banned hx

theorem categorizePeer_refiled (h : b.categorizePeer pid st = .ok r) (hagree : Agree b.setOf label) :
    r = (b, st) ∨ Refiled b.setOf r.1.setOf pid r.2.promotion := by
  unfold categorizePeer at h
  split at h
  · cases h
    exact .inr (b.banPeer_refiled pid st)
  · split at h
    · cases h
      exact .inr (b.banPeer_refiled pid st)
    · obtain ⟨warm, -, h⟩ := Outcome.bind_eq_ok.1 h
      split at h
      · next hc =>
        cases h
        have htag : (b.promoteColdPeer pid st).2.promotion = .warm := by simp [promoteColdPeer, hc.2]
        exact .inr (htag ▸ promoteColdPeer_refiled hagree hc.2)
      · obtain ⟨hot, -, h⟩ := Outcome.bind_eq_ok.1 h
        split at h
        · next hw =>
          cases h
          have htag : (b.promoteWarmPeer pid st).2.promotion = .hot := by simp [promoteWarmPeer, hw.2.1]
          exact .inr (htag ▸ promoteWarmPeer_refiled hagree hw.2.1)
        · cases h
          exact .inl rfl

/-- Discovery of a banned peer changes no set, one with room left adds the peer to the cold set, and one without is
turned down. -/
theorem onPeerDiscovered_cases (h : b.onPeerDiscovered pid .new = .ok r) :
    r.2 = .new ∧ (pid ∈ b.bannedPeers ∧ r.1 = b ∨
      pid ∉ b.bannedPeers ∧ b.totalPeers < b.config.maxPeers ∧ r.1 = { b with coldPeers := insert pid b.coldPeers } ∨
      pid ∉ b.bannedPeers ∧ b.totalPeers = b.config.maxPeers ∧ r.1 = b) := by
  unfold onPeerDiscovered at h
  split at h
  · next hb =>
    cases h
    exact ⟨rfl, .inl ⟨hb, rfl⟩⟩
  · next hb =>
    obtain ⟨cold, hcold, h⟩ := Outcome.bind_eq_ok.1 h
    obtain ⟨hle, rfl⟩ := usizeSub_eq_ok.1 hcold
    split at h
    · cases h
      exact ⟨rfl, .inr (.inl ⟨hb, by omega, rfl⟩)⟩
    · cases h
      exact ⟨rfl, .inr (.inr ⟨hb, by omega, rfl⟩)⟩

theorem insertCold_refiled (h : OnlyIn b.setOf pid .cold) :
    Refiled b.setOf ({ b with coldPeers := insert pid b.coldPeers } : PromotionBehavior).setOf pid .cold := by
  intro tag x
  cases tag <;> simp [setOf]
  · tauto
  · rintro hx rfl
    cases h .warm hx
  · rintro hx rfl
    cases h .hot hx
  · rintro hx rfl
    cases h .banned hx

end PromotionBehavior

namespace InitiatorBehavior
variable {s t : InitiatorBehavior}

/-! ### Inputs that leave sets and tags alone -/

theorem tag_insert (subs : SubBehaviors) (peers : Finmap fun _ : PeerId => InitiatorState) (pid : PeerId)
    (st : InitiatorState) :
    ({ subs with peers := peers.insert pid st } : InitiatorBehavior).tag =
      Function.update ({ subs with peers } : InitiatorBehavior).tag pid (some st.promotion) := by
  funext x
  by_cases hx : x = pid
  · subst hx
    simp [tag]
  · rw [Function.update_of_ne hx]
    simp [tag, Finmap.lookup_insert_of_ne _ hx]

/-- Neither the sets nor the tags differ. -/
def SamePromotion (s t : InitiatorBehavior) : Prop := t.promotion = s.promotion ∧ t.tag = s.tag

theorem SamePromotion.trans {u : InitiatorBehavior} (h : s.SamePromotion t) (h' : t.SamePromotion u) :
    s.SamePromotion u := ⟨h'.1.trans h.1, h'.2.trans h.2⟩

theorem modifyPeer_samePromotion {f : SubBehaviors → InitiatorState → Call (SubBehaviors × InitiatorState)}
    (hf : ∀ subs st r, f subs st = .ok r → r.1.promotion = subs.promotion ∧ r.2.promotion = st.promotion)
    (h : s.modifyPeer pid f = .ok t) : s.SamePromotion t := by
  rcases modifyPeer_eq_ok.1 h with ⟨-, rfl⟩ | ⟨st, r, hl, hr, rfl⟩
  · exact ⟨rfl, rfl⟩
  · obtain ⟨hp, ht⟩ := hf _ _ _ hr
    refine ⟨hp, ?_⟩
    have htag : s.tag pid = some r.2.promotion := by simp [tag, hl, ht]
    rw [tag_insert r.1 s.peers pid r.2]
    exact Function.update_eq_self_iff.2 htag.symm

theorem onConnected_samePromotion (h : s.onConnected pid = .ok t) : s.SamePromotion t := by
  refine modifyPeer_samePromotion (fun subs st r hr => ?_) h
  obtain ⟨out, -, hr⟩ := Outcome.bind_eq_ok.1 hr
  obtain rfl := Outcome.ok.inj hr
  exact ⟨rfl, rfl⟩

theorem onOutboundMsg_samePromotion {msg : AnyMessage} (h : s.onOutboundMsg pid msg = .ok t) : s.SamePromotion t := by
  refine modifyPeer_samePromotion (fun subs st r hr => ?_) h
  obtain rfl := Outcome.ok.inj hr
  refine ⟨rfl, ?_⟩
  rw [SubBehaviors.visitOutboundMsg, BlockFetchBehavior.visitOutboundMsg_promotion]
  simp

theorem onErrored_samePromotion (h : s.onErrored pid = .ok t) : s.SamePromotion t := by
  refine modifyPeer_samePromotion (fun subs st r hr => ?_) h
  obtain ⟨st', hst, hr⟩ := Outcome.bind_eq_ok.1 hr
  obtain rfl := Outcome.ok.inj hr
  obtain rfl := countError_eq_ok hst
  exact ⟨rfl, rfl⟩

theorem serveBlockFetch_samePromotion {iter : List PeerId} (h : s.serveBlockFetch iter = .ok t) :
    s.SamePromotion t := by
  refine Outcome.fold_inv (fun _ b => s.SamePromotion b) (fun _ pid b b' hb hstep => ?_) ⟨rfl, rfl⟩ h
  split at hstep
  · cases hstep
    exact hb
  · refine hb.trans (modifyPeer_samePromotion (fun subs st r hr => ?_) hstep)
    obtain rfl := Outcome.ok.inj hr
    exact ⟨rfl, subs.blockfetch.serveNext_promotion⟩

theorem serveLeiosFetch_samePromotion (h : s.serveLeiosFetch pid = .ok t) : s.SamePromotion t := by
  refine modifyPeer_samePromotion (fun subs st r hr => ?_) h
  obtain rfl := Outcome.ok.inj hr
  exact ⟨rfl, (subs.leiosfetch.serveNext_frame pid st subs.outbound).promotion⟩

/-! ### Inputs that move a peer with its tag -/

/-- Sets and tags agree afterwards, and no tracked peer has dropped out of the sets. -/
structure KeepsPromotion (s t : InitiatorBehavior) : Prop where
  agrees : t.PromotionAgrees
  within : Within t.promotion.setOf t.tag
  filed : Filed s.promotion.setOf s.tag → Filed t.promotion.setOf t.tag

theorem KeepsPromotion.trans {u : InitiatorBehavior} (h : s.KeepsPromotion t) (h' : t.KeepsPromotion u) :
    s.KeepsPromotion u := ⟨h'.agrees, h'.within, fun hf => h'.filed (h.filed hf)⟩

theorem SamePromotion.keeps (h : s.SamePromotion t) (ha : s.PromotionAgrees) (hw : Within s.promotion.setOf s.tag) :
    s.KeepsPromotion t := by
  obtain ⟨hp, ht⟩ := h
  refine ⟨?_, ?_, ?_⟩
  · rw [PromotionAgrees, hp, ht]
    exact ha
  · rw [hp, ht]
    exact hw
  · rw [hp, ht]
    exact id

theorem keeps_of_refiled {tag : PromotionTag} (hr : Refiled s.promotion.setOf t.promotion.setOf pid tag)
    (ht : t.tag = Function.update s.tag pid (some tag)) (ha : s.PromotionAgrees)
    (hw : Within s.promotion.setOf s.tag) : s.KeepsPromotion t := by
  refine ⟨?_, ?_, ?_⟩
  · rw [PromotionAgrees, ht]
    exact ha.refile hr
  · rw [ht]
    exact hw.refile hr
  · rw [ht]
    exact fun hf => hf.refile hr

theorem modifyPeer_keeps {f : SubBehaviors → InitiatorState → Call (SubBehaviors × InitiatorState)}
    (hf : ∀ subs st r, f subs st = .ok r → ∃ st₁ p, subs.promotion.categorizePeer pid st₁ = .ok p ∧
      st₁.promotion = st.promotion ∧ r.1.promotion = p.1 ∧ r.2.promotion = p.2.promotion)
    (h : s.modifyPeer pid f = .ok t) (ha : s.PromotionAgrees) (hw : Within s.promotion.setOf s.tag) :
    s.KeepsPromotion t := by
  rcases modifyPeer_eq_ok.1 h with ⟨-, rfl⟩ | ⟨st, r, hl, hr, rfl⟩
  · exact SamePromotion.keeps ⟨rfl, rfl⟩ ha hw
  · obtain ⟨st₁, p, hp, hst, hpromo, htag⟩ := hf _ _ _ hr
    have hupd := tag_insert r.1 s.peers pid r.2
    rcases PromotionBehavior.categorizePeer_refiled hp ha with rfl | hrefiled
    · refine SamePromotion.keeps ⟨hpromo, hupd.trans ?_⟩ ha hw
      have : s.tag pid = some r.2.promotion := by simp [tag, hl, htag, hst]
      exact Function.update_eq_self_iff.2 this.symm
    · rw [← hpromo, ← htag] at hrefiled
      exact keeps_of_refiled hrefiled hupd ha hw

theorem onInboundMsg_keeps {msg : AnyMessage} (h : s.onInboundMsg pid msg = .ok t) (ha : s.PromotionAgrees)
    (hw : Within s.promotion.setOf s.tag) : s.KeepsPromotion t := by
  refine modifyPeer_keeps (fun subs st r hr => ?_) h ha hw
  obtain ⟨p, st₂, out₂, hp, hpromo, hbefore, -, hafter⟩ := SubBehaviors.visitInboundMsg_inv hr
  refine ⟨_, p, hp, st.applyMsg_promotion msg, hpromo, ?_⟩
  rw [hafter.promotion, BlockFetchBehavior.visitInboundMsg_promotion, hbefore.promotion]

theorem onInboundMsgs_keeps {msgs : List AnyMessage} (h : s.onInboundMsgs pid msgs = .ok t) (ha : s.PromotionAgrees)
    (hw : Within s.promotion.setOf s.tag) : s.KeepsPromotion t := by
  refine Outcome.fold_inv (fun _ b => s.KeepsPromotion b) (fun _ msg b b' hb hstep => ?_) ?_ h
  · exact hb.trans (onInboundMsg_keeps hstep hb.agrees hb.within)
  · exact SamePromotion.keeps ⟨rfl, rfl⟩ ha hw

theorem onDiscovered_cases (h : s.onDiscovered pid = .ok t) : ∃ p, s.promotion.onPeerDiscovered pid .new = .ok p ∧
    t.promotion = p.1 ∧ t.tag = Function.update s.tag pid (some .cold) := by
  obtain ⟨⟨subs, st⟩, hsubs, h⟩ := Outcome.bind_eq_ok.1 h
  obtain ⟨p, hp, hsubs⟩ := Outcome.bind_eq_ok.1 hsubs
  obtain ⟨rfl, rfl⟩ := Prod.mk.inj (Outcome.ok.inj hsubs)
  obtain rfl := Outcome.ok.inj h
  obtain ⟨hnew, -⟩ := PromotionBehavior.onPeerDiscovered_cases hp
  refine ⟨p, hp, rfl, ?_⟩
  rw [tag_insert, hnew]
  rfl

/-- There is room for one more peer in the cold, warm and hot sets. -/
def HasRoom (s : InitiatorBehavior) : Prop := s.promotion.totalPeers < s.promotion.config.maxPeers

theorem onDiscovered_keeps (h : s.onDiscovered pid = .ok t) (honly : OnlyIn s.promotion.setOf pid .cold)
    (ha : s.PromotionAgrees) (hw : Within s.promotion.setOf s.tag) :
    t.PromotionAgrees ∧ Within t.promotion.setOf t.tag ∧
      (s.tag pid ≠ none ∨ s.HasRoom → Filed s.promotion.setOf s.tag → Filed t.promotion.setOf t.tag) := by
  obtain ⟨p, hp, hpromo, htag⟩ := onDiscovered_cases h
  rcases (PromotionBehavior.onPeerDiscovered_cases hp).2 with ⟨hb, hset⟩ | ⟨-, -, hset⟩ | ⟨-, hfull, hset⟩
  · cases honly .banned hb
  · have hrefiled := PromotionBehavior.insertCold_refiled honly
    rw [← hset, ← hpromo] at hrefiled
    obtain ⟨h1, h2, h3⟩ := keeps_of_refiled hrefiled htag ha hw
    exact ⟨h1, h2, fun _ => h3⟩
  · rw [hset] at hpromo
    rw [PromotionAgrees, hpromo, htag]
    refine ⟨ha.relabel_iff.2 honly, hw.relabel, ?_⟩
    rintro (hl | hroom) hf
    · exact hf.relabel honly hl
    · exact absurd hroom (by simp [HasRoom, hfull])

theorem onDiscovered_total (h : s.onDiscovered pid = .ok t) :
    t.promotion.config = s.promotion.config ∧ t.promotion.totalPeers ≤ s.promotion.totalPeers + 1 := by
  obtain ⟨p, hp, hpromo, -⟩ := onDiscovered_cases h
  rw [hpromo]
  rcases (PromotionBehavior.onPeerDiscovered_cases hp).2 with ⟨-, hset⟩ | ⟨-, -, hset⟩ | ⟨-, -, hset⟩
  · rw [hset]
    exact ⟨rfl, by omega⟩
  · rw [hset]
    refine ⟨rfl, ?_⟩
    have := Finset.card_insert_le pid s.promotion.coldPeers
    simp only [PromotionBehavior.totalPeers]
    omega
  · rw [hset]
    exact ⟨rfl, by omega⟩

theorem fold_onDiscovered_keeps {new : List PeerId}
    (h : Outcome.fold (fun (self : InitiatorBehavior) pid =>
      if pid ∈ self.peers then .ok self else self.onDiscovered pid) s new = .ok t)
    (ha : s.PromotionAgrees) (hw : Within s.promotion.setOf s.tag) :
    t.PromotionAgrees ∧ Within t.promotion.setOf t.tag ∧
      (s.promotion.totalPeers + new.length ≤ s.promotion.config.maxPeers →
        Filed s.promotion.setOf s.tag → Filed t.promotion.setOf t.tag) := by
  induction new generalizing s with
  | nil =>
    obtain rfl := Outcome.ok.inj h
    exact ⟨ha, hw, fun _ => id⟩
  | cons pid new ih =>
    obtain ⟨u, hu, h⟩ := Outcome.bind_eq_ok.1 h
    beta_reduce at hu
    split at hu
    · obtain rfl := Outcome.ok.inj hu
      obtain ⟨h1, h2, h3⟩ := ih h ha hw
      exact ⟨h1, h2, fun hroom => h3 (by simp only [List.length_cons] at hroom; omega)⟩
    · next hnew =>
      have htag : s.tag pid = none := by
        rw [tag, Finmap.lookup_eq_none.2 hnew]
        rfl
      obtain ⟨hconfig, htotal⟩ := onDiscovered_total hu
      obtain ⟨h1, h2, h3⟩ := onDiscovered_keeps hu (hw.onlyIn_of_none htag .cold) ha hw
      obtain ⟨h1, h2, h3'⟩ := ih h h1 h2
      refine ⟨h1, h2, fun hroom hf => h3' ?_ (h3 (.inr ?_) hf)⟩
      · rw [hconfig]
        simp only [List.length_cons] at hroom
        omega
      · simp only [List.length_cons] at hroom
        rw [HasRoom]
        omega

theorem housekeeping_keeps {iter : Iteration} (h : s.housekeeping iter = .ok t) (ha : s.PromotionAgrees)
    (hw : Within s.promotion.setOf s.tag) : s.KeepsPromotion t := by
  obtain ⟨u, hu, h⟩ := Outcome.bind_eq_ok.1 h
  have hvisits : s.KeepsPromotion u := by
    refine Outcome.fold_inv (fun _ b => s.KeepsPromotion b) (fun _ pid b b' hb hstep => ?_)
      (SamePromotion.keeps ⟨rfl, rfl⟩ ha hw) hu
    refine hb.trans (modifyPeer_keeps (fun subs st r hr => ?_) hstep hb.agrees hb.within)
    obtain ⟨p, st₂, out₂, hp, hpromo, hbefore, -, hafter⟩ := SubBehaviors.visitHousekeeping_inv hr
    refine ⟨st, p, hp, rfl, hpromo, ?_⟩
    rw [hafter.promotion, BlockFetchBehavior.serveNext_promotion, hbefore.promotion]
  obtain ⟨deficit, hdeficit, h⟩ := Outcome.bind_eq_ok.1 h
  obtain ⟨hle, rfl⟩ := usizeSub_eq_ok.1 hdeficit
  split at h
  · obtain rfl := Outcome.ok.inj h
    exact hvisits
  · obtain ⟨h1, h2, h3⟩ := fold_onDiscovered_keeps h hvisits.agrees hvisits.within
    refine hvisits.trans ⟨h1, h2, h3 ?_⟩
    have htake : (iter.discovered.take (u.promotion.config.maxPeers - u.promotion.totalPeers)).length ≤
        u.promotion.config.maxPeers - u.promotion.totalPeers := List.length_take_le ..
    change u.promotion.totalPeers + _ ≤ u.promotion.config.maxPeers
    omega

/-! ### One input -/

/-- What the input is about to write as a tag is the set the peer is in, if it is in any. -/
def KeepsTag (s : InitiatorBehavior) : Input → Prop
  | .io (.disconnected pid) => OnlyIn s.promotion.setOf pid .cold
  | .command (.includePeer pid) => s.isNewPeer pid = true → OnlyIn s.promotion.setOf pid .cold
  | .command (.banPeer pid) => OnlyIn s.promotion.setOf pid .banned
  | .command (.demotePeer pid) => OnlyIn s.promotion.setOf pid .cold
  | _ => True

/-- A peer that is included for the first time finds room. -/
def FindsRoom (s : InitiatorBehavior) : Input → Prop
  | .command (.includePeer pid) => s.tag pid = none → s.HasRoom
  | _ => True

/-- What one input does to sets and tags that agree. -/
structure PromotionStep (s : InitiatorBehavior) (input : Input) (t : InitiatorBehavior) : Prop where
  within : Within t.promotion.setOf t.tag
  agrees_iff : t.PromotionAgrees ↔ s.KeepsTag input
  filed_iff : t.PromotionAgrees → Filed s.promotion.setOf s.tag →
    (Filed t.promotion.setOf t.tag ↔ s.FindsRoom input)

theorem KeepsPromotion.promotionStep {input : Input} (h : s.KeepsPromotion t) (htag : s.KeepsTag input)
    (hroom : s.FindsRoom input) : s.PromotionStep input t :=
  ⟨h.within, ⟨fun _ => htag, fun _ => h.agrees⟩, fun _ hf => ⟨fun _ => hroom, fun _ => h.filed hf⟩⟩

theorem SamePromotion.promotionStep {input : Input} (h : s.SamePromotion t) (ha : s.PromotionAgrees)
    (hw : Within s.promotion.setOf s.tag) (htag : s.KeepsTag input) (hroom : s.FindsRoom input) :
    s.PromotionStep input t := (h.keeps ha hw).promotionStep htag hroom

/-- The sets are as they were, and so is the tag of a peer that is not tracked. -/
def Relabels (s t : InitiatorBehavior) (pid : PeerId) (tag : PromotionTag) : Prop :=
  t.promotion = s.promotion ∧
    (s.tag pid = none ∧ t.tag = s.tag ∨ s.tag pid ≠ none ∧ t.tag = Function.update s.tag pid (some tag))

theorem Relabels.promotionStep {input : Input} {tag : PromotionTag} (h : s.Relabels t pid tag)
    (ha : s.PromotionAgrees) (hw : Within s.promotion.setOf s.tag)
    (htag : s.KeepsTag input ↔ OnlyIn s.promotion.setOf pid tag) (hroom : s.FindsRoom input) :
    s.PromotionStep input t := by
  obtain ⟨hp, ⟨hnone, ht⟩ | ⟨hsome, ht⟩⟩ := h
  · exact SamePromotion.promotionStep ⟨hp, ht⟩ ha hw (htag.2 (hw.onlyIn_of_none hnone tag)) hroom
  · have hiff : t.PromotionAgrees ↔ OnlyIn s.promotion.setOf pid tag := by
      rw [PromotionAgrees, hp, ht]
      exact ha.relabel_iff
    refine ⟨?_, hiff.trans htag.symm, fun h hf => ⟨fun _ => hroom, fun _ => ?_⟩⟩
    · rw [hp, ht]
      exact hw.relabel
    · rw [hp, ht]
      exact hf.relabel (hiff.1 h) hsome

theorem onTagged_relabels {f : InitiatorState → InitiatorState} {tag : PromotionTag}
    (hf : ∀ st, (f st).promotion = tag) (h : s.onTagged pid f = .ok t) : s.Relabels t pid tag := by
  rcases modifyPeer_eq_ok.1 h with ⟨hl, rfl⟩ | ⟨st, r, hl, hr, rfl⟩
  · exact ⟨rfl, .inl ⟨by simp [InitiatorBehavior.tag, hl], rfl⟩⟩
  · obtain rfl := Outcome.ok.inj hr
    refine ⟨rfl, .inr ⟨by simp [InitiatorBehavior.tag, hl], ?_⟩⟩
    have hframe := s.chainsync.visitTagged_frame pid (f st) s.outbound
    rw [tag_insert, SubBehaviors.visitTagged, hframe.promotion, hf]
    rfl

theorem onTagged_samePromotion {f : InitiatorState → InitiatorState} (hf : ∀ st, (f st).promotion = st.promotion)
    (h : s.onTagged pid f = .ok t) : s.SamePromotion t := by
  refine modifyPeer_samePromotion (fun subs st r hr => ?_) h
  obtain rfl := Outcome.ok.inj hr
  exact ⟨rfl, (subs.chainsync.visitTagged_frame pid (f st) subs.outbound).promotion.trans (hf st)⟩

theorem onDisconnected_relabels {iter : List PeerId} (h : s.onDisconnected iter pid = .ok t) :
    s.Relabels t pid .cold := by
  obtain ⟨u, hu, h⟩ := Outcome.bind_eq_ok.1 h
  obtain ⟨hpromo, htag⟩ := serveBlockFetch_samePromotion h
  rw [Relabels, hpromo, htag]
  rcases modifyPeer_eq_ok.1 hu with ⟨hl, rfl⟩ | ⟨st, r, hl, hr, rfl⟩
  · exact ⟨rfl, .inl ⟨by simp [tag, hl], rfl⟩⟩
  · obtain rfl := Outcome.ok.inj hr
    exact ⟨rfl, .inr ⟨by simp [tag, hl], tag_insert ..⟩⟩

theorem onDiscovered_mem (h : s.onDiscovered pid = .ok t) (tag : PromotionTag) :
    s.promotion.setOf tag ⊆ t.promotion.setOf tag ∧ ∀ x ∈ t.promotion.setOf tag, x ≠ pid →
      x ∈ s.promotion.setOf tag := by
  obtain ⟨p, hp, hpromo, -⟩ := onDiscovered_cases h
  rw [hpromo]
  rcases (PromotionBehavior.onPeerDiscovered_cases hp).2 with ⟨-, hset⟩ | ⟨-, -, hset⟩ | ⟨-, -, hset⟩
  · rw [hset]
    exact ⟨Finset.Subset.refl _, fun x hx _ => hx⟩
  · rw [hset]
    cases tag with
    | cold => exact ⟨Finset.subset_insert _ _, fun x hx hne => Finset.mem_of_mem_insert_of_ne hx hne⟩
    | _ => exact ⟨Finset.Subset.refl _, fun x hx _ => hx⟩
  · rw [hset]
    exact ⟨Finset.Subset.refl _, fun x hx _ => hx⟩

theorem includePeer_onlyIn (h : s.onDiscovered pid = .ok t) (ha : s.PromotionAgrees)
    (hw : Within s.promotion.setOf s.tag) (honly : OnlyIn s.promotion.setOf pid .cold) :
    s.PromotionStep (.command (.includePeer pid)) t := by
  obtain ⟨hagrees, hwithin, hfiled⟩ := onDiscovered_keeps h honly ha hw
  refine ⟨hwithin, ⟨fun _ _ => honly, fun _ => hagrees⟩, fun _ hf => ⟨fun hf' hnone => ?_, fun hroom => ?_⟩⟩
  · obtain ⟨p, hp, hpromo, htag⟩ := onDiscovered_cases h
    rcases (PromotionBehavior.onPeerDiscovered_cases hp).2 with ⟨hb, -⟩ | ⟨-, hroom, -⟩ | ⟨-, -, hset⟩
    · cases honly .banned hb
    · exact hroom
    -- turned down: the peer is tracked now, and in no set
    · have hcold := hf' pid .cold (by simp [htag])
      rw [hpromo, hset] at hcold
      exact absurd hnone (hw .cold pid hcold)
  · by_cases hnone : s.tag pid = none
    · exact hfiled (.inr (hroom hnone)) hf
    · exact hfiled (.inl hnone) hf

theorem includePeer_not_onlyIn (h : s.onDiscovered pid = .ok t) (hnew : s.isNewPeer pid = true)
    (hw : Within s.promotion.setOf s.tag) (honly : ¬ OnlyIn s.promotion.setOf pid .cold) :
    s.PromotionStep (.command (.includePeer pid)) t := by
  obtain ⟨-, -, -, htag⟩ := onDiscovered_cases h
  have hnot : ¬ t.PromotionAgrees := fun h' =>
    honly fun tag hmem => h'.label pid .cold (by simp [htag]) tag ((onDiscovered_mem h tag).1 hmem)
  refine ⟨fun tag x hx => ?_, ⟨fun h' => absurd h' hnot, fun h' => absurd (h' hnew) honly⟩, fun h' => absurd h' hnot⟩
  rw [htag]
  by_cases hxp : x = pid
  · simp [hxp]
  · rw [Function.update_of_ne hxp]
    exact hw tag x ((onDiscovered_mem h tag).2 x hx hxp)

/-- An input keeps sets and tags in agreement exactly when it meets `KeepsTag`. -/
theorem handle_promotionStep {iter : Iteration} {input : Input} (h : s.handle iter input = .ok t)
    (ha : s.PromotionAgrees) (hw : Within s.promotion.setOf s.tag) : s.PromotionStep input t := by
  cases input with
  | io event =>
    cases event with
    | connected pid => exact (onConnected_samePromotion h).promotionStep ha hw trivial trivial
    | disconnected pid => exact (onDisconnected_relabels h).promotionStep ha hw Iff.rfl trivial
    | sent pid msg => exact (onOutboundMsg_samePromotion h).promotionStep ha hw trivial trivial
    | recv pid msgs => exact (onInboundMsgs_keeps h ha hw).promotionStep trivial trivial
    | error pid text => exact (onErrored_samePromotion h).promotionStep ha hw trivial trivial
    | idle => exact (housekeeping_keeps h ha hw).promotionStep trivial trivial
  | command cmd =>
    cases cmd with
    | includePeer pid =>
      simp only [handle, execute] at h
      split at h
      · next hnew =>
        by_cases honly : OnlyIn s.promotion.setOf pid .cold
        · exact includePeer_onlyIn h ha hw honly
        · exact includePeer_not_onlyIn h hnew hw honly
      · next hnew =>
        obtain rfl := Outcome.ok.inj h
        refine SamePromotion.promotionStep ⟨rfl, rfl⟩ ha hw (fun h' => absurd h' hnew) fun hnone => ?_
        have hl : s.peers.lookup pid = none := by simpa [tag] using hnone
        exact absurd (by simp [isNewPeer, hl]) hnew
    | housekeeping => exact (housekeeping_keeps h ha hw).promotionStep trivial trivial
    | startSync points =>
      obtain rfl := Outcome.ok.inj h
      exact SamePromotion.promotionStep ⟨rfl, rfl⟩ ha hw trivial trivial
    | continueSync pid =>
      have hsame := onTagged_samePromotion (f := fun st => { st with continueSync := true }) (fun _ => rfl) h
      exact hsame.promotionStep ha hw trivial trivial
    | requestBlocks range =>
      obtain ⟨hp, ht⟩ := serveBlockFetch_samePromotion h
      exact SamePromotion.promotionStep ⟨hp, ht⟩ ha hw trivial trivial
    | sendTx pid id body =>
      obtain rfl := Outcome.ok.inj h
      exact SamePromotion.promotionStep ⟨rfl, rfl⟩ ha hw trivial trivial
    | fetchEb pid eb =>
      obtain ⟨hp, ht⟩ := serveLeiosFetch_samePromotion h
      exact SamePromotion.promotionStep ⟨hp, ht⟩ ha hw trivial trivial
    | fetchEbTxs pid eb bitmaps =>
      obtain ⟨hp, ht⟩ := serveLeiosFetch_samePromotion h
      exact SamePromotion.promotionStep ⟨hp, ht⟩ ha hw trivial trivial
    | banPeer pid =>
      have hr := onTagged_relabels (f := fun st => { st with promotion := .banned }) (fun _ => rfl) h
      exact hr.promotionStep ha hw Iff.rfl trivial
    | demotePeer pid =>
      have hr := onTagged_relabels (f := fun st => { st with promotion := .cold }) (fun _ => rfl) h
      exact hr.promotionStep ha hw Iff.rfl trivial

theorem Step.promotionStep {input : Input} (h : s.Step input t) (ha : s.PromotionAgrees)
    (hw : Within s.promotion.setOf s.tag) : s.PromotionStep input t := by
  obtain ⟨iter, -, h⟩ := h
  obtain ⟨hwithin, hagrees, hfiled⟩ := handle_promotionStep h ha hw
  exact ⟨hwithin, hagrees, hfiled⟩

/-! ### Whole runs -/

theorem Init.promotion (h : s.Init) :
    s.PromotionFiled ∧ Within s.promotion.setOf s.tag := by
  obtain ⟨config, handshake, rfl⟩ := h
  have hempty : ∀ tag, (new config handshake).promotion.setOf tag = ∅ := by
    intro tag
    cases tag <;> rfl
  have htag : ∀ pid, (new config handshake).tag pid = none := fun _ => rfl
  refine ⟨⟨⟨fun a b _ => ?_, fun pid a ha => ?_⟩, fun pid a ha => ?_⟩, fun a pid ha => ?_⟩
  · rw [hempty]
    exact Finset.disjoint_empty_left _
  · rw [htag] at ha
    cases ha
  · rw [htag] at ha
    cases ha
  · rw [hempty] at ha
    simp at ha

/-- Along a run, the sets are disjoint and agree with the tags in every state exactly when no input writes the tag of a
peer that is in another set: a peer is banned by a command only when it is in the banned set, and demoted, disconnected
or included again only when it is in the cold one, or in none at all. Every tracked peer is in a set, too, exactly when
moreover there was room for the peers that were included. -/
theorem promotion_agrees_iff {tr : List (Transition InitiatorBehavior Input)} (h : Run Init Step tr s) :
    (Run.Throughout PromotionAgrees tr s ↔ ∀ x ∈ tr, x.source.KeepsTag x.input) ∧
      (Run.Throughout PromotionFiled tr s ↔ ∀ x ∈ tr, x.source.KeepsTag x.input ∧ x.source.FindsRoom x.input) := by
  constructor
  · refine Run.throughout_iff (K := fun x => x.source.KeepsTag x.input)
      (I := fun s => Within s.promotion.setOf s.tag) (fun s hs => ⟨hs.promotion.1.1, hs.promotion.2⟩) ?_ h
    intro s input t ha hw hstep
    obtain ⟨hwithin, hagrees, -⟩ := hstep.promotionStep ha hw
    exact ⟨hwithin, hagrees⟩
  · refine Run.throughout_iff (K := fun x => x.source.KeepsTag x.input ∧ x.source.FindsRoom x.input)
      (I := fun s => Within s.promotion.setOf s.tag) (fun s hs => hs.promotion) ?_ h
    intro s input t ⟨ha, hf⟩ hw hstep
    obtain ⟨hwithin, hagrees, hfiled⟩ := hstep.promotionStep ha hw
    refine ⟨hwithin, ?_⟩
    rw [PromotionFiled, ← hagrees]
    exact and_congr_right fun ha' => hfiled ha' hf

instance KeepsTag.decidable (s : InitiatorBehavior) : ∀ input, Decidable (s.KeepsTag input)
  | .io (.disconnected _) => inferInstanceAs (Decidable (OnlyIn _ _ _))
  | .command (.includePeer _) => inferInstanceAs (Decidable (_ → OnlyIn _ _ _))
  | .command (.banPeer _) => inferInstanceAs (Decidable (OnlyIn _ _ _))
  | .command (.demotePeer _) => inferInstanceAs (Decidable (OnlyIn _ _ _))
  | .io (.connected _) | .io (.sent ..) | .io (.recv ..) | .io (.error ..) | .io .idle
  | .command .housekeeping | .command (.startSync _) | .command (.continueSync _) | .command (.requestBlocks _)
  | .command (.sendTx ..) | .command (.fetchEb ..) | .command (.fetchEbTxs ..) => inferInstanceAs (Decidable True)

/-- A peer is included, connected to and promoted, and sets and tags agree all along. -/
theorem promotion_agrees_included : ∃ tr s, Run Init Step tr s ∧ s.tag ⟨"a", 1⟩ = some .warm ∧
    Run.Throughout PromotionAgrees tr s := by
  have hplays : (new .default .default).plays
      [(⟨[], []⟩, .command (.includePeer ⟨"a", 1⟩)), (⟨[⟨"a", 1⟩], []⟩, .io .idle), (⟨[⟨"a", 1⟩], []⟩, .io (.connected ⟨"a", 1⟩))]
      (fun tr s => s.tag ⟨"a", 1⟩ = some .warm ∧ ∀ x ∈ tr, x.source.KeepsTag x.input) = true := by decide
  obtain ⟨tr, s, hrun, htest⟩ := exists_run_of_plays ⟨_, _, rfl⟩ hplays
  obtain ⟨htag, hkeeps⟩ := of_decide_eq_true htest
  exact ⟨tr, s, hrun, htag, (promotion_agrees_iff hrun).1.2 hkeeps⟩

/-- A peer banned by a command is still in the cold set. -/
theorem promotion_disagrees_banned : ¬ ∀ tr s, Run Init Step tr s → s.PromotionAgrees := by
  intro h
  have hplays : (new .default .default).plays
      [(⟨[], []⟩, .command (.includePeer ⟨"a", 1⟩)), (⟨[⟨"a", 1⟩], []⟩, .command (.banPeer ⟨"a", 1⟩))]
      (fun _ s => s.tag ⟨"a", 1⟩ = some .banned ∧ ⟨"a", 1⟩ ∈ s.promotion.setOf .cold) = true := by decide
  obtain ⟨tr, s, hrun, htest⟩ := exists_run_of_plays ⟨_, _, rfl⟩ hplays
  obtain ⟨htag, hcold⟩ := of_decide_eq_true htest
  cases (h tr s hrun).label _ _ htag _ hcold

end InitiatorBehavior
end Pallas.Network2
