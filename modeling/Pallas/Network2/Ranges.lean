import Pallas.Lib.Tally
import Pallas.Network2.Agency
import Pallas.Network2.BlockBodies
import Pallas.Network2.OnePeer

/-!
# Where the block ranges are

A range that was requested waits in the queue, is unsent at a peer, is in flight at a peer, or has been answered. What
comes back from a peer that disconnects goes to the front of the queue.

`FetchRecord` is kept from outside: what was requested and answered, what was dispatched to each peer and is not
reported as sent, and how far each peer is with the range it was sent. `Kept` compares it with the initiator, where
`FetchStage` is what a peer's slots and protocol have to be. In all that happens, only a request adds a range, and only an
answer takes one away.
-/

namespace Pallas.Network2

/-- A peer was sent no range, or owes an answer, or sends a batch. -/
inductive Serving where
  | idle
  | asked (range : BlockRange)
  | streaming (range : BlockRange)
  deriving DecidableEq

namespace Serving

def range : Serving → Option BlockRange
  | idle => none
  | asked range => some range
  | streaming range => some range

def recv : Serving → AnyMessage → Serving
  | asked range, .blockFetch .startBatch => streaming range
  | asked _, .blockFetch .noBlocks => idle
  | streaming _, .blockFetch .batchDone => idle
  | self, _ => self

/-- The range that a message answers. -/
def answers : Serving → AnyMessage → Option BlockRange
  | asked range, .blockFetch .noBlocks => some range
  | streaming range, .blockFetch .batchDone => some range
  | _, _ => none

/-- What the initiator holds of it. -/
def Shows (st : InitiatorState) : Serving → Prop
  | idle => st.blockfetch = .idle ∧ st.inFlight = none
  | asked range => st.blockfetch = .busy range ∧ st.inFlight = some range
  | streaming range => (∃ last, st.blockfetch = .streaming last) ∧ st.inFlight = some range

end Serving

structure FetchRecord where
  requested : List BlockRange := []
  dispatched : PeerId → Option BlockRange := fun _ => none
  serving : PeerId → Serving := fun _ => .idle
  answered : List BlockRange := []

namespace FetchRecord

def recv (self : FetchRecord) (pid : PeerId) (msg : AnyMessage) : FetchRecord :=
  { self with
    serving := Function.update self.serving pid ((self.serving pid).recv msg)
    answered := self.answered ++ ((self.serving pid).answers msg).toList }

def input (self : FetchRecord) : Input → FetchRecord
  | .command (.requestBlocks range) => { self with requested := self.requested ++ [range] }
  | .io (.sent pid (.blockFetch (.requestRange range))) =>
    { self with
      dispatched := Function.update self.dispatched pid none
      serving := Function.update self.serving pid (.asked range) }
  | .io (.recv pid msgs) => msgs.foldl (fun g msg => g.recv pid msg) self
  | .io (.disconnected pid) =>
    { self with
      dispatched := Function.update self.dispatched pid none
      serving := Function.update self.serving pid .idle }
  | _ => self

def push (self : FetchRecord) : BehaviorOutput → FetchRecord
  | .interfaceCommand (.send pid (.blockFetch (.requestRange range))) =>
    { self with dispatched := Function.update self.dispatched pid (some range) }
  | _ => self

def dispatch (self : FetchRecord) (out : OutboundQueue) : FetchRecord := out.foldl push self

end FetchRecord

/-- `Sent` reports a range that was dispatched to the peer since it last disconnected and that no `Sent` has reported, and
what is received of block fetching is what a server says. -/
def FetchRecord.Allows (self : FetchRecord) : Input → Prop
  | .io (.sent pid (.blockFetch (.requestRange range))) => self.dispatched pid = some range
  | .io (.sent _ (.blockFetch _)) => False
  | .io (.recv _ msgs) => ∀ msg ∈ msgs, msg.channel = Blockfetch.channelId → msg.sender = .server
  | _ => True

instance FetchRecord.decidableAllows (self : FetchRecord) : ∀ input, Decidable (self.Allows input)
  | .io (.sent pid (.blockFetch (.requestRange range))) => inferInstanceAs (Decidable (self.dispatched pid = some range))
  | .io (.recv _ msgs) =>
    inferInstanceAs (Decidable (∀ msg ∈ msgs, msg.channel = Blockfetch.channelId → msg.sender = .server))
  | .io (.sent _ (.blockFetch .clientDone)) | .io (.sent _ (.blockFetch .startBatch))
  | .io (.sent _ (.blockFetch .noBlocks)) | .io (.sent _ (.blockFetch (.block _)))
  | .io (.sent _ (.blockFetch .batchDone)) => inferInstanceAs (Decidable False)
  | .io (.sent _ (.handshake _)) | .io (.sent _ (.keepAlive _)) | .io (.sent _ (.chainSync _))
  | .io (.sent _ (.peerSharing _)) | .io (.sent _ (.txSubmission _)) | .io (.sent _ (.leiosNotify _))
  | .io (.sent _ (.leiosFetch _)) | .io (.connected _) | .io (.disconnected _) | .io (.error ..) | .io .idle
  | .command _ => inferInstanceAs (Decidable True)

def fetches : Monitor InitiatorBehavior Input FetchRecord where
  keep g x := (g.input x.input).dispatch x.target.outbound
  accept g x := g.Allows x.input

instance (g : FetchRecord) (x : Transition InitiatorBehavior Input) : Decidable (fetches.accept g x) :=
  g.decidableAllows x.input

/-- The ranges that a peer holds. -/
def InitiatorState.held (st : InitiatorState) : List BlockRange := st.unsentRange.toList ++ st.inFlight.toList

/-- A peer for which a range is dispatched, or which serves one, and what it has of that. -/
structure FetchStage (st : InitiatorState) (dispatched : Option BlockRange) (serving : Serving) : Prop where
  unsent : st.unsentRange = dispatched
  shows : serving.Shows st
  one : dispatched = none ∨ serving = .idle
  fresh : st.connection = .new → dispatched = none ∧ serving = .idle

/-- Every peer is as recorded, and every range that was requested is in one place, or answered. -/
structure Kept (g : FetchRecord) (s : InitiatorBehavior) : Prop where
  tracked : ∀ pid st, s.peers.lookup pid = some st → FetchStage st (g.dispatched pid) (g.serving pid)
  untracked : ∀ pid, s.peers.lookup pid = none → g.dispatched pid = none ∧ g.serving pid = .idle
  conserved : ∀ range, g.requested.count range = s.blockfetch.requests.count range +
    Tally.overTable (fun st => st.held.count range) s.peers + g.answered.count range

/-! ### The record -/

section Record
variable {g : FetchRecord} {pid : PeerId} {out outs : OutboundQueue} {msg : AnyMessage}

theorem dispatch_append : g.dispatch (out ++ outs) = (g.dispatch out).dispatch outs := List.foldl_append ..

theorem push_recv (o : BehaviorOutput) : (g.recv pid msg).push o = (g.push o).recv pid msg := by
  unfold FetchRecord.push
  split <;> rfl

theorem dispatch_recv : (g.recv pid msg).dispatch out = (g.dispatch out).recv pid msg := by
  induction out generalizing g with
  | nil => rfl
  | cons o out ih =>
    rw [FetchRecord.dispatch, List.foldl_cons, push_recv]
    exact ih

theorem dispatch_offFetch (h : ∀ o ∈ outs, o.OffFetch) : g.dispatch outs = g := by
  induction outs with
  | nil => rfl
  | cons o outs ih =>
    obtain ⟨ho, hrest⟩ := List.forall_mem_cons.1 h
    have hpush : g.push o = g := by
      unfold FetchRecord.push
      split
      · exact ho.elim
      · rfl
    rw [FetchRecord.dispatch, List.foldl_cons, hpush]
    exact ih hrest

theorem FetchFrame.dispatch {st st' : InitiatorState} {out' : OutboundQueue} (h : FetchFrame st out st' out') :
    g.dispatch out' = g.dispatch out := by
  obtain ⟨outs, rfl, houts⟩ := h.pushed
  rw [dispatch_append, dispatch_offFetch houts]

theorem dispatch_dispatchBlock {st : InitiatorState} :
    g.dispatch (BlockFetchBehavior.dispatchBlock pid st out) = g.dispatch out := by
  unfold BlockFetchBehavior.dispatchBlock
  split
  · rw [dispatch_append]
    rfl
  · rfl

theorem recv_serving : (g.recv pid msg).serving pid = (g.serving pid).recv msg := Function.update_self ..

theorem Serving.range_recv (sv : Serving) (msg : AnyMessage) :
    sv.range.toList = (sv.recv msg).range.toList ++ (sv.answers msg).toList := by
  cases sv with
  | idle => rfl
  | asked range =>
    cases msg with
    | blockFetch m => cases m <;> rfl
    | _ => rfl
  | streaming range =>
    cases msg with
    | blockFetch m => cases m <;> rfl
    | _ => rfl

theorem recv_idle (h : g.serving pid = .idle) : g.recv pid msg = g := by
  rw [FetchRecord.recv, h]
  show { g with serving := Function.update g.serving pid .idle, answered := g.answered ++ [] } = g
  rw [← h, Function.update_eq_self, List.append_nil]

end Record

/-! ### One peer -/

section Peer
variable {st st' : InitiatorState} {d : Option BlockRange} {sv : Serving} {msg : AnyMessage} {pid : PeerId}
variable {out out' : OutboundQueue}

theorem Serving.Shows.inFlight (h : sv.Shows st) : st.inFlight = sv.range := by
  cases sv with
  | idle => exact h.2
  | asked range => exact h.2
  | streaming range => exact h.2

theorem Serving.Shows.congr (h : sv.Shows st) (hb : st'.blockfetch = st.blockfetch) (hi : st'.inFlight = st.inFlight) :
    sv.Shows st' := by
  cases sv with
  | idle => exact ⟨hb.trans h.1, hi.trans h.2⟩
  | asked range => exact ⟨hb.trans h.1, hi.trans h.2⟩
  | streaming range =>
    obtain ⟨⟨last, hl⟩, hf⟩ := h
    exact ⟨⟨last, hb.trans hl⟩, hi.trans hf⟩

/-- A peer that is idle in the protocol was sent no range. -/
theorem Serving.Shows.eq_idle (h : sv.Shows st) (hb : st.blockfetch = .idle) : sv = .idle := by
  cases sv with
  | idle => rfl
  | asked range => cases hb.symm.trans h.1
  | streaming range =>
    obtain ⟨⟨last, hl⟩, -⟩ := h
    cases hb.symm.trans hl

theorem BlockFetchBehavior.settleInFlight_idle (hb : st.blockfetch = .idle) :
    settleInFlight st = { st with inFlight := none } := by
  unfold settleInFlight
  rw [hb]

theorem BlockFetchBehavior.settleInFlight_other (hb : st.blockfetch ≠ .idle) : settleInFlight st = st := by
  unfold settleInFlight
  split
  · next h => exact absurd h hb
  · rfl

theorem BlockFetchBehavior.settleInFlight_unsentRange : (settleInFlight st).unsentRange = st.unsentRange := by
  unfold settleInFlight
  split <;> rfl

theorem BlockFetchBehavior.settleInFlight_connection : (settleInFlight st).connection = st.connection := by
  unfold settleInFlight
  split <;> rfl

theorem Serving.shows_settled_idle (hb : st.blockfetch = .idle) :
    idle.Shows (BlockFetchBehavior.settleInFlight st) := by
  rw [BlockFetchBehavior.settleInFlight_idle hb]
  exact ⟨hb, rfl⟩

theorem Serving.Shows.recv (h : sv.Shows st) (hs : msg.channel = Blockfetch.channelId → msg.sender = .server)
    (hb : st'.blockfetch = st.blockfetch.next msg) (hi : st'.inFlight = st.inFlight) :
    (sv.recv msg).Shows (BlockFetchBehavior.settleInFlight st') := by
  have hstay (hne : sv.range.isSome) (hsame : st.blockfetch.next msg = st.blockfetch) :
      sv.Shows (BlockFetchBehavior.settleInFlight st') := by
    rw [hsame] at hb
    rw [BlockFetchBehavior.settleInFlight_other]
    · exact h.congr hb hi
    · intro hidle
      rw [h.eq_idle (hb.symm.trans hidle)] at hne
      cases hne
  cases sv with
  | idle =>
    refine Serving.shows_settled_idle (hb.trans ?_)
    rw [h.1]
    cases msg with
    | blockFetch m => cases m <;> first | rfl | cases hs rfl
    | _ => rfl
  | asked range =>
    obtain ⟨hbusy, hin⟩ := h
    rw [hbusy] at hb hstay
    cases msg with
    | blockFetch m =>
      cases m with
      | noBlocks => exact Serving.shows_settled_idle hb
      | startBatch =>
        rw [BlockFetchBehavior.settleInFlight_other (by rw [hb]; exact fun he => by cases he)]
        exact ⟨⟨none, hb⟩, hi.trans hin⟩
      | _ => exact hstay rfl rfl
    | _ => exact hstay rfl rfl
  | streaming range =>
    obtain ⟨⟨last, hstream⟩, hin⟩ := h
    rw [hstream] at hb hstay
    cases msg with
    | blockFetch m =>
      cases m with
      | batchDone => exact Serving.shows_settled_idle hb
      | block body =>
        rw [BlockFetchBehavior.settleInFlight_other (by rw [hb]; exact fun he => by cases he)]
        exact ⟨⟨some body, hb⟩, hi.trans hin⟩
      | _ => exact hstay rfl rfl
    | _ => exact hstay rfl rfl

namespace FetchStage

theorem held (h : FetchStage st d sv) : st.held = d.toList ++ sv.range.toList := by
  rw [InitiatorState.held, h.unsent, h.shows.inFlight]

theorem frame (h : FetchStage st d sv) (hf : FetchFrame st out st' out') : FetchStage st' d sv :=
  ⟨hf.unsentRange.trans h.unsent, h.shows.congr hf.blockfetch hf.inFlight, h.one, fun hn => h.fresh (hf.new hn)⟩

theorem start (count : UInt32) : FetchStage { InitiatorState.new with errorCount := count } none .idle := by
  refine ⟨?_, ⟨rfl, rfl⟩, .inl rfl, fun _ => ⟨rfl, rfl⟩⟩
  simp [InitiatorState.unsentRange, InitiatorState.new, UnsentRequests.empty]

/-- A server's message moves the protocol as it moves the record, and the slot is cleared where that is idle. -/
theorem recv {st₂ : InitiatorState} (h : FetchStage st d sv) (hs : msg.channel = Blockfetch.channelId → msg.sender = .server)
    (hf : FetchFrame (st.applyMsg msg) out st₂ out') :
    FetchStage (BlockFetchBehavior.settleInFlight st₂) d (sv.recv msg) := by
  have hb : st₂.blockfetch = st.blockfetch.next msg := by rw [hf.blockfetch, st.applyMsg_blockfetch]
  have hi : st₂.inFlight = st.inFlight := by rw [hf.inFlight, st.applyMsg_inFlight]
  refine ⟨?_, h.shows.recv hs hb hi, ?_, fun hn => ?_⟩
  · rw [BlockFetchBehavior.settleInFlight_unsentRange, hf.unsentRange, st.applyMsg_unsentRange]
    exact h.unsent
  · rcases h.one with hd | rfl
    · exact .inl hd
    · exact .inr rfl
  · rw [BlockFetchBehavior.settleInFlight_connection] at hn
    have hconn := hf.new hn
    rw [st.applyMsg_connection] at hconn
    obtain ⟨hd, rfl⟩ := h.fresh hconn
    exact ⟨hd, rfl⟩

/-- `Sent` for a range that is unsent. -/
theorem sent {range : BlockRange} (h : FetchStage st (some range) sv) :
    FetchStage (BlockFetchBehavior.visitOutboundMsg ((st.clearUnsent (.blockFetch (.requestRange range))).applyMsg
      (.blockFetch (.requestRange range)))) none (.asked range) := by
  have hidle : sv = .idle := h.one.resolve_left fun hd => by cases hd
  subst hidle
  obtain ⟨hb, hi⟩ := h.shows
  have hlookup := InitiatorState.unsentRange_eq_some.1 h.unsent
  have hclear : st.clearUnsent (.blockFetch (.requestRange range)) =
      { st with unsent := st.unsent.remove Blockfetch.channelId } := by
    refine if_pos ?_
    rw [InitiatorState.canApply, hb, Bool.and_eq_true]
    exact ⟨decide_eq_true hlookup, rfl⟩
  have happly : ({ st with unsent := st.unsent.remove Blockfetch.channelId : InitiatorState }).applyMsg
      (.blockFetch (.requestRange range)) =
      { st with unsent := st.unsent.remove Blockfetch.channelId, blockfetch := .busy range } := by
    simp only [InitiatorState.applyMsg, hb]
    rfl
  have hvisit : BlockFetchBehavior.visitOutboundMsg
      { st with unsent := st.unsent.remove Blockfetch.channelId, blockfetch := .busy range } =
      { st with
        unsent := st.unsent.remove Blockfetch.channelId, blockfetch := .busy range, inFlight := some range } := by
    simp only [BlockFetchBehavior.visitOutboundMsg, hi]
  rw [hclear, happly, hvisit]
  refine ⟨?_, ⟨rfl, rfl⟩, .inl rfl, fun hn => ?_⟩
  · exact InitiatorState.unsentRange_eq_none.2 (Finmap.lookup_erase _ _)
  · cases (h.fresh hn).1

theorem visitOutboundMsg_eq (h : sv.Shows st) : BlockFetchBehavior.visitOutboundMsg st = st := by
  unfold BlockFetchBehavior.visitOutboundMsg
  split
  · next range hb hi =>
    rw [h.inFlight] at hi
    cases sv with
    | idle => cases hb.symm.trans h.1
    | asked range => cases hi
    | streaming range => cases hi
  · rfl

/-- `Sent` on another channel. -/
theorem sent_other (h : FetchStage st d sv) (hc : ∀ m, msg ≠ .blockFetch m) :
    FetchStage (BlockFetchBehavior.visitOutboundMsg ((st.clearUnsent msg).applyMsg msg)) d sv := by
  have hchannel : Blockfetch.channelId ≠ msg.channel := fun he => by
    obtain ⟨m, hm⟩ := AnyMessage.channel_eq_blockfetch.1 he.symm
    exact hc m hm
  have hnext : st.blockfetch.next msg = st.blockfetch := by
    cases msg with
    | blockFetch m => exact absurd rfl (hc m)
    | _ => rfl
  have hshows : sv.Shows ((st.clearUnsent msg).applyMsg msg) := by
    refine h.shows.congr ?_ ?_
    · rw [InitiatorState.applyMsg_blockfetch, InitiatorState.clearUnsent_blockfetch, hnext]
    · rw [InitiatorState.applyMsg_inFlight, InitiatorState.clearUnsent_inFlight]
  have hunsent : (st.clearUnsent msg).unsentRange = st.unsentRange := by
    unfold InitiatorState.clearUnsent
    split
    · simp only [InitiatorState.unsentRange, UnsentRequests.remove, Finmap.lookup_erase_ne hchannel]
    · rfl
  rw [visitOutboundMsg_eq hshows]
  refine ⟨?_, hshows, h.one, fun hn => h.fresh ?_⟩
  · rw [InitiatorState.applyMsg_unsentRange, hunsent]
    exact h.unsent
  · rwa [InitiatorState.applyMsg_connection, InitiatorState.clearUnsent_connection] at hn

theorem serve (h : FetchStage st d sv) (b : BlockFetchBehavior) (pid : PeerId) (out : OutboundQueue) :
    b.serveNext pid st out = (b, st, out) ∨ ∃ range rest unsent, b.requests = range :: rest ∧ d = none ∧ sv = .idle ∧
      FetchStage { st with unsent } (some range) .idle ∧ b.serveNext pid st out = (⟨rest⟩, { st with unsent },
        out ++ [.interfaceCommand (.send pid (.blockFetch (.requestRange range)))]) := by
  rcases b.serveNext_cases pid st out with heq | ⟨range, rest, unsent, hreq, hconn, hb, hnone, hsome, heq⟩
  · exact .inl heq
  · obtain rfl := h.shows.eq_idle hb
    have hd : d = none := h.unsent.symm.trans hnone
    refine .inr ⟨range, rest, unsent, hreq, hd, rfl, ⟨hsome, h.shows.congr rfl rfl, .inr rfl, fun hn => ?_⟩, heq⟩
    cases hn.symm.trans hconn

end FetchStage

end Peer

/-! ### All peers -/

namespace InitiatorBehavior
variable {s t : InitiatorBehavior} {g g' : FetchRecord} {pid : PeerId} {st st' : InitiatorState}

theorem kept_replace (h : Kept g s) (hl : s.peers.lookup pid = some st) (hpeers : t.peers = s.peers.insert pid st')
    (hothers : ∀ p ≠ pid, g'.dispatched p = g.dispatched p ∧ g'.serving p = g.serving p)
    (hstage : FetchStage st' (g'.dispatched pid) (g'.serving pid))
    (hcount : ∀ range, g.requested.count range + t.blockfetch.requests.count range + st'.held.count range +
      g'.answered.count range = g'.requested.count range + s.blockfetch.requests.count range + st.held.count range +
        g.answered.count range) :
    Kept g' t := by
  refine ⟨fun p stp hp => ?_, fun p hp => ?_, fun range => ?_⟩
  · rw [hpeers] at hp
    by_cases hpid : p = pid
    · subst hpid
      rw [Finmap.lookup_insert] at hp
      obtain rfl := Option.some.inj hp
      exact hstage
    · rw [Finmap.lookup_insert_of_ne _ hpid] at hp
      obtain ⟨hd, hsv⟩ := hothers p hpid
      rw [hd, hsv]
      exact h.tracked p stp hp
  · rw [hpeers] at hp
    by_cases hpid : p = pid
    · subst hpid
      rw [Finmap.lookup_insert] at hp
      cases hp
    · rw [Finmap.lookup_insert_of_ne _ hpid] at hp
      obtain ⟨hd, hsv⟩ := hothers p hpid
      rw [hd, hsv]
      exact h.untracked p hp
  · have htotal := Tally.overTable_replace (fun st => st.held.count range) st' hl
    have hall := h.conserved range
    have hone := hcount range
    rw [hpeers]
    omega

theorem kept_insert (h : Kept g s) (hl : s.peers.lookup pid = none) (hstage : FetchStage st' none .idle)
    (hpeers : t.peers = s.peers.insert pid st') (hqueue : t.blockfetch = s.blockfetch) : Kept g t := by
  obtain ⟨hd, hsv⟩ := h.untracked pid hl
  refine ⟨fun p stp hp => ?_, fun p hp => ?_, fun range => ?_⟩
  · rw [hpeers] at hp
    by_cases hpid : p = pid
    · subst hpid
      rw [Finmap.lookup_insert] at hp
      obtain rfl := Option.some.inj hp
      rw [hd, hsv]
      exact hstage
    · rw [Finmap.lookup_insert_of_ne _ hpid] at hp
      exact h.tracked p stp hp
  · rw [hpeers] at hp
    by_cases hpid : p = pid
    · subst hpid
      exact ⟨hd, hsv⟩
    · rw [Finmap.lookup_insert_of_ne _ hpid] at hp
      exact h.untracked p hp
  · rw [hpeers, hqueue, Tally.overTable_insert _ hl, hstage.held, h.conserved range]
    simp [Serving.range]

theorem kept_framed (h : Kept (g.dispatch s.outbound) s) (hl : s.peers.lookup pid = some st)
    (hf : FetchFrame st s.outbound st' t.outbound) (hpeers : t.peers = s.peers.insert pid st')
    (hqueue : t.blockfetch = s.blockfetch) : Kept (g.dispatch t.outbound) t := by
  have hstage := h.tracked pid st hl
  have hstage' := hstage.frame hf
  rw [hf.dispatch]
  refine kept_replace h hl hpeers (fun p _ => ⟨rfl, rfl⟩) hstage' fun range => ?_
  rw [hqueue, hstage.held, hstage'.held]

theorem kept_served {g₁ : FetchRecord} {st₂ : InitiatorState} {out₂ : OutboundQueue} (h : Kept g s)
    (hl : s.peers.lookup pid = some st) (hg : g₁.dispatch out₂ = g')
    (hothers : ∀ p ≠ pid, g'.dispatched p = g.dispatched p ∧ g'.serving p = g.serving p)
    (hstage : FetchStage st₂ (g'.dispatched pid) (g'.serving pid))
    (hcount : ∀ range, g.requested.count range + st₂.held.count range + g'.answered.count range =
      g'.requested.count range + st.held.count range + g.answered.count range)
    (hafter : FetchFrame (s.blockfetch.serveNext pid st₂ out₂).2.1 (s.blockfetch.serveNext pid st₂ out₂).2.2 st'
      t.outbound)
    (hpeers : t.peers = s.peers.insert pid st') (hqueue : t.blockfetch = (s.blockfetch.serveNext pid st₂ out₂).1) :
    Kept (g₁.dispatch t.outbound) t := by
  rw [hafter.dispatch]
  rcases hstage.serve s.blockfetch pid out₂ with heq | ⟨range, rest, unsent, hreq, hd, hsv, hgranted, heq⟩
  · rw [heq] at hafter hqueue ⊢
    have hstage' := hstage.frame hafter
    rw [hg]
    refine kept_replace h hl hpeers hothers hstage' fun range => ?_
    have hone := hcount range
    rw [hstage.held] at hone
    rw [show t.blockfetch = s.blockfetch from hqueue, hstage'.held]
    omega
  · rw [heq] at hafter hqueue ⊢
    have hstage' := hgranted.frame hafter
    have hpush : g₁.dispatch (out₂ ++ [.interfaceCommand (.send pid (.blockFetch (.requestRange range)))]) =
        { g' with dispatched := Function.update g'.dispatched pid (some range) } := by
      rw [dispatch_append, hg]
      rfl
    rw [hpush]
    refine kept_replace h hl hpeers (fun p hp => ?_) ?_ fun r => ?_
    · exact ⟨(Function.update_of_ne hp _ _).trans (hothers p hp).1, (hothers p hp).2⟩
    · show FetchStage st' (Function.update g'.dispatched pid (some range) pid) (g'.serving pid)
      rw [Function.update_self, hsv]
      exact hstage'
    · have hone := hcount r
      rw [hstage.held, hd, hsv] at hone
      rw [hqueue, hreq, hstage'.held]
      simp only [Option.toList, Serving.range, List.append_nil, List.count_nil, List.count_cons] at hone ⊢
      omega

/-! ### Events and commands -/

theorem serveBlockFetch_kept {iter : List PeerId} (h : Kept (g.dispatch s.outbound) s)
    (hserve : s.serveBlockFetch iter = .ok t) : Kept (g.dispatch t.outbound) t := by
  refine Outcome.fold_inv (fun _ u => Kept (g.dispatch u.outbound) u) (fun _ pid u u' hu hstep => ?_) h hserve
  split at hstep
  · obtain rfl := Outcome.ok.inj hstep
    exact hu
  · rcases modifyPeer_eq_ok.1 hstep with ⟨-, rfl⟩ | ⟨st, r, hl, hr, rfl⟩
    · exact hu
    · obtain rfl := Outcome.ok.inj hr
      exact kept_served hu hl rfl (fun p _ => ⟨rfl, rfl⟩) (hu.tracked pid st hl) (fun _ => rfl) (.refl _ _) rfl rfl

theorem serveLeiosFetch_kept (h : Kept (g.dispatch s.outbound) s) (hserve : s.serveLeiosFetch pid = .ok t) :
    Kept (g.dispatch t.outbound) t := by
  rcases modifyPeer_eq_ok.1 hserve with ⟨-, rfl⟩ | ⟨st, r, hl, hr, rfl⟩
  · exact h
  · obtain rfl := Outcome.ok.inj hr
    exact kept_framed h hl (s.leiosfetch.serveNext_frame pid st s.outbound).toFetchFrame rfl rfl

theorem onTagged_kept {f : InitiatorState → InitiatorState} (hf : ∀ st out, FetchFrame st out (f st) out)
    (h : Kept (g.dispatch s.outbound) s) (ht : s.onTagged pid f = .ok t) : Kept (g.dispatch t.outbound) t := by
  rcases modifyPeer_eq_ok.1 ht with ⟨-, rfl⟩ | ⟨st, r, hl, hr, rfl⟩
  · exact h
  · obtain rfl := Outcome.ok.inj hr
    exact kept_framed h hl ((hf st s.outbound).trans (s.chainsync.visitTagged_frame pid (f st) s.outbound).toFetchFrame)
      rfl rfl

theorem onConnected_kept (h : Kept (g.dispatch s.outbound) s) (hc : s.onConnected pid = .ok t) :
    Kept (g.dispatch t.outbound) t := by
  rcases modifyPeer_eq_ok.1 hc with ⟨-, rfl⟩ | ⟨st, r, hl, hr, rfl⟩
  · exact h
  · obtain ⟨out, hout, hr⟩ := Outcome.bind_eq_ok.1 hr
    obtain rfl := Outcome.ok.inj hr
    have hconnected : FetchFrame st s.outbound { st with connection := .connected } s.outbound :=
      ⟨rfl, rfl, rfl, (by intro hn; cases hn), [], by simp, by simp⟩
    exact kept_framed h hl (hconnected.trans (HandshakeBehavior.visitConnected_frame hout).toFetchFrame) rfl rfl

theorem onErrored_kept (h : Kept (g.dispatch s.outbound) s) (he : s.onErrored pid = .ok t) :
    Kept (g.dispatch t.outbound) t := by
  rcases modifyPeer_eq_ok.1 he with ⟨-, rfl⟩ | ⟨st, r, hl, hr, rfl⟩
  · exact h
  · obtain ⟨st', hst', hr⟩ := Outcome.bind_eq_ok.1 hr
    obtain rfl := Outcome.ok.inj hr
    obtain rfl := countError_eq_ok hst'
    have herrored : FetchFrame st s.outbound
        { st with connection := .errored, errorCount := st.errorCount + 1 } s.outbound :=
      ⟨rfl, rfl, rfl, (by intro hn; cases hn), [], by simp, by simp⟩
    exact kept_framed h hl (herrored.trans (s.connection.visitErrored_frame pid _ s.outbound).toFetchFrame) rfl rfl

theorem onDiscovered_blockfetch (h : s.onDiscovered pid = .ok t) : t.blockfetch = s.blockfetch := by
  obtain ⟨⟨subs, st⟩, hsubs, h⟩ := Outcome.bind_eq_ok.1 h
  obtain ⟨p, -, hsubs⟩ := Outcome.bind_eq_ok.1 hsubs
  obtain ⟨rfl, rfl⟩ := Prod.mk.inj (Outcome.ok.inj hsubs)
  obtain rfl := Outcome.ok.inj h
  rfl

theorem onDiscovered_kept (h : Kept (g.dispatch s.outbound) s) (hnew : s.isNewPeer pid = true)
    (hd : s.onDiscovered pid = .ok t) : Kept (g.dispatch t.outbound) t := by
  obtain ⟨-, hout, hpeers⟩ := onDiscovered_eq hd
  have hqueue := onDiscovered_blockfetch hd
  have hstart : FetchStage .new none .idle := .start 0
  rw [hout]
  cases hl : s.peers.lookup pid with
  | none => exact kept_insert h hl hstart hpeers hqueue
  | some st =>
    have hstage := h.tracked pid st hl
    have hconn : st.connection = .new := by simpa [isNewPeer, hl] using hnew
    obtain ⟨hd, hsv⟩ := hstage.fresh hconn
    refine kept_replace h hl hpeers (fun p _ => ⟨rfl, rfl⟩) ?_ fun range => ?_
    · rw [hd, hsv]
      exact hstart
    · rw [hstage.held, hstart.held, hd, hsv, hqueue]

theorem housekeeping_kept {iter : Iteration} (h : Kept (g.dispatch s.outbound) s) (hk : s.housekeeping iter = .ok t) :
    Kept (g.dispatch t.outbound) t := by
  obtain ⟨u, hu, hk⟩ := Outcome.bind_eq_ok.1 hk
  have hvisited : Kept (g.dispatch u.outbound) u := by
    refine Outcome.fold_inv (fun _ u => Kept (g.dispatch u.outbound) u) (fun _ pid u u' hu hstep => ?_) h hu
    rcases modifyPeer_eq_ok.1 hstep with ⟨-, rfl⟩ | ⟨st, r, hl, hr, rfl⟩
    · exact hu
    · obtain ⟨p, st₂, out₂, hp, -, hbefore, hqueue, hafter⟩ := SubBehaviors.visitHousekeeping_inv hr
      have hframe := (PromotionBehavior.categorizePeer_frame hp u.outbound).trans hbefore.toFetchFrame
      have hstage := hu.tracked pid st hl
      have hstage' := hstage.frame hframe
      exact kept_served hu hl hframe.dispatch (fun p _ => ⟨rfl, rfl⟩) hstage'
        (fun range => by rw [hstage.held, hstage'.held]) hafter.toFetchFrame rfl hqueue
  obtain ⟨deficit, -, hk⟩ := Outcome.bind_eq_ok.1 hk
  split at hk
  · obtain rfl := Outcome.ok.inj hk
    exact hvisited
  · have hdrained : Kept (g.dispatch u.outbound)
        { u with discovery := (u.discovery.drainNewPeers iter.discovered deficit).2 } :=
      ⟨hvisited.tracked, hvisited.untracked, hvisited.conserved⟩
    refine Outcome.fold_inv (fun _ u => Kept (g.dispatch u.outbound) u) (fun _ pid u u' hu hstep => ?_) hdrained hk
    split at hstep
    · obtain rfl := Outcome.ok.inj hstep
      exact hu
    · next hnot =>
      refine onDiscovered_kept hu ?_ hstep
      rw [isNewPeer, Finmap.lookup_eq_none.2 hnot]
      rfl

theorem onInboundMsg_kept {msg : AnyMessage} (h : Kept (g.dispatch s.outbound) s)
    (hs : msg.channel = Blockfetch.channelId → msg.sender = .server) (hm : s.onInboundMsg pid msg = .ok t) :
    Kept ((g.recv pid msg).dispatch t.outbound) t := by
  rcases modifyPeer_eq_ok.1 hm with ⟨hl, rfl⟩ | ⟨st, r, hl, hr, rfl⟩
  · rw [dispatch_recv, recv_idle (h.untracked pid hl).2]
    exact h
  · obtain ⟨p, st₂, out₂, hp, -, hbefore, hqueue, hafter⟩ := SubBehaviors.visitInboundMsg_inv hr
    have hframe := (PromotionBehavior.categorizePeer_frame hp s.outbound).trans hbefore.toFetchFrame
    have hstage := h.tracked pid st hl
    have hsettled := hstage.recv hs hframe
    have hrecord : (g.recv pid msg).dispatch (BlockFetchBehavior.dispatchBlock pid st₂ out₂) =
        (g.dispatch s.outbound).recv pid msg := by
      rw [dispatch_dispatchBlock, hframe.dispatch, dispatch_recv]
    refine kept_served h hl hrecord (fun p hp => ⟨rfl, Function.update_of_ne hp _ _⟩) ?_ (fun range => ?_)
      hafter.toFetchFrame rfl hqueue
    · rw [recv_serving]
      exact hsettled
    · have hranges := congrArg (List.count range) (Serving.range_recv ((g.dispatch s.outbound).serving pid) msg)
      rw [hstage.held, hsettled.held]
      simp only [FetchRecord.recv, List.count_append] at hranges ⊢
      omega

theorem onInboundMsgs_kept {msgs : List AnyMessage} (h : Kept (g.dispatch s.outbound) s)
    (hs : ∀ msg ∈ msgs, msg.channel = Blockfetch.channelId → msg.sender = .server)
    (hm : s.onInboundMsgs pid msgs = .ok t) :
    Kept ((msgs.foldl (fun g msg => g.recv pid msg) g).dispatch t.outbound) t := by
  induction msgs generalizing s g with
  | nil =>
    obtain rfl := Outcome.ok.inj hm
    exact h
  | cons msg msgs ih =>
    obtain ⟨u, hu, hm⟩ := Outcome.bind_eq_ok.1 hm
    obtain ⟨hone, hrest⟩ := List.forall_mem_cons.1 hs
    exact ih (onInboundMsg_kept h hone hu) hrest hm

theorem onOutboundMsg_kept {msg : AnyMessage} (h : Kept g s) (hout : s.outbound = [])
    (haccept : g.Allows (.io (.sent pid msg))) (hm : s.onOutboundMsg pid msg = .ok t) :
    Kept ((g.input (.io (.sent pid msg))).dispatch t.outbound) t := by
  rcases modifyPeer_eq_ok.1 hm with ⟨hl, rfl⟩ | ⟨st, r, hl, hr, rfl⟩
  · obtain ⟨hd, -⟩ := h.untracked pid hl
    rw [hout]
    cases msg with
    | blockFetch m =>
      cases m with
      | requestRange range =>
        have hrange : g.dispatched pid = some range := haccept
        cases hd.symm.trans hrange
      | _ => exact absurd haccept id
    | _ => exact h
  · obtain rfl := Outcome.ok.inj hr
    have hstage := h.tracked pid st hl
    show Kept (FetchRecord.dispatch _ s.outbound) _
    rw [hout]
    have hother (hc : ∀ m, msg ≠ .blockFetch m) : Kept g { s with
        peers := s.peers.insert pid (BlockFetchBehavior.visitOutboundMsg ((st.clearUnsent msg).applyMsg msg)) } := by
      have hstage' := hstage.sent_other hc
      refine kept_replace h hl rfl (fun p _ => ⟨rfl, rfl⟩) hstage' fun range => ?_
      rw [hstage.held, hstage'.held]
    cases msg with
    | blockFetch m =>
      cases m with
      | requestRange range =>
        have hrange : g.dispatched pid = some range := haccept
        rw [hrange] at hstage
        have hidle : g.serving pid = .idle := hstage.one.resolve_left fun hd => by cases hd
        have hsent := hstage.sent
        refine kept_replace h hl rfl (fun p hp => ?_) ?_ fun r => ?_
        · exact ⟨Function.update_of_ne hp _ _, Function.update_of_ne hp _ _⟩
        · show FetchStage _ (Function.update g.dispatched pid none pid) (Function.update g.serving pid (.asked range) pid)
          rw [Function.update_self, Function.update_self]
          exact hsent
        · rw [hstage.held, hidle]
          show _ + _ + List.count r (InitiatorState.held (BlockFetchBehavior.visitOutboundMsg _)) + _ = _
          rw [hsent.held]
          rfl
      | _ => exact absurd haccept id
    | _ => exact hother (by simp)

theorem onDisconnected_kept {iter : List PeerId} (h : Kept g s) (hout : s.outbound = [])
    (hd : s.onDisconnected iter pid = .ok t) :
    Kept ((g.input (.io (.disconnected pid))).dispatch t.outbound) t := by
  obtain ⟨u, hu, hd⟩ := Outcome.bind_eq_ok.1 hd
  refine serveBlockFetch_kept ?_ hd
  rcases modifyPeer_eq_ok.1 hu with ⟨hl, rfl⟩ | ⟨st, r, hl, hr, rfl⟩
  · obtain ⟨hd, hsv⟩ := h.untracked pid hl
    have hsame : g.input (.io (.disconnected pid)) = g := by
      show { g with
        dispatched := Function.update g.dispatched pid none, serving := Function.update g.serving pid .idle } = g
      rw [← hd, ← hsv, Function.update_eq_self, Function.update_eq_self]
    rw [hsame, hout]
    exact h
  · obtain rfl := Outcome.ok.inj hr
    have hstage := h.tracked pid st hl
    show Kept (FetchRecord.dispatch _ s.outbound) _
    rw [hout]
    refine kept_replace h hl rfl (fun p hp => ?_) ?_ fun range => ?_
    · exact ⟨Function.update_of_ne hp _ _, Function.update_of_ne hp _ _⟩
    · show FetchStage _ (Function.update g.dispatched pid none pid) (Function.update g.serving pid .idle pid)
      rw [Function.update_self, Function.update_self]
      exact .start _
    · have hreset : st.reset.held = [] := (FetchStage.start st.errorCount).held
      show g.requested.count range + (st.unsentRange.toList ++ (st.inFlight.toList ++ s.blockfetch.requests)).count range +
        st.reset.held.count range + g.answered.count range =
        g.requested.count range + s.blockfetch.requests.count range + st.held.count range + g.answered.count range
      rw [hreset, InitiatorState.held, List.count_append, List.count_append, List.count_append, List.count_nil]
      omega

theorem handle_kept {iter : Iteration} {input : Input} (h : Kept g s) (hout : s.outbound = []) (haccept : g.Allows input)
    (hs : s.handle iter input = .ok t) :
    Kept ((g.input input).dispatch t.outbound) t := by
  have hstart : Kept (g.dispatch s.outbound) s := by
    rw [hout]
    exact h
  cases input with
  | io event =>
    cases event with
    | connected pid => exact onConnected_kept hstart hs
    | disconnected pid => exact onDisconnected_kept h hout hs
    | sent pid msg => exact onOutboundMsg_kept h hout haccept hs
    | recv pid msgs => exact onInboundMsgs_kept hstart haccept hs
    | error pid text => exact onErrored_kept hstart hs
    | idle => exact housekeeping_kept hstart hs
  | command cmd =>
    cases cmd with
    | includePeer pid =>
      simp only [handle, execute] at hs
      split at hs
      · next hnew => exact onDiscovered_kept hstart hnew hs
      · obtain rfl := Outcome.ok.inj hs
        exact hstart
    | housekeeping => exact housekeeping_kept hstart hs
    | startSync points =>
      obtain rfl := Outcome.ok.inj hs
      exact ⟨hstart.tracked, hstart.untracked, hstart.conserved⟩
    | continueSync pid =>
      refine onTagged_kept (fun st out => ?_) hstart hs
      exact ⟨rfl, rfl, rfl, id, [], by simp, by simp⟩
    | requestBlocks range =>
      refine serveBlockFetch_kept (s := { s with blockfetch := s.blockfetch.enqueue range }) ?_ hs
      rw [hout]
      refine ⟨h.tracked, h.untracked, fun r => ?_⟩
      have hbefore := h.conserved r
      show (g.requested ++ [range]).count r = (s.blockfetch.requests ++ [range]).count r +
        Tally.overTable (fun st => st.held.count r) s.peers + g.answered.count r
      rw [List.count_append, List.count_append]
      omega
    | sendTx pid id body =>
      obtain rfl := Outcome.ok.inj hs
      exact hstart
    | fetchEb pid eb =>
      refine serveLeiosFetch_kept (s := { s with leiosfetch := s.leiosfetch.enqueue pid (.block eb) }) ?_ hs
      exact ⟨hstart.tracked, hstart.untracked, hstart.conserved⟩
    | fetchEbTxs pid eb bitmaps =>
      refine serveLeiosFetch_kept (s := { s with leiosfetch := s.leiosfetch.enqueue pid (.blockTxs eb bitmaps) }) ?_ hs
      exact ⟨hstart.tracked, hstart.untracked, hstart.conserved⟩
    | banPeer pid =>
      refine onTagged_kept (fun st out => ?_) hstart hs
      exact ⟨rfl, rfl, rfl, id, [], by simp, by simp⟩
    | demotePeer pid =>
      refine onTagged_kept (fun st out => ?_) hstart hs
      exact ⟨rfl, rfl, rfl, id, [], by simp, by simp⟩

/-! ### Runs -/

theorem Step.kept {input : Input} (h : Kept g s) (haccept : fetches.accept g ⟨s, input, t⟩) (hs : s.Step input t) :
    Kept (fetches.keep g ⟨s, input, t⟩) t := by
  obtain ⟨iter, -, hs⟩ := hs
  exact handle_kept (s := { s with outbound := [] }) ⟨h.tracked, h.untracked, h.conserved⟩ rfl haccept hs

theorem Init.kept (h : s.Init) : Kept {} s := by
  obtain ⟨promotion, handshake, rfl⟩ := h
  refine ⟨fun pid st hl => ?_, fun pid _ => ⟨rfl, rfl⟩, fun range => ?_⟩
  · cases hl
  · rfl

/-- In every run, whatever arrives and disconnects and in whatever order, every range that was requested is in one place
or was answered, and no peer works at more than one. -/
theorem ranges_conserved {tr : List (Transition InitiatorBehavior Input)} (h : Run Init Step tr s)
    (haccept : fetches.Accepts {} tr) : Kept (fetches.after {} tr) s :=
  h.monitored (K := fun _ => True) (fun _ => Init.kept) (fun _ _ _ _ hkept hacc _ hs => hs.kept hkept hacc) haccept
    fun _ _ => trivial

/-- A range is sent to a peer, which disconnects while it streams the batch, and is back in the queue. -/
theorem ranges_conserved_disconnected : ∃ tr s, Run Init Step tr s ∧ s.blockfetch.requests = [(.origin, .origin)] ∧
    Kept (fetches.after {} tr) s := by
  have hplays : (new .default .default).plays (fetching ⟨"a", 1⟩ (.origin, .origin) ++
      [(⟨[⟨"a", 1⟩], []⟩, .io (.recv ⟨"a", 1⟩ [.blockFetch .startBatch])),
        (⟨[⟨"a", 1⟩], []⟩, .io (.disconnected ⟨"a", 1⟩))])
      (fun tr s => s.blockfetch.requests = [(.origin, .origin)] ∧ fetches.Accepts {} tr) = true := by
    decide
  obtain ⟨tr, s, hrun, htest⟩ := exists_run_of_plays ⟨_, _, rfl⟩ hplays
  obtain ⟨hqueue, haccept⟩ := of_decide_eq_true htest
  exact ⟨tr, s, hrun, hqueue, ranges_conserved hrun haccept⟩

end InitiatorBehavior
end Pallas.Network2
