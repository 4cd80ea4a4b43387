import Pallas.Network2.Responder
import Pallas.Network2.Violations

/-!
# The initiator and its remotes

A world is one initiator and, for each peer, the state that a responder keeps of the other end of the connection, with
what is under way in both directions. Each side moves its protocols when its message is sent, and the other when it
arrives; between the two, messages of one mini-protocol keep their order and those of different ones do not.

What is under way in one direction and what is under way in the other never belong to the same protocol, because the
party that has agency is the only one whose messages are taken. So both are taken by one common state, which either side
reaches through what it has sent (`Joined`), and a remote that sends what its own state takes keeps to the protocols.
-/

namespace Pallas.Network2

/-! ### Both directions of a connection -/

def Party.other : Party → Party
  | .client => .server
  | .server => .client

namespace ProtocolStates
variable {ps : ProtocolStates} {msg msg' : AnyMessage} {msgs pre post : List AnyMessage} {p : Party}

/-- The states after some messages. -/
def nexts (self : ProtocolStates) (msgs : List AnyMessage) : ProtocolStates := msgs.foldl next self

/-- Each of the messages is taken after those before it. -/
def AcceptsAll : ProtocolStates → List AnyMessage → Prop
  | _, [] => True
  | self, msg :: msgs => self.accepts msg = true ∧ (self.next msg).AcceptsAll msgs

@[simp] theorem nexts_nil : ps.nexts [] = ps := rfl

@[simp] theorem nexts_cons : ps.nexts (msg :: msgs) = (ps.next msg).nexts msgs := rfl

theorem nexts_concat : ps.nexts (msgs ++ [msg]) = (ps.nexts msgs).next msg := List.foldl_concat ..

theorem acceptsAll_concat : ps.AcceptsAll (msgs ++ [msg]) ↔ ps.AcceptsAll msgs ∧ (ps.nexts msgs).accepts msg = true := by
  induction msgs generalizing ps with
  | nil => simp [AcceptsAll]
  | cons m msgs ih => simp [AcceptsAll, ih, and_assoc]

/-- Messages of different protocols can be taken in either order. -/
theorem next_comm (hc : msg'.channel ≠ msg.channel) : (ps.next msg).next msg' = (ps.next msg').next msg := by
  cases msg <;> cases msg' <;> first | rfl | exact absurd (Eq.refl _) hc

theorem agency_next_other (hc : msg'.channel ≠ msg.channel) : (ps.next msg).agency msg' = ps.agency msg' := by
  cases msg <;> cases msg' <;> first | rfl | exact absurd (Eq.refl _) hc

theorem accepts_nexts_other (hc : ∀ m ∈ msgs, m.channel ≠ msg.channel) : (ps.nexts msgs).accepts msg = ps.accepts msg := by
  induction msgs generalizing ps with
  | nil => rfl
  | cons m msgs ih =>
    rw [nexts_cons, ih fun m' hm => hc m' (List.mem_cons_of_mem _ hm)]
    exact next_accepts_other (hc m (List.mem_cons_self ..)).symm

theorem next_nexts_comm (hc : ∀ m ∈ msgs, m.channel ≠ msg.channel) :
    (ps.next msg).nexts msgs = (ps.nexts msgs).next msg := by
  induction msgs generalizing ps with
  | nil => rfl
  | cons m msgs ih =>
    rw [nexts_cons, nexts_cons, next_comm (hc m (List.mem_cons_self ..))]
    exact ih fun m' hm => hc m' (List.mem_cons_of_mem _ hm)

/-- A message moves past those of other protocols. -/
theorem nexts_extract (hc : ∀ m ∈ pre, m.channel ≠ msg.channel) :
    ps.nexts (pre ++ msg :: post) = (ps.next msg).nexts (pre ++ post) := by
  have happend : ∀ (s : ProtocolStates) (a b : List AnyMessage), s.nexts (a ++ b) = (s.nexts a).nexts b :=
    fun s a b => List.foldl_append ..
  rw [happend, happend, nexts_cons, next_nexts_comm hc]

theorem AcceptsAll.next (h : ps.AcceptsAll msgs) (hc : ∀ m ∈ msgs, m.channel ≠ msg.channel) :
    (ps.next msg).AcceptsAll msgs := by
  induction msgs generalizing ps with
  | nil => trivial
  | cons m msgs ih =>
    have hm := hc m (List.mem_cons_self ..)
    refine ⟨?_, ?_⟩
    · rw [next_accepts_other hm]
      exact h.1
    · rw [next_comm hm]
      exact ih h.2 fun m' hm => hc m' (List.mem_cons_of_mem _ hm)

theorem AcceptsAll.extract (h : ps.AcceptsAll (pre ++ msg :: post)) (hc : ∀ m ∈ pre, m.channel ≠ msg.channel) :
    ps.accepts msg = true ∧ (ps.next msg).AcceptsAll (pre ++ post) := by
  induction pre generalizing ps with
  | nil => exact h
  | cons m pre ih =>
    have hm := hc m (List.mem_cons_self ..)
    obtain ⟨hacc, hrest⟩ := ih h.2 fun m' hm => hc m' (List.mem_cons_of_mem _ hm)
    refine ⟨?_, ?_, ?_⟩
    · rwa [next_accepts_other hm.symm] at hacc
    · rw [next_accepts_other hm]
      exact h.1
    · rw [next_comm hm]
      exact hrest

theorem AcceptsAll.agency (h : ps.AcceptsAll msgs) (hs : ∀ m ∈ msgs, m.sender = p) (hm : msg ∈ msgs) :
    ps.agency msg = some p := by
  induction msgs generalizing ps with
  | nil => cases hm
  | cons m msgs ih =>
    by_cases hc : msg.channel = m.channel
    · rw [agency_congr hc, agency_of_accepts h.1, hs m (List.mem_cons_self ..)]
    · rcases List.mem_cons.1 hm with rfl | hm
      · exact absurd rfl hc
      · rw [← agency_next_other hc]
        exact ih h.2 (fun m' hm' => hs m' (List.mem_cons_of_mem _ hm')) hm

end ProtocolStates

/-- What the party `p` has sent is `out`, and what has been sent to it is `back`; both are still under way, and are taken
by the common state. -/
structure Joined (p : Party) (common near far : ProtocolStates) (out back : List AnyMessage) : Prop where
  near_eq : near = common.nexts out
  far_eq : far = common.nexts back
  sent : common.AcceptsAll out
  received : common.AcceptsAll back
  ours : ∀ m ∈ out, m.sender = p
  theirs : ∀ m ∈ back, m.sender = p.other

namespace Joined
variable {p : Party} {common near far : ProtocolStates} {out back pre post : List AnyMessage} {msg : AnyMessage}

theorem new (p : Party) (ps : ProtocolStates) : Joined p ps ps ps [] [] :=
  by
  refine ⟨rfl, rfl, trivial, trivial, ?_, ?_⟩ <;>
    · intro m hm
      cases hm

theorem symm (h : Joined p common near far out back) : Joined p.other common far near back out := by
  refine ⟨h.far_eq, h.near_eq, h.received, h.sent, h.theirs, fun m hm => ?_⟩
  rw [h.ours m hm]
  cases p <;> rfl

theorem send (h : Joined p common near far out back) (hs : msg.sender = p) (ha : near.accepts msg = true) :
    Joined p common (near.next msg) far (out ++ [msg]) back := by
  rw [h.near_eq] at ha
  refine ⟨?_, h.far_eq, ProtocolStates.acceptsAll_concat.2 ⟨h.sent, ha⟩, h.received, fun m hm => ?_, h.theirs⟩
  · rw [ProtocolStates.nexts_concat, h.near_eq]
  · rcases List.mem_append.1 hm with hm | hm
    · exact h.ours m hm
    · rw [List.mem_singleton.1 hm]
      exact hs

/-- The first message of a protocol is taken when it arrives. -/
theorem arrive (h : Joined p common near far out (pre ++ msg :: post)) (hc : ∀ m ∈ pre, m.channel ≠ msg.channel) :
    near.accepts msg = true ∧ Joined p (common.next msg) (near.next msg) far out (pre ++ post) := by
  obtain ⟨hacc, hrest⟩ := h.received.extract hc
  have hmem : msg ∈ pre ++ msg :: post := List.mem_append_right _ (List.mem_cons_self ..)
  have hsender := h.theirs msg hmem
  have hother : ∀ m ∈ out, m.channel ≠ msg.channel := by
    intro m hm hch
    have hours := h.sent.agency h.ours hm
    rw [ProtocolStates.agency_congr hch, ProtocolStates.agency_of_accepts hacc, hsender] at hours
    cases p <;> cases hours
  refine ⟨?_, ?_, ?_, h.sent.next hother, hrest, h.ours, fun m hm => h.theirs m ?_⟩
  · rw [h.near_eq, ProtocolStates.accepts_nexts_other hother]
    exact hacc
  · rw [h.near_eq, ProtocolStates.next_nexts_comm hother]
  · rw [h.far_eq, ProtocolStates.nexts_extract hc]
  · rcases List.mem_append.1 hm with hm | hm
    · exact List.mem_append_left _ hm
    · exact List.mem_append_right _ (List.mem_cons_of_mem _ hm)

end Joined

/-! ### The world -/

/-- The queue without its first message of the protocol, when that is the message. -/
def takeFirst : List AnyMessage → AnyMessage → Option (List AnyMessage)
  | [], _ => none
  | m :: queue, msg =>
    if m.channel = msg.channel then if m = msg then some queue else none
    else (takeFirst queue msg).map (m :: ·)

/-- The queue without the messages, each of which is the first of its protocol. -/
def takeAll : List AnyMessage → List AnyMessage → Option (List AnyMessage)
  | queue, [] => some queue
  | queue, msg :: msgs => (takeFirst queue msg).bind (takeAll · msgs)

/-- The other end of a connection, and what is under way. -/
structure Wire where
  remote : ResponderState
  toRemote : List AnyMessage
  toUs : List AnyMessage

def Wire.new : Wire := ⟨.new, [], []⟩

abbrev Wires := PeerId → Wire

structure World where
  initiator : InitiatorBehavior
  lines : Lines
  wires : Wires

/-- An input of the initiator, or what a remote does: a message arrives there, it sends one, or it sees to its own
affairs. -/
inductive WorldInput where
  | initiator (input : Input)
  | arrives (pid : PeerId) (msg : AnyMessage)
  | sends (pid : PeerId) (msg : AnyMessage)
  | works (pid : PeerId) (remote : ResponderState)

/-- What an input of the initiator does to the wires; nothing where it cannot occur. A message is under way from its
`Sent` on. -/
def Wires.carry (self : Wires) (lines : Lines) : Input → Option Wires
  | .io (.connected pid) =>
    if (lines pid).online then none
    else some (Function.update self pid { Wire.new with remote := { ResponderState.new with connection := .connected } })
  | .io (.disconnected pid) => some (Function.update self pid .new)
  | .io (.sent pid msg) =>
    if msg ∈ (lines pid).dispatched then
      some (Function.update self pid { self pid with toRemote := (self pid).toRemote ++ [msg] })
    else none
  | .io (.recv pid msgs) =>
    (takeAll (self pid).toUs msgs).map fun rest => Function.update self pid { self pid with toUs := rest }
  | .io (.error ..) | .io .idle | .command _ => some self

/-- What a remote does. It sends what a server may, when its own state takes it. -/
def Wires.act (self : Wires) : WorldInput → Option Wires
  | .initiator _ => none
  | .arrives pid msg => (takeFirst (self pid).toRemote msg).map fun rest =>
      Function.update self pid { self pid with remote := (self pid).remote.applyMsg msg, toRemote := rest }
  | .sends pid msg =>
    if msg.sender = .server ∧ (self pid).remote.protocols.accepts msg = true then
      some (Function.update self pid
        { self pid with
          remote := ((self pid).remote.clearUnsent msg).applyMsg msg
          toUs := (self pid).toUs ++ [msg] })
    else none
  | .works pid remote =>
    if remote.protocols = (self pid).remote.protocols ∧ remote.violation = (self pid).remote.violation then
      some (Function.update self pid { self pid with remote })
    else none

namespace World

/-- An initiator to which nothing has happened, and no connections. -/
def Init (w : World) : Prop := InitiatorBehavior.Init w.initiator ∧ w.lines = (fun _ => .new) ∧ w.wires = fun _ => .new

inductive Step (w : World) : WorldInput → World → Prop
  | initiator {input : Input} {t : InitiatorBehavior} {wires : Wires} : w.initiator.Step input t →
      w.wires.carry w.lines input = some wires →
      w.Step (.initiator input) ⟨t, InitiatorBehavior.lines.keep w.lines ⟨w.initiator, input, t⟩, wires⟩
  | remote {input : WorldInput} {wires : Wires} : w.wires.act input = some wires → w.Step input { w with wires }

/-- One step, if `iter` lists the tables of the initiator. -/
def move (w : World) (iter : Iteration) : WorldInput → Option World
  | .initiator input =>
    if w.initiator.Lists iter then
      match { w.initiator with outbound := [] : InitiatorBehavior }.handle iter input with
      | .ok t => (w.wires.carry w.lines input).map fun wires =>
          ⟨t, InitiatorBehavior.lines.keep w.lines ⟨w.initiator, input, t⟩, wires⟩
      | _ => none
    else none
  | input => (w.wires.act input).map fun wires => { w with wires }

theorem step_of_move (w : World) (iter : Iteration) (input : WorldInput) (w' : World) (h : w.move iter input = some w') :
    w.Step input w' := by
  have hact (h : (w.wires.act input).map (fun wires => { w with wires }) = some w') : w.Step input w' := by
    obtain ⟨wires, hwires, rfl⟩ := Option.map_eq_some_iff.1 h
    exact .remote hwires
  cases input with
  | initiator input =>
    simp only [move] at h
    split at h
    · next hlists =>
      split at h
      · next t ht =>
        obtain ⟨wires, hwires, rfl⟩ := Option.map_eq_some_iff.1 h
        exact .initiator ⟨iter, hlists, ht⟩ hwires
      · cases h
    · cases h
  | arrives pid msg => exact hact h
  | sends pid msg => exact hact h
  | works pid remote => exact hact h

end World

/-! ### The invariant -/

theorem takeFirst_eq_some {queue rest : List AnyMessage} {msg : AnyMessage} (h : takeFirst queue msg = some rest) :
    ∃ pre post, queue = pre ++ msg :: post ∧ rest = pre ++ post ∧ ∀ m ∈ pre, m.channel ≠ msg.channel := by
  induction queue generalizing rest with
  | nil => cases h
  | cons m queue ih =>
    unfold takeFirst at h
    split at h
    · split at h
      · next heq =>
        obtain rfl := Option.some.inj h
        exact ⟨[], queue, by rw [heq, List.nil_append], rfl, fun m hm => by cases hm⟩
      · cases h
    · next hne =>
      obtain ⟨rest, hrest, rfl⟩ := Option.map_eq_some_iff.1 h
      obtain ⟨pre, post, rfl, rfl, hc⟩ := ih hrest
      refine ⟨m :: pre, post, rfl, rfl, fun m' hm => ?_⟩
      rcases List.mem_cons.1 hm with rfl | hm
      · exact hne
      · exact hc m' hm

/-- The wire of a peer goes with its line: both ends are joined, and the remote has nothing to complain about. -/
structure Wire.Carries (wire : Wire) (l : Line) : Prop where
  joined : ∃ common, Joined .client common l.side wire.remote.protocols wire.toRemote wire.toUs
  blameless : wire.remote.violation = false

namespace Wire.Carries
variable {wire : Wire} {l : Line} {msg : AnyMessage} {msgs rest : List AnyMessage}

theorem new : Wire.new.Carries .new := ⟨⟨.new, .new _ _⟩, rfl⟩

theorem congr {l' : Line} (h : wire.Carries l) (hs : l'.side = l.side) : wire.Carries l' := ⟨hs ▸ h.joined, h.blameless⟩

theorem sent (h : wire.Carries l) (hs : msg.sender = .client) (ha : l.side.accepts msg = true) :
    { wire with toRemote := wire.toRemote ++ [msg] : Wire }.Carries (l.sent msg) := by
  obtain ⟨common, hjoined⟩ := h.joined
  exact ⟨⟨common, hjoined.send hs ha⟩, h.blameless⟩

theorem recv (h : wire.Carries l) (ht : takeAll wire.toUs msgs = some rest) :
    l.Replies msgs ∧ { wire with toUs := rest : Wire }.Carries (msgs.foldl Line.recv l) := by
  induction msgs generalizing wire l with
  | nil =>
    obtain rfl := Option.some.inj ht
    exact ⟨trivial, h⟩
  | cons msg msgs ih =>
    obtain ⟨queue, hfirst, ht⟩ := Option.bind_eq_some_iff.1 ht
    obtain ⟨pre, post, hqueue, rfl, hc⟩ := takeFirst_eq_some hfirst
    obtain ⟨common, hjoined⟩ := h.joined
    rw [hqueue] at hjoined
    have hsender := hjoined.theirs msg (List.mem_append_right _ (List.mem_cons_self ..))
    obtain ⟨hacc, hjoined⟩ := hjoined.arrive hc
    have hnext : { wire with toUs := pre ++ post : Wire }.Carries (l.recv msg) := ⟨⟨_, hjoined⟩, h.blameless⟩
    obtain ⟨hreplies, hcarries⟩ := ih hnext ht
    exact ⟨⟨⟨hsender, hacc⟩, hreplies⟩, hcarries⟩

theorem arrives (h : wire.Carries l) (ht : takeFirst wire.toRemote msg = some rest) :
    { wire with remote := wire.remote.applyMsg msg, toRemote := rest : Wire }.Carries l := by
  obtain ⟨pre, post, hqueue, rfl, hc⟩ := takeFirst_eq_some ht
  obtain ⟨common, hjoined⟩ := h.joined
  rw [hqueue] at hjoined
  obtain ⟨hacc, hjoined⟩ := hjoined.symm.arrive hc
  refine ⟨⟨common.next msg, ?_⟩, ?_⟩
  · rw [ResponderState.applyMsg_protocols]
    exact hjoined.symm
  · rw [ResponderState.applyMsg_violation, hacc, h.blameless]
    rfl

theorem sends (h : wire.Carries l) (hs : msg.sender = .server) (ha : wire.remote.protocols.accepts msg = true) :
    { wire with
      remote := (wire.remote.clearUnsent msg).applyMsg msg
      toUs := wire.toUs ++ [msg] : Wire }.Carries l := by
  obtain ⟨common, hjoined⟩ := h.joined
  have hclear : (wire.remote.clearUnsent msg).protocols = wire.remote.protocols ∧
      (wire.remote.clearUnsent msg).violation = wire.remote.violation := by
    unfold ResponderState.clearUnsent
    split <;> exact ⟨rfl, rfl⟩
  refine ⟨⟨common, ?_⟩, ?_⟩
  · rw [ResponderState.applyMsg_protocols, hclear.1]
    exact (hjoined.symm.send hs ha).symm
  · rw [ResponderState.applyMsg_violation, hclear.1, hclear.2, ha, h.blameless]
    rfl

theorem works {remote : ResponderState} (h : wire.Carries l) (hp : remote.protocols = wire.remote.protocols)
    (hv : remote.violation = wire.remote.violation) : { wire with remote : Wire }.Carries l :=
  ⟨hp ▸ h.joined, hv.trans h.blameless⟩

end Wire.Carries

namespace World
variable {w w' : World} {input : WorldInput}

/-- Every line goes with the state of its peer, and every wire with its line. -/
structure Inv (w : World) : Prop where
  inLine : InitiatorBehavior.InLine w.lines w.initiator
  carries : ∀ pid, (w.wires pid).Carries (w.lines pid)

theorem Init.inv (h : w.Init) : w.Inv := by
  obtain ⟨initiator, lines, wires⟩ := w
  obtain ⟨⟨promotion, handshake, rfl⟩, rfl, rfl⟩ := h
  exact ⟨⟨fun pid _ => ⟨rfl, rfl⟩, fun pid st hl => by simp [InitiatorBehavior.new] at hl⟩, fun _ => .new⟩

theorem Inv.accepts_dispatched (h : w.Inv) {pid : PeerId} {msg : AnyMessage} (hm : msg ∈ (w.lines pid).dispatched) :
    (w.lines pid).side.accepts msg = true ∧ msg.sender = .client := by
  cases hl : w.initiator.peers.lookup pid with
  | none =>
    rw [(h.inLine.untracked pid hl).1] at hm
    cases hm
  | some st =>
    obtain ⟨-, hacc, hsender, -⟩ := (h.inLine.tracked pid st hl).accepts_dispatched hm
    exact ⟨hacc, hsender⟩

theorem Inv.update (h : w.Inv) {x : PeerId} {wire : Wire} {event : Lines}
    (he : ∀ pid, pid ≠ x → event pid = w.lines pid) (hx : wire.Carries (event x)) (pid : PeerId) :
    (Function.update w.wires x wire pid).Carries (event pid) := by
  by_cases hpid : pid = x
  · subst hpid
    rw [Function.update_self]
    exact hx
  · rw [Function.update_of_ne hpid, he pid hpid]
    exact h.carries pid

theorem event_of_ne {lines : Lines} {input : Input} {x : PeerId} (ha : input.addressee = some x) (pid : PeerId)
    (hpid : pid ≠ x) : (lines pid).event pid input = lines pid :=
  Line.event_of_addressee fun he => hpid (Option.some.inj (he.symm.trans ha))

theorem Inv.carry (h : w.Inv) {input : Input} {wires : Wires} (hw : w.wires.carry w.lines input = some wires) :
    w.lines.Allows input ∧ ∀ pid, (wires pid).Carries ((w.lines pid).event pid input) := by
  cases input with
  | command cmd =>
    obtain rfl := Option.some.inj hw
    exact ⟨trivial, h.carries⟩
  | io event =>
    cases event with
    | connected x =>
      have hevent : (w.lines x).event x (.io (.connected x)) = { Line.new with online := true } := if_pos rfl
      simp only [Wires.carry] at hw
      split at hw
      · cases hw
      · next honline =>
        obtain rfl := Option.some.inj hw
        refine ⟨Bool.eq_false_iff.2 honline, h.update (event_of_ne rfl) ?_⟩
        rw [hevent]
        exact ⟨⟨.new, .new _ _⟩, rfl⟩
    | disconnected x =>
      have hevent : (w.lines x).event x (.io (.disconnected x)) = .new := if_pos rfl
      obtain rfl := Option.some.inj hw
      refine ⟨trivial, h.update (event_of_ne rfl) ?_⟩
      rw [hevent]
      exact .new
    | sent x msg =>
      have hevent : (w.lines x).event x (.io (.sent x msg)) = (w.lines x).sent msg := if_pos rfl
      simp only [Wires.carry] at hw
      split at hw
      · next hm =>
        obtain rfl := Option.some.inj hw
        obtain ⟨hacc, hsender⟩ := h.accepts_dispatched hm
        refine ⟨hm, h.update (event_of_ne rfl) ?_⟩
        rw [hevent]
        exact (h.carries x).sent hsender hacc
      · cases hw
    | recv x msgs =>
      have hevent : (w.lines x).event x (.io (.recv x msgs)) = msgs.foldl Line.recv (w.lines x) := if_pos rfl
      obtain ⟨rest, ht, rfl⟩ := Option.map_eq_some_iff.1 hw
      obtain ⟨hreplies, hcarries⟩ := (h.carries x).recv ht
      refine ⟨hreplies, h.update (event_of_ne rfl) ?_⟩
      rw [hevent]
      exact hcarries
    | error x text =>
      obtain rfl := Option.some.inj hw
      exact ⟨trivial, h.carries⟩
    | idle =>
      obtain rfl := Option.some.inj hw
      exact ⟨trivial, h.carries⟩

theorem Inv.act (h : w.Inv) {wires : Wires} (hw : w.wires.act input = some wires) :
    ∀ pid, (wires pid).Carries (w.lines pid) := by
  have hsame {x : PeerId} : ∀ pid, pid ≠ x → w.lines pid = w.lines pid := fun _ _ => rfl
  cases input with
  | initiator input => cases hw
  | arrives x msg =>
    obtain ⟨rest, ht, rfl⟩ := Option.map_eq_some_iff.1 hw
    exact h.update hsame ((h.carries x).arrives ht)
  | sends x msg =>
    simp only [Wires.act] at hw
    split at hw
    · next hmay =>
      obtain rfl := Option.some.inj hw
      exact h.update hsame ((h.carries x).sends hmay.1 hmay.2)
    · cases hw
  | works x remote =>
    simp only [Wires.act] at hw
    split at hw
    · next hkeeps =>
      obtain rfl := Option.some.inj hw
      exact h.update hsame ((h.carries x).works hkeeps.1 hkeeps.2)
    · cases hw

theorem Step.inv (hs : w.Step input w') (h : w.Inv) : w'.Inv := by
  cases hs with
  | initiator hstep hcarry =>
    obtain ⟨hallows, hcarries⟩ := h.carry hcarry
    exact ⟨hstep.inLine h.inLine hallows, fun pid => (hcarries pid).congr rfl⟩
  | remote hact => exact ⟨h.inLine, h.act hact⟩

/-- How the two ends of a connection stand to each other. -/
structure InStep (w : World) (pid : PeerId) : Prop where
  remote_blameless : (w.wires pid).remote.violation = false
  blameless : ∀ st, w.initiator.peers.lookup pid = some st → st.violation = true → (w.lines pid).notFound = true
  one_way : ∀ msg ∈ (w.wires pid).toRemote, ∀ msg' ∈ (w.wires pid).toUs, msg.channel ≠ msg'.channel
  taken : ∀ msg rest, takeFirst (w.wires pid).toRemote msg = some rest →
    (w.wires pid).remote.protocols.accepts msg = true
  taken_back : ∀ st msg rest, w.initiator.peers.lookup pid = some st → takeFirst (w.wires pid).toUs msg = some rest →
    st.protocols.accepts msg = true
  quiet : ∀ st, w.initiator.peers.lookup pid = some st → (w.wires pid).toRemote = [] → (w.wires pid).toUs = [] →
    Drains (w.wires pid).remote.protocols st.protocols

theorem Inv.inStep (h : w.Inv) (pid : PeerId) : w.InStep pid := by
  obtain ⟨⟨common, hjoined⟩, hblameless⟩ := h.carries pid
  refine ⟨hblameless, fun st hl => (h.inLine.tracked pid st hl).violation, fun msg hm msg' hm' hc => ?_,
    fun msg rest ht => ?_, fun st msg rest hl ht => ?_, fun st hl hremote hus => ?_⟩
  · have hours := hjoined.sent.agency hjoined.ours hm
    have htheirs := hjoined.received.agency hjoined.theirs hm'
    rw [ProtocolStates.agency_congr hc, htheirs] at hours
    cases hours
  · obtain ⟨pre, post, hqueue, -, hc⟩ := takeFirst_eq_some ht
    rw [hqueue] at hjoined
    exact (hjoined.symm.arrive hc).1
  · obtain ⟨pre, post, hqueue, -, hc⟩ := takeFirst_eq_some ht
    rw [hqueue] at hjoined
    have hsender : msg.sender = .server := hjoined.theirs msg (List.mem_append_right _ (List.mem_cons_self ..))
    rw [(h.inLine.tracked pid st hl).side.accepts_eq (.inl hsender)]
    exact (hjoined.arrive hc).1
  · have hside := (h.inLine.tracked pid st hl).side
    rw [hjoined.near_eq, hremote] at hside
    rw [hjoined.far_eq, hus]
    exact hside

/-- In every run of a world, whatever the initiator is told to do, in whatever order messages of different protocols
arrive, and however long they are under way, no end of a connection has the other to blame, except for the answer that
there is no intersection. -/
theorem run_peers_inStep {tr : List (Transition World WorldInput)} (h : Run Init Step tr w) (pid : PeerId) : w.InStep pid := by
  have hinv : w.Inv := by
    induction h with
    | start hinit => exact hinit.inv
    | next _ hstep ih => exact hstep.inv ih
  exact hinv.inStep pid

/-- A handshake and the first request of a sync, with both ends done and nothing under way. -/
theorem run_peers_inStep_syncing : ∃ tr w st, Run Init Step tr w ∧ w.initiator.peers.lookup ⟨"a", 1⟩ = some st ∧
    (w.wires ⟨"a", 1⟩).remote.chainsync = .idle (.intersection .origin ⟨.origin, 0⟩) ∧
    Drains (w.wires ⟨"a", 1⟩).remote.protocols st.protocols := by
  let pid : PeerId := ⟨"a", 1⟩
  let propose : AnyMessage := .handshake (.propose HandshakeBehavior.default.supportedVersion)
  let accept : AnyMessage := .handshake (.accept 13 ⟨764824073, false, none, none⟩)
  let find : AnyMessage := .chainSync (.findIntersect [.origin])
  let found : AnyMessage := .chainSync (.intersectFound .origin ⟨.origin, 0⟩)
  let iter : Iteration := ⟨[pid], []⟩
  have hinit : Init ⟨.new .default .default, fun _ => .new, fun _ => .new⟩ := ⟨⟨_, _, rfl⟩, rfl, rfl⟩
  have hplay : (Run.play move ⟨.new .default .default, fun _ => .new, fun _ => .new⟩
      [(⟨[], []⟩, .initiator (.command (.includePeer pid))), (iter, .initiator (.command (.startSync [.origin]))),
        (iter, .initiator (.io .idle)), (iter, .initiator (.io (.connected pid))),
        (iter, .initiator (.io (.sent pid propose))), (iter, .arrives pid propose), (iter, .sends pid accept),
        (iter, .initiator (.io (.recv pid [accept]))), (iter, .initiator (.io .idle)), (iter, .initiator (.io .idle)),
        (iter, .initiator (.io (.sent pid find))), (iter, .arrives pid find), (iter, .sends pid found),
        (iter, .initiator (.io (.recv pid [found])))]).any
      (fun r => (r.2.initiator.peers.lookup pid).isSome ∧
        (r.2.wires pid).remote.chainsync = .idle (.intersection .origin ⟨.origin, 0⟩) ∧ (r.2.wires pid).toRemote = [] ∧
          (r.2.wires pid).toUs = []) = true := by decide
  obtain ⟨tr, w, hrun, htest⟩ := Run.exists_of_play step_of_move hinit hplay
  obtain ⟨hsome, hsynced, hremote, hus⟩ := of_decide_eq_true htest
  obtain ⟨st, hl⟩ := Option.isSome_iff_exists.1 hsome
  exact ⟨tr, w, st, hrun, hl, hsynced, (run_peers_inStep hrun pid).quiet st hl hremote hus⟩

end World
end Pallas.Network2
