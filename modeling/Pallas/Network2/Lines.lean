import Pallas.Lib.Runs
import Pallas.Network2.Agency
import Pallas.Network2.OnePeer

/-!
# The line between the initiator and a peer

Between dispatch and `Sent` the protocol state has not moved yet, and all that keeps a second request back is the table
of unsent requests. `Line` is what goes on between the initiator and one peer as the peer sees it: the messages
dispatched whose `Sent` is to come, and the states of the peer's side of the protocols, which the messages of both move
and nobody drains. `Tracks` relates it to the state of the peer in the initiator, and the moves of the visitors keep that.
-/

namespace Pallas.Network2

/-! ### The two sides of a connection -/

/-- The same, or what was there to take out of an idle state has been taken out. -/
def TakenOut {α : Type} (idle : α → Prop) (rest a a' : α) : Prop := a' = a ∨ idle a ∧ a' = rest

theorem TakenOut.trans {α : Type} {idle : α → Prop} {rest a a' a'' : α} (h : TakenOut idle rest a a')
    (h' : TakenOut idle rest a' a'') : TakenOut idle rest a a'' := by
  rcases h with rfl | ⟨hi, rfl⟩
  · exact h'
  · rcases h' with rfl | ⟨-, rfl⟩
    · exact .inr ⟨hi, rfl⟩
    · exact .inr ⟨hi, rfl⟩

/-- The states of a side that drains nothing, and those of one that may. -/
structure Drains (ps ps' : ProtocolStates) : Prop where
  handshake : ps'.handshake = ps.handshake
  keepalive : ps'.keepalive = ps.keepalive
  blockfetch : ps'.blockfetch = ps.blockfetch
  txSubmission : ps'.txSubmission = ps.txSubmission
  peersharing : TakenOut (∃ state, · = .idle state) .done ps.peersharing ps'.peersharing
  chainsync : TakenOut (∃ data, · = .idle data) (.idle .drained) ps.chainsync ps'.chainsync
  leiosNotify : TakenOut (∃ pending, · = .idle pending) (.idle none) ps.leiosNotify ps'.leiosNotify
  leiosFetch : TakenOut (∃ pending, · = .idle pending) (.idle none) ps.leiosFetch ps'.leiosFetch

namespace Drains
variable {ps ps' ps'' : ProtocolStates} {msg : AnyMessage}

theorem refl (ps : ProtocolStates) : Drains ps ps := ⟨rfl, rfl, rfl, rfl, .inl rfl, .inl rfl, .inl rfl, .inl rfl⟩

theorem trans (h : Drains ps ps') (h' : Drains ps' ps'') : Drains ps ps'' :=
  ⟨h'.handshake.trans h.handshake, h'.keepalive.trans h.keepalive, h'.blockfetch.trans h.blockfetch,
    h'.txSubmission.trans h.txSubmission, h.peersharing.trans h'.peersharing, h.chainsync.trans h'.chainsync,
    h.leiosNotify.trans h'.leiosNotify, h.leiosFetch.trans h'.leiosFetch⟩

theorem accepts_eq (h : Drains ps ps')
    (hm : msg.sender = .server ∨ msg.channel ≠ Peersharing.channelId ∨ ps'.peersharing = ps.peersharing) :
    ps'.accepts msg = ps.accepts msg := by
  cases msg with
  | handshake m => simp only [ProtocolStates.accepts, h.handshake]
  | keepAlive m => simp only [ProtocolStates.accepts, h.keepalive]
  | blockFetch m => simp only [ProtocolStates.accepts, h.blockfetch]
  | txSubmission m => simp only [ProtocolStates.accepts, h.txSubmission]
  | chainSync m =>
    rcases h.chainsync with he | ⟨⟨data, hi⟩, hd⟩
    · simp only [ProtocolStates.accepts, he]
    · simp only [ProtocolStates.accepts, hi, hd]
      cases m <;> rfl
  | leiosNotify m =>
    rcases h.leiosNotify with he | ⟨⟨pending, hi⟩, hd⟩
    · simp only [ProtocolStates.accepts, he]
    · simp only [ProtocolStates.accepts, hi, hd]
      cases m <;> rfl
  | leiosFetch m =>
    rcases h.leiosFetch with he | ⟨⟨pending, hi⟩, hd⟩
    · simp only [ProtocolStates.accepts, he]
    · simp only [ProtocolStates.accepts, hi, hd]
      cases m <;> rfl
  | peerSharing m =>
    rcases h.peersharing with he | ⟨⟨state, hi⟩, hd⟩
    · simp only [ProtocolStates.accepts, he]
    · rcases hm with hs | hc | he
      · simp only [ProtocolStates.accepts, hi, hd]
        cases m with
        | sharePeers peers => rfl
        | _ => cases hs
      · exact absurd (Eq.refl _) hc
      · simp only [ProtocolStates.accepts, he]

/-- A message that both sides take, or neither, leaves them alike. -/
theorem next (h : Drains ps ps') (ha : ps'.accepts msg = ps.accepts msg) : Drains (ps.next msg) (ps'.next msg) := by
  obtain ⟨hh, hk, hb, ht, hp, hc, hn, hf⟩ := h
  cases msg with
  | handshake m => exact ⟨by simp only [ProtocolStates.next, hh], hk, hb, ht, hp, hc, hn, hf⟩
  | keepAlive m => exact ⟨hh, by simp only [ProtocolStates.next, hk], hb, ht, hp, hc, hn, hf⟩
  | blockFetch m => exact ⟨hh, hk, by simp only [ProtocolStates.next, hb], ht, hp, hc, hn, hf⟩
  | txSubmission m => exact ⟨hh, hk, hb, by simp only [ProtocolStates.next, ht], hp, hc, hn, hf⟩
  | peerSharing m =>
    refine ⟨hh, hk, hb, ht, ?_, hc, hn, hf⟩
    rcases hp with he | ⟨⟨state, hi⟩, hd⟩
    · exact .inl (by simp only [ProtocolStates.next, he])
    · simp only [ProtocolStates.accepts, hi, hd] at ha
      simp only [ProtocolStates.next, hi, hd]
      cases m with
      | shareRequest amount => cases ha
      | _ => exact .inr ⟨⟨state, rfl⟩, rfl⟩
  | chainSync m =>
    refine ⟨hh, hk, hb, ht, hp, ?_, hn, hf⟩
    rcases hc with he | ⟨⟨data, hi⟩, hd⟩
    · exact .inl (by simp only [ProtocolStates.next, he])
    · simp only [ProtocolStates.next, hi, hd]
      cases m <;> first | exact .inl rfl | exact .inr ⟨⟨data, rfl⟩, rfl⟩
  | leiosNotify m =>
    refine ⟨hh, hk, hb, ht, hp, hc, ?_, hf⟩
    rcases hn with he | ⟨⟨pending, hi⟩, hd⟩
    · exact .inl (by simp only [ProtocolStates.next, he])
    · simp only [ProtocolStates.next, hi, hd]
      cases m <;> first | exact .inl rfl | exact .inr ⟨⟨pending, rfl⟩, rfl⟩
  | leiosFetch m =>
    refine ⟨hh, hk, hb, ht, hp, hc, hn, ?_⟩
    rcases hf with he | ⟨⟨pending, hi⟩, hd⟩
    · exact .inl (by simp only [ProtocolStates.next, he])
    · simp only [ProtocolStates.next, hi, hd]
      cases m <;> first | exact .inl rfl | exact .inr ⟨⟨pending, rfl⟩, rfl⟩

end Drains

/-! ### The line to a peer -/

structure Line where
  online : Bool
  dispatched : List AnyMessage
  side : ProtocolStates
  notFound : Bool

def AnyMessage.isIntersectNotFound : AnyMessage → Bool
  | .chainSync (.intersectNotFound _) => true
  | _ => false

/-- The messages that the outputs send to the peer. -/
def sends (out : OutboundQueue) (pid : PeerId) : List AnyMessage :=
  out.filterMap fun
    | .interfaceCommand (.send x msg) => if x = pid then some msg else none
    | _ => none

namespace Line

def new : Line := ⟨false, [], .new, false⟩

def recv (self : Line) (msg : AnyMessage) : Line :=
  { self with side := self.side.next msg, notFound := self.notFound || msg.isIntersectNotFound }

def sent (self : Line) (msg : AnyMessage) : Line :=
  { self with dispatched := self.dispatched.erase msg, side := self.side.next msg }

def dispatch (self : Line) (msgs : List AnyMessage) : Line := { self with dispatched := self.dispatched ++ msgs }

/-- The replies of a peer that keeps to the protocols, each valid on its side after those before. -/
def Replies : Line → List AnyMessage → Prop
  | _, [] => True
  | self, msg :: msgs => (msg.sender = .server ∧ self.side.accepts msg = true) ∧ (self.recv msg).Replies msgs

instance Replies.decidable : ∀ (l : Line) msgs, Decidable (l.Replies msgs)
  | _, [] => inferInstanceAs (Decidable True)
  | l, msg :: msgs => @instDecidableAnd _ _ _ (Replies.decidable (l.recv msg) msgs)

/-- An event on the line; a connection starts it afresh, and so does the end of one. -/
def event (self : Line) (pid : PeerId) : Input → Line
  | .io (.connected p) => if p = pid then { new with online := true } else self
  | .io (.disconnected p) => if p = pid then new else self
  | .io (.sent p msg) => if p = pid then self.sent msg else self
  | .io (.recv p msgs) => if p = pid then msgs.foldl recv self else self
  | _ => self

end Line

abbrev Lines := PeerId → Line

namespace Lines

/-- What the surroundings promise: a connection is made while there is none, `Sent` reports a message that was dispatched
on it, once, and the peer keeps to the protocols. -/
def Allows (self : Lines) : Input → Prop
  | .io (.connected pid) => (self pid).online = false
  | .io (.sent pid msg) => msg ∈ (self pid).dispatched
  | .io (.recv pid msgs) => (self pid).Replies msgs
  | _ => True

instance Allows.decidable (self : Lines) : ∀ input, Decidable (self.Allows input)
  | .io (.connected pid) => inferInstanceAs (Decidable ((self pid).online = false))
  | .io (.sent pid msg) => inferInstanceAs (Decidable (msg ∈ (self pid).dispatched))
  | .io (.recv pid msgs) => Line.Replies.decidable (self pid) msgs
  | .io (.disconnected _) | .io (.error ..) | .io .idle | .command _ => inferInstanceAs (Decidable True)

end Lines

variable {pid : PeerId} {st st' : InitiatorState} {out outs : OutboundQueue} {msg : AnyMessage} {l : Line}

@[simp] theorem sends_nil : sends [] pid = [] := rfl

@[simp] theorem sends_send : sends [.interfaceCommand (.send pid msg)] pid = [msg] := by simp [sends]

theorem sends_append : sends (out ++ outs) pid = sends out pid ++ sends outs pid := List.filterMap_append ..

theorem sends_about (out : OutboundQueue) (pid : PeerId) : sends (out.about pid) pid = sends out pid := by
  unfold sends OutboundQueue.about
  rw [List.filterMap_filter]
  refine List.filterMap_congr fun o _ => ?_
  rcases o with (_ | ⟨x, m⟩ | _) | e
  · simp
  · by_cases hx : x = pid <;> simp [BehaviorOutput.peer, hx]
  · simp
  · simp

theorem Line.dispatch_dispatch (l : Line) (msgs msgs' : List AnyMessage) :
    (l.dispatch msgs).dispatch msgs' = l.dispatch (msgs ++ msgs') := by
  simp [dispatch]

@[simp] theorem Line.dispatch_nil (l : Line) : l.dispatch [] = l := by
  simp [dispatch]

/-! ### How the line and the state go together -/

/-- The request can be applied, and will be as long as the peer keeps to the protocol. -/
structure InitiatorState.Ready (st : InitiatorState) (msg : AnyMessage) : Prop where
  applies : st.canApply msg = true
  peers : msg.channel = Peersharing.channelId → st.peersharing = .idle .empty

/-- Nothing has happened on the line yet. -/
structure Line.Fresh (l : Line) (st : InitiatorState) : Prop where
  dispatched : l.dispatched = []
  side : l.side = .new
  protocols : st.protocols = .new
  unsent : ∀ c, st.unsent.byChannel.lookup c = none
  deferred : st.syncNextDeferred = false
  violation : st.violation = false
  connected : st.connection ≠ .connected
  initialized : st.connection ≠ .initialized

structure Line.Tracks (l : Line) (st : InitiatorState) : Prop where
  side : Drains l.side st.protocols
  channels : (l.dispatched.map (·.channel)).Nodup
  dispatched : ∀ m ∈ l.dispatched, st.unsent.byChannel.lookup m.channel = some m ∨
    (∃ table, m = .handshake (.propose table)) ∧ st.handshake = .propose
  unsent : ∀ c m, st.unsent.byChannel.lookup c = some m → st.Ready m
  violation : st.violation = true → l.notFound = true
  pending : ∀ tip, st.chainsync = .idle (.noIntersection tip) → l.notFound = true
  fresh : l.online = false ∨ st.connection = .new → l.Fresh st

theorem AnyMessage.sender_of_isRequest (h : msg.isRequest = true) (hc : msg.channel ≠ Txsubmission.channelId) :
    msg.sender = .client := by
  cases msg with
  | txSubmission m => exact absurd (Eq.refl _) hc
  | handshake m => cases h
  | keepAlive m => cases m <;> first | rfl | cases h
  | chainSync m => cases m <;> first | rfl | cases h
  | peerSharing m => cases m <;> first | rfl | cases h
  | blockFetch m => cases m <;> first | rfl | cases h
  | leiosNotify m => cases m <;> first | rfl | cases h
  | leiosFetch m => cases m <;> first | rfl | cases h

theorem AnyMessage.eq_shareRequest (h : msg.isRequest = true) (hc : msg.channel = Peersharing.channelId) :
    ∃ amount, msg = .peerSharing (.shareRequest amount) := by
  cases msg with
  | peerSharing m => cases m <;> first | exact ⟨_, rfl⟩ | cases h
  | _ => simp [AnyMessage.channel, Handshake.channelId, Keepalive.channelId, Chainsync.channelId, Peersharing.channelId,
      Blockfetch.channelId, Txsubmission.channelId, Leiosnotify.channelId, Leiosfetch.channelId] at hc

/-- A fresh line carries no reply: in every protocol it is the client's turn. -/
theorem ProtocolStates.new_rejects (h : msg.sender = .server) : ProtocolStates.new.accepts msg = false := by
  cases hacc : ProtocolStates.new.accepts msg with
  | false => rfl
  | true =>
    have hagency := agency_of_accepts hacc
    rw [h] at hagency
    cases msg <;> cases hagency

namespace Line.Tracks

/-- Nothing that matters here has changed. -/
theorem congr (h : l.Tracks st) (hp : st'.protocols = st.protocols) (hu : st'.unsent = st.unsent)
    (hv : st'.violation = st.violation) (hd : l.Fresh st → st'.syncNextDeferred = false)
    (hnew : st'.connection = .new → st.connection = .new)
    (hc : l.Fresh st → st'.connection ≠ .connected ∧ st'.connection ≠ .initialized) : l.Tracks st' := by
  have happ : ∀ m, st'.canApply m = st.canApply m := fun m => by rw [st'.canApply_eq, st.canApply_eq, hp]
  have hps : st'.peersharing = st.peersharing := congrArg ProtocolStates.peersharing hp
  have hcs : st'.chainsync = st.chainsync := congrArg ProtocolStates.chainsync hp
  have hhs : st'.handshake = st.handshake := congrArg ProtocolStates.handshake hp
  refine ⟨hp ▸ h.side, h.channels, ?_, ?_, hv ▸ h.violation, fun tip ht => h.pending tip (hcs ▸ ht), fun hf => ?_⟩
  · rw [hu, hhs]
    exact h.dispatched
  · rw [hu]
    intro c m hl
    obtain ⟨ha, hpeers⟩ := h.unsent c m hl
    exact ⟨(happ m).trans ha, fun hm => hps.trans (hpeers hm)⟩
  · have hfresh := h.fresh (hf.imp_right hnew)
    exact ⟨hfresh.dispatched, hfresh.side, hp.trans hfresh.protocols, hu ▸ hfresh.unsent, hd hfresh,
      hv.trans hfresh.violation, (hc hfresh).1, (hc hfresh).2⟩

theorem push {unsent : UnsentRequests} (h : l.Tracks st) (hr : st.Ready msg) (hi : st.unsent.insert msg = some unsent)
    (hnot : ¬ (l.online = false ∨ st.connection = .new)) : (l.dispatch [msg]).Tracks { st with unsent } := by
  obtain ⟨-, hnone, hu⟩ := UnsentRequests.insert_eq_some hi
  have hchannel : msg.channel ≠ Handshake.channelId := by
    have := hr.applies
    rw [st.canApply_eq] at this
    simp at this
    exact this.1.2
  have hother : ∀ m ∈ l.dispatched, m.channel ≠ msg.channel := by
    intro m hm hc
    rcases h.dispatched m hm with hl | ⟨⟨table, rfl⟩, -⟩
    · rw [hc, hnone] at hl
      cases hl
    · exact hchannel hc.symm
  refine ⟨h.side, ?_, ?_, ?_, h.violation, h.pending, fun hf => absurd hf hnot⟩
  · rw [dispatch, List.map_append, List.nodup_append]
    refine ⟨h.channels, by simp, ?_⟩
    rintro a ha b hb rfl
    obtain ⟨m, hm, rfl⟩ := List.mem_map.1 ha
    exact hother m hm (by simpa using hb)
  · intro m hm
    rcases List.mem_append.1 hm with hm | hm
    · rw [hu, Finmap.lookup_insert_of_ne _ (hother m hm)]
      exact h.dispatched m hm
    · obtain rfl := List.mem_singleton.1 hm
      rw [hu]
      exact .inl (Finmap.lookup_insert _)
  · intro c m hl
    rw [hu] at hl
    by_cases hc : c = msg.channel
    · subst hc
      obtain rfl : msg = m := by simpa using hl
      exact ⟨hr.applies, hr.peers⟩
    · rw [Finmap.lookup_insert_of_ne _ hc] at hl
      obtain ⟨ha, hp⟩ := h.unsent c m hl
      exact ⟨ha, hp⟩

theorem drained (h : l.Tracks st) (hd : Drains st.protocols st'.protocols) (hu : st'.unsent = st.unsent)
    (hdef : st'.syncNextDeferred = st.syncNextDeferred) (hc : st'.connection = st.connection)
    (hv : st'.violation = true → l.notFound = true)
    (hp : st'.peersharing = st.peersharing ∨ ∃ peers, st.peersharing = .idle (.response peers))
    (hf : l.Fresh st → st'.protocols = st.protocols ∧ st'.violation = st.violation) : l.Tracks st' := by
  have hsame (hempty : st.peersharing = .idle .empty) : st'.peersharing = st.peersharing := by
    rcases hp with hp | ⟨peers, hp⟩
    · exact hp
    · rw [hempty] at hp
      cases hp
  refine ⟨h.side.trans hd, h.channels, ?_, ?_, hv, fun tip ht => ?_, fun hfresh => ?_⟩
  · rw [hu]
    intro m hm
    rcases h.dispatched m hm with hl | ⟨ht, hh⟩
    · exact .inl hl
    · exact .inr ⟨ht, hd.handshake.trans hh⟩
  · rw [hu]
    intro c m hl
    obtain ⟨ha, hpeers⟩ := h.unsent c m hl
    refine ⟨?_, fun hm => (hsame (hpeers hm)).trans (hpeers hm)⟩
    have hacc : st'.protocols.accepts m = st.protocols.accepts m := by
      refine hd.accepts_eq (.inr ?_)
      by_cases hm : m.channel = Peersharing.channelId
      · exact .inr (hsame (hpeers hm))
      · exact .inl hm
    rw [InitiatorState.canApply_eq, hacc, ← InitiatorState.canApply_eq]
    exact ha
  · rcases hd.chainsync with he | ⟨-, he⟩
    · exact h.pending tip (he.symm.trans ht)
    · cases he.symm.trans ht
  · rw [hc] at hfresh
    have hold := h.fresh hfresh
    exact ⟨hold.dispatched, hold.side, (hf hold).1.trans hold.protocols, hu ▸ hold.unsent, hdef.trans hold.deferred,
      (hf hold).2.trans hold.violation, hc ▸ hold.connected, hc ▸ hold.initialized⟩

/-- A peer that is reset or included is as on a fresh line. -/
theorem start (hd : l.dispatched = []) (hs : l.side = .new) (count : UInt32) :
    l.Tracks { InitiatorState.new with errorCount := count } := by
  refine ⟨hs ▸ .refl _, by simp [hd], by simp [hd], ?_, ?_, ?_, fun _ => ⟨hd, hs, rfl, ?_, rfl, rfl, ?_, ?_⟩⟩
  · simp [InitiatorState.new, UnsentRequests.empty]
  · simp [InitiatorState.new]
  · intro tip ht
    cases ht
  · simp [InitiatorState.new, UnsentRequests.empty]
  · simp [InitiatorState.new]
  · simp [InitiatorState.new]

end Line.Tracks

/-! ### Moves -/

theorem ChainSyncBehavior.drainData_sends : sends (drainData pid st []).2 pid = [] := by
  unfold drainData
  split
  · rfl
  · split <;> rfl

theorem ChainSyncBehavior.drainData_tracks (h : l.Tracks st) (hn : st.chainsync.isNew = false) :
    l.Tracks (drainData pid st []).1 := by
  unfold drainData
  split
  · exact h
  · next data chainsync hdrain =>
    have hidle : st.chainsync = .idle data ∧ chainsync = .idle .drained := by
      cases hc : st.chainsync <;> simp [hc, Chainsync.State.drain] at hdrain
      exact ⟨by rw [hdrain.1], hdrain.2.symm⟩
    obtain ⟨hdata, rfl⟩ := hidle
    have hd : Drains st.protocols { st.protocols with chainsync := .idle .drained } :=
      ⟨rfl, rfl, rfl, rfl, .inl rfl, .inr ⟨⟨data, hdata⟩, rfl⟩, .inl rfl, .inl rfl⟩
    have hfresh : ¬ l.Fresh st := fun hf => by
      have hnew : st.chainsync = .idle .new := congrArg ProtocolStates.chainsync hf.protocols
      simp [hnew, Chainsync.State.isNew] at hn
    have hkeep : l.Tracks { st with chainsync := .idle .drained } :=
      h.drained hd rfl rfl rfl h.violation (.inl rfl) fun hf => absurd hf hfresh
    split
    · exact hkeep
    · exact hkeep
    · exact hkeep
    · next tip => exact h.drained hd rfl rfl rfl (fun _ => h.pending tip hdata) (.inl rfl) fun hf => absurd hf hfresh
    · exact hkeep

theorem LeiosNotifyBehavior.dispatch_sends (pid : PeerId) (st : InitiatorState) :
    sends (dispatch pid st []).2 pid = [] := by
  unfold dispatch
  split <;> rfl

theorem LeiosNotifyBehavior.dispatch_tracks (h : l.Tracks st) : l.Tracks (dispatch pid st []).1 := by
  have hd : Drains st.protocols { st.protocols with leiosNotify := st.leiosNotify.drain.2 } := by
    refine ⟨rfl, rfl, rfl, rfl, .inl rfl, .inl rfl, ?_, .inl rfl⟩
    cases hc : st.leiosNotify with
    | idle pending => exact .inr ⟨⟨pending, hc⟩, rfl⟩
    | _ => exact .inl hc.symm
  have hkeep : l.Tracks { st with leiosNotify := st.leiosNotify.drain.2 } := by
    refine h.drained hd rfl rfl rfl h.violation (.inl rfl) fun hf => ?_
    have hnew : st.leiosNotify = .idle none := congrArg ProtocolStates.leiosNotify hf.protocols
    exact ⟨by simp [InitiatorState.protocols, hnew, Leiosnotify.State.drain], rfl⟩
  unfold dispatch
  split
  · next hdrain =>
    rw [hdrain] at hkeep
    exact hkeep
  · next hdrain =>
    rw [hdrain] at hkeep
    exact hkeep

theorem LeiosFetchBehavior.dispatch_sends (pid : PeerId) (st : InitiatorState) :
    sends (dispatch pid st []).2 pid = [] := by
  unfold dispatch
  split <;> rfl

theorem LeiosFetchBehavior.dispatch_tracks (h : l.Tracks st) : l.Tracks (dispatch pid st []).1 := by
  have hd : Drains st.protocols { st.protocols with leiosFetch := st.leiosFetch.drain.2 } := by
    refine ⟨rfl, rfl, rfl, rfl, .inl rfl, .inl rfl, .inl rfl, ?_⟩
    cases hc : st.leiosFetch with
    | idle pending => exact .inr ⟨⟨pending, hc⟩, rfl⟩
    | _ => exact .inl hc.symm
  have hkeep : l.Tracks { st with leiosFetch := st.leiosFetch.drain.2 } := by
    refine h.drained hd rfl rfl rfl h.violation (.inl rfl) fun hf => ?_
    have hnew : st.leiosFetch = .idle none := congrArg ProtocolStates.leiosFetch hf.protocols
    exact ⟨by simp [InitiatorState.protocols, hnew, Leiosfetch.State.drain], rfl⟩
  unfold dispatch
  split
  · next hdrain =>
    rw [hdrain] at hkeep
    exact hkeep
  · next hdrain =>
    rw [hdrain] at hkeep
    exact hkeep

theorem Move.tracks (hm : Move pid st outs st') (h : l.Tracks st) : (l.dispatch (sends outs pid)).Tracks st' := by
  have hstay (hs : l.Tracks st') : (l.dispatch []).Tracks st' := by rwa [Line.dispatch_nil]
  cases hm with
  | request hask hc hi =>
    rw [sends_send]
    refine h.push ⟨hc, fun hch => ?_⟩ hi fun hf => (h.fresh hf).initialized hask.initialized
    obtain ⟨hrequest, -, -⟩ := UnsentRequests.insert_eq_some hi
    obtain ⟨amount, rfl⟩ := AnyMessage.eq_shareRequest hrequest hch
    exact hask.peers amount rfl
  | deferredNext hdef hc hi =>
    rw [sends_send]
    have hnot : ¬ (l.online = false ∨ st.connection = .new) := fun hf => by
      rw [(h.fresh hf).deferred] at hdef
      cases hdef
    refine (h.push ⟨hc, fun hch => by cases hch⟩ hi hnot).congr rfl rfl rfl (fun _ => Eq.refl _) id fun hf => ?_
    exact ⟨hf.connected, hf.initialized⟩
  | promote tag => exact hstay (h.congr rfl rfl rfl (·.deferred) id fun hf => ⟨hf.connected, hf.initialized⟩)
  | connect hn =>
    have hconnecting : l.Tracks { st with connection := .connecting } :=
      h.congr rfl rfl rfl (·.deferred) (fun hnew => by cases hnew) fun _ => ⟨by simp, by simp⟩
    simpa [sends] using hconnecting
  | disconnect hn => simpa [sends] using h
  | confirmed hc hd =>
    have hinitialized : l.Tracks { st with connection := .initialized } :=
      h.congr rfl rfl rfl (·.deferred) (fun hnew => by cases hnew) fun hf => absurd hc hf.connected
    simpa [sends] using hinitialized
  | takePeers hp =>
    have hd : Drains st.protocols { st.protocols with peersharing := .done } :=
      ⟨rfl, rfl, rfl, rfl, .inr ⟨⟨_, hp⟩, rfl⟩, .inl rfl, .inl rfl, .inl rfl⟩
    refine hstay (h.drained hd rfl rfl rfl h.violation (.inr ⟨_, hp⟩) fun hf => ?_)
    cases hp.symm.trans (congrArg ProtocolStates.peersharing hf.protocols)
  | body hb => simpa [sends] using h
  | inFlight range => exact hstay (h.congr rfl rfl rfl (·.deferred) id fun hf => ⟨hf.connected, hf.initialized⟩)
  | header hn =>
    rw [ChainSyncBehavior.drainData_sends, Line.dispatch_nil]
    exact ChainSyncBehavior.drainData_tracks h hn
  | notification =>
    rw [LeiosNotifyBehavior.dispatch_sends, Line.dispatch_nil]
    exact LeiosNotifyBehavior.dispatch_tracks h
  | fetched =>
    rw [LeiosFetchBehavior.dispatch_sends, Line.dispatch_nil]
    exact LeiosFetchBehavior.dispatch_tracks h

theorem Moves.tracks (hm : Moves pid st outs st') (h : l.Tracks st) : (l.dispatch (sends outs pid)).Tracks st' := by
  induction hm with
  | refl => exact (Line.dispatch_nil l).symm ▸ h
  | snoc _ hmove ih =>
    rw [sends_append, ← Line.dispatch_dispatch]
    exact hmove.tracks ih

end Pallas.Network2
