import Pallas.Network2.Lines
import Pallas.Network2.SyncGrants

/-!
# When a peer is to blame

`violation` is meant for a peer that sends what it may not. A message that the initiator itself could not apply would be
blamed on the peer as well, so the initiator must not dispatch one: a request finds its channel free when it is pushed
(`PeerStep.free`), and what is dispatched is taken by both sides when it is reported (`Tracks.sent`). What is left is an
answer that a peer may give and is still blamed for, that there is no intersection.
-/

namespace Pallas.Network2

variable {pid : PeerId} {st st' : InitiatorState} {out outs : OutboundQueue} {msg : AnyMessage} {l : Line}

/-! ### Messages -/

theorem ProtocolStates.next_noIntersection {ps : ProtocolStates} {tip : Chainsync.Tip}
    (h : (ps.next msg).chainsync = .idle (.noIntersection tip)) :
    ps.chainsync = .idle (.noIntersection tip) ∨ msg.isIntersectNotFound = true := by
  cases msg with
  | chainSync m =>
    simp only [next, advance] at h
    split at h
    · next hs =>
      subst h
      cases hc : ps.chainsync <;> cases m <;> rw [hc] at hs <;> first | exact .inr rfl | cases hs
    · exact .inl h
  | _ => exact .inl h

theorem AnyMessage.sender_of_isIntersectNotFound (h : msg.isIntersectNotFound = true) : msg.sender = .server := by
  cases msg with
  | chainSync m => cases m <;> first | rfl | cases h
  | _ => cases h

theorem ProtocolStates.next_peersharing {ps : ProtocolStates} (hc : msg.channel ≠ Peersharing.channelId) :
    (ps.next msg).peersharing = ps.peersharing := by
  cases msg with
  | peerSharing m => exact absurd (Eq.refl _) hc
  | _ => rfl

theorem ProtocolStates.next_handshake {ps : ProtocolStates} (hc : msg.channel ≠ Handshake.channelId) :
    (ps.next msg).handshake = ps.handshake := by
  cases msg with
  | handshake m => exact absurd (Eq.refl _) hc
  | _ => rfl

theorem InitiatorState.Ready.agency {m : AnyMessage} (h : st.Ready m) (hr : m.isRequest = true)
    (hc : m.channel = msg.channel) :
    st.protocols.agency msg = some .client := by
  have happ := h.applies
  rw [st.canApply_eq] at happ
  simp only [Bool.and_eq_true, bne_iff_ne, ne_eq] at happ
  rw [← ProtocolStates.agency_congr hc, ProtocolStates.agency_of_accepts happ.1.1,
    AnyMessage.sender_of_isRequest hr happ.2]

theorem InitiatorState.Ready.next {m : AnyMessage} (h : st.Ready m) (hp : st'.protocols = st.protocols.next msg)
    (hc : m.channel ≠ msg.channel) : st'.Ready m := by
  refine ⟨?_, fun hm => ?_⟩
  · rw [InitiatorState.canApply_eq, hp, ProtocolStates.next_accepts_other hc, ← InitiatorState.canApply_eq]
    exact h.applies
  · have hpeers : st'.protocols.peersharing = st.protocols.peersharing := by
      rw [hp, ProtocolStates.next_peersharing fun he => hc (hm.trans he.symm)]
    exact hpeers.trans (h.peers hm)

theorem InitiatorState.applyMsg_frame (st : InitiatorState) (msg : AnyMessage) :
    (st.applyMsg msg).unsent = st.unsent ∧ (st.applyMsg msg).connection = st.connection := by
  cases msg <;> simp only [applyMsg] <;> split <;> exact ⟨rfl, rfl⟩

theorem InitiatorState.clearUnsent_frame (st : InitiatorState) (msg : AnyMessage) :
    (st.clearUnsent msg).protocols = st.protocols ∧ (st.clearUnsent msg).violation = st.violation ∧
      (st.clearUnsent msg).connection = st.connection := by
  unfold clearUnsent
  split <;> exact ⟨rfl, rfl, rfl⟩

namespace Line

theorem Tracks.recv (h : l.Tracks st) (hs : msg.sender = .server) (ha : l.side.accepts msg = true) :
    (l.recv msg).Tracks (st.applyMsg msg) := by
  have hacc : st.protocols.accepts msg = l.side.accepts msg := h.side.accepts_eq (.inl hs)
  have hp := st.applyMsg_protocols msg
  obtain ⟨hu, hconn⟩ := st.applyMsg_frame msg
  have hagency : st.protocols.agency msg = some .server := by
    rw [ProtocolStates.agency_of_accepts (hacc.trans ha), hs]
  have hnotclient : st.protocols.agency msg ≠ some .client := by simp [hagency]
  have hfresh : ¬ l.Fresh st := fun hf => by
    rw [hf.side, ProtocolStates.new_rejects hs] at ha
    cases ha
  refine ⟨?_, h.channels, fun m hm => ?_, fun c m hl => ?_, fun hv => ?_, fun tip ht => ?_, fun hf => ?_⟩
  · rw [hp]
    exact h.side.next hacc
  · rw [hu]
    rcases h.dispatched m hm with hl | ⟨ht, hpropose⟩
    · exact .inl hl
    · have hc : msg.channel ≠ Handshake.channelId := by
        obtain ⟨table, rfl⟩ := ht
        intro hc
        refine hnotclient ?_
        have heq : st.protocols.agency (.handshake (.propose table)) = st.protocols.agency msg :=
          ProtocolStates.agency_congr hc.symm
        rw [← heq]
        exact congrArg Handshake.State.agency hpropose
      have hsame : (st.applyMsg msg).protocols.handshake = st.protocols.handshake := by
        rw [hp, ProtocolStates.next_handshake hc]
      exact .inr ⟨ht, hsame.trans hpropose⟩
  · rw [hu] at hl
    have hready := h.unsent c m hl
    exact hready.next hp fun hc => hnotclient (hready.agency (st.unsent.request c m hl).2 hc)
  · rw [st.applyMsg_violation, hacc, ha, Bool.not_true, Bool.or_false] at hv
    simp [Line.recv, h.violation hv]
  · have hnext : (st.protocols.next msg).chainsync = .idle (.noIntersection tip) := by
      rw [← hp]
      exact ht
    rcases ProtocolStates.next_noIntersection hnext with hn | hn
    · simp [Line.recv, h.pending tip hn]
    · simp [Line.recv, hn]
  · rw [hconn] at hf
    exact absurd (h.fresh hf) hfresh

theorem Tracks.accepts_dispatched (h : l.Tracks st) (hm : msg ∈ l.dispatched) :
    st.protocols.accepts msg = true ∧ l.side.accepts msg = true ∧ msg.sender = .client ∧
      (msg.channel = Peersharing.channelId → st.peersharing = .idle .empty) := by
  rcases h.dispatched msg hm with hl | ⟨⟨table, rfl⟩, hpropose⟩
  · have hready := h.unsent _ _ hl
    have happ := hready.applies
    rw [st.canApply_eq] at happ
    simp only [Bool.and_eq_true, bne_iff_ne, ne_eq] at happ
    have hside : st.protocols.accepts msg = l.side.accepts msg := by
      refine h.side.accepts_eq (.inr ?_)
      by_cases hc : msg.channel = Peersharing.channelId
      · have hempty : st.protocols.peersharing = .idle .empty := hready.peers hc
        rcases h.side.peersharing with he | ⟨-, he⟩
        · exact .inr he
        · cases hempty.symm.trans he
      · exact .inl hc
    exact ⟨happ.1.1, hside ▸ happ.1.1, AnyMessage.sender_of_isRequest (st.unsent.request _ _ hl).2 happ.2, hready.peers⟩
  · have hp : st.protocols.handshake = .propose := hpropose
    have hs : l.side.handshake = .propose := h.side.handshake.symm.trans hpropose
    exact ⟨by simp [ProtocolStates.accepts, hp, Handshake.State.apply, Except.isOk, Except.toBool],
      by simp [ProtocolStates.accepts, hs, Handshake.State.apply, Except.isOk, Except.toBool], rfl, fun hc => by cases hc⟩

theorem Tracks.clearUnsent_lookup (h : l.Tracks st) (hm : msg ∈ l.dispatched) (c : Channel) :
    (st.clearUnsent msg).unsent.byChannel.lookup c = if c =
      msg.channel then none else st.unsent.byChannel.lookup c := by
  rcases h.dispatched msg hm with hl | ⟨⟨table, rfl⟩, -⟩
  · have hclear : st.clearUnsent msg = { st with unsent := st.unsent.remove msg.channel } := by
      simp [InitiatorState.clearUnsent, UnsentRequests.contains, hl, (h.unsent _ _ hl).applies]
    rw [hclear]
    by_cases hc : c = msg.channel
    · rw [if_pos hc, hc]
      exact Finmap.lookup_erase ..
    · rw [if_neg hc]
      exact Finmap.lookup_erase_ne hc
  · have hclear : st.clearUnsent (.handshake (.propose table)) = st := by
      simp [InitiatorState.clearUnsent, InitiatorState.canApply]
    rw [hclear]
    change _ = if c = Handshake.channelId then none else _
    by_cases hc : c = Handshake.channelId
    · rw [if_pos hc]
      cases hl : st.unsent.byChannel.lookup c with
      | none => rfl
      | some m =>
        have happ := (h.unsent c m hl).applies
        rw [st.canApply_eq, (st.unsent.request c m hl).1, hc] at happ
        simp at happ
    · rw [if_neg hc]

/-- `Sent` of a dispatched message moves both sides. -/
theorem Tracks.sent (h : l.Tracks st) (hm : msg ∈ l.dispatched) :
    (l.sent msg).Tracks ((st.clearUnsent msg).applyMsg msg) := by
  obtain ⟨hacc, hside, hclient, hpeers⟩ := h.accepts_dispatched hm
  obtain ⟨hcleared, hviolation, hconnection⟩ := st.clearUnsent_frame msg
  obtain ⟨hu, hconn⟩ := (st.clearUnsent msg).applyMsg_frame msg
  have hp : ((st.clearUnsent msg).applyMsg msg).protocols = st.protocols.next msg := by
    rw [InitiatorState.applyMsg_protocols, hcleared]
  have hchannel : ∀ m ∈ l.dispatched.erase msg, m ∈ l.dispatched ∧ m.channel ≠ msg.channel := by
    intro m he
    have hne := (h.channels.of_map _).mem_erase_iff.1 he
    exact ⟨hne.2, fun hc => hne.1 (List.inj_on_of_nodup_map h.channels hne.2 hm hc)⟩
  refine ⟨?_, ?_, fun m hl => ?_, fun c m hl => ?_, fun hv => ?_, fun tip ht => ?_, fun hf => ?_⟩
  · rw [hp]
    exact h.side.next (hacc.trans hside.symm)
  · exact h.channels.sublist (List.erase_sublist.map _)
  · obtain ⟨hl, hc⟩ := hchannel m hl
    rw [hu, h.clearUnsent_lookup hm, if_neg hc]
    rcases h.dispatched m hl with hl | ⟨⟨table, rfl⟩, hpropose⟩
    · exact .inl hl
    · have hsame : (st.protocols.next msg).handshake = st.protocols.handshake := ProtocolStates.next_handshake hc.symm
      exact .inr ⟨⟨table, rfl⟩, (congrArg ProtocolStates.handshake hp).trans (hsame.trans hpropose)⟩
  · rw [hu, h.clearUnsent_lookup hm] at hl
    split at hl
    · cases hl
    · next hc =>
      have hready := h.unsent c m hl
      rw [← (st.unsent.request c m hl).1] at hc
      exact hready.next hp hc
  · rw [InitiatorState.applyMsg_violation, hcleared, hacc, hviolation] at hv
    simp only [Bool.not_true, Bool.or_false] at hv
    exact h.violation hv
  · have hnext : (st.protocols.next msg).chainsync = .idle (.noIntersection tip) := by
      rw [← hp]
      exact ht
    rcases ProtocolStates.next_noIntersection hnext with hn | hn
    · exact h.pending tip hn
    · rw [AnyMessage.sender_of_isIntersectNotFound hn] at hclient
      cases hclient
  · rw [hconn, hconnection] at hf
    rw [(h.fresh hf).dispatched] at hm
    cases hm

theorem replies_concat {msgs : List AnyMessage} : l.Replies (msgs ++ [msg]) ↔
    l.Replies msgs ∧ msg.sender = .server ∧ (msgs.foldl Line.recv l).side.accepts msg = true := by
  induction msgs generalizing l with
  | nil => simp [Replies]
  | cons m msgs ih => simp [Replies, ih, and_assoc]

theorem Receives.tracks {msgs : List AnyMessage} (hm : Receives pid st msgs outs st') (h : l.Tracks st)
    (hr : l.Replies msgs) : ((msgs.foldl Line.recv l).dispatch (sends outs pid)).Tracks st' := by
  induction hm with
  | nil => exact (Line.dispatch_nil l).symm ▸ h
  | @snoc msgs msg outs out st₁ st₂ _ hmoves ih =>
    obtain ⟨hr, hserver, hacc⟩ := replies_concat.1 hr
    have hnext := hmoves.tracks ((ih hr).recv hserver hacc)
    rw [List.foldl_concat, sends_append, ← Line.dispatch_dispatch]
    exact hnext

theorem Replies.eq_nil {msgs : List AnyMessage} (h : l.Replies msgs) (hs : l.side = .new) : msgs = [] := by
  cases msgs with
  | nil => rfl
  | cons msg msgs =>
    have hacc := h.1.2
    rw [hs, ProtocolStates.new_rejects h.1.1] at hacc
    cases hacc

theorem Tracks.tagged (h : l.Tracks st) :
    (l.dispatch (sends (ChainSyncBehavior.default.visitTagged pid st []).2 pid)).Tracks
      (ChainSyncBehavior.default.visitTagged pid st []).1 := by
  have hstay : (l.dispatch (sends [] pid)).Tracks st := by
    rw [sends_nil, Line.dispatch_nil]
    exact h
  unfold ChainSyncBehavior.visitTagged
  split
  · exact hstay
  · next hsyncing =>
    have hfresh : ¬ l.Fresh st := fun hf => by
      have hnew : st.chainsync = .idle .new := congrArg ProtocolStates.chainsync hf.protocols
      simp [ChainSyncBehavior.peerIsSyncing, hnew, Chainsync.State.isNew] at hsyncing
    split
    · exact hstay
    · split
      · rcases st.trySendRequest_cases pid (.chainSync .requestNext) [] with hs | ⟨unsent, hc, hi, hs⟩
        · rw [hs]
          have hdeferred : l.Tracks st.deferSyncNext :=
            h.congr rfl rfl rfl (fun hf => absurd hf hfresh) id fun hf => absurd hf hfresh
          exact (Line.dispatch_nil l).symm ▸ hdeferred
        · rw [hs]
          have hpush := h.push ⟨hc, fun hch => by cases hch⟩ hi fun hf => hfresh (h.fresh hf)
          rw [List.nil_append, sends_send]
          exact hpush
      · exact hstay

theorem event_of_addressee {input : Input} (h : input.addressee ≠ some pid) : l.event pid input = l := by
  cases input with
  | io event => cases event <;> first | rfl | exact if_neg fun he => h (congrArg some he)
  | command cmd => rfl

theorem Tracks.step {table : Handshake.VersionTable} {g : Lines} {input : Input} (h : (g pid).Tracks st)
    (hstep : PeerStep table pid st input outs st') (hp : g.Allows input) :
    (((g pid).event pid input).dispatch (sends outs pid)).Tracks st' := by
  cases hstep with
  | connected hpropose =>
    have hfresh := h.fresh (.inl hp)
    rw [sends_send, show (g pid).event pid (.io (.connected pid)) = { Line.new with online := true } from if_pos rfl]
    refine ⟨?_, ?_, ?_, fun c m hl => ?_, fun hv => ?_, fun tip ht => ?_, fun hf => ?_⟩
    · exact hfresh.protocols.symm ▸ Drains.refl .new
    · simp [dispatch, Line.new]
    · simp [dispatch, Line.new, hpropose]
    · cases (hfresh.unsent c).symm.trans hl
    · cases hfresh.violation.symm.trans hv
    · cases (congrArg ProtocolStates.chainsync hfresh.protocols).symm.trans ht
    · simp [dispatch] at hf
  | disconnected =>
    have hstart : Line.new.Tracks st.reset := start rfl rfl st.errorCount
    simpa [event] using hstart
  | sent hmoves =>
    have hsent := hmoves.tracks (h.sent hp)
    simpa [event] using hsent
  | recv hreceives =>
    have hrecv := Receives.tracks hreceives h hp
    simpa [event] using hrecv
  | error hmoves =>
    refine hmoves.tracks (h.congr rfl rfl rfl (·.deferred) (fun hnew => by cases hnew) fun _ => ?_)
    exact ⟨by simp, by simp⟩
  | tagged htag =>
    rcases Input.tagger_eq_some htag with ⟨rfl, rfl⟩ | ⟨rfl, rfl⟩ | ⟨rfl, rfl⟩
    all_goals
      refine tagged (l := g pid) ?_
      exact h.congr rfl rfl rfl (·.deferred) id fun hf => ⟨hf.connected, hf.initialized⟩
  | included hn =>
    have hfresh := h.fresh (.inr hn)
    have hstart : (g pid).Tracks .new := start hfresh.dispatched hfresh.side 0
    simpa [event] using hstart
  | other ha hmoves =>
    rw [event_of_addressee ha]
    exact hmoves.tracks h

theorem idle_step {g : Lines} {input : Input} (hp : g.Allows input) (hd : (g pid).dispatched = [])
    (hs : (g pid).side = .new) :
    ((g pid).event pid input).dispatched = [] ∧ ((g pid).event pid input).side = .new := by
  by_cases ha : input.addressee = some pid
  · cases input with
    | io event =>
      cases event with
      | connected p =>
        obtain rfl := Option.some.inj ha
        simp [event, Line.new]
      | disconnected p =>
        obtain rfl := Option.some.inj ha
        simp [event, Line.new]
      | sent p msg =>
        obtain rfl := Option.some.inj ha
        have hmem : msg ∈ (g p).dispatched := hp
        simp [hd] at hmem
      | recv p msgs =>
        obtain rfl := Option.some.inj ha
        obtain rfl := Replies.eq_nil hp hs
        simp [event, hd, hs]
      | error p text => exact ⟨hd, hs⟩
      | idle => cases ha
    | command cmd => exact ⟨hd, hs⟩
  · rw [event_of_addressee ha]
    exact ⟨hd, hs⟩

end Line

/-! ### When a request is dispatched -/

/-- A state that the peer passes through in a step, and what has been pushed about it by then. -/
inductive Midway (pid : PeerId) (st : InitiatorState) : Input → OutboundQueue → InitiatorState → Prop
  | sent {msg : AnyMessage} {outs : OutboundQueue} {mid : InitiatorState} :
      Moves pid ((st.clearUnsent msg).applyMsg msg) outs mid → Midway pid st (.io (.sent pid msg)) outs mid
  | recv {msgs rest : List AnyMessage} {msg : AnyMessage} {outs out : OutboundQueue} {st₁ mid : InitiatorState} :
      Receives pid st msgs outs st₁ → Moves pid (st₁.applyMsg msg) out mid →
      Midway pid st (.io (.recv pid (msgs ++ msg :: rest))) (outs ++ out) mid
  | error {text : String} {count : UInt32} {outs : OutboundQueue} {mid : InitiatorState} :
      Moves pid { st with connection := .errored, errorCount := count } outs mid →
      Midway pid st (.io (.error pid text)) outs mid
  | tagged {input : Input} {f : InitiatorState → InitiatorState} : input.tagger = some (pid, f) →
      Midway pid st input [] (f st)
  | other {input : Input} {outs : OutboundQueue} {mid : InitiatorState} : input.addressee ≠ some pid →
      Moves pid st outs mid → Midway pid st input outs mid

/-- The protocol state of the channel takes the request, and no other is unsent there. -/
def InitiatorState.Free (st : InitiatorState) (msg : AnyMessage) : Prop :=
  st.canApply msg = true ∧ st.unsent.byChannel.lookup msg.channel = none

theorem OutboundQueue.split_append {pre post : OutboundQueue} {o : BehaviorOutput}
    (h : outs ++ out = pre ++ o :: post) :
    (∃ post', outs = pre ++ o :: post') ∨ ∃ pre', pre = outs ++ pre' ∧ out = pre' ++ o :: post := by
  rcases List.append_eq_append_iff.1 h with ⟨mid, rfl, hout⟩ | ⟨mid, rfl, hout⟩
  · exact .inr ⟨mid, rfl, hout⟩
  · cases mid with
    | nil => exact .inr ⟨[], by simp, hout.symm⟩
    | cons o' mid =>
      obtain ⟨rfl, -⟩ := List.cons.inj hout
      exact .inl ⟨mid, rfl⟩

theorem Move.free (h : Move pid st outs st') {pre post : OutboundQueue}
    (ho : outs = pre ++ .interfaceCommand (.send pid msg) :: post) : pre = [] ∧ st.Free msg := by
  have hsome : sends outs pid ≠ [] := by
    rw [ho, sends_append]
    simp [sends]
  have hone {m : AnyMessage}
      (he : [.interfaceCommand (.send pid m)] = pre ++ .interfaceCommand (.send pid msg) :: post) :
      pre = [] ∧ m = msg := by
    obtain ⟨rfl, he⟩ | ⟨-, he⟩ := List.singleton_eq_append_iff.1 he
    · cases (List.cons.inj he).1
      exact ⟨rfl, rfl⟩
    · cases he
  cases h with
  | request _ hc hi =>
    obtain ⟨hpre, rfl⟩ := hone ho
    exact ⟨hpre, hc, (UnsentRequests.insert_eq_some hi).2.1⟩
  | deferredNext _ hc hi =>
    obtain ⟨hpre, rfl⟩ := hone ho
    exact ⟨hpre, hc, (UnsentRequests.insert_eq_some hi).2.1⟩
  | header _ => exact absurd ChainSyncBehavior.drainData_sends hsome
  | notification => exact absurd (LeiosNotifyBehavior.dispatch_sends pid st) hsome
  | fetched => exact absurd (LeiosFetchBehavior.dispatch_sends pid st) hsome
  | _ => exact absurd (by simp [sends]) hsome

theorem Moves.free (h : Moves pid st outs st') {pre post : OutboundQueue}
    (ho : outs = pre ++ .interfaceCommand (.send pid msg) :: post) : ∃ mid, Moves pid st pre mid ∧ mid.Free msg := by
  induction h generalizing pre post with
  | refl => simp at ho
  | snoc hmoves hmove ih =>
    rcases OutboundQueue.split_append ho with ⟨post', ho⟩ | ⟨pre', rfl, hlast⟩
    · exact ih ho
    · obtain ⟨rfl, hfree⟩ := hmove.free hlast
      exact ⟨_, by simpa using hmoves, hfree⟩

theorem Receives.free {msgs : List AnyMessage} (h : Receives pid st msgs outs st') (rest : List AnyMessage)
    {pre post : OutboundQueue} (ho : outs = pre ++ .interfaceCommand (.send pid msg) :: post) :
    ∃ mid, Midway pid st (.io (.recv pid (msgs ++ rest))) pre mid ∧ mid.Free msg := by
  induction h generalizing pre post rest with
  | nil => simp at ho
  | @snoc msgs last outs out st₁ st₂ hreceives hmoves ih =>
    rw [List.append_assoc, List.singleton_append]
    rcases OutboundQueue.split_append ho with ⟨post', ho⟩ | ⟨pre', rfl, hlast⟩
    · exact ih (last :: rest) ho
    · obtain ⟨mid, hmid, hfree⟩ := hmoves.free hlast
      exact ⟨mid, .recv hreceives hmid, hfree⟩

theorem ChainSyncBehavior.visitTagged_free (b : ChainSyncBehavior) {pre post : OutboundQueue}
    (ho : (b.visitTagged pid st []).2 = pre ++ .interfaceCommand (.send pid msg) :: post) : pre = [] ∧ st.Free msg := by
  unfold visitTagged at ho
  split at ho
  · simp at ho
  · split at ho
    · simp at ho
    · split at ho
      · rcases st.trySendRequest_cases pid (.chainSync .requestNext) [] with hs | ⟨unsent, hc, hi, hs⟩
        · simp [hs] at ho
        · rw [hs] at ho
          rcases List.singleton_eq_append_iff.1 ho with ⟨rfl, he⟩ | ⟨-, he⟩
          · obtain rfl : msg = .chainSync .requestNext := by simpa using (List.cons.inj he).1
            exact ⟨rfl, hc, (UnsentRequests.insert_eq_some hi).2.1⟩
          · cases he
      · simp at ho

theorem PeerStep.free {table : Handshake.VersionTable} {input : Input} (h : PeerStep table pid st input outs st')
    (hr : msg.isRequest = true) {pre post : OutboundQueue}
    (ho : outs = pre ++ .interfaceCommand (.send pid msg) :: post) :
    ∃ mid, Midway pid st input pre mid ∧ mid.Free msg := by
  cases h with
  | connected _ =>
    rcases List.singleton_eq_append_iff.1 ho with ⟨-, he⟩ | ⟨-, he⟩
    · obtain rfl : msg = .handshake (.propose table) := by simpa using (List.cons.inj he).1
      cases hr
    · cases he
  | disconnected => simp at ho
  | sent hmoves =>
    obtain ⟨mid, hmid, hfree⟩ := hmoves.free ho
    exact ⟨mid, .sent hmid, hfree⟩
  | recv hreceives => simpa using hreceives.free [] ho
  | error hmoves =>
    obtain ⟨mid, hmid, hfree⟩ := hmoves.free ho
    exact ⟨mid, .error hmid, hfree⟩
  | tagged htag =>
    obtain ⟨rfl, hfree⟩ := ChainSyncBehavior.visitTagged_free _ ho
    exact ⟨_, .tagged htag, hfree⟩
  | included _ => simp at ho
  | other ha hmoves =>
    obtain ⟨mid, hmid, hfree⟩ := hmoves.free ho
    exact ⟨mid, .other ha hmid, hfree⟩

namespace InitiatorBehavior
variable {s t : InitiatorBehavior} {input : Input}

/-! ### Runs -/

/-- The lines to all peers along a run. -/
def lines : Monitor InitiatorBehavior Input Lines where
  keep g x := fun pid => ((g pid).event pid x.input).dispatch (sends x.target.outbound pid)
  accept g x := g.Allows x.input

instance (g : Lines) (x : Transition InitiatorBehavior Input) : Decidable (lines.accept g x) :=
  inferInstanceAs (Decidable (g.Allows x.input))

/-- Each line goes with the state of its peer; that of a peer that is not tracked is empty. -/
structure InLine (g : Lines) (s : InitiatorBehavior) : Prop where
  untracked : ∀ pid, s.peers.lookup pid = none → (g pid).dispatched = [] ∧ (g pid).side = .new
  tracked : ∀ pid st, s.peers.lookup pid = some st → (g pid).Tracks st

theorem Step.inLine {g : Lines} (h : s.Step input t) (hg : InLine g s) (hp : g.Allows input) :
    InLine (lines.keep g ⟨s, input, t⟩) t := by
  refine ⟨fun pid hl' => ?_, fun pid st' hl' => ?_⟩
  all_goals
    obtain ⟨-, hnone, hsome⟩ := h.onePeer pid
    have hkeep : lines.keep g ⟨s, input, t⟩ pid =
      ((g pid).event pid input).dispatch (sends (t.outbound.about pid) pid) := by rw [sends_about]; rfl
    rw [hkeep]
    cases hl : s.peers.lookup pid
  · obtain ⟨hd, hs⟩ := hg.untracked pid hl
    rw [(hnone hl).1, sends_nil, Line.dispatch_nil]
    exact Line.idle_step hp hd hs
  · obtain ⟨st', hsome, -⟩ := hsome _ hl
    cases hl'.symm.trans hsome
  · obtain ⟨hd, hs⟩ := hg.untracked pid hl
    obtain ⟨hd, hs⟩ := Line.idle_step hp hd hs
    obtain ⟨hout, hl''⟩ := hnone hl
    have hnew : st' = { InitiatorState.new with errorCount := 0 } := by
      rcases hl'' with hl'' | ⟨-, hl''⟩
      · cases hl'.symm.trans hl''
      · exact Option.some.inj (hl'.symm.trans hl'')
    rw [hout, sends_nil, Line.dispatch_nil, hnew]
    exact .start hd hs 0
  · obtain ⟨st₁, hl₁, hstep⟩ := hsome _ hl
    obtain rfl := Option.some.inj (hl'.symm.trans hl₁)
    exact (hg.tracked pid _ hl).step hstep hp

theorem run_inLine {tr : List (Transition InitiatorBehavior Input)} (h : Run Init Step tr s)
    (hp : lines.Accepts (fun _ => .new) tr) : InLine (lines.after (fun _ => .new) tr) s := by
  refine Run.monitored (M := lines) (R := InLine) (K := fun _ => True) (fun s hs => ?_)
    (fun g s i t hg hp _ hstep => hstep.inLine hg hp) h hp fun _ _ => trivial
  obtain ⟨config, handshake, rfl⟩ := hs
  exact ⟨fun pid _ => ⟨rfl, rfl⟩, fun pid st hl => by simp [new] at hl⟩

/-- A request is dispatched only when the protocol state of its channel takes it and no other is unsent there; so a peer
that keeps to the protocols is in violation only after it has answered that there is no intersection. -/
theorem violation_only_of_notFound {tr : List (Transition InitiatorBehavior Input)} (h : Run Init Step tr s) :
    (∀ x ∈ tr, ∀ pid msg pre post, msg.isRequest = true →
      x.target.outbound.about pid = pre ++ .interfaceCommand (.send pid msg) :: post →
      ∃ st mid, x.source.peers.lookup pid = some st ∧ Midway pid st x.input pre mid ∧ mid.canApply msg = true ∧
        mid.unsent.byChannel.lookup msg.channel = none) ∧
    (lines.Accepts (fun _ => .new) tr → ∀ pid st, s.peers.lookup pid = some st → st.violation = true →
      (lines.after (fun _ => .new) tr pid).notFound = true) := by
  refine ⟨fun x hx pid msg pre post hr ho => ?_, fun hp pid st hl => ((run_inLine h hp).tracked pid st hl).violation⟩
  obtain ⟨-, hnone, hsome⟩ := (h.step_of_mem hx).onePeer pid
  cases hl : x.source.peers.lookup pid with
  | none =>
    rw [(hnone hl).1] at ho
    simp at ho
  | some st =>
    obtain ⟨st', -, hstep⟩ := hsome st hl
    obtain ⟨mid, hmid, happ, hfree⟩ := hstep.free hr ho
    exact ⟨st, mid, rfl, hmid, happ, hfree⟩

/-- Nothing has gone wrong with a peer that is synced with. -/
theorem violation_only_of_notFound_syncing : ∃ tr s st, Run Init Step tr s ∧ lines.Accepts (fun _ => .new) tr ∧
    s.peers.lookup ⟨"a", 1⟩ = some st ∧ (lines.after (fun _ => .new) tr ⟨"a", 1⟩).notFound = false ∧
    st.violation = false := by
  have hplays : (new .default .default).plays (syncing ⟨"a", 1⟩)
      (fun tr s => (s.peers.lookup ⟨"a", 1⟩).isSome ∧ lines.Accepts (fun _ => .new) tr ∧
        (lines.after (fun _ => .new) tr ⟨"a", 1⟩).notFound = false) = true := by decide
  obtain ⟨tr, s, hrun, htest⟩ := exists_run_of_plays ⟨_, _, rfl⟩ hplays
  obtain ⟨hsome, hp, hfound⟩ := of_decide_eq_true htest
  obtain ⟨st, hl⟩ := Option.isSome_iff_exists.1 hsome
  refine ⟨tr, s, st, hrun, hp, hl, hfound, Bool.eq_false_iff.2 fun hv => ?_⟩
  have hnotFound := (violation_only_of_notFound hrun).2 hp ⟨"a", 1⟩ st hl hv
  rw [hfound] at hnotFound
  cases hnotFound

/-- A peer that answers, as it may, that there is no intersection. -/
theorem violation_of_notFound : ¬ ∀ tr s, Run Init Step tr s → lines.Accepts (fun _ => .new) tr →
    ∀ pid st, s.peers.lookup pid = some st → st.violation = false := by
  intro h
  have hplays : (new .default .default).plays ((syncing ⟨"a", 1⟩).take 9 ++
      [(⟨[⟨"a", 1⟩], []⟩, .io (.recv ⟨"a", 1⟩ [.chainSync (.intersectNotFound ⟨.origin, 0⟩)]))])
      (fun tr s => lines.Accepts (fun _ => .new) tr ∧
        (s.peers.lookup ⟨"a", 1⟩).elim false (·.violation) = true) = true := by decide
  obtain ⟨tr, s, hrun, htest⟩ := exists_run_of_plays ⟨_, _, rfl⟩ hplays
  obtain ⟨hp, hviolation⟩ := of_decide_eq_true htest
  cases hl : s.peers.lookup ⟨"a", 1⟩ with
  | none =>
    rw [hl] at hviolation
    cases hviolation
  | some st =>
    rw [hl] at hviolation
    cases (h tr s hrun hp _ st hl).symm.trans hviolation

end InitiatorBehavior
end Pallas.Network2
