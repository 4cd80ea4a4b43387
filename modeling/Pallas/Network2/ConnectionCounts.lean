import Pallas.Network2.Responder

/-!
# Connections counted per host

The responder counts a peer when it connects, after it has rejected a banned one, and takes one off the count of the host
when a peer disconnects, whether that peer was counted or not. So the disconnection of a rejected peer takes away one that
stands for another peer of the host, if there is one. `Counts` says what the counts are for; it holds all along exactly if
every rejected peer leaves while no other of its host is counted (`counted_iff`).
-/

namespace Pallas.Network2

/-- The peers that are connected, and those that were banned when they last connected. -/
structure Connections where
  online : Finset PeerId
  rejected : Finset PeerId

namespace Connections

def empty : Connections := ⟨∅, ∅⟩

def counted (self : Connections) (host : String) : Finset PeerId := (self.online \ self.rejected).filter (·.host = host)

/-- `banned` are the peers that are banned before the input. -/
def event (self : Connections) (banned : Finset PeerId) : ResponderInput → Connections
  | .io (.connected pid) =>
    ⟨insert pid self.online, if pid ∈ banned then insert pid self.rejected else self.rejected.erase pid⟩
  | .io (.disconnected pid) => ⟨self.online.erase pid, self.rejected.erase pid⟩
  | _ => self

/-- `Connected` and `Disconnected` alternate for each peer. -/
def Alternates (self : Connections) : ResponderInput → Prop
  | .io (.connected pid) => pid ∉ self.online
  | .io (.disconnected pid) => pid ∈ self.online
  | _ => True

instance Alternates.decidable (self : Connections) : ∀ input, Decidable (self.Alternates input)
  | .io (.connected pid) => inferInstanceAs (Decidable (pid ∉ self.online))
  | .io (.disconnected pid) => inferInstanceAs (Decidable (pid ∈ self.online))
  | .io (.sent ..) | .io (.recv ..) | .io (.error ..) | .io .idle | .command _ => inferInstanceAs (Decidable True)

/-- A peer that was rejected leaves while no peer of its host is counted. -/
def LeavesAlone (self : Connections) : ResponderInput → Prop
  | .io (.disconnected pid) => pid ∈ self.rejected → self.counted pid.host = ∅
  | _ => True

instance LeavesAlone.decidable (self : Connections) : ∀ input, Decidable (self.LeavesAlone input)
  | .io (.disconnected pid) => inferInstanceAs (Decidable (pid ∈ self.rejected → self.counted pid.host = ∅))
  | .io (.connected _) | .io (.sent ..) | .io (.recv ..) | .io (.error ..) | .io .idle | .command _ =>
    inferInstanceAs (Decidable True)

variable {g : Connections} {banned : Finset PeerId} {pid : PeerId}

theorem counted_connected_of_mem (ho : pid ∉ g.online) (hb : pid ∈ banned) (host : String) :
    (g.event banned (.io (.connected pid))).counted host = g.counted host := by
  have hsame : insert pid g.online \ insert pid g.rejected = g.online \ g.rejected := by
    ext x
    by_cases hx : x = pid <;> simp [hx, ho]
  simp [event, counted, hb, hsame]

theorem counted_connected_of_notMem (hb : pid ∉ banned) (host : String) :
    (g.event banned (.io (.connected pid))).counted host =
      if pid.host = host then insert pid (g.counted host) else g.counted host := by
  ext x
  by_cases hx : x = pid
  · subst hx
    by_cases hh : x.host = host <;> simp [event, counted, hb, hh]
  · by_cases hh : pid.host = host <;> simp [event, counted, hb, hh, hx]

theorem counted_disconnected (host : String) :
    (g.event banned (.io (.disconnected pid))).counted host = (g.counted host).erase pid := by
  ext x
  by_cases hx : x = pid <;> simp [event, counted, hx]

end Connections

namespace ConnectionResponder
variable {c c' : ConnectionResponder} {pid : PeerId} {out out' : ResponderQueue}

/-- The same, except for the bans. -/
def SameBooks (c c' : ConnectionResponder) : Prop := { c with bannedPeers := c'.bannedPeers } = c'

theorem visitHousekeeping_sameBooks (state : ResponderState) : c.SameBooks (c.visitHousekeeping pid state out).1 := by
  unfold visitHousekeeping
  split
  · rfl
  · split <;> rfl

theorem takeOn_cases (h : c.takeOn pid out = .ok (c', out')) :
    c' = c ∨ (c.count pid.host ≤ c.config.maxConnectionsPerIp ∧ pid ∉ c.acceptedPeers) ∧
      c' = { c with acceptedPeers := insert pid c.acceptedPeers, activePeers := c.activePeers + 1 } := by
  unfold takeOn at h
  split at h
  · exact .inl (Prod.mk.inj (Outcome.ok.inj h)).1.symm
  · next hmax =>
    split at h
    · exact .inl (Prod.mk.inj (Outcome.ok.inj h)).1.symm
    · next hnew =>
      obtain ⟨active, hactive, h⟩ := Outcome.bind_eq_ok.1 h
      obtain ⟨-, rfl⟩ := usizeAdd_eq_ok.1 hactive
      exact .inr ⟨⟨Nat.not_lt.1 hmax, hnew⟩, (Prod.mk.inj (Outcome.ok.inj h)).1.symm⟩

/-- What a connection that is not rejected does to the books. -/
structure Enters (c : ConnectionResponder) (pid : PeerId) (c' : ConnectionResponder) : Prop where
  config : c'.config = c.config
  count : ∀ host, c'.count host = if host = pid.host then c.count host + 1 else c.count host
  accepted : c'.acceptedPeers = c.acceptedPeers ∧ c'.activePeers = c.activePeers ∨
    (c.count pid.host + 1 ≤ c.config.maxConnectionsPerIp ∧ pid ∉ c.acceptedPeers) ∧
      c'.acceptedPeers = insert pid c.acceptedPeers ∧ c'.activePeers = c.activePeers + 1

theorem visitConnected_cases (h : c.visitConnected pid out = .ok (c', out')) :
    pid ∈ c.bannedPeers ∧ c' = c ∨ pid ∉ c.bannedPeers ∧ c.Enters pid c' := by
  unfold visitConnected at h
  split at h
  · next hb => exact .inl ⟨hb, (Prod.mk.inj (Outcome.ok.inj h)).1.symm⟩
  · next hb =>
    refine .inr ⟨hb, ?_⟩
    obtain ⟨count, hcount, h⟩ := Outcome.bind_eq_ok.1 h
    obtain ⟨-, rfl⟩ := usizeAdd_eq_ok.1 hcount
    have hinsert : ∀ host, ((c.connectionsPerIp.insert pid.host (c.count pid.host + 1)).lookup host).getD 0 =
        if host = pid.host then c.count host + 1 else c.count host := by
      intro host
      by_cases hh : host = pid.host
      · subst hh
        rw [Finmap.lookup_insert, if_pos rfl, Option.getD_some]
      · rw [Finmap.lookup_insert_of_ne _ hh, if_neg hh, ConnectionResponder.count]
    rcases takeOn_cases h with rfl | ⟨⟨hmax, hnew⟩, rfl⟩
    · exact ⟨rfl, hinsert, .inl ⟨rfl, rfl⟩⟩
    · have hself := hinsert pid.host
      rw [if_pos rfl] at hself
      exact ⟨rfl, hinsert, .inr ⟨⟨hself ▸ hmax, hnew⟩, rfl, rfl⟩⟩

/-- One is taken off, whoever leaves. -/
theorem visitDisconnected_count (host : String) :
    (c.visitDisconnected pid).count host = if host = pid.host then c.count host - 1 else c.count host := by
  change ((c.release pid.host).lookup host).getD 0 = _
  unfold release
  by_cases hh : host = pid.host
  · subst hh
    rw [if_pos rfl, ConnectionResponder.count]
    cases hl : c.connectionsPerIp.lookup pid.host with
    | none => simp [hl]
    | some count =>
      by_cases hz : count - 1 = 0
      · simp [hz, Finmap.lookup_erase]
      · simp [hz, Finmap.lookup_insert]
  · rw [if_neg hh, ConnectionResponder.count]
    split
    · split
      · rw [Finmap.lookup_erase_ne hh]
      · rw [Finmap.lookup_insert_of_ne _ hh]
    · rfl

end ConnectionResponder

namespace ResponderBehavior
variable {s t u : ResponderBehavior} {g : Connections} {pid : PeerId} {input : ResponderInput}

/-- The books are the same except for the bans, and so are the peers that are tracked. -/
def Keeps (s t : ResponderBehavior) : Prop := s.connection.SameBooks t.connection ∧ t.peers.keys = s.peers.keys

theorem Keeps.refl (s : ResponderBehavior) : Keeps s s := ⟨rfl, rfl⟩

theorem Keeps.trans (h : Keeps s t) (h' : Keeps t u) : Keeps s u := by
  refine ⟨?_, h'.2.trans h.2⟩
  obtain ⟨hbooks, -⟩ := h
  obtain ⟨hbooks', -⟩ := h'
  unfold ConnectionResponder.SameBooks at *
  rw [← hbooks', ← hbooks]

theorem keys_insert {peers : Finmap fun _ : PeerId => ResponderState} {st : ResponderState} :
    (peers.insert pid st).keys = insert pid peers.keys := by
  ext x
  rw [Finmap.mem_keys, Finmap.mem_insert, Finset.mem_insert, Finmap.mem_keys]

theorem keys_insert_of_lookup {st st' : ResponderState} (h : s.peers.lookup pid = some st) :
    (s.peers.insert pid st').keys = s.peers.keys := by
  rw [keys_insert]
  exact Finset.insert_eq_of_mem (Finmap.mem_keys.2 (Finmap.mem_of_lookup_eq_some h))

theorem onInboundMsg_keeps (msg : AnyMessage) : Keeps s (s.onInboundMsg pid msg) := by
  unfold onInboundMsg
  split
  · exact .refl s
  · next hl => exact ⟨rfl, keys_insert_of_lookup hl⟩

theorem onOutboundMsg_keeps (msg : AnyMessage) : Keeps s (s.onOutboundMsg pid msg) := by
  unfold onOutboundMsg
  split
  · exact .refl s
  · next hl => exact ⟨rfl, keys_insert_of_lookup hl⟩

theorem onErrored_keeps (h : s.onErrored pid = .ok t) : Keeps s t := by
  unfold onErrored at h
  split at h
  · obtain rfl := Outcome.ok.inj h
    exact .refl s
  · next hl =>
    obtain ⟨state, -, h⟩ := Outcome.bind_eq_ok.1 h
    obtain rfl := Outcome.ok.inj h
    exact ⟨rfl, keys_insert_of_lookup hl⟩

theorem visitHousekeeping_keeps : Keeps s (s.visitHousekeeping pid) := by
  unfold visitHousekeeping
  split
  · exact .refl s
  · next state hl => exact ⟨ConnectionResponder.visitHousekeeping_sameBooks state, keys_insert_of_lookup hl⟩

theorem foldl_keeps {α : Type} {f : ResponderBehavior → α → ResponderBehavior} (hf : ∀ s x, Keeps s (f s x))
    (s : ResponderBehavior) (xs : List α) : Keeps s (xs.foldl f s) := by
  induction xs generalizing s with
  | nil => exact .refl s
  | cons x xs ih => exact (hf s x).trans (ih _)

theorem sendMsg_keeps (s : ResponderBehavior) (pid : PeerId) (msg : AnyMessage) :
    Keeps s (s.sendMsg pid msg) := ⟨rfl, rfl⟩

theorem provideBlocks_keeps (blocks : List Blockfetch.Body) : Keeps s (s.provideBlocks pid blocks) := by
  have hstart := s.sendMsg_keeps pid (.blockFetch .startBatch)
  have hblocks := foldl_keeps (fun s block => s.sendMsg_keeps pid (.blockFetch (.block block)))
    (s.sendMsg pid (.blockFetch .startBatch)) blocks
  exact (hstart.trans hblocks).trans (sendMsg_keeps _ pid _)

theorem execute_keeps (iter : List PeerId) (cmd : ResponderCommand) : Keeps s (s.execute iter cmd) := by
  cases cmd with
  | housekeeping => exact foldl_keeps (fun _ _ => visitHousekeeping_keeps) s iter
  | provideBlocks pid blocks => exact provideBlocks_keeps blocks
  | _ => exact ⟨rfl, rfl⟩

/-- The count of a host is that of its peers that are connected and were not rejected as banned, the accepted peers are
counted, and of one host no more are accepted than may be. -/
structure Counts (g : Connections) (c : ConnectionResponder) : Prop where
  perIp : ∀ host, c.count host = (g.counted host).card
  active : c.activePeers = c.acceptedPeers.card
  limit : ∀ host, (c.acceptedPeers.filter (·.host = host)).card ≤ c.config.maxConnectionsPerIp

/-- What else is known of the state as long as it counts right. -/
structure Accounts (g : Connections) (s : ResponderBehavior) : Prop where
  counts : Counts g s.connection
  accepted : s.connection.acceptedPeers ⊆ g.online \ g.rejected
  tracked : s.peers.keys = g.online

theorem Keeps.accounts (h : Keeps s t) (hg : Accounts g s) : Accounts g t := by
  obtain ⟨hbooks, hkeys⟩ := h
  obtain ⟨⟨hper, hactive, hlimit⟩, haccepted, htracked⟩ := hg
  refine ⟨?_, ?_, hkeys.trans htracked⟩
  · rw [← hbooks]
    exact ⟨hper, hactive, hlimit⟩
  · rw [← hbooks]
    exact haccepted

theorem onConnected_accounts (h : s.onConnected pid = .ok t) (hg : Accounts g s) (ho : pid ∉ g.online) :
    Accounts (g.event s.connection.bannedPeers (.io (.connected pid))) t := by
  obtain ⟨⟨connection, outbound⟩, hvisit, h⟩ := Outcome.bind_eq_ok.1 h
  obtain rfl := Outcome.ok.inj h
  obtain ⟨⟨hper, hactive, hlimit⟩, haccepted, htracked⟩ := hg
  have hkeys : (s.peers.insert pid { ResponderState.new with connection := .connected }).keys =
    insert pid g.online := by
    rw [keys_insert, htracked]
  rcases ConnectionResponder.visitConnected_cases hvisit with ⟨hb, rfl⟩ | ⟨hb, hconfig, hcount, hbooks⟩
  · refine ⟨⟨fun host => ?_, hactive, hlimit⟩, fun x hx => ?_, hkeys⟩
    · rw [Connections.counted_connected_of_mem ho hb]
      exact hper host
    · have hmem := Finset.mem_sdiff.1 (haccepted hx)
      have hne : x ≠ pid := fun he => ho (he ▸ hmem.1)
      simp [Connections.event, hb, hmem, hne]
  · have hcounted : pid ∉ g.counted pid.host := by simp [Connections.counted, ho]
    have hsub : ∀ x ∈ s.connection.acceptedPeers,
        x ∈ insert pid g.online \ (g.rejected.erase pid) := by
      intro x hx
      have hmem := Finset.mem_sdiff.1 (haccepted hx)
      simp [hmem]
    refine ⟨⟨fun host => ?_, ?_, fun host => ?_⟩, fun x hx => ?_, hkeys⟩
    · rw [Connections.counted_connected_of_notMem hb, hcount host, hper host]
      by_cases hh : host = pid.host
      · subst hh
        rw [if_pos rfl, if_pos rfl, Finset.card_insert_of_notMem hcounted]
      · rw [if_neg hh, if_neg (Ne.symm hh)]
    · rcases hbooks with ⟨ha, hn⟩ | ⟨⟨-, hnew⟩, ha, hn⟩
      · rw [ha, hn, hactive]
      · rw [ha, hn, hactive, Finset.card_insert_of_notMem hnew]
    · rcases hbooks with ⟨ha, -⟩ | ⟨⟨hmax, hnew⟩, ha, -⟩
      · rw [ha, hconfig]
        exact hlimit host
      · rw [ha, hconfig, Finset.filter_insert]
        split
        · next hh =>
          subst hh
          have hle : (s.connection.acceptedPeers.filter (·.host = pid.host)).card ≤ (g.counted pid.host).card :=
            Finset.card_le_card (Finset.filter_subset_filter _ haccepted)
          have hcard := Finset.card_insert_le pid (s.connection.acceptedPeers.filter (·.host = pid.host))
          rw [hper pid.host] at hmax
          omega
        · exact hlimit host
    · have hevent : (g.event s.connection.bannedPeers (.io (.connected pid))).online \
          (g.event s.connection.bannedPeers (.io (.connected pid))).rejected =
          insert pid g.online \ (g.rejected.erase pid) := by simp [Connections.event, hb]
      rw [hevent]
      rcases hbooks with ⟨ha, -⟩ | ⟨-, ha, -⟩
      · exact hsub x (ha ▸ hx)
      · rw [ha] at hx
        rcases Finset.mem_insert.1 hx with rfl | hx
        · simp
        · exact hsub x hx

theorem onDisconnected_accounts (hg : Accounts g s) (ho : pid ∈ g.online) :
    (Counts (g.event s.connection.bannedPeers (.io (.disconnected pid))) (s.onDisconnected pid).connection ↔
      g.LeavesAlone (.io (.disconnected pid))) ∧
    (Counts (g.event s.connection.bannedPeers (.io (.disconnected pid))) (s.onDisconnected pid).connection →
      Accounts (g.event s.connection.bannedPeers (.io (.disconnected pid))) (s.onDisconnected pid)) := by
  obtain ⟨⟨hper, hactive, hlimit⟩, haccepted, htracked⟩ := hg
  have hl : ∃ st, s.peers.lookup pid = some st := Finmap.mem_iff.1 (Finmap.mem_keys.1 (htracked.symm ▸ ho))
  obtain ⟨st, hl⟩ := hl
  have hconnection : (s.onDisconnected pid).connection = s.connection.visitDisconnected pid := by
    simp [onDisconnected, hl]
  have haccept : (s.connection.visitDisconnected pid).acceptedPeers = s.connection.acceptedPeers.erase pid := rfl
  constructor
  · constructor
    · intro hcounts hr
      have hcount := hcounts.perIp pid.host
      have hmem : pid ∉ g.counted pid.host := by simp [Connections.counted, hr]
      rw [hconnection, ConnectionResponder.visitDisconnected_count, if_pos rfl, hper, Connections.counted_disconnected,
        Finset.erase_eq_of_notMem hmem] at hcount
      exact Finset.card_eq_zero.1 (by omega)
    · intro halone
      refine ⟨fun host => ?_, ?_, fun host => ?_⟩
      · rw [hconnection, ConnectionResponder.visitDisconnected_count, Connections.counted_disconnected, hper host]
        by_cases hh : host = pid.host
        · subst hh
          rw [if_pos rfl]
          by_cases hr : pid ∈ g.rejected
          · have hnone : g.counted pid.host = ∅ := halone hr
            rw [hnone]
            rfl
          · exact (Finset.card_erase_of_mem (by simp [Connections.counted, ho, hr])).symm
        · have hmem : pid ∉ g.counted host := by
            simp only [Connections.counted, Finset.mem_filter, not_and]
            exact fun _ he => hh he.symm
          rw [if_neg hh, Finset.erase_eq_of_notMem hmem]
      · rw [hconnection, haccept, ConnectionResponder.visitDisconnected, hactive]
        split
        · next ha => exact (Finset.card_erase_of_mem ha).symm
        · next ha => rw [Finset.erase_eq_of_notMem ha]
      · rw [hconnection, haccept]
        exact (Finset.card_le_card (Finset.filter_subset_filter _ (Finset.erase_subset _ _))).trans (hlimit host)
  · intro hcounts
    refine ⟨hcounts, fun x hx => ?_, ?_⟩
    · rw [hconnection, haccept] at hx
      obtain ⟨hne, hx⟩ := Finset.mem_erase.1 hx
      have hmem := Finset.mem_sdiff.1 (haccepted hx)
      simp [Connections.event, hne, hmem]
    · have hpeers : (s.onDisconnected pid).peers = s.peers.erase pid := rfl
      rw [hpeers, Finmap.keys_erase, htracked]
      rfl

theorem Step.keeps (h : s.Step input t) (hc : ∀ pid, input ≠ .io (.connected pid))
    (hd : ∀ pid, input ≠ .io (.disconnected pid)) : Keeps s t := by
  obtain ⟨iter, -, h⟩ := h
  have hstart : Keeps s { s with outbound := [] } := .refl s
  refine hstart.trans ?_
  cases input with
  | io event =>
    cases event with
    | connected pid => exact absurd rfl (hc pid)
    | disconnected pid => exact absurd rfl (hd pid)
    | sent pid msg =>
      obtain rfl := Outcome.ok.inj h
      exact onOutboundMsg_keeps msg
    | recv pid msgs =>
      obtain rfl := Outcome.ok.inj h
      exact foldl_keeps (fun _ msg => onInboundMsg_keeps msg) _ msgs
    | error pid text => exact onErrored_keeps h
    | idle =>
      obtain rfl := Outcome.ok.inj h
      exact foldl_keeps (fun _ _ => visitHousekeeping_keeps) _ iter
  | command cmd =>
    obtain rfl := Outcome.ok.inj h
    exact execute_keeps iter cmd

theorem Connections.event_of_ne (banned : Finset PeerId) (hc : ∀ pid, input ≠ .io (.connected pid))
    (hd : ∀ pid, input ≠ .io (.disconnected pid)) : g.event banned input = g ∧ g.LeavesAlone input := by
  cases input with
  | io event =>
    cases event with
    | connected pid => exact absurd rfl (hc pid)
    | disconnected pid => exact absurd rfl (hd pid)
    | _ => exact ⟨rfl, trivial⟩
  | command cmd => exact ⟨rfl, trivial⟩

/-! ### Runs -/

/-- What the surroundings promise. -/
def alternation : Monitor ResponderBehavior ResponderInput Connections where
  keep g x := g.event x.source.connection.bannedPeers x.input
  accept g x := g.Alternates x.input

/-- Every step leads to a state that counts right. -/
def counting : Monitor ResponderBehavior ResponderInput Connections where
  keep g x := g.event x.source.connection.bannedPeers x.input
  accept g x := Counts (g.event x.source.connection.bannedPeers x.input) x.target.connection

/-- Every peer that was rejected leaves while no peer of its host is counted. -/
def leavingAlone : Monitor ResponderBehavior ResponderInput Connections where
  keep g x := g.event x.source.connection.bannedPeers x.input
  accept g x := g.LeavesAlone x.input

instance (g : Connections) (x : Transition ResponderBehavior ResponderInput) : Decidable (alternation.accept g x) :=
  inferInstanceAs (Decidable (g.Alternates x.input))

instance (g : Connections) (x : Transition ResponderBehavior ResponderInput) : Decidable (leavingAlone.accept g x) :=
  inferInstanceAs (Decidable (g.LeavesAlone x.input))

theorem Step.accounts (h : s.Step input t) (hg : Accounts g s) (ha : g.Alternates input) :
    (Counts (g.event s.connection.bannedPeers input) t.connection ↔ g.LeavesAlone input) ∧
      (Counts (g.event s.connection.bannedPeers input) t.connection →
        Accounts (g.event s.connection.bannedPeers input) t) := by
  have hstart : Accounts g { s with outbound := [] } := ⟨hg.counts, hg.accepted, hg.tracked⟩
  by_cases hc : ∃ pid, input = .io (.connected pid)
  · obtain ⟨pid, rfl⟩ := hc
    obtain ⟨iter, -, h⟩ := h
    have haccounts := onConnected_accounts (s := { s with outbound := [] }) h hstart ha
    exact ⟨iff_of_true haccounts.counts trivial, fun _ => haccounts⟩
  · by_cases hd : ∃ pid, input = .io (.disconnected pid)
    · obtain ⟨pid, rfl⟩ := hd
      obtain ⟨iter, -, h⟩ := h
      obtain rfl := Outcome.ok.inj h
      exact onDisconnected_accounts hstart ha
    · have hc := not_exists.1 hc
      have hd := not_exists.1 hd
      obtain ⟨hevent, halone⟩ := Connections.event_of_ne (g := g) s.connection.bannedPeers hc hd
      rw [hevent]
      have haccounts := (h.keeps hc hd).accounts hg
      exact ⟨iff_of_true haccounts.counts halone, fun _ => haccounts⟩

theorem init_accounts (h : s.Init) : Accounts .empty s := by
  obtain ⟨connection, handshake, txsubmission, rfl⟩ := h
  refine ⟨⟨fun host => ?_, rfl, fun host => ?_⟩, ?_, rfl⟩
  · simp [new, ConnectionResponder.new, ConnectionResponder.count, Connections.counted, Connections.empty]
  · simp [new, ConnectionResponder.new]
  · simp [new, ConnectionResponder.new]

theorem counts_of_accepts {tr : List (Transition ResponderBehavior ResponderInput)} (h : Run Init Step tr s)
    (hc : counting.Accepts .empty tr) : Counts (counting.after .empty tr) s.connection := by
  cases h with
  | start h => exact (init_accounts h).counts
  | next _ _ =>
    rw [counting.accepts_concat] at hc
    rw [counting.after_concat]
    exact hc.2

/-- In a run in which connections and disconnections alternate for each peer, the responder counts right all along exactly
if every peer that it rejected as banned leaves while no other peer of its host is counted. -/
theorem counted_iff {tr : List (Transition ResponderBehavior ResponderInput)} (h : Run Init Step tr s)
    (ha : alternation.Accepts .empty tr) : counting.Accepts .empty tr ↔ leavingAlone.Accepts .empty tr := by
  exact Run.accepts_iff_under (E := alternation) (M := counting) (N := leavingAlone) (R := Accounts) rfl rfl
    (fun _ hs => init_accounts hs) (fun _ _ _ _ hg ha hstep => hstep.accounts hg ha) h ha

/-- A peer that is rejected as banned leaves while no other of its host is counted. -/
theorem counted_iff_alone : ∃ tr s, Run Init Step tr s ∧ alternation.Accepts .empty tr ∧
    (alternation.after .empty tr).online = {⟨"a", 1⟩} ∧ counting.Accepts .empty tr := by
  have hplays : (Run.play move (new .default .default .default)
      [([], .command (.banPeer ⟨"a", 2⟩)), ([], .io (.connected ⟨"a", 2⟩)), ([⟨"a", 2⟩], .io (.disconnected ⟨"a", 2⟩)),
        ([], .io (.connected ⟨"a", 1⟩))]).any
      (fun (tr, _) => alternation.Accepts .empty tr ∧ (alternation.after .empty tr).online = {⟨"a", 1⟩} ∧
        leavingAlone.Accepts .empty tr) = true := by decide
  have hinit : Init (new .default .default .default) := ⟨_, _, _, rfl⟩
  obtain ⟨tr, s, hrun, htest⟩ := Run.exists_of_play step_of_move hinit hplays
  obtain ⟨ha, honline, halone⟩ := of_decide_eq_true htest
  exact ⟨tr, s, hrun, ha, honline, (counted_iff hrun ha).2 halone⟩

/-- One peer is connected; another of its host is rejected as banned and leaves, and none is counted. -/
theorem counted_too_few :
    ¬ ∀ tr s, Run Init Step tr s → alternation.Accepts .empty tr → counting.Accepts .empty tr := by
  intro h
  have hplays : (Run.play move (new .default .default .default)
      [([], .command (.banPeer ⟨"a", 2⟩)), ([], .io (.connected ⟨"a", 1⟩)), ([⟨"a", 1⟩], .io (.connected ⟨"a", 2⟩)),
        ([⟨"a", 1⟩, ⟨"a", 2⟩], .io (.disconnected ⟨"a", 2⟩))]).any
      (fun (tr, s) => alternation.Accepts .empty tr ∧
        s.connection.count "a" < ((counting.after .empty tr).counted "a").card) = true := by decide
  have hinit : Init (new .default .default .default) := ⟨_, _, _, rfl⟩
  obtain ⟨tr, s, hrun, htest⟩ := Run.exists_of_play step_of_move hinit hplays
  obtain ⟨ha, hfew⟩ := of_decide_eq_true htest
  have hcounts := (counts_of_accepts hrun (h tr s hrun ha)).perIp "a"
  omega

end ResponderBehavior
end Pallas.Network2
