import Pallas.Lib.Runs
import Pallas.Network2.OnePeer

/-!
# Requests for headers, and the grants for them

`ContinueSync` is a grant for one `RequestNext`. It sets `continue_sync`, which no code clears, and is served at once, or
deferred while another request is unsent, or not at all while a reply is awaited. So what is deferred is a grant that is
kept, and `nexts + deferred ≤ grants` is invariant under everything but two kinds of steps (`KeepsGrants`): the two other
tag commands run the same visitor, which finds `continue_sync` still set; and a connection starts the count afresh,
though something deferred may be left from before.
-/

namespace Pallas.Network2

/-- The requests for a header that the outputs send to the peer. -/
def nextsIn (out : OutboundQueue) (pid : PeerId) : ℕ :=
  out.count (.interfaceCommand (.send pid (.chainSync .requestNext)))

variable {pid : PeerId} {st st' : InitiatorState} {out outs : OutboundQueue}

@[simp] theorem nextsIn_nil : nextsIn [] pid = 0 := rfl

theorem nextsIn_append : nextsIn (out ++ outs) pid = nextsIn out pid + nextsIn outs pid := List.count_append

theorem nextsIn_about (out : OutboundQueue) (pid : PeerId) : nextsIn (out.about pid) pid = nextsIn out pid :=
  List.count_filter (by simp [BehaviorOutput.peer])

theorem ChainSyncBehavior.drainData_nexts :
    nextsIn (drainData pid st []).2 pid = 0 ∧ (drainData pid st []).1.syncNextDeferred = st.syncNextDeferred := by
  unfold drainData
  split
  · exact ⟨rfl, rfl⟩
  · split <;> simp [nextsIn]

/-- A visitor sends a request for a header only by using up what is deferred. -/
theorem Moves.nexts_le (h : Moves pid st outs st') :
    nextsIn outs pid + st'.syncNextDeferred.toNat ≤ st.syncNextDeferred.toNat := by
  induction h with
  | refl => simp
  | snoc _ hmove ih =>
    rw [nextsIn_append]
    refine le_trans ?_ ih
    cases hmove with
    | request hm _ _ => simp [nextsIn, hm.next]
    | deferredNext hd _ _ => simp [nextsIn, hd]
    | header _ =>
      rw [ChainSyncBehavior.drainData_nexts.1, ChainSyncBehavior.drainData_nexts.2]
      exact le_rfl
    | notification =>
      unfold LeiosNotifyBehavior.dispatch
      split <;> simp [nextsIn]
    | fetched =>
      unfold LeiosFetchBehavior.dispatch
      split <;> simp [nextsIn]
    | _ => simp [nextsIn]

theorem InitiatorState.applyMsg_syncNextDeferred (st : InitiatorState) (msg : AnyMessage) :
    (st.applyMsg msg).syncNextDeferred = st.syncNextDeferred := by
  cases msg <;> simp only [applyMsg] <;> split <;> rfl

theorem InitiatorState.clearUnsent_syncNextDeferred (st : InitiatorState) (msg : AnyMessage) :
    (st.clearUnsent msg).syncNextDeferred = st.syncNextDeferred := by
  unfold clearUnsent
  split <;> rfl

theorem Receives.nexts_le {msgs : List AnyMessage} (h : Receives pid st msgs outs st') :
    nextsIn outs pid + st'.syncNextDeferred.toNat ≤ st.syncNextDeferred.toNat := by
  induction h with
  | nil => simp
  | snoc _ hmoves ih =>
    have hlast := hmoves.nexts_le
    rw [InitiatorState.applyMsg_syncNextDeferred] at hlast
    rw [nextsIn_append]
    omega

/-- The peer is one that the tag visitor asks for the next header. -/
def InitiatorState.AsksNext (st : InitiatorState) : Prop :=
  st.continueSync = true ∧ st.chainsync.isNew = false ∧ st.chainsync.isIdle = true

instance (st : InitiatorState) : Decidable st.AsksNext := inferInstanceAs (Decidable (_ ∧ _ ∧ _))

namespace ChainSyncBehavior

theorem visitTagged_nexts_le (b : ChainSyncBehavior) :
    nextsIn (b.visitTagged pid st []).2 pid + (b.visitTagged pid st []).1.syncNextDeferred.toNat ≤
      st.syncNextDeferred.toNat + 1 := by
  unfold visitTagged
  split
  · simp
  · split
    · simp
    · split
      · rcases st.trySendRequest_cases pid (.chainSync .requestNext) [] with h | ⟨unsent, -, -, h⟩
        · simp [h, InitiatorState.deferSyncNext]
        · simp [h, nextsIn, Nat.add_comm]
      · simp

theorem visitTagged_of_not_asksNext (b : ChainSyncBehavior) (h : ¬ st.AsksNext) :
    b.visitTagged pid st [] = (st, []) := by
  unfold visitTagged
  split
  · rfl
  · next hnew =>
    split
    · rfl
    · next hidle =>
      split
      · next hc =>
        refine absurd ⟨hc, ?_, ?_⟩ h
        · simpa [peerIsSyncing] using hnew
        · simpa using hidle
      · rfl

end ChainSyncBehavior

namespace InitiatorBehavior
variable {s t : InitiatorBehavior} {input : Input}

/-! ### The ledger -/

/-- For each peer, since it was last connected to: the requests sent, and the grants given. -/
structure SyncLedger where
  nexts : PeerId → ℕ
  grants : PeerId → ℕ

def SyncLedger.keep (g : SyncLedger) (x : Transition InitiatorBehavior Input) : SyncLedger where
  nexts pid := (if x.input = .io (.connected pid) then 0 else g.nexts pid) + nextsIn x.target.outbound pid
  grants pid := (if x.input = .io (.connected pid) then 0 else g.grants pid) +
    if x.input = .command (.continueSync pid) then 1 else 0

def syncLedger (tr : List (Transition InitiatorBehavior Input)) :
    SyncLedger := tr.foldl SyncLedger.keep ⟨fun _ => 0, fun _ => 0⟩

/-- Whether a request is deferred for the peer, as a number. -/
def deferredOf (s : InitiatorBehavior) (pid : PeerId) : ℕ :=
  ((s.peers.lookup pid).elim false (·.syncNextDeferred)).toNat

/-- A ban or a demotion is of a peer that the tag visitor does not ask for a header; a peer that is connected to has
nothing deferred. -/
def KeepsGrants (s : InitiatorBehavior) : Input → Prop
  | .io (.connected pid) => s.deferredOf pid = 0
  | .command (.banPeer pid) => ∀ st ∈ s.peers.lookup pid, ¬ st.AsksNext
  | .command (.demotePeer pid) => ∀ st ∈ s.peers.lookup pid, ¬ st.AsksNext
  | _ => True

instance KeepsGrants.decidable (s : InitiatorBehavior) : ∀ input, Decidable (s.KeepsGrants input)
  | .io (.connected _) => inferInstanceAs (Decidable (_ = 0))
  | .command (.banPeer _) => inferInstanceAs (Decidable (∀ st ∈ _, _))
  | .command (.demotePeer _) => inferInstanceAs (Decidable (∀ st ∈ _, _))
  | .io (.disconnected _) | .io (.sent ..) | .io (.recv ..) | .io (.error ..) | .io .idle | .command (.includePeer _)
  | .command .housekeeping | .command (.startSync _) | .command (.continueSync _) | .command (.requestBlocks _)
  | .command (.sendTx ..) | .command (.fetchEb ..) | .command (.fetchEbTxs ..) => inferInstanceAs (Decidable True)

theorem peerStep_nexts_le {table : Handshake.VersionTable} (h : PeerStep table pid st input outs st')
    (hl : s.peers.lookup pid = some st) (hK : s.KeepsGrants input) :
    (if input = .io (.connected pid) then nextsIn outs pid + st'.syncNextDeferred.toNat = 0
      else nextsIn outs pid + st'.syncNextDeferred.toNat ≤
        st.syncNextDeferred.toNat + if input = .command (.continueSync pid) then 1 else 0) := by
  cases h with
  | connected _ =>
    have hd : st.syncNextDeferred.toNat = 0 := by simpa [KeepsGrants, deferredOf, hl] using hK
    simp [nextsIn, hd]
  | disconnected => simp [InitiatorState.reset, InitiatorState.new]
  | sent hmoves =>
    have hle := hmoves.nexts_le
    rw [InitiatorState.applyMsg_syncNextDeferred, InitiatorState.clearUnsent_syncNextDeferred] at hle
    simpa using hle
  | recv hreceives => simpa using hreceives.nexts_le
  | error hmoves => simpa using hmoves.nexts_le
  | included _ => simp [InitiatorState.new]
  | tagged htag =>
    rcases Input.tagger_eq_some htag with ⟨rfl, rfl⟩ | ⟨rfl, rfl⟩ | ⟨rfl, rfl⟩
    · rw [if_neg (by simp), if_pos rfl]
      exact ChainSyncBehavior.visitTagged_nexts_le _
    · have hasks : ¬ InitiatorState.AsksNext { st with promotion := .banned } := hK st hl
      rw [ChainSyncBehavior.visitTagged_of_not_asksNext _ hasks]
      simp
    · have hasks : ¬ InitiatorState.AsksNext { st with promotion := .cold } := hK st hl
      rw [ChainSyncBehavior.visitTagged_of_not_asksNext _ hasks]
      simp
  | other ha hmoves =>
    rw [if_neg (by rintro rfl; exact ha rfl), if_neg (by rintro rfl; exact ha rfl)]
    exact hmoves.nexts_le

/-- What is sent and what is deferred has been granted. -/
def Granted (g : SyncLedger) (s : InitiatorBehavior) : Prop := ∀ pid, g.nexts pid + s.deferredOf pid ≤ g.grants pid

theorem Step.granted {g : SyncLedger} (h : s.Step input t) (hg : Granted g s) (hK : s.KeepsGrants input) :
    Granted (g.keep ⟨s, input, t⟩) t := by
  intro pid
  have hpid := hg pid
  obtain ⟨-, hnone, hsome⟩ := h.onePeer pid
  simp only [SyncLedger.keep]
  rw [← nextsIn_about]
  cases hl : s.peers.lookup pid with
  | none =>
    obtain ⟨hout, hl'⟩ := hnone hl
    have hd : t.deferredOf pid = 0 := by
      rcases hl' with hl' | ⟨-, hl'⟩
      · simp [deferredOf, hl']
      · simp [deferredOf, hl', InitiatorState.new]
    rw [hout, hd]
    split <;> simp
    split <;> omega
  | some st =>
    obtain ⟨st', hl', hstep⟩ := hsome st hl
    have hle := peerStep_nexts_le hstep hl hK
    have hd : s.deferredOf pid = st.syncNextDeferred.toNat := by simp [deferredOf, hl]
    have hd' : t.deferredOf pid = st'.syncNextDeferred.toNat := by simp [deferredOf, hl']
    rw [hd']
    rw [hd] at hpid
    split at hle
    · next hc =>
      rw [if_pos hc, if_pos hc]
      omega
    · next hc =>
      rw [if_neg hc, if_neg hc]
      omega

theorem run_granted {tr : List (Transition InitiatorBehavior Input)} (h : Run Init Step tr s)
    (hK : ∀ x ∈ tr, x.source.KeepsGrants x.input) : Granted (syncLedger tr) s := by
  refine Run.monitored (M := ⟨SyncLedger.keep, fun _ _ => True⟩) (R := Granted)
    (K := fun x => x.source.KeepsGrants x.input) (fun s hs pid => ?_)
    (fun g s i t hg _ hK hstep => hstep.granted hg hK) h (Monitor.accepts_of_forall _ (fun _ _ => trivial) _ _) hK
  obtain ⟨config, handshake, rfl⟩ := hs
  exact Nat.le_refl 0

/-- As long as no peer that the tag visitor would ask is banned or demoted, and none is connected to with a request
deferred, no peer is ever sent more requests for a header on a connection than there were grants for it. -/
theorem nexts_le_grants {tr : List (Transition InitiatorBehavior Input)} (h : Run Init Step tr s)
    (hK : ∀ x ∈ tr, x.source.KeepsGrants x.input) :
    ∀ pre post, tr = pre ++ post → ∀ pid, (syncLedger pre).nexts pid ≤ (syncLedger pre).grants pid := by
  rintro pre post rfl pid
  obtain ⟨u, hpre⟩ := h.exists_of_append
  have hgranted := run_granted hpre (fun x hx => hK x (by simp [hx])) pid
  omega

/-- A peer is included, connected to, promoted to hot, and has found the origin as intersection; then one header is asked
for by `ContinueSync` and comes. -/
def syncing (pid : PeerId) : List (Iteration × Input) :=
  let iter : Iteration := ⟨[pid], []⟩
  [(⟨[], []⟩, .command (.includePeer pid)), (iter, .command (.startSync [.origin])), (iter, .io .idle),
    (iter, .io (.connected pid)),
      (iter, .io (.sent pid (.handshake (.propose HandshakeBehavior.default.supportedVersion)))),
    (iter, .io (.recv pid [.handshake (.accept 13 ⟨764824073, false, none, none⟩)])), (iter, .io .idle),
      (iter, .io .idle),
    (iter, .io (.sent pid (.chainSync (.findIntersect [.origin])))),
    (iter, .io (.recv pid [.chainSync (.intersectFound .origin ⟨.origin, 0⟩)])), (iter, .command (.continueSync pid)),
    (iter, .io (.sent pid (.chainSync .requestNext))),
    (iter, .io (.recv pid [.chainSync (.rollForward ⟨1, none, [190]⟩ ⟨.origin, 0⟩)]))]

/-- One grant, and one request. -/
theorem nexts_le_grants_one : ∃ tr s, Run Init Step tr s ∧ (syncLedger tr).nexts ⟨"a", 1⟩ = 1 ∧
    (syncLedger tr).nexts ⟨"a", 1⟩ ≤ (syncLedger tr).grants ⟨"a", 1⟩ := by
  have hplays : (new .default .default).plays (syncing ⟨"a", 1⟩)
      (fun tr _ => (syncLedger tr).nexts ⟨"a", 1⟩ = 1 ∧ ∀ x ∈ tr, x.source.KeepsGrants x.input) = true := by decide
  obtain ⟨tr, s, hrun, htest⟩ := exists_run_of_plays ⟨_, _, rfl⟩ hplays
  obtain ⟨hone, hkeeps⟩ := of_decide_eq_true htest
  exact ⟨tr, s, hrun, hone, nexts_le_grants hrun hkeeps tr [] (List.append_nil tr).symm ⟨"a", 1⟩⟩

/-- Banning a peer asks it for one more header. -/
theorem nexts_exceed_grants : ¬ ∀ tr s, Run Init Step tr s →
    ∀ pid, (syncLedger tr).nexts pid ≤ (syncLedger tr).grants pid := by
  intro h
  have hplays : (new .default .default).plays
      (syncing ⟨"a", 1⟩ ++ [(⟨[⟨"a", 1⟩], []⟩, .command (.banPeer ⟨"a", 1⟩))])
      (fun tr _ => (syncLedger tr).grants ⟨"a", 1⟩ < (syncLedger tr).nexts ⟨"a", 1⟩) = true := by decide
  obtain ⟨tr, s, hrun, htest⟩ := exists_run_of_plays ⟨_, _, rfl⟩ hplays
  exact absurd (h tr s hrun ⟨"a", 1⟩) (Nat.not_le.2 (of_decide_eq_true htest))

end InitiatorBehavior
end Pallas.Network2
