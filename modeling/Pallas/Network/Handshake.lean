import Pallas.Lib.Agents
import Pallas.Lib.Entries
import Pallas.Network2.Protocols

/-!
# Handshake (`pallas-network/src/miniprotocols/handshake`)

`Client`, `Server`, and the `handshake` of each: the client proposes its versions and waits for the answer, the server
looks for the highest version that both have. `Exchange` runs the two against each other, in any order in which their
operations can go.

Version tables are hash maps; they are kept here in the order of their keys. The server goes through them in the order of an
iteration, which may be any.
-/

namespace Pallas.Network.Handshake
open Turns

abbrev VersionTable (D : Type) := Network2.Handshake.VersionTable D
abbrev RefuseReason := Network2.Handshake.RefuseReason
abbrev Message (D : Type) := Network2.Handshake.Message D

inductive Error where
  | agencyIsOurs
  | agencyIsTheirs
  | invalidInbound
  | invalidOutbound
  deriving DecidableEq

inductive State where
  | propose
  | confirm
  | done
  deriving DecidableEq

/-- The answer to a query has no place in the states: the client goes on waiting. -/
def protocol (D : Type) : Protocol State (Message D) where
  turn
    | .propose => some .client
    | .confirm => some .server
    | .done => none
  move
    | .propose, .propose _ => some .confirm
    | .confirm, .accept .. => some .done
    | .confirm, .refuse _ => some .done
    | .confirm, .queryReply _ => some .confirm
    | _, _ => none

variable {D : Type}

/-! ### The client (`client.rs`) -/

inductive Confirmation (D : Type) where
  | accepted (version : UInt64) (data : D)
  | rejected (reason : RefuseReason)
  | queryReply (table : VersionTable D)
  deriving DecidableEq

namespace Client

def hasAgency : State → Bool
  | .propose => true
  | .confirm => false
  | .done => false

def assertOutboundState : State → Message D → Except Error Unit
  | .propose, .propose _ => .ok ()
  | _, _ => .error .invalidOutbound

def assertInboundState : State → Message D → Except Error Unit
  | .confirm, .accept .. => .ok ()
  | .confirm, .refuse _ => .ok ()
  | .confirm, .queryReply _ => .ok ()
  | _, _ => .error .invalidInbound

def agent : Agent State (Message D) Error :=
  ⟨hasAgency, assertOutboundState, assertInboundState, .agencyIsOurs, .agencyIsTheirs, .invalidInbound⟩

def sendPropose (versions : VersionTable D) : Operation State (Message D) Error Unit :=
  .send (.propose versions) (some .confirm) ()

/-- The answer to a query does not set the state. -/
def recvWhileConfirm : Operation State (Message D) Error (Confirmation D) := .receive fun
  | .accept v m => some (some .done, .ok (.accepted v m))
  | .refuse r => some (some .done, .ok (.rejected r))
  | .queryReply versionTable => some (none, .ok (.queryReply versionTable))
  | _ => none

end Client

inductive ClientCall (D : Type) where
  | sendPropose (versions : VersionTable D)
  | recvWhileConfirm

def ClientCall.operation : ClientCall D → Operation State (Message D) Error Unit
  | sendPropose versions => Client.sendPropose versions
  | recvWhileConfirm => Client.recvWhileConfirm.void

/-! ### The server (`server.rs`) -/

namespace Server

def hasAgency (s : State) : Bool := s = .confirm

def assertOutboundState : State → Message D → Except Error Unit
  | .confirm, .accept .. => .ok ()
  | .confirm, .refuse _ => .ok ()
  | _, _ => .error .invalidOutbound

def assertInboundState : State → Message D → Except Error Unit
  | .propose, .propose _ => .ok ()
  | _, _ => .error .invalidInbound

/-- `receive_proposed_versions` calls a message that it has no arm for an outbound one. -/
def agent : Agent State (Message D) Error :=
  ⟨hasAgency, assertOutboundState, assertInboundState, .agencyIsOurs, .agencyIsTheirs, .invalidOutbound⟩

def receiveProposedVersions : Operation State (Message D) Error (VersionTable D) := .receive fun
  | .propose v => some (some .confirm, .ok v)
  | _ => none

def acceptVersion (version : UInt64) (extraParams : D) : Operation State (Message D) Error Unit :=
  .send (.accept version extraParams) (some .done) ()

def refuse (reason : RefuseReason) : Operation State (Message D) Error Unit := .send (.refuse reason) (some .done) ()

end Server

inductive ServerCall (D : Type) where
  | receiveProposedVersions
  | acceptVersion (version : UInt64) (extraParams : D)
  | refuse (reason : RefuseReason)

def ServerCall.operation : ServerCall D → Operation State (Message D) Error Unit
  | receiveProposedVersions => Server.receiveProposedVersions.void
  | acceptVersion version extraParams => Server.acceptVersion version extraParams
  | refuse reason => Server.refuse reason

/-- What `handshake` does once the versions of the client are there. -/
inductive Reply (D : Type) where
  | accept (version : UInt64) (data : D)
  | refuse (reason : RefuseReason)
  deriving DecidableEq

namespace Reply

def operation : Reply D → Operation State (Message D) Error Unit
  | accept version data => Server.acceptVersion version data
  | refuse reason => Server.refuse reason

/-- What `handshake` returns after it. -/
def result : Reply D → Option (UInt64 × D)
  | accept version data => some (version, data)
  | refuse _ => none

def message : Reply D → Message D
  | accept version data => .accept version data
  | refuse reason => .refuse reason

/-- What the client makes of it. -/
def confirmation : Reply D → Confirmation D
  | accept version data => .accepted version data
  | refuse reason => .rejected reason

end Reply

section answer
variable [DecidableEq D]

/-- The inner loop of `handshake`. -/
def answerTo (verNum : UInt64) (verData : D) : List (UInt64 × D) → Option (Reply D)
  | [] => none
  | (clientVerNum, clientVerData) :: clientVersions =>
    if verNum = clientVerNum then
      if verData = clientVerData then some (.accept verNum verData)
      else some (.refuse (.refused verNum "Proposed extra params don't match"))
    else answerTo verNum verData clientVersions

/-- The outer loop. -/
def firstAnswer (clientVersions : List (UInt64 × D)) : List (UInt64 × D) → Option (Reply D)
  | [] => none
  | (verNum, verData) :: versions => (answerTo verNum verData clientVersions).or (firstAnswer clientVersions versions)

/-- What the server answers, for the two tables in the orders of their iteration. -/
def answer (versions clientVersions : List (UInt64 × D)) : Reply D :=
  let versions := versions.mergeSort fun v w => w.1 ≤ v.1
  (firstAnswer clientVersions versions).getD (.refuse (.versionMismatch (versions.map (·.1))))

example : firstAnswer [(9, 3), (11, 2), (7, 1)] [(10, 2), (9, 3), (7, 1)] = some (.accept 9 3) := by decide

end answer

/-! ### Both -/

def pair (D : Type) : Pair State (Message D) Error Error (ClientCall D) (ServerCall D) :=
  ⟨Client.agent, Server.agent, ClientCall.operation, ServerCall.operation⟩

theorem Client.follows : Client.agent.Follows (protocol D) .client where
  theirs s h := by cases s <;> first | rfl | cases h
  ours s h := by cases s <;> first | rfl | cases h
  outbound s m hs h := by cases s <;> first | rfl | cases hs
  inbound s m := by cases s <;> cases m <;> simp [agent, assertInboundState, protocol, Side.other]

theorem Server.follows : Server.agent.Follows (protocol D) .server where
  theirs s h := by cases s <;> first | rfl | cases h
  ours s h := by cases s <;> first | rfl | cases h
  outbound s m hs h := by cases s <;> first | rfl | cases hs
  inbound s m := by cases s <;> cases m <;> simp [agent, assertInboundState, protocol, Side.other]

theorem ClientCall.follows (op : ClientCall D) : op.operation.Follows (protocol D) Client.agent := by
  cases op with
  | sendPropose =>
    intro s _ hout
    cases s <;> first | rfl | cases hout
  | recvWhileConfirm =>
    intro s msg next result _ hin harms
    cases s <;> cases msg <;> first | (cases hin; done) | (cases harms; done) | (cases harms; rfl)

theorem ServerCall.follows (op : ServerCall D) : op.operation.Follows (protocol D) Server.agent := by
  cases op with
  | acceptVersion | refuse =>
    intro s _ hout
    cases s <;> first | rfl | cases hout
  | receiveProposedVersions =>
    intro s msg next result _ hin harms
    cases s <;> cases msg <;> first | (cases hin; done) | (cases harms; done) | (cases harms; rfl)

theorem pair_follows : (pair D).Follows (protocol D) :=
  ⟨Client.follows, Server.follows, ClientCall.follows, ServerCall.follows⟩

/-! ### What the server answers -/

section spec
variable [DecidableEq D] {verNum : UInt64} {verData clientVerData : D} {clientVersions versions : List (UInt64 × D)}

/-- The version is the highest of those that both tables have. -/
def Highest (clientVersions versions : List (UInt64 × D)) (version : UInt64) : Prop :=
  IsGreatest {v | v ∈ clientVersions.map Prod.fst ∧ v ∈ versions.map Prod.fst} version

/-- How the handshake is decided, for tables in the order of their keys. The highest common version is accepted if both
sides give the same data for it, and refused if not, also where a lower one would do. -/
inductive Decides (clientVersions versions : List (UInt64 × D)) : Reply D → Prop where
  | accept {version : UInt64} {data : D} : Highest clientVersions versions version → (version, data) ∈ clientVersions →
      (version, data) ∈ versions → Decides clientVersions versions (.accept version data)
  | refused {version : UInt64} {clientData data : D} : Highest clientVersions versions version →
      (version, clientData) ∈ clientVersions → (version, data) ∈ versions → data ≠ clientData →
      Decides clientVersions versions (.refuse (.refused version "Proposed extra params don't match"))
  | versionMismatch : (∀ v ∈ clientVersions.map Prod.fst, v ∉ versions.map Prod.fst) →
      Decides clientVersions versions (.refuse (.versionMismatch (versions.map Prod.fst).reverse))

theorem answerTo_eq_none : answerTo verNum verData clientVersions = none ↔ verNum ∉ clientVersions.map Prod.fst := by
  induction clientVersions with
  | nil => simp [answerTo]
  | cons entry rest ih =>
    obtain ⟨clientVerNum, clientVerData⟩ := entry
    rw [answerTo]
    split_ifs with hnum hdata <;> simp [hnum, ih]

theorem answerTo_eq_some {reply : Reply D} (h : answerTo verNum verData clientVersions = some reply) :
    ∃ clientVerData, (verNum, clientVerData) ∈ clientVersions ∧
      reply = if verData = clientVerData then .accept verNum verData
        else .refuse (.refused verNum "Proposed extra params don't match") := by
  induction clientVersions with
  | nil => cases h
  | cons entry rest ih =>
    obtain ⟨clientVerNum, clientVerData⟩ := entry
    rw [answerTo] at h
    by_cases hnum : verNum = clientVerNum
    · subst hnum
      rw [if_pos rfl] at h
      refine ⟨clientVerData, List.mem_cons_self, ?_⟩
      split_ifs at h ⊢
      · exact (Option.some.inj h).symm
      · exact (Option.some.inj h).symm
    · rw [if_neg hnum] at h
      obtain ⟨data, hmem, hreply⟩ := ih h
      exact ⟨data, List.mem_cons_of_mem _ hmem, hreply⟩

theorem firstAnswer_eq_none : firstAnswer clientVersions versions = none ↔
    ∀ v ∈ clientVersions.map Prod.fst, v ∉ versions.map Prod.fst := by
  induction versions with
  | nil => simp [firstAnswer]
  | cons entry rest ih =>
    obtain ⟨verNum, verData⟩ := entry
    rw [firstAnswer, Option.or_eq_none_iff, answerTo_eq_none, ih]
    constructor
    · rintro ⟨hfirst, hrest⟩ v hv hmem
      rcases List.mem_cons.1 hmem with rfl | hmem
      · exact hfirst hv
      · exact hrest v hv hmem
    · intro h
      exact ⟨fun hv => h verNum hv List.mem_cons_self, fun v hv hmem => h v hv (List.mem_cons_of_mem _ hmem)⟩

theorem firstAnswer_eq_some {reply : Reply D} (hdesc : versions.Pairwise fun v w => w.1 < v.1)
    (h : firstAnswer clientVersions versions = some reply) : ∃ version data,
      Highest clientVersions versions version ∧ (version, data) ∈ versions ∧
        answerTo version data clientVersions = some reply := by
  induction versions with
  | nil => cases h
  | cons entry rest ih =>
    obtain ⟨verNum, verData⟩ := entry
    obtain ⟨hbelow, hrest⟩ := List.pairwise_cons.1 hdesc
    rw [firstAnswer] at h
    cases hfirst : answerTo verNum verData clientVersions with
    | some found =>
      rw [hfirst, Option.some_or] at h
      refine ⟨verNum, verData, ⟨⟨?_, List.mem_cons_self⟩, ?_⟩, List.mem_cons_self, h ▸ hfirst⟩
      · by_contra hnot
        cases (answerTo_eq_none.2 hnot).symm.trans hfirst
      · rintro v ⟨-, hv⟩
        obtain ⟨other, hmem, rfl⟩ := List.mem_map.1 hv
        rcases List.mem_cons.1 hmem with rfl | hmem
        · exact UInt64.le_refl _
        · exact UInt64.le_of_lt (hbelow other hmem)
    | none =>
      rw [hfirst, Option.none_or] at h
      obtain ⟨version, data, ⟨⟨hclient, hmem⟩, hgreatest⟩, hentry, hanswer⟩ := ih hrest h
      refine ⟨version, data, ⟨⟨hclient, List.mem_cons_of_mem _ hmem⟩, ?_⟩, List.mem_cons_of_mem _ hentry, hanswer⟩
      rintro v ⟨hv, hv'⟩
      rcases List.mem_cons.1 hv' with rfl | hv'
      · exact absurd hv (answerTo_eq_none.1 hfirst)
      · exact hgreatest ⟨hv, hv'⟩

omit [DecidableEq D] in
theorem mergeSort_of_perm {table : List (UInt64 × D)} (hsorted : Entries.Sorted table) (hperm : versions.Perm table) :
    (versions.mergeSort fun v w => w.1 ≤ v.1) = table.reverse := by
  have hdesc : (versions.mergeSort fun v w => w.1 ≤ v.1).Pairwise fun v w => decide (w.1 ≤ v.1) = true := by
    refine List.pairwise_mergeSort (fun a b c hab hbc => ?_) (fun a b => ?_) _
    · exact decide_eq_true (UInt64.le_trans (of_decide_eq_true hbc) (of_decide_eq_true hab))
    · rw [← Bool.decide_or, decide_eq_true_iff]
      exact UInt64.le_total _ _
  have hrev : table.reverse.Pairwise fun v w => decide (w.1 ≤ v.1) = true := by
    rw [List.pairwise_reverse]
    exact hsorted.imp fun hlt => decide_eq_true (UInt64.le_of_lt hlt)
  have hsame : (versions.mergeSort fun v w => w.1 ≤ v.1).Perm table.reverse :=
    (List.mergeSort_perm _ _).trans (hperm.trans (List.reverse_perm table).symm)
  refine hsame.eq_of_pairwise (fun a b ha hb hab hba => ?_) hdesc hrev
  -- keys are distinct, so entries with one key are the same
  have hkey : a.1 = b.1 := UInt64.le_antisymm (of_decide_eq_true hba) (of_decide_eq_true hab)
  have hmem : a ∈ table := List.mem_reverse.1 (hsame.mem_iff.1 ha)
  exact List.inj_on_of_nodup_map hsorted.nodup_keys hmem (List.mem_reverse.1 hb) hkey

theorem decides_answer {clientTable table : List (UInt64 × D)} (hsorted : Entries.Sorted table)
    (hperm : versions.Perm table) (hclient : clientVersions.Perm clientTable) :
    Decides clientTable table (answer versions clientVersions) := by
  have hkeys : ∀ v, v ∈ clientVersions.map Prod.fst ↔ v ∈ clientTable.map Prod.fst := fun v =>
    (hclient.map Prod.fst).mem_iff
  have hhighest : ∀ version, Highest clientVersions table.reverse version → Highest clientTable table version := by
    rintro version ⟨⟨hv, hv'⟩, hgreatest⟩
    rw [List.map_reverse, List.mem_reverse] at hv'
    refine ⟨⟨(hkeys version).1 hv, hv'⟩, ?_⟩
    rintro w ⟨hw, hw'⟩
    exact hgreatest ⟨(hkeys w).2 hw, by rwa [List.map_reverse, List.mem_reverse]⟩
  simp only [answer, mergeSort_of_perm hsorted hperm]
  cases hanswer : firstAnswer clientVersions table.reverse with
  | none =>
    rw [Option.getD_none, List.map_reverse]
    refine .versionMismatch fun v hv hmem => ?_
    exact firstAnswer_eq_none.1 hanswer v ((hkeys v).2 hv) (by rwa [List.map_reverse, List.mem_reverse])
  | some reply =>
    rw [Option.getD_some]
    have hdesc : table.reverse.Pairwise fun v w => w.1 < v.1 := by
      rw [List.pairwise_reverse]
      exact hsorted
    obtain ⟨version, data, hv, hmem, hreply⟩ := firstAnswer_eq_some hdesc hanswer
    obtain ⟨clientData, hclientMem, rfl⟩ := answerTo_eq_some hreply
    rw [List.mem_reverse] at hmem
    rw [hclient.mem_iff] at hclientMem
    split_ifs with hdata
    · exact .accept (hhighest version hv) (hdata ▸ hclientMem) hmem
    · exact .refused (hhighest version hv) hclientMem hmem hdata

end spec

/-! ### `handshake` against `handshake` -/

/-- How far the `handshake` of the client has come. -/
inductive ClientStage (D : Type) where
  | start
  | proposed
  | finished (result : Except Error (Confirmation D))

/-- How far the `handshake` of the server has come. -/
inductive ServerStage (D : Type) where
  | start
  | answering (reply : Reply D)
  | finished (result : Except Error (Option (UInt64 × D)))

structure Exchange (D : Type) where
  system : System State (Message D)
  client : ClientStage D
  server : ServerStage D

namespace Exchange
variable [DecidableEq D]

def start : Exchange D := ⟨⟨.propose, .propose, [], []⟩, .start, .start⟩

/-- Either side goes on with its next operation, as soon as that does not wait. -/
inductive Step (clientVersions versions : VersionTable D) (x : Exchange D) : Side → Exchange D → Prop where
  | propose {e : Effect State (Message D) Error Unit} : x.client = .start →
      (Client.sendPropose clientVersions).run Client.agent x.system.client x.system.toClient = some e →
      Step clientVersions versions x .client { x with
        system := x.system.after .client e
        client := match e.result with
          | .ok () => .proposed
          | .error err => .finished (.error err) }
  | confirm {e : Effect State (Message D) Error (Confirmation D)} : x.client = .proposed →
      Client.recvWhileConfirm.run Client.agent x.system.client x.system.toClient = some e →
      Step clientVersions versions x .client { x with
        system := x.system.after .client e
        client := .finished e.result }
  | receiveFails {e : Effect State (Message D) Error (VersionTable D)} {err : Error} : x.server = .start →
      Server.receiveProposedVersions.run Server.agent x.system.server x.system.toServer = some e →
      e.result = .error err →
      Step clientVersions versions x .server { x with
        system := x.system.after .server e
        server := .finished (.error err) }
  | receive {e : Effect State (Message D) Error (VersionTable D)} {proposed : VersionTable D}
      {theirs ours : List (UInt64 × D)} : x.server = .start →
      Server.receiveProposedVersions.run Server.agent x.system.server x.system.toServer = some e →
      e.result = .ok proposed → theirs.Perm proposed.values → ours.Perm versions.values →
      Step clientVersions versions x .server { x with
        system := x.system.after .server e
        server := .answering (answer ours theirs) }
  | answer {e : Effect State (Message D) Error Unit} {reply : Reply D} : x.server = .answering reply →
      reply.operation.run Server.agent x.system.server x.system.toServer = some e →
      Step clientVersions versions x .server { x with
        system := x.system.after .server e
        server := .finished (e.result.map fun _ => reply.result) }

def Runs (clientVersions versions : VersionTable D) : List (Transition (Exchange D) Side) → Exchange D → Prop :=
  Run (· = start) (Step clientVersions versions)

/-- The exchange has come through this many steps. -/
inductive Phase (clientVersions versions : VersionTable D) : ℕ → Exchange D → Prop where
  | start : Phase clientVersions versions 0 start
  | proposed : Phase clientVersions versions 1
      ⟨⟨.confirm, .propose, [], [.propose clientVersions]⟩, .proposed, .start⟩
  | received {reply : Reply D} : Decides clientVersions.values versions.values reply →
      Phase clientVersions versions 2 ⟨⟨.confirm, .confirm, [], []⟩, .proposed, .answering reply⟩
  | answered {reply : Reply D} : Decides clientVersions.values versions.values reply →
      Phase clientVersions versions 3
        ⟨⟨.confirm, .done, [reply.message], []⟩, .proposed, .finished (.ok reply.result)⟩
  | confirmed {reply : Reply D} : Decides clientVersions.values versions.values reply →
      Phase clientVersions versions 4
        ⟨⟨.done, .done, [], []⟩, .finished (.ok reply.confirmation), .finished (.ok reply.result)⟩

variable {clientVersions versions : VersionTable D} {x y : Exchange D} {side : Side} {n : ℕ}

theorem Phase.step (hsorted : Entries.Sorted versions.values) (h : Phase clientVersions versions n x)
    (hstep : Step clientVersions versions x side y) : Phase clientVersions versions (n + 1) y := by
  cases h with
  | start =>
    cases hstep with
    | propose _ hrun =>
      cases hrun
      exact .proposed
    | confirm hstage => cases hstage
    | receiveFails _ hrun => cases hrun
    | receive _ hrun => cases hrun
    | answer hstage => cases hstage
  | proposed =>
    cases hstep with
    | propose hstage => cases hstage
    | confirm _ hrun => cases hrun
    | receiveFails _ hrun hresult =>
      cases hrun
      cases hresult
    | receive _ hrun hresult htheirs hours =>
      cases hrun
      cases hresult
      exact .received (decides_answer hsorted hours htheirs)
    | answer hstage => cases hstage
  | @received reply hdecides =>
    cases hstep with
    | propose hstage => cases hstage
    | confirm _ hrun => cases hrun
    | receiveFails hstage => cases hstage
    | receive hstage => cases hstage
    | answer hstage hrun =>
      cases hstage
      cases reply with
      | accept =>
        cases hrun
        exact .answered hdecides
      | refuse =>
        cases hrun
        exact .answered hdecides
  | @answered reply hdecides =>
    cases hstep with
    | propose hstage => cases hstage
    | confirm _ hrun =>
      cases reply with
      | accept =>
        cases hrun
        exact .confirmed hdecides
      | refuse =>
        cases hrun
        exact .confirmed hdecides
    | receiveFails hstage => cases hstage
    | receive hstage => cases hstage
    | answer hstage => cases hstage
  | confirmed _ =>
    cases hstep with
    | propose hstage => cases hstage
    | confirm hstage => cases hstage
    | receiveFails hstage => cases hstage
    | receive hstage => cases hstage
    | answer hstage => cases hstage

theorem Phase.exists_step (h : Phase clientVersions versions n x) (hn : n < 4) :
    ∃ side y, Step clientVersions versions x side y := by
  cases h with
  | start => exact ⟨_, _, .propose rfl rfl⟩
  | proposed => exact ⟨_, _, .receive rfl rfl rfl (.refl _) (.refl _)⟩
  | @received reply _ =>
    cases reply with
    | accept => exact ⟨_, _, .answer rfl rfl⟩
    | refuse => exact ⟨_, _, .answer rfl rfl⟩
  | @answered reply _ =>
    cases reply with
    | accept => exact ⟨_, _, .confirm rfl rfl⟩
    | refuse => exact ⟨_, _, .confirm rfl rfl⟩
  | confirmed _ => omega

theorem Runs.phase {tr : List (Transition (Exchange D) Side)} (hsorted : Entries.Sorted versions.values)
    (h : Runs clientVersions versions tr x) : Phase clientVersions versions tr.length x := by
  induction h with
  | start hs =>
    rw [hs]
    exact .start
  | next _ hstep ih =>
    rw [List.length_append, List.length_singleton]
    exact ih.step hsorted hstep

end Exchange

/-- The two `handshake`s, in any order of their operations and of the entries of their tables, go on until both have
returned, and then they have returned the same decision, are both done, and nothing is under way. -/
theorem handshake_agrees [DecidableEq D] {clientVersions versions : VersionTable D} {x : Exchange D}
    {tr : List (Transition (Exchange D) Side)} (hsorted : Entries.Sorted versions.values)
    (h : Exchange.Runs clientVersions versions tr x) :
    tr.length ≤ 4 ∧ (tr.length < 4 → ∃ side y, Exchange.Step clientVersions versions x side y) ∧
    (tr.length = 4 → ∃ reply, Decides clientVersions.values versions.values reply ∧
      x = ⟨⟨.done, .done, [], []⟩, .finished (.ok reply.confirmation), .finished (.ok reply.result)⟩) := by
  have hphase := h.phase hsorted
  refine ⟨?_, hphase.exists_step, fun hlast => ?_⟩
  · generalize tr.length = n at hphase
    cases hphase <;> omega
  · rw [hlast] at hphase
    cases hphase with
    | confirmed hdecides => exact ⟨_, hdecides, rfl⟩

/-- Two tables with one version in common. -/
theorem handshake_agrees_nine : ∃ (tr : List (Transition (Exchange ℕ) Side)) (x : Exchange ℕ),
    Exchange.Runs ⟨[(7, 1), (9, 2)]⟩ ⟨[(8, 3), (9, 2)]⟩ tr x ∧ tr.length = 4 ∧
    ∃ reply, Decides [(7, 1), (9, 2)] [(8, 3), (9, 2)] reply ∧
      x = ⟨⟨.done, .done, [], []⟩, .finished (.ok reply.confirmation), .finished (.ok reply.result)⟩ := by
  have hsorted : Entries.Sorted [((8 : UInt64), 3), (9, 2)] := by decide
  have hanswer : answer [((8 : UInt64), 3), (9, 2)] [(7, 1), (9, 2)] = .accept 9 2 := by
    rw [answer, mergeSort_of_perm hsorted (.refl _)]
    rfl
  have hstart : Exchange.Runs ⟨[((7 : UInt64), 1), (9, 2)]⟩ ⟨[(8, 3), (9, 2)]⟩ [] .start := .start rfl
  have hproposed := hstart.next (Exchange.Step.propose rfl rfl)
  have hreceived := hproposed.next (Exchange.Step.receive rfl rfl rfl (.refl _) (.refl _))
  rw [hanswer] at hreceived
  have hconfirmed := (hreceived.next (Exchange.Step.answer rfl rfl)).next (Exchange.Step.confirm rfl rfl)
  exact ⟨_, _, hconfirmed, rfl, (handshake_agrees hsorted hconfirmed).2.2 rfl⟩

end Pallas.Network.Handshake
