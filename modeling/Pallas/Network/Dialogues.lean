import Pallas.Lib.Dialogues
import Pallas.Network.Blockfetch

/-!
# Fetching blocks and following a chain (`pallas-network/src/miniprotocols/{blockfetch,chainsync}`)

The functions of the two clients that a program calls are made of several operations, and so are those that answer them. A
client makes calls on a connection, one after the other, and the server serves that connection; the steps of the two come in
any order. Whatever the order, every call returns, and returns what the server has for it (`fetch_settles`,
`follow_settles`).
-/

namespace Pallas.Network
open Turns Dialogue

/-! ### Block fetch -/

namespace Blockfetch

inductive FetchCall where
  | fetchRange (range : Point × Point)
  | fetchSingle (point : Point)
  | sendDone
  deriving DecidableEq

inductive Fetched where
  | range (bodies : List Bytes)
  | single (body : Bytes)
  | done
  deriving DecidableEq

namespace Client

/-- Where the functions wait. Each begins with `request_range`, which is the first two points. -/
inductive Await where
  | rangeRequest (range : Point × Point)
  | rangeResponse
  | rangeBlocks (all : List Bytes)
  | singleRequest (point : Point)
  | singleResponse
  | singleBody
  | singleEnd (body : Bytes)
  | done

def next : Await → Operation State Message ClientError (Next Await (Except ClientError Fetched))
  | .rangeRequest range => (sendRequestRange range).andThen fun () => .goto .rangeResponse
  | .rangeResponse => recvWhileBusy.andThen fun
    | some () => .goto (.rangeBlocks [])
    | none => .ret (.error .noBlocks)
  | .rangeBlocks all => recvWhileStreaming.andThen fun
    | some block => .goto (.rangeBlocks (all ++ [block]))
    | none => .ret (.ok (.range all))
  | .singleRequest point => (sendRequestRange (point, point)).andThen fun () => .goto .singleResponse
  | .singleResponse => recvWhileBusy.andThen fun
    | some () => .goto .singleBody
    | none => .ret (.error .noBlocks)
  | .singleBody => recvWhileStreaming.andThen fun
    | some body => .goto (.singleEnd body)
    | none => .ret (.error .invalidInbound)
  | .singleEnd body => recvWhileStreaming.andThen fun
    | some _ => .ret (.error .invalidInbound)
    | none => .ret (.ok (.single body))
  | .done => sendDone.andThen fun () => .ret (.ok .done)

def program : Program State Message ClientError FetchCall Fetched where
  agent := agent
  Point := Await
  start
    | .fetchRange range, _ => .rangeRequest range
    | .fetchSingle point, _ => .singleRequest point
    | .sendDone, _ => .done
  next := next

end Client

namespace Server

/-- `recv_while_idle` and `send_block_range`, until the client is done. -/
inductive Await where
  | recvWhileIdle
  | sendBlockRange (blocks : List Bytes)
  | sendBlocks (blocks : List Bytes)

variable (store : Point × Point → List Bytes)

def next : Await → Operation State Message ServerError (Next Await (Except ServerError Unit))
  | .recvWhileIdle => recvWhileIdle.andThen fun
    | some range => .goto (.sendBlockRange (store range))
    | none => .ret (.ok ())
  | .sendBlockRange [] => sendNoBlocks.andThen fun () => .goto .recvWhileIdle
  | .sendBlockRange (block :: blocks) => sendStartBatch.andThen fun () => .goto (.sendBlocks (block :: blocks))
  | .sendBlocks (block :: blocks) => (sendBlock block).andThen fun () => .goto (.sendBlocks blocks)
  | .sendBlocks [] => sendBatchDone.andThen fun () => .goto .recvWhileIdle

def program : Program State Message ServerError Unit Unit := ⟨agent, Await, fun _ _ => .recvWhileIdle, next store⟩

end Server

/-- What the calls return. After the end of the protocol, and after a range of one point that has more than one block, the
client never has the agency again. -/
def fetched (store : Point × Point → List Bytes) : List FetchCall → List (Except ClientError Fetched)
  | [] => []
  | .fetchRange range :: calls =>
    (if store range = [] then .error .noBlocks else .ok (.range (store range))) :: fetched store calls
  | .fetchSingle point :: calls => match store (point, point) with
    | [] => .error .noBlocks :: fetched store calls
    | [body] => .ok (.single body) :: fetched store calls
    | _ :: _ :: _ => .error .invalidInbound :: calls.map fun _ => .error .agencyIsTheirs
  | .sendDone :: calls => .ok .done :: calls.map fun _ => .error .agencyIsTheirs

section Schedule
variable {store : Point × Point → List Bytes} {calls : List FetchCall} {results : List (Except ClientError Fetched)}

abbrev Talk (store : Point × Point → List Bytes) := Dialogue Client.program (Server.program store)

/-- Both are idle, between two calls. -/
def between (store : Point × Point → List Bytes) (calls : List FetchCall) (results : List (Except ClientError Fetched)) :
    Talk store :=
  ⟨.call Client.program .idle calls results, ⟨.idle, some .recvWhileIdle, [], []⟩, [], []⟩

theorem steps_blocks (store : Point × Point → List Bytes) (calls : List FetchCall)
    (results : List (Except ClientError Fetched)) (blocks all : List Bytes) : ∃ n, Steps Dialogue.Step n
    (⟨⟨.streaming, some (.rangeBlocks all), calls, results⟩, ⟨.streaming, some (.sendBlocks blocks), [], []⟩, [], []⟩ :
      Talk store)
    ⟨⟨.streaming, some (.rangeBlocks (all ++ blocks)), calls, results⟩, ⟨.streaming, some (.sendBlocks []), [], []⟩,
      [], []⟩ := by
  induction blocks generalizing all with
  | nil => exact ⟨0, by rw [List.append_nil]; exact .refl⟩
  | cons block blocks ih =>
    obtain ⟨n, h⟩ := ih (all ++ [block])
    rw [List.append_assoc] at h
    exact ⟨_, steps_server rfl (steps_client rfl h)⟩

theorem steps_unread (store : Point × Point → List Bytes) {x : Caller Client.program} (blocks : List Bytes) (inbox : List Message) : ∃ n inbox',
    Steps Dialogue.Step n (⟨x, ⟨.streaming, some (.sendBlocks blocks), [], []⟩, inbox, []⟩ : Talk store)
      ⟨x, ⟨.idle, some .recvWhileIdle, [], []⟩, inbox', []⟩ := by
  induction blocks generalizing inbox with
  | nil => exact ⟨1, _, steps_server rfl .refl⟩
  | cons block blocks ih =>
    obtain ⟨n, inbox', h⟩ := ih (inbox ++ [.block block])
    exact ⟨n + 1, inbox', steps_server rfl h⟩

theorem steps_refused (store : Point × Point → List Bytes) (calls : List FetchCall)
    (results : List (Except ClientError Fetched)) {state : State} (hstate : Client.hasAgency state = false)
    {y : Caller (Server.program store)} {inbox : List Message} : ∃ n, Steps Dialogue.Step n
      (⟨.call Client.program state calls results, y, inbox, []⟩ : Talk store)
      ⟨⟨state, none, [], results ++ calls.map fun _ => .error .agencyIsTheirs⟩, y, inbox, []⟩ := by
  induction calls generalizing results with
  | nil => exact ⟨0, by rw [List.map_nil, List.append_nil]; exact .refl⟩
  | cons c calls ih =>
    obtain ⟨n, h⟩ := ih (results ++ [.error .agencyIsTheirs])
    rw [List.append_assoc] at h
    refine ⟨n + 1, steps_client ?_ h⟩
    cases state with
    | idle => cases hstate
    | busy | streaming | done => cases c <;> rfl

/-- The client has made its calls, and nothing moves any more. -/
def Over (s : Talk store) (results : List (Except ClientError Fetched)) : Prop :=
  Stuck Dialogue.Step s ∧ s.client.point = none ∧ s.client.results = results

/-- The client makes its calls and the server answers them, each of them in turn. -/
theorem exists_over (store : Point × Point → List Bytes) (calls : List FetchCall)
    (results : List (Except ClientError Fetched)) :
    ∃ n z, Steps Dialogue.Step n (between store calls results) z ∧ Over z (results ++ fetched store calls) := by
  induction calls generalizing results with
  | nil =>
    rw [fetched, List.append_nil]
    exact ⟨0, _, .refl, Dialogue.stuck rfl rfl, rfl, rfl⟩
  | cons c calls ih =>
    cases c with
    | fetchRange range =>
      have hasked : Steps Dialogue.Step 2 (between store (.fetchRange range :: calls) results)
          ⟨⟨.busy, some .rangeResponse, calls, results⟩, ⟨.busy, some (.sendBlockRange (store range)), [], []⟩, [], []⟩ :=
        steps_client rfl (steps_server rfl .refl)
      cases hstore : store range with
      | nil =>
        rw [hstore] at hasked
        obtain ⟨n, z, hz, hover⟩ := ih (results ++ [.error .noBlocks])
        refine ⟨_, z, hasked.trans (steps_server rfl (steps_client rfl hz)), ?_⟩
        rwa [fetched, if_pos hstore, List.append_cons]
      | cons block blocks =>
        rw [hstore] at hasked
        obtain ⟨n, z, hz, hover⟩ := ih (results ++ [.ok (.range (block :: blocks))])
        obtain ⟨m, hblocks⟩ := steps_blocks store calls results (block :: blocks) []
        refine ⟨_, z, hasked.trans (steps_server rfl (steps_client rfl
          (hblocks.trans (steps_server rfl (steps_client rfl hz))))), ?_⟩
        rwa [fetched, if_neg (by rw [hstore]; exact List.cons_ne_nil _ _), hstore, List.append_cons]
    | fetchSingle point =>
      have hasked : Steps Dialogue.Step 2 (between store (.fetchSingle point :: calls) results)
          ⟨⟨.busy, some .singleResponse, calls, results⟩,
            ⟨.busy, some (.sendBlockRange (store (point, point))), [], []⟩, [], []⟩ :=
        steps_client rfl (steps_server rfl .refl)
      rw [fetched]
      cases hstore : store (point, point) with
      | nil =>
        rw [hstore] at hasked
        obtain ⟨n, z, hz, hover⟩ := ih (results ++ [.error .noBlocks])
        refine ⟨_, z, hasked.trans (steps_server rfl (steps_client rfl hz)), ?_⟩
        show Over z (results ++ .error .noBlocks :: fetched store calls)
        rwa [List.append_cons]
      | cons body blocks =>
        rw [hstore] at hasked
        have hbody := hasked.trans (steps_server rfl (steps_client rfl
          (steps_server rfl (steps_client rfl .refl))))
        cases blocks with
        | nil =>
          obtain ⟨n, z, hz, hover⟩ := ih (results ++ [.ok (.single body)])
          refine ⟨_, z, hbody.trans (steps_server rfl (steps_client rfl hz)), ?_⟩
          show Over z (results ++ .ok (.single body) :: fetched store calls)
          rwa [List.append_cons]
        | cons block blocks =>
          have hmore := hbody.trans (steps_server rfl (steps_client rfl .refl))
          obtain ⟨m, inbox, hunread⟩ := steps_unread store blocks []
          obtain ⟨n, hrefused⟩ := steps_refused store calls (results ++ [.error .invalidInbound])
            (show Client.hasAgency .streaming = false from rfl)
          refine ⟨_, _, hmore.trans (hunread.trans hrefused), ?_⟩
          exact ⟨Dialogue.stuck rfl rfl, rfl, List.append_assoc _ _ _⟩
    | sendDone =>
      obtain ⟨n, hrefused⟩ := steps_refused store calls (results ++ [.ok .done])
        (show Client.hasAgency .done = false from rfl)
      refine ⟨_, _, steps_client rfl (steps_server rfl hrefused), ?_⟩
      exact ⟨Dialogue.stuck rfl rfl, rfl, List.append_assoc _ _ _⟩

end Schedule

/-- Whatever calls the client makes, whatever the server has, and in whatever order the two take their steps: all calls
return, after a number of steps that the order does not change, and each returns the blocks that the server has for it, in
their order. -/
theorem fetch_settles (store : Point × Point → List Bytes) (calls : List FetchCall) : ∃ n z,
    Settles Dialogue.Step (Dialogue.start Client.program (Server.program store) .idle calls [()]) n z ∧
    z.client.point = none ∧ z.client.results = fetched store calls := by
  obtain ⟨n, z, hsteps, hstuck, hpoint, hresults⟩ := exists_over store calls []
  exact ⟨n, z, hsteps.settles Dialogue.step_commutes hstuck, hpoint, hresults⟩

end Blockfetch

/-! ### Chain sync -/

namespace Chainsync
variable {C : Type}

inductive FollowCall where
  | requestOrAwaitNext
  | findIntersect (points : List Point)
  | intersectOrigin
  | intersectTip
  deriving DecidableEq

inductive Followed (C : Type) where
  | next (response : NextResponse C)
  | intersection (point : Option Point) (tip : Tip)
  | point (point : Point)
  deriving DecidableEq

/-- `point.ok_or(ClientError::IntersectionNotFound)`. -/
def found : Option Point → Except ClientError (Followed C)
  | some point => .ok (.point point)
  | none => .error .intersectionNotFound

namespace Client

/-- The function that calls `find_intersect`; `intersect_tip` does so twice. -/
inductive Purpose where
  | findIntersect
  | intersectOrigin
  | tipOfServer
  | intersectTip

/-- Where the functions wait. -/
inductive Await where
  | sendRequestNext
  | recvWhileCanAwait
  | recvWhileMustReply
  | sendFindIntersect (points : List Point) (purpose : Purpose)
  | recvIntersectResponse (purpose : Purpose)

def Purpose.after (point : Option Point) (tip : Tip) : Purpose → Next Await (Except ClientError (Followed C))
  | findIntersect => .ret (.ok (.intersection point tip))
  | intersectOrigin => .ret (found point)
  | tipOfServer => .goto (.sendFindIntersect [tip.point] .intersectTip)
  | intersectTip => .ret (found point)

def next : Await → Operation State (Message C) ClientError (Next Await (Except ClientError (Followed C)))
  | .sendRequestNext => sendRequestNext.andThen fun () => .goto .recvWhileCanAwait
  | .recvWhileCanAwait => recvWhileCanAwait.andThen fun response => .ret (.ok (.next response))
  | .recvWhileMustReply => recvWhileMustReply.andThen fun response => .ret (.ok (.next response))
  | .sendFindIntersect points purpose =>
    (sendFindIntersect points).andThen fun () => .goto (.recvIntersectResponse purpose)
  | .recvIntersectResponse purpose => recvIntersectResponse.andThen fun response =>
    purpose.after response.1 response.2

def program : Program State (Message C) ClientError FollowCall (Followed C) where
  agent := agent
  Point := Await
  start
    | .requestOrAwaitNext, state => if hasAgency state then .sendRequestNext else .recvWhileMustReply
    | .findIntersect points, _ => .sendFindIntersect points .findIntersect
    | .intersectOrigin, _ => .sendFindIntersect [.origin] .intersectOrigin
    | .intersectTip, _ => .sendFindIntersect [.origin] .tipOfServer
  next := next

end Client

/-- A change of the server's chain. -/
inductive Update (C : Type) where
  | rollForward (content : C) (tip : Tip)
  | rollBackward (point : Point) (tip : Tip)

def Update.message : Update C → Message C
  | rollForward content tip => .rollForward content tip
  | rollBackward point tip => .rollBackward point tip

def Update.response : Update C → NextResponse C
  | rollForward content tip => .rollForward content tip
  | rollBackward point tip => .rollBackward point tip

/-- What a server has to say: its updates, which of them it has yet to wait for when it is asked, and the intersections that
it finds after so many of them. -/
structure Chain (C : Type) where
  update : ℕ → Update C
  awaited : ℕ → Bool
  intersect : ℕ → List Point → Option Point × Tip

namespace Server

inductive Await where
  | recvWhileIdle (sent : ℕ)
  | sendIntersect (sent : ℕ) (points : List Point)
  | sendAwaitReply (sent : ℕ)
  | sendUpdate (sent : ℕ)

variable (chain : Chain C)

def sendUpdate : Update C → Operation State (Message C) ServerError Unit
  | .rollForward content tip => sendRollForward content tip
  | .rollBackward point tip => sendRollBackward point tip

def sendIntersect : Option Point × Tip → Operation State (Message C) ServerError Unit
  | (some point, tip) => sendIntersectFound point tip
  | (none, tip) => sendIntersectNotFound tip

def next : Await → Operation State (Message C) ServerError (Next Await (Except ServerError Unit))
  | .recvWhileIdle sent => recvWhileIdle.andThen fun
    | some (.intersect points) => .goto (.sendIntersect sent points)
    | some .requestNext => .goto (if chain.awaited sent then .sendAwaitReply sent else .sendUpdate sent)
    | none => .ret (.ok ())
  | .sendIntersect sent points =>
    (sendIntersect (chain.intersect sent points)).andThen fun () => .goto (.recvWhileIdle sent)
  | .sendAwaitReply sent => sendAwaitReply.andThen fun () => .goto (.sendUpdate sent)
  | .sendUpdate sent => (sendUpdate (chain.update sent)).andThen fun () => .goto (.recvWhileIdle (sent + 1))

def program : Program State (Message C) ServerError Unit Unit :=
  ⟨agent, Await, fun _ _ => .recvWhileIdle 0, next chain⟩

end Server

/-- What a call other than for the next update returns, of a client that has the agency. -/
def intersected (chain : Chain C) (sent : ℕ) : FollowCall → Except ClientError (Followed C)
  | .requestOrAwaitNext => .error .agencyIsTheirs
  | .findIntersect points => .ok (.intersection (chain.intersect sent points).1 (chain.intersect sent points).2)
  | .intersectOrigin => found (chain.intersect sent [.origin]).1
  | .intersectTip => found (chain.intersect sent [(chain.intersect sent [.origin]).2.point]).1

/-- What the calls return. A client that has been told to wait lets no other call through than the one that waits. -/
def followed (chain : Chain C) : (waiting : Bool) → (received : ℕ) → List FollowCall →
    List (Except ClientError (Followed C))
  | _, _, [] => []
  | true, n, .requestOrAwaitNext :: calls =>
    .ok (.next (chain.update n).response) :: followed chain false (n + 1) calls
  | true, n, _ :: calls => .error .agencyIsTheirs :: followed chain true n calls
  | false, n, .requestOrAwaitNext :: calls =>
    if chain.awaited n then .ok (.next .await) :: followed chain true n calls
    else .ok (.next (chain.update n).response) :: followed chain false (n + 1) calls
  | false, n, c :: calls => intersected chain n c :: followed chain false n calls

/-- The updates among what calls return. -/
def responses : List (Except ClientError (Followed C)) → List (NextResponse C) := List.filterMap fun
  | .ok (.next .await) => none
  | .ok (.next response) => some response
  | _ => none

section Schedule
variable {chain : Chain C} {calls : List FollowCall} {results : List (Except ClientError (Followed C))} {n : ℕ}

abbrev Talk (chain : Chain C) := Dialogue Client.program (Server.program chain)

/-- Between two calls of a client that has received `n` updates. One that waits has the next one on its way. -/
def between (chain : Chain C) (waiting : Bool) (n : ℕ) (calls : List FollowCall)
    (results : List (Except ClientError (Followed C))) : Talk chain :=
  match waiting with
  | true => ⟨.call Client.program .mustReply calls results, ⟨.idle, some (.recvWhileIdle (n + 1)), [], []⟩,
      [(chain.update n).message], []⟩
  | false => ⟨.call Client.program .idle calls results, ⟨.idle, some (.recvWhileIdle n), [], []⟩, [], []⟩

/-- The answer to a request for an intersection. -/
def answer : Option Point × Tip → Message C
  | (some point, tip) => .intersectFound point tip
  | (none, tip) => .intersectNotFound tip

theorem sendIntersect_run {P : Type} (next : P) (r : Option Point × Tip) :
    ((Server.sendIntersect (C := C) r).andThen fun () => (.goto next : Next P (Except ServerError Unit))).run
      Server.agent .intersect [] = some ⟨.ok (.goto next), .idle, [], [answer r]⟩ := by
  rcases r with ⟨_ | point, tip⟩ <;> rfl

theorem recvIntersectResponse_run {ρ : Type} (f : Option Point × Tip → ρ) (r : Option Point × Tip) :
    (Client.recvIntersectResponse.andThen f).run Client.agent .intersect [answer (C := C) r] =
      some ⟨.ok (f r), .idle, [], []⟩ := by
  rcases r with ⟨_ | point, tip⟩ <;> rfl

theorem sendUpdate_run {P : Type} (next : P) {state : State} (hstate : state = .canAwait ∨ state = .mustReply)
    (u : Update C) : ((Server.sendUpdate u).andThen fun () => (.goto next : Next P (Except ServerError Unit))).run
      Server.agent state [] = some ⟨.ok (.goto next), .idle, [], [u.message]⟩ := by
  rcases hstate with rfl | rfl <;> cases u <;> rfl

theorem recvWhileCanAwait_run {ρ : Type} (f : NextResponse C → ρ) (u : Update C) :
    (Client.recvWhileCanAwait.andThen f).run Client.agent .canAwait [u.message] =
      some ⟨.ok (f u.response), .idle, [], []⟩ := by
  cases u <;> rfl

theorem recvWhileMustReply_run {ρ : Type} (f : NextResponse C → ρ) (u : Update C) :
    (Client.recvWhileMustReply.andThen f).run Client.agent .mustReply [u.message] =
      some ⟨.ok (f u.response), .idle, [], []⟩ := by
  cases u <;> rfl

theorem steps_find (points : List Point) (purpose : Client.Purpose) : Steps Dialogue.Step 4
    (⟨⟨.idle, some (.sendFindIntersect points purpose), calls, results⟩, ⟨.idle, some (.recvWhileIdle n), [], []⟩, [],
      []⟩ : Talk chain)
    ⟨(⟨.intersect, some (.recvIntersectResponse purpose), calls, results⟩ : Caller Client.program).resume .idle
        (.ok (purpose.after (chain.intersect n points).1 (chain.intersect n points).2)),
      ⟨.idle, some (.recvWhileIdle n), [], []⟩, [], []⟩ :=
  steps_client rfl (steps_server rfl (steps_server (step_server rfl (sendIntersect_run _ _))
    (steps_client (step_client rfl (recvIntersectResponse_run _ _)) .refl)))

theorem steps_update (hawaited : chain.awaited n = false) : Steps Dialogue.Step 4
    (between chain false n (.requestOrAwaitNext :: calls) results)
    (between chain false (n + 1) calls (results ++ [.ok (.next (chain.update n).response)])) := by
  have hasked : Steps Dialogue.Step 2 (between chain false n (.requestOrAwaitNext :: calls) results)
      ⟨⟨.canAwait, some .recvWhileCanAwait, calls, results⟩,
        ⟨.canAwait, some (if chain.awaited n then .sendAwaitReply n else .sendUpdate n), [], []⟩, [], []⟩ :=
    steps_client rfl (steps_server rfl .refl)
  rw [hawaited] at hasked
  exact hasked.trans (steps_server (step_server rfl (sendUpdate_run _ (.inl rfl) _))
    (steps_client (step_client rfl (recvWhileCanAwait_run _ _)) .refl))

/-- One that it has none for yet: it says so, and sends the update when it is there. -/
theorem steps_await (hawaited : chain.awaited n = true) : Steps Dialogue.Step 5
    (between chain false n (.requestOrAwaitNext :: calls) results)
    (between chain true n calls (results ++ [.ok (.next .await)])) := by
  have hasked : Steps Dialogue.Step 2 (between chain false n (.requestOrAwaitNext :: calls) results)
      ⟨⟨.canAwait, some .recvWhileCanAwait, calls, results⟩,
        ⟨.canAwait, some (if chain.awaited n then .sendAwaitReply n else .sendUpdate n), [], []⟩, [], []⟩ :=
    steps_client rfl (steps_server rfl .refl)
  rw [hawaited] at hasked
  exact hasked.trans (steps_server rfl (steps_client rfl
    (steps_server (step_server rfl (sendUpdate_run _ (.inr rfl) _)) .refl)))

theorem steps_waited : Steps Dialogue.Step 1 (between chain true n (.requestOrAwaitNext :: calls) results)
    (between chain false (n + 1) calls (results ++ [.ok (.next (chain.update n).response)])) :=
  steps_client (step_client rfl (recvWhileMustReply_run _ _)) .refl

theorem steps_intersected (chain : Chain C) (n : ℕ) (calls : List FollowCall)
    (results : List (Except ClientError (Followed C))) {c : FollowCall} (hc : c ≠ .requestOrAwaitNext) : ∃ m, Steps Dialogue.Step m
    (between chain false n (c :: calls) results) (between chain false n calls (results ++ [intersected chain n c])) := by
  cases c with
  | requestOrAwaitNext => exact absurd rfl hc
  | findIntersect points => exact ⟨4, steps_find points .findIntersect⟩
  | intersectOrigin => exact ⟨4, steps_find [.origin] .intersectOrigin⟩
  | intersectTip => exact ⟨8, (steps_find [.origin] .tipOfServer).trans (steps_find _ .intersectTip)⟩

/-- Not while it waits. -/
theorem steps_refused {c : FollowCall} (hc : c ≠ .requestOrAwaitNext) : Steps Dialogue.Step 1
    (between chain true n (c :: calls) results) (between chain true n calls (results ++ [.error .agencyIsTheirs])) := by
  cases c with
  | requestOrAwaitNext => exact absurd rfl hc
  | findIntersect | intersectOrigin | intersectTip => exact steps_client rfl .refl

theorem followed_of_ne {c : FollowCall} (hc : c ≠ .requestOrAwaitNext) (waiting : Bool) :
    followed chain waiting n (c :: calls) =
      (if waiting then .error .agencyIsTheirs else intersected chain n c) :: followed chain waiting n calls := by
  cases c with
  | requestOrAwaitNext => exact absurd rfl hc
  | findIntersect | intersectOrigin | intersectTip => cases waiting <;> rfl

/-- The client makes its calls and the server answers them, each of them in turn. -/
theorem exists_followed (chain : Chain C) (calls : List FollowCall) (waiting : Bool) (n : ℕ)
    (results : List (Except ClientError (Followed C))) : ∃ m z, Steps Dialogue.Step m
      (between chain waiting n calls results) z ∧ Stuck Dialogue.Step z ∧ z.client.point = none ∧
      z.client.results = results ++ followed chain waiting n calls := by
  induction calls generalizing waiting n results with
  | nil =>
    refine ⟨0, _, .refl, ?_⟩
    rw [followed, List.append_nil]
    cases waiting <;> exact ⟨Dialogue.stuck rfl rfl, rfl, rfl⟩
  | cons c calls ih =>
    -- the call, and then all that come after it
    suffices hcall : ∃ m waiting' n' result, Steps Dialogue.Step m (between chain waiting n (c :: calls) results)
        (between chain waiting' n' calls (results ++ [result])) ∧
        followed chain waiting n (c :: calls) = result :: followed chain waiting' n' calls by
      obtain ⟨m, waiting', n', result, hsteps, hfollowed⟩ := hcall
      obtain ⟨m', z, hz, hstuck, hpoint, hresults⟩ := ih waiting' n' (results ++ [result])
      refine ⟨_, z, hsteps.trans hz, hstuck, hpoint, ?_⟩
      rw [hresults, hfollowed, List.append_assoc]
      rfl
    by_cases hc : c = .requestOrAwaitNext
    · subst hc
      cases waiting with
      | true => exact ⟨1, false, n + 1, _, steps_waited, rfl⟩
      | false =>
        cases hawaited : chain.awaited n with
        | true => exact ⟨5, true, n, _, steps_await hawaited, by rw [followed, if_pos hawaited]⟩
        | false => exact ⟨4, false, n + 1, _, steps_update hawaited, by rw [followed, if_neg (by rw [hawaited]; decide)]⟩
    · cases waiting with
      | true => exact ⟨1, true, n, _, steps_refused hc, followed_of_ne hc true⟩
      | false =>
        obtain ⟨m, hsteps⟩ := steps_intersected chain n calls results hc
        exact ⟨m, false, n, _, hsteps, followed_of_ne hc false⟩

end Schedule

theorem responses_next (u : Update C) (results : List (Except ClientError (Followed C))) :
    responses (.ok (.next u.response) :: results) = u.response :: responses results := by
  cases u <;> rfl

theorem responses_found (point : Option Point) (results : List (Except ClientError (Followed C))) :
    responses (found point :: results) = responses results := by
  cases point <;> rfl

theorem responses_followed (chain : Chain C) (calls : List FollowCall) (waiting : Bool) (n : ℕ) :
    ∃ k, responses (followed chain waiting n calls) = (List.range' n k).map fun i => (chain.update i).response := by
  induction calls generalizing waiting n with
  | nil => exact ⟨0, by cases waiting <;> rfl⟩
  | cons c calls ih =>
    by_cases hc : c = .requestOrAwaitNext
    · subst hc
      have hnext : ∃ k, responses (.ok (.next (chain.update n).response) :: followed chain false (n + 1) calls) =
          (List.range' n k).map fun i => (chain.update i).response := by
        obtain ⟨k, hk⟩ := ih false (n + 1)
        exact ⟨k + 1, by rw [responses_next, hk, List.range'_succ, List.map_cons]⟩
      cases waiting with
      | true => exact hnext
      | false =>
        rw [followed]
        split
        · exact ih true n
        · exact hnext
    · obtain ⟨k, hk⟩ := ih waiting n
      refine ⟨k, hk ▸ ?_⟩
      rw [followed_of_ne hc]
      cases waiting with
      | true => rfl
      | false =>
        cases c with
        | requestOrAwaitNext => exact absurd rfl hc
        | findIntersect points => rfl
        | intersectOrigin | intersectTip => exact responses_found _ _

/-- Whatever calls the client makes, whatever happens to the server's chain, and in whatever order the two take their steps:
all calls return, after a number of steps that the order does not change, and the updates that they return are the first
ones of the server, none of them lost, repeated or out of order. -/
theorem follow_settles (chain : Chain C) (calls : List FollowCall) : ∃ n z,
    Settles Dialogue.Step (Dialogue.start Client.program (Server.program chain) .idle calls [()]) n z ∧
    z.client.point = none ∧ z.client.results = followed chain false 0 calls ∧
    ∃ k, responses z.client.results = (List.range k).map fun i => (chain.update i).response := by
  obtain ⟨n, z, hsteps, hstuck, hpoint, hresults⟩ := exists_followed chain calls false 0 []
  obtain ⟨k, hk⟩ := responses_followed chain calls false 0
  refine ⟨n, z, hsteps.settles Dialogue.step_commutes hstuck, hpoint, hresults, k, ?_⟩
  rw [hresults, List.nil_append, hk, List.range_eq_range']

end Chainsync

end Pallas.Network
