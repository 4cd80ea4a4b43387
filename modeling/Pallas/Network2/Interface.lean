import Pallas.Network2.Initiator
import Pallas.Network2.Wire

/-!
# The TCP interfaces (`pallas-network2/src/interface.rs`)

An interface has a pool of futures, which make progress in whatever order, and the writers of its peers. Each future that sends
to a peer has the lock of the writer until its message is out, so that no two messages are mixed (`Writer`). Of each connection
one future reads, and it is followed by the next when it has a segment (`Reader`). Between two ends of one byte stream, the
messages that one receives are therefore the first of those that the other has begun to send, in order (`received_in_order`).
-/

namespace Pallas.Network2.Interface
open BearerReadHalf
open Network.Multiplexer (Timestamp headerLen maxSegmentPayloadLength chunks msgChunks)

/-- One end of a connection, for both its halves. -/
abbrev Socket := ℕ

abbrev ChunkBuffer := HashTable Channel Payload

inductive InternalEvent where
  | connected (pid : PeerId) (bearer : Socket)
  | disconnected (pid : PeerId)
  | sent (pid : PeerId) (msg : AnyMessage)
  | recv (pid : PeerId) (msgs : List AnyMessage) (reader : Socket) (partialChunks : ChunkBuffer)
  | error (pid : PeerId) (error : String)

/-- A future and how far it is. `send` waits for the lock of its writer, and `writing` has it and has yet to write `rest`;
`recv` has taken `buf` of a segment. `ready` is there for a disconnection that has nothing to close, and `accept` is the
listener's own. -/
inductive InterfaceFuture where
  | connect (pid : PeerId)
  | accept
  | send (pid : PeerId) (writer : Socket) (msg : AnyMessage) (ts : Timestamp)
  | writing (pid : PeerId) (writer : Socket) (msg : AnyMessage) (rest : Bytes)
  | recv (pid : PeerId) (reader : Socket) (partialChunks : ChunkBuffer) (buf : Bytes)
  | disconnect (pid : PeerId) (writer : Socket)
  | ready (pid : PeerId)

structure TcpConnectionPool where
  futures : List InterfaceFuture
  writers : Finmap fun _ : PeerId => Socket
  mode : Channel

/-! ### The pool -/

namespace TcpConnectionPool
variable (self : TcpConnectionPool)

def new (mode : Channel) : TcpConnectionPool := ⟨[], ∅, mode⟩

def pushFuture (f : InterfaceFuture) : TcpConnectionPool := { self with futures := self.futures ++ [f] }

def takeWriter (pid : PeerId) : Option Socket := self.writers.lookup pid

def onConnected (pid : PeerId) (bearer : Socket) : TcpConnectionPool × InterfaceEvent :=
  ({ self with writers := self.writers.insert pid bearer }.pushFuture (.recv pid bearer ∅ []), .connected pid)

def onDisconnected (pid : PeerId) : TcpConnectionPool × InterfaceEvent :=
  ({ self with writers := self.writers.erase pid }, .disconnected pid)

def onSent (pid : PeerId) (msg : AnyMessage) : TcpConnectionPool × InterfaceEvent := (self, .sent pid msg)

def onRecv (pid : PeerId) (msgs : List AnyMessage) (reader : Socket) (partialChunks : ChunkBuffer) :
    TcpConnectionPool × InterfaceEvent :=
  (self.pushFuture (.recv pid reader partialChunks []), .recv pid msgs)

def onError (pid : PeerId) (error : String) : TcpConnectionPool × InterfaceEvent := (self, .error pid error)

def handleInternalEvent : InternalEvent → TcpConnectionPool × InterfaceEvent
  | .connected pid stream => self.onConnected pid stream
  | .sent pid msg => self.onSent pid msg
  | .recv pid msgs stream buf => self.onRecv pid msgs stream buf
  | .disconnected pid => self.onDisconnected pid
  | .error pid error => self.onError pid error

/-- A message to a peer that is not connected is dropped. -/
def dispatchSend (pid : PeerId) (msg : AnyMessage) (ts : Timestamp) : TcpConnectionPool :=
  match self.takeWriter pid with
  | some writer => self.pushFuture (.send pid writer msg ts)
  | none => self

def dispatchDisconnect (pid : PeerId) : TcpConnectionPool :=
  match self.takeWriter pid with
  | some stream => self.pushFuture (.disconnect pid stream)
  | none => self.pushFuture (.ready pid)

end TcpConnectionPool

/-- `TcpInterface` and `TcpListenerInterface`. -/
inductive Kind where
  | tcp
  | listener
  deriving DecidableEq

def Kind.mode : Kind → Channel
  | tcp => 0
  | listener => protocolServer

/-- `dispatch`; a listener does not connect. -/
def Kind.dispatch (kind : Kind) (pool : TcpConnectionPool) (ts : Timestamp) : InterfaceCommand → TcpConnectionPool
  | .connect pid => match kind with
    | tcp => pool.pushFuture (.connect pid)
    | listener => pool
  | .send pid msg => pool.dispatchSend pid msg ts
  | .disconnect pid => pool.dispatchDisconnect pid

/-! ### Runs -/

/-- The future holds the lock of the writer. -/
def InterfaceFuture.holds (w : Socket) : InterfaceFuture → Bool
  | .writing _ writer _ _ => writer = w
  | _ => false

/-- The future reads from the connection. -/
def InterfaceFuture.reads (r : Socket) : InterfaceFuture → Bool
  | .recv _ reader _ _ => reader = r
  | _ => false

/-- The message that waits for the lock of the writer. -/
def InterfaceFuture.waits (w : Socket) : InterfaceFuture → List AnyMessage
  | .send _ writer msg _ => if writer = w then [msg] else []
  | _ => []

open InterfaceFuture (holds reads waits)

section Runs
variable {ε : Type} (m : MinicborValues ε)

/-- What a future can come to. -/
inductive Resolves : InterfaceFuture → InternalEvent → Prop where
  | connected {pid bearer} : Resolves (.connect pid) (.connected pid bearer)
  | refused {pid error} : Resolves (.connect pid) (.error pid error)
  | accepted {pid bearer} : Resolves .accept (.connected pid bearer)
  | acceptError {error} : Resolves .accept (.error ⟨"accept-error", 0⟩ error)
  | sent {pid writer msg} : Resolves (.writing pid writer msg []) (.sent pid msg)
  | writeError {pid writer msg rest error} : Resolves (.writing pid writer msg rest) (.error pid error)
  | recv {pid reader partialChunks buf segment} (h : readSegment buf = some segment) :
      Resolves (.recv pid reader partialChunks buf) (.recv pid (readFullMsgs m partialChunks segment).1 reader
        (readFullMsgs m partialChunks segment).2)
  | readError {pid reader partialChunks buf error} : Resolves (.recv pid reader partialChunks buf) (.error pid error)
  | disconnected {pid writer} : Resolves (.disconnect pid writer) (.disconnected pid)
  | ready {pid} : Resolves (.ready pid) (.disconnected pid)

/-- The peer that the command is for. -/
def peerOf : InterfaceCommand → PeerId
  | .connect pid => pid
  | .send pid _ => pid
  | .disconnect pid => pid

/-- What happens in a step: a command, with the writer of its peer; a lock; bytes out or in; or a future has a result. -/
inductive Label where
  | dispatched (cmd : InterfaceCommand) (writer : Option Socket)
  | locked (writer : Socket) (msg : AnyMessage) (ts : Timestamp)
  | wrote (writer : Socket) (bs : Bytes)
  | took (reader : Socket) (bs : Bytes)
  | resolved (future : InterfaceFuture) (event : InternalEvent)

namespace Label

/-- The message that is to be sent. -/
def asked (s : Socket) : Label → List AnyMessage
  | dispatched (.send _ msg) (some writer) => if writer = s then [msg] else []
  | _ => []

/-- The message that has got the lock. -/
def started (s : Socket) : Label → List (AnyMessage × Timestamp)
  | locked writer msg ts => if writer = s then [(msg, ts)] else []
  | _ => []

def written (s : Socket) : Label → Bytes
  | wrote writer bs => if writer = s then bs else []
  | _ => []

/-- Nothing can be written any more. -/
def closes (s : Socket) : Label → Bool
  | resolved (.writing _ writer _ _) (.error ..) => writer = s
  | resolved (.disconnect _ writer) _ => writer = s
  | _ => false

def taken (s : Socket) : Label → Bytes
  | took reader bs => if reader = s then bs else []
  | _ => []

def received (s : Socket) : Label → List AnyMessage
  | resolved _ (.recv _ msgs reader _) => if reader = s then msgs else []
  | _ => []

def opens (s : Socket) : Label → Bool
  | resolved _ (.connected _ bearer) => bearer = s
  | _ => false

end Label

def asked (s : Socket) (trace : List Label) : List AnyMessage := trace.flatMap (Label.asked s)

def started (s : Socket) (trace : List Label) : List (AnyMessage × Timestamp) := trace.flatMap (Label.started s)

def written (s : Socket) (trace : List Label) : Bytes := trace.flatMap (Label.written s)

def closed (s : Socket) (trace : List Label) : Bool := trace.any (Label.closes s)

def taken (s : Socket) (trace : List Label) : Bytes := trace.flatMap (Label.taken s)

def received (s : Socket) (trace : List Label) : List AnyMessage := trace.flatMap (Label.received s)

def opened (s : Socket) (trace : List Label) : Bool := trace.any (Label.opens s)

namespace TcpConnectionPool
variable (pool : TcpConnectionPool)

/-- The futures that hold the lock of the writer. -/
def holders (w : Socket) : List InterfaceFuture := pool.futures.filter (holds w)

def readers (r : Socket) : List InterfaceFuture := pool.futures.filter (reads r)

/-- The messages that wait for the lock of the writer. -/
def waiting (w : Socket) : List AnyMessage := pool.futures.flatMap (waits w)

end TcpConnectionPool

/-- A step, after the steps of the trace. Futures are polled in any order, a free lock goes to any that waits for it, and bytes
go out and come in by any number. A connection is a new one, and after an error or a shutdown nothing is written to it. -/
inductive Step (kind : Kind) (trace : List Label) (pool : TcpConnectionPool) : Label → TcpConnectionPool → Prop where
  | dispatch (cmd : InterfaceCommand) (ts : Timestamp) :
      Step kind trace pool (.dispatched cmd (pool.takeWriter (peerOf cmd))) (kind.dispatch pool ts cmd)
  | lock {pre post pid w msg ts bs} (hpool : pool.futures = pre ++ .send pid w msg ts :: post)
      (hfree : pool.holders w = []) (hbs : writeMessage pool.mode msg ts = .ok bs) :
      Step kind trace pool (.locked w msg ts) { pool with futures := pre ++ .writing pid w msg bs :: post }
  | write {pre post pid w msg bs rest} (hpool : pool.futures = pre ++ .writing pid w msg (bs ++ rest) :: post)
      (hopen : closed w trace = false) :
      Step kind trace pool (.wrote w bs) { pool with futures := pre ++ .writing pid w msg rest :: post }
  | take {pre post pid r chunks buf bs} (hpool : pool.futures = pre ++ .recv pid r chunks buf :: post)
      (hbs : bs.length ≤ wanted buf) :
      Step kind trace pool (.took r bs) { pool with futures := pre ++ .recv pid r chunks (buf ++ bs) :: post }
  | resolve {pre post f event} (hpool : pool.futures = pre ++ f :: post) (hresolves : Resolves m f event)
      (hlock : ∀ pid w, f = .disconnect pid w → pool.holders w = [])
      (hnew : ∀ pid bearer, event = .connected pid bearer → opened bearer trace = false) :
      Step kind trace pool (.resolved f event)
        (TcpConnectionPool.handleInternalEvent { pool with futures := pre ++ post } event).1
  | accept {event} (hkind : kind = .listener) (hresolves : Resolves m .accept event)
      (hnew : ∀ pid bearer, event = .connected pid bearer → opened bearer trace = false) :
      Step kind trace pool (.resolved .accept event) (pool.handleInternalEvent event).1

/-- A run of an interface from its start, with what has happened. -/
inductive Run (kind : Kind) : List Label → TcpConnectionPool → Prop where
  | start : Run kind [] (.new kind.mode)
  | step {trace pool label pool'} (h : Run kind trace pool) (hstep : Step m kind trace pool label pool') :
      Run kind (trace ++ [label]) pool'

end Runs

/-! ### What a step does to the futures of a connection -/

/-- The futures that the event is followed by. -/
def InternalEvent.begins : InternalEvent → List InterfaceFuture
  | connected pid bearer => [.recv pid bearer ∅ []]
  | recv pid _ reader partialChunks => [.recv pid reader partialChunks []]
  | _ => []

/-- Those of them that read the connection. -/
def InternalEvent.reading (r : Socket) (event : InternalEvent) : List InterfaceFuture :=
  event.begins.filter (reads r)

attribute [simp] Label.asked Label.started Label.written Label.closes Label.taken Label.received Label.opens
attribute [simp] holds reads waits InternalEvent.begins

namespace TcpConnectionPool
variable {pool : TcpConnectionPool} {s : Socket} {f f' : InterfaceFuture} {pre post : List InterfaceFuture}

theorem mode_handleInternalEvent (event : InternalEvent) : (pool.handleInternalEvent event).1.mode = pool.mode := by
  cases event <;> rfl

theorem futures_handleInternalEvent (event : InternalEvent) :
    (pool.handleInternalEvent event).1.futures = pool.futures ++ event.begins := by
  cases event <;> simp [handleInternalEvent, onConnected, onDisconnected, onSent, onRecv, onError, pushFuture]

theorem holders_handleInternalEvent (event : InternalEvent) :
    (pool.handleInternalEvent event).1.holders s = pool.holders s := by
  have hnone : event.begins.filter (holds s) = [] := by cases event <;> rfl
  rw [holders, futures_handleInternalEvent, List.filter_append, hnone, List.append_nil, holders]

theorem waiting_handleInternalEvent (event : InternalEvent) :
    (pool.handleInternalEvent event).1.waiting s = pool.waiting s := by
  have hnone : event.begins.flatMap (waits s) = [] := by cases event <;> rfl
  rw [waiting, futures_handleInternalEvent, List.flatMap_append, hnone, List.append_nil, waiting]

theorem readers_handleInternalEvent (event : InternalEvent) :
    (pool.handleInternalEvent event).1.readers s = pool.readers s ++ event.reading s := by
  rw [readers, futures_handleInternalEvent, List.filter_append, readers, InternalEvent.reading]

variable (kind : Kind) (ts : Timestamp) (cmd : InterfaceCommand)

theorem mode_dispatch : (kind.dispatch pool ts cmd).mode = pool.mode := by
  cases cmd with
  | connect pid => cases kind <;> rfl
  | send pid msg => cases h : pool.takeWriter pid <;> simp [Kind.dispatch, dispatchSend, h, pushFuture]
  | disconnect pid => cases h : pool.takeWriter pid <;> simp [Kind.dispatch, dispatchDisconnect, h, pushFuture]

theorem holders_dispatch : (kind.dispatch pool ts cmd).holders s = pool.holders s := by
  cases cmd with
  | connect pid => cases kind <;> simp [Kind.dispatch, holders, pushFuture]
  | send pid msg =>
    cases h : pool.takeWriter pid <;> simp [Kind.dispatch, dispatchSend, h, holders, pushFuture]
  | disconnect pid =>
    cases h : pool.takeWriter pid <;>
      simp [Kind.dispatch, dispatchDisconnect, h, holders, pushFuture]

theorem readers_dispatch : (kind.dispatch pool ts cmd).readers s = pool.readers s := by
  cases cmd with
  | connect pid => cases kind <;> simp [Kind.dispatch, readers, pushFuture]
  | send pid msg =>
    cases h : pool.takeWriter pid <;> simp [Kind.dispatch, dispatchSend, h, readers, pushFuture]
  | disconnect pid =>
    cases h : pool.takeWriter pid <;>
      simp [Kind.dispatch, dispatchDisconnect, h, readers, pushFuture]

theorem waiting_dispatch : (kind.dispatch pool ts cmd).waiting s =
    pool.waiting s ++ (Label.dispatched cmd (pool.takeWriter (peerOf cmd))).asked s := by
  cases cmd with
  | connect pid => cases kind <;> simp [Kind.dispatch, waiting, pushFuture]
  | send pid msg => cases h : pool.takeWriter pid <;> simp [Kind.dispatch, dispatchSend, peerOf, h, waiting, pushFuture]
  | disconnect pid =>
    cases h : pool.takeWriter pid <;> simp [Kind.dispatch, dispatchDisconnect, h, waiting, pushFuture]

variable {p : InterfaceFuture → Bool}

theorem filter_put (hf : p f = true) :
    { pool with futures := pre ++ f :: post }.futures.filter p = pre.filter p ++ f :: post.filter p := by
  simp [hf]

variable (hpool : pool.futures = pre ++ f :: post)
include hpool

theorem filter_at (hf : p f = true) : pool.futures.filter p = pre.filter p ++ f :: post.filter p := by
  simp [hpool, hf]

theorem filter_replace (hf : p f = false) (hf' : p f' = false) :
    { pool with futures := pre ++ f' :: post }.futures.filter p = pool.futures.filter p := by
  simp [hpool, hf, hf']

theorem filter_remove (hf : p f = false) :
    { pool with futures := pre ++ post }.futures.filter p = pool.futures.filter p := by
  simp [hpool, hf]

theorem waiting_replace (hf : f.waits s = []) (hf' : f'.waits s = []) :
    { pool with futures := pre ++ f' :: post }.waiting s = pool.waiting s := by
  simp only [waiting, hpool, List.flatMap_append, List.flatMap_cons, hf, hf']

theorem waiting_remove (hf : f.waits s = []) : { pool with futures := pre ++ post }.waiting s = pool.waiting s := by
  simp only [waiting, hpool, List.flatMap_append, List.flatMap_cons, hf, List.nil_append]

end TcpConnectionPool

/-! ### Writing -/

/-- The bytes of the messages. -/
def wire (mode : Channel) (ms : List (AnyMessage × Timestamp)) : Bytes :=
  (ms.flatMap (AnyMessage.segments mode)).flatten

/-- The futures that hold a writer, the messages that had its lock, the bytes that went out, and whether it is closed. As long
as it is not, these bytes are those of the messages, but for what the holder has yet to write. -/
inductive Writer (mode : Channel) (s : Socket) :
    List InterfaceFuture → List (AnyMessage × Timestamp) → Bytes → Bool → Prop where
  | free {ms} : Writer mode s [] ms (wire mode ms) false
  | held {ms pid msg bs rest} (h : bs ++ rest = wire mode ms) : Writer mode s [.writing pid s msg rest] ms bs false
  | closed {holders ms bs} (h : bs <+: wire mode ms) : Writer mode s holders ms bs true

section Writing
variable {mode : Channel} {s : Socket} {holders pre post : List InterfaceFuture} {ms : List (AnyMessage × Timestamp)}
variable {bs bs' rest : Bytes} {c : Bool} {pid : PeerId} {msg : AnyMessage} {ts : Timestamp}

theorem Writer.front (h : Writer mode s holders ms bs c) : bs <+: wire mode ms := by
  cases h with
  | free => exact List.prefix_rfl
  | held h => exact ⟨_, h⟩
  | closed h => exact h

theorem Writer.shut (h : Writer mode s holders ms bs c) (holders' : List InterfaceFuture) :
    Writer mode s holders' ms bs true :=
  .closed h.front

theorem Writer.aside (h : Writer mode s holders ms bs c) (closes : Bool) : Writer mode s holders ms bs (c || closes) := by
  cases closes with
  | false => rwa [Bool.or_false]
  | true =>
    rw [Bool.or_true]
    exact h.shut holders

theorem Writer.lock (h : Writer mode s [] ms bs c) (hrest : writeMessage mode msg ts = .ok rest) :
    Writer mode s [.writing pid s msg rest] (ms ++ [(msg, ts)]) bs c := by
  have hwire : wire mode (ms ++ [(msg, ts)]) = wire mode ms ++ rest := by
    rw [writeMessage_eq_ok hrest]
    simp [wire]
  cases h with
  | free => exact .held hwire.symm
  | closed h => exact .closed (h.trans (by rw [hwire]; exact List.prefix_append _ _))

theorem Writer.holder (h : Writer mode s (pre ++ .writing pid s msg rest :: post) ms bs false) :
    pre = [] ∧ post = [] ∧ bs ++ rest = wire mode ms := by
  generalize hholders : pre ++ .writing pid s msg rest :: post = holders at h
  cases h with
  | free => simp at hholders
  | held h =>
    cases pre with
    | nil =>
      cases hholders
      exact ⟨rfl, rfl, h⟩
    | cons f pre => simp at hholders

theorem Writer.done (h : Writer mode s (pre ++ .writing pid s msg [] :: post) ms bs c) :
    Writer mode s (pre ++ post) ms bs c := by
  cases c with
  | false =>
    obtain ⟨rfl, rfl, hbs⟩ := h.holder
    rw [List.append_nil] at hbs
    rw [hbs]
    exact .free
  | true => exact h.shut _

end Writing

/-! ### Reading -/

/-- The future that reads a connection, the bytes it has taken, the messages it has received, and whether there is such a
connection. These messages are what its segments return, of which the last may not be there in full. -/
inductive Reader {ε : Type} (m : MinicborValues ε) (r : Socket) :
    List InterfaceFuture → Bytes → List AnyMessage → Bool → Prop where
  | unopened : Reader m r [] [] [] false
  | reading {pid} {raws : List Bytes} {partialChunks buf reads} (hraws : ∀ raw ∈ raws, IsSegment raw) (hbuf : Within buf)
      (hreads : readAll m ∅ (raws.map segmentOf) = (reads, partialChunks)) :
      Reader m r [.recv pid r partialChunks buf] (raws.flatten ++ buf) (returned reads) true
  | broken {raws : List Bytes} {buf} (hraws : ∀ raw ∈ raws, IsSegment raw) :
      Reader m r [] (raws.flatten ++ buf) (returned (readAll m ∅ (raws.map segmentOf)).1) true

section Reading
variable {ε : Type} {m : MinicborValues ε} {r reader : Socket} {readers pre post : List InterfaceFuture} {bs bs' buf : Bytes}
variable {msgs : List AnyMessage} {c : Bool} {pid : PeerId} {partialChunks : ChunkBuffer} {segment : Channel × Payload}

theorem Reader.segments (h : Reader m r readers bs msgs c) :
    ∃ (raws : List Bytes) (buf : Bytes), (∀ raw ∈ raws, IsSegment raw) ∧ bs = raws.flatten ++ buf ∧
      msgs = returned (readAll m ∅ (raws.map segmentOf)).1 := by
  cases h with
  | unopened => exact ⟨[], [], List.forall_mem_nil _, rfl, rfl⟩
  | reading hraws _ hreads => exact ⟨_, _, hraws, rfl, by rw [hreads]⟩
  | broken hraws => exact ⟨_, _, hraws, rfl, rfl⟩

theorem Reader.connected (h : Reader m r readers bs msgs c) (pid : PeerId) (hnew : reader = r → c = false) :
    Reader m r (readers ++ (InternalEvent.connected pid reader).reading r) bs msgs (c || decide (reader = r)) := by
  by_cases hreader : reader = r
  · obtain rfl := hnew hreader
    have hfirst : Reader m r [.recv pid r ∅ []] (([] : List Bytes).flatten ++ []) (returned []) true :=
      .reading (List.forall_mem_nil _) within_nil rfl
    cases h with
    | unopened => simpa [InternalEvent.reading, hreader, returned] using hfirst
  · simpa [InternalEvent.reading, hreader] using h

theorem Reader.alone (h : Reader m r (pre ++ .recv pid r partialChunks buf :: post) bs msgs c) :
    pre = [] ∧ post = [] ∧ Reader m r [.recv pid r partialChunks buf] bs msgs c := by
  generalize hreaders : pre ++ .recv pid r partialChunks buf :: post = readers at h
  have hsingle : pre = [] ∧ post = [] := by
    cases h with
    | unopened => simp at hreaders
    | reading =>
      cases pre with
      | nil =>
        cases hreaders
        exact ⟨rfl, rfl⟩
      | cons f pre => simp at hreaders
    | broken => simp at hreaders
  obtain ⟨rfl, rfl⟩ := hsingle
  rw [List.nil_append] at hreaders
  rw [hreaders]
  exact ⟨rfl, rfl, h⟩

theorem Reader.take (h : Reader m r [.recv pid r partialChunks buf] bs msgs c) (hbs : bs'.length ≤ wanted buf) :
    Reader m r [.recv pid r partialChunks (buf ++ bs')] (bs ++ bs') msgs c := by
  cases h with
  | reading hraws hbuf hreads =>
    rw [List.append_assoc]
    exact .reading hraws (hbuf.append hbs) hreads

theorem Reader.next (h : Reader m r [.recv pid r partialChunks buf] bs msgs c) (hsegment : readSegment buf = some segment) :
    Reader m r [.recv pid r (readFullMsgs m partialChunks segment).2 []] bs
      (msgs ++ (readFullMsgs m partialChunks segment).1) c := by
  cases h with
  | @reading _ raws _ _ reads hraws hbuf hreads =>
    obtain ⟨hwhole, rfl⟩ := readSegment_eq_some hbuf hsegment
    have hnext : Reader m r [.recv pid r (readFullMsgs m partialChunks (segmentOf buf)).2 []]
        ((raws ++ [buf]).flatten ++ []) (returned (reads ++
          [((segmentOf buf).1, (readFullMsgs m partialChunks (segmentOf buf)).1)])) true := by
      refine .reading (List.forall_mem_append.2 ⟨hraws, List.forall_mem_singleton.2 hwhole⟩) within_nil ?_
      rw [List.map_append, readAll_append, hreads]
      rfl
    simpa [returned] using hnext

theorem Reader.fail (h : Reader m r [.recv pid r partialChunks buf] bs msgs c) : Reader m r [] bs msgs c := by
  cases h with
  | @reading _ raws _ _ reads hraws hbuf hreads =>
    have hbroken : Reader m r [] (raws.flatten ++ buf) (returned (readAll m ∅ (raws.map segmentOf)).1) true :=
      .broken hraws
    rwa [hreads] at hbroken

end Reading

/-! ### Steps and runs -/

section Invariants
open TcpConnectionPool
variable {ε : Type} {m : MinicborValues ε} {kind : Kind} {trace : List Label} {pool pool' : TcpConnectionPool} {label : Label}
variable {s r : Socket} {ms : List (AnyMessage × Timestamp)} {bs : Bytes} {msgs asks : List AnyMessage}

theorem Step.mode (hstep : Step m kind trace pool label pool') : pool'.mode = pool.mode := by
  cases hstep with
  | dispatch => exact mode_dispatch ..
  | resolve => exact mode_handleInternalEvent _
  | accept => exact mode_handleInternalEvent _
  | _ => rfl

theorem Step.writer (hmode : pool.mode = kind.mode) (hstep : Step m kind trace pool label pool')
    (h : Writer kind.mode s (pool.holders s) ms bs (closed s trace)) :
    Writer kind.mode s (pool'.holders s) (ms ++ label.started s) (bs ++ label.written s)
      (closed s trace || label.closes s) := by
  -- a step that neither locks this writer nor writes to it
  have haside : ∀ holders', holders' = pool.holders s → label.started s = [] → label.written s = [] →
      Writer kind.mode s holders' (ms ++ label.started s) (bs ++ label.written s) (closed s trace || label.closes s) := by
    rintro _ rfl hstarted hwritten
    rw [hstarted, hwritten, List.append_nil, List.append_nil]
    exact h.aside _
  cases hstep with
  | dispatch => exact haside _ (holders_dispatch ..) rfl rfl
  | @lock pre post pid w msg ts rest hpool hfree hrest =>
    by_cases hw : w = s
    · subst hw
      rw [hmode] at hrest
      have hnone : pre.filter (holds w) = [] ∧ post.filter (holds w) = [] := by
        simpa [holders, hpool] using hfree
      rw [hfree] at h
      have hlocked : Writer kind.mode w [.writing pid w msg rest] (ms ++ [(msg, ts)]) bs (closed w trace) := h.lock hrest
      rw [holders, filter_put (f := .writing pid w msg rest)
        (by simp), hnone.1, hnone.2]
      simpa using hlocked
    · refine haside _ (filter_replace hpool rfl ?_) ?_ rfl
      · simp [hw]
      · simp [hw]
  | @write pre post pid w msg out rest hpool hopen =>
    by_cases hw : w = s
    · subst hw
      rw [hopen, holders, filter_at hpool (by simp)] at h
      obtain ⟨hpre, hpost, hbs⟩ := h.holder
      rw [← List.append_assoc] at hbs
      have hheld : Writer kind.mode w [.writing pid w msg rest] ms (bs ++ out) false := .held hbs
      rw [holders, filter_put (f := .writing pid w msg rest)
        (by simp), hpre, hpost]
      simpa [hopen] using hheld
    · refine haside _ (filter_replace hpool ?_ ?_) rfl ?_
      · simp [hw]
      · simp [hw]
      · simp [hw]
  | take hpool => exact haside _ (filter_replace hpool rfl rfl) rfl rfl
  | @resolve pre post f event hpool hresolves hlock hnew =>
    rw [holders_handleInternalEvent]
    cases hresolves with
    | @sent pid w msg =>
      by_cases hw : w = s
      · subst hw
        rw [holders, filter_at hpool (by simp)] at h
        rw [holders, List.filter_append]
        simpa using h.done
      · exact haside _ (filter_remove hpool (by simp [hw])) rfl rfl
    | @writeError pid w msg rest error =>
      by_cases hw : w = s
      · subst hw
        simpa using h.shut _
      · exact haside _ (filter_remove hpool (by simp [hw])) rfl rfl
    | _ => exact haside _ (filter_remove hpool rfl) rfl rfl
  | accept => exact haside _ (holders_handleInternalEvent _) rfl rfl

theorem Step.reader (hstep : Step m kind trace pool label pool')
    (h : Reader m r (pool.readers r) bs msgs (opened r trace)) :
    Reader m r (pool'.readers r) (bs ++ label.taken r) (msgs ++ label.received r) (opened r trace || label.opens r) := by
  -- a step that does not concern the one that reads
  have haside : ∀ readers', readers' = pool.readers r → label.taken r = [] → label.received r = [] →
      label.opens r = false →
      Reader m r readers' (bs ++ label.taken r) (msgs ++ label.received r) (opened r trace || label.opens r) := by
    rintro _ rfl htaken hreceived hopens
    rw [htaken, hreceived, hopens, List.append_nil, List.append_nil, Bool.or_false]
    exact h
  cases hstep with
  | dispatch => exact haside _ (readers_dispatch ..) rfl rfl rfl
  | lock hpool => exact haside _ (filter_replace hpool rfl rfl) rfl rfl rfl
  | write hpool => exact haside _ (filter_replace hpool rfl rfl) rfl rfl rfl
  | @take pre post pid reader chunks buf taking hpool hbs =>
    by_cases hreader : reader = r
    · subst hreader
      rw [readers, filter_at hpool (by simp)] at h
      obtain ⟨hpre, hpost, h⟩ := h.alone
      rw [readers, filter_put (f := .recv pid reader chunks (buf ++ taking))
        (by simp), hpre, hpost, List.nil_append]
      simpa using h.take hbs
    · refine haside _ (filter_replace hpool ?_ ?_) ?_ rfl rfl
      · simp [hreader]
      · simp [hreader]
      · simp [hreader]
  | @resolve pre post f event hpool hresolves hlock hnew =>
    rw [readers_handleInternalEvent]
    have hremove : f.reads r = false → { pool with futures := pre ++ post }.readers r = pool.readers r :=
      filter_remove hpool
    cases hresolves with
    | @recv pid reader chunks buf segment hsegment =>
      by_cases hreader : reader = r
      · subst hreader
        rw [readers, filter_at hpool (by simp)] at h
        obtain ⟨hpre, hpost, h⟩ := h.alone
        rw [readers, List.filter_append, hpre, hpost]
        simpa [InternalEvent.reading]
          using h.next hsegment
      · refine haside _ ?_ rfl ?_ rfl
        · rw [hremove (by simp [hreader])]
          simp [InternalEvent.reading, hreader]
        · simp [hreader]
    | @readError pid reader chunks buf error =>
      by_cases hreader : reader = r
      · subst hreader
        rw [readers, filter_at hpool (by simp)] at h
        obtain ⟨hpre, hpost, h⟩ := h.alone
        rw [readers, List.filter_append, hpre, hpost]
        simpa [InternalEvent.reading] using h.fail
      · have hrest := hremove (by simp [hreader])
        exact haside _ ((List.append_nil _).trans hrest) rfl rfl rfl
    | @connected pid bearer =>
      have hconnected := h.connected pid fun hbearer => hbearer ▸ hnew pid bearer rfl
      rw [hremove rfl]
      simpa using hconnected
    | @accepted pid bearer =>
      have hconnected := h.connected pid fun hbearer => hbearer ▸ hnew pid bearer rfl
      rw [hremove rfl]
      simpa using hconnected
    | _ => exact haside _ ((List.append_nil _).trans (hremove rfl)) rfl rfl rfl
  | accept hkind hresolves hnew =>
    rw [readers_handleInternalEvent]
    cases hresolves with
    | @accepted pid bearer =>
      have hconnected := h.connected pid fun hbearer => hbearer ▸ hnew pid bearer rfl
      simpa using hconnected
    | acceptError => exact haside _ (List.append_nil _) rfl rfl rfl

theorem Step.queue (hstep : Step m kind trace pool label pool')
    (h : asks.Perm (ms.map Prod.fst ++ pool.waiting s)) :
    (asks ++ label.asked s).Perm ((ms ++ label.started s).map Prod.fst ++ pool'.waiting s) := by
  -- a step that neither asks for a message to be sent nor begins to send one
  have haside : ∀ waiting', waiting' = pool.waiting s → label.asked s = [] → label.started s = [] →
      (asks ++ label.asked s).Perm ((ms ++ label.started s).map Prod.fst ++ waiting') := by
    rintro _ rfl hasked hstarted
    rw [hasked, hstarted, List.append_nil, List.append_nil]
    exact h
  cases hstep with
  | dispatch cmd ts =>
    have hstarted : (Label.dispatched cmd (pool.takeWriter (peerOf cmd))).started s = [] := rfl
    rw [waiting_dispatch, hstarted, List.append_nil, ← List.append_assoc]
    exact h.append_right _
  | @lock pre post pid w msg ts rest hpool hfree hrest =>
    by_cases hw : w = s
    · subst hw
      have hbefore : pool.waiting w =
          pre.flatMap (waits w) ++ msg :: post.flatMap (waits w) := by
        simp [waiting, hpool]
      have hafter : { pool with futures := pre ++ InterfaceFuture.writing pid w msg rest :: post }.waiting w =
          pre.flatMap (waits w) ++ post.flatMap (waits w) := by
        simp [waiting]
      rw [hbefore] at h
      have hnext : (pre.flatMap (waits w) ++ msg :: post.flatMap (waits w)).Perm
          (msg :: (pre.flatMap (waits w) ++ post.flatMap (waits w))) :=
        List.perm_middle
      rw [hafter]
      simpa using h.trans (hnext.append_left _)
    · refine haside _ (waiting_replace hpool ?_ rfl) rfl ?_
      · simp [hw]
      · simp [hw]
  | write hpool => exact haside _ (waiting_replace hpool rfl rfl) rfl rfl
  | take hpool => exact haside _ (waiting_replace hpool rfl rfl) rfl rfl
  | resolve hpool hresolves hlock hnew =>
    refine haside _ ?_ rfl rfl
    rw [waiting_handleInternalEvent]
    cases hresolves <;> exact waiting_remove hpool rfl
  | accept => exact haside _ (waiting_handleInternalEvent _) rfl rfl

theorem Run.mode (hrun : Run m kind trace pool) : pool.mode = kind.mode := by
  induction hrun with
  | start => rfl
  | step h hstep ih => exact hstep.mode.trans ih

theorem Run.writer (hrun : Run m kind trace pool) (s : Socket) :
    Writer kind.mode s (pool.holders s) (started s trace) (written s trace) (closed s trace) := by
  induction hrun with
  | start => exact .free
  | step h hstep ih =>
    simpa [started, written, closed] using hstep.writer h.mode ih

theorem Run.reader (hrun : Run m kind trace pool) (r : Socket) :
    Reader m r (pool.readers r) (taken r trace) (received r trace) (opened r trace) := by
  induction hrun with
  | start => exact .unopened
  | step h hstep ih =>
    simpa [taken, received, opened] using hstep.reader ih

theorem Run.queue (hrun : Run m kind trace pool) (s : Socket) :
    (asked s trace).Perm ((started s trace).map Prod.fst ++ pool.waiting s) := by
  induction hrun with
  | start => exact List.Perm.refl _
  | step h hstep ih =>
    simpa [asked, started] using hstep.queue ih

end Invariants

/-! ### Between two interfaces -/

/-- Of two ends of a connection: all that one has begun to send is written, and the other has taken it and waits for more. -/
structure Quiet (trace trace' : List Label) (pool pool' : TcpConnectionPool) (s r : Socket) : Prop where
  idle : pool.holders s = []
  unclosed : closed s trace = false
  through : taken r trace' = written s trace
  waits : ∃ pid partialChunks, InterfaceFuture.recv pid r partialChunks [] ∈ pool'.futures

section Ends
variable {ε : Type} {m : MinicborValues ε} {kind kind' : Kind} {trace trace' : List Label} {pool pool' : TcpConnectionPool}
variable {s r : Socket} {mode : Channel} {ms : List (AnyMessage × Timestamp)}

theorem Kind.mode_eq (kind : Kind) : kind.mode = 0 ∨ kind.mode = protocolServer := by
  cases kind with
  | tcp => exact .inl rfl
  | listener => exact .inr rfl

theorem isSegment_of_mem_wire {raw : Bytes} (h : raw ∈ ms.flatMap (AnyMessage.segments mode)) : IsSegment raw := by
  obtain ⟨x, -, hraw⟩ := List.mem_flatMap.1 h
  exact isSegment_of_mem_segments hraw

theorem Quiet.segments (h : Quiet trace trace' pool pool' s r) (hrun : Run m kind trace pool)
    (hrun' : Run m kind' trace' pool') :
    received r trace' = returned (readAll m ∅
      (((started s trace).flatMap (AnyMessage.segments kind.mode)).map segmentOf)).1 := by
  obtain ⟨pid, chunks, hwaits⟩ := h.waits
  have hwritten : written s trace = wire kind.mode (started s trace) := by
    have hwriter := hrun.writer s
    rw [h.idle, h.unclosed] at hwriter
    generalize written s trace = bs at hwriter
    cases hwriter with
    | free => rfl
  have hreads : InterfaceFuture.recv pid r chunks [] ∈ pool'.readers r :=
    List.mem_filter.2 ⟨hwaits, by simp⟩
  have hreader := hrun'.reader r
  rw [h.through, hwritten] at hreader
  generalize pool'.readers r = readers at hreader hreads
  generalize hbytes : wire kind.mode (started s trace) = bytes at hreader
  generalize received r trace' = msgs at hreader ⊢
  generalize opened r trace' = c at hreader
  cases hreader with
  | unopened => cases hreads
  | broken => cases hreads
  | @reading _ raws _ buf reads hraws hbuf hall =>
    cases List.mem_singleton.1 hreads
    rw [List.append_nil] at hbytes
    have hsegments := segments_prefixCode.eq_of_flatten hraws (fun _ h => isSegment_of_mem_wire h) hbytes.symm
    rw [← hsegments, hall]

/-- What one end receives are the first messages that the other has begun to send, in their order, and these are messages it was
asked to send, each as often as it was asked to, but for those that wait. When nothing is under way, all have been received. -/
theorem received_in_order (hm : m.Lawful) (hrun : Run m kind trace pool) (hrun' : Run m kind' trace' pool')
    (hasked : ∀ msg ∈ asked s trace, msg.Recoverable m) (hstream : taken r trace' <+: written s trace) :
    received r trace' <+: (started s trace).map Prod.fst ∧
      (asked s trace).Perm ((started s trace).map Prod.fst ++ pool.waiting s) ∧
      (Quiet trace trace' pool pool' s r → received r trace' = (started s trace).map Prod.fst) := by
  have hqueue := hrun.queue s
  have hrecoverable : ∀ x ∈ started s trace, x.1.Recoverable m := by
    intro x hx
    exact hasked x.1 (hqueue.mem_iff.2 (List.mem_append_left _ (List.mem_map_of_mem hx)))
  refine ⟨?_, hqueue, fun hquiet => ?_⟩
  · obtain ⟨raws, buf, hraws, htaken, hreceived⟩ := (hrun'.reader r).segments
    rw [htaken] at hstream
    have hfirst : raws <+: (started s trace).flatMap (AnyMessage.segments kind.mode) :=
      segments_prefixCode.prefix_of_flatten hraws (fun _ h => isSegment_of_mem_wire h) (hstream.trans (hrun.writer s).front)
    rw [hreceived]
    exact (readAll_segments hm kind.mode_eq hrecoverable (keeps_empty 0) hfirst).1
  · rw [hquiet.segments hrun hrun']
    exact (readAll_segments hm kind.mode_eq hrecoverable (keeps_empty 0) List.prefix_rfl).2 rfl

end Ends

/-! ### A keep-alive and a request for peers -/

section TwoMessages

/-- What either end calls the other. -/
def peer : PeerId := ⟨"peer", 3001⟩

def keepAlive : AnyMessage := .keepAlive (.keepAlive 5)

def shareRequest : AnyMessage := .peerSharing (.shareRequest 3)

def keepAliveBytes : Bytes := writeSegment 8 0 [0x82, 0x00, 0x05]

def shareRequestBytes : Bytes := writeSegment 10 0 [0x82, 0x00, 0x03]

/-- It connects, and is asked for both messages before it sends the one and then the other. -/
def sending : List Label :=
  [.dispatched (.connect peer) none, .resolved (.connect peer) (.connected peer 0),
    .dispatched (.send peer keepAlive) (some 0), .dispatched (.send peer shareRequest) (some 0),
    .locked 0 keepAlive 0, .wrote 0 keepAliveBytes, .resolved (.writing peer 0 keepAlive []) (.sent peer keepAlive),
    .locked 0 shareRequest 0, .wrote 0 shareRequestBytes,
    .resolved (.writing peer 0 shareRequest []) (.sent peer shareRequest)]

/-- What the reads of the segments have. -/
def keepAliveRead : List AnyMessage × ChunkBuffer := readFullMsgs .reference ∅ (8, [0x82, 0x00, 0x05])

def shareRequestRead : List AnyMessage × ChunkBuffer := readFullMsgs .reference keepAliveRead.2 (10, [0x82, 0x00, 0x03])

/-- It accepts the connection and takes the first header alone, and has the one message and then the other. -/
def receiving : List Label :=
  [.resolved .accept (.connected peer 7), .took 7 (keepAliveBytes.take headerLen), .took 7 (keepAliveBytes.drop headerLen),
    .resolved (.recv peer 7 ∅ keepAliveBytes) (.recv peer keepAliveRead.1 7 keepAliveRead.2),
    .took 7 (shareRequestBytes.take headerLen), .took 7 (shareRequestBytes.drop headerLen),
    .resolved (.recv peer 7 keepAliveRead.2 shareRequestBytes) (.recv peer shareRequestRead.1 7 shareRequestRead.2)]

def sender : TcpConnectionPool := ⟨[.recv peer 0 ∅ []], Finmap.insert peer 0 ∅, 0⟩

def receiver : TcpConnectionPool := ⟨[.recv peer 7 shareRequestRead.2 []], Finmap.insert peer 7 ∅, protocolServer⟩

theorem writeMessage_short {msg : AnyMessage} {raw : Channel} {b : UInt8} (hpayload : msg.payload = .ok [0x82, 0x00, b])
    (hraw : msg.channel ||| 0 = raw) : writeMessage 0 msg 0 = .ok (writeSegment raw 0 [0x82, 0x00, b]) := by
  have hchunks : msgChunks [0x82, 0x00, b] = [[0x82, 0x00, b]] := by
    simp [msgChunks, chunks, maxSegmentPayloadLength]
  rw [writeMessage, hpayload]
  show Except.ok (segmentsOf 0 msg.channel 0 [0x82, 0x00, b]).flatten = _
  rw [segmentsOf, hchunks, hraw, List.map_singleton, List.flatten_singleton]

theorem run_sending : Run .reference .tcp sending sender := by
  have hconnect := (@Run.start _ .reference .tcp).step (.dispatch (.connect peer) 0)
  have hconnected := hconnect.step (@Step.resolve _ _ _ _ _ [] [] _ (.connected peer 0) rfl .connected
    (by rintro _ _ ⟨⟩) (by rintro _ _ _; rfl))
  have hsend := (hconnected.step (.dispatch (.send peer keepAlive) 0)).step (.dispatch (.send peer shareRequest) 0)
  have hlocked := hsend.step (@Step.lock _ _ _ _ _ [.recv peer 0 ∅ []] [.send peer 0 shareRequest 0] peer 0 keepAlive 0
    keepAliveBytes rfl rfl (writeMessage_short rfl rfl))
  have hwrote := hlocked.step (@Step.write _ _ _ _ _ [.recv peer 0 ∅ []] [.send peer 0 shareRequest 0] peer 0 keepAlive
    keepAliveBytes [] rfl rfl)
  have hsent := hwrote.step (@Step.resolve _ _ _ _ _ [.recv peer 0 ∅ []] [.send peer 0 shareRequest 0] _
    (.sent peer keepAlive) rfl .sent (by rintro _ _ ⟨⟩) (by rintro _ _ ⟨⟩))
  have hlocked := hsent.step (@Step.lock _ _ _ _ _ [.recv peer 0 ∅ []] [] peer 0 shareRequest 0 shareRequestBytes rfl rfl
    (writeMessage_short rfl rfl))
  have hwrote := hlocked.step (@Step.write _ _ _ _ _ [.recv peer 0 ∅ []] [] peer 0 shareRequest shareRequestBytes [] rfl
    rfl)
  exact hwrote.step (@Step.resolve _ _ _ _ _ [.recv peer 0 ∅ []] [] _ (.sent peer shareRequest) rfl .sent
    (by rintro _ _ ⟨⟩) (by rintro _ _ ⟨⟩))

theorem run_receiving : Run .reference .listener receiving receiver := by
  have haccepted := (@Run.start _ .reference .listener).step
    (@Step.accept _ _ _ _ _ (.connected peer 7) rfl .accepted (by rintro _ _ _; rfl))
  have hheader := haccepted.step (@Step.take _ _ _ _ _ [] [] peer 7 ∅ [] (keepAliveBytes.take headerLen) rfl (by decide))
  have hpayload := hheader.step (@Step.take _ _ _ _ _ [] [] peer 7 ∅ (keepAliveBytes.take headerLen)
    (keepAliveBytes.drop headerLen) rfl (by decide))
  have hread := hpayload.step (@Step.resolve _ _ _ _ _ [] [] _ (.recv peer keepAliveRead.1 7 keepAliveRead.2) rfl
    (.recv rfl) (by rintro _ _ ⟨⟩) (by rintro _ _ ⟨⟩))
  have hheader := hread.step (@Step.take _ _ _ _ _ [] [] peer 7 keepAliveRead.2 [] (shareRequestBytes.take headerLen) rfl
    (by decide))
  have hpayload := hheader.step (@Step.take _ _ _ _ _ [] [] peer 7 keepAliveRead.2 (shareRequestBytes.take headerLen)
    (shareRequestBytes.drop headerLen) rfl (by decide))
  exact hpayload.step (@Step.resolve _ _ _ _ _ [] [] _ (.recv peer shareRequestRead.1 7 shareRequestRead.2) rfl
    (.recv rfl) (by rintro _ _ ⟨⟩) (by rintro _ _ ⟨⟩))

theorem quiet_messages : Quiet sending receiving sender receiver 0 7 where
  idle := rfl
  unclosed := rfl
  through := by decide
  waits := ⟨_, _, List.mem_singleton_self _⟩

theorem received_keepAlive : received 7 receiving = [keepAlive, shareRequest] := by
  have hrecoverable : ∀ msg ∈ asked 0 sending, msg.Recoverable .reference := by
    refine List.forall_mem_cons.2 ⟨?_, List.forall_mem_singleton.2 ?_⟩
    · exact AnyMessage.keepAlive_recoverable MinicborValues.reference_lawful (by decide)
    · exact AnyMessage.peerSharing_recoverable MinicborValues.reference_lawful (by decide)
  exact (received_in_order (s := 0) (r := 7) MinicborValues.reference_lawful run_sending run_receiving
    hrecoverable (by decide)).2.2 quiet_messages

end TwoMessages
end Pallas.Network2.Interface
