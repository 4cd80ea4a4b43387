import Pallas.Lib.Agents

/-!
# Calls on the two sides of a protocol

An asynchronous function of an agent waits at certain points. At each it does one operation, and what comes of that says
at which point it goes on or what it returns; an error of the operation ends it. A `Program` is an agent with functions
that are called on it, one call after the other whatever they return, and a `Dialogue` is two of them with a queue in each
direction, whose steps may come in any order.

The order does not matter. A step of one side takes a message off the front of a queue, one of the other puts messages at
its end, and so the two commute. Where the steps of a system commute, all of its runs come to the end that one of them
comes to, in as many steps (`Steps.settles`).
-/

/-! ### Steps that commute -/

section Commuting
variable {σ ι : Type*} {step : σ → ι → σ → Prop} {s t u z : σ} {i : ι} {m n : ℕ}

/-- So many steps. -/
inductive Steps (step : σ → ι → σ → Prop) : ℕ → σ → σ → Prop where
  | refl {s : σ} : Steps step 0 s s
  | head {s t u : σ} {i : ι} {n : ℕ} : step s i t → Steps step n t u → Steps step (n + 1) s u

theorem Steps.trans (h : Steps step m s t) (h' : Steps step n t u) : Steps step (m + n) s u := by
  induction h with
  | refl => rwa [Nat.zero_add]
  | head hstep _ ih =>
    rw [Nat.add_right_comm]
    exact .head hstep (ih h')

theorem Steps.run {init : σ → Prop} {tr : List (Transition σ ι)} (hrun : Run init step tr s) (h : Steps step n s z) :
    ∃ post, post.length = n ∧ Run init step (tr ++ post) z := by
  induction h generalizing tr with
  | refl => exact ⟨[], rfl, by rwa [List.append_nil]⟩
  | @head s t u i n hstep _ ih =>
    obtain ⟨post, hlen, hpost⟩ := ih (hrun.next hstep)
    refine ⟨⟨s, i, t⟩ :: post, by rw [List.length_cons, hlen], ?_⟩
    rwa [List.append_assoc] at hpost

/-- One input takes a state to one state, and two inputs may be taken in either order. -/
structure Commutes (step : σ → ι → σ → Prop) : Prop where
  functional : ∀ {s t u i}, step s i t → step s i u → t = u
  diamond : ∀ {s t u i j}, i ≠ j → step s i t → step s j u → ∃ v, step t j v ∧ step u i v

/-- No step leads on. -/
def Stuck (step : σ → ι → σ → Prop) (s : σ) : Prop := ∀ i t, ¬ step s i t

/-- The first step on the way to the end may be any that can be taken. -/
theorem Steps.tail (hcomm : Commutes step) (hz : Stuck step z) (h : Steps step n s z) (hstep : step s i t) :
    ∃ m, n = m + 1 ∧ Steps step m t z := by
  induction h generalizing i t with
  | refl => exact absurd hstep (hz i t)
  | @head s u z j n hfirst hrest ih =>
    by_cases hij : i = j
    · subst hij
      obtain rfl := hcomm.functional hstep hfirst
      exact ⟨n, rfl, hrest⟩
    · obtain ⟨v, htv, huv⟩ := hcomm.diamond hij hstep hfirst
      obtain ⟨m, rfl, hv⟩ := ih hz huv
      exact ⟨m + 1, rfl, .head htv hv⟩

/-- All runs from the start come to the end `z`, and it takes `n` steps to come there. -/
structure Settles (step : σ → ι → σ → Prop) (start : σ) (n : ℕ) (z : σ) : Prop where
  goesOn : ∀ {tr s}, Run (· = start) step tr s → ∃ post, tr.length + post.length = n ∧ Run (· = start) step (tr ++ post) z
  ends : ∀ {tr s}, Run (· = start) step tr s → Stuck step s → s = z

theorem Steps.remaining (hcomm : Commutes step) (hz : Stuck step z) {start : σ} (h : Steps step n start z)
    {tr : List (Transition σ ι)} (hrun : Run (· = start) step tr s) : ∃ m, n = tr.length + m ∧ Steps step m s z := by
  induction hrun with
  | start hs =>
    rw [hs]
    exact ⟨n, (Nat.zero_add n).symm, h⟩
  | next _ hstep ih =>
    obtain ⟨m, hn, hm⟩ := ih
    obtain ⟨k, rfl, hk⟩ := hm.tail hcomm hz hstep
    exact ⟨k, by rw [hn, List.length_append, List.length_singleton, Nat.add_assoc, Nat.add_comm 1], hk⟩

/-- One way to the end is enough. -/
theorem Steps.settles (hcomm : Commutes step) (hz : Stuck step z) {start : σ} (h : Steps step n start z) :
    Settles step start n z where
  goesOn hrun := by
    obtain ⟨m, hn, hm⟩ := h.remaining hcomm hz hrun
    obtain ⟨post, rfl, hpost⟩ := hm.run hrun
    exact ⟨post, hn.symm, hpost⟩
  ends hrun hstuck := by
    obtain ⟨m, -, hm⟩ := h.remaining hcomm hz hrun
    cases hm with
    | refl => rfl
    | head hstep _ => exact absurd hstep (hstuck _ _)

end Commuting

namespace Turns
variable {S M ε δ ρ κ α : Type}

/-! ### One side -/

/-- After an operation a function goes on at a point, or returns. -/
inductive Next (P ρ : Type) where
  | goto (point : P)
  | ret (result : ρ)

/-- What is done with the result of an operation. -/
def Operation.andThen {β : Type} (op : Operation S M ε ρ) (f : ρ → β) : Operation S M ε β :=
  match op with
  | send msg next result => send msg next (f result)
  | recv guard arms => recv guard fun msg => (arms msg).map fun (next, result) => (next, result.map f)

theorem Operation.run_append {agent : Agent S M ε} {op : Operation S M ε ρ} {s : S} {inbox : List M}
    {e : Effect S M ε ρ} (h : op.run agent s inbox = some e) (more : List M) :
    op.run agent s (inbox ++ more) = some { e with inbox := e.inbox ++ more } := by
  cases op with
  | send msg next result =>
    cases hagency : agent.hasAgency s with
    | false =>
      simp only [run, hagency] at h ⊢
      cases h
      rfl
    | true =>
      cases hout : agent.assertOutboundState s msg <;> simp only [run, hagency, hout] at h ⊢ <;> cases h <;> rfl
  | recv guard arms =>
    cases hguard : guard s with
    | error e =>
      simp only [run, hguard] at h ⊢
      cases h
      rfl
    | ok =>
      cases hagency : agent.hasAgency s with
      | true =>
        simp only [run, hguard, hagency] at h ⊢
        cases h
        rfl
      | false =>
        cases inbox with
        | nil =>
          simp only [run, hguard, hagency] at h
          cases h
        | cons msg rest =>
          cases hin : agent.assertInboundState s msg with
          | error e =>
            simp only [run, hguard, hagency, hin, List.cons_append] at h ⊢
            cases h
            rfl
          | ok =>
            cases harms : arms msg <;>
              simp only [run, hguard, hagency, hin, harms, List.cons_append] at h ⊢ <;> cases h <;> rfl

/-- An agent, and functions of it that are called. How far a function comes before it first waits may depend on the
state. -/
structure Program (S M ε κ α : Type) where
  agent : Agent S M ε
  Point : Type
  start : κ → S → Point
  next : Point → Operation S M ε (Next Point (Except ε α))

/-- The state of the agent, the point of the call that is under way, the calls after it, and what those before it have
returned. -/
structure Caller (p : Program S M ε κ α) where
  state : S
  point : Option p.Point
  calls : List κ
  results : List (Except ε α)

/-- What a step of one side leaves behind. -/
structure Progress (p : Program S M ε κ α) where
  caller : Caller p
  inbox : List M
  sent : List M

namespace Caller
variable {p : Program S M ε κ α}

/-- The next call is made. -/
def call (p : Program S M ε κ α) (state : S) (calls : List κ) (results : List (Except ε α)) : Caller p :=
  match calls with
  | [] => ⟨state, none, [], results⟩
  | c :: calls => ⟨state, some (p.start c state), calls, results⟩

/-- The operation is done: the call goes on, or has returned. -/
def resume (x : Caller p) (state : S) : Except ε (Next p.Point (Except ε α)) → Caller p
  | .ok (.goto point) => { x with state := state, point := some point }
  | .ok (.ret result) => call p state x.calls (x.results ++ [result])
  | .error e => call p state x.calls (x.results ++ [.error e])

def step (x : Caller p) (inbox : List M) : Option (Progress p) :=
  x.point.bind fun point => ((p.next point).run p.agent x.state inbox).map fun e =>
    ⟨x.resume e.state e.result, e.inbox, e.sent⟩

theorem step_append {x : Caller p} {inbox : List M} {y : Progress p} (h : x.step inbox = some y) (more : List M) :
    x.step (inbox ++ more) = some { y with inbox := y.inbox ++ more } := by
  obtain ⟨point, hpoint, h⟩ := Option.bind_eq_some_iff.1 h
  obtain ⟨e, hrun, rfl⟩ := Option.map_eq_some_iff.1 h
  simp only [step, hpoint, Option.bind_some, Operation.run_append hrun more, Option.map_some]

end Caller

/-! ### Both sides -/

variable {ℓ β : Type}

structure Dialogue (p : Program S M ε κ α) (q : Program S M δ ℓ β) where
  client : Caller p
  server : Caller q
  toClient : List M
  toServer : List M

namespace Dialogue
variable {p : Program S M ε κ α} {q : Program S M δ ℓ β}

/-- Nothing is under way, and the first call of each side is made. -/
def start (p : Program S M ε κ α) (q : Program S M δ ℓ β) (state : S) (calls : List κ) (calls' : List ℓ) :
    Dialogue p q :=
  ⟨.call p state calls [], .call q state calls' [], [], []⟩

def step (s : Dialogue p q) : Side → Option (Dialogue p q)
  | .client => (s.client.step s.toClient).map fun y =>
      { s with client := y.caller, toClient := y.inbox, toServer := s.toServer ++ y.sent }
  | .server => (s.server.step s.toServer).map fun y =>
      { s with server := y.caller, toServer := y.inbox, toClient := s.toClient ++ y.sent }

/-- The steps of a dialogue, with the side that makes them. -/
def Step (s : Dialogue p q) (side : Side) (t : Dialogue p q) : Prop := s.step side = some t

theorem steps_client {s t u : Dialogue p q} {n : ℕ} (h : s.step .client = some t) (hrest : Steps Step n t u) :
    Steps Step (n + 1) s u := .head h hrest

theorem steps_server {s t u : Dialogue p q} {n : ℕ} (h : s.step .server = some t) (hrest : Steps Step n t u) :
    Steps Step (n + 1) s u := .head h hrest

theorem step_client {s : Dialogue p q} {point : p.Point} {e : Effect S M ε (Next p.Point (Except ε α))}
    (hpoint : s.client.point = some point)
    (h : (p.next point).run p.agent s.client.state s.toClient = some e) :
    s.step .client = some { s with
      client := s.client.resume e.state e.result
      toClient := e.inbox
      toServer := s.toServer ++ e.sent } := by
  simp only [step, Caller.step, hpoint, Option.bind_some, h, Option.map_some]

theorem step_server {s : Dialogue p q} {point : q.Point} {e : Effect S M δ (Next q.Point (Except δ β))}
    (hpoint : s.server.point = some point)
    (h : (q.next point).run q.agent s.server.state s.toServer = some e) :
    s.step .server = some { s with
      server := s.server.resume e.state e.result
      toServer := e.inbox
      toClient := s.toClient ++ e.sent } := by
  simp only [step, Caller.step, hpoint, Option.bind_some, h, Option.map_some]

theorem diamond {s t u : Dialogue p q} (ht : s.step .client = some t) (hu : s.step .server = some u) :
    ∃ v, t.step .server = some v ∧ u.step .client = some v := by
  obtain ⟨y, hy, rfl⟩ := Option.map_eq_some_iff.1 ht
  obtain ⟨y', hy', rfl⟩ := Option.map_eq_some_iff.1 hu
  refine ⟨⟨y.caller, y'.caller, y.inbox ++ y'.sent, y'.inbox ++ y.sent⟩, ?_, ?_⟩
  · simp only [step, Caller.step_append hy' y.sent, Option.map_some]
  · simp only [step, Caller.step_append hy y'.sent, Option.map_some]

theorem step_commutes : Commutes (Step (p := p) (q := q)) where
  functional h h' := Option.some.inj (h.symm.trans h')
  diamond := by
    intro s t u i j hij ht hu
    cases i with
    | client =>
      cases j with
      | client => exact absurd rfl hij
      | server => exact diamond ht hu
    | server =>
      cases j with
      | client =>
        obtain ⟨v, hv, hv'⟩ := diamond hu ht
        exact ⟨v, hv', hv⟩
      | server => exact absurd rfl hij

theorem stuck {s : Dialogue p q} (hclient : s.step .client = none) (hserver : s.step .server = none) :
    Stuck Step s := by
  intro side t h
  cases side with
  | client => exact absurd (hclient.symm.trans h) (Option.some_ne_none t).symm
  | server => exact absurd (hserver.symm.trans h) (Option.some_ne_none t).symm

end Dialogue

end Turns
