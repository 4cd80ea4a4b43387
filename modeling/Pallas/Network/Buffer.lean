import Pallas.Lib.Runs
import Pallas.Network.Chainsync

/-!
# The rollback buffer (`pallas-network/src/miniprotocols/chainsync/buffer.rs`)

`RollbackBuffer` holds the points that are not yet deep enough, and `Followed` puts beside it the chain that its caller follows and the
points that were popped so far. As long as each forwarded point is new to the chain and each rollback is handled, the popped points
followed by the buffered ones are the chain (`refines_chain`).
-/

namespace Pallas.Network

inductive RollbackEffect where
  | handled
  | outOfScope
  deriving DecidableEq

structure RollbackBuffer where
  points : List Point := []
  deriving DecidableEq

namespace RollbackBuffer
variable (b : RollbackBuffer)

def rollForward (point : Point) : RollbackBuffer := ⟨b.points ++ [point]⟩

def popWithDepth (minDepth : ℕ) : List Point × RollbackBuffer :=
  if minDepth ≤ b.points.length then
    let ready := b.points.length - minDepth
    (b.points.take ready, ⟨b.points.drop ready⟩)
  else ([], b)

def position (point : Point) : Option ℕ := b.points.findIdx? (· = point)

def rollBack (point : Point) : RollbackEffect × RollbackBuffer :=
  match b.position point with
  | some x => (.handled, ⟨b.points.take (x + 1)⟩)
  | none => (.outOfScope, ⟨[]⟩)

variable {b} {b' : RollbackBuffer} {p : Point}

/-- What is popped is what the buffer had before what is left of it, and something is popped only where enough is left. -/
theorem popWithDepth_spec {minDepth : ℕ} {ps : List Point} (h : b.popWithDepth minDepth = (ps, b')) :
    ps ++ b'.points = b.points ∧ (ps ≠ [] → minDepth ≤ b'.points.length) := by
  unfold popWithDepth at h
  split_ifs at h with hdepth
  · obtain ⟨rfl, rfl⟩ := Prod.mk.inj h
    refine ⟨List.take_append_drop _ _, fun _ => ?_⟩
    simp only [List.length_drop]
    omega
  · obtain ⟨rfl, rfl⟩ := Prod.mk.inj h
    exact ⟨rfl, fun hne => absurd rfl hne⟩

theorem rollBack_outOfScope : (b.rollBack p).1 = .outOfScope ↔ p ∉ b.points := by
  unfold rollBack
  cases hp : b.position p with
  | some x =>
    obtain ⟨hx, hpoint, -⟩ := List.findIdx?_eq_some_iff_getElem.1 hp
    have hmem : p ∈ b.points := by
      rw [← of_decide_eq_true hpoint]
      exact List.getElem_mem hx
    simp [hmem]
  | none =>
    have hall : ∀ x ∈ b.points, ¬ x = p := by simpa [position] using hp
    have hmem : p ∉ b.points := fun hmem => hall p hmem rfl
    simp [hmem]

theorem rollBack_cleared (h : (b.rollBack p).1 = .outOfScope) : (b.rollBack p).2.points = [] := by
  unfold rollBack at h ⊢
  cases hp : b.position p with
  | some x => rw [hp] at h; cases h
  | none => rfl

theorem rollBack_handled (h : b.rollBack p = (.handled, b')) : ∃ pre post, b.points = pre ++ p :: post ∧ p ∉ pre ∧
    b'.points = pre ++ [p] := by
  unfold rollBack at h
  cases hp : b.position p with
  | some x =>
    rw [hp] at h
    obtain ⟨-, rfl⟩ := Prod.mk.inj h
    obtain ⟨hx, hpoint, hbefore⟩ := List.findIdx?_eq_some_iff_getElem.1 hp
    have hpoint := of_decide_eq_true hpoint
    refine ⟨b.points.take x, b.points.drop (x + 1), ?_, fun hmem => ?_, ?_⟩
    · rw [← hpoint, List.getElem_cons_drop, List.take_append_drop]
    · obtain ⟨i, hi, hget⟩ := List.getElem_of_mem hmem
      rw [List.getElem_take] at hget
      exact hbefore i (by simp at hi; omega) (decide_eq_true hget)
    · rw [List.take_succ_eq_append_getElem hx, hpoint]
  | none => rw [hp] at h; cases h

end RollbackBuffer

/-! ### The chain that is followed -/

/-- A chain rolled back to one of its points. -/
def rollBackChain (chain : List Point) (point : Point) : List Point := chain.take (chain.idxOf point + 1)

theorem rollBackChain_append {pre post : List Point} {p : Point} (h : p ∉ pre) :
    rollBackChain (pre ++ p :: post) p = pre ++ [p] := by
  have hlen : (pre ++ p :: post).idxOf p = pre.length := by simp [List.idxOf_append, h]
  rw [rollBackChain, hlen, List.take_append, List.take_of_length_le (by omega)]
  simp

/-- A call of the buffer. -/
inductive BufferCall where
  | rollForward (point : Point)
  | rollBack (point : Point)
  | popWithDepth (minDepth : ℕ)
  deriving DecidableEq

/-- A buffer, the chain that was forwarded and rolled back, and what was popped. -/
structure Followed where
  buffer : RollbackBuffer := {}
  chain : List Point := []
  popped : List Point := []
  deriving DecidableEq

namespace Followed

/-- A call, of which a forwarded point is new to the chain and a rollback is handled. -/
inductive Step : Followed → BufferCall → Followed → Prop where
  | rollForward {s : Followed} {p : Point} (hnew : p ∉ s.chain) :
      Step s (.rollForward p) { s with buffer := s.buffer.rollForward p, chain := s.chain ++ [p] }
  | rollBack {s : Followed} {p : Point} {b : RollbackBuffer} (hhandled : s.buffer.rollBack p = (.handled, b)) :
      Step s (.rollBack p) { s with buffer := b, chain := rollBackChain s.chain p }
  | popWithDepth {s : Followed} {minDepth : ℕ} {ps : List Point} {b : RollbackBuffer}
      (hpop : s.buffer.popWithDepth minDepth = (ps, b)) :
      Step s (.popWithDepth minDepth) { s with buffer := b, popped := s.popped ++ ps }

/-- The chain is what was popped and then what is buffered, and no point is in it twice. -/
structure Coherent (s : Followed) : Prop where
  chain : s.popped ++ s.buffer.points = s.chain
  nodup : s.chain.Nodup

variable {s t : Followed} {call : BufferCall}

theorem Step.coherent (hstep : Step s call t) (h : s.Coherent) : t.Coherent := by
  obtain ⟨hchain, hnodup⟩ := h
  cases hstep with
  | rollForward hnew =>
    refine ⟨?_, List.nodup_append'.2 ⟨hnodup, List.nodup_singleton _, by simpa using hnew⟩⟩
    simp only [RollbackBuffer.rollForward, ← List.append_assoc, hchain]
  | @rollBack p b hhandled =>
    obtain ⟨pre, post, hpoints, hpre, hb⟩ := RollbackBuffer.rollBack_handled hhandled
    rw [hpoints, ← List.append_assoc] at hchain
    -- the point is buffered, so that it is not among the popped ones
    have hfresh : p ∉ s.popped ++ pre := fun hmem => by
      rw [← hchain] at hnodup
      exact (List.nodup_append'.1 hnodup).2.2 hmem List.mem_cons_self
    have hback : rollBackChain s.chain p = s.popped ++ pre ++ [p] := by rw [← hchain, rollBackChain_append hfresh]
    refine ⟨?_, ?_⟩
    · rw [hback, hb, List.append_assoc]
    · rw [rollBackChain]
      exact hnodup.sublist (List.take_sublist _ _)
  | popWithDepth hpop =>
    refine ⟨?_, hnodup⟩
    rw [List.append_assoc, (RollbackBuffer.popWithDepth_spec hpop).1, hchain]

theorem Step.popped_prefix (hstep : Step s call t) : s.popped <+: t.popped := by
  cases hstep with
  | rollForward => exact List.prefix_rfl
  | rollBack => exact List.prefix_rfl
  | popWithDepth => exact List.prefix_append _ _

theorem run_coherent {tr : List (Transition Followed BufferCall)} (h : Run (· = {}) Step tr s) :
    s.Coherent ∧ ∀ x ∈ tr, x.target.Coherent := by
  induction h with
  | start h =>
    subst h
    exact ⟨⟨rfl, List.nodup_nil⟩, by simp⟩
  | next _ hstep ih =>
    obtain ⟨hlast, hall⟩ := ih
    have hnext := hstep.coherent hlast
    refine ⟨hnext, fun x hx => ?_⟩
    rcases List.mem_append.1 hx with hx | hx
    · exact hall x hx
    · obtain rfl := List.mem_singleton.1 hx
      exact hnext

theorem run_popped_prefix {tr : List (Transition Followed BufferCall)} (h : Run (· = {}) Step tr s)
    {x : Transition Followed BufferCall} (hx : x ∈ tr) : x.target.popped <+: s.popped := by
  induction h with
  | start => cases hx
  | next _ hstep ih =>
    rcases List.mem_append.1 hx with hx | hx
    · exact (ih hx).trans hstep.popped_prefix
    · obtain rfl := List.mem_singleton.1 hx
      exact List.prefix_rfl

/-- The popped points and the buffered ones make up the chain; a point is popped only while as many as were asked for stay buffered
behind it, and stays in the chain from then on; and a rollback is out of scope exactly when its point is not buffered. -/
theorem refines_chain {tr : List (Transition Followed BufferCall)} (h : Run (· = {}) Step tr s) :
    s.popped ++ s.buffer.points = s.chain ∧
    (∀ x ∈ tr, ∀ minDepth, x.input = .popWithDepth minDepth → x.target.popped ≠ x.source.popped →
      minDepth ≤ x.target.buffer.points.length ∧ x.target.popped ++ x.target.buffer.points = x.target.chain) ∧
    (∀ x ∈ tr, x.target.popped <+: s.popped ∧ x.target.popped <+: s.chain) ∧
    (∀ p, (s.buffer.rollBack p).1 = .outOfScope ↔ p ∉ s.buffer.points) ∧
    ∀ p, (s.buffer.rollBack p).1 = .outOfScope → (s.buffer.rollBack p).2.points = [] := by
  obtain ⟨⟨hchain, -⟩, hall⟩ := run_coherent h
  refine ⟨hchain, fun x hx minDepth hinput hpopped => ⟨?_, (hall x hx).chain⟩, fun x hx => ?_,
    fun p => RollbackBuffer.rollBack_outOfScope, fun p => RollbackBuffer.rollBack_cleared⟩
  · have hstep := h.step_of_mem hx
    rw [hinput] at hstep
    generalize x.source = source at hstep hpopped
    generalize x.target = target at hstep hpopped
    cases hstep with
    | popWithDepth hpop => exact (RollbackBuffer.popWithDepth_spec hpop).2 fun hnil => hpopped (by simp [hnil])
  · have hpopped := run_popped_prefix h hx
    exact ⟨hpopped, hpopped.trans ⟨s.buffer.points, hchain⟩⟩

/-- A point in the slot. -/
def slotPoint (slot : UInt64) : Point := .specific slot []

/-- Four points, two of them popped, and a rollback to the first that is still buffered. -/
theorem popped_two_kept : ∃ tr s, Run (· = {}) Step tr s ∧ s.popped = [slotPoint 1, slotPoint 2] ∧
    s.buffer.points = [slotPoint 3] ∧ s.popped ++ s.buffer.points = s.chain := by
  have hempty : Run (· = ({} : Followed)) Step [] {} := .start rfl
  have hfour := (((hempty.next (.rollForward (p := slotPoint 1) (by decide))).next
    (.rollForward (p := slotPoint 2) (by decide))).next (.rollForward (p := slotPoint 3) (by decide))).next
    (.rollForward (p := slotPoint 4) (by decide))
  have hrun := (hfour.next (@Step.popWithDepth _ 2 _ _ rfl)).next (.rollBack (p := slotPoint 3) rfl)
  exact ⟨_, _, hrun, rfl, rfl, (refines_chain hrun).1⟩

end Followed

end Pallas.Network
