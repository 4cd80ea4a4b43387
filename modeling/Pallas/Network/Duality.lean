import Pallas.Network.Blockfetch
import Pallas.Network.Localmsgnotification
import Pallas.Network.Localstate
import Pallas.Network.Txsubmission

/-!
# Client and server in step

Each of these protocols is a pair of agents that go by it, so that both sides stay in step in every run in which no
operation misses a message. A miss is a receive for another state than the agent is in: the tables let the message pass, it
is taken off the queue, and the operation has no arm for it. Operations that are made of several here are so many steps of
a run.
-/

namespace Turns.Pair
variable {S M ε δ C D : Type} (pair : Pair S M ε δ C D) (P : Protocol S M)

/-- In every state of the run the two are in step, and every message taken off a queue does what it stands for. -/
def Dual (tr : List (Transition (System S M) (Call C D))) (s : System S M) : Prop :=
  Run.Throughout (pair.InStep P) tr s ∧ ∀ x ∈ tr, Obeys P x

/-- No operation of the run misses the message that it takes. -/
def Meets (tr : List (Transition (System S M) (Call C D))) : Prop := ∀ x ∈ tr, ¬ pair.Misses P x

end Turns.Pair

namespace Pallas.Network
open Turns

theorem dual_iff_meets (C I B : Type) :
    (∀ tr s, Chainsync.pair.Runs .idle tr s → (Chainsync.pair.Dual Chainsync.protocol tr s ↔
      (Chainsync.pair (C := C)).Meets Chainsync.protocol tr)) ∧
    (∀ tr s, Blockfetch.pair.Runs .idle tr s →
      (Blockfetch.pair.Dual Blockfetch.protocol tr s ↔ Blockfetch.pair.Meets Blockfetch.protocol tr)) ∧
    (∀ tr s, Txsubmission.pair.Runs .init tr s → (Txsubmission.pair.Dual Txsubmission.protocol tr s ↔
      (Txsubmission.pair (I := I) (B := B)).Meets Txsubmission.protocol tr)) ∧
    (∀ tr s, Localstate.pair.Runs .idle tr s →
      (Localstate.pair.Dual Localstate.protocol tr s ↔ Localstate.pair.Meets Localstate.protocol tr)) ∧
    ∀ tr s, Localmsgnotification.pair.Runs .idle tr s →
      (Localmsgnotification.pair.Dual Localmsgnotification.protocol tr s ↔
        Localmsgnotification.pair.Meets Localmsgnotification.protocol tr) :=
  ⟨fun _ _ => Pair.inStep_iff Chainsync.pair_follows, fun _ _ => Pair.inStep_iff Blockfetch.pair_follows,
    fun _ _ => Pair.inStep_iff Txsubmission.pair_follows, fun _ _ => Pair.inStep_iff Localstate.pair_follows,
    fun _ _ => Pair.inStep_iff Localmsgnotification.pair_follows⟩

/-- A request that the server receives. -/
theorem dual_iff_meets_request : ∃ tr s, (Chainsync.pair (C := Unit)).Runs .idle tr s ∧ tr.length = 2 ∧
    Chainsync.pair.Dual Chainsync.protocol tr s := by
  have hsent := (Run.start rfl : (Chainsync.pair (C := Unit)).Runs .idle [] _).next (i := .client .sendRequestNext) rfl
  have hasked := hsent.next (i := .server .recvWhileIdle) rfl
  refine ⟨_, _, hasked, rfl, ((dual_iff_meets Unit Unit Unit).1 _ _ hasked).2 ?_⟩
  intro x hx
  rcases List.mem_append.1 hx with hx | hx
  · obtain rfl := List.mem_singleton.1 hx
    exact id
  · obtain rfl := List.mem_singleton.1 hx
    rintro ⟨-, -, msg, rest, hin, -, harms, -⟩
    obtain ⟨rfl, -⟩ := List.cons.inj hin
    cases harms

/-- `request_or_await_next` before the first answer is there waits as if the server had said that there is none yet: that
answer is lost, and the client stays behind. -/
theorem await_reply_lost : ¬ ∀ tr s, (Chainsync.pair (C := Unit)).Runs .idle tr s →
    Chainsync.pair.Dual Chainsync.protocol tr s := by
  intro h
  have hsent := (Run.start rfl : (Chainsync.pair (C := Unit)).Runs .idle [] _).next (i := .client .sendRequestNext) rfl
  have hasked := hsent.next (i := .server .recvWhileIdle) rfl
  have hreply := hasked.next (i := .server .sendAwaitReply) rfl
  have hlost := hreply.next (i := .client .recvWhileMustReply) rfl
  exact absurd ((h _ _ hlost).1.2 ⟨rfl, rfl⟩).1 (by decide)

end Pallas.Network
