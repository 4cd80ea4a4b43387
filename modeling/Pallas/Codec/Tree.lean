import Mathlib

/-!
# Traversing trees with a stack (`pallas-codec/src/tree.rs`)

`fold_tree`, `walk_tree` and `map_tree` are loops over an explicit stack. Each is modelled as that loop, and
each does what the recursion over the tree does: `foldRec`, `events` and `mapRec`. A callback runs in any
lawful monad, so it may keep state, fail or panic; a panic of the driver itself (an index, an `expect`) is
`Exit.panicked`, and the equations say that it is not reached.

The loops are total: a finite tree has a number of nodes, and every step uses some of it up.
-/

namespace Pallas

/-- A recursive type whose children are reachable by index. `child` has no value where the call panics. -/
class IndexedNode (S : Type) where
  childCount : S → ℕ
  child : S → ℕ → Option S

/-- A finite tree, reachable as `IndexedNode` promises: the indices below `childCount` give the children. -/
class FiniteTree (S : Type) extends IndexedNode S where
  children : S → List S
  nodes : S → ℕ
  childCount_eq : ∀ s, childCount s = (children s).length
  child_eq : ∀ s i, child s i = (children s)[i]?
  nodes_eq : ∀ s, nodes s = 1 + ((children s).map nodes).sum

/-- How a traversal ends. -/
inductive Exit (α : Type) where
  | done (a : α)
  | panicked
  deriving DecidableEq

open IndexedNode FiniteTree

variable {S T : Type} [FiniteTree S] {m : Type → Type} [Monad m]

namespace FiniteTree

theorem nodes_pos (s : S) : 0 < nodes s := by
  rw [nodes_eq]
  omega

theorem nodes_lt {s c : S} (h : c ∈ children s) : nodes c < nodes s := by
  have hle : nodes c ≤ ((children s).map nodes).sum :=
    List.single_le_sum (fun _ _ => Nat.zero_le _) _ (List.mem_map_of_mem h)
  rw [nodes_eq s]
  omega

/-- What holds of a node whenever it holds of its children holds of every tree. -/
theorem induction {P : S → Prop} (h : ∀ s, (∀ c ∈ children s, P c) → P s) (s : S) : P s := by
  induction hn : nodes s using Nat.strong_induction_on generalizing s with
  | _ n ih => exact h s fun c hc => ih (nodes c) (hn ▸ nodes_lt hc) c rfl

/-- What holds of every node of a tree. -/
inductive Everywhere (P : S → Prop) : S → Prop where
  | node {s : S} (here : P s) (below : ∀ c ∈ children s, Everywhere P c) : Everywhere P s

theorem Everywhere.here {P : S → Prop} {s : S} (h : Everywhere P s) : P s := by
  obtain ⟨here, -⟩ := h
  exact here

theorem Everywhere.child {P : S → Prop} {s c : S} (h : Everywhere P s) (hc : c ∈ children s) : Everywhere P c := by
  obtain ⟨-, below⟩ := h
  exact below c hc

theorem Everywhere.imp {P Q : S → Prop} (hPQ : ∀ s, P s → Q s) {s : S} (h : Everywhere P s) : Everywhere Q s := by
  induction s using FiniteTree.induction with
  | h s ih => exact .node (hPQ s h.here) fun c hc => ih c hc (h.child hc)

theorem Everywhere.and {P Q : S → Prop} {s : S} (h : Everywhere P s) (h' : Everywhere Q s) :
    Everywhere (fun s => P s ∧ Q s) s := by
  induction s using FiniteTree.induction with
  | h s ih => exact .node ⟨h.here, h'.here⟩ fun c hc => ih c hc (h.child hc) (h'.child hc)

omit [FiniteTree S] in
theorem exists_related {R : S → S → Prop} {as bs : List S} {b : S} (h : List.Forall₂ R as bs) (hb : b ∈ bs) :
    ∃ a ∈ as, R a b := by
  induction h with
  | nil => cases hb
  | cons hR _ ih =>
    rcases List.mem_cons.1 hb with rfl | hb
    · exact ⟨_, List.mem_cons_self, hR⟩
    · obtain ⟨a, ha, hab⟩ := ih hb
      exact ⟨a, List.mem_cons_of_mem _ ha, hab⟩

/-- What holds of the nodes of a tree holds of those of a tree that matches it node for node. -/
theorem Everywhere.of_related {P : S → Prop} {R : S → S → Prop} (hR : ∀ a b, R a b → P a → P b)
    (hchildren : ∀ a b, R a b → List.Forall₂ R (children a) (children b)) {s t : S} (h : Everywhere P s) (hst : R s t) :
    Everywhere P t := by
  induction s using FiniteTree.induction generalizing t with
  | h s ih =>
    refine .node (hR s t hst h.here) fun c hc => ?_
    obtain ⟨a, ha, hac⟩ := exists_related (hchildren s t hst) hc
    exact ih a ha (h.child ha) hac

end FiniteTree

/-! ### `fold_tree` -/

namespace FoldTree

/-- The recursive post-order fold: the children in order, then the node. -/
def foldRec (finish : S → List T → m T) (s : S) : m T := do
  let results ← (children s).attach.mapM fun ⟨c, _⟩ => foldRec finish c
  finish s results
termination_by nodes s
decreasing_by exact nodes_lt ‹_›

theorem foldRec_eq [LawfulMonad m] (finish : S → List T → m T) (s : S) :
    foldRec finish s = (children s).mapM (foldRec finish) >>= finish s := by
  rw [foldRec]
  simp only [List.mapM_subtype, List.unattach_attach]

theorem foldRec_id (finish : S → List T → T) (s : S) :
    foldRec (m := Id) finish s = finish s ((children s).map (foldRec (m := Id) finish)) := by
  have hmap : ∀ l : List S, l.mapM (m := Id) (foldRec (m := Id) finish) = l.map (foldRec (m := Id) finish) :=
    fun l => List.idRun_mapM
  rw [foldRec_eq (m := Id)]
  exact congrArg (finish s) (hmap _)

/-- A node whose children are being folded. -/
structure Frame (S T : Type) where
  node : S
  next : ℕ
  results : List T

/-- `open`. -/
def openFrame (node : S) : Frame S T := ⟨node, 0, []⟩

/-- The nodes below the frame that are still to be folded. -/
def Frame.pending (frame : Frame S T) : ℕ := (((children frame.node).drop frame.next).map nodes).sum

/-- What a stack of frames still takes. -/
def work (stack : List (Frame S T)) : ℕ := (stack.map fun frame => 2 * frame.pending + 1).sum

theorem pending_openFrame (s : S) : (openFrame s : Frame S T).pending + 1 = nodes s := by
  rw [nodes_eq, Frame.pending, openFrame, List.drop_zero, add_comm]

theorem pending_next {frame : Frame S T} {c : S} (h : child frame.node frame.next = some c) :
    frame.pending = nodes c + (({ frame with next := frame.next + 1 } : Frame S T)).pending := by
  rw [child_eq, List.getElem?_eq_some_iff] at h
  obtain ⟨hlt, rfl⟩ := h
  rw [Frame.pending, List.drop_eq_getElem_cons hlt, List.map_cons, List.sum_cons]
  rfl

/-- The loop of `fold_tree`. -/
def loop (finish : S → List T → m T) (stack : List (Frame S T)) : m (Exit T) :=
  match stack with
  | [] => pure .panicked
  | top :: stack =>
    if top.next < childCount top.node then
      match _hchild : child top.node top.next with
      | none => pure .panicked
      | some c => loop finish (openFrame c :: { top with next := top.next + 1 } :: stack)
    else do
      let result ← finish top.node top.results
      match stack with
      | [] => pure (.done result)
      | parent :: stack => loop finish ({ parent with results := parent.results ++ [result] } :: stack)
termination_by work stack
decreasing_by
  · have hpending := pending_next _hchild
    have hopen := pending_openFrame (T := T) c
    simp only [work, List.map_cons, List.sum_cons]
    omega
  · simp only [work, List.map_cons, List.sum_cons, Frame.pending]
    omega

/-- The loop after a node is folded: the innermost open node takes the result, or it is the whole. -/
def giveBack (finish : S → List T → m T) : List (Frame S T) → T → m (Exit T)
  | [], result => pure (.done result)
  | parent :: stack, result => loop finish ({ parent with results := parent.results ++ [result] } :: stack)

theorem loop_last {finish : S → List T → m T} {top : Frame S T} {stack : List (Frame S T)}
    (h : ¬ top.next < childCount top.node) :
    loop finish (top :: stack) = finish top.node top.results >>= giveBack finish stack := by
  rw [loop, if_neg h]
  cases stack <;> rfl

theorem loop_next {finish : S → List T → m T} {top : Frame S T} {stack : List (Frame S T)} {c : S}
    (hlt : top.next < childCount top.node) (h : child top.node top.next = some c) :
    loop finish (top :: stack) = loop finish (openFrame c :: { top with next := top.next + 1 } :: stack) := by
  rw [loop, if_pos hlt]
  split
  · next hnone => rw [hnone] at h; cases h
  · next c' hc' =>
    rw [hc'] at h
    cases h
    rfl

variable [LawfulMonad m]

theorem loop_eq (finish : S → List T → m T) (frame : Frame S T) (stack : List (Frame S T)) :
    loop finish (frame :: stack) =
      (do
        let results ← ((children frame.node).drop frame.next).mapM (foldRec finish)
        let result ← finish frame.node (frame.results ++ results)
        giveBack finish stack result) := by
  induction hw : work (frame :: stack) using Nat.strong_induction_on generalizing frame stack with
  | _ w ih =>
    by_cases hlt : frame.next < childCount frame.node
    · have hlt' : frame.next < (children frame.node).length := childCount_eq frame.node ▸ hlt
      have hchild : child frame.node frame.next = some (children frame.node)[frame.next] := by
        rw [child_eq, List.getElem?_eq_getElem hlt']
      have hpending := pending_next hchild
      have hopen := pending_openFrame (T := T) (children frame.node)[frame.next]
      have hpos := nodes_pos (children frame.node)[frame.next]
      rw [loop_next hlt hchild, ih _ _ _ _ rfl]
      · -- the child is folded, and its result goes to this frame, whose work has gone down
        have hrec : ∀ result : T, giveBack finish ({ frame with next := frame.next + 1 } :: stack) result =
            (do
              let results ← ((children frame.node).drop (frame.next + 1)).mapM (foldRec finish)
              let r ← finish frame.node (frame.results ++ [result] ++ results)
              giveBack finish stack r) := by
          intro result
          rw [giveBack, ih _ _ _ _ rfl]
          rw [← hw]
          simp only [work, List.map_cons, List.sum_cons, Frame.pending] at hpending ⊢
          omega
        rw [List.drop_eq_getElem_cons hlt', List.mapM_cons]
        simp only [openFrame, List.drop_zero, List.nil_append, hrec,
          foldRec_eq finish (children frame.node)[frame.next],
          bind_assoc, pure_bind, List.append_assoc, List.singleton_append]
      · rw [← hw]
        simp only [work, List.map_cons, List.sum_cons]
        omega
    · rw [loop_last hlt, List.drop_eq_nil_of_le (by rw [← childCount_eq]; omega), List.mapM_nil, pure_bind,
        List.append_nil]

end FoldTree

def foldTree (finish : S → List T → m T) (root : S) : m (Exit T) := FoldTree.loop finish [FoldTree.openFrame root]

theorem foldTree_eq_foldRec [LawfulMonad m] (finish : S → List T → m T) (root : S) :
    foldTree finish root = Exit.done <$> FoldTree.foldRec finish root := by
  rw [foldTree, FoldTree.loop_eq, FoldTree.foldRec_eq, map_eq_pure_bind]
  simp only [FoldTree.openFrame, List.drop_zero, List.nil_append, bind_assoc]
  rfl

/-! ### `walk_tree` -/

/-- One step of a traversal. -/
inductive Visit (S : Type) where
  /-- A node, before any of its children. -/
  | enter (s : S)
  /-- The parent, before each of its children but the first. -/
  | between (s : S)
  /-- A node, after all of its children. -/
  | exit (s : S)

namespace WalkTree

/-- The recursive event sequence of a tree. -/
def events (s : S) : List (Visit S) :=
  Visit.enter s :: ([Visit.between s].intercalate ((children s).attach.map fun ⟨c, _⟩ => events c) ++ [.exit s])
termination_by nodes s
decreasing_by exact nodes_lt ‹_›

theorem events_eq (s : S) :
    events s = .enter s :: ([Visit.between s].intercalate ((children s).map events) ++ [.exit s]) := by
  rw [events]
  simp only [List.map_subtype, List.unattach_attach]

/-- `for i in (0..n).rev() { push Enter(child(i)); if i > 0 { push Between } }`, the top of the stack first. -/
def pushChildren (node : S) : (n : ℕ) → List (Visit S) → Option (List (Visit S))
  | 0, stack => some stack
  | i + 1, stack => do
    let c ← child node i
    pushChildren node i (if 0 < i then .between node :: .enter c :: stack else .enter c :: stack)

theorem intercalate_cons {α : Type} (sep x : List α) (xs : List (List α)) :
    sep.intercalate (x :: xs) = x ++ xs.flatMap (sep ++ ·) := by
  induction xs generalizing x with
  | nil => simp [List.intercalate]
  | cons y ys ih =>
    have hcons : sep.intercalate (x :: y :: ys) = x ++ (sep ++ sep.intercalate (y :: ys)) := by
      simp [List.intercalate]
    rw [hcons, ih, List.flatMap_cons, List.append_assoc]

/-- The children go on the stack in order, with the parent's `Between` before each but the first. -/
theorem pushChildren_eq {node : S} {n : ℕ} (hn : n ≤ childCount node) (stack : List (Visit S)) :
    pushChildren node n stack =
      some ([Visit.between node].intercalate (((children node).take n).map fun c => [.enter c]) ++ stack) := by
  induction n generalizing stack with
  | zero => simp [pushChildren, List.intercalate]
  | succ n ih =>
    have hlt : n < (children node).length := childCount_eq node ▸ hn
    rw [pushChildren, child_eq, List.getElem?_eq_getElem hlt, Option.bind_eq_bind, Option.bind_some,
      ih (by omega), List.take_succ_eq_append_getElem hlt, List.map_append]
    congr 1
    cases hpre : ((children node).take n).map fun c => [Visit.enter c] with
    | nil =>
      have hzero : n = 0 := by
        have hlen := congrArg List.length hpre
        simp only [List.length_map, List.length_take, List.length_nil] at hlen
        omega
      subst hzero
      simp [List.intercalate]
    | cons x xs =>
      have hpos : 0 < n := by
        have hlen := congrArg List.length hpre
        simp only [List.length_map, List.length_take, List.length_cons] at hlen
        omega
      rw [if_pos hpos, List.cons_append, intercalate_cons, intercalate_cons]
      simp

/-- The events a stack still stands for. -/
def stackEvents (stack : List (Visit S)) : List (Visit S) :=
  stack.flatMap fun
    | .enter s => events s
    | v => [v]

/-- What a stack still takes. -/
def work (stack : List (Visit S)) : ℕ :=
  (stack.map fun
    | .enter s => 3 * nodes s - 1
    | _ => 1).sum

theorem work_pushed (node : S) (cs : List S) :
    work ([Visit.between node].intercalate (cs.map fun c => [.enter c])) ≤ 3 * (cs.map nodes).sum := by
  cases cs with
  | nil => simp [List.intercalate, work]
  | cons c cs =>
    have hpos := nodes_pos c
    have hrest : work ((cs.map fun c => [Visit.enter c]).flatMap ([Visit.between node] ++ ·)) =
        3 * (cs.map nodes).sum := by
      induction cs with
      | nil => rfl
      | cons d ds ih =>
        have hd := nodes_pos d
        simp only [work, List.map_cons, List.flatMap_cons, List.map_append, List.sum_append, List.sum_cons,
          List.map_nil, List.sum_nil] at ih ⊢
        omega
    rw [List.map_cons, intercalate_cons]
    simp only [work, List.map_append, List.sum_append, List.map_cons, List.sum_cons, List.map_nil,
      List.sum_nil] at hrest ⊢
    omega

theorem work_lt (step : Visit S) (stack : List (Visit S)) : work stack < work (step :: stack) := by
  cases step with
  | enter s =>
    have hpos := nodes_pos s
    simp only [work, List.map_cons, List.sum_cons]
    omega
  | between s => simp [work]
  | exit s => simp [work]

theorem work_push {node : S} {stack stack' : List (Visit S)}
    (h : pushChildren node (childCount node) (.exit node :: stack) = some stack') :
    work stack' < work (.enter node :: stack) := by
  rw [pushChildren_eq le_rfl, childCount_eq, List.take_length] at h
  obtain rfl := Option.some.inj h
  have hpushed := work_pushed node (children node)
  have hnodes := nodes_eq node
  simp only [work, List.map_append, List.sum_append, List.map_cons, List.sum_cons] at hpushed ⊢
  omega

/-- The loop of `walk_tree`. -/
def loop (visit : Visit S → m Unit) (stack : List (Visit S)) : m (Exit Unit) :=
  match stack with
  | [] => pure (.done ())
  | .enter node :: stack => do
    visit (.enter node)
    match _hpush : pushChildren node (childCount node) (.exit node :: stack) with
    | none => pure .panicked
    | some stack => loop visit stack
  | step :: stack => do
    visit step
    loop visit stack
termination_by work stack
decreasing_by
  · exact work_push _hpush
  · exact work_lt step stack

variable [LawfulMonad m]

theorem loop_eq (visit : Visit S → m Unit) (stack : List (Visit S)) :
    loop visit stack = (do (stackEvents stack).forM visit; pure (.done ())) := by
  induction hw : work stack using Nat.strong_induction_on generalizing stack with
  | _ w ih =>
    -- a step that is not an `Enter` is one visit
    have hstep : ∀ step stack', stack = step :: stack' →
        (do visit step; loop visit stack' : m (Exit Unit)) =
          (do visit step; (stackEvents stack').forM visit; pure (.done ())) := by
      rintro step stack' rfl
      rw [ih _ (hw ▸ work_lt step stack') stack' rfl]
    match stack with
    | [] => simp [loop, stackEvents]
    | .between s :: stack =>
      rw [loop, hstep _ _ rfl]
      · simp [stackEvents]
      · simp
    | .exit s :: stack =>
      rw [loop, hstep _ _ rfl]
      · simp [stackEvents]
      · simp
    | .enter s :: stack =>
      have hpush := pushChildren_eq (le_refl (childCount s)) (.exit s :: stack)
      rw [childCount_eq, List.take_length, ← childCount_eq] at hpush
      have hchildren : stackEvents ([Visit.between s].intercalate ((children s).map fun c => [.enter c])) =
          [Visit.between s].intercalate ((children s).map events) := by
        cases children s with
        | nil => rfl
        | cons c cs =>
          rw [List.map_cons, List.map_cons, intercalate_cons, intercalate_cons]
          simp [stackEvents, List.flatMap_map, List.flatMap_assoc]
      have hevents : stackEvents (.enter s :: stack) = .enter s ::
          stackEvents ([Visit.between s].intercalate ((children s).map fun c => [.enter c]) ++ .exit s :: stack) := by
        have hs := events_eq s
        simp only [stackEvents, List.flatMap_append, List.flatMap_cons] at hchildren ⊢
        rw [hs, hchildren]
        simp
      rw [loop]
      split
      · next hnone =>
        rw [hpush] at hnone
        cases hnone
      · next stack' hsome =>
        rw [ih _ (hw ▸ work_push hsome) _ rfl, hevents]
        rw [hpush] at hsome
        obtain rfl := Option.some.inj hsome
        simp

end WalkTree

def walkTree (visit : Visit S → m Unit) (root : S) : m (Exit Unit) := WalkTree.loop visit [.enter root]

theorem walkTree_eq_events [LawfulMonad m] (visit : Visit S → m Unit) (root : S) :
    walkTree visit root = (do (WalkTree.events root).forM visit; pure (.done ())) := by
  rw [walkTree, WalkTree.loop_eq]
  simp [WalkTree.stackEvents]

theorem walkTree_writes {W : Type} (text : Visit S → List W) (root : S) (out : List W) :
    (walkTree (fun v => modify (· ++ text v)) root : StateM (List W) (Exit Unit)).run out =
      (.done (), out ++ (WalkTree.events root).flatMap text) := by
  have hwrites : ∀ (vs : List (Visit S)) (out : List W),
      (vs.forM (fun v => modify (· ++ text v)) : StateM (List W) Unit).run out = ((), out ++ vs.flatMap text) := by
    intro vs
    induction vs with
    | nil =>
      intro out
      rw [List.flatMap_nil, List.append_nil]
      rfl
    | cons v vs ih =>
      intro out
      rw [List.forM_eq_forM, List.forM_cons, StateT.run_bind, List.flatMap_cons, ← List.append_assoc]
      exact ih (out ++ text v)
  rw [walkTree_eq_events, StateT.run_bind, hwrites]
  rfl

theorem flatMap_events {W : Type} {text : Visit S → List W} {s : S} (h : text (.between s) = []) :
    (WalkTree.events s).flatMap text =
      text (.enter s) ++ (children s).flatMap (fun c => (WalkTree.events c).flatMap text) ++ text (.exit s) := by
  have hchildren : ([Visit.between s].intercalate ((children s).map WalkTree.events)).flatMap text =
      (children s).flatMap fun c => (WalkTree.events c).flatMap text := by
    cases children s with
    | nil => rfl
    | cons c cs =>
      rw [List.map_cons, WalkTree.intercalate_cons]
      simp [List.flatMap_map, List.flatMap_assoc, h]
  rw [WalkTree.events_eq, List.flatMap_cons, List.flatMap_append, hchildren, List.append_assoc]
  simp

/-! ### Walks that keep a state and may panic -/

namespace WalkTree
variable {σ : Type} {visit : Visit S → StateT σ Option Unit}

/-- The visits lead from one state to another, without a panic. -/
def Runs (visit : Visit S → StateT σ Option Unit) (vs : List (Visit S)) (st st' : σ) : Prop :=
  (vs.forM visit).run st = some ((), st')

omit [FiniteTree S] in
theorem Runs.nil {st : σ} : Runs visit [] st st := rfl

omit [FiniteTree S] in
theorem Runs.cons {v : Visit S} {vs : List (Visit S)} {st st₁ st' : σ} (h : (visit v).run st = some ((), st₁))
    (hvs : Runs visit vs st₁ st') : Runs visit (v :: vs) st st' := by
  unfold Runs at hvs ⊢
  rw [List.forM_eq_forM, List.forM_cons, StateT.run_bind, h]
  exact hvs

omit [FiniteTree S] in
theorem Runs.append {vs vs' : List (Visit S)} {st st₁ st' : σ} (h : Runs visit vs st st₁)
    (h' : Runs visit vs' st₁ st') :
    Runs visit (vs ++ vs') st st' := by
  unfold Runs at h h' ⊢
  rw [List.forM_eq_forM] at h ⊢
  rw [List.forM_append, StateT.run_bind, h]
  exact h'

theorem Runs.node {s : S} {st st₁ st₂ st' : σ} (henter : (visit (.enter s)).run st = some ((), st₁))
    (hchildren : Runs visit ([Visit.between s].intercalate ((children s).map events)) st₁ st₂)
    (hexit : (visit (.exit s)).run st₂ = some ((), st')) : Runs visit (events s) st st' := by
  rw [events_eq]
  exact .cons henter (.append hchildren (.cons hexit .nil))

theorem Runs.walkTree {root : S} {st st' : σ} (h : Runs visit (events root) st st') :
    (Pallas.walkTree visit root).run st = some (.done (), st') := by
  rw [walkTree_eq_events, StateT.run_bind, h]
  rfl

end WalkTree

/-- A fallible callback, with the visits it has been given recorded. -/
def traced {E : Type} (f : Visit S → Except E Unit) (v : Visit S) : ExceptT E (StateM (List (Visit S))) Unit :=
  ExceptT.mk fun seen => (f v, seen ++ [v])

/-- The visits up to the first error, which is included, and how they end. -/
def untilError {E : Type} (f : Visit S → Except E Unit) : List (Visit S) → Except E Unit × List (Visit S)
  | [] => (.ok (), [])
  | v :: vs => match f v with
    | .ok () => ((untilError f vs).1, v :: (untilError f vs).2)
    | .error e => (.error e, [v])

omit [FiniteTree S] in
theorem forM_traced {E : Type} (f : Visit S → Except E Unit) (vs seen : List (Visit S)) :
    (vs.forM (traced f)).run.run seen = ((untilError f vs).1, seen ++ (untilError f vs).2) := by
  induction vs generalizing seen with
  | nil => rw [untilError, List.append_nil]; rfl
  | cons v vs ih =>
    have hvisit : (traced f v).run.run seen = (f v, seen ++ [v]) := rfl
    rw [List.forM_eq_forM, List.forM_cons, ExceptT.run_bind, StateT.run_bind, hvisit, untilError]
    cases f v with
    | ok u =>
      show (vs.forM (traced f)).run.run (seen ++ [v]) = _
      rw [ih, List.append_assoc]
      rfl
    | error e => rfl

/-! ### `map_tree`

The driver borrows places of the target tree. While places are lent out the tree is a function of what they
will hold: `place`, over the places on the stack, the top first. Writing to a place fixes its argument. -/

namespace MapTree

/-- What a target becomes when the list that `target_children` exposes is written. -/
def fillWith (targetChildren : T → Option (List T → T)) (target : T) (children : List T) : T :=
  match targetChildren target with
  | some fill => fill children
  | none => target

/-- The recursive map: a node with a child list gets the images of its children. -/
def mapRec (hasChildList : S → Bool) (shallow : S → T) (targetChildren : T → Option (List T → T)) (s : S) : T :=
  if hasChildList s then
    fillWith targetChildren (shallow s)
      ((children s).attach.map fun ⟨c, _⟩ => mapRec hasChildList shallow targetChildren c)
  else shallow s
termination_by nodes s
decreasing_by exact nodes_lt ‹_›

/-- A node and the place its image is built in, which holds a target with no children yet. -/
abbrev Pending (S T : Type) := List (S × T)

/-- What the stack still takes. -/
def work (pending : Pending S T) : ℕ := (pending.map fun p => nodes p.1).sum

/-- The children of a node with their places: `source_children.iter().zip(children.iter_mut())`. -/
def copies (shallow : S → T) (source : S) : Pending S T := (children source).map fun c => (c, shallow c)

theorem work_fill (source : S) (target : T) (pending : Pending S T) (shallow : S → T) :
    work ((copies shallow source).reverse ++ pending) < work ((source, target) :: pending) := by
  have hnodes := nodes_eq source
  have hkids : ((copies shallow source).map fun p => nodes p.1) = (children source).map nodes := by simp [copies]
  simp only [work, List.map_append, List.map_reverse, List.sum_append, List.sum_reverse, hkids, List.map_cons,
    List.sum_cons]
  omega

/-- The loop of `map_tree`. -/
def loop (shallow : S → T) (targetChildren : T → Option (List T → T)) (place : List T → Option T)
    (pending : Pending S T) : Exit T :=
  match pending with
  | [] => match place [] with
    | some root => .done root
    | none => .panicked
  | (source, target) :: pending =>
    match targetChildren target with
    | none => loop shallow targetChildren (fun held => place (target :: held)) pending
    | some fill =>
      let kids := copies shallow source
      loop shallow targetChildren (fun held => place (fill (held.take kids.length).reverse :: held.drop kids.length))
        (kids.reverse ++ pending)
termination_by work pending
decreasing_by
  · have hpos := nodes_pos source
    simp only [work, List.map_cons, List.sum_cons]
    omega
  · exact work_fill source target pending shallow

/-- Where the target list is exposed exactly for the nodes with a child list, the image is what the exposed
list makes of the images of the children, and the shallow copy where none is. -/
theorem mapRec_eq {hasChildList : S → Bool} {shallow : S → T} {targetChildren : T → Option (List T → T)}
    (h : ∀ s, (targetChildren (shallow s)).isSome = hasChildList s) (s : S) :
    mapRec hasChildList shallow targetChildren s =
      fillWith targetChildren (shallow s) ((children s).map (mapRec hasChildList shallow targetChildren)) := by
  rw [mapRec]
  simp only [List.map_subtype, List.unattach_attach]
  split
  · rfl
  · next hleaf =>
    rw [← h s, Bool.not_eq_true, Option.isSome_eq_false_iff, Option.isNone_iff_eq_none] at hleaf
    rw [fillWith, hleaf]

/-- The invariant: the places on the stack will hold the images of their nodes. -/
theorem loop_eq {hasChildList : S → Bool} {shallow : S → T} {targetChildren : T → Option (List T → T)}
    (h : ∀ s, (targetChildren (shallow s)).isSome = hasChildList s) (place : List T → Option T) {pending : Pending S T}
    (hpending : ∀ p ∈ pending, p.2 = shallow p.1) {root : T}
    (hroot : place (pending.map fun p => mapRec hasChildList shallow targetChildren p.1) = some root) :
    loop shallow targetChildren place pending = .done root := by
  induction hw : work pending using Nat.strong_induction_on generalizing place pending with
  | _ w ih =>
    match pending with
    | [] => rw [loop, show place [] = some root from hroot]
    | (source, target) :: pending =>
      obtain rfl : target = shallow source := hpending _ List.mem_cons_self
      have hrest : ∀ p ∈ pending, p.2 = shallow p.1 := fun p hp => hpending p (List.mem_cons_of_mem _ hp)
      rw [List.map_cons, mapRec_eq h] at hroot
      rw [loop]
      split
      · next hnone =>
        refine ih _ ?_ _ hrest ?_ rfl
        · have hpos := nodes_pos source
          rw [← hw]
          simp only [work, List.map_cons, List.sum_cons]
          omega
        · rwa [fillWith, hnone] at hroot
      · next fill hfill =>
        refine ih _ (hw ▸ work_fill source _ pending shallow) _ ?_ ?_ rfl
        · intro p hp
          rcases List.mem_append.1 hp with hp | hp
          · obtain ⟨c, -, rfl⟩ := List.mem_map.1 (List.mem_reverse.1 hp)
            rfl
          · exact hrest p hp
        · -- the images of the children lie on top, in reverse order
          rw [fillWith, hfill] at hroot
          have himages : ((copies shallow source).reverse.map fun p => mapRec hasChildList shallow targetChildren p.1) =
              ((children source).map (mapRec hasChildList shallow targetChildren)).reverse := by simp [copies]
          have hlen : (copies shallow source).length =
              (((children source).map (mapRec hasChildList shallow targetChildren)).reverse).length := by simp [copies]
          rw [List.map_append, himages, hlen, List.take_left, List.drop_left, List.reverse_reverse]
          exact hroot

end MapTree

def mapTree (shallow : S → T) (targetChildren : T → Option (List T → T)) (root : S) : Exit T :=
  MapTree.loop shallow targetChildren List.head? [(root, shallow root)]

theorem mapTree_eq_mapRec {hasChildList : S → Bool} {shallow : S → T} {targetChildren : T → Option (List T → T)}
    (h : ∀ s, (targetChildren (shallow s)).isSome = hasChildList s) (root : S) :
    mapTree shallow targetChildren root = .done (MapTree.mapRec hasChildList shallow targetChildren root) := by
  refine MapTree.loop_eq h _ ?_ rfl
  intro p hp
  rw [List.mem_singleton.1 hp]

/-! ### The three traversals -/

/-- Each traversal does what its recursion does, whatever the callbacks: the fold, the walk (in particular one
whose callback fails, which ends at the first error), and the map where the target list is exposed exactly for
the nodes with a child list. -/
theorem traversals_eq_recursion [LawfulMonad m] {E : Type} (finish : S → List T → m T) (visit : Visit S → m Unit)
    (fallible : Visit S → Except E Unit) (hasChildList : S → Bool) (shallow : S → T)
    (targetChildren : T → Option (List T → T)) (root : S) :
    foldTree finish root = Exit.done <$> FoldTree.foldRec finish root ∧
    walkTree visit root = (do (WalkTree.events root).forM visit; pure (.done ())) ∧
    (walkTree (traced fallible) root).run.run [] =
      ((untilError fallible (WalkTree.events root)).1.map fun _ => .done (),
        (untilError fallible (WalkTree.events root)).2) ∧
    ((∀ s, (targetChildren (shallow s)).isSome = hasChildList s) →
      mapTree shallow targetChildren root = .done (MapTree.mapRec hasChildList shallow targetChildren root)) := by
  refine ⟨foldTree_eq_foldRec finish root, walkTree_eq_events visit root, ?_, fun h => mapTree_eq_mapRec h root⟩
  have htraced := forM_traced fallible (WalkTree.events root) []
  rw [walkTree_eq_events, ExceptT.run_bind, StateT.run_bind, htraced, List.nil_append]
  cases (untilError fallible (WalkTree.events root)).1 <;> rfl

/-- The tree type of the tests in `tree.rs`. -/
inductive TestNode where
  | leaf (n : UInt64)
  | list (xs : List TestNode)

namespace TestNode

def children : TestNode → List TestNode
  | leaf _ => []
  | list xs => xs

mutual

def nodes : TestNode → ℕ
  | leaf _ => 1
  | list xs => 1 + nodesAll xs

def nodesAll : List TestNode → ℕ
  | [] => 0
  | x :: xs => nodes x + nodesAll xs

end

theorem nodesAll_eq (xs : List TestNode) : nodesAll xs = (xs.map nodes).sum := by
  induction xs with
  | nil => rfl
  | cons x xs ih => rw [nodesAll, ih, List.map_cons, List.sum_cons]

instance : FiniteTree TestNode where
  childCount x := x.children.length
  child x i := x.children[i]?
  children := children
  nodes := nodes
  childCount_eq _ := rfl
  child_eq _ _ := rfl
  nodes_eq x := by
    cases x with
    | leaf n => rfl
    | list xs => rw [nodes, nodesAll_eq, children]

def mixed : TestNode := list [leaf 1, list [], list [leaf 2, list [leaf 3]], list []]

/-- `children_mut(..).is_some()`. -/
def isList : TestNode → Bool
  | leaf _ => false
  | list _ => true

/-- A node without its children. -/
def shallow : TestNode → TestNode
  | leaf n => leaf n
  | list _ => list []

/-- The child list as the tests expose it. -/
def targetChildren : TestNode → Option (List TestNode → TestNode)
  | leaf _ => none
  | list _ => some list

end TestNode

open TestNode in
/-- The traversals of the mixed tree: a sum of its numbers, a walk that fails at the first empty list, a copy. -/
theorem mixed_traversals :
    let sum : TestNode → List UInt64 → Option UInt64 := fun x results => match x with
      | leaf n => some n
      | list _ => some results.sum
    let failAtEmpty : Visit TestNode → Except String Unit := fun v => match v with
      | .enter (list []) => .error "empty"
      | _ => .ok ()
    foldTree sum mixed = Exit.done <$> FoldTree.foldRec sum mixed ∧
    (walkTree (traced failAtEmpty) mixed).run.run [] =
      ((untilError failAtEmpty (WalkTree.events mixed)).1.map fun _ => .done (),
        (untilError failAtEmpty (WalkTree.events mixed)).2) ∧
    mapTree shallow targetChildren mixed = .done (MapTree.mapRec isList shallow targetChildren mixed) := by
  intro sum failAtEmpty
  obtain ⟨hfold, -, hwalk, -⟩ := traversals_eq_recursion sum (fun _ => some ()) failAtEmpty isList (fun _ => 0)
    (fun _ => none) mixed
  obtain ⟨-, -, -, hmap⟩ := traversals_eq_recursion (fun _ _ => some mixed) (fun _ => some ()) failAtEmpty isList
    shallow targetChildren mixed
  refine ⟨hfold, hwalk, hmap ?_⟩
  intro s
  cases s <;> rfl

end Pallas
