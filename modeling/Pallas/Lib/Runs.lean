import Mathlib

/-!
# Runs of a transition system

A system has states `σ` and inputs `ι`, and `step s i t` says that the input `i` can take `s` to `t`. A `Run` keeps the
steps taken, so that a statement can speak about the inputs so far and about every state on the way. Runs are closed
under prefixes: a statement about the last state of every run is one about every state reached.

A `Monitor` watches a run from outside: it keeps a record of the steps and says which next step it accepts. What the
surroundings of a system promise is a monitor, and so is what is counted along a run.
-/

universe u v w

/-- One step of a run. -/
structure Transition (σ : Type u) (ι : Type v) where
  source : σ
  input : ι
  target : σ

/-- The steps taken from an initial state, and the state they lead to. -/
inductive Run {σ : Type u} {ι : Type v} (init : σ → Prop) (step : σ → ι → σ → Prop) :
    List (Transition σ ι) → σ → Prop where
  | start {s : σ} : init s → Run init step [] s
  | next {tr : List (Transition σ ι)} {s t : σ} {i : ι} :
      Run init step tr s → step s i t → Run init step (tr ++ [⟨s, i, t⟩]) t

/-- `keep` is the record of the steps so far, `accept` what may come next. -/
structure Monitor (σ : Type u) (ι : Type v) (γ : Type w) where
  keep : γ → Transition σ ι → γ
  accept : γ → Transition σ ι → Prop

namespace Monitor
variable {σ : Type u} {ι : Type v} {γ : Type w} (M : Monitor σ ι γ)

def after (g : γ) (tr : List (Transition σ ι)) : γ := tr.foldl M.keep g

/-- Every step is accepted by what is recorded before it. -/
def Accepts : γ → List (Transition σ ι) → Prop
  | _, [] => True
  | g, x :: tr => M.accept g x ∧ Accepts (M.keep g x) tr

theorem after_concat (g : γ) (tr : List (Transition σ ι)) (x : Transition σ ι) :
    M.after g (tr ++ [x]) = M.keep (M.after g tr) x := List.foldl_concat ..

theorem accepts_concat {g : γ} {tr : List (Transition σ ι)} {x : Transition σ ι} :
    M.Accepts g (tr ++ [x]) ↔ M.Accepts g tr ∧ M.accept (M.after g tr) x := by
  induction tr generalizing g with
  | nil => simp [Accepts, after]
  | cons y tr ih => simp [Accepts, after, ih, and_assoc]

theorem accepts_of_forall (h : ∀ g x, M.accept g x) (g : γ) (tr : List (Transition σ ι)) : M.Accepts g tr := by
  induction tr generalizing g with
  | nil => trivial
  | cons x tr ih => exact ⟨h g x, ih _⟩

instance decidableAccepts [∀ g x, Decidable (M.accept g x)] : ∀ g tr, Decidable (M.Accepts g tr)
  | _, [] => inferInstanceAs (Decidable True)
  | g, x :: tr => @instDecidableAnd _ _ _ (decidableAccepts (M.keep g x) tr)

end Monitor

namespace Run
variable {σ : Type u} {ι : Type v} {γ : Type w} {init : σ → Prop} {step : σ → ι → σ → Prop}
variable {tr : List (Transition σ ι)} {s : σ}

theorem step_of_mem (h : Run init step tr s) {x : Transition σ ι} (hx : x ∈ tr) : step x.source x.input x.target := by
  induction h with
  | start => simp at hx
  | next _ hstep ih =>
    rcases List.mem_append.1 hx with hx | hx
    · exact ih hx
    · obtain rfl := List.mem_singleton.1 hx
      exact hstep

/-- The steps that a script of inputs makes, where `move` is a step that is made in a way `κ` of making it. -/
def play {κ : Type w} (move : σ → κ → ι → Option σ) : σ → List (κ × ι) → Option (List (Transition σ ι) × σ)
  | s, [] => some ([], s)
  | s, (k, i) :: script =>
    (move s k i).bind fun t => (play move t script).map fun (tr, u) => (⟨s, i, t⟩ :: tr, u)

theorem of_play {κ : Type w} {move : σ → κ → ι → Option σ} (hmove : ∀ s k i t, move s k i = some t → step s i t)
    {script : List (κ × ι)} {pre : List (Transition σ ι)} {t : σ} (hs : Run init step pre s)
    (h : play move s script = some (tr, t)) : Run init step (pre ++ tr) t := by
  induction script generalizing s pre tr with
  | nil =>
    obtain ⟨rfl, rfl⟩ := Prod.mk.inj (Option.some.inj h)
    simpa using hs
  | cons line script ih =>
    obtain ⟨k, i⟩ := line
    obtain ⟨u, hu, h⟩ := Option.bind_eq_some_iff.1 h
    obtain ⟨⟨rest, v⟩, hrest, h⟩ := Option.map_eq_some_iff.1 h
    obtain ⟨rfl, rfl⟩ := Prod.mk.inj h
    simpa using ih (hs.next (hmove s k i u hu)) hrest

theorem exists_of_play {κ : Type w} {move : σ → κ → ι → Option σ} (hmove : ∀ s k i t, move s k i = some t → step s i t)
    (hs : init s) {script : List (κ × ι)} {test : List (Transition σ ι) × σ → Bool}
    (h : (play move s script).any test = true) : ∃ tr t, Run init step tr t ∧ test (tr, t) = true := by
  obtain ⟨⟨tr, t⟩, hplay, htest⟩ := (Option.any_eq_true _ _).1 h
  exact ⟨tr, t, by simpa using of_play hmove (.start hs) hplay, htest⟩

theorem of_concat {x : Transition σ ι} (h : Run init step (tr ++ [x]) s) :
    Run init step tr x.source ∧ step x.source x.input x.target ∧ s = x.target := by
  generalize hall : tr ++ [x] = all at h
  cases h with
  | start _ => simp at hall
  | next h hs =>
    obtain ⟨rfl, hx⟩ := List.append_inj' hall rfl
    obtain rfl := (List.cons.inj hx).1
    exact ⟨h, hs, rfl⟩

theorem exists_of_append {post : List (Transition σ ι)} (h : Run init step (tr ++ post) s) :
    ∃ t, Run init step tr t := by
  induction post using List.reverseRecOn generalizing s with
  | nil => exact ⟨s, by simpa using h⟩
  | append_singleton post x ih =>
    rw [← List.append_assoc] at h
    exact ih (of_concat h).1

theorem constant {α : Type w} {f : σ → α} (hstep : ∀ s i t, step s i t → f t = f s) (h : Run init step tr s) :
    ∀ x ∈ tr, f x.source = f s := by
  induction h with
  | start _ => simp
  | next _ hs ih =>
    intro x hx
    rw [hstep _ _ _ hs]
    rcases List.mem_append.1 hx with hx | hx
    · exact ih x hx
    · rw [List.mem_singleton.1 hx]

/-- Potential rule: where each step that meets `K` pays its cost out of `V`, the last steps of a run cost no more than
`V` is before them. -/
theorem potential {V : σ → ℕ} {C : Transition σ ι → ℕ} {K : Transition σ ι → Prop}
    (hstep : ∀ s i t, K ⟨s, i, t⟩ → step s i t → C ⟨s, i, t⟩ + V t ≤ V s) {pre : List (Transition σ ι)}
    (h : Run init step (pre ++ tr) s) (hK : ∀ x ∈ tr, K x) :
    ∃ u, Run init step pre u ∧ (tr.map C).sum + V s ≤ V u := by
  induction tr using List.reverseRecOn generalizing s with
  | nil => exact ⟨s, by simpa using h, by simp⟩
  | append_singleton tr x ih =>
    rw [← List.append_assoc] at h
    obtain ⟨hbefore, hlast, rfl⟩ := of_concat h
    obtain ⟨u, hu, hle⟩ := ih hbefore fun y hy => hK y (by simp [hy])
    have hpaid : C x + V x.target ≤ V x.source := hstep _ _ _ (hK x (by simp)) hlast
    refine ⟨u, hu, ?_⟩
    rw [List.map_append, List.sum_append, List.map_singleton, List.sum_singleton]
    omega

/-- Invariant rule: what holds initially, and is kept by every step that meets `K`, holds at the end of a run all of
whose steps meet `K`. -/
theorem invariant {P : σ → Prop} {K : Transition σ ι → Prop} (hinit : ∀ s, init s → P s)
    (hstep : ∀ s i t, P s → K ⟨s, i, t⟩ → step s i t → P t) (h : Run init step tr s) (hK : ∀ x ∈ tr, K x) : P s := by
  induction h with
  | start h => exact hinit _ h
  | next _ hs ih => exact hstep _ _ _ (ih fun x hx => hK x (by simp [hx])) (hK _ (by simp)) hs

/-- Every state of the run, from the first to the last, satisfies `P`. -/
def Throughout (P : σ → Prop) (tr : List (Transition σ ι)) (s : σ) : Prop := (∀ x ∈ tr, P x.source) ∧ P s

theorem throughout_concat {P : σ → Prop} {t : σ} {i : ι} :
    Throughout P (tr ++ [⟨s, i, t⟩]) t ↔ Throughout P tr s ∧ P t := by
  simp only [Throughout, List.forall_mem_append, List.forall_mem_singleton]

/-- If a step from a good state meets `K` exactly when it leads to a good state, a run stays among the good states
exactly when all its steps meet `K`. `I` is what else is known of the state as long as all is good. -/
theorem throughout_iff {P I : σ → Prop} {K : Transition σ ι → Prop} (hinit : ∀ s, init s → P s ∧ I s)
    (hstep : ∀ s i t, P s → I s → step s i t → I t ∧ (P t ↔ K ⟨s, i, t⟩)) (h : Run init step tr s) :
    Throughout P tr s ↔ ∀ x ∈ tr, K x := by
  suffices hgood : (Throughout P tr s → I s) ∧ (Throughout P tr s ↔ ∀ x ∈ tr, K x) from hgood.2
  induction h with
  | start h => exact ⟨fun _ => (hinit _ h).2, by simp [Throughout, (hinit _ h).1]⟩
  | next _ hs ih =>
    obtain ⟨hlast, hiff⟩ := ih
    rw [throughout_concat, List.forall_mem_append, List.forall_mem_singleton, ← hiff]
    refine ⟨fun ⟨hall, _⟩ => (hstep _ _ _ hall.2 (hlast hall) hs).1, ?_⟩
    exact and_congr_right fun hall => (hstep _ _ _ hall.2 (hlast hall) hs).2

/-- Two monitors with one record accept the same runs of surroundings that `E` accepts, if from every state that the
record can go with they accept the same steps, and what they accept keeps record and state together. -/
theorem accepts_iff_under {E M N : Monitor σ ι γ} (hE : E.keep = M.keep) (hN : N.keep = M.keep)
    {R : γ → σ → Prop} {g : γ}
    (hinit : ∀ s, init s → R g s) (hstep : ∀ c s i t, R c s → E.accept c ⟨s, i, t⟩ → step s i t →
      (M.accept c ⟨s, i, t⟩ ↔ N.accept c ⟨s, i, t⟩) ∧ (M.accept c ⟨s, i, t⟩ → R (M.keep c ⟨s, i, t⟩) t))
    (h : Run init step tr s) (haccept : E.Accepts g tr) : M.Accepts g tr ↔ N.Accepts g tr := by
  suffices hall : (M.Accepts g tr → R (M.after g tr) s) ∧ (M.Accepts g tr ↔ N.Accepts g tr) from hall.2
  have hafter : ∀ {L : Monitor σ ι γ} tr, L.keep = M.keep → L.after g tr = M.after g tr := fun tr hL => by
    rw [Monitor.after, Monitor.after, hL]
  induction h with
  | start h => exact ⟨fun _ => hinit _ h, Iff.rfl⟩
  | next _ hs ih =>
    rw [E.accepts_concat, hafter _ hE] at haccept
    obtain ⟨hR, hiff⟩ := ih haccept.1
    rw [M.after_concat, M.accepts_concat, N.accepts_concat, hafter _ hN, ← hiff]
    refine ⟨fun ⟨hall, hlast⟩ => (hstep _ _ _ _ (hR hall) haccept.2 hs).2 hlast, ?_⟩
    exact and_congr_right fun hall => (hstep _ _ _ _ (hR hall) haccept.2 hs).1

/-- Two monitors with one record accept the same runs, if from every state that the record can go with they accept the
same steps. -/
theorem accepts_iff {M N : Monitor σ ι γ} (hkeep : N.keep = M.keep) {R : γ → σ → Prop} {g : γ}
    (hinit : ∀ s, init s → R g s) (hstep : ∀ c s i t, R c s → step s i t →
      R (M.keep c ⟨s, i, t⟩) t ∧ (M.accept c ⟨s, i, t⟩ ↔ N.accept c ⟨s, i, t⟩))
    (h : Run init step tr s) : M.Accepts g tr ↔ N.Accepts g tr := by
  refine accepts_iff_under (E := ⟨M.keep, fun _ _ => True⟩) (M := M) (R := R) rfl hkeep hinit
    (fun c s i t hR _ hs => ?_) h
    (Monitor.accepts_of_forall _ (fun _ _ => trivial) g tr)
  obtain ⟨hnext, hiff⟩ := hstep c s i t hR hs
  exact ⟨hiff, fun _ => hnext⟩

/-- Invariant rule for a relation between the record of a monitor and the state. -/
theorem monitored {M : Monitor σ ι γ} {R : γ → σ → Prop} {K : Transition σ ι → Prop} {g : γ}
    (hinit : ∀ s, init s → R g s)
    (hstep : ∀ c s i t, R c s → M.accept c ⟨s, i, t⟩ → K ⟨s, i, t⟩ → step s i t → R (M.keep c ⟨s, i, t⟩) t)
    (h : Run init step tr s) (haccept : M.Accepts g tr) (hK : ∀ x ∈ tr, K x) : R (M.after g tr) s := by
  induction h with
  | start h => exact hinit _ h
  | next _ hs ih =>
    rw [M.accepts_concat] at haccept
    rw [M.after_concat]
    exact hstep _ _ _ _ (ih haccept.1 fun x hx => hK x (by simp [hx])) haccept.2 (hK _ (by simp)) hs

end Run
