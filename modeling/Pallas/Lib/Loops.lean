import Pallas.Lib.Outcome

/-!
# Loops whose passes may fail

`Along f K s xs` says of the loop `fold f` that every pass meets a condition `K` in the state it starts from. Where `K` says
exactly when a pass does not panic, it says so of the whole loop (`fold_ne_panic_iff`); and loops whose passes agree under `K`
agree (`fold_congr`). The other rules are about `xs.mapM f`, a loop that collects what its passes return, about calls that are `Sure`
to end with a value or in a panic, and about two runs that end alike (`Rel`).
-/

namespace Outcome
variable {ε α β σ : Type}

/-! ### Every pass of a loop -/

/-- Each pass of `fold f s xs` that is reached meets `K`. -/
def Along (f : σ → α → Outcome ε σ) (K : σ → α → Prop) : σ → List α → Prop
  | _, [] => True
  | s, x :: xs => K s x ∧ ∀ t, f s x = ok t → Along f K t xs

section Along
variable {f g : σ → α → Outcome ε σ} {K : σ → α → Prop}

theorem fold_ne_panic_iff (h : ∀ s x, f s x ≠ panic ↔ K s x) (s : σ) (xs : List α) :
    fold f s xs ≠ panic ↔ Along f K s xs := by
  induction xs generalizing s with
  | nil => simp [Along]
  | cons x xs ih =>
    rw [fold_cons, Along, ← h s x]
    cases hx : f s x with
    | ok t => simpa using ih t
    | err e => simp
    | panic => simp

theorem fold_congr (h : ∀ s x, K s x → f s x = g s x) {s : σ} {xs : List α} (hall : Along f K s xs) :
    fold f s xs = fold g s xs := by
  induction xs generalizing s with
  | nil => rfl
  | cons x xs ih =>
    obtain ⟨hx, hxs⟩ := hall
    rw [fold_cons, fold_cons, ← h s x hx]
    cases hstep : f s x with
    | ok t => exact ih (hxs t hstep)
    | err e => rfl
    | panic => rfl

theorem along_congr (h : ∀ s x, K s x → f s x = g s x) {s : σ} {xs : List α} : Along f K s xs ↔ Along g K s xs := by
  induction xs generalizing s with
  | nil => rfl
  | cons x xs ih =>
    rw [Along, Along, and_congr_right_iff]
    intro hx
    rw [h s x hx]
    exact forall_congr' fun t => imp_congr_right fun _ => ih

end Along

/-! ### Collecting -/

section MapM
variable {f g : α → Outcome ε β} {xs : List α}

theorem mapM_eq_ok {ys : List β} : xs.mapM f = ok ys ↔ List.Forall₂ (fun x y => f x = ok y) xs ys := by
  induction xs generalizing ys with
  | nil => simp [eq_comm]
  | cons x xs ih =>
    rw [List.mapM_cons, bind_eq_ok, List.forall₂_cons_left_iff]
    simp only [bind_eq_ok, ih, pure_eq, ok.injEq, eq_comm (b := ys), exists_and_left]

theorem mapM_mem {ys : List β} (h : xs.mapM f = ok ys) {y : β} (hy : y ∈ ys) : ∃ x ∈ xs, f x = ok y := by
  have hall := mapM_eq_ok.1 h
  clear h
  induction hall with
  | nil => cases hy
  | cons hx _ ih =>
    rcases List.mem_cons.1 hy with rfl | hy
    · exact ⟨_, List.mem_cons_self, hx⟩
    · obtain ⟨x, hx, hxy⟩ := ih hy
      exact ⟨x, List.mem_cons_of_mem _ hx, hxy⟩

theorem mapM_getElem? {ys : List β} (h : xs.mapM f = ok ys) {n : ℕ} {y : β} (hy : ys[n]? = some y) :
    ∃ x, xs[n]? = some x ∧ f x = ok y := by
  have hall := mapM_eq_ok.1 h
  clear h
  induction hall generalizing n with
  | nil => simp at hy
  | cons hx _ ih =>
    cases n with
    | zero =>
      obtain rfl := Option.some.inj hy
      exact ⟨_, rfl, hx⟩
    | succ n => exact ih hy

theorem mapM_isOk : (∃ ys, xs.mapM f = ok ys) ↔ ∀ x ∈ xs, ∃ y, f x = ok y := by
  induction xs with
  | nil => simp
  | cons x xs ih =>
    rw [List.forall_mem_cons, ← ih]
    simp only [List.mapM_cons, bind_eq_ok, pure_eq, ok.injEq]
    constructor
    · rintro ⟨_, y, hy, ys, hys, -⟩
      exact ⟨⟨y, hy⟩, ys, hys⟩
    · rintro ⟨⟨y, hy⟩, ys, hys⟩
      exact ⟨_, y, hy, ys, hys, rfl⟩

/-- The loop panics at the first pass that does, if every pass before it has returned. -/
theorem mapM_eq_panic : xs.mapM f = panic ↔
    ∃ pre x post, xs = pre ++ x :: post ∧ (∀ y ∈ pre, ∃ z, f y = ok z) ∧ f x = panic := by
  induction xs with
  | nil => simp
  | cons x xs ih =>
    simp only [List.mapM_cons, bind_eq_panic, pure_eq, reduceCtorEq, and_false, exists_false, or_false, ih]
    constructor
    · rintro (h | ⟨z, hz, pre, y, post, rfl, hpre, hy⟩)
      · exact ⟨[], x, xs, rfl, by simp, h⟩
      · exact ⟨x :: pre, y, post, rfl, List.forall_mem_cons.2 ⟨⟨z, hz⟩, hpre⟩, hy⟩
    · rintro ⟨pre, y, post, heq, hpre, hy⟩
      cases pre with
      | nil =>
        obtain ⟨rfl, rfl⟩ := List.cons.inj heq
        exact .inl hy
      | cons w pre =>
        obtain ⟨rfl, rfl⟩ := List.cons.inj heq
        obtain ⟨⟨z, hz⟩, hpre⟩ := List.forall_mem_cons.1 hpre
        exact .inr ⟨z, hz, pre, y, post, rfl, hpre, hy⟩

theorem mapM_ne_panic (h : ∀ x ∈ xs, f x ≠ panic) : xs.mapM f ≠ panic := by
  rw [Ne, mapM_eq_panic]
  rintro ⟨pre, x, post, rfl, -, hx⟩
  exact h x (by simp) hx

/-- Elements that give the same, in the same order, are collected to the same. -/
theorem mapM_congr {γ : Type} {g : γ → Outcome ε β} {zs : List γ} (h : List.Forall₂ (fun x z => f x = g z) xs zs) :
    xs.mapM f = zs.mapM g := by
  induction h with
  | nil => rfl
  | cons hx _ ih => rw [List.mapM_cons, List.mapM_cons, hx, ih]

/-- In another order, the same is collected in another order. -/
theorem mapM_perm {xs' : List α} (hperm : xs.Perm xs') {ys : List β} (h : xs.mapM f = ok ys) :
    ∃ ys', xs'.mapM f = ok ys' ∧ ys.Perm ys' := by
  induction hperm generalizing ys with
  | nil => exact ⟨ys, h, .refl ys⟩
  | cons x _ ih =>
    simp only [List.mapM_cons, bind_eq_ok, pure_eq, ok.injEq] at h
    obtain ⟨y, hy, ys, hys, rfl⟩ := h
    obtain ⟨ys', hys', hp⟩ := ih hys
    refine ⟨y :: ys', ?_, hp.cons y⟩
    rw [List.mapM_cons, hy, hys']
    rfl
  | swap x x' l =>
    simp only [List.mapM_cons, bind_eq_ok, pure_eq, ok.injEq] at h
    obtain ⟨y', hy', _, ⟨y, hy, ys, hys, rfl⟩, rfl⟩ := h
    refine ⟨y :: y' :: ys, ?_, .swap y y' ys⟩
    simp [List.mapM_cons, hy, hy', hys]
  | trans _ _ ih ih' =>
    obtain ⟨ys', hys', hp⟩ := ih h
    obtain ⟨ys'', hys'', hp'⟩ := ih' hys'
    exact ⟨ys'', hys'', hp.trans hp'⟩

end MapM

/-! ### Where a sequence panics -/

/-- Some element is bad, and those before it are good. -/
def Reaches (good bad : α → Prop) (xs : List α) : Prop :=
  ∃ pre x post, xs = pre ++ x :: post ∧ (∀ y ∈ pre, good y) ∧ bad x

/-- The call ends with a value or in a panic. -/
def Sure (x : Outcome ε α) : Prop := ∀ e, x ≠ err e

namespace Sure
variable {x : Outcome ε α} {f : α → Outcome ε β} {xs : List α} {P : Prop}

theorem of_ok (a : α) : (ok a : Outcome ε α).Sure := nofun

theorem of_panic : (panic : Outcome ε α).Sure := nofun

theorem isOk (hx : x.Sure) : x ≠ panic ↔ ∃ a, x = ok a := by
  cases x with
  | ok a => simp
  | err e => exact absurd rfl (hx e)
  | panic => simp

theorem bind (hx : x.Sure) (hf : ∀ a, (f a).Sure) : (x >>= f).Sure := by
  cases x with
  | ok a => exact hf a
  | err e => exact absurd rfl (hx e)
  | panic => exact of_panic

theorem panics (hx : x.Sure) (hf : ∀ a, x = ok a → (f a = panic ↔ P)) : x >>= f = panic ↔ x = panic ∨ P := by
  cases x with
  | ok a => simp [hf a rfl]
  | err e => exact absurd rfl (hx e)
  | panic => simp

theorem mapM (hf : ∀ x ∈ xs, (f x).Sure) : (xs.mapM f).Sure := by
  induction xs with
  | nil => exact of_ok []
  | cons x xs ih =>
    rw [List.mapM_cons]
    exact (hf x List.mem_cons_self).bind fun y => (ih fun z hz => hf z (List.mem_cons_of_mem _ hz)).bind
      fun ys => of_ok _

theorem fold {f : σ → α → Outcome ε σ} (hf : ∀ s x, (f s x).Sure) (s : σ) : (Outcome.fold f s xs).Sure := by
  induction xs generalizing s with
  | nil => exact of_ok s
  | cons x xs ih => exact (hf s x).bind fun t => ih t

end Sure

/-! ### Two runs -/

/-- Two calls end the same way, with related values. -/
inductive Rel (R : α → β → Prop) : Outcome ε α → Outcome ε β → Prop
  | ok {a : α} {b : β} (h : R a b) : Rel R (ok a) (ok b)
  | err (e : ε) : Rel R (err e) (err e)
  | panic : Rel R panic panic

namespace Rel
variable {α' β' : Type} {R : α → β → Prop} {S : α' → β' → Prop} {f : α → Outcome ε α'} {g : β → Outcome ε β'}

theorem bind {x : Outcome ε α} {y : Outcome ε β} (h : Rel R x y) (hf : ∀ a b, R a b → Rel S (f a) (g b)) :
    Rel S (x >>= f) (y >>= g) := by
  cases h with
  | ok h => exact hf _ _ h
  | err e => exact .err e
  | panic => exact .panic

/-- The same call first. -/
theorem bind_same {g : α → Outcome ε β'} (x : Outcome ε α) (hf : ∀ a, Rel S (f a) (g a)) :
    Rel S (x >>= f) (x >>= g) := by
  cases x with
  | ok a => exact hf a
  | err e => exact .err e
  | panic => exact .panic

theorem eq {x y : Outcome ε α} (h : Rel Eq x y) : x = y := by
  cases h with
  | ok h => rw [h]
  | err e => rfl
  | panic => rfl

end Rel
end Outcome
