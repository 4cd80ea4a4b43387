import Pallas.Lib.Reader

/-!
# Procedures on a state

A `Proc` works on a state and ends with a value or a fault; the state is kept in both cases, as for a method on
`&mut self` that returns a `Result`. `loop` is a `while` whose body goes on with a new accumulator or stops with a
value. A loop whose body uses up a measure of the state does not run out of fuel, and it panics exactly where the body
panics on a pass that is reached.
-/

/-- Code on a state `σ`, with the errors `ε`. -/
def Proc (σ ε α : Type) := σ → Except (Fault ε) α × σ

namespace Proc
variable {σ ε α β γ : Type}

instance : Monad (Proc σ ε) where
  pure a := fun s => (.ok a, s)
  bind p f := fun s => match p s with
    | (.ok a, s') => f a s'
    | (.error e, s') => (.error e, s')

def throw (e : ε) : Proc σ ε α := fun s => (.error (.error e), s)

def panic : Proc σ ε α := fun s => (.error .panic, s)

/-- Reads the state. -/
def get : Proc σ ε σ := fun s => (.ok s, s)

def modify (f : σ → σ) : Proc σ ε Unit := fun s => (.ok (), f s)

section Run
variable {p : Proc σ ε α} {f : α → Proc σ ε β} {s s' : σ} {a : α} {e : Fault ε}

@[simp] theorem pure_apply : (pure a : Proc σ ε α) s = (.ok a, s) := rfl

@[simp] theorem throw_apply {e : ε} : (throw e : Proc σ ε α) s = (.error (.error e), s) := rfl

@[simp] theorem panic_apply : (panic : Proc σ ε α) s = (.error .panic, s) := rfl

@[simp] theorem get_apply : (get : Proc σ ε σ) s = (.ok s, s) := rfl

@[simp] theorem modify_apply {g : σ → σ} : (modify g : Proc σ ε Unit) s = (.ok (), g s) := rfl

@[simp] theorem get_bind {f : σ → Proc σ ε β} : (get >>= f) s = f s s := rfl

@[simp] theorem modify_bind {g : σ → σ} {f : Unit → Proc σ ε β} : (modify g >>= f) s = f () (g s) := rfl

@[simp] theorem pure_bind' {f : α → Proc σ ε β} : ((pure a : Proc σ ε α) >>= f) s = f a s := rfl

theorem bind_ok (h : p s = (.ok a, s')) : (p >>= f) s = f a s' := by
  show (match p s with | (.ok a, s') => f a s' | (.error e, s') => (.error e, s')) = f a s'
  rw [h]

theorem bind_error (h : p s = (.error e, s')) : (p >>= f) s = (.error e, s') := by
  show (match p s with | (.ok a, s') => f a s' | (.error e, s') => (.error e, s')) = _
  rw [h]

/-- The result of a sequence is the fault of the first part or the result of the second. -/
theorem bind_cases (p : Proc σ ε α) (f : α → Proc σ ε β) (s : σ) :
    (∃ a s', p s = (.ok a, s') ∧ (p >>= f) s = f a s') ∨ ∃ e s', p s = (.error e, s') ∧
      (p >>= f) s = (.error e, s') := by
  cases h : p s with
  | mk r s' =>
    cases r with
    | ok a => exact .inl ⟨a, s', rfl, bind_ok h⟩
    | error e => exact .inr ⟨e, s', rfl, bind_error h⟩

theorem bind_eq_ok {b : β} {s'' : σ} :
    (p >>= f) s = (.ok b, s'') ↔ ∃ a s', p s = (.ok a, s') ∧ f a s' = (.ok b, s'') := by
  rcases bind_cases p f s with ⟨a, s', h, hb⟩ | ⟨e, s', h, hb⟩
  · rw [hb, h]
    simp
  · rw [hb, h]
    simp

/-- `f >>= pure ∘ g` fails as `f` does. -/
theorem map_panics {g : α → β} : ((g <$> p) s).1 = .error .panic ↔ (p s).1 = .error .panic := by
  show ((p >>= fun a => pure (g a)) s).1 = _ ↔ _
  rcases bind_cases p (fun a => pure (g a)) s with ⟨a, s', h, hb⟩ | ⟨e, s', h, hb⟩
  · rw [hb, h]
    simp
  · rw [hb, h]
    simp

end Run

/-! ### What holds of every run -/

/-- In every run from a good state the state stays good, the measure does not grow, and there is fuel. -/
structure Steady (good : σ → Prop) (m : σ → ℕ) (p : Proc σ ε α) : Prop where
  keeps : ∀ s, good s → good (p s).2
  shrinks : ∀ s, good s → m (p s).2 ≤ m s
  fueled : ∀ s, good s → (p s).1 ≠ .error .outOfFuel

namespace Steady
variable {good : σ → Prop} {m : σ → ℕ} {p : Proc σ ε α} {f : α → Proc σ ε β}

theorem pure (a : α) : Steady good m (pure a : Proc σ ε α) := ⟨fun _ h => h, fun _ _ => le_rfl, fun _ _ => nofun⟩

theorem throw (e : ε) : Steady good m (throw e : Proc σ ε α) := ⟨fun _ h => h, fun _ _ => le_rfl, fun _ _ => nofun⟩

theorem panic : Steady good m (panic : Proc σ ε α) := ⟨fun _ h => h, fun _ _ => le_rfl, fun _ _ => nofun⟩

theorem get : Steady good m (get : Proc σ ε σ) := ⟨fun _ h => h, fun _ _ => le_rfl, fun _ _ => nofun⟩

theorem bind (hp : Steady good m p) (hf : ∀ a, Steady good m (f a)) : Steady good m (p >>= f) := by
  have hrun : ∀ s, good s → good ((p >>= f) s).2 ∧ m ((p >>= f) s).2 ≤ m s ∧ ((p >>= f) s).1 ≠ .error .outOfFuel := by
    intro s hs
    have hgood := hp.keeps s hs
    have hle := hp.shrinks s hs
    have hfuel := hp.fueled s hs
    rcases bind_cases p f s with ⟨a, s', h, hb⟩ | ⟨e, s', h, hb⟩
    · rw [h] at hgood hle
      rw [hb]
      exact ⟨(hf a).keeps s' hgood, ((hf a).shrinks s' hgood).trans hle, (hf a).fueled s' hgood⟩
    · rw [h] at hgood hle hfuel
      rw [hb]
      exact ⟨hgood, hle, fun he => hfuel (by cases he; rfl)⟩
  exact ⟨fun s hs => (hrun s hs).1, fun s hs => (hrun s hs).2.1, fun s hs => (hrun s hs).2.2⟩

end Steady

/-- A steady procedure that never panics. -/
structure Total (good : σ → Prop) (m : σ → ℕ) (p : Proc σ ε α) : Prop extends Steady good m p where
  noPanic : ∀ s, good s → (p s).1 ≠ .error .panic

namespace Total
variable {good : σ → Prop} {m : σ → ℕ} {p : Proc σ ε α} {f : α → Proc σ ε β}

theorem of_runs (h : ∀ s, good s → good (p s).2 ∧ m (p s).2 ≤ m s ∧ ∀ f, (p s).1 = .error f → ∃ e, f = .error e) :
    Total good m p := by
  refine ⟨⟨fun s hs => (h s hs).1, fun s hs => (h s hs).2.1, ?_⟩, ?_⟩
  · intro s hs hf
    obtain ⟨e, he⟩ := (h s hs).2.2 _ hf
    cases he
  · intro s hs hf
    obtain ⟨e, he⟩ := (h s hs).2.2 _ hf
    cases he

theorem pure (a : α) : Total good m (pure a : Proc σ ε α) := ⟨.pure a, fun _ _ => nofun⟩

theorem throw (e : ε) : Total good m (throw e : Proc σ ε α) := ⟨.throw e, fun _ _ => nofun⟩

theorem bind (hp : Total good m p) (hf : ∀ a, Total good m (f a)) : Total good m (p >>= f) := by
  refine ⟨hp.toSteady.bind fun a => (hf a).toSteady, ?_⟩
  intro s hs
  have hgood := hp.keeps s hs
  have hno := hp.noPanic s hs
  rcases bind_cases p f s with ⟨a, s', h, hb⟩ | ⟨e, s', h, hb⟩
  · rw [h] at hgood
    rw [hb]
    exact (hf a).noPanic s' hgood
  · rw [h] at hno
    rw [hb]
    exact fun he => hno (by cases he; rfl)

end Total

/-! ### Loops -/

/-- `while`: the body goes on with `.inl`, stops with `.inr`. -/
def loop (body : α → Proc σ ε (α ⊕ β)) : ℕ → α → Proc σ ε β
  | 0, _ => fun s => (.error .outOfFuel, s)
  | fuel + 1, a => body a >>= fun next => match next with
    | .inl a' => loop body fuel a'
    | .inr b => pure b

/-- The state and accumulator at the start of a later pass. -/
inductive Passes (body : α → Proc σ ε (α ⊕ β)) : α × σ → α × σ → Prop where
  | refl {x : α × σ} : Passes body x x
  | step {a a' : α} {s s' : σ} {y : α × σ} (h : body a s = (.ok (.inl a'), s')) (rest : Passes body (a', s') y) :
      Passes body (a, s) y

section Loop
variable {body : α → Proc σ ε (α ⊕ β)} {fuel : ℕ} {a a' : α} {b : β} {s s' : σ} {e : Fault ε}

theorem loop_next (h : body a s = (.ok (.inl a'), s')) : loop body (fuel + 1) a s = loop body fuel a' s' := bind_ok h

theorem loop_stop (h : body a s = (.ok (.inr b), s')) : loop body (fuel + 1) a s = (.ok b, s') := bind_ok h

theorem loop_error (h : body a s = (.error e, s')) : loop body (fuel + 1) a s = (.error e, s') := bind_error h

variable {good : σ → Prop} {m : σ → ℕ}

theorem Steady.loop (hbody : ∀ a, Steady good m (body a))
    (hdec : ∀ a s a' s', good s → body a s = (.ok (.inl a'), s') → m s' < m s) (s : σ) (hs : good s)
    (hfuel : m s < fuel) :
    good (loop body fuel a s).2 ∧ m (loop body fuel a s).2 ≤ m s ∧ (loop body fuel a s).1 ≠ .error .outOfFuel := by
  induction fuel generalizing a s with
  | zero => omega
  | succ fuel ih =>
    have hgood := (hbody a).keeps s hs
    have hle := (hbody a).shrinks s hs
    have hno := (hbody a).fueled s hs
    cases h : body a s with
    | mk r s' =>
      rw [h] at hgood hle hno
      cases r with
      | error e =>
        rw [loop_error h]
        exact ⟨hgood, hle, fun he => hno (by cases he; rfl)⟩
      | ok next =>
        cases next with
        | inr b =>
          rw [loop_stop h]
          exact ⟨hgood, hle, nofun⟩
        | inl a' =>
          have hlt := hdec a s a' s' hs h
          obtain ⟨hgood', hle', hno'⟩ := ih (a := a') s' hgood (by omega)
          rw [loop_next h]
          exact ⟨hgood', hle'.trans hle, hno'⟩

theorem Passes.snoc {x y : α × σ} (h : Passes body x y) (hlast : body y.1 y.2 = (.ok (.inl a'), s')) :
    Passes body x (a', s') := by
  induction h with
  | refl => exact .step hlast .refl
  | step hfirst _ ih => exact .step hfirst (ih hlast)

theorem Passes.keeps (hbody : ∀ a, Steady good m (body a)) {x y : α × σ} (h : Passes body x y) (hx : good x.2) :
    good y.2 := by
  induction h with
  | refl => exact hx
  | @step a a' s s' y hfirst _ ih =>
    have hgood := (hbody a).keeps s hx
    rw [hfirst] at hgood
    exact ih hgood

theorem loop_panics_iff (hbody : ∀ a, Steady good m (body a))
    (hdec : ∀ a s a' s', good s → body a s = (.ok (.inl a'), s') → m s' < m s) (hs : good s) (hfuel : m s < fuel) :
    (loop body fuel a s).1 = .error .panic ↔
      ∃ b t, Passes body (a, s) (b, t) ∧ (body b t).1 = .error .panic := by
  constructor
  · intro hpanic
    induction fuel generalizing a s with
    | zero => omega
    | succ fuel ih =>
      cases h : body a s with
      | mk r s' =>
        cases r with
        | error e =>
          rw [loop_error h] at hpanic
          cases hpanic
          exact ⟨a, s, .refl, by rw [h]⟩
        | ok next =>
          cases next with
          | inr b =>
            rw [loop_stop h] at hpanic
            cases hpanic
          | inl a' =>
            have hlt := hdec a s a' s' hs h
            have hgood := (hbody a).keeps s hs
            rw [h] at hgood
            rw [loop_next h] at hpanic
            obtain ⟨b, t, hpass, hb⟩ := ih (s := s') hgood (by omega) hpanic
            exact ⟨b, t, .step h hpass, hb⟩
  · rintro ⟨b, t, hpass, hb⟩
    induction fuel generalizing a s with
    | zero => omega
    | succ fuel ih =>
      cases hpass with
      | refl =>
        cases h : body b t with
        | mk r s' =>
          rw [h] at hb
          cases hb
          rw [loop_error h]
      | @step _ a' _ s' _ h rest =>
        have hlt := hdec a s a' s' hs h
        have hgood := (hbody a).keeps s hs
        rw [h] at hgood
        rw [loop_next h]
        exact ih (s := s') hgood (by omega) rest

theorem Total.loop_noPanic (hbody : ∀ a, Total good m (body a))
    (hdec : ∀ a s a' s', good s → body a s = (.ok (.inl a'), s') → m s' < m s) (hs : good s) (hfuel : m s < fuel) :
    (loop body fuel a s).1 ≠ .error .panic := by
  intro hpanic
  obtain ⟨b, t, hpass, hb⟩ := (loop_panics_iff (fun a => (hbody a).toSteady) hdec hs hfuel).1 hpanic
  exact (hbody b).noPanic t (hpass.keeps (fun a => (hbody a).toSteady) hs) hb

end Loop

end Proc
