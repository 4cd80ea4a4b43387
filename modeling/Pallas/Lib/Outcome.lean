import Mathlib

/-!
# Outcomes of fallible code that may also panic

A call of a Rust function that returns `Result<α, ε>` has three observable ends: `Ok`, `Err`, or a
panic (a slice copy of unequal lengths, an `unwrap` on nothing, checked arithmetic in a debug
build). `Outcome ε α` keeps the three apart, so that panic-freedom is a statement about a value.

The loops of the source are `forEach` (a `for` whose body is `f(x)?;`) and `fold` (a `for` with an
accumulator). Their rules below come in pairs: what a successful run says about every element, and
where exactly a panicking run stopped.
-/

/-- How a call ends: a value, an error, or a panic. -/
inductive Outcome (ε α : Type) where
  | ok (a : α)
  | err (e : ε)
  | panic
  deriving DecidableEq

namespace Outcome
variable {ε ε' α β γ σ : Type}

instance : Monad (Outcome ε) where
  pure := ok
  bind x f := match x with
    | ok a => f a
    | err e => err e
    | panic => panic

@[simp] theorem pure_eq (a : α) : (pure a : Outcome ε α) = ok a := rfl

@[simp] theorem ok_bind (a : α) (f : α → Outcome ε β) : (ok a >>= f) = f a := rfl

@[simp] theorem err_bind (e : ε) (f : α → Outcome ε β) : (err e >>= f) = err e := rfl

@[simp] theorem panic_bind (f : α → Outcome ε β) : ((panic : Outcome ε α) >>= f) = panic := rfl

instance : LawfulMonad (Outcome ε) := LawfulMonad.mk' _
  (fun x => by cases x <;> rfl) (fun _ _ => rfl) (fun x _ _ => by cases x <;> rfl)

/-! ### Peeling a sequence apart -/

theorem bind_eq_ok {x : Outcome ε α} {f : α → Outcome ε β} {b : β} :
    x >>= f = ok b ↔ ∃ a, x = ok a ∧ f a = ok b := by
  cases x <;> simp

theorem bind_eq_err {x : Outcome ε α} {f : α → Outcome ε β} {e : ε} :
    x >>= f = err e ↔ x = err e ∨ ∃ a, x = ok a ∧ f a = err e := by
  cases x <;> simp

theorem bind_eq_panic {x : Outcome ε α} {f : α → Outcome ε β} :
    x >>= f = panic ↔ x = panic ∨ ∃ a, x = ok a ∧ f a = panic := by
  cases x <;> simp

/-- `bind_eq_ok` for `x?;`, a call whose value is not used. -/
theorem seq_eq_ok {x : Outcome ε Unit} {y : Outcome ε β} {b : β} :
    (x >>= fun _ => y) = ok b ↔ x = ok () ∧ y = ok b := by
  cases x <;> simp

theorem seq_eq_panic {x : Outcome ε Unit} {y : Outcome ε β} :
    (x >>= fun _ => y) = panic ↔ x = panic ∨ x = ok () ∧ y = panic := by
  cases x <;> simp

@[simp] theorem map_eq_ok {x : Outcome ε α} {f : α → β} {b : β} :
    f <$> x = ok b ↔ ∃ a, x = ok a ∧ f a = b := by
  cases x <;> simp [Functor.map]

@[simp] theorem map_eq_panic {x : Outcome ε α} {f : α → β} : f <$> x = panic ↔ x = panic := by
  cases x <;> simp [Functor.map]

/-- `opt.ok_or(e)?`. -/
def ofOption (e : ε) : Option α → Outcome ε α
  | some a => ok a
  | none => err e

@[simp] theorem ofOption_eq_ok {e : ε} {o : Option α} {a : α} : ofOption e o = ok a ↔ o = some a := by
  cases o <;> simp [ofOption]

@[simp] theorem ofOption_ne_panic {e : ε} {o : Option α} : ofOption e o ≠ panic := by
  cases o <;> simp [ofOption]

/-- `opt.unwrap()`. -/
def unwrap : Option α → Outcome ε α
  | some a => ok a
  | none => panic

@[simp] theorem unwrap_eq_ok {o : Option α} {a : α} : (unwrap o : Outcome ε α) = ok a ↔ o = some a := by
  cases o <;> simp [unwrap]

@[simp] theorem unwrap_eq_panic {o : Option α} : (unwrap o : Outcome ε α) = panic ↔ o = none := by
  cases o <;> simp [unwrap]

/-- `if !b { return Err(e) }`. -/
def ensure (e : ε) (b : Bool) : Outcome ε Unit := if b then ok () else err e

@[simp] theorem ensure_eq_ok {e : ε} {b : Bool} : ensure e b = ok () ↔ b = true := by
  cases b <;> simp [ensure]

@[simp] theorem ensure_ne_panic {e : ε} {b : Bool} : ensure e b ≠ panic := by
  cases b <;> simp [ensure]

/-! ### Loops -/

/-- `for x in xs { f(x)?; }`. -/
def forEach (f : α → Outcome ε Unit) : List α → Outcome ε Unit
  | [] => ok ()
  | x :: xs => f x >>= fun _ => forEach f xs

@[simp] theorem forEach_eq_ok {xs : List α} {f : α → Outcome ε Unit} :
    forEach f xs = ok () ↔ ∀ x ∈ xs, f x = ok () := by
  induction xs with
  | nil => simp [forEach]
  | cons x xs ih => simp [forEach, seq_eq_ok, ih]

theorem forEach_eq_panic {xs : List α} {f : α → Outcome ε Unit} :
    forEach f xs = panic ↔ ∃ pre x post, xs = pre ++ x :: post ∧ (∀ y ∈ pre, f y = ok ()) ∧ f x = panic := by
  induction xs with
  | nil => simp [forEach]
  | cons x xs ih =>
    rw [forEach, seq_eq_panic, ih]
    constructor
    · rintro (h | ⟨hx, pre, y, post, rfl, hpre, hy⟩)
      · exact ⟨[], x, xs, rfl, by simp, h⟩
      · exact ⟨x :: pre, y, post, rfl, by simpa using ⟨hx, hpre⟩, hy⟩
    · rintro ⟨pre, y, post, he, hpre, hy⟩
      cases pre with
      | nil =>
        obtain ⟨rfl, rfl⟩ := List.cons.inj he
        exact .inl hy
      | cons z pre =>
        obtain ⟨rfl, rfl⟩ := List.cons.inj he
        exact .inr ⟨hpre _ (by simp), pre, y, post, rfl, fun w hw => hpre w (by simp [hw]), hy⟩

/-- `x1?; x2?; ..; Ok(())`, with the calls in a list. -/
def sequence (xs : List (Outcome ε Unit)) : Outcome ε Unit := forEach id xs

@[simp] theorem sequence_nil : sequence ([] : List (Outcome ε Unit)) = ok () := rfl

@[simp] theorem sequence_cons {x : Outcome ε Unit} {xs : List (Outcome ε Unit)} :
    sequence (x :: xs) = x >>= fun _ => sequence xs := rfl

/-- A last call `x` returns what `x?; Ok(())` does. -/
@[simp] theorem bind_ok_unit (x : Outcome ε Unit) : (x >>= fun _ => ok ()) = x := by
  cases x <;> rfl

theorem sequence_eq_ok {xs : List (Outcome ε Unit)} : sequence xs = ok () ↔ ∀ x ∈ xs, x = ok () := forEach_eq_ok

/-- `let mut s = s; for x in xs { s = f(s, x)?; }`. -/
def fold (f : σ → α → Outcome ε σ) : σ → List α → Outcome ε σ
  | s, [] => ok s
  | s, x :: xs => f s x >>= fun t => fold f t xs

@[simp] theorem fold_nil {f : σ → α → Outcome ε σ} {s : σ} : fold f s [] = ok s := rfl

@[simp] theorem fold_cons {f : σ → α → Outcome ε σ} {s : σ} {x : α} {xs : List α} :
    fold f s (x :: xs) = f s x >>= fun t => fold f t xs := rfl

/-- Invariant rule for an accumulating loop: a relation between the elements consumed so far and the
accumulator that one body step keeps holds of the whole list at the end. -/
theorem fold_inv {f : σ → α → Outcome ε σ} (R : List α → σ → Prop)
    (hstep : ∀ pre x s s', R pre s → f s x = ok s' → R (pre ++ [x]) s')
    {xs : List α} {s s' : σ} (h0 : R [] s) (h : fold f s xs = ok s') : R xs s' := by
  -- generalised to a loop that has already consumed `pre`
  suffices hgen : ∀ pre, R pre s → R (pre ++ xs) s' from hgen [] h0
  clear h0
  induction xs generalizing s with
  | nil =>
    intro pre hpre
    obtain rfl : s = s' := by simpa using h
    simpa using hpre
  | cons x xs ih =>
    intro pre hpre
    obtain ⟨t, ht, h⟩ := bind_eq_ok.1 h
    simpa using ih h _ (hstep _ _ _ _ hpre ht)

/-- Every pass of a loop that returns has returned. -/
theorem fold_mem_ok {f : σ → α → Outcome ε σ} {xs : List α} {s s' : σ} (h : fold f s xs = ok s') :
    ∀ x ∈ xs, ∃ t t', f t x = ok t' := by
  induction xs generalizing s with
  | nil => simp
  | cons x xs ih =>
    obtain ⟨t, ht, h⟩ := bind_eq_ok.1 h
    exact List.forall_mem_cons.2 ⟨⟨s, t, ht⟩, ih h⟩

/-! ### Total correctness -/

/-- The call does not panic, and what it returns satisfies `Q`. -/
def Ensures (x : Outcome ε α) (Q : α → Prop) : Prop := x ≠ panic ∧ ∀ a, x = ok a → Q a

@[simp] theorem ensures_ok {a : α} {Q : α → Prop} : (ok a : Outcome ε α).Ensures Q ↔ Q a := by
  simp [Ensures]

@[simp] theorem not_ensures_panic {Q : α → Prop} : ¬ (panic : Outcome ε α).Ensures Q := fun h => h.1 rfl

theorem Ensures.bind {x : Outcome ε α} {f : α → Outcome ε β} {Q : α → Prop} {R : β → Prop} (h : x.Ensures Q)
    (hf : ∀ a, Q a → (f a).Ensures R) : (x >>= f).Ensures R := by
  cases x with
  | ok a => exact hf a (ensures_ok.1 h)
  | err e => exact ⟨by simp, by simp⟩
  | panic => exact absurd h not_ensures_panic

/-- Invariant rule of total correctness for an accumulating loop. -/
theorem fold_ensures {f : σ → α → Outcome ε σ} {P : σ → Prop} (hstep : ∀ s x, P s → (f s x).Ensures P) {s : σ}
    (h : P s) (xs : List α) : (fold f s xs).Ensures P := by
  induction xs generalizing s with
  | nil => simpa using h
  | cons x xs ih => exact (hstep s x h).bind fun t ht => ih ht

end Outcome
