import Pallas.Lib.Cbor

/-!
# Readers that keep their error and their position

`Cbor.Decoder` forgets why it failed. A `Reader` does not: it returns a value or an error, and in both
cases the bytes it has not read. It only ever moves forward, which its type says (`forward`), so what is
left is a suffix of what there was and its length measures the progress of a loop.

Code that reads may also panic, and a recursive definition that is run with fuel may use it up. `Fault ε`
keeps both apart from the errors `ε` of the format.
-/

/-- How a read ends when it returns no value. -/
inductive Fault (ε : Type) where
  | error (e : ε)
  | panic
  | outOfFuel
  deriving DecidableEq

/-- Reads from the front of the bytes that are left. -/
structure Reader (ε α : Type) where
  run : Bytes → Except ε α × Bytes
  forward : ∀ bs, (run bs).2 <:+ bs

namespace Reader
variable {ε α β : Type}

@[ext] theorem ext {x y : Reader ε α} (h : ∀ bs, x.run bs = y.run bs) : x = y := by
  cases x
  cases y
  congr
  funext bs
  exact h bs

/-- Goes on with what a read has returned, or keeps its error. -/
def next (r : Except ε α × Bytes) (k : α → Bytes → Except ε β × Bytes) : Except ε β × Bytes :=
  match r with
  | (.ok a, rest) => k a rest
  | (.error e, rest) => (.error e, rest)

theorem next_forward (x : Reader ε α) (f : α → Reader ε β) (bs : Bytes) :
    (next (x.run bs) fun a => (f a).run).2 <:+ bs := by
  have hx := x.forward bs
  unfold next
  cases hr : x.run bs with
  | mk r rest =>
    rw [hr] at hx
    cases r with
    | ok a => exact ((f a).forward rest).trans hx
    | error e => exact hx

instance : Monad (Reader ε) where
  pure a := ⟨fun bs => (.ok a, bs), fun bs => List.suffix_refl bs⟩
  bind x f := ⟨fun bs => next (x.run bs) fun a => (f a).run, next_forward x f⟩

/-- Fails where it stands. -/
def throw (e : ε) : Reader ε α := ⟨fun bs => (.error e, bs), fun bs => List.suffix_refl bs⟩

/-- The result of code that reads nothing. -/
def ofExcept (x : Except ε α) : Reader ε α := ⟨fun bs => (x, bs), fun bs => List.suffix_refl bs⟩

/-- Reads without moving: `d.probe()`. -/
def probe (x : Reader ε α) : Reader ε α := ⟨fun bs => ((x.run bs).1, bs), fun bs => List.suffix_refl bs⟩

/-- The same read, with other errors. -/
def mapError {δ : Type} (g : ε → δ) (x : Reader ε α) : Reader δ α :=
  ⟨fun bs => ((x.run bs).1.mapError g, (x.run bs).2), x.forward⟩

/-! ### What a run says -/

section Next
variable {γ : Type} {k : α → Bytes → Except ε β × Bytes} {k' : β → Bytes → Except ε γ × Bytes} {bs rest : Bytes}

@[simp] theorem next_ok {a : α} : next (.ok a, bs) k = k a bs := rfl

@[simp] theorem next_error {e : ε} : next (.error e, bs) k = (.error e, bs) := rfl

theorem next_next (r : Except ε α × Bytes) : next (next r k) k' = next r fun a bs => next (k a bs) k' := by
  rcases r with ⟨_ | _, _⟩ <;> rfl

theorem next_eq_ok {r : Except ε α × Bytes} {b : β} :
    next r k = (.ok b, rest) ↔ ∃ a mid, r = (.ok a, mid) ∧ k a mid = (.ok b, rest) := by
  rcases r with ⟨_ | a, mid⟩
  · simp
  · simp

theorem next_eq_error {r : Except ε α × Bytes} {e : ε} (h : next r k = (.error e, rest)) :
    r = (.error e, rest) ∨ ∃ a mid, r = (.ok a, mid) ∧ k a mid = (.error e, rest) := by
  rcases r with ⟨_ | a, mid⟩
  · cases h
    exact .inl rfl
  · exact .inr ⟨a, mid, rfl, h⟩

/-- Two continuations that agree on what the read returns. -/
theorem next_congr {r : Except ε α × Bytes} {k k' : α → Bytes → Except ε β × Bytes}
    (h : ∀ a rest, r = (.ok a, rest) → k a rest = k' a rest) : next r k = next r k' := by
  rcases r with ⟨_ | a, rest⟩
  · rfl
  · exact h a rest rfl

end Next

section Run
variable {x : Reader ε α} {f : α → Reader ε β} {bs rest : Bytes} {a : α} {b : β} {e : ε}

@[simp] theorem run_pure : (pure a : Reader ε α).run bs = (.ok a, bs) := rfl

@[simp] theorem run_throw : (throw e : Reader ε α).run bs = (.error e, bs) := rfl

@[simp] theorem run_ofExcept {r : Except ε α} : (ofExcept r).run bs = (r, bs) := rfl

@[simp] theorem run_probe : (probe x).run bs = ((x.run bs).1, bs) := rfl

@[simp] theorem run_bind : (x >>= f).run bs = next (x.run bs) fun a => (f a).run := rfl

theorem bind_eq_ok : (x >>= f).run bs = (.ok b, rest) ↔
    ∃ a mid, x.run bs = (.ok a, mid) ∧ (f a).run mid = (.ok b, rest) := next_eq_ok

/-- What is read is returned with what the reader was given. -/
theorem pair_eq_ok {γ : Type} {c c' : γ} :
    (x >>= fun a => pure (a, c)).run bs = (.ok (a, c'), rest) ↔ x.run bs = (.ok a, rest) ∧ c' = c := by
  refine bind_eq_ok.trans ?_
  constructor
  · rintro ⟨_, _, hx, h⟩
    cases h
    exact ⟨hx, rfl⟩
  · rintro ⟨hx, rfl⟩
    exact ⟨a, rest, hx, rfl⟩

/-- One that fails has failed in its first part, or behind it. -/
theorem bind_eq_error (h : (x >>= f).run bs = (.error e, rest)) : x.run bs = (.error e, rest) ∨
    ∃ a mid, x.run bs = (.ok a, mid) ∧ (f a).run mid = (.error e, rest) := next_eq_error h

theorem mapError_eq_error {δ : Type} {g : ε → δ} {d : δ} (h : (mapError g x).run bs = (.error d, rest)) :
    ∃ e, d = g e := by
  unfold mapError at h
  cases hr : x.run bs with
  | mk r mid =>
    cases r with
    | ok a' => simp [Except.mapError, hr] at h
    | error e =>
      simp only [Except.mapError, hr, Prod.mk.injEq, Except.error.injEq] at h
      exact ⟨e, h.1.symm⟩

@[simp] theorem run_mapError_eq_ok {δ : Type} {g : ε → δ} :
    (mapError g x).run bs = (.ok a, rest) ↔ x.run bs = (.ok a, rest) := by
  unfold mapError
  cases hr : x.run bs with
  | mk r mid =>
    cases r with
    | ok a' => simp [Except.mapError, hr]
    | error e => simp [Except.mapError, hr]

theorem length_le (h : x.run bs = (.ok a, rest)) : rest.length ≤ bs.length := by
  have hs := x.forward bs
  rw [h] at hs
  exact hs.length_le

end Run

instance : LawfulMonad (Reader ε) := LawfulMonad.mk' _
  (fun x => by
    ext1 bs
    show next (x.run bs) (fun a bs => (.ok a, bs)) = x.run bs
    rcases x.run bs with ⟨_ | _, _⟩ <;> rfl)
  (fun _ _ => rfl)
  (fun x _ _ => by
    ext1 bs
    exact next_next (x.run bs))

/-! ### What a reader takes off the front -/

/-- Of bytes that begin with `w`, whatever follows, the reader takes `w` and returns `a`. -/
def Takes (x : Reader ε α) (w : Bytes) (a : α) : Prop := ∀ rest, x.run (w ++ rest) = (.ok a, rest)

/-- It takes `w` if that is no longer than a machine can hold. -/
def Inverts (x : Reader ε α) (w : Bytes) (a : α) : Prop := w.length < 2 ^ 64 → x.Takes w a

/-- What is returned does not depend on the bytes behind those read. -/
def Steady (x : Reader ε α) :
    Prop := ∀ bs a rest more, x.run bs = (.ok a, rest) → x.run (bs ++ more) = (.ok a, rest ++ more)

/-- Of the front of bytes that it reads, the reader returns the same, or says that they end too early. -/
def Waits (isEnd : ε → Bool) (x : Reader ε α) : Prop := ∀ w more a rest, x.run (w ++ more) = (.ok a, rest) →
  (∃ rest', x.run w = (.ok a, rest')) ∨ ∃ e rest', x.run w = (.error e, rest') ∧ isEnd e = true

/-- It reads a stream that arrives piece by piece. -/
structure Streams (isEnd : ε → Bool) (x : Reader ε α) : Prop where
  steady : x.Steady
  waits : x.Waits isEnd

section Takes
variable {x : Reader ε α} {f : α → Reader ε β} {w w' : Bytes} {a : α} {b : β}

theorem Takes.pure (a : α) : (Pure.pure a : Reader ε α).Takes [] a := fun _ => rfl

theorem Takes.bind (h : x.Takes w a) (h' : (f a).Takes w' b) : (x >>= f).Takes (w ++ w') b := by
  intro rest
  rw [run_bind, List.append_assoc, h (w' ++ rest)]
  exact h' rest

/-- The last step of a sequence: nothing is read after it. -/
theorem Takes.last (h : x.Takes w a) (hf : f a = Pure.pure b) : (x >>= f).Takes w b := by
  intro rest
  rw [run_bind, h rest, next_ok, hf]
  rfl

theorem Takes.inverts (h : x.Takes w a) : x.Inverts w a := fun _ => h

theorem Takes.unique {rest rest' : Bytes} {a' : α} (h : x.Takes w a) (h' : x.Takes w' a')
    (heq : w ++ rest = w' ++ rest') : a = a' ∧ w = w' ∧ rest = rest' := by
  have hrun := h rest
  rw [heq, h' rest'] at hrun
  obtain ⟨hval, rfl⟩ := Prod.mk.inj hrun
  exact ⟨(Except.ok.inj hval).symm, List.append_cancel_right heq, rfl⟩

theorem Takes.value_unique {a' : α} (h : x.Takes w a) (h' : x.Takes w a') : a = a' :=
  (h.unique h' (rfl : w ++ [] = w ++ [])).1

theorem Inverts.bind (h : x.Inverts w a) (h' : (f a).Inverts w' b) : (x >>= f).Inverts (w ++ w') b := by
  intro hlt
  rw [List.length_append] at hlt
  exact (h (by omega)).bind (h' (by omega))

theorem Inverts.last (h : x.Inverts w a) (hf : f a = Pure.pure b) : (x >>= f).Inverts w b := fun hlt => (h hlt).last hf

theorem Steady.pure (a : α) : (Pure.pure a : Reader ε α).Steady := by
  intro bs b rest more h
  cases h
  rfl

theorem Steady.throw (e : ε) : (Reader.throw e : Reader ε α).Steady := by
  intro bs b rest more h
  cases h

theorem Steady.bind (h : x.Steady) (h' : ∀ a, (f a).Steady) : (x >>= f).Steady := by
  intro bs b rest more hrun
  obtain ⟨a, mid, hx, hf⟩ := bind_eq_ok.1 hrun
  rw [run_bind, h bs a mid more hx]
  exact h' a mid b rest more hf

theorem Steady.map (h : x.Steady) (g : α → β) : (x >>= fun a => Pure.pure (g a)).Steady := h.bind fun a => .pure (g a)

theorem Steady.not_ok (h : x.Steady) {w : Bytes} (hw : x.Takes (w ++ w') a) (hne : w' ≠ []) {b : α} {rest : Bytes} :
    x.run w ≠ (.ok b, rest) := by
  intro hrun
  have hlong := h w b rest w' hrun
  have hall := hw []
  rw [List.append_nil, hlong] at hall
  exact hne (List.append_eq_nil_iff.1 (Prod.mk.inj hall).2).2

end Takes

section Streams
variable {isEnd : ε → Bool} {x : Reader ε α} {f : α → Reader ε β} {w w' : Bytes} {a : α}

theorem Streams.pure (a : α) : (Pure.pure a : Reader ε α).Streams isEnd := by
  refine ⟨.pure a, fun w more b rest h => .inl ⟨w, ?_⟩⟩
  cases h
  rfl

theorem Streams.throw (e : ε) : (Reader.throw e : Reader ε α).Streams isEnd := ⟨.throw e, fun _ _ _ _ h => nomatch h⟩

theorem Streams.bind (h : x.Streams isEnd) (h' : ∀ a, (f a).Streams isEnd) : (x >>= f).Streams isEnd := by
  refine ⟨h.steady.bind fun a => (h' a).steady, fun w more b rest hrun => ?_⟩
  obtain ⟨a, mid, hx, hf⟩ := bind_eq_ok.1 hrun
  rcases h.waits w more a mid hx with ⟨mid', hx'⟩ | ⟨e, mid', hx', he⟩
  · have hlong := h.steady w a mid' more hx'
    rw [hx] at hlong
    obtain ⟨-, rfl⟩ := Prod.mk.inj hlong
    rcases (h' a).waits mid' more b rest hf with ⟨rest', hf'⟩ | ⟨e, rest', hf', he⟩
    · exact .inl ⟨rest', bind_eq_ok.2 ⟨a, mid', hx', hf'⟩⟩
    · exact .inr ⟨e, rest', by rw [run_bind, hx', next_ok, hf'], he⟩
  · exact .inr ⟨e, mid', by rw [run_bind, hx', next_error], he⟩

theorem Streams.map (h : x.Streams isEnd) (g : α → β) : (x >>= fun a => Pure.pure (g a)).Streams isEnd :=
  h.bind fun a => .pure (g a)

/-- Of a message that has not arrived in full it says that the bytes end too early. -/
theorem Streams.ends (h : x.Streams isEnd) (hw : x.Takes (w ++ w') a) (hne : w' ≠ []) :
    ∃ e rest, x.run w = (.error e, rest) ∧ isEnd e = true := by
  have hall := hw []
  rw [List.append_nil] at hall
  rcases h.waits w w' a [] hall with ⟨rest, hrun⟩ | hend
  · exact absurd hrun (h.steady.not_ok hw hne)
  · exact hend

end Streams

/-! ### Messages in a stream -/

/-- The reader takes `w` whatever follows, and of a front of it says that the bytes end too early. -/
structure Frames (isEnd : ε → Bool) (x : Reader ε α) (w : Bytes) (a : α) : Prop where
  takes : x.Takes w a
  ends : ∀ w₁ w₂, w = w₁ ++ w₂ → w₂ ≠ [] → ∃ e rest, x.run w₁ = (.error e, rest) ∧ isEnd e = true

section Frames
variable {isEnd : ε → Bool} {x : Reader ε α} {f : α → Reader ε β} {w w' : Bytes} {a : α} {b : β}

theorem Streams.frames (h : x.Streams isEnd) (hw : x.Takes w a) : x.Frames isEnd w a := by
  refine ⟨hw, ?_⟩
  rintro w₁ w₂ rfl hne
  exact h.ends hw hne

theorem Frames.pure (a : α) : (Pure.pure a : Reader ε α).Frames isEnd [] a :=
  ⟨.pure a, fun _ _ h hne => absurd (List.append_eq_nil_iff.1 h.symm).2 hne⟩

theorem Frames.bind (h : x.Frames isEnd w a) (h' : (f a).Frames isEnd w' b) : (x >>= f).Frames isEnd (w ++ w') b := by
  refine ⟨h.takes.bind h'.takes, fun w₁ w₂ heq hne => ?_⟩
  rcases List.append_eq_append_iff.1 heq with ⟨mid, rfl, rfl⟩ | ⟨mid, rfl, rfl⟩
  · obtain ⟨e, rest, hrun, he⟩ := h'.ends mid w₂ rfl hne
    exact ⟨e, rest, by rw [run_bind, h.takes mid, next_ok, hrun], he⟩
  · by_cases hmid : mid = []
    · subst hmid
      -- all of `w` and nothing of `w'`
      have htakes := h.takes []
      rw [List.append_nil, List.append_nil] at htakes
      obtain ⟨e, rest, hrun, he⟩ := h'.ends [] w' rfl hne
      exact ⟨e, rest, by rw [run_bind, htakes, next_ok, hrun], he⟩
    · obtain ⟨e, rest, hrun, he⟩ := h.ends w₁ mid rfl hmid
      exact ⟨e, rest, by rw [run_bind, hrun, next_error], he⟩

/-- The last step of a sequence: nothing is read after it. -/
theorem Frames.last (h : x.Frames isEnd w a) (hf : f a = Pure.pure b) : (x >>= f).Frames isEnd w b := by
  have h' : (f a).Frames isEnd [] b := by
    rw [hf]
    exact .pure b
  simpa using h.bind h'

end Frames

end Reader
