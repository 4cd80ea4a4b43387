import Pallas.Lib.Outcome

/-!
# Iterators

An iterator is a state and a function `next` on it, which gives an item, or none at the end, and the state after it,
unless the call panics. What iterating comes to is a `Trace`: the items one after the other, and then the end or a panic.
`Gives` is the relation between an iterator and its trace; nothing is said of calls after the end. A trace without a
panic is a list (`Ends`, `ofList`).

`Gives.skip` is the rule for a loop that calls `next` until an item passes a test. `Ahead` and `lookahead` are for an
iterator that has asked an inner one for its next item already: a panic of the inner one then comes one item earlier.
`Flatten` reads iterators one after the other, each of them opened when its turn comes.
-/

namespace Iterators
variable {σ α β : Type}

/-- What iterating comes to. -/
inductive Trace (α : Type) where
  | done
  | panic
  | item (a : α) (rest : Trace α)
  deriving DecidableEq

namespace Trace
variable {t : Trace α}

/-- The items of a trace. -/
def items : Trace α → List α
  | done => []
  | panic => []
  | item a rest => a :: rest.items

/-- The trace that gives these items and then ends. -/
def ofList : List α → Trace α
  | [] => done
  | a :: as => item a (ofList as)

/-- Iterating does not panic. -/
def Ends : Trace α → Prop
  | done => True
  | panic => False
  | item _ rest => rest.Ends

def last : Trace α → Outcome Empty (Option α)
  | done => .ok none
  | panic => .panic
  | item a rest => match rest.last with
    | .ok none => .ok (some a)
    | r => r

def map (f : α → β) : Trace α → Trace β
  | done => done
  | panic => panic
  | item a rest => item (f a) (rest.map f)

/-- The items that pass, through `f`. -/
def filterMap (f : α → Option β) : Trace α → Trace β
  | done => done
  | panic => panic
  | item a rest => match f a with
    | some b => item b (rest.filterMap f)
    | none => rest.filterMap f

/-- `t`, once an iterator has been asked for its first item: that call panics where the iterator does. -/
def lookahead (inner : Trace α) (t : Trace β) : Trace β :=
  match inner with
  | panic => panic
  | _ => t

@[simp] theorem lookahead_done {t : Trace β} : (done : Trace α).lookahead t = t := rfl

@[simp] theorem lookahead_panic {t : Trace β} : (panic : Trace α).lookahead t = panic := rfl

@[simp] theorem lookahead_item {a : α} {rest : Trace α} {t : Trace β} : (item a rest).lookahead t = t := rfl

@[simp] theorem items_ofList (as : List α) : (ofList as).items = as := by
  induction as with
  | nil => rfl
  | cons a as ih => rw [ofList, items, ih]

@[simp] theorem last_ofList (as : List α) : (ofList as).last = .ok as.getLast? := by
  induction as with
  | nil => rfl
  | cons a as ih =>
    rw [ofList, last, ih, List.getLast?_cons]
    cases as.getLast? <;> rfl

@[simp] theorem ends_ofList (as : List α) : (ofList as).Ends := by
  induction as with
  | nil => trivial
  | cons a as ih => exact ih

theorem Ends.ofList_items (h : t.Ends) : ofList t.items = t := by
  induction t with
  | done => rfl
  | panic => exact h.elim
  | item a rest ih => rw [items, ofList, ih h]

theorem Ends.lookahead {inner : Trace α} (h : inner.Ends) (t : Trace β) : inner.lookahead t = t := by
  cases inner with
  | panic => exact h.elim
  | done => rfl
  | item a rest => rfl

/-- Nothing comes after an error. -/
def StopsAtError {ε : Type} : Trace (Except ε α) → Prop
  | done => True
  | panic => True
  | item (.error _) rest => rest = done
  | item (.ok _) rest => rest.StopsAtError

/-- An error is among the items. -/
def HasError {ε : Type} (t : Trace (Except ε α)) : Prop := ∃ e, .error e ∈ t.items

theorem stopsAtError_ofList {ε : Type} {xs : List (Except ε α)} :
    (ofList xs).StopsAtError ↔ ∀ pre e post, xs = pre ++ .error e :: post → post = [] := by
  induction xs with
  | nil =>
    refine ⟨fun _ pre e post h => ?_, fun _ => trivial⟩
    cases pre <;> cases h
  | cons x xs ih =>
    cases x with
    | error e =>
      constructor
      · intro h pre e' post hxs
        obtain rfl : xs = [] := by
          cases xs with
          | nil => rfl
          | cons y ys => cases h
        cases pre with
        | nil => exact (List.cons.inj hxs).2.symm
        | cons y pre => simp at hxs
      · intro h
        show ofList xs = done
        rw [h [] e xs rfl, ofList]
    | ok a =>
      refine ih.trans ⟨fun h pre e post hxs => ?_, fun h pre e post hxs => h (.ok a :: pre) e post (congrArg _ hxs)⟩
      cases pre with
      | nil => cases hxs
      | cons y pre => exact h pre e post (List.cons.inj hxs).2

theorem lookahead_ofList (as : List α) (t : Trace β) : (ofList as).lookahead t = t := (ends_ofList as).lookahead t

end Trace

/-- Iterating from `s` comes to the trace. -/
inductive Gives (next : σ → Outcome Empty (Option α × σ)) : σ → Trace α → Prop where
  | done {s t : σ} : next s = .ok (none, t) → Gives next s .done
  | panic {s : σ} : next s = .panic → Gives next s .panic
  | item {s t : σ} {a : α} {rest : Trace α} : next s = .ok (some a, t) → Gives next t rest → Gives next s (.item a rest)

namespace Gives
variable {next : σ → Outcome Empty (Option α × σ)} {s : σ} {tr tr' : Trace α}

/-- Iterating comes to one thing. -/
theorem unique (h : Gives next s tr) (h' : Gives next s tr') : tr = tr' := by
  induction h generalizing tr' with
  | done hn =>
    cases h' with
    | done _ => rfl
    | panic hn' => cases hn.symm.trans hn'
    | item hn' _ => cases hn.symm.trans hn'
  | panic hn =>
    cases h' with
    | done hn' => cases hn.symm.trans hn'
    | panic _ => rfl
    | item hn' _ => cases hn.symm.trans hn'
  | item hn _ ih =>
    cases h' with
    | done hn' => cases hn.symm.trans hn'
    | panic hn' => cases hn.symm.trans hn'
    | item hn' hrest =>
      cases hn.symm.trans hn'
      rw [ih hrest]

/-- A loop that calls `next` until an item passes gives the items that pass. -/
theorem skip {find : σ → Outcome Empty (Option β × σ)} {f : α → Option β}
    (hdone : ∀ s t, next s = .ok (none, t) → find s = .ok (none, t)) (hpanic : ∀ s, next s = .panic → find s = .panic)
    (hpass : ∀ s t a b, next s = .ok (some a, t) → f a = some b → find s = .ok (some b, t))
    (hskip : ∀ s t a, next s = .ok (some a, t) → f a = none → find s = find t) (h : Gives next s tr) :
    Gives find s (tr.filterMap f) := by
  induction h with
  | done hn => exact .done (hdone _ _ hn)
  | panic hn => exact .panic (hpanic _ hn)
  | @item s t a rest hn hrest ih =>
    cases hf : f a with
    | some b =>
      simp only [Trace.filterMap, hf]
      exact .item (hpass s t a b hn hf) ih
    | none =>
      simp only [Trace.filterMap, hf]
      -- the loop goes round: what it comes to from `t` is what it comes to from `s`
      have hs := hskip s t a hn hf
      generalize rest.filterMap f = found at ih
      cases ih with
      | done h => exact .done (hs.trans h)
      | panic h => exact .panic (hs.trans h)
      | item h hmore => exact .item (hs.trans h) hmore

end Gives

/-- An iterator that has been asked for its next item already: the answer and the state after it. -/
inductive Ahead (next : σ → Outcome Empty (Option α × σ)) : Option α → σ → Trace α → Prop where
  | done {s : σ} : Ahead next none s .done
  | item {s : σ} {a : α} {rest : Trace α} : Gives next s rest → Ahead next (some a) s (.item a rest)

theorem Gives.ahead {next : σ → Outcome Empty (Option α × σ)} {s : σ} {tr : Trace α} (h : Gives next s tr) :
    (tr = .panic ∧ next s = .panic) ∨ (∃ a t, next s = .ok (a, t) ∧ Ahead next a t tr) := by
  cases h with
  | done hn => exact .inr ⟨_, _, hn, .done⟩
  | panic hn => exact .inl ⟨rfl, hn⟩
  | item hn hrest => exact .inr ⟨_, _, hn, .item hrest⟩

theorem Ahead.lookahead {next : σ → Outcome Empty (Option α × σ)} {a : Option α} {s : σ} {tr : Trace α}
    (h : Ahead next a s tr) (t : Trace β) : tr.lookahead t = t := by
  cases h with
  | done => rfl
  | item _ => rfl

theorem Ahead.of_some {next : σ → Outcome Empty (Option α × σ)} {x : Option α} {s : σ} {a : α} {rest : Trace α}
    (h : Ahead next x s (.item a rest)) : x = some a ∧ Gives next s rest := by
  cases h with
  | item hrest => exact ⟨rfl, hrest⟩

theorem Ahead.of_done {next : σ → Outcome Empty (Option α × σ)} {x : Option α} {s : σ} (h : Ahead next x s .done) :
    x = none := by
  cases h with
  | done => rfl

theorem Ahead.ne_panic {next : σ → Outcome Empty (Option α × σ)} {x : Option α} {s : σ} : ¬ Ahead next x s .panic :=
  nofun

/-! ### One iterator after the other -/

/-- `map_while(open).flatten()`: what is still to be opened, and the iterator that is being read. -/
structure Flatten (κ σ : Type) where
  closed : List κ
  current : Option σ

namespace Flatten
variable {κ : Type} {openItem : κ → Outcome Empty (Option σ)} {inner : σ → Outcome Empty (Option α × σ)}

/-- The first item of what is still closed. Where something does not open, the iteration is over. -/
def nextClosed (openItem : κ → Outcome Empty (Option σ)) (inner : σ → Outcome Empty (Option α × σ)) :
    List κ → Outcome Empty (Option α × Flatten κ σ)
  | [] => .ok (none, ⟨[], none⟩)
  | k :: closed => match openItem k with
    | .ok (some s) => match inner s with
      | .ok (some a, s) => .ok (some a, ⟨closed, some s⟩)
      | .ok (none, _) => nextClosed openItem inner closed
      | .panic => .panic
    | .ok none => .ok (none, ⟨[], none⟩)
    | .panic => .panic

def next (openItem : κ → Outcome Empty (Option σ)) (inner : σ → Outcome Empty (Option α × σ)) (f : Flatten κ σ) :
    Outcome Empty (Option α × Flatten κ σ) :=
  match f.current with
  | some s => match inner s with
    | .ok (some a, s) => .ok (some a, ⟨f.closed, some s⟩)
    | .ok (none, _) => nextClosed openItem inner f.closed
    | .panic => .panic
  | none => nextClosed openItem inner f.closed

/-- What is being read comes first, and then the rest. -/
theorem gives_current {closed : List κ} {s : σ} {as bs : List α} (h : Gives inner s (.ofList as))
    (hrest : Gives (next openItem inner) ⟨closed, none⟩ (.ofList bs)) :
    Gives (next openItem inner) ⟨closed, some s⟩ (.ofList (as ++ bs)) := by
  induction as generalizing s with
  | nil =>
    have hstep : next openItem inner ⟨closed, some s⟩ = next openItem inner ⟨closed, none⟩ := by
      cases h with
      | done hn => simp only [next, hn]
    rw [List.nil_append]
    cases bs with
    | nil =>
      cases hrest with
      | done hn => exact .done (hstep.trans hn)
    | cons b bs =>
      cases hrest with
      | item hn hmore => exact .item (hstep.trans hn) hmore
  | cons a as ih =>
    cases h with
    | item hn hmore =>
      refine .item ?_ (ih hmore)
      simp only [next, hn]

theorem gives {closed : List κ} {xs : κ → List α}
    (h : ∀ k ∈ closed, ∃ s, openItem k = .ok (some s) ∧ Gives inner s (.ofList (xs k))) :
    Gives (next openItem inner) ⟨closed, none⟩ (.ofList (closed.flatMap xs)) := by
  induction closed with
  | nil => exact .done rfl
  | cons k closed ih =>
    obtain ⟨s, hopen, hgives⟩ := h k (by simp)
    have hrest := ih fun k hk => h k (by simp [hk])
    have hstep : next openItem inner ⟨k :: closed, none⟩ = next openItem inner ⟨closed, some s⟩ := by
      simp only [next, nextClosed, hopen]
    have hcurrent := gives_current hgives hrest
    rw [List.flatMap_cons]
    generalize xs k ++ closed.flatMap xs = items at hcurrent
    cases items with
    | nil =>
      cases hcurrent with
      | done hn => exact .done (hstep.trans hn)
    | cons a items =>
      cases hcurrent with
      | item hn hmore => exact .item (hstep.trans hn) hmore

end Flatten

end Iterators
