import Pallas.Codec.Minicbor

/-!
# Decoding trees with a stack (`pallas-codec/src/tree.rs`)

`decode_tree` decodes a recursive type with a heap-backed stack of open nodes. `decodeTree` is its loop;
`decodeRec` is the direct recursion it stands for, run with fuel. The loop in a state with the open nodes
`parents` continues what the recursion has returned (`resume`): that is the invariant
(`start_eq_resume`, `loop_eq_finish`), and with no open node left it says that both return the same value,
error and position (`decodeTree_eq_decodeRec`).

The loop ends because each step either opens a node, which consumes input, or closes one.
-/

namespace Pallas

/-- Number of children that follow a node's header in the input. -/
inductive Arity where
  | leaf
  | fixed (n : ℕ)
  | indefinite
  deriving DecidableEq

/-- `Arity::from`: the length of an array or of a map. -/
def Arity.ofLen : Option UInt64 → Arity
  | some n => fixed n.toNat
  | none => indefinite

/-- A recursive type whose nodes can be decoded without recursion, with a context `C` that is handed
through. `begin` consumes input. -/
structure TreeDecode (C ε T : Type) where
  /-- Partially decoded node, accumulating children until `endNode`. -/
  Builder : Type
  /-- Decode a node's header: everything up to and including the header of its child list. -/
  begin : C → Reader (Fault ε) ((Builder × Arity) × C)
  /-- Attach the next fully decoded child. -/
  child : Builder → T → Except (Fault ε) Builder
  /-- Decode anything that follows the child list and finish the node. -/
  endNode : Builder → C → Reader (Fault ε) (T × C)
  begin_consumes : ∀ c bs r rest, (begin c).run bs = (.ok r, rest) → rest.length < bs.length

variable {C ε T : Type}

/-- The result of a decoding call, with the bytes that are left. -/
abbrev Decoded (C ε T : Type) := Except (Fault ε) (T × C) × Bytes

namespace TreeDecode

/-- An open node. -/
structure Frame (t : TreeDecode C ε T) where
  builder : t.Builder
  arity : Arity

/-- `Frame::expects_child`, with the arity it leaves behind. -/
def expectsChild (m : Minicbor ε) : Arity → Reader (Fault ε) (Bool × Arity)
  | .leaf => pure (false, .leaf)
  | .fixed 0 => pure (false, .fixed 0)
  | .fixed (n + 1) => pure (true, .fixed (n + 1))
  | .indefinite => do
    if (← Minicbor.lift m.peekType) = .break then
      Minicbor.lift m.skip
      pure (false, .leaf)
    else pure (true, .indefinite)

/-- `if let Arity::Fixed(remaining) = &mut parent.arity { *remaining -= 1; }`. -/
def countChild : Arity → Except (Fault ε) Arity
  | .fixed 0 => .error .panic
  | .fixed (n + 1) => .ok (.fixed n)
  | a => .ok a

section Loop
variable (t : TreeDecode C ε T) (m : Minicbor ε)

/-- The loop of `decode_tree`. -/
def loop (current : t.Frame) (parents : List t.Frame) (ctx : C) (bs : Bytes) : Decoded C ε T :=
  match _hexp : (expectsChild m current.arity).run bs with
  | (.error e, rest) => (.error e, rest)
  | (.ok (true, arity), rest) =>
    match _hbegin : (t.begin ctx).run rest with
    | (.error e, rest') => (.error e, rest')
    | (.ok ((builder, arity'), ctx'), rest') => loop ⟨builder, arity'⟩ (⟨current.builder, arity⟩ :: parents) ctx' rest'
  | (.ok (false, _), rest) =>
    match _hend : (t.endNode current.builder ctx).run rest with
    | (.error e, rest') => (.error e, rest')
    | (.ok (node, ctx'), rest') =>
      match parents with
      | [] => (.ok (node, ctx'), rest')
      | parent :: parents =>
        match t.child parent.builder node with
        | .error e => (.error e, rest')
        | .ok builder =>
          match countChild parent.arity with
          | .error e => (.error e, rest')
          | .ok arity => loop ⟨builder, arity⟩ parents ctx' rest'
termination_by 2 * bs.length + parents.length
decreasing_by
  · have hle := Reader.length_le _hexp
    have hlt := t.begin_consumes _ _ _ _ _hbegin
    simp only [List.length_cons]
    omega
  · have hle := Reader.length_le _hexp
    have hle' := Reader.length_le _hend
    simp only [List.length_cons]
    omega

/-- `decode_tree`: opens the root and runs the loop. -/
def decodeTree (ctx : C) (bs : Bytes) : Decoded C ε T :=
  Reader.next ((t.begin ctx).run bs) fun ((builder, arity), ctx) => loop t m ⟨builder, arity⟩ [] ctx

/-! ### The direct recursion -/

mutual

/-- Call `begin`, decode the children, call `endNode`. -/
def decodeRec : (fuel : ℕ) → C → Reader (Fault ε) (T × C)
  | 0, _ => .throw .outOfFuel
  | fuel + 1, ctx => do
    let ((builder, arity), ctx) ← t.begin ctx
    let (builder, ctx) ← decodeChildren fuel arity builder ctx
    t.endNode builder ctx

/-- No child for a leaf, `n` children for a fixed arity, else children until a break, which is consumed;
each goes to `child` in order. -/
def decodeChildren : (fuel : ℕ) → Arity → t.Builder → C → Reader (Fault ε) (t.Builder × C)
  | 0, _, _, _ => .throw .outOfFuel
  | _ + 1, .leaf, builder, ctx => pure (builder, ctx)
  | _ + 1, .fixed 0, builder, ctx => pure (builder, ctx)
  | fuel + 1, .fixed (n + 1), builder, ctx => do
    let (node, ctx) ← decodeRec fuel ctx
    let builder ← .ofExcept (t.child builder node)
    decodeChildren fuel (.fixed n) builder ctx
  | fuel + 1, .indefinite, builder, ctx => do
    if (← Minicbor.lift m.peekType) = .break then
      Minicbor.lift m.skip
      pure (builder, ctx)
    else
      let (node, ctx) ← decodeRec fuel ctx
      let builder ← .ofExcept (t.child builder node)
      decodeChildren fuel .indefinite builder ctx

end

end Loop

/-! ### Progress -/

section Progress
variable {t : TreeDecode C ε T} {m : Minicbor ε}

theorem decodeRec_consumes {fuel : ℕ} {ctx : C} {bs rest : Bytes} {r : T × C}
    (h : (decodeRec t m fuel ctx).run bs = (.ok r, rest)) : rest.length < bs.length := by
  cases fuel with
  | zero => simp [decodeRec] at h
  | succ fuel =>
    rw [decodeRec, Reader.bind_eq_ok] at h
    obtain ⟨⟨⟨builder, arity⟩, ctx'⟩, mid, hbegin, h⟩ := h
    have hlt := t.begin_consumes _ _ _ _ hbegin
    have hle := Reader.length_le h
    omega

end Progress

/-! ### The loop continues the recursion -/

section Equivalence
variable (t : TreeDecode C ε T) (m : Minicbor ε)

/-- The loop after a node is decoded: it goes to the innermost open node, or is the result. -/
def resume : (parents : List t.Frame) → T × C → Bytes → Decoded C ε T
  | [], r, bs => (.ok r, bs)
  | parent :: parents, (node, ctx), bs =>
    Reader.next (t.child parent.builder node, bs) fun builder bs =>
      Reader.next (countChild parent.arity, bs) fun arity => loop t m ⟨builder, arity⟩ parents ctx

/-- The loop from the header of a node on. -/
def start (parents : List t.Frame) (ctx : C) (bs : Bytes) : Decoded C ε T :=
  Reader.next ((t.begin ctx).run bs) fun ((builder, arity), ctx) => loop t m ⟨builder, arity⟩ parents ctx

theorem loop_eq (current : t.Frame) (parents : List t.Frame) (ctx : C) (bs : Bytes) :
    loop t m current parents ctx bs =
      Reader.next ((expectsChild m current.arity).run bs) fun (more, arity) rest =>
        if more then start t m (⟨current.builder, arity⟩ :: parents) ctx rest
        else Reader.next ((t.endNode current.builder ctx).run rest) (resume t m parents) := by
  rw [loop]
  cases hexp : (expectsChild m current.arity).run bs with
  | mk r rest =>
    rcases r with e | ⟨more, arity⟩
    · rfl
    cases more with
    | true =>
      simp only [Reader.next_ok, if_true, start]
      rcases (t.begin ctx).run rest with ⟨_ | _, _⟩ <;> rfl
    | false =>
      simp only [Reader.next_ok, Bool.false_eq_true, if_false]
      rcases (t.endNode current.builder ctx).run rest with ⟨_ | ⟨node, ctx'⟩, rest'⟩
      · rfl
      cases parents with
      | nil => rfl
      | cons parent parents =>
        simp only [Reader.next_ok, resume]
        cases t.child parent.builder node with
        | error e => rfl
        | ok builder =>
          simp only [Reader.next_ok]
          cases countChild parent.arity <;> rfl

/-- What the loop does with an open node, given what the recursion does with its children. -/
def Follows (r : Except (Fault ε) (t.Builder × C) × Bytes) (parents : List t.Frame) : Decoded C ε T :=
  Reader.next r fun (builder, ctx) rest => Reader.next ((t.endNode builder ctx).run rest) (resume t m parents)

/-- The invariant of the loop, for one amount of fuel: a node that the recursion decodes is handed on to the
open nodes, and an open node goes on as the recursion does with its children. -/
structure Agree (fuel : ℕ) : Prop where
  node : ∀ ctx bs parents, 2 * bs.length + 1 ≤ fuel →
    start t m parents ctx bs = Reader.next ((decodeRec t m fuel ctx).run bs) (resume t m parents)
  children : ∀ arity builder ctx bs parents, 2 * bs.length + 2 ≤ fuel →
    loop t m ⟨builder, arity⟩ parents ctx bs =
      Follows t m ((decodeChildren t m fuel arity builder ctx).run bs) parents

variable {t m}

/-- A child in front: the loop opens it, attaches it, and is back at the open node. -/
theorem Agree.child {fuel : ℕ} (h : Agree t m fuel) {arity arity' : Arity} {builder : t.Builder} {ctx : C}
    {bs : Bytes} {parents : List t.Frame} (hcount : countChild (ε := ε) arity = .ok arity')
    (hlen : 2 * bs.length + 1 ≤ fuel) :
    start t m (⟨builder, arity⟩ :: parents) ctx bs =
      Follows t m ((do
        let (node, ctx) ← decodeRec t m fuel ctx
        let builder ← .ofExcept (t.child builder node)
        decodeChildren t m fuel arity' builder ctx : Reader (Fault ε) (t.Builder × C)).run bs) parents := by
  rw [h.node ctx bs _ hlen, Follows, Reader.run_bind, Reader.next_next]
  apply Reader.next_congr
  rintro ⟨node, ctx'⟩ rest hnode
  have hlt := decodeRec_consumes hnode
  rw [resume, Reader.run_bind, Reader.next_next, Reader.run_ofExcept]
  apply Reader.next_congr
  rintro builder' rest' hchild
  obtain ⟨-, rfl⟩ := Prod.mk.inj hchild
  rw [hcount, Reader.next_ok]
  exact h.children arity' builder' ctx' rest parents (by omega)

theorem loop_closes {builder : t.Builder} {arity arity' : Arity} {parents : List t.Frame} {ctx : C} {bs rest : Bytes}
    (h : (expectsChild m arity).run bs = (.ok (false, arity'), rest)) :
    loop t m ⟨builder, arity⟩ parents ctx bs = Follows t m (.ok (builder, ctx), rest) parents := by
  rw [loop_eq, h]
  rfl

theorem loop_opens {builder : t.Builder} {arity : Arity} {parents : List t.Frame} {ctx : C} {bs rest : Bytes}
    (h : (expectsChild m arity).run bs = (.ok (true, arity), rest)) :
    loop t m ⟨builder, arity⟩ parents ctx bs = start t m (⟨builder, arity⟩ :: parents) ctx rest := by
  rw [loop_eq, h]
  rfl

theorem agree (fuel : ℕ) : Agree t m fuel := by
  induction fuel with
  | zero =>
    refine ⟨?_, ?_⟩
    · intro ctx bs parents hlen
      omega
    · intro arity builder ctx bs parents hlen
      omega
  | succ fuel ih =>
    refine ⟨?_, ?_⟩
    · intro ctx bs parents hlen
      rw [start, decodeRec, Reader.run_bind, Reader.next_next]
      apply Reader.next_congr
      rintro ⟨⟨builder, arity⟩, ctx'⟩ rest hbegin
      have hlt := t.begin_consumes _ _ _ _ hbegin
      show loop t m ⟨builder, arity⟩ parents ctx' rest = _
      rw [ih.children arity builder ctx' rest parents (by omega), Follows, Reader.run_bind, Reader.next_next]
    · intro arity builder ctx bs parents hlen
      match arity with
      | .leaf => exact loop_closes rfl
      | .fixed 0 => exact loop_closes rfl
      | .fixed (n + 1) =>
        have hopen : (expectsChild m (.fixed (n + 1))).run bs = (.ok (true, .fixed (n + 1)), bs) := rfl
        rw [loop_opens hopen, decodeChildren]
        exact ih.child rfl (by omega)
      | .indefinite =>
        rw [decodeChildren, loop_eq, Follows, expectsChild, Reader.run_bind, Reader.run_bind, Reader.next_next,
          Reader.next_next]
        apply Reader.next_congr
        intro ty rest hty
        have hle := Reader.length_le hty
        by_cases hbreak : ty = .break
        · -- the break is consumed, and the node is closed
          simp only [hbreak, if_true, Reader.run_bind, Reader.next_next]
          apply Reader.next_congr
          intro _ rest' _
          rfl
        · simp only [hbreak, if_false, Reader.run_pure, Reader.next_ok, if_true]
          exact ih.child rfl (by omega)

end Equivalence

/-- `decode_tree` returns the value, the error and the position of the direct recursion, which the given
fuel and any larger amount is enough for. -/
theorem decodeTree_eq_decodeRec (t : TreeDecode C ε T) (m : Minicbor ε) (ctx : C) (bs : Bytes) (k : ℕ) :
    decodeTree t m ctx bs = (decodeRec t m (2 * bs.length + 1 + k) ctx).run bs := by
  have hagree := (agree (t := t) (m := m) (2 * bs.length + 1 + k)).node ctx bs [] (by omega)
  rw [show decodeTree t m ctx bs = start t m [] ctx bs from rfl, hagree]
  rcases (decodeRec t m (2 * bs.length + 1 + k) ctx).run bs with ⟨_ | _, _⟩ <;> rfl

/-! ### More fuel -/

section Fuel
variable {t : TreeDecode C ε T} {m : Minicbor ε}

/-- What is decoded with one amount of fuel is decoded with one more. -/
structure Grows (t : TreeDecode C ε T) (m : Minicbor ε) (fuel : ℕ) : Prop where
  node : ∀ {ctx bs r rest}, (decodeRec t m fuel ctx).run bs = (.ok r, rest) →
    (decodeRec t m (fuel + 1) ctx).run bs = (.ok r, rest)
  children : ∀ {arity builder ctx bs r rest}, (decodeChildren t m fuel arity builder ctx).run bs = (.ok r, rest) →
    (decodeChildren t m (fuel + 1) arity builder ctx).run bs = (.ok r, rest)

theorem Grows.child {fuel : ℕ} (h : Grows t m fuel) {arity : Arity} {builder : t.Builder} {ctx : C} {bs rest : Bytes}
    {r : t.Builder × C}
    (hrun : (do
      let (node, ctx) ← decodeRec t m fuel ctx
      let builder ← .ofExcept (t.child builder node)
      decodeChildren t m fuel arity builder ctx : Reader (Fault ε) (t.Builder × C)).run bs = (.ok r, rest)) :
    (do
      let (node, ctx) ← decodeRec t m (fuel + 1) ctx
      let builder ← .ofExcept (t.child builder node)
      decodeChildren t m (fuel + 1) arity builder ctx : Reader (Fault ε) (t.Builder × C)).run bs = (.ok r, rest) := by
  obtain ⟨⟨node, ctx'⟩, mid, hnode, hrun⟩ := Reader.bind_eq_ok.1 hrun
  obtain ⟨builder', mid', hchild, hrun⟩ := Reader.bind_eq_ok.1 hrun
  exact Reader.bind_eq_ok.2 ⟨(node, ctx'), mid, h.node hnode,
    Reader.bind_eq_ok.2 ⟨builder', mid', hchild, h.children hrun⟩⟩

theorem grows (fuel : ℕ) : Grows t m fuel := by
  induction fuel with
  | zero =>
    refine ⟨?_, ?_⟩
    · intro ctx bs r rest h
      cases h
    · intro arity builder ctx bs r rest h
      cases h
  | succ fuel ih =>
    refine ⟨?_, ?_⟩
    · intro ctx bs r rest h
      rw [decodeRec, Reader.bind_eq_ok] at h ⊢
      obtain ⟨opened, mid, hbegin, h⟩ := h
      obtain ⟨closed, mid', hchildren, h⟩ := Reader.bind_eq_ok.1 h
      exact ⟨opened, mid, hbegin, Reader.bind_eq_ok.2 ⟨closed, mid', ih.children hchildren, h⟩⟩
    · intro arity builder ctx bs r rest h
      match arity with
      | .leaf => exact h
      | .fixed 0 => exact h
      | .fixed (n + 1) =>
        rw [decodeChildren] at h ⊢
        exact ih.child h
      | .indefinite =>
        rw [decodeChildren, Reader.bind_eq_ok] at h ⊢
        obtain ⟨ty, mid, hty, h⟩ := h
        refine ⟨ty, mid, hty, ?_⟩
        split at h
        · next hbreak =>
          rw [if_pos hbreak]
          exact h
        · next hbreak =>
          rw [if_neg hbreak]
          exact ih.child h

theorem decodeTree_of_decodeRec {fuel : ℕ} {ctx : C} {bs rest : Bytes} {r : T × C}
    (h : (decodeRec t m fuel ctx).run bs = (.ok r, rest)) : decodeTree t m ctx bs = (.ok r, rest) := by
  have hmore : ∀ k, (decodeRec t m (fuel + k) ctx).run bs = (.ok r, rest) := by
    intro k
    induction k with
    | zero => exact h
    | succ k ih => exact (grows (fuel + k)).node ih
  rw [decodeTree_eq_decodeRec t m ctx bs fuel, add_comm]
  exact hmore _

end Fuel

end TreeDecode
end Pallas
