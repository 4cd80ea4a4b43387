import Pallas.Lib.BigEndian
import Pallas.Lib.Proc

/-!
# Code on parts of a buffer

A procedure on a `&mut [u8]` is a `Proc` whose state is the bytes of the slice. `within` runs one on a part of a larger
slice, which is `&mut buf[from..to]`; the part keeps its length, so the bytes around it stay where they are.
-/

namespace Slices
variable {ε α β : Type}

/-- `assert!`. -/
def assert (c : Bool) : Proc Bytes ε Unit := if c then pure () else Proc.panic

/-- `buf[from..to]`. -/
def slice (buf : Bytes) (a b : ℕ) : Outcome ε Bytes :=
  if a ≤ b ∧ b ≤ buf.length then .ok ((buf.take b).drop a) else .panic

/-- Runs on `buf[from..to]`. -/
def within (a b : ℕ) (p : Proc Bytes ε α) : Proc Bytes ε α := fun buf =>
  if a ≤ b ∧ b ≤ buf.length then
    match p ((buf.take b).drop a) with
    | (r, part) => (r, buf.take a ++ part ++ buf.drop b)
  else (.error .panic, buf)

/-- Runs on `buf[from..]`. -/
def after (a : ℕ) (p : Proc Bytes ε α) : Proc Bytes ε α := fun buf => within a buf.length p buf

/-- `copy_from_slice`: the lengths have to agree. -/
def copyFromSlice (src : Bytes) : Proc Bytes ε Unit := fun buf =>
  if src.length = buf.length then (.ok (), src) else (.error .panic, buf)

/-- Runs on another buffer, and gives it back with the result. -/
def on {σ τ : Type} (other : τ) (p : Proc τ ε α) : Proc σ ε (α × τ) := fun s =>
  match p other with
  | (.ok a, other') => (.ok (a, other'), s)
  | (.error e, _) => (.error e, s)

section Rules
variable {x y y' z : Bytes} {p : Proc Bytes ε α} {r : Except (Fault ε) α} {a b : ℕ}

theorem assert_true {c : Bool} {s : Bytes} (h : c = true) : (assert c : Proc Bytes ε Unit) s = (.ok (), s) := by
  subst h
  rfl

theorem drop_take_append (x y z : Bytes) : ((x ++ y ++ z).take (x.length + y.length)).drop x.length = y := by
  rw [← List.length_append, List.take_left, List.drop_left]

theorem slice_append (ha : x.length = a) (hb : a + y.length = b) :
    (slice (x ++ y ++ z) a b : Outcome ε Bytes) = .ok y := by
  subst ha hb
  rw [slice, if_pos (by simp), drop_take_append]

theorem slice_front (hb : x.length = b) : (slice (x ++ z) 0 b : Outcome ε Bytes) = .ok x :=
  slice_append (x := []) rfl (by simpa using hb)

theorem slice_back (ha : x.length = a) (hb : a + y.length = b) : (slice (x ++ y) a b : Outcome ε Bytes) = .ok y := by
  have h := slice_append (ε := ε) (z := []) ha hb
  rwa [List.append_nil] at h

theorem within_append (ha : x.length = a) (hb : a + y.length = b) (h : p y = (r, y')) :
    within a b p (x ++ y ++ z) = (r, x ++ y' ++ z) := by
  subst ha hb
  have hbefore : (x ++ y ++ z).take x.length = x := by rw [List.append_assoc, List.take_left]
  have hafter : (x ++ y ++ z).drop (x.length + y.length) = z := by rw [← List.length_append, List.drop_left]
  rw [within, if_pos (by simp), drop_take_append, h, hbefore, hafter]

theorem within_front (hb : y.length = b) (h : p y = (r, y')) : within 0 b p (y ++ z) = (r, y' ++ z) := by
  have hfront := within_append (x := []) (z := z) rfl (by simpa using hb) h
  simpa using hfront

theorem after_append (ha : x.length = a) (h : p y = (r, y')) : after a p (x ++ y) = (r, x ++ y') := by
  have hend := within_append (z := []) ha (b := (x ++ y).length) (by simp [← ha]) h
  simpa [after] using hend

theorem copyFromSlice_ok {src : Bytes} (h : src.length = y.length) :
    (copyFromSlice src : Proc Bytes ε Unit) y = (.ok (), src) :=
  if_pos h

theorem on_ok {σ τ : Type} {other other' : τ} {p : Proc τ ε α} {s : σ} {v : α} (h : p other = (.ok v, other')) :
    on other p s = (.ok (v, other'), s) := by
  rw [on, h]

end Rules

/-! ### Lengths -/

/-- The slice is as long as before in every run, and the run ends. -/
def KeepsLength (p : Proc Bytes ε α) : Prop := ∀ n, Proc.Steady (fun s : Bytes => s.length = n) (fun _ => 0) p

namespace KeepsLength
variable {p : Proc Bytes ε α}

theorem of_runs (h : ∀ s, (p s).2.length = s.length ∧ (p s).1 ≠ .error .outOfFuel) : KeepsLength p :=
  fun _ => ⟨fun s hs => (h s).1.trans hs, fun _ _ => le_rfl, fun s _ => (h s).2⟩

theorem length_eq (h : KeepsLength p) (s : Bytes) : (p s).2.length = s.length := (h s.length).keeps s rfl

theorem ends (h : KeepsLength p) (s : Bytes) : (p s).1 ≠ .error .outOfFuel := (h s.length).fueled s rfl

theorem pure (a : α) : KeepsLength (pure a : Proc Bytes ε α) := fun _ => .pure a

theorem throw (e : ε) : KeepsLength (Proc.throw e : Proc Bytes ε α) := fun _ => .throw e

theorem get : KeepsLength (Proc.get : Proc Bytes ε Bytes) := fun _ => .get

theorem bind {f : α → Proc Bytes ε β} (hp : KeepsLength p) (hf : ∀ a, KeepsLength (f a)) : KeepsLength (p >>= f) :=
  fun n => (hp n).bind fun a => hf a n

theorem assert (c : Bool) : KeepsLength (assert c : Proc Bytes ε Unit) := by
  cases c with
  | true => exact pure ()
  | false => exact fun _ => .panic

theorem copyFromSlice (src : Bytes) : KeepsLength (copyFromSlice src : Proc Bytes ε Unit) := by
  refine of_runs fun s => ?_
  rw [Slices.copyFromSlice]
  split_ifs with h
  · exact ⟨h, nofun⟩
  · exact ⟨rfl, nofun⟩

theorem within (a b : ℕ) (h : KeepsLength p) : KeepsLength (within a b p) := by
  refine of_runs fun s => ?_
  rw [Slices.within]
  split_ifs with hab
  · have hlen := h.length_eq ((s.take b).drop a)
    have hends := h.ends ((s.take b).drop a)
    cases hp : p ((s.take b).drop a) with
    | mk r part =>
      rw [hp] at hlen hends
      simp only [List.length_append, List.length_take, List.length_drop] at hlen ⊢
      exact ⟨by omega, hends⟩
  · exact ⟨rfl, nofun⟩

theorem after (a : ℕ) (h : KeepsLength p) : KeepsLength (after a p) :=
  of_runs fun s => ⟨(h.within a s.length).length_eq s, (h.within a s.length).ends s⟩

theorem on (other : Bytes) (h : KeepsLength p) : KeepsLength (on other p : Proc Bytes ε (α × Bytes)) := by
  refine of_runs fun s => ?_
  have hends := h.ends other
  rw [Slices.on]
  cases hp : p other with
  | mk r other' =>
    rw [hp] at hends
    cases r with
    | ok a => exact ⟨rfl, nofun⟩
    | error e => exact ⟨rfl, fun he => hends (by cases he; rfl)⟩

end KeepsLength

end Slices
