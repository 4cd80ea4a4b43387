import Mathlib.Data.List.Infix

/-!
# Words that tell where they end

No word of a prefix code is the front of another, and none is empty. So the words that a stream is made of are found again
in it one by one, also when only a front of the stream is there.
-/

variable {α : Type*}

structure PrefixCode (Word : List α → Prop) : Prop where
  eq_of_prefix : ∀ {a b}, Word a → Word b → a <+: b → a = b
  ne_nil : ∀ {a}, Word a → a ≠ []

namespace PrefixCode
variable {Word : List α → Prop} (h : PrefixCode Word) {a b : List α} {as bs : List (List α)} {rest : List α}
include h

theorem eq_of_front {stream : List α} (ha : Word a) (hb : Word b) (hastream : a <+: stream) (hbstream : b <+: stream) :
    a = b := by
  rcases List.prefix_or_prefix_of_prefix hastream hbstream with hab | hba
  · exact h.eq_of_prefix ha hb hab
  · exact (h.eq_of_prefix hb ha hba).symm

theorem eq_nil_of_flatten (hbs : ∀ b ∈ bs, Word b) (hnil : bs.flatten = []) : bs = [] := by
  cases bs with
  | nil => rfl
  | cons b bs => exact absurd (List.append_eq_nil_iff.1 hnil).1 (h.ne_nil (hbs b List.mem_cons_self))

theorem prefix_of_flatten (has : ∀ a ∈ as, Word a) (hbs : ∀ b ∈ bs, Word b) (hstream : as.flatten ++ rest <+: bs.flatten) :
    as <+: bs := by
  induction as generalizing bs with
  | nil => exact List.nil_prefix
  | cons a as ih =>
    obtain ⟨ha, has⟩ := List.forall_mem_cons.1 has
    rw [List.flatten_cons, List.append_assoc] at hstream
    cases bs with
    | nil => exact absurd (List.append_eq_nil_iff.1 (List.prefix_nil.1 hstream)).1 (h.ne_nil ha)
    | cons b bs =>
      obtain ⟨hb, hrest⟩ := List.forall_mem_cons.1 hbs
      obtain rfl := h.eq_of_front ha hb ((List.prefix_append _ _).trans hstream) (List.prefix_append _ _)
      rw [List.flatten_cons] at hstream
      exact (List.prefix_cons_inj a).2 (ih has hrest ((List.prefix_append_right_inj _).1 hstream))

theorem eq_of_flatten (has : ∀ a ∈ as, Word a) (hbs : ∀ b ∈ bs, Word b) (hstream : as.flatten = bs.flatten) : as = bs := by
  have hfront : as.flatten ++ [] <+: bs.flatten := by rw [List.append_nil, hstream]
  obtain ⟨more, rfl⟩ := h.prefix_of_flatten has hbs hfront
  have hmore : more.flatten = [] := by simpa using hstream
  rw [h.eq_nil_of_flatten (fun b hb => hbs b (List.mem_append_right _ hb)) hmore, List.append_nil]

end PrefixCode
