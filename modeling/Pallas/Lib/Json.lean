import Mathlib

/-!
# JSON values and their text

`Json` is a JSON value with integers for numbers, as a library with sorted maps keeps it: `object` inserts the
entries by their keys. `serialize` is its compact text. How a number and a string are written is left to a library
(`JsonLeaves`), which is assumed to write integers in decimal and to quote a string of letters and digits as it is.

The text determines the value (`serialize_inj`), as long as its strings are such strings: it is read from the left,
each value up to where it ends.
-/

/-- A JSON value. -/
inductive Json where
  | null
  | num (z : ℤ)
  | str (s : String)
  | arr (xs : List Json)
  | obj (entries : List (String × Json))

namespace Json

/-- Inserts an entry by its key; a key that is there already gets the new value. -/
def insertEntry (key : String) (value : Json) : List (String × Json) → List (String × Json)
  | [] => [(key, value)]
  | (k, v) :: entries =>
    if key < k then (key, value) :: (k, v) :: entries
    else if key = k then (key, value) :: entries
    else (k, v) :: insertEntry key value entries

/-- An object from its entries, inserted one after the other. -/
def object (entries : List (String × Json)) : Json := obj (entries.foldl (fun es e => insertEntry e.1 e.2 es) [])

theorem insertEntry_last {key : String} {value : Json} {entries : List (String × Json)}
    (h : ∀ e ∈ entries, e.1 < key) : insertEntry key value entries = entries ++ [(key, value)] := by
  induction entries with
  | nil => rfl
  | cons e entries ih =>
    have hlt := h e List.mem_cons_self
    have hne : ¬ key = e.1 := by
      intro heq
      exact absurd (heq ▸ hlt) (lt_irrefl _)
    rw [insertEntry, if_neg (lt_asymm hlt), if_neg hne, ih fun e he => h e (List.mem_cons_of_mem _ he),
      List.cons_append]

theorem object_of_sorted {entries : List (String × Json)} (h : entries.Pairwise fun e e' => e.1 < e'.1) :
    object entries = obj entries := by
  unfold object
  congr 1
  induction entries using List.reverseRecOn with
  | nil => rfl
  | append_singleton entries e ih =>
    rw [List.pairwise_append] at h
    obtain ⟨hsorted, -, hlast⟩ := h
    rw [List.foldl_append, ih hsorted, List.foldl_cons, List.foldl_nil,
      insertEntry_last fun e' he' => hlast e' he' e (List.mem_singleton.2 rfl)]

theorem object_pair {k k' : String} {v v' : Json} (h : k < k') : object [(k, v), (k', v')] = obj [(k, v), (k', v')] :=
  object_of_sorted (List.pairwise_pair.2 h)

theorem object_triple {k k' k'' : String} {v v' v'' : Json} (h : k < k') (h' : k' < k'') :
    object [(k, v), (k', v'), (k'', v'')] = obj [(k, v), (k', v'), (k'', v'')] := by
  refine object_of_sorted (List.pairwise_cons.2 ⟨?_, List.pairwise_pair.2 h'⟩)
  intro e he
  rcases List.mem_cons.1 he with rfl | he
  · exact h
  · rw [List.mem_singleton.1 he]
    exact h.trans h'

theorem object_swapped {k k' : String} {v v' : Json} (h : k' < k) :
    object [(k, v), (k', v')] = obj [(k', v'), (k, v)] := by
  have hinsert : insertEntry k' v' [(k, v)] = [(k', v'), (k, v)] := if_pos h
  exact congrArg obj hinsert

/-- How a library writes what is not composed. -/
structure Leaves where
  number : ℤ → String
  string : String → String

/-- Letters and digits. -/
def PlainText (s : String) : Prop := ∀ c ∈ s.toList, c.isAlphanum = true

/-- Integers in decimal, and plain strings in quotes. -/
structure Leaves.Lawful (F : Leaves) : Prop where
  number : ∀ z, F.number z = toString z
  string : ∀ s, PlainText s → F.string s = "\"" ++ s ++ "\""

/-- Texts after the first, each with a comma in front. -/
def commasBefore : List String → String
  | [] => ""
  | s :: ss => "," ++ s ++ commasBefore ss

/-- Texts with commas between them. -/
def commas : List String → String
  | [] => ""
  | s :: ss => s ++ commasBefore ss

mutual

/-- The compact text of a value. -/
def serialize (F : Leaves) : Json → String
  | null => "null"
  | num z => F.number z
  | str s => F.string s
  | arr xs => "[" ++ commas (serializeAll F xs) ++ "]"
  | obj entries => "\x7b" ++ commas (serializeEntries F entries) ++ "\x7d"

def serializeAll (F : Leaves) : List Json → List String
  | [] => []
  | x :: xs => serialize F x :: serializeAll F xs

def serializeEntries (F : Leaves) : List (String × Json) → List String
  | [] => []
  | (k, v) :: entries => (F.string k ++ ":" ++ serialize F v) :: serializeEntries F entries

end

theorem serializeAll_eq (F : Leaves) (xs : List Json) : serializeAll F xs = xs.map (serialize F) := by
  induction xs with
  | nil => rfl
  | cons x xs ih => rw [serializeAll, ih, List.map_cons]

section Members
variable {F : Leaves} (hF : F.Lawful)
include hF

theorem serialize_member {k : String} (hk : PlainText k) (v : Json) :
    serialize F (obj [(k, v)]) = "\x7b\"" ++ k ++ "\":" ++ serialize F v ++ "\x7d" := by
  rw [serialize, serializeEntries, serializeEntries, commas, commasBefore, hF.string k hk, ← String.toList_inj]
  simp [String.toList_append]

theorem serialize_members {k k' : String} (hk : PlainText k) (hk' : PlainText k') (v v' : Json) :
    serialize F (obj [(k, v), (k', v')]) =
      "\x7b\"" ++ k ++ "\":" ++ serialize F v ++ ",\"" ++ k' ++ "\":" ++ serialize F v' ++ "\x7d" := by
  rw [serialize, serializeEntries, serializeEntries, serializeEntries, commas, commasBefore, commasBefore,
    hF.string k hk,
    hF.string k' hk', ← String.toList_inj]
  simp [String.toList_append]

theorem serialize_members₃ {k k' k'' : String} (hk : PlainText k) (hk' : PlainText k') (hk'' : PlainText k'')
    (v v' v'' : Json) :
    serialize F (obj [(k, v), (k', v'), (k'', v'')]) =
      "\x7b\"" ++ k ++ "\":" ++ serialize F v ++ ",\"" ++ k' ++ "\":" ++ serialize F v' ++
        ",\"" ++ k'' ++ "\":" ++ serialize F v'' ++ "\x7d" := by
  rw [serialize, serializeEntries, serializeEntries, serializeEntries, serializeEntries, commas, commasBefore,
    commasBefore, commasBefore, hF.string k hk, hF.string k' hk', hF.string k'' hk'', ← String.toList_inj]
  simp [String.toList_append]

end Members

/-! ### Reading from the left -/

mutual

/-- Every string in the value is plain. -/
def Plain : Json → Prop
  | null => True
  | num _ => True
  | str s => PlainText s
  | arr xs => PlainAll xs
  | obj entries => PlainEntries entries

def PlainAll : List Json → Prop
  | [] => True
  | x :: xs => Plain x ∧ PlainAll xs

def PlainEntries : List (String × Json) → Prop
  | [] => True
  | (k, v) :: entries => PlainText k ∧ Plain v ∧ PlainEntries entries

end

/-- The characters of a number. -/
def numeral (c : Char) : Bool := c.isDigit || c = '-'

/-- The end of a number: no numeral follows. -/
def Ended (s : List Char) : Prop := ∀ c ∈ s.head?, numeral c = false

theorem span_unique {p : Char → Bool} {a a' s s' : List Char} (ha : ∀ c ∈ a, p c = true) (ha' : ∀ c ∈ a', p c = true)
    (hs : ∀ c ∈ s.head?, p c = false) (hs' : ∀ c ∈ s'.head?, p c = false) (h : a ++ s = a' ++ s') :
    a = a' ∧ s = s' := by
  have htake : ∀ {b t : List Char}, (∀ c ∈ b, p c = true) → (∀ c ∈ t.head?, p c = false) →
      (b ++ t).takeWhile p = b := by
    intro b t hb ht
    rw [List.takeWhile_append_of_pos hb]
    cases t with
    | nil => rw [List.takeWhile_nil, List.append_nil]
    | cons c t =>
      have hc := ht c rfl
      rw [List.takeWhile_cons_of_neg (by simp [hc]), List.append_nil]
  have haa : a = a' := by rw [← htake ha hs, h, htake ha' hs']
  subst haa
  exact ⟨rfl, List.append_cancel_left h⟩

theorem digits_repr (n : ℕ) : ∀ c ∈ n.repr.toList, c.isDigit = true := by
  intro c hc
  rw [Nat.toList_repr] at hc
  exact Nat.isDigit_of_mem_toDigits (by omega) (by omega) hc

theorem numerals_toString (z : ℤ) : ∀ c ∈ (toString z).toList, numeral c = true := by
  have hdigits : ∀ n : ℕ, ∀ c ∈ n.repr.toList, numeral c = true := by
    intro n c hc
    rw [numeral, digits_repr n c hc, Bool.true_or]
  rw [Int.toString_eq_repr, Int.repr_eq_if]
  split
  · exact hdigits _
  · intro c hc
    rw [String.toList_append] at hc
    rcases List.mem_append.1 hc with hc | hc
    · rw [List.mem_singleton.1 hc]
      rfl
    · exact hdigits _ c hc

theorem repr_ne_minus {m n : ℕ} : m.repr ≠ "-" ++ n.repr := by
  intro h
  have hmem : '-' ∈ m.repr.toList := by
    rw [h, String.toList_append]
    exact List.mem_append_left _ (List.mem_singleton.2 rfl)
  exact absurd (digits_repr m _ hmem) (by decide)

theorem toString_int_inj {z z' : ℤ} (h : toString z = toString z') : z = z' := by
  simp only [Int.toString_eq_repr, Int.repr_eq_if] at h
  split at h
  · split at h
    · have hnat := Nat.repr_inj.1 h
      omega
    · exact absurd h repr_ne_minus
  · split at h
    · exact absurd h.symm repr_ne_minus
    · rw [← String.toList_inj, String.toList_append, String.toList_append] at h
      have hnat := Nat.repr_inj.1 (String.toList_inj.1 (List.append_cancel_left h))
      omega

/-- The kind of a value, as its first character shows it. -/
def kind : Json → ℕ
  | null => 0
  | num _ => 1
  | str _ => 2
  | arr _ => 3
  | obj _ => 4

/-- The kind of value that a character begins; `5` is for those that begin none. -/
def kindOf (c : Char) : ℕ :=
  if c = 'n' then 0 else if numeral c then 1 else if c = '"' then 2 else if c = '[' then 3 else if c = '{' then 4 else 5

theorem ended_cons {c : Char} (hc : numeral c = false) (s : List Char) : Ended (c :: s) := by
  intro c' hc'
  cases hc'
  exact hc

theorem ended_more {ss : List String} {c : Char} (hc : numeral c = false) (s : List Char) :
    Ended ((commasBefore ss).toList ++ c :: s) := by
  cases ss with
  | nil => exact ended_cons hc s
  | cons t ts =>
    rw [commasBefore, String.toList_append, String.toList_append, List.append_assoc, List.append_assoc]
    exact ended_cons (by decide) _

theorem bracket_toList {o c text : String} {x y : Char} (ho : o.toList = [x]) (hc : c.toList = [y]) (s : List Char) :
    (o ++ text ++ c).toList ++ s = x :: (text.toList ++ y :: s) := by
  simp only [String.toList_append, ho, hc, List.append_assoc, List.cons_append, List.nil_append]

theorem commas_toList (t : String) (ss : List String) (s : List Char) :
    (commas (t :: ss)).toList ++ s = t.toList ++ ((commasBefore ss).toList ++ s) := by
  rw [commas, String.toList_append, List.append_assoc]

theorem commasBefore_toList (t : String) (ss : List String) (s : List Char) :
    (commasBefore (t :: ss)).toList ++ s = ',' :: (t.toList ++ ((commasBefore ss).toList ++ s)) := by
  rw [commasBefore, String.toList_append, String.toList_append, List.append_assoc, List.append_assoc]
  rfl

theorem member_toList (F : Leaves) (k : String) (v : Json) (s : List Char) :
    (F.string k ++ ":" ++ serialize F v).toList ++ s = (F.string k).toList ++ ':' :: ((serialize F v).toList ++ s) := by
  rw [String.toList_append, String.toList_append, List.append_assoc, List.append_assoc]
  rfl

theorem kind_lt (j : Json) : j.kind < 5 := by
  cases j with
  | null => exact Nat.zero_lt_succ 4
  | num z => exact Nat.lt_add_of_pos_right (Nat.zero_lt_succ 3)
  | str s => exact Nat.lt_add_of_pos_right (Nat.zero_lt_succ 2)
  | arr xs => exact Nat.lt_add_of_pos_right (Nat.zero_lt_succ 1)
  | obj entries => exact Nat.lt_succ_self 4

section Injective
variable {F : Leaves} (hF : F.Lawful)
include hF

theorem first_kind {j : Json} (h : Plain j) : ∃ c rest, (serialize F j).toList = c :: rest ∧ kindOf c = j.kind := by
  cases j with
  | null => exact ⟨'n', ['u', 'l', 'l'], by rw [serialize]; rfl, rfl⟩
  | num z =>
    have hchars := numerals_toString z
    have hne : (toString z).toList ≠ [] := by
      rw [Int.toString_eq_repr, Int.repr_eq_if]
      split
      · rw [ne_eq, String.toList_eq_nil_iff]
        exact Nat.repr_ne_empty
      · rw [String.toList_append]
        exact List.append_ne_nil_of_left_ne_nil (List.cons_ne_nil '-' []) _
    obtain ⟨c, rest, hc⟩ := List.exists_cons_of_ne_nil hne
    have hnum := hchars c (hc ▸ List.mem_cons_self)
    refine ⟨c, rest, by rw [serialize, hF.number, hc], ?_⟩
    have hn : c ≠ 'n' := by
      rintro rfl
      exact absurd hnum (by decide)
    rw [kindOf, if_neg hn, if_pos hnum, kind]
  | str s => exact ⟨'"', _, by rw [serialize, hF.string s h, String.toList_append, String.toList_append]; rfl, rfl⟩
  | arr xs => exact ⟨'[', _, by rw [serialize, String.toList_append, String.toList_append]; rfl, rfl⟩
  | obj entries => exact ⟨'{', _, by rw [serialize, String.toList_append, String.toList_append]; rfl, rfl⟩

/-- Two texts that agree begin values of one kind. -/
theorem kind_eq {j j' : Json} (hj : Plain j) (hj' : Plain j') {s s' : List Char}
    (h : (serialize F j).toList ++ s = (serialize F j').toList ++ s') : j.kind = j'.kind := by
  obtain ⟨c, rest, hc, hkind⟩ := first_kind hF hj
  obtain ⟨c', rest', hc', hkind'⟩ := first_kind hF hj'
  rw [hc, hc', List.cons_append, List.cons_append] at h
  rw [← hkind, ← hkind', (List.cons.inj h).1]

theorem string_inj {s s' : String} (hs : PlainText s) (hs' : PlainText s') {t t' : List Char}
    (h : (F.string s).toList ++ t = (F.string s').toList ++ t') : s = s' ∧ t = t' := by
  have hquote : ∀ {s : String}, PlainText s → ∀ c ∈ s.toList, (c != '"') = true := by
    intro s hs c hc
    have halpha := hs c hc
    rw [bne_iff_ne]
    rintro rfl
    exact absurd halpha (by decide)
  have hlist : ∀ {s : String} {t : List Char}, PlainText s → (F.string s).toList ++ t = '"' :: (s.toList ++ '"' :: t) := by
    intro s t hs
    rw [hF.string s hs, String.toList_append, String.toList_append, List.append_assoc, List.append_assoc]
    rfl
  rw [hlist hs, hlist hs'] at h
  obtain ⟨htext, hrest⟩ := span_unique (hquote hs) (hquote hs') (by simp) (by simp) (List.cons.inj h).2
  exact ⟨String.toList_inj.1 htext, (List.cons.inj hrest).2⟩

theorem not_bracket {j : Json} (hj : Plain j) {s s' : List Char} : (serialize F j).toList ++ s ≠ ']' :: s' := by
  intro h
  obtain ⟨c, rest, hc, hkind⟩ := first_kind hF hj
  rw [hc, List.cons_append] at h
  rw [(List.cons.inj h).1] at hkind
  have hlt := kind_lt j
  rw [← hkind] at hlt
  exact absurd hlt (by decide)

theorem not_brace {k : String} (hk : PlainText k) {s s' : List Char} : (F.string k).toList ++ s ≠ '}' :: s' := by
  intro h
  rw [hF.string k hk, String.toList_append, String.toList_append, List.append_assoc] at h
  cases h

set_option linter.unusedSectionVars false in
mutual

/-- A text in front of something that is no numeral determines the value and where it ends. -/
theorem serialize_cut : ∀ (j : Json) {j' : Json} {s s' : List Char}, Plain j → Plain j' → Ended s → Ended s' →
    (serialize F j).toList ++ s = (serialize F j').toList ++ s' → j = j' ∧ s = s'
  | .null, j', s, s', hj, hj', hs, hs', h => by
    have hkind := kind_eq hF hj hj' h
    cases j' with
    | null => exact ⟨rfl, List.append_cancel_left h⟩
    | _ => cases hkind
  | .num z, j', s, s', hj, hj', hs, hs', h => by
    have hkind := kind_eq hF hj hj' h
    cases j' with
    | num z' =>
      rw [serialize, serialize, hF.number, hF.number] at h
      obtain ⟨htext, hrest⟩ := span_unique (numerals_toString z) (numerals_toString z') hs hs' h
      rw [toString_int_inj (String.toList_inj.1 htext)]
      exact ⟨rfl, hrest⟩
    | _ => cases hkind
  | .str t, j', s, s', hj, hj', hs, hs', h => by
    have hkind := kind_eq hF hj hj' h
    cases j' with
    | str t' =>
      obtain ⟨rfl, hrest⟩ := string_inj hF hj hj' h
      exact ⟨rfl, hrest⟩
    | _ => cases hkind
  | .arr xs, j', s, s', hj, hj', hs, hs', h => by
    have hkind := kind_eq hF hj hj' h
    cases j' with
    | arr ys =>
      rw [serialize, serialize, bracket_toList rfl rfl, bracket_toList rfl rfl] at h
      obtain ⟨rfl, hrest⟩ := items_prefix xs hj hj' (List.cons.inj h).2
      exact ⟨rfl, hrest⟩
    | _ => cases hkind
  | .obj es, j', s, s', hj, hj', hs, hs', h => by
    have hkind := kind_eq hF hj hj' h
    cases j' with
    | obj es' =>
      rw [serialize, serialize, bracket_toList rfl rfl, bracket_toList rfl rfl] at h
      obtain ⟨rfl, hrest⟩ := entries_prefix es hj hj' (List.cons.inj h).2
      exact ⟨rfl, hrest⟩
    | _ => cases hkind

theorem items_prefix : ∀ (xs : List Json) {ys : List Json} {s s' : List Char}, PlainAll xs → PlainAll ys →
    (commas (serializeAll F xs)).toList ++ ']' :: s = (commas (serializeAll F ys)).toList ++ ']' :: s' →
      xs = ys ∧ s = s'
  | [], [], s, s', hxs, hys, h => ⟨rfl, (List.cons.inj h).2⟩
  | [], y :: ys, s, s', hxs, hys, h => by
    rw [serializeAll, serializeAll, commas_toList] at h
    exact absurd h.symm (not_bracket hF hys.1)
  | x :: xs, [], s, s', hxs, hys, h => by
    rw [serializeAll, serializeAll, commas_toList] at h
    exact absurd h (not_bracket hF hxs.1)
  | x :: xs, y :: ys, s, s', hxs, hys, h => by
    rw [serializeAll, serializeAll, commas_toList, commas_toList] at h
    obtain ⟨rfl, hrest⟩ := serialize_cut x hxs.1 hys.1 (ended_more (by decide) _) (ended_more (by decide) _) h
    obtain ⟨rfl, hend⟩ := more_prefix xs hxs.2 hys.2 hrest
    exact ⟨rfl, hend⟩

theorem more_prefix : ∀ (xs : List Json) {ys : List Json} {s s' : List Char}, PlainAll xs → PlainAll ys →
    (commasBefore (serializeAll F xs)).toList ++ ']' :: s = (commasBefore (serializeAll F ys)).toList ++ ']' :: s' →
    xs = ys ∧ s = s'
  | [], [], s, s', hxs, hys, h => ⟨rfl, (List.cons.inj h).2⟩
  | [], y :: ys, s, s', hxs, hys, h => by
    rw [serializeAll, serializeAll, commasBefore_toList] at h
    cases h
  | x :: xs, [], s, s', hxs, hys, h => by
    rw [serializeAll, serializeAll, commasBefore_toList] at h
    cases h
  | x :: xs, y :: ys, s, s', hxs, hys, h => by
    rw [serializeAll, serializeAll, commasBefore_toList, commasBefore_toList] at h
    obtain ⟨rfl, hrest⟩ := serialize_cut x hxs.1 hys.1 (ended_more (by decide) _) (ended_more (by decide) _)
      (List.cons.inj h).2
    obtain ⟨rfl, hend⟩ := more_prefix xs hxs.2 hys.2 hrest
    exact ⟨rfl, hend⟩

theorem entries_prefix : ∀ (es : List (String × Json)) {es' : List (String × Json)} {s s' : List Char},
    PlainEntries es → PlainEntries es' →
    (commas (serializeEntries F es)).toList ++ '}' :: s = (commas (serializeEntries F es')).toList ++ '}' :: s' →
    es = es' ∧ s = s'
  | [], [], s, s', hes, hes', h => ⟨rfl, (List.cons.inj h).2⟩
  | [], (k, v) :: es', s, s', hes, hes', h => by
    rw [serializeEntries, serializeEntries, commas_toList, member_toList] at h
    exact absurd h.symm (not_brace hF hes'.1)
  | (k, v) :: es, [], s, s', hes, hes', h => by
    rw [serializeEntries, serializeEntries, commas_toList, member_toList] at h
    exact absurd h (not_brace hF hes.1)
  | (k, v) :: es, (k', v') :: es', s, s', hes, hes', h => by
    rw [serializeEntries, serializeEntries, commas_toList, commas_toList, member_toList, member_toList] at h
    obtain ⟨rfl, hvalue⟩ := string_inj hF hes.1 hes'.1 h
    obtain ⟨rfl, hrest⟩ := serialize_cut v hes.2.1 hes'.2.1 (ended_more (by decide) _) (ended_more (by decide) _)
      (List.cons.inj hvalue).2
    obtain ⟨rfl, hend⟩ := moreEntries_prefix es hes.2.2 hes'.2.2 hrest
    exact ⟨rfl, hend⟩

theorem moreEntries_prefix : ∀ (es : List (String × Json)) {es' : List (String × Json)} {s s' : List Char},
    PlainEntries es → PlainEntries es' →
    (commasBefore (serializeEntries F es)).toList ++ '}' :: s =
      (commasBefore (serializeEntries F es')).toList ++ '}' :: s' →
    es = es' ∧ s = s'
  | [], [], s, s', hes, hes', h => ⟨rfl, (List.cons.inj h).2⟩
  | [], (k, v) :: es', s, s', hes, hes', h => by
    rw [serializeEntries, serializeEntries, commasBefore_toList] at h
    cases h
  | (k, v) :: es, [], s, s', hes, hes', h => by
    rw [serializeEntries, serializeEntries, commasBefore_toList] at h
    cases h
  | (k, v) :: es, (k', v') :: es', s, s', hes, hes', h => by
    rw [serializeEntries, serializeEntries, commasBefore_toList, commasBefore_toList, member_toList, member_toList] at h
    obtain ⟨rfl, hvalue⟩ := string_inj hF hes.1 hes'.1 (List.cons.inj h).2
    obtain ⟨rfl, hrest⟩ := serialize_cut v hes.2.1 hes'.2.1 (ended_more (by decide) _) (ended_more (by decide) _)
      (List.cons.inj hvalue).2
    obtain ⟨rfl, hend⟩ := moreEntries_prefix es hes.2.2 hes'.2.2 hrest
    exact ⟨rfl, hend⟩

end

/-- The text determines the value. -/
theorem serialize_inj {j j' : Json} (hj : Plain j) (hj' : Plain j') (h : serialize F j = serialize F j') : j = j' := by
  have hended : Ended [] := by
    intro c hc
    cases hc
  exact (serialize_cut hF j hj hj' hended hended (by rw [h])).1

end Injective
end Json
