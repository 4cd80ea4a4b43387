import Mathlib.Data.List.AList
import Mathlib.Data.Option.Basic
import Pallas.Lib.FinMap

/-!
# Hash tables

`std::collections::HashMap` as an association list with distinct keys: its entries stand in the order in which an iteration
visits them, and that order is arbitrary. Two tables are equal, as `PartialEq` has it, if they hold the same entries in
whatever order (`Alike`), and what is found at a key is then the same.

`collect` pours a table into an ordered map, converting the values on the way. The result does not depend on the order
(`collect_congr`).
-/

open Std

/-- A table, with its entries in the order of an iteration. -/
abbrev HashTable (κ ν : Type) := AList fun _ : κ => ν

namespace HashTable
variable {κ ν ω : Type} [DecidableEq κ] {a b : HashTable κ ν} {R : ν → ν → Prop}

/-! ### Tables that are equal as maps -/

/-- The same keys, with values that `R` relates. -/
def Alike (R : ν → ν → Prop) (a b : HashTable κ ν) : Prop := ∀ k, Option.Rel R (a.lookup k) (b.lookup k)

@[simp] theorem rel_none_left {S : ν → ω → Prop} {o : Option ω} : Option.Rel S none o ↔ o = none := by
  constructor
  · rintro ⟨⟩
    rfl
  · rintro rfl
    exact .none

@[simp] theorem rel_some_left {S : ν → ω → Prop} {v : ν} {o : Option ω} :
    Option.Rel S (some v) o ↔ ∃ w, o = some w ∧ S v w := by
  constructor
  · rintro ⟨h⟩
    exact ⟨_, rfl, h⟩
  · rintro ⟨w, rfl, h⟩
    exact .some h

theorem rel_refl (hR : ∀ v, R v v) (o : Option ν) : Option.Rel R o o := by
  cases o with
  | none => exact .none
  | some v => exact .some (hR v)

theorem Alike.imp {S : ν → ν → Prop} (hRS : ∀ v w, R v w → S v w) (h : Alike R a b) : Alike S a b := by
  intro k
  have hk := h k
  generalize a.lookup k = o at hk ⊢
  generalize b.lookup k = o' at hk ⊢
  rcases hk with ⟨hvw⟩ | _
  · exact .some (hRS _ _ hvw)
  · exact .none

theorem Alike.refl (hR : ∀ v, R v v) (a : HashTable κ ν) : Alike R a a := fun k => rel_refl hR (a.lookup k)

theorem rel_eq_iff {o o' : Option ν} : Option.Rel Eq o o' ↔ o = o' := by
  constructor
  · rintro (⟨rfl⟩ | _) <;> rfl
  · rintro rfl
    exact rel_refl (fun _ => rfl) o

theorem alike_eq_iff_perm : Alike Eq a b ↔ a.entries.Perm b.entries := by
  constructor
  · intro h
    refine List.lookup_ext a.nodupKeys b.nodupKeys fun k v => ?_
    have hk : a.entries.dlookup k = b.entries.dlookup k := rel_eq_iff.1 (h k)
    rw [hk]
  · intro h k
    exact rel_eq_iff.2 (AList.perm_lookup h)

theorem mem_entries {k : κ} {v : ν} : ⟨k, v⟩ ∈ a.entries ↔ a.lookup k = some v := AList.mem_lookup_iff.symm

theorem lookup_insert_ite {k k' : κ} {v : ν} : (a.insert k v).lookup k' = if k' = k then some v else a.lookup k' := by
  split
  · next h =>
    subst h
    exact AList.lookup_insert a
  · next h => exact AList.lookup_insert_ne h

theorem Alike.insert (h : Alike R a b) (k : κ) {v w : ν} (hvw : R v w) : Alike R (a.insert k v) (b.insert k w) := by
  intro k'
  rw [lookup_insert_ite, lookup_insert_ite]
  split
  · exact .some hvw
  · exact h k'

theorem lookup_erase_ite {k k' : κ} : (a.erase k).lookup k' = if k' = k then none else a.lookup k' := by
  split
  · next h =>
    subst h
    exact AList.lookup_erase _ a
  · next h => exact AList.lookup_erase_ne h

theorem exists_first {e : (_ : κ) × ν} (he : e ∈ a.entries) : ∃ b :
    HashTable κ ν, Alike Eq a b ∧ ∃ es, b.entries = e :: es := by
  obtain ⟨pre, post, heq⟩ := List.append_of_mem he
  have hperm : a.entries.Perm (e :: (pre ++ post)) := by
    rw [heq]
    exact List.perm_middle
  exact ⟨⟨e :: (pre ++ post), (List.perm_nodupKeys hperm).1 a.nodupKeys⟩, alike_eq_iff_perm.2 hperm, pre ++ post, rfl⟩

/-! ### Into an ordered map -/

section Collect
variable [Ord κ] [TransOrd κ] [LawfulEqOrd κ] {f : ν → Option ω}

/-- One entry of `collect`. -/
def collectAt (f : ν → Option ω) (m : FinMap κ ω) (e : (_ : κ) × ν) : Option (FinMap κ ω) := (f e.2).map (m.insert e.1)

/-- `table.iter().map(|(k, v)| (k, f(v))).collect()` into a `BTreeMap`; `none` where a conversion fails. -/
def collect (f : ν → Option ω) (a : HashTable κ ν) : Option (FinMap κ ω) := a.entries.foldlM (collectAt f) ∅

theorem foldlM_collectAt {es : List ((_ : κ) × ν)} (hnd : es.NodupKeys) {m r : FinMap κ ω}
    (h : es.foldlM (collectAt f) m = some r) (k : κ) :
    (es.dlookup k = none → r[k]? = m[k]?) ∧ ∀ v, es.dlookup k = some v → ∃ w, f v = some w ∧ r[k]? = some w := by
  induction es generalizing m with
  | nil =>
    obtain rfl : m = r := by simpa using h
    exact ⟨fun _ => rfl, fun v hv => nomatch hv⟩
  | cons e es ih =>
    obtain ⟨k', v'⟩ := e
    obtain ⟨hnot, hnd⟩ := List.nodupKeys_cons.1 hnd
    rw [List.foldlM_cons] at h
    obtain ⟨m', hm', h⟩ := Option.bind_eq_some_iff.1 h
    obtain ⟨w, hw, rfl⟩ := Option.map_eq_some_iff.1 hm'
    obtain ⟨hnone, hsome⟩ := ih hnd h
    by_cases hk : k = k'
    · subst hk
      rw [List.dlookup_cons_eq]
      constructor
      · rintro ⟨⟩
      rintro v ⟨⟩
      refine ⟨w, hw, ?_⟩
      rw [hnone (List.dlookup_eq_none.2 hnot), FinMap.getElem?_insert_ite, if_pos rfl]
    · have hne : k ≠ (Sigma.mk k' v' : (_ : κ) × ν).1 := hk
      rw [List.dlookup_cons_ne _ _ hne]
      refine ⟨fun hv => ?_, hsome⟩
      rw [hnone hv, FinMap.getElem?_insert_ite, if_neg hne.symm]

omit [DecidableEq κ] [LawfulEqOrd κ] in
theorem foldlM_collectAt_isSome {es : List ((_ : κ) × ν)} {m : FinMap κ ω} :
    (es.foldlM (collectAt f) m).isSome ↔ ∀ e ∈ es, (f e.2).isSome := by
  induction es generalizing m with
  | nil => simp
  | cons e es ih =>
    rw [List.foldlM_cons, List.forall_mem_cons, collectAt]
    cases hw : f e.2 with
    | none => simp
    | some w => simpa using ih

theorem collect_eq_some {m : FinMap κ ω} :
    collect f a = some m ↔ ∀ k, Option.Rel (fun v w => f v = some w) (a.lookup k) m[k]? := by
  constructor
  · intro h k
    obtain ⟨hnone, hsome⟩ := foldlM_collectAt a.nodupKeys h k
    cases hk : a.lookup k with
    | none => rw [rel_none_left, hnone hk, ExtTreeMap.getElem?_empty]
    | some v =>
      obtain ⟨w, hw, hr⟩ := hsome v hk
      exact rel_some_left.2 ⟨w, hr, hw⟩
  · intro h
    have hall : ∀ e ∈ a.entries, (f e.2).isSome := by
      rintro ⟨k, v⟩ he
      have hk := h k
      rw [mem_entries.1 he, rel_some_left] at hk
      obtain ⟨w, -, hw⟩ := hk
      exact Option.isSome_of_eq_some hw
    obtain ⟨r, hr⟩ := Option.isSome_iff_exists.1 ((foldlM_collectAt_isSome (m := ∅)).2 hall)
    refine hr.trans (congrArg some (ExtTreeMap.ext_getElem? fun k => ?_))
    obtain ⟨hnone, hsome⟩ := foldlM_collectAt a.nodupKeys hr k
    have hk := h k
    cases hl : a.lookup k with
    | none =>
      rw [hl, rel_none_left] at hk
      rw [hnone hl, hk, ExtTreeMap.getElem?_empty]
    | some v =>
      rw [hl, rel_some_left] at hk
      obtain ⟨w, hw, hrk⟩ := hsome v hl
      obtain ⟨w', hm, hw'⟩ := hk
      rw [hrk, hm, ← hw, ← hw']

omit [LawfulEqOrd κ] in
theorem collect_eq_none : collect f a = none ↔ ∃ k v, a.lookup k = some v ∧ f v = none := by
  rw [← Option.not_isSome_iff_eq_none, collect, foldlM_collectAt_isSome]
  push Not
  constructor
  · rintro ⟨⟨k, v⟩, he, hv⟩
    exact ⟨k, v, mem_entries.1 he, by simpa using hv⟩
  · rintro ⟨k, v, hk, hv⟩
    exact ⟨⟨k, v⟩, mem_entries.2 hk, by simpa using hv⟩

/-- Equal tables give one map. -/
theorem collect_congr (h : Alike (fun v w => f v = f w) a b) : collect f a = collect f b := by
  cases hb : collect f b with
  | none =>
    obtain ⟨k, w, hk, hw⟩ := collect_eq_none.1 hb
    have hrel := h k
    rw [hk] at hrel
    cases hl : a.lookup k with
    | none =>
      rw [hl, rel_none_left] at hrel
      cases hrel
    | some v =>
      rw [hl, rel_some_left] at hrel
      obtain ⟨w', ⟨⟩, hv⟩ := hrel
      exact collect_eq_none.2 ⟨k, v, hl, hv.trans hw⟩
  | some m =>
    refine collect_eq_some.2 fun k => ?_
    have hrel := h k
    have hm := collect_eq_some.1 hb k
    cases hl : a.lookup k with
    | none =>
      rw [hl, rel_none_left] at hrel
      rw [hrel, rel_none_left] at hm
      exact rel_none_left.2 hm
    | some v =>
      rw [hl, rel_some_left] at hrel
      obtain ⟨w, hlb, hv⟩ := hrel
      rw [hlb, rel_some_left] at hm
      obtain ⟨x, hx, hw⟩ := hm
      exact rel_some_left.2 ⟨x, hx, hv.trans hw⟩

end Collect

/-! ### In another order -/

theorem rel_equivalence {α : Type} {S : α → α → Prop} (hS : Equivalence S) : Equivalence (Option.Rel S) where
  refl o := by
    cases o with
    | none => exact .none
    | some v => exact .some (hS.refl v)
  symm h := by
    rcases h with ⟨h⟩ | _
    · exact .some (hS.symm h)
    · exact .none
  trans h h' := by
    rcases h with ⟨h⟩ | _
    · obtain ⟨h'⟩ := h'
      exact .some (hS.trans h h')
    · exact h'

theorem Alike.equivalence (hR : Equivalence R) : Equivalence (Alike R : HashTable κ ν → HashTable κ ν → Prop) where
  refl a k := (rel_equivalence hR).refl (a.lookup k)
  symm h k := (rel_equivalence hR).symm (h k)
  trans h h' k := (rel_equivalence hR).trans (h k) (h' k)

theorem Alike.getD {o o' : Option (HashTable κ ν)} (hR : ∀ v, R v v) (h : Option.Rel (Alike R) o o') :
    Alike R (o.getD ∅) (o'.getD ∅) := by
  rcases h with ⟨h⟩ | _
  · exact h
  · exact .refl hR ∅

/-- The entries of a table, in the order of another one that has values which `R` relates. -/
theorem Alike.exists_perm (h : Alike R a b) :
    ∃ es, es.Perm b.entries ∧ List.Forall₂ (fun e e' => e.1 = e'.1 ∧ R e.2 e'.2) a.entries es := by
  have hlist : ∀ es : List ((_ : κ) × ν), (∀ e ∈ es, e ∈ a.entries) → ∃ es' : List ((_ : κ) × ν),
      List.Forall₂ (fun e e' => e.1 = e'.1 ∧ b.lookup e.1 = some e'.2 ∧ R e.2 e'.2) es es' := by
    intro es hes
    induction es with
    | nil => exact ⟨[], .nil⟩
    | cons e es ih =>
      obtain ⟨he, hes⟩ := List.forall_mem_cons.1 hes
      obtain ⟨es', hes'⟩ := ih hes
      have hrel := h e.1
      rw [mem_entries.1 he, rel_some_left] at hrel
      obtain ⟨w, hw, hR⟩ := hrel
      exact ⟨⟨e.1, w⟩ :: es', .cons ⟨rfl, hw, hR⟩ hes'⟩
  obtain ⟨es, hes⟩ := hlist a.entries fun e he => he
  refine ⟨es, ?_, hes.imp fun e e' he => ⟨he.1, he.2.2⟩⟩
  have hkeys : a.entries.keys = es.keys := by
    show a.entries.map Sigma.fst = es.map Sigma.fst
    rw [← List.forall₂_eq_eq_eq, List.forall₂_map_left_iff, List.forall₂_map_right_iff]
    exact hes.imp fun e e' he => he.1
  have hnd : es.NodupKeys := by
    rw [List.NodupKeys, ← hkeys]
    exact a.nodupKeys
  refine List.lookup_ext hnd b.nodupKeys fun k w => ?_
  rw [List.mem_dlookup_iff hnd, List.mem_dlookup_iff b.nodupKeys]
  constructor
  · intro hmem
    obtain ⟨i, hi, heq⟩ := List.getElem_of_mem hmem
    obtain ⟨hk, hw, -⟩ := hes.get (hes.length_eq ▸ hi) hi
    simp only [List.get_eq_getElem, heq] at hk hw
    rw [hk] at hw
    exact mem_entries.2 hw
  · intro hmem
    have hb := mem_entries.1 hmem
    have hk : k ∈ es.keys := by
      rw [← hkeys]
      have hrel := h k
      rw [hb] at hrel
      cases hl : a.lookup k with
      | none =>
        rw [hl, rel_none_left] at hrel
        cases hrel
      | some v => exact List.mem_keys_of_mem (mem_entries.2 hl)
    obtain ⟨w', hw'⟩ := List.exists_of_mem_keys hk
    obtain ⟨i, hi, heq⟩ := List.getElem_of_mem hw'
    obtain ⟨hk, hw, -⟩ := hes.get (hes.length_eq ▸ hi) hi
    simp only [List.get_eq_getElem, heq] at hk hw
    rw [hk, hb, Option.some.injEq] at hw
    exact hw ▸ hw'

/-- Passes that may change places, up to `E`. -/
theorem foldl_perm {σ α : Type} {E : σ → σ → Prop} {f : σ → α → σ} (hE : Equivalence E)
    (hcongr : ∀ s t x, E s t → E (f s x) (f t x)) {xs ys : List α} (hperm : xs.Perm ys)
    (hcomm : ∀ x ∈ xs, ∀ y ∈ xs, ∀ s, E (f (f s x) y) (f (f s y) x)) {s t : σ} (h : E s t) :
    E (xs.foldl f s) (ys.foldl f t) := by
  have hfold : ∀ (zs : List α) {s t : σ}, E s t → E (zs.foldl f s) (zs.foldl f t) := by
    intro zs
    induction zs with
    | nil => exact fun h => h
    | cons z zs ih => exact fun h => ih (hcongr _ _ z h)
  induction hperm generalizing s t with
  | nil => exact h
  | cons x _ ih =>
    exact ih (fun y hy z hz => hcomm y (List.mem_cons_of_mem _ hy) z (List.mem_cons_of_mem _ hz)) (hcongr _ _ x h)
  | swap x y l =>
    refine hE.trans ?_ (hfold l (hcongr _ _ y (hcongr _ _ x h)))
    exact hfold l (hcomm y (by simp) x (by simp) s)
  | trans hperm _ ih ih' =>
    exact hE.trans (ih hcomm (hE.refl s)) (ih' (fun x hx y hy => hcomm x (hperm.mem_iff.2 hx) y (hperm.mem_iff.2 hy)) h)

section Update
variable {η : Type} {g : Option ν → η → ν}

/-- The entry at a key becomes what `g` makes of it. -/
def update (g : Option ν → η → ν) (a : HashTable κ ν) (e : κ × η) : HashTable κ ν := a.insert e.1 (g (a.lookup e.1) e.2)

theorem Alike.update (hg : ∀ o o' x, Option.Rel R o o' → R (g o x) (g o' x)) (h : Alike R a b) (e : κ × η) :
    Alike R (update g a e) (update g b e) := h.insert e.1 (hg _ _ _ (h e.1))

theorem update_swap (hR : Equivalence R) {e e' : κ × η}
    (hcomm : e.1 = e'.1 → ∀ o, R (g (some (g o e.2)) e'.2) (g (some (g o e'.2)) e.2)) (a : HashTable κ ν) :
    Alike R (update g (update g a e) e') (update g (update g a e') e) := by
  obtain ⟨k, x⟩ := e
  obtain ⟨k', x'⟩ := e'
  intro l
  by_cases hk : k = k'
  · subst hk
    simp only [update, lookup_insert_ite, if_true]
    split
    · exact .some (hcomm rfl _)
    · exact rel_refl hR.refl _
  · have hk' : k' ≠ k := fun h => hk h.symm
    simp only [update, lookup_insert_ite, if_neg hk, if_neg hk']
    by_cases hl : l = k
    · subst hl
      simp only [if_true, if_neg hk]
      exact rel_refl hR.refl _
    · simp only [if_neg hl]
      exact rel_refl hR.refl _

/-- The same on a table that is created when it is not there. -/
def stored (g : Option ν → η → ν) (o : Option (HashTable κ ν)) (es : List (κ × η)) : Option (HashTable κ ν) :=
  es.foldl (fun o e => some (update g (o.getD ∅) e)) o

/-- Entries that are stored in another order, where those at one key may change places. -/
theorem stored_perm (hR : Equivalence R) (hg : ∀ o o' x, Option.Rel R o o' → R (g o x) (g o' x)) {es es' : List (κ × η)}
    (hperm : es.Perm es')
    (hcomm : ∀ e ∈ es, ∀ e' ∈ es, e.1 = e'.1 → ∀ o, R (g (some (g o e.2)) e'.2) (g (some (g o e'.2)) e.2))
    {o o' : Option (HashTable κ ν)} (h : Option.Rel (Alike R) o o') :
    Option.Rel (Alike R) (stored g o es) (stored g o' es') := by
  refine foldl_perm (rel_equivalence (Alike.equivalence hR)) (fun s t e hst => ?_) hperm (fun e he e' he' s => ?_) h
  · exact .some ((Alike.getD hR.refl hst).update hg e)
  · exact .some (update_swap hR (hcomm e he e' he') _)

theorem stored_append (o : Option (HashTable κ ν)) (es es' : List (κ × η)) :
    stored g o (es ++ es') = stored g (stored g o es) es' := List.foldl_append

/-- An entry is replaced. -/
def put (_ : Option ν) (x : ν) : ν := x

theorem lookup_stored_congr {es : List (κ × ν)} {o o' : Option (HashTable κ ν)} {k : κ}
    (h : ∀ l, l ≠ k → (o.getD ∅).lookup l = (o'.getD ∅).lookup l) :
    ∀ l, l ≠ k → ((stored put o es).getD ∅).lookup l = ((stored put o' es).getD ∅).lookup l := by
  induction es generalizing o o' with
  | nil => exact h
  | cons e es ih =>
    refine ih fun l hl => ?_
    show ((o.getD ∅).insert e.1 e.2).lookup l = ((o'.getD ∅).insert e.1 e.2).lookup l
    rw [lookup_insert_ite, lookup_insert_ite, h l hl]

theorem stored_put_last (o : Option (HashTable κ ν)) (es es' : List (κ × ν)) (e : κ × ν) :
    Option.Rel (Alike Eq) (stored put o (es ++ es' ++ [e])) (stored put (stored put o (es ++ e :: es')) [e]) := by
  rw [List.append_assoc, stored_append, stored_append, stored_append]
  generalize stored put o es = o'
  refine .some fun l => rel_eq_iff.2 ?_
  show (((stored put o' es').getD ∅).insert e.1 e.2).lookup l =
    (((stored put (some ((o'.getD ∅).insert e.1 e.2)) es').getD ∅).insert e.1 e.2).lookup l
  rw [lookup_insert_ite, lookup_insert_ite]
  split
  · rfl
  · next hl =>
    refine lookup_stored_congr (fun l hl => ?_) l hl
    rw [Option.getD_some, lookup_insert_ite, if_neg hl]

theorem exists_replaced {o : Option (HashTable κ ν)} {k : κ} {v : ν} (h : (o.getD ∅).lookup k = some v) (v' : ν) :
    ∃ (a b : HashTable κ ν) (es : List ((_ : κ) × ν)), Option.Rel (Alike Eq) o (some a) ∧ a.entries = ⟨k, v⟩ :: es ∧
      Option.Rel (Alike Eq) (stored put o [(k, v')]) (some b) ∧ b.entries = ⟨k, v'⟩ :: es := by
  cases o with
  | none => cases h
  | some m =>
    obtain ⟨a, ha, es, hes⟩ := exists_first (mem_entries.2 h)
    have hnd : (⟨k, v'⟩ :: es : List ((_ : κ) × ν)).NodupKeys := by
      have hnd := a.nodupKeys
      rw [hes] at hnd
      exact List.nodupKeys_cons.2 (List.nodupKeys_cons.1 hnd)
    refine ⟨a, ⟨_, hnd⟩, es, .some ha, hes, .some fun l => rel_eq_iff.2 ?_, rfl⟩
    show (m.insert k v').lookup l = List.dlookup l (⟨k, v'⟩ :: es)
    have hl : m.lookup l = List.dlookup l a.entries := rel_eq_iff.1 (ha l)
    rw [lookup_insert_ite, hl, hes]
    by_cases hlk : l = k
    · subst hlk
      rw [if_pos rfl, List.dlookup_cons_eq]
    · rw [if_neg hlk, List.dlookup_cons_ne _ _ hlk, List.dlookup_cons_ne _ _ hlk]

theorem lookup_stored_some {o : Option (HashTable κ ν)} {es : List (κ × ν)} {e : κ × ν} (he : e ∈ es) :
    ∃ v, ((stored put o es).getD ∅).lookup e.1 = some v := by
  induction es generalizing o with
  | nil => cases he
  | cons e' es ih =>
    by_cases hmem : e ∈ es
    · exact ih hmem
    obtain rfl : e = e' := (List.mem_cons.1 he).resolve_right hmem
    have hkeep : ∀ (es : List (κ × ν)) (o : Option (HashTable κ ν)) (k : κ), (∃ v, (o.getD ∅).lookup k = some v) →
        ∃ v, ((stored put o es).getD ∅).lookup k = some v := by
      intro es
      induction es with
      | nil => exact fun _ _ h => h
      | cons e es ih =>
        rintro o k ⟨v, hv⟩
        refine ih _ k ?_
        show ∃ w, ((o.getD ∅).insert e.1 e.2).lookup k = some w
        rw [lookup_insert_ite]
        split
        · exact ⟨_, rfl⟩
        · exact ⟨v, hv⟩
    refine hkeep es _ e.1 ⟨e.2, ?_⟩
    show ((o.getD ∅).insert e.1 e.2).lookup e.1 = some e.2
    rw [lookup_insert_ite, if_pos rfl]

theorem length_stored {o : Option (HashTable κ ν)} {e : Option (κ × ν)}
    (h : ∀ x ∈ e, ∃ v, (o.getD ∅).lookup x.1 = some v) :
    ((stored put o e.toList).getD ∅).entries.length = (o.getD ∅).entries.length := by
  cases e with
  | none => rfl
  | some x =>
    obtain ⟨v, hv⟩ := h x rfl
    obtain ⟨a, b, es, ha, hes, hb, hes'⟩ := exists_replaced hv x.2
    have hlen := (alike_eq_iff_perm.1 (Alike.getD (fun _ => rfl) ha)).length_eq
    have hlen' := (alike_eq_iff_perm.1 (Alike.getD (fun _ => rfl) hb)).length_eq
    rw [Option.getD_some, hes, List.length_cons] at hlen
    rw [Option.getD_some, hes', List.length_cons] at hlen'
    exact hlen'.trans hlen.symm

theorem lookup_stored {o : Option (HashTable κ ν)} {e : Option (κ × ν)} {k : κ} {v : ν}
    (h : ((stored put o e.toList).getD ∅).lookup k = some v) : (∃ x ∈ e, v = x.2) ∨ (o.getD ∅).lookup k = some v := by
  cases e with
  | none => exact .inr h
  | some x =>
    have h' : ((o.getD ∅).insert x.1 x.2).lookup k = some v := h
    rw [lookup_insert_ite] at h'
    split at h'
    · exact .inl ⟨x, rfl, (Option.some.inj h').symm⟩
    · exact .inr h'

end Update
end HashTable
