import Pallas.Lib.Loops

/-!
# Finite maps filled by loops

`std::collections::BTreeMap` and `HashMap` are both `FinMap`: a finite map with extensional equality,
whose `toList` is in key order (the order of a `BTreeMap`; nothing modelled here depends on the order
of a `HashMap`).

The code fills maps in loops that look a key up, combine what is there with a new entry and write it
back. `upsert g m new` is that loop. Because the keys of `new` are distinct, the value written at a
key depends only on what `m` and `new` hold there (`upsert_getElem?`), whatever came before in the
loop: that is what makes the per-asset statements about sums of values pointwise.
-/

open Std

/-- A finite map in key order. -/
abbrev FinMap (K V : Type) [Ord K] := ExtTreeMap K V

namespace FinMap

/-! ### Keys ordered through an injection -/

section OrdOn
variable {K L : Type} [Ord L]

/-- The order of the images. -/
@[reducible] def ordOn (f : K → L) : Ord K := ⟨fun a b => compare (f a) (f b)⟩

theorem transOrd_ordOn (f : K → L) [TransOrd L] : @TransOrd K (ordOn f) :=
  @TransCmp.mk _ (ordOn f).compare ⟨fun {a b} => @OrientedCmp.eq_swap _ compare _ (f a) (f b)⟩
    fun {a b c} => @TransCmp.isLE_trans _ compare _ (f a) (f b) (f c)

theorem lawfulEqOrd_ordOn {f : K → L} [LawfulEqOrd L] (hf : Function.Injective f) :
    @LawfulEqOrd K (ordOn f) :=
  @LawfulEqCmp.mk _ (ordOn f).compare ⟨fun {a} => @ReflCmp.compare_self _ compare _ (f a)⟩
    fun {a b} h => hf (@LawfulEqCmp.eq_of_compare _ compare _ (f a) (f b) h)

end OrdOn

variable {ε K V W : Type} [Ord K] [TransOrd K] [LawfulEqOrd K]

theorem mem_toList {m : FinMap K V} {k : K} {v : V} : (k, v) ∈ m.toList ↔ m[k]? = some v :=
  ExtTreeMap.mem_toList_iff_getElem?_eq_some

theorem nodup_keys (m : FinMap K V) : (m.toList.map Prod.fst).Nodup := by
  rw [List.nodup_iff_pairwise_ne, List.pairwise_map]
  exact m.distinct_keys_toList.imp fun h he => h (by rw [he]; exact ReflCmp.compare_self)

theorem getElem?_insert_ite {m : FinMap K V} {k k' : K} {v : V} [DecidableEq K] :
    (m.insert k v)[k']? = if k = k' then some v else m[k']? := by
  rw [ExtTreeMap.getElem?_insert]
  simp only [LawfulEqCmp.compare_eq_iff_eq]

theorem mem_insert_iff {m : FinMap K V} {k k' : K} {v : V} : k' ∈ m.insert k v ↔ k' = k ∨ k' ∈ m := by
  rw [ExtTreeMap.mem_insert, LawfulEqCmp.compare_eq_iff_eq, eq_comm]

theorem mem_erase_iff {m : FinMap K V} {k k' : K} : k' ∈ m.erase k ↔ k' ≠ k ∧ k' ∈ m := by
  rw [ExtTreeMap.mem_erase, ne_eq, LawfulEqCmp.compare_eq_iff_eq, ne_comm]

omit [LawfulEqOrd K] in
theorem mem_of_getElem? {m : FinMap K V} {k : K} {v : V} (h : m[k]? = some v) : k ∈ m := by
  rw [ExtTreeMap.mem_iff_isSome_getElem?, h, Option.isSome_some]

omit [LawfulEqOrd K] in
theorem exists_of_mem {m : FinMap K V} {k : K} (h : k ∈ m) : ∃ v, m[k]? = some v :=
  Option.isSome_iff_exists.1 (ExtTreeMap.mem_iff_isSome_getElem?.1 h)

theorem ofList_toList (m : FinMap K V) : (ExtTreeMap.ofList m.toList compare : FinMap K V) = m := by
  classical
  refine ExtTreeMap.ext_getElem? fun k => ?_
  cases hk : m[k]? with
  | some v => exact ExtTreeMap.getElem?_ofList_of_mem ReflCmp.compare_self m.distinct_keys_toList (mem_toList.2 hk)
  | none =>
    refine ExtTreeMap.getElem?_ofList_of_contains_eq_false ?_
    rw [← Bool.not_eq_true, List.contains_iff_mem, ExtTreeMap.map_fst_toList_eq_keys, ExtTreeMap.mem_keys]
    intro hmem
    obtain ⟨v, hv⟩ := exists_of_mem hmem
    cases hk.symm.trans hv

theorem foldl_insert_toList (m : FinMap K V) : m.toList.foldl (fun map e => map.insert e.1 e.2) ∅ = m := by
  rw [← ExtTreeMap.insertMany_list_eq_foldl, ← ExtTreeMap.ofList_eq_insertMany_empty, ofList_toList]

/-- What a key has after the insertions, it was given by one of them, or had it before. -/
theorem getElem?_foldl_insert {k : K} {v : V} {es : List (K × V)} {m : FinMap K V}
    (h : (es.foldl (fun map e => map.insert e.1 e.2) m)[k]? = some v) : (k, v) ∈ es ∨ m[k]? = some v := by
  induction es generalizing m with
  | nil => exact .inr h
  | cons e es ih =>
    obtain hmem | hlast := ih h
    · exact .inl (List.mem_cons_of_mem _ hmem)
    rw [ExtTreeMap.getElem?_insert] at hlast
    split at hlast
    · next heq =>
      obtain rfl : e.1 = k := LawfulEqCmp.eq_of_compare heq
      cases hlast
      exact .inl List.mem_cons_self
    · exact .inr hlast

theorem getElem?_ofList_filter (m : FinMap K V) (p : K → Bool) (k : K) :
    (ExtTreeMap.ofList (m.toList.filter fun e => p e.1) compare : FinMap K V)[k]? = if p k then m[k]? else none := by
  classical
  have hdistinct := List.Pairwise.filter (fun e : K × V => p e.1) m.distinct_keys_toList
  split
  · next hp =>
    cases hk : m[k]? with
    | some v =>
      exact ExtTreeMap.getElem?_ofList_of_mem ReflCmp.compare_self hdistinct
        (List.mem_filter.2 ⟨mem_toList.2 hk, hp⟩)
    | none =>
      refine ExtTreeMap.getElem?_ofList_of_contains_eq_false ?_
      rw [← Bool.not_eq_true, List.contains_iff_mem, List.mem_map]
      rintro ⟨⟨k', v⟩, he, rfl⟩
      rw [mem_toList.1 (List.mem_filter.1 he).1] at hk
      cases hk
  · next hp =>
    refine ExtTreeMap.getElem?_ofList_of_contains_eq_false ?_
    rw [← Bool.not_eq_true, List.contains_iff_mem, List.mem_map]
    rintro ⟨⟨k', v⟩, he, rfl⟩
    exact hp (List.mem_filter.1 he).2

/-- Entries written over a map hide what was there. -/
theorem getElem?_insertMany_toList (m n : FinMap K V) (k : K) : (m.insertMany n.toList)[k]? = n[k]?.or m[k]? := by
  classical
  cases hk : n[k]? with
  | some v =>
    exact ExtTreeMap.getElem?_insertMany_list_of_mem ReflCmp.compare_self n.distinct_keys_toList (mem_toList.2 hk)
  | none =>
    refine ExtTreeMap.getElem?_insertMany_list_of_contains_eq_false ?_
    rw [← Bool.not_eq_true, List.contains_iff_mem, ExtTreeMap.map_fst_toList_eq_keys, ExtTreeMap.mem_keys]
    intro hmem
    obtain ⟨v, hv⟩ := exists_of_mem hmem
    cases hk.symm.trans hv

/-- The entries of a map written over another: its own, and those at other keys. -/
theorem toList_insertMany_perm (m n : FinMap K V) :
    (m.insertMany n.toList).toList.Perm (n.toList ++ m.toList.filter fun e => e.1 ∉ n) := by
  have hnodup : ∀ l : FinMap K V, l.toList.Nodup := fun l => .of_map _ (nodup_keys l)
  refine (List.perm_ext_iff_of_nodup (hnodup _) ?_).2 ?_
  · refine List.Nodup.append (hnodup n) ((hnodup m).filter _) fun e he he' => ?_
    have hnot : e.1 ∉ n := by simpa using (List.mem_filter.1 he').2
    exact hnot (mem_of_getElem? (mem_toList.1 he))
  · rintro ⟨k, v⟩
    rw [mem_toList, getElem?_insertMany_toList, List.mem_append, mem_toList, List.mem_filter, mem_toList]
    cases hk : n[k]? with
    | some w =>
      have hmem := mem_of_getElem? hk
      simp [hmem]
    | none =>
      have hnot : k ∉ n := fun hmem => by
        obtain ⟨w, hw⟩ := exists_of_mem hmem
        cases hk.symm.trans hw
      simp [hnot]

/-- One pass of the loop: combine what is at the key with the new entry, and write it back. -/
def upsertAt (g : Option V → W → Outcome ε V) (m : FinMap K V) (e : K × W) : Outcome ε (FinMap K V) :=
  g m[e.1]? e.2 >>= fun v => .ok (m.insert e.1 v)

/-- `for (k, w) in new { let v = g(m.get(k), w)?; m.insert(k, v); }`. -/
def upsert (g : Option V → W → Outcome ε V) (m : FinMap K V) (new : FinMap K W) : Outcome ε (FinMap K V) :=
  Outcome.fold (upsertAt g) m new.toList

/-- `m.iter().map(|(k, v)| (k, f(v)?)).collect()`: a loop that writes every entry to an empty map. -/
def mapM (f : V → Outcome ε W) (m : FinMap K V) : Outcome ε (FinMap K W) :=
  upsert (fun _ v => f v) ∅ m

/-! ### The loop, key by key -/

section Keys
variable {g : Option V → W → Outcome ε V} {m r : FinMap K V}

/-- The keys of the entries still to come are read as they were before the loop. -/
theorem fold_upsertAt_of_not_mem {es : List (K × W)} (h : Outcome.fold (upsertAt g) m es = .ok r)
    {k : K} (hk : k ∉ es.map Prod.fst) : r[k]? = m[k]? := by
  classical
  induction es generalizing m with
  | nil =>
    obtain rfl : m = r := by simpa using h
    rfl
  | cons e es ih =>
    simp only [List.map_cons, List.mem_cons, not_or] at hk
    simp only [Outcome.fold_cons, upsertAt, Outcome.bind_eq_ok, Outcome.ok.injEq] at h
    obtain ⟨_, ⟨v, -, rfl⟩, h⟩ := h
    rw [ih h hk.2, getElem?_insert_ite, if_neg (Ne.symm hk.1)]

theorem fold_upsertAt_of_mem {es : List (K × W)} (hnd : (es.map Prod.fst).Nodup)
    (h : Outcome.fold (upsertAt g) m es = .ok r) {k : K} {w : W} (hk : (k, w) ∈ es) :
    ∃ v, g m[k]? w = .ok v ∧ r[k]? = some v := by
  classical
  induction es generalizing m with
  | nil => simp at hk
  | cons e es ih =>
    simp only [List.map_cons, List.nodup_cons] at hnd
    simp only [Outcome.fold_cons, upsertAt, Outcome.bind_eq_ok, Outcome.ok.injEq] at h
    obtain ⟨_, ⟨v, hv, rfl⟩, h⟩ := h
    rcases List.mem_cons.1 hk with rfl | hk
    · exact ⟨v, hv, by rw [fold_upsertAt_of_not_mem h hnd.1, getElem?_insert_ite, if_pos rfl]⟩
    · have hne : e.1 ≠ k := fun he => hnd.1 (he ▸ List.mem_map_of_mem hk)
      obtain ⟨u, hu, hr⟩ := ih hnd.2 h hk
      rw [getElem?_insert_ite, if_neg hne] at hu
      exact ⟨u, hu, hr⟩

theorem upsert_getElem?_some {new : FinMap K W} (h : upsert g m new = .ok r) {k : K} {w : W}
    (hk : new[k]? = some w) : ∃ v, g m[k]? w = .ok v ∧ r[k]? = some v :=
  fold_upsertAt_of_mem new.nodup_keys h (mem_toList.2 hk)

theorem upsert_getElem?_none {new : FinMap K W} (h : upsert g m new = .ok r) {k : K}
    (hk : new[k]? = none) : r[k]? = m[k]? := by
  refine fold_upsertAt_of_not_mem h fun hmem => ?_
  obtain ⟨⟨k', w⟩, hw, rfl⟩ := List.mem_map.1 hmem
  rw [mem_toList.1 hw] at hk
  cases hk

end Keys

/-! ### Where the loop panics -/

section Panic
variable {g : Option V → W → Outcome ε V} {m : FinMap K V}

theorem fold_upsertAt_ok_iff {es : List (K × W)} (hnd : (es.map Prod.fst).Nodup) :
    (∃ r, Outcome.fold (upsertAt g) m es = .ok r) ↔ ∀ e ∈ es, ∃ v, g m[e.1]? e.2 = .ok v := by
  classical
  induction es generalizing m with
  | nil => simp
  | cons e es ih =>
    simp only [List.map_cons, List.nodup_cons] at hnd
    -- the value written at `e.1` is not read again: the later keys differ from it
    have hread : ∀ v, ∀ e' ∈ es, (m.insert e.1 v)[e'.1]? = m[e'.1]? := fun v e' he' => by
      have hne : e.1 ≠ e'.1 := fun he => hnd.1 (he ▸ List.mem_map_of_mem he')
      rw [getElem?_insert_ite, if_neg hne]
    simp only [Outcome.fold_cons, upsertAt, Outcome.bind_eq_ok, Outcome.ok.injEq, List.forall_mem_cons]
    constructor
    · rintro ⟨r, _, ⟨v, hv, rfl⟩, h⟩
      exact ⟨⟨v, hv⟩, fun e' he' => hread v e' he' ▸ (ih hnd.2).1 ⟨r, h⟩ e' he'⟩
    · rintro ⟨⟨v, hv⟩, h⟩
      obtain ⟨r, hr⟩ := (ih (m := m.insert e.1 v) hnd.2).2 fun e' he' => (hread v e' he').symm ▸ h e' he'
      exact ⟨r, _, ⟨v, hv, rfl⟩, hr⟩

theorem upsert_ok_iff {new : FinMap K W} :
    (∃ r, upsert g m new = .ok r) ↔ ∀ (k : K) w, new[k]? = some w → ∃ v, g m[k]? w = .ok v := by
  refine (fold_upsertAt_ok_iff new.nodup_keys).trans ?_
  simp only [Prod.forall, mem_toList]

theorem mapM_ok_iff {f : V → Outcome ε W} : (∃ r, mapM f m = .ok r) ↔ ∀ (k : K) v, m[k]? = some v → ∃ w, f v = .ok w :=
  upsert_ok_iff

omit [LawfulEqOrd K] in
theorem mapM_sure {f : V → Outcome ε W} (hf : ∀ v, (f v).Sure) (m : FinMap K V) : (mapM f m).Sure := by
  refine Outcome.Sure.fold (f := upsertAt fun _ v => f v) (fun m e => ?_) ∅
  exact (hf e.2).bind fun _ => .of_ok _

end Panic

/-! ### Reading a map as a function into the integers -/

/-- What the map holds at a key, read as an integer: 0 where there is nothing. -/
def look (val : V → ℤ) (m : FinMap K V) (k : K) : ℤ := m[k]?.elim 0 val

omit [LawfulEqOrd K] in
@[simp] theorem look_empty (val : V → ℤ) (k : K) : look val (∅ : FinMap K V) k = 0 := by
  simp [look]

/-- If one combination adds modulo `n` (exactly, for `n = 0`), so does the whole loop, at every key. -/
theorem upsert_look_modEq {g : Option V → W → Outcome ε V} {val : V → ℤ} {valW : W → ℤ} {n : ℤ}
    (hg : ∀ old w v, g old w = .ok v → val v ≡ old.elim 0 val + valW w [ZMOD n])
    {m r : FinMap K V} {new : FinMap K W} (h : upsert g m new = .ok r) (k : K) :
    look val r k ≡ look val m k + look valW new k [ZMOD n] := by
  unfold look
  cases hk : new[k]? with
  | none => simp [upsert_getElem?_none h hk]
  | some w =>
    obtain ⟨v, hv, hr⟩ := upsert_getElem?_some h hk
    rw [hr]
    exact hg _ _ _ hv

theorem mapM_look_modEq {f : V → Outcome ε W} {val : V → ℤ} {valW : W → ℤ} {n : ℤ}
    (hf : ∀ v w, f v = .ok w → valW w ≡ val v [ZMOD n])
    {m : FinMap K V} {r : FinMap K W} (h : mapM f m = .ok r) (k : K) :
    look valW r k ≡ look val m k [ZMOD n] := by
  unfold look
  cases hk : m[k]? with
  | none => simp [upsert_getElem?_none h hk]
  | some v =>
    obtain ⟨w, hw, hr⟩ := upsert_getElem?_some h hk
    rw [hr]
    exact hf v w hw

end FinMap
