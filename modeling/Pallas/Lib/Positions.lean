import Mathlib

/-!
# Positions in a list with repeats

`ys` lists the elements of `xs` without repeats, in the order of `xs`. An element that is repeated moves what follows it
to a later position in `xs` than in `ys`. So the positions of what passes a test are the same in both lists exactly when
no element is repeated up to one that passes (`holdsAt_sublist_iff`); and the test may be a weaker one for `xs`, if what
it lets through passes the other as well.
-/

namespace List
variable {α : Type} {xs ys : List α} {P S : α → Prop}

/-- The element at a position passes the test. -/
def HoldsAt (xs : List α) (P : α → Prop) (n : ℕ) : Prop := ∃ x, xs[n]? = some x ∧ P x

theorem HoldsAt.lt_length {n : ℕ} (h : xs.HoldsAt P n) : n < xs.length := by
  obtain ⟨x, hx, -⟩ := h
  obtain ⟨hn, -⟩ := List.getElem?_eq_some_iff.1 hx
  exact hn

/-- Where an embedding of positions keeps a position, it keeps the ones before. -/
theorem fixed_of_le {f : ℕ → ℕ} (hf : StrictMono f) {n : ℕ} (hn : f n = n) : ∀ k ≤ n, f k = k := by
  intro k hk
  have hge := hf.le_apply (x := k)
  have hgap : ∀ d, f k + d ≤ f (k + d) := by
    intro d
    induction d with
    | zero => exact le_rfl
    | succ d ih => exact (Nat.succ_le_succ ih).trans (hf (Nat.lt_succ_self (k + d)))
  have hlast := hgap (n - k)
  rw [Nat.add_sub_cancel' hk, hn] at hlast
  omega

/-- An embedding that never leaves a bounded set of positions keeps them. -/
theorem fixed_of_bounded {f : ℕ → ℕ} (hf : StrictMono f) {T : ℕ → Prop} {b : ℕ} (hT : ∀ n, T n → n < b)
    (hstep : ∀ n, T n → T (f n)) {n : ℕ} (hn : T n) : f n = n := by
  by_contra hne
  have hiter : ∀ k, T (f^[k] n) ∧ n + k ≤ f^[k] n := by
    intro k
    induction k with
    | zero => exact ⟨hn, le_rfl⟩
    | succ k ih =>
      rw [Function.iterate_succ_apply']
      refine ⟨hstep _ ih.1, ?_⟩
      have hmoved : f^[k] n < f (f^[k] n) := by
        refine lt_of_le_of_ne hf.le_apply fun heq => ?_
        exact hne (fixed_of_le hf heq.symm n (le_trans (Nat.le_add_right n k) ih.2))
      omega
  obtain ⟨hmem, hle⟩ := hiter b
  have hlt := hT _ hmem
  omega

section Sublist
variable {f : ℕ → ℕ} {n : ℕ}

/-- Up to a position that the embedding keeps, nothing is repeated. -/
theorem nodup_take_of_fixed (hf : StrictMono f) (hget : ∀ k, ys[k]? = xs[f k]?) (hnodup : ys.Nodup) (hn : f n = n) :
    (xs.take (n + 1)).Nodup := by
  have hsame : xs.take (n + 1) = ys.take (n + 1) := by
    refine List.ext_getElem? fun k => ?_
    rw [List.getElem?_take, List.getElem?_take]
    split
    · rw [hget, fixed_of_le hf hn k (by omega)]
    · rfl
  rw [hsame]
  exact hnodup.sublist (List.take_sublist _ _)

/-- Up to a position up to which nothing is repeated there or later, the embedding keeps the positions. -/
theorem fixed_of_unrepeated (hf : StrictMono f) (hget : ∀ k, ys[k]? = xs[f k]?) (hmem : ∀ x ∈ xs, x ∈ ys)
    (hn : n < xs.length) (hone : ∀ k ≤ n, ∀ m, xs[m]? = xs[k]? → m = k) : f n = n := by
  have hall : ∀ k ≤ n, f k = k := by
    intro k hk
    induction k using Nat.strong_induction_on with
    | _ k ih =>
      have hx : xs[k]? = some xs[k] := List.getElem?_eq_getElem (hk.trans_lt hn)
      obtain ⟨m, hm⟩ := List.mem_iff_getElem?.1 (hmem _ (List.mem_of_getElem? hx))
      have hfm : f m = k := hone k hk (f m) ((hget m).symm.trans (hm.trans hx.symm))
      rcases (hf.le_apply.trans_eq hfm : m ≤ k).lt_or_eq with hlt | rfl
      · have hkept := ih m hlt (hlt.le.trans hk)
        omega
      · exact hfm
  exact hall n le_rfl

end Sublist

/-- In a front part without repeats, equal elements stand at one position. -/
theorem index_inj_of_nodup_take {m : ℕ} (hm : m < xs.length) (hnodup : (xs.take (m + 1)).Nodup) {j k : ℕ} (hj : j ≤ m)
    (hk : k ≤ m) (h : xs[j]? = xs[k]?) : j = k := by
  refine (List.getElem?_inj (l := xs.take (m + 1)) ?_ hnodup).1 ?_
  · rw [List.length_take]
    omega
  · rw [List.getElem?_take_of_lt (by omega), List.getElem?_take_of_lt (by omega), h]

theorem getElem?_eq_of_between {r : α → α → Prop} (hanti : ∀ a b, r a b → r b a → a = b) (hsorted : xs.Pairwise r)
    {k n m : ℕ} (hkn : k ≤ n) (hnm : n < m) {x : α} (hx : xs[n]? = some x) (hm : xs[m]? = xs[k]?) : xs[k]? = some x := by
  have hpair : ∀ {i j : ℕ} {a b : α}, i < j → xs[i]? = some a → xs[j]? = some b → r a b := by
    intro i j a b hij ha hb
    obtain ⟨hi, rfl⟩ := List.getElem?_eq_some_iff.1 ha
    obtain ⟨hj, rfl⟩ := List.getElem?_eq_some_iff.1 hb
    exact List.pairwise_iff_getElem.1 hsorted i j hi hj hij
  obtain ⟨hn, -⟩ := List.getElem?_eq_some_iff.1 hx
  rcases hkn.lt_or_eq with hlt | rfl
  · have hy : xs[k]? = some xs[k] := List.getElem?_eq_getElem (hlt.trans hn)
    rw [hy, hanti xs[k] x (hpair hlt hy hx) (hpair hnm hx (hm.trans hy))]
  · exact hx

/-- Both lists have what passes at the same positions exactly when what passes the one test passes the other, and no
element is repeated up to it. -/
theorem holdsAt_sublist_iff {r : α → α → Prop} (hanti : ∀ a b, r a b → r b a → a = b) (hsorted : xs.Pairwise r)
    (hsub : ys.Sublist xs) (hnodup : ys.Nodup) (hmem : ∀ x ∈ xs, x ∈ ys) (hPS : ∀ x, P x → S x) :
    (∀ n, xs.HoldsAt S n ↔ ys.HoldsAt P n) ↔ ∀ n x, xs[n]? = some x → S x → P x ∧ (xs.take (n + 1)).Nodup := by
  obtain ⟨f, hget⟩ := List.sublist_iff_exists_orderEmbedding_getElem?_eq.1 hsub
  have hf : StrictMono f := f.strictMono
  constructor
  · intro hsame n x hx hS
    have hkept : f n = n := by
      refine fixed_of_bounded hf (T := fun n => ys.HoldsAt P n) (fun n => HoldsAt.lt_length) (fun m hm => ?_)
        ((hsame n).1 ⟨x, hx, hS⟩)
      obtain ⟨y, hy, hP⟩ := hm
      exact (hsame _).1 ⟨y, (hget m).symm.trans hy, hPS y hP⟩
    obtain ⟨y, hy, hP⟩ := (hsame n).1 ⟨x, hx, hS⟩
    obtain rfl : x = y := Option.some.inj (hx.symm.trans (by rw [← hy, hget, hkept]))
    exact ⟨hP, nodup_take_of_fixed hf hget hnodup hkept⟩
  · intro h
    have hkept : ∀ n, xs.HoldsAt S n → f n = n := by
      rintro n ⟨x, hx, hS⟩
      obtain ⟨hn, -⟩ := List.getElem?_eq_some_iff.1 hx
      refine fixed_of_unrepeated hf hget hmem hn fun k hk m hmk => ?_
      rcases Nat.lt_or_ge n m with hlater | hle
      · -- a later repeat also passes, and up to it nothing is repeated
        have hmx : xs[m]? = some x := hmk.trans (getElem?_eq_of_between hanti hsorted hk hlater hx hmk)
        obtain ⟨hm, -⟩ := List.getElem?_eq_some_iff.1 hmx
        exact index_inj_of_nodup_take hm (h m x hmx hS).2 le_rfl (by omega) hmk
      · exact index_inj_of_nodup_take hn (h n x hx hS).2 hle hk hmk
    intro n
    constructor
    · intro hn
      have hfn := hkept n hn
      obtain ⟨x, hx, hS⟩ := hn
      exact ⟨x, by rw [hget, hfn, hx], (h n x hx hS).1⟩
    · rintro ⟨y, hy, hP⟩
      have hy' : xs[f n]? = some y := (hget n).symm.trans hy
      have hfn : f n = n := hf.injective (hkept (f n) ⟨y, hy', hPS y hP⟩)
      exact ⟨y, hfn ▸ hy', hPS y hP⟩

end List
