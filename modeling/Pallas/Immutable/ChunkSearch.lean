import Mathlib.Order.Bounds.Basic
import Pallas.Lib.Outcome

/-!
# Binary search in descending chunks (`storage/immutable/mod.rs`)

`chunk_binary_search` looks for the chunk that may hold a point, in chunks that descend by their first elements. It keeps
two bounds: the chunks before `left` begin above the point, those from `right` on do not. Where the bounds meet begins the
first chunk that is not above the point, which is the greatest such.

The comparison reads a chunk, and may fail. `Probes` says which chunks are compared at all; the search fails with the
first of them that cannot be read, and with no other.
-/

namespace Pallas.Immutable

section Search
variable {ChunkT PointT ε : Type} (chunks : List ChunkT) (point : PointT) (cmp : ChunkT → PointT → Except ε Ordering)

/-- The loop of `chunk_binary_search`. An index out of bounds panics, and so does a size below zero. -/
def searchLoop (left right : ℕ) : Outcome ε (Option ℕ) :=
  if right < left then .panic
  else
    let size := right - left
    if 0 < size then
      let mid := left + size / 2
      match chunks[mid]? with
      | none => .panic
      | some chunk => match cmp chunk point with
        | .error e => .err e
        | .ok .lt => searchLoop left mid
        | .ok .gt => searchLoop (mid + 1) right
        | .ok .eq => .ok (some mid)
    else if right < chunks.length then .ok (some right) else .ok none
termination_by right - left

def chunkBinarySearch : Outcome ε (Option ℕ) := searchLoop chunks point cmp 0 chunks.length

example : [0, 1, 3, 4, 6, 7, 10].map (fun point => chunkBinarySearch [[7, 8, 9], [4, 5], [1, 2, 3]] point
    fun chunk point => (.ok (compare chunk.head! point) : Except Empty Ordering)) =
  [.ok none, .ok (some 2), .ok (some 2), .ok (some 1), .ok (some 1), .ok (some 0), .ok (some 0)] := by decide +kernel

/-- From these bounds on, the chunk at an index is compared with the point. -/
inductive Probes : (left right : ℕ) → ℕ → Prop
  | mid {left right : ℕ} (h : left < right) : Probes left right (left + (right - left) / 2)
  | before {left right i : ℕ} {chunk : ChunkT} (h : left < right) (hchunk : chunks[left + (right - left) / 2]? = some chunk)
      (hcmp : cmp chunk point = .ok .lt) (hi : Probes left (left + (right - left) / 2) i) : Probes left right i
  | after {left right i : ℕ} {chunk : ChunkT} (h : left < right) (hchunk : chunks[left + (right - left) / 2]? = some chunk)
      (hcmp : cmp chunk point = .ok .gt) (hi : Probes (left + (right - left) / 2 + 1) right i) : Probes left right i

/-- The comparison of a chunk that is probed fails. -/
def Fails (left right : ℕ) (e : ε) : Prop :=
  ∃ i chunk, Probes chunks point cmp left right i ∧ chunks[i]? = some chunk ∧ cmp chunk point = .error e

variable {chunks point cmp}

theorem probes_iff {left right i : ℕ} : Probes chunks point cmp left right i ↔ left < right ∧
    (i = left + (right - left) / 2 ∨ ∃ chunk, chunks[left + (right - left) / 2]? = some chunk ∧
      ((cmp chunk point = .ok .lt ∧ Probes chunks point cmp left (left + (right - left) / 2) i) ∨
        (cmp chunk point = .ok .gt ∧ Probes chunks point cmp (left + (right - left) / 2 + 1) right i))) := by
  constructor
  · rintro (h | ⟨h, hchunk, hcmp, hi⟩ | ⟨h, hchunk, hcmp, hi⟩)
    exacts [⟨h, .inl rfl⟩, ⟨h, .inr ⟨_, hchunk, .inl ⟨hcmp, hi⟩⟩⟩, ⟨h, .inr ⟨_, hchunk, .inr ⟨hcmp, hi⟩⟩⟩]
  · rintro ⟨h, rfl | ⟨chunk, hchunk, ⟨hcmp, hi⟩ | ⟨hcmp, hi⟩⟩⟩
    exacts [.mid h, .before h hchunk hcmp hi, .after h hchunk hcmp hi]

theorem fails_iff {left right : ℕ} {chunk : ChunkT} (h : left < right)
    (hchunk : chunks[left + (right - left) / 2]? = some chunk) (e : ε) : Fails chunks point cmp left right e ↔
      match cmp chunk point with
      | .error e' => e' = e
      | .ok .lt => Fails chunks point cmp left (left + (right - left) / 2) e
      | .ok .gt => Fails chunks point cmp (left + (right - left) / 2 + 1) right e
      | .ok .eq => False := by
  have hfails : Fails chunks point cmp left right e ↔ cmp chunk point = .error e ∨
      (cmp chunk point = .ok .lt ∧ Fails chunks point cmp left (left + (right - left) / 2) e) ∨
        (cmp chunk point = .ok .gt ∧ Fails chunks point cmp (left + (right - left) / 2 + 1) right e) := by
    constructor
    · rintro ⟨i, chunk', hi, hchunk', he⟩
      rcases (probes_iff.1 hi).2 with rfl | ⟨c, hc, ⟨hcmp, hi⟩ | ⟨hcmp, hi⟩⟩
      · obtain rfl := Option.some.inj (hchunk.symm.trans hchunk')
        exact .inl he
      · obtain rfl := Option.some.inj (hchunk.symm.trans hc)
        exact .inr (.inl ⟨hcmp, i, chunk', hi, hchunk', he⟩)
      · obtain rfl := Option.some.inj (hchunk.symm.trans hc)
        exact .inr (.inr ⟨hcmp, i, chunk', hi, hchunk', he⟩)
    · rintro (he | ⟨hcmp, i, chunk', hi, hchunk', he⟩ | ⟨hcmp, i, chunk', hi, hchunk', he⟩)
      exacts [⟨_, chunk, .mid h, hchunk, he⟩, ⟨i, chunk', .before h hchunk hcmp hi, hchunk', he⟩,
        ⟨i, chunk', .after h hchunk hcmp hi, hchunk', he⟩]
  rw [hfails]
  rcases cmp chunk point with e' | (_ | _ | _) <;> simp

theorem not_fails {left right : ℕ} (h : ¬ left < right) (e : ε) : ¬ Fails chunks point cmp left right e := by
  rintro ⟨i, -, hi, -⟩
  exact h (probes_iff.1 hi).1

/-! ### The bounds -/

section Bounds
variable {K : Type} [LinearOrder K] (key : ChunkT → K) (k : K)

/-- The bounds of the search: what is before them is above the point, what is behind them is not. -/
structure Bounds (chunks : List ChunkT) (left right : ℕ) : Prop where
  left_le : left ≤ right
  right_le : right ≤ chunks.length
  above : ∀ i chunk, i < left → chunks[i]? = some chunk → k < key chunk
  notAbove : ∀ i chunk, right ≤ i → chunks[i]? = some chunk → key chunk ≤ k

/-- The first chunk that is not above the point, if there is one. -/
structure Found (chunks : List ChunkT) (found : Option ℕ) : Prop where
  none_iff : found = none ↔ ∀ chunk ∈ chunks, k < key chunk
  greatest : ∀ i, found = some i →
    ∃ chunk, chunks[i]? = some chunk ∧ IsGreatest {x | ∃ c ∈ chunks, key c = x ∧ x ≤ k} (key chunk)

variable {key k}

theorem key_lt_of_lt (hdesc : chunks.Pairwise fun a b => key b < key a) {i j : ℕ} {a b : ChunkT} (hij : i < j)
    (ha : chunks[i]? = some a) (hb : chunks[j]? = some b) : key b < key a := by
  obtain ⟨hi, rfl⟩ := List.getElem?_eq_some_iff.1 ha
  obtain ⟨hj, rfl⟩ := List.getElem?_eq_some_iff.1 hb
  exact List.pairwise_iff_getElem.1 hdesc i j hi hj hij

namespace Bounds
variable {left right mid : ℕ} {chunk : ChunkT}

theorem all (key : ChunkT → K) (k : K) (chunks : List ChunkT) : Bounds key k chunks 0 chunks.length where
  left_le := Nat.zero_le _
  right_le := le_rfl
  above i _ hi := absurd hi (Nat.not_lt_zero i)
  notAbove i _ hi hchunk := by simp [List.getElem?_eq_none hi] at hchunk

theorem lower (h : Bounds key k chunks left right) (hdesc : chunks.Pairwise fun a b => key b < key a)
    (hleft : left ≤ mid) (hright : mid < right) (hchunk : chunks[mid]? = some chunk) (hk : key chunk ≤ k) :
    Bounds key k chunks left mid where
  left_le := hleft
  right_le := by have := h.right_le; omega
  above := h.above
  notAbove i c hi hc := by
    rcases hi.eq_or_lt with rfl | hi
    · obtain rfl := Option.some.inj (hchunk.symm.trans hc)
      exact hk
    · exact (key_lt_of_lt hdesc hi hchunk hc).le.trans hk

theorem upper (h : Bounds key k chunks left right) (hdesc : chunks.Pairwise fun a b => key b < key a)
    (hright : mid < right) (hchunk : chunks[mid]? = some chunk) (hk : k < key chunk) :
    Bounds key k chunks (mid + 1) right where
  left_le := hright
  right_le := h.right_le
  above i c hi hc := by
    rcases (Nat.lt_succ_iff.1 hi).eq_or_lt with rfl | hi
    · obtain rfl := Option.some.inj (hchunk.symm.trans hc)
      exact hk
    · exact hk.trans (key_lt_of_lt hdesc hi hc hchunk)
  notAbove := h.notAbove

theorem found_some (hdesc : chunks.Pairwise fun a b => key b < key a) (hchunk : chunks[mid]? = some chunk)
    (hk : key chunk ≤ k) (habove : ∀ i c, i < mid → chunks[i]? = some c → k < key c) :
    Found key k chunks (some mid) where
  none_iff := iff_of_false (Option.some_ne_none mid) fun hall => (hall chunk (List.mem_of_getElem? hchunk)).not_ge hk
  greatest i hi := by
    obtain rfl := Option.some.inj hi
    refine ⟨chunk, hchunk, ⟨chunk, List.mem_of_getElem? hchunk, rfl, hk⟩, ?_⟩
    rintro _ ⟨c, hc, rfl, hck⟩
    obtain ⟨j, hj⟩ := List.mem_iff_getElem?.1 hc
    rcases lt_trichotomy j mid with hlt | rfl | hlt
    · exact absurd hck (habove j c hlt hj).not_ge
    · exact (congrArg key (Option.some.inj (hj.symm.trans hchunk))).le
    · exact (key_lt_of_lt hdesc hlt hchunk hj).le

theorem found (h : Bounds key k chunks left right) (hdesc : chunks.Pairwise fun a b => key b < key a)
    (hmeet : right = left) :
    Found key k chunks (if right < chunks.length then some right else none) := by
  subst hmeet
  split_ifs with hlt
  · have hchunk := List.getElem?_eq_getElem hlt
    exact found_some hdesc hchunk (h.notAbove right _ le_rfl hchunk) h.above
  · refine ⟨iff_of_true rfl fun c hc => ?_, fun i hi => nomatch hi⟩
    obtain ⟨j, hj⟩ := List.mem_iff_getElem?.1 hc
    obtain ⟨hjlt, -⟩ := List.getElem?_eq_some_iff.1 hj
    exact h.above j c (by omega) hj

end Bounds

theorem searchLoop_spec (hdesc : chunks.Pairwise fun a b => key b < key a)
    (hcmp : ∀ chunk ∈ chunks, ∀ o, cmp chunk point = .ok o → o = compare (key chunk) k) {left right : ℕ}
    (h : Bounds key k chunks left right) :
    searchLoop chunks point cmp left right ≠ .panic ∧
    (∀ found, searchLoop chunks point cmp left right = .ok found → Found key k chunks found) ∧
    ∀ e, searchLoop chunks point cmp left right = .err e ↔ Fails chunks point cmp left right e := by
  induction hsize : right - left using Nat.strong_induction_on generalizing left right with
  | _ size ih =>
    have hle := h.left_le
    have hlen := h.right_le
    rw [searchLoop, if_neg (by omega)]
    by_cases hlt : left < right
    · obtain ⟨chunk, hchunk⟩ : ∃ chunk, chunks[left + (right - left) / 2]? = some chunk :=
        ⟨_, List.getElem?_eq_getElem (by omega)⟩
      have hmem := List.mem_of_getElem? hchunk
      simp only [if_pos (show 0 < right - left by omega), hchunk, fails_iff hlt hchunk]
      rcases ho : cmp chunk point with e | o
      · simp
      have hkey := hcmp chunk hmem o ho
      rcases o with _ | _ | _
      · have hk := (compare_lt_iff_lt.1 hkey.symm).le
        exact ih _ (by omega) (h.lower hdesc (by omega) (by omega) hchunk hk) rfl
      · have hk := (compare_eq_iff_eq.1 hkey.symm).le
        have hequal := compare_eq_iff_eq.1 hkey.symm
        refine ⟨nofun, fun found hfound => ?_, by simp⟩
        obtain rfl := Outcome.ok.inj hfound
        refine Bounds.found_some hdesc hchunk hk fun i c hi hc => ?_
        rw [← hequal]
        exact key_lt_of_lt hdesc hi hc hchunk
      · have hk := compare_gt_iff_gt.1 hkey.symm
        exact ih _ (by omega) (h.upper hdesc (by omega) hchunk hk) rfl
    · have hfound := h.found hdesc (by omega)
      have hnot : ∀ e, ¬ Fails chunks point cmp left right e := not_fails hlt
      simp only [if_neg (show ¬ 0 < right - left by omega)]
      split_ifs at hfound ⊢ with hin
      · refine ⟨nofun, fun found heq => ?_, by simp [hnot]⟩
        obtain rfl := Outcome.ok.inj heq
        exact hfound
      · refine ⟨nofun, fun found heq => ?_, by simp [hnot]⟩
        obtain rfl := Outcome.ok.inj heq
        exact hfound

/-- On chunks that strictly descend, with a comparison that orders the first elements where it does not fail: the search
stays in bounds, finds the chunk with the greatest first element not above the point, and fails with a probed chunk. -/
theorem chunkBinarySearch_spec (hdesc : chunks.Pairwise fun a b => key b < key a)
    (hcmp : ∀ chunk ∈ chunks, ∀ o, cmp chunk point = .ok o → o = compare (key chunk) k) :
    chunkBinarySearch chunks point cmp ≠ .panic ∧
    (∀ found, chunkBinarySearch chunks point cmp = .ok found → Found key k chunks found) ∧
    ∀ e, chunkBinarySearch chunks point cmp = .err e ↔ Fails chunks point cmp 0 chunks.length e :=
  searchLoop_spec hdesc hcmp (Bounds.all key k chunks)

end Bounds
end Search

/-- Three chunks, the newest of which cannot be read; it is not probed. -/
theorem chunkBinarySearch_oldest :
    Found (List.headD · 0) 2 [[7, 8, 9], [4, 5], [1, 2, 3]] (some 2) := by
  let cmp (chunk : List ℕ) (point : ℕ) : Except Unit Ordering :=
    if chunk = [7, 8, 9] then .error () else .ok (compare (chunk.headD 0) point)
  have hdesc : [[7, 8, 9], [4, 5], [1, 2, 3]].Pairwise fun a b => b.headD 0 < a.headD 0 := by decide
  have hcmp : ∀ chunk ∈ [[7, 8, 9], [4, 5], [1, 2, 3]], ∀ o, cmp chunk 2 = .ok o → o = compare (chunk.headD 0) 2 := by
    decide
  obtain ⟨-, hfound, -⟩ := chunkBinarySearch_spec hdesc hcmp
  exact hfound _ (by decide +kernel)

end Pallas.Immutable
