import Pallas.Lib.CborItem

/-!
# Items inside items

Where the items inside an array or a map stand is determined by the headers around them: `Inside bs pos` says that an
item starts at `pos` if one starts at `bs`, at any depth. So bytes at which no item can start, such as a map with a key
and no value (`OddMap`), are in no data item.
-/

namespace Cbor
open Decoder

/-- There is room for another item behind `n` of them, unless a break stands there. -/
def Goal.Takes (n : ℕ) : Goal → Prop
  | items k => n < k
  | untilBreak => True
  | pairsUntilBreak => True
  | _ => False

/-- An item inside the item at the front of the bytes starts here. -/
inductive Inside : (bs pos : Bytes) → Prop where
  | here {bs : Bytes} : Inside bs bs
  | nested {major n : ℕ} {arg : Option ℕ} {g : Goal} {bs mid stop pos : Bytes} (hhead : header major bs = some (arg, mid))
      (hcontent : content major arg = some g) (hbefore : Reads (.items n) mid stop) (htakes : g.Takes n)
      (hbreak : stop.head? ≠ some 0xff) (h : Inside stop pos) : Inside bs pos

/-- A map with a key and no value for it: one of definite length whose items end too early, or one of indefinite length
with a break behind a key. -/
inductive OddMap (bs : Bytes) : Prop where
  | definite {n k : ℕ} {mid stop : Bytes} (hhead : header 5 bs = some (some n, mid)) (hitems : Reads (.items k) mid stop)
      (hodd : k % 2 = 1) (hlt : k < 2 * n) (hend : ∀ rest, ¬ Reads .item stop rest)
  | indefinite {k : ℕ} {mid rest : Bytes} (hhead : header 5 bs = some (none, mid))
      (hitems : Reads (.items k) mid (0xff :: rest)) (hodd : k % 2 = 1)

namespace Reads
variable {bs mid stop rest : Bytes} {n k : ℕ}

/-- Behind the first of some items stand the others. -/
theorem items_split (h : Reads (.items (n + k)) bs rest) (h' : Reads (.items n) bs mid) :
    Reads (.items k) mid rest := by
  induction n generalizing bs with
  | zero =>
    cases h' with
    | none => rwa [zero_add] at h
    | stop hg => cases hg
  | succ n ih =>
    rw [show n + 1 + k = n + k + 1 by omega] at h
    cases h' with
    | next hitem' h' =>
      cases h with
      | next hitem h =>
        obtain rfl := unique hitem hitem'
        exact ih h h'
      | stop hg => cases hg
    | stop hg => cases hg

theorem untilBreak_of_items (h : Reads (.items n) bs (0xff :: rest)) : Reads .untilBreak bs rest := by
  induction n generalizing bs with
  | zero =>
    cases h with
    | none => exact .stop rfl
    | stop hg => cases hg
  | succ n ih =>
    cases h with
    | next hitem h => exact .more hitem (ih h)
    | stop hg => cases hg

/-- An even number of them, as the content of a map. -/
theorem pairsUntilBreak_of_items (h : Reads (.items (2 * n)) bs (0xff :: rest)) : Reads .pairsUntilBreak bs rest := by
  induction n generalizing bs with
  | zero =>
    cases h with
    | none => exact .stop rfl
    | stop hg => cases hg
  | succ n ih =>
    cases h with
    | next hkey h =>
      cases h with
      | next hvalue h => exact .pair hkey hvalue (ih h)
      | stop hg => cases hg
    | stop hg => cases hg

theorem items_of_untilBreak (h : Reads .untilBreak bs rest) : ∃ n, Reads (.items n) bs (0xff :: rest) := by
  generalize hg : Goal.untilBreak = g at h
  induction h with
  | stop => exact ⟨0, .none⟩
  | more hitem h _ ih =>
    obtain ⟨n, hn⟩ := ih rfl
    exact ⟨n + 1, .next hitem hn⟩
  | _ => cases hg

theorem items_of_pairsUntilBreak (h : Reads .pairsUntilBreak bs rest) :
    ∃ n, Reads (.items (2 * n)) bs (0xff :: rest) := by
  generalize hg : Goal.pairsUntilBreak = g at h
  induction h with
  | stop => exact ⟨0, .none⟩
  | pair hkey hvalue h _ _ ih =>
    obtain ⟨n, hn⟩ := ih rfl
    exact ⟨n + 1, .next hkey (.next hvalue hn)⟩
  | _ => cases hg

theorem items_unique_break {rest' : Bytes} (h : Reads (.items n) bs (0xff :: rest))
    (h' : Reads (.items k) bs (0xff :: rest')) : n = k := by
  have hle : ∀ {n k : ℕ} {rest rest' : Bytes}, Reads (.items n) bs (0xff :: rest) →
      Reads (.items k) bs (0xff :: rest') → n ≤ k := by
    intro n k rest rest' h h'
    by_contra hlt
    obtain ⟨j, rfl⟩ : ∃ j, n = k + (j + 1) := ⟨n - k - 1, by omega⟩
    cases h.items_split h' with
    | next hitem _ => exact not_break hitem
    | stop hg => cases hg
  exact le_antisymm (hle h h') (hle h' h)

theorem item_of_takes {g : Goal} (h : Reads g bs rest) (htakes : g.Takes n) (hbefore : Reads (.items n) bs stop)
    (hbreak : stop.head? ≠ some 0xff) : ∃ rest', Reads .item stop rest' := by
  -- all but the first `n` of so many items
  have hitems : ∀ {k : ℕ} {rest : Bytes}, Reads (.items k) bs rest → n < k → ∃ rest', Reads .item stop rest' := by
    intro k rest h hlt
    obtain ⟨j, rfl⟩ : ∃ j, k = n + (j + 1) := ⟨k - n - 1, by omega⟩
    cases h.items_split hbefore with
    | next hitem _ => exact ⟨_, hitem⟩
    | stop hg => cases hg
  -- or a break comes later than those
  have huntil : ∀ {k : ℕ} {rest : Bytes}, Reads (.items k) bs (0xff :: rest) → ∃ rest', Reads .item stop rest' := by
    intro k rest h
    by_cases hlt : n < k
    · exact hitems h hlt
    · obtain ⟨j, rfl⟩ : ∃ j, n = k + j := ⟨n - k, by omega⟩
      cases hbefore.items_split h with
      | none => exact absurd rfl hbreak
      | next hitem _ => exact absurd hitem not_break
      | stop hg => cases hg
  cases g with
  | items k => exact hitems h htakes
  | untilBreak =>
    obtain ⟨k, hk⟩ := h.items_of_untilBreak
    exact huntil hk
  | pairsUntilBreak =>
    obtain ⟨k, hk⟩ := h.items_of_pairsUntilBreak
    exact huntil hk
  | _ => exact htakes.elim

end Reads

theorem Inside.item {bs pos rest : Bytes} (h : Inside bs pos) (hitem : Reads .item bs rest) :
    ∃ rest', Reads .item pos rest' := by
  induction h generalizing rest with
  | here => exact ⟨rest, hitem⟩
  | nested hhead hcontent hbefore htakes hbreak _ ih =>
    obtain ⟨g, hg, hread⟩ := hitem.content_of_item hhead
    rw [hcontent] at hg
    cases hg
    obtain ⟨rest', hstop⟩ := hread.item_of_takes htakes hbefore hbreak
    exact ih hstop

theorem OddMap.not_item {bs rest : Bytes} (h : OddMap bs) : ¬ Reads .item bs rest := by
  intro hitem
  cases h with
  | definite hhead hitems hodd hlt hend =>
    obtain ⟨g, hg, hread⟩ := hitem.content_of_item hhead
    cases hg
    obtain ⟨j, hj⟩ : ∃ j, _ = _ + (j + 1) := Nat.exists_eq_add_of_lt hlt
    rw [hj] at hread
    cases hread.items_split hitems with
    | next hnext _ => exact hend _ hnext
    | stop hg => cases hg
  | indefinite hhead hitems hodd =>
    obtain ⟨g, hg, hread⟩ := hitem.content_of_item hhead
    cases hg
    obtain ⟨n, hn⟩ := hread.items_of_pairsUntilBreak
    have heq := hitems.items_unique_break hn
    omega

theorem Inside.not_item {bs pos rest : Bytes} (h : Inside bs pos) (hodd : OddMap pos) : ¬ Reads .item bs rest := by
  intro hitem
  obtain ⟨rest', hpos⟩ := h.item hitem
  exact hodd.not_item hpos

end Cbor
