import Pallas.Lib.CborNest

/-!
# Bytes that are data items

`Writes n w` says that `w` is `n` data items one after the other, wherever it stands. The writers keep it: an array with the
length of what is behind it is one item, and with another length it is not (`reads_array_iff_of_writes`). The bytes are of a
buffer, whose length fits a word.
-/

namespace Cbor
open Decoder

/-! ### Bytes behind an item change nothing -/

section More
variable {bs rest : Bytes}

theorem Reads.more_bytes {g : Goal} (h : Reads g bs rest) (more : Bytes) : Reads g (bs ++ more) (rest ++ more) := by
  induction h with
  | item hhead hsimple hcontent _ ih =>
    refine .item (header_more hhead more) ?_ hcontent ih
    rintro v tail heq
    obtain ⟨b, tail', rfl, -⟩ := header_suffix hhead
    obtain ⟨rfl, htail⟩ := List.cons.inj heq
    cases tail' with
    | nil =>
      obtain rfl := (header_major hhead).trans (show (0xf8 : UInt8).toNat / 32 = 7 by decide)
      cases hhead
    | cons v' tail' =>
      obtain ⟨rfl, -⟩ := List.cons.inj htail
      exact hsimple _ _ rfl
  | none => exact .none
  | next _ _ ihitem ih => exact .next ihitem ih
  | bytes htake => exact .bytes (take_more htake more)
  | stop hg => exact .stop hg
  | chunk hhead htake _ ih => exact .chunk (header_more hhead more) (take_more htake more) ih
  | more _ _ ihitem ih => exact .more ihitem ih
  | pair _ _ _ ihkey ihvalue ih => exact .pair ihkey ihvalue ih

/-- So many items take as many bytes at least. -/
theorem Reads.items_le {n : ℕ} (h : Reads (.items n) bs rest) : n + rest.length ≤ bs.length := by
  induction n generalizing bs with
  | zero =>
    cases h with
    | none => omega
    | stop hg => cases hg
  | succ n ih =>
    cases h with
    | next hitem h =>
      have hlt := hitem.length_lt
      have hle := ih h
      omega
    | stop hg => cases hg

end More

/-! ### What is written -/

/-- The bytes are so many data items. -/
def Writes (n : ℕ) (w : Bytes) : Prop := w.length < 2 ^ 64 → ∀ rest, Reads (.items n) (w ++ rest) rest

section Writes
variable {n k : ℕ} {w v : Bytes}

theorem writes_nil : Writes 0 [] := fun _ _ => .none

theorem Writes.append (h : Writes n w) (h' : Writes k v) : Writes (n + k) (w ++ v) := by
  intro hlt rest
  rw [List.length_append] at hlt
  rw [List.append_assoc]
  exact (h (by omega) _).items_append (h' (by omega) rest)

theorem Writes.item (h : Writes 1 w) (hlt : w.length < 2 ^ 64) (rest : Bytes) : Reads .item (w ++ rest) rest :=
  (h hlt rest).items_one

theorem writes_of_reads (h : Reads .item w []) : Writes 1 w := fun _ rest => .next (h.more_bytes rest) .none

theorem Writes.reads (h : Writes 1 w) (hlt : w.length < 2 ^ 64) : Reads .item w [] := by
  have hitem := h.item hlt []
  rwa [List.append_nil] at hitem

theorem Writes.of_head {major : ℕ} {g : Goal} (hm : major < 7) (hn : v.length < 2 ^ 64 → n < 2 ^ 64)
    (hcontent : content major (some n) = some g) (h : v.length < 2 ^ 64 → ∀ rest, Reads g (v ++ rest) rest) :
    Writes 1 (head major n ++ v) := by
  intro hlt rest
  rw [List.length_append] at hlt
  have hv : v.length < 2 ^ 64 := by omega
  rw [List.append_assoc]
  exact .next (.of_head (header_head (by omega) (hn hv)) hm hcontent (h hv rest)) .none

theorem writes_uint (hn : n < 2 ^ 64) : Writes 1 (uint n) := by
  have h : Writes 1 (head 0 n ++ []) := .of_head (by omega) (fun _ => hn) rfl fun _ _ => .none
  rwa [List.append_nil] at h

theorem writes_bool (b : Bool) : Writes 1 (bool b) := by
  intro _ rest
  have hhead : header 7 (bool b ++ rest) = some (some (if b then 21 else 20), rest) := by cases b <;> rfl
  have hsimple : ∀ v tail, bool b ++ rest = 0xf8 :: v :: tail → 32 ≤ v.toNat := by cases b <;> simp [bool]
  exact .next (.item hhead hsimple rfl .none) .none

theorem writes_null : Writes 1 null := fun _ rest =>
  .next (.item (show header 7 (null ++ rest) = some (some 22, rest) from rfl) (by simp [null]) rfl .none) .none

theorem writes_bytes (bs : Bytes) : Writes 1 (bytes bs) :=
  .of_head (by omega) id rfl fun _ rest => .bytes (take_append bs rest)

theorem Writes.tag (h : Writes 1 w) (hn : n < 2 ^ 64) : Writes 1 (tag n ++ w) :=
  .of_head (by omega) (fun _ => hn) rfl h

theorem Writes.le (h : Writes n w) (hlt : w.length < 2 ^ 64) : n ≤ w.length := by
  have hle := (h hlt []).items_le
  rwa [List.append_nil, List.length_nil, add_zero] at hle

theorem Writes.array (h : Writes n w) : Writes 1 (array n ++ w) :=
  .of_head (by omega) (fun hlt => Nat.lt_of_le_of_lt (h.le hlt) hlt) rfl h

theorem Writes.indefinite (h : Writes n w) : Writes 1 (beginArray ++ w ++ endIndef) := by
  intro hlt rest
  simp only [List.length_append] at hlt
  have hcontent := (h (by omega) (0xff :: rest)).untilBreak_of_items
  have hhead : header 4 (beginArray ++ w ++ endIndef ++ rest) = some (none, w ++ 0xff :: rest) := by
    rw [List.append_assoc, List.append_assoc]
    exact header_indef 4 (by omega)
  exact .next (.of_head hhead (by omega) rfl hcontent) .none

theorem Writes.indefiniteMap (h : Writes (2 * n) w) : Writes 1 (beginMap ++ w ++ endIndef) := by
  intro hlt rest
  simp only [List.length_append] at hlt
  have hcontent := (h (by omega) (0xff :: rest)).pairsUntilBreak_of_items
  have hhead : header 5 (beginMap ++ w ++ endIndef ++ rest) = some (none, w ++ 0xff :: rest) := by
    rw [List.append_assoc, List.append_assoc]
    exact header_indef 5 (by omega)
  exact .next (.of_head hhead (by omega) rfl hcontent) .none

theorem writes_flatMap {α : Type} {f : α → Bytes} {as : List α} (h : ∀ a ∈ as, Writes k (f a)) :
    Writes (k * as.length) (as.flatMap f) := by
  induction as with
  | nil => exact writes_nil
  | cons a as ih =>
    obtain ⟨ha, h⟩ := List.forall_mem_cons.1 h
    have happend := ha.append (ih h)
    rwa [List.flatMap_cons, List.length_cons, Nat.mul_succ, Nat.add_comm (k * as.length)]

theorem reads_array_iff_of_writes (hn : n < 2 ^ 64) (h : Writes k w) (hlt : w.length < 2 ^ 64) :
    Reads .item (Cbor.array n ++ w) [] ↔ n = k := by
  have hcontent := h hlt []
  rw [List.append_nil] at hcontent
  constructor
  · intro hitem
    obtain ⟨g, hg, hreads⟩ := hitem.content_of_item (header_head (by omega) hn)
    obtain rfl := Option.some.inj hg
    exact hreads.items_unique hcontent
  · rintro rfl
    exact .of_head (header_head (by omega) hn) (by omega) rfl hcontent

end Writes
end Cbor
