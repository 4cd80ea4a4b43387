import Pallas.Lib.Cbor

/-!
# Well-formed CBOR data items

`Reads goal bs rest` says that the bytes `bs` begin with what `goal` asks for (one data item, a number of
them, items up to a break) and that `rest` follows it, by the grammar of RFC 8949. It does not mention a
decoder. `rest` is determined (`Reads.unique`), so `Reads .item bs rest` is also what it means that skipping
one item at `bs` leaves `rest`.

A head is read by `Decoder.header`; `header_head` says that it reads what the writers write.
-/

namespace Cbor
open Decoder

/-! ### Heads -/

section Heads
variable {bs rest : Bytes}

theorem bind_run {α β : Type} (d : Decoder α) (f : α → Decoder β) (bs : Bytes) :
    (d >>= f) bs = match d bs with
      | some (a, rest) => f a rest
      | none => none := rfl

theorem map_run {α β : Type} (f : α → β) (d : Decoder α) (bs : Bytes) :
    (f <$> d) bs = (d bs).map fun r => (f r.1, r.2) := by
  rw [show f <$> d = d >>= fun a => pure (f a) from rfl, bind_run]
  cases d bs <;> rfl

/-- The number that bytes stand for, most significant first. -/
def ofBigEndian (s : Bytes) : ℕ := s.foldl (fun acc b => 256 * acc + b.toNat) 0

theorem number_eq (k : ℕ) (bs : Bytes) : number k bs = (take k bs).map fun r => (ofBigEndian r.1, r.2) := by
  rw [show number k = (take k >>= fun s => pure (ofBigEndian s)) from rfl, bind_run]
  cases take k bs <;> rfl

theorem length_bigEndian (k n : ℕ) : (bigEndian k n).length = k := by
  induction k with
  | zero => rfl
  | succ k ih => rw [bigEndian, List.length_cons, ih]

theorem foldl_bigEndian (k n acc : ℕ) :
    (bigEndian k n).foldl (fun acc b => 256 * acc + b.toNat) acc = acc * 256 ^ k + n % 256 ^ k := by
  induction k generalizing acc with
  | zero => simp [bigEndian, Nat.mod_one]
  | succ k ih =>
    have hbyte : (UInt8.ofNat (n / 256 ^ k)).toNat = n / 256 ^ k % 256 := UInt8.toNat_ofNat'
    have hmod : n % 256 ^ (k + 1) = n % 256 ^ k + 256 ^ k * (n / 256 ^ k % 256) := by
      rw [pow_succ, Nat.mod_mul]
    rw [bigEndian, List.foldl_cons, ih, hbyte, hmod]
    ring

theorem number_bigEndian {k n : ℕ} (h : n < 256 ^ k) : number k (bigEndian k n ++ rest) = some (n, rest) := by
  have htake : take k (bigEndian k n ++ rest) = some (bigEndian k n, rest) := by
    have hlen := length_bigEndian k n
    rw [take, if_pos (by rw [List.length_append]; omega), List.take_left' hlen, List.drop_left' hlen]
  have hvalue : ofBigEndian (bigEndian k n) = n := by
    rw [ofBigEndian, foldl_bigEndian, zero_mul, zero_add, Nat.mod_eq_of_lt h]
  rw [number_eq, htake, Option.map_some, hvalue]

theorem toNat_first {major info : ℕ} (hm : major < 8) (hi : info < 32) :
    (UInt8.ofNat (32 * major + info)).toNat = 32 * major + info := by
  rw [UInt8.toNat_ofNat', Nat.mod_eq_of_lt (by omega)]

theorem header_cons {major : ℕ} (b : UInt8) : header major (b :: bs) =
    if b.toNat / 32 ≠ major then none
    else if b.toNat % 32 = 31 then some (none, bs)
    else (argument (b.toNat % 32) bs).map fun r => (some r.1, r.2) := by
  show (if b.toNat / 32 ≠ major then fail
    else if b.toNat % 32 = 31 then pure none
    else some <$> argument (b.toNat % 32) : Decoder (Option ℕ)) bs = _
  split
  · rfl
  · split
    · rfl
    · exact map_run some _ bs

theorem header_first {major info : ℕ} (hm : major < 8) (hi : info < 31) {n : ℕ}
    (harg : argument info bs = some (n, rest)) :
    header major (UInt8.ofNat (32 * major + info) :: bs) = some (some n, rest) := by
  have hfirst := toNat_first hm (show info < 32 by omega)
  rw [header_cons, hfirst, if_neg (by omega), if_neg (by omega), show (32 * major + info) % 32 = info by omega, harg]
  rfl

theorem header_head {major n : ℕ} (hm : major < 8) (hn : n < 2 ^ 64) :
    header major (head major n ++ rest) = some (some n, rest) := by
  unfold head
  split
  · next h =>
    refine header_first hm (by omega) ?_
    rw [argument, if_pos h]
    rfl
  split
  · refine header_first hm (by omega) ?_
    exact number_bigEndian (k := 1) (by omega)
  split
  · refine header_first hm (by omega) ?_
    exact number_bigEndian (k := 2) (by omega)
  split
  · refine header_first hm (by omega) ?_
    exact number_bigEndian (k := 4) (by omega)
  · refine header_first hm (by omega) ?_
    exact number_bigEndian (k := 8) (by omega)

theorem header_indef (major : ℕ) (hm : major < 8) :
    header major (UInt8.ofNat (32 * major + 31) :: bs) = some (none, bs) := by
  have hfirst := toNat_first hm (show 31 < 32 by omega)
  rw [header_cons, hfirst, if_neg (by omega), if_pos (by omega)]

theorem header_major {major : ℕ} {b : UInt8} {r : Option ℕ} (h : header major (b :: bs) = some (r, rest)) :
    major = b.toNat / 32 := by
  rw [header_cons] at h
  by_contra hne
  rw [if_pos (Ne.symm hne)] at h
  cases h

theorem header_break {major n : ℕ} : header major (0xff :: bs) ≠ some (some n, rest) := by
  rw [header_cons]
  split
  · simp
  · simp

theorem header_definite {major n : ℕ} {b : UInt8} (h : header major (b :: bs) = some (some n, rest)) :
    b.toNat % 32 ≤ 27 := by
  rw [header_cons] at h
  split at h
  · cases h
  split at h
  · cases h
  · by_contra hgt
    have hfail : argument (b.toNat % 32) bs = none := by
      unfold argument
      rw [if_neg (by omega), if_neg (by omega), if_neg (by omega), if_neg (by omega), if_neg (by omega)]
      rfl
    rw [hfail] at h
    cases h

theorem header_eq_indef {major : ℕ} : header major bs = some (none, rest) ↔
    ∃ b : UInt8, b.toNat = 32 * major + 31 ∧ bs = b :: rest := by
  constructor
  · intro h
    cases bs with
    | nil => cases h
    | cons b tail =>
      have hmajor := header_major h
      rw [header_cons, if_neg (by omega)] at h
      split at h
      · cases h
        exact ⟨b, by omega, rfl⟩
      · cases harg : argument (b.toNat % 32) tail <;> simp [harg] at h
  · rintro ⟨b, hb, rfl⟩
    rw [header_cons, if_neg (by omega), if_pos (by omega)]

theorem ofBigEndian_append (s : Bytes) (b : UInt8) : ofBigEndian (s ++ [b]) = 256 * ofBigEndian s + b.toNat := by
  rw [ofBigEndian, List.foldl_append]
  rfl

theorem ofBigEndian_lt (s : Bytes) : ofBigEndian s < 256 ^ s.length := by
  induction s using List.reverseRecOn with
  | nil => simp [ofBigEndian]
  | append_singleton s b ih =>
    have hb : b.toNat < 256 := b.toNat_lt
    rw [ofBigEndian_append, List.length_append, List.length_singleton, pow_succ]
    omega

/-- An argument fits 64 bits. -/
theorem header_lt {major n : ℕ} (h : header major bs = some (some n, rest)) : n < 2 ^ 64 := by
  have hnumber : ∀ {k : ℕ} {tail : Bytes}, k ≤ 8 → number k tail = some (n, rest) → n < 2 ^ 64 := by
    intro k tail hk hnum
    rw [number_eq, Option.map_eq_some_iff] at hnum
    obtain ⟨⟨s, rest'⟩, htake, heq⟩ := hnum
    cases heq
    have hlen : s.length = k := by
      unfold take at htake
      split at htake
      · cases htake
        rw [List.length_take]
        omega
      · cases htake
    calc ofBigEndian s < 256 ^ s.length := ofBigEndian_lt s
      _ ≤ 256 ^ 8 := Nat.pow_le_pow_right (by omega) (by omega)
      _ = 2 ^ 64 := by norm_num
  cases bs with
  | nil => cases h
  | cons b tail =>
    rw [header_cons] at h
    split at h
    · cases h
    split at h
    · cases h
    · cases harg : argument (b.toNat % 32) tail with
      | none => simp [harg] at h
      | some r =>
        rw [harg] at h
        cases h
        unfold argument at harg
        split at harg
        · cases harg
          omega
        split at harg
        · exact hnumber (by omega) harg
        split at harg
        · exact hnumber (by omega) harg
        split at harg
        · exact hnumber (by omega) harg
        split at harg
        · exact hnumber (by omega) harg
        · cases harg

theorem take_suffix {n : ℕ} {s : Bytes} (h : take n bs = some (s, rest)) : rest <:+ bs := by
  unfold take at h
  split at h
  · cases h
    exact List.drop_suffix n bs
  · cases h

theorem argument_suffix {info n : ℕ} (h : argument info bs = some (n, rest)) : rest <:+ bs := by
  have hnumber : ∀ {k : ℕ}, number k bs = some (n, rest) → rest <:+ bs := by
    intro k hk
    rw [number_eq, Option.map_eq_some_iff] at hk
    obtain ⟨⟨s, rest'⟩, htake, hk⟩ := hk
    cases hk
    exact take_suffix htake
  unfold argument at h
  split at h
  · cases h
    exact List.suffix_refl _
  split at h
  · exact hnumber h
  split at h
  · exact hnumber h
  split at h
  · exact hnumber h
  split at h
  · exact hnumber h
  · cases h

theorem header_suffix {major : ℕ} {r : Option ℕ} (h : header major bs = some (r, rest)) :
    ∃ b tail, bs = b :: tail ∧ rest <:+ tail := by
  cases bs with
  | nil => cases h
  | cons b tail =>
    refine ⟨b, tail, rfl, ?_⟩
    rw [header_cons] at h
    split at h
    · cases h
    split at h
    · cases h
      exact List.suffix_refl _
    · cases harg : argument (b.toNat % 32) tail with
      | none => simp [harg] at h
      | some r' =>
        rw [harg] at h
        cases h
        exact argument_suffix harg

/-! ### Bytes behind a head change nothing -/

theorem take_more {n : ℕ} {s : Bytes} (h : take n bs = some (s, rest)) (more : Bytes) :
    take n (bs ++ more) = some (s, rest ++ more) := by
  unfold take at h ⊢
  split at h
  · next hle =>
    cases h
    rw [if_pos (by rw [List.length_append]; omega), List.take_append_of_le_length hle, List.drop_append_of_le_length hle]
  · cases h

theorem argument_more {info n : ℕ} (h : argument info bs = some (n, rest)) (more : Bytes) :
    argument info (bs ++ more) = some (n, rest ++ more) := by
  have hnumber : ∀ {k : ℕ}, number k bs = some (n, rest) → number k (bs ++ more) = some (n, rest ++ more) := by
    intro k hk
    rw [number_eq, Option.map_eq_some_iff] at hk ⊢
    obtain ⟨⟨s, rest'⟩, htake, hk⟩ := hk
    cases hk
    exact ⟨_, take_more htake more, rfl⟩
  unfold argument at h ⊢
  split_ifs at h ⊢
  · cases h
    rfl
  · exact hnumber h
  · exact hnumber h
  · exact hnumber h
  · exact hnumber h
  · cases h

theorem header_more {major : ℕ} {r : Option ℕ} (h : header major bs = some (r, rest)) (more : Bytes) :
    header major (bs ++ more) = some (r, rest ++ more) := by
  obtain ⟨b, tail, rfl, -⟩ := header_suffix h
  rw [List.cons_append]
  rw [header_cons] at h ⊢
  split at h
  · cases h
  · next hmajor =>
    rw [if_neg hmajor]
    split at h
    · next hindef =>
      cases h
      rw [if_pos hindef]
    · next hindef =>
      rw [if_neg hindef]
      cases harg : argument (b.toNat % 32) tail with
      | none => simp [harg] at h
      | some r' =>
        rw [harg] at h
        cases h
        rw [argument_more harg more]
        rfl

end Heads

/-! ### Items -/

/-- What is to be read: a data item, a number of items or of bytes, the chunks of a string of indefinite
length, items up to a break, pairs of items up to a break. -/
inductive Goal where
  | item
  | items (n : ℕ)
  | bytes (n : ℕ)
  | chunks (major : ℕ)
  | untilBreak
  | pairsUntilBreak
  deriving DecidableEq

/-- A sequence of indefinite length, which a break ends. -/
def Goal.endsWithBreak : Goal → Bool
  | chunks _ => true
  | untilBreak => true
  | pairsUntilBreak => true
  | _ => false

/-- What follows the head of an item. -/
def content : (major : ℕ) → (argument : Option ℕ) → Option Goal
  | 0, some _ => some (.items 0)
  | 1, some _ => some (.items 0)
  | 2, some n => some (.bytes n)
  | 2, none => some (.chunks 2)
  | 3, some n => some (.bytes n)
  | 3, none => some (.chunks 3)
  | 4, some n => some (.items n)
  | 4, none => some .untilBreak
  | 5, some n => some (.items (2 * n))
  | 5, none => some .pairsUntilBreak
  | 6, some _ => some (.items 1)
  | 7, some _ => some (.items 0)
  | _, _ => none

/-- The bytes begin with what the goal asks for, and the rest follows. A simple value below 32 has one byte. -/
inductive Reads : Goal → (bs rest : Bytes) → Prop where
  | item {major : ℕ} {arg : Option ℕ} {g : Goal} {bs mid rest : Bytes} (hhead : header major bs = some (arg, mid))
      (hsimple : ∀ v tail, bs = 0xf8 :: v :: tail → 32 ≤ v.toNat) (hcontent : content major arg = some g)
      (h : Reads g mid rest) : Reads .item bs rest
  | none {bs : Bytes} : Reads (.items 0) bs bs
  | next {n : ℕ} {bs mid rest : Bytes} (hitem : Reads .item bs mid) (h : Reads (.items n) mid rest) :
      Reads (.items (n + 1)) bs rest
  | bytes {n : ℕ} {bs s rest : Bytes} (h : take n bs = some (s, rest)) : Reads (.bytes n) bs rest
  | stop {g : Goal} {rest : Bytes} (h : g.endsWithBreak = true) : Reads g (0xff :: rest) rest
  | chunk {major n : ℕ} {bs mid s mid' rest : Bytes} (hhead : header major bs = some (some n, mid))
      (htake : take n mid = some (s, mid')) (h : Reads (.chunks major) mid' rest) : Reads (.chunks major) bs rest
  | more {bs mid rest : Bytes} (hitem : Reads .item bs mid) (h : Reads .untilBreak mid rest) :
      Reads .untilBreak bs rest
  | pair {bs mid mid' rest : Bytes} (hkey : Reads .item bs mid) (hvalue : Reads .item mid mid')
      (h : Reads .pairsUntilBreak mid' rest) : Reads .pairsUntilBreak bs rest

/-- The chunks of a string of indefinite length, and the break after them. -/
inductive Chunks (major : ℕ) : (bs : Bytes) → List Bytes → (rest : Bytes) → Prop where
  | stop {rest : Bytes} : Chunks major (0xff :: rest) [] rest
  | chunk {n : ℕ} {bs mid s mid' rest : Bytes} {cs : List Bytes} (hhead : header major bs = some (some n, mid))
      (htake : take n mid = some (s, mid')) (h : Chunks major mid' cs rest) : Chunks major bs (s :: cs) rest

theorem Chunks.reads {major : ℕ} {bs rest : Bytes} {cs : List Bytes} (h : Chunks major bs cs rest) :
    Reads (.chunks major) bs rest := by
  induction h with
  | stop => exact .stop rfl
  | chunk hhead htake _ ih => exact .chunk hhead htake ih

/-- A byte string of definite length, or in chunks. -/
inductive ByteString (bs : Bytes) : (s rest : Bytes) → Prop where
  | definite {n : ℕ} {mid s rest : Bytes} (hhead : header 2 bs = some (some n, mid))
      (htake : take n mid = some (s, rest)) : ByteString bs s rest
  | chunked {mid rest : Bytes} {cs : List Bytes} (hhead : header 2 bs = some (none, mid))
      (h : Chunks 2 mid cs rest) : ByteString bs cs.flatten rest

theorem take_append (s rest : Bytes) : take s.length (s ++ rest) = some (s, rest) := by
  rw [take, if_pos (by rw [List.length_append]; omega), List.take_left, List.drop_left]

theorem header_length {major : ℕ} {bs rest : Bytes} {r : Option ℕ} (h : header major bs = some (r, rest)) :
    rest.length < bs.length := by
  obtain ⟨b, tail, rfl, hrest⟩ := header_suffix h
  have hle := hrest.length_le
  rw [List.length_cons]
  omega

theorem take_length {n : ℕ} {bs s rest : Bytes} (h : take n bs = some (s, rest)) :
    s.length + rest.length = bs.length := by
  unfold take at h
  split at h
  · cases h
    rw [← List.length_append, List.take_append_drop]
  · cases h

theorem Chunks.length_le {major : ℕ} {bs rest : Bytes} {cs : List Bytes} (h : Chunks major bs cs rest) :
    rest.length ≤ bs.length := by
  induction h with
  | stop => simp
  | chunk hhead htake _ ih =>
    have hlt := header_length hhead
    have hle := (take_suffix htake).length_le
    omega

theorem Chunks.length_flatten {major : ℕ} {bs rest : Bytes} {cs : List Bytes} (h : Chunks major bs cs rest) :
    cs.flatten.length + rest.length ≤ bs.length := by
  induction h with
  | stop => simp
  | chunk hhead htake _ ih =>
    have hlt := header_length hhead
    have heq := take_length htake
    rw [List.flatten_cons, List.length_append]
    omega

theorem ByteString.length_le {bs s rest : Bytes} (h : ByteString bs s rest) : s.length ≤ bs.length := by
  cases h with
  | definite hhead htake =>
    have hlt := header_length hhead
    have heq := take_length htake
    omega
  | chunked hhead h =>
    have hlt := header_length hhead
    have hle := h.length_flatten
    omega

theorem ByteString.length_lt {bs s rest : Bytes} (h : ByteString bs s rest) : rest.length < bs.length := by
  cases h with
  | definite hhead htake =>
    have hlt := header_length hhead
    have hle := (take_suffix htake).length_le
    omega
  | chunked hhead h =>
    have hlt := header_length hhead
    have hle := h.length_le
    omega

namespace Reads
variable {bs mid rest rest' : Bytes}

theorem of_head {major : ℕ} {arg : Option ℕ} {g : Goal} (hhead : header major bs = some (arg, mid)) (hm : major < 7)
    (hcontent : content major arg = some g) (h : Reads g mid rest) : Reads .item bs rest := by
  refine item hhead ?_ hcontent h
  rintro v tail rfl
  have hmajor := header_major hhead
  have hseven : (0xf8 : UInt8).toNat / 32 = 7 := by decide
  omega

theorem of_byteString {s : Bytes} (h : ByteString bs s rest) : Reads .item bs rest := by
  cases h with
  | definite hhead htake => exact of_head hhead (by omega) rfl (.bytes htake)
  | chunked hhead h => exact of_head hhead (by omega) rfl h.reads

theorem not_break : ¬ Reads .item (0xff :: bs) rest := by
  intro h
  cases h with
  | item hhead hsimple hcontent h =>
    rename_i major arg g mid
    have hmajor : major = 7 := (header_major hhead).trans (by decide)
    subst hmajor
    cases arg with
    | none => cases hcontent
    | some n => exact header_break hhead
  | stop h => cases h

theorem items_append {n k : ℕ} (h : Reads (.items n) bs mid) (h' : Reads (.items k) mid rest) :
    Reads (.items (n + k)) bs rest := by
  induction n generalizing bs with
  | zero =>
    cases h with
    | none => rwa [zero_add]
    | stop h => cases h
  | succ n ih =>
    cases h with
    | next hitem h =>
      rw [show n + 1 + k = n + k + 1 by omega]
      exact next hitem (ih h)
    | stop h => cases h

theorem header_unique {major major' : ℕ} {arg arg' : Option ℕ} {mid mid' : Bytes}
    (h : header major bs = some (arg, mid)) (h' : header major' bs = some (arg', mid')) :
    major = major' ∧ arg = arg' ∧ mid = mid' := by
  obtain ⟨b, tail, rfl, -⟩ := header_suffix h
  have hmajor : major = major' := (header_major h).trans (header_major h').symm
  subst hmajor
  rw [h] at h'
  cases h'
  exact ⟨rfl, rfl, rfl⟩

/-- What follows is determined: an item, or whatever the goal asks for, ends in one place only. -/
theorem unique {g : Goal} (h : Reads g bs rest) (h' : Reads g bs rest') : rest = rest' := by
  induction h generalizing rest' with
  | item hhead hsimple hcontent h ih =>
    cases h' with
    | item hhead' hsimple' hcontent' h' =>
      obtain ⟨rfl, rfl, rfl⟩ := header_unique hhead hhead'
      rw [hcontent] at hcontent'
      obtain rfl := Option.some.inj hcontent'
      exact ih h'
    | stop hg => cases hg
  | none =>
    cases h' with
    | none => rfl
    | stop hg => cases hg
  | next hitem h ihitem ih =>
    cases h' with
    | next hitem' h' =>
      obtain rfl := ihitem hitem'
      exact ih h'
    | stop hg => cases hg
  | bytes htake =>
    cases h' with
    | bytes htake' =>
      rw [htake] at htake'
      cases htake'
      rfl
    | stop hg => cases hg
  | stop hg =>
    cases h' with
    | stop => rfl
    | none => cases hg
    | next => cases hg
    | bytes => cases hg
    | item => cases hg
    | chunk hhead => exact absurd hhead header_break
    | more hitem => exact absurd hitem not_break
    | pair hkey => exact absurd hkey not_break
  | chunk hhead htake h ih =>
    cases h' with
    | stop hg => exact absurd hhead header_break
    | chunk hhead' htake' h' =>
      rw [hhead] at hhead'
      cases hhead'
      rw [htake] at htake'
      cases htake'
      exact ih h'
  | more hitem h ihitem ih =>
    cases h' with
    | stop hg => exact absurd hitem not_break
    | more hitem' h' =>
      obtain rfl := ihitem hitem'
      exact ih h'
  | pair hkey hvalue h ihkey ihvalue ih =>
    cases h' with
    | stop hg => exact absurd hkey not_break
    | pair hkey' hvalue' h' =>
      obtain rfl := ihkey hkey'
      obtain rfl := ihvalue hvalue'
      exact ih h'

theorem content_of_item {major : ℕ} {arg : Option ℕ} (h : Reads .item bs rest)
    (hhead : header major bs = some (arg, mid)) :
    ∃ g, content major arg = some g ∧ Reads g mid rest := by
  cases h with
  | item hhead' hsimple hcontent h =>
    obtain ⟨rfl, rfl, rfl⟩ := header_unique hhead hhead'
    exact ⟨_, hcontent, h⟩
  | stop hg => cases hg

theorem items_one (h : Reads (.items 1) bs rest) : Reads .item bs rest := by
  cases h with
  | next hitem h =>
    cases h with
    | none => exact hitem
    | stop hg => cases hg
  | stop hg => cases hg

theorem progress {g : Goal} (h : Reads g bs rest) :
    rest.length ≤ bs.length ∧ (g = .item → rest.length < bs.length) := by
  induction h with
  | item hhead hsimple hcontent h ih =>
    have hlt := header_length hhead
    exact ⟨by omega, fun _ => by omega⟩
  | none => exact ⟨le_refl _, by simp⟩
  | next hitem h ihitem ih => exact ⟨ih.1.trans ihitem.1, by simp⟩
  | bytes htake => exact ⟨(take_suffix htake).length_le, by simp⟩
  | stop hg =>
    rw [List.length_cons]
    exact ⟨by omega, fun _ => by omega⟩
  | chunk hhead htake h ih =>
    have hlt := header_length hhead
    have hle := (take_suffix htake).length_le
    exact ⟨by omega, by simp⟩
  | more hitem h ihitem ih => exact ⟨ih.1.trans ihitem.1, by simp⟩
  | pair hkey hvalue h ihkey ihvalue ih => exact ⟨ih.1.trans (ihvalue.1.trans ihkey.1), by simp⟩

theorem length_lt (h : Reads .item bs rest) : rest.length < bs.length := h.progress.2 rfl

theorem items_unique {n k : ℕ} (h : Reads (.items n) bs rest) (h' : Reads (.items k) bs rest) : n = k := by
  induction n generalizing k bs with
  | zero =>
    cases h with
    | none =>
      cases h' with
      | none => rfl
      | next hitem h' =>
        have hlt := hitem.length_lt
        have hle := h'.progress.1
        omega
    | stop hg => cases hg
  | succ n ih =>
    cases h with
    | next hitem h =>
      cases h' with
      | none =>
        have hlt := hitem.length_lt
        have hle := h.progress.1
        omega
      | next hitem' h' =>
        obtain rfl := unique hitem hitem'
        rw [ih h h']
      | stop hg => cases hg
    | stop hg => cases hg

theorem items_not_untilBreak {n : ℕ} (h : Reads (.items n) bs rest) : ¬ Reads .untilBreak bs rest := by
  induction n generalizing bs with
  | zero =>
    intro h'
    cases h with
    | none =>
      cases h' with
      | more hitem h' =>
        have hlt := hitem.length_lt
        have hle := h'.progress.1
        omega
    | stop hg => cases hg
  | succ n ih =>
    intro h'
    cases h with
    | next hitem h =>
      cases h' with
      | stop hg => exact not_break hitem
      | more hitem' h' =>
        obtain rfl := unique hitem hitem'
        exact ih h h'
    | stop hg => cases hg

end Reads
end Cbor
