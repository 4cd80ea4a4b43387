import Pallas.Lib.CborItem

/-!
# Skipping whole items

`Decoder.skip` keeps a stack with the number of items that each open container still wants. It moves over every data item
(`skip_of_reads`): an item takes the place of one that the innermost container wants, and needs no more steps than twice
its bytes.
-/

namespace Cbor
open Decoder

section Steps
variable {bs mid rest tail : Bytes} {b : UInt8} {fuel n : ℕ} {frame : Option ℕ} {pending : List (Option ℕ)}

/-- The innermost container, with one item less to come. -/
def counted (frame : Option ℕ) : Option ℕ := frame.map (· - 1)

theorem argument_of_header {major : ℕ} (h : header major (b :: tail) = some (some n, mid)) :
    b.toNat / 32 = major ∧ b.toNat % 32 ≠ 31 ∧ argument (b.toNat % 32) tail = some (n, mid) := by
  have hmajor := header_major h
  rw [header_cons, if_neg (by omega)] at h
  split at h
  · cases h
  · next hinfo =>
    obtain ⟨⟨k, mid'⟩, harg, heq⟩ := Option.map_eq_some_iff.1 h
    cases heq
    exact ⟨hmajor.symm, hinfo, harg⟩

theorem skip_plain {major : ℕ} (hframe : frame ≠ some 0) (hhead : header major bs = some (some n, mid))
    (hmajor : major = 0 ∨ major = 1 ∨ major = 7) :
    skipItems (fuel + 1) (frame :: pending) bs = skipItems fuel (counted frame :: pending) mid := by
  obtain ⟨b, tail, rfl, -⟩ := header_suffix hhead
  obtain ⟨hb, hinfo, harg⟩ := argument_of_header hhead
  rw [skipItems]
  · rcases hmajor with rfl | rfl | rfl
    · simp [bind_run, byte, hb, harg, counted]
    · simp [bind_run, byte, hb, harg, counted]
    · simp [bind_run, byte, hb, hinfo, harg, counted]
  · exact hframe

theorem skip_string {major : ℕ} {s : Bytes} (hframe : frame ≠ some 0) (hhead : header major bs = some (some n, mid))
    (hmajor : major = 2 ∨ major = 3) (htake : take n mid = some (s, rest)) :
    skipItems (fuel + 1) (frame :: pending) bs = skipItems fuel (counted frame :: pending) rest := by
  obtain ⟨b, tail, rfl, -⟩ := header_suffix hhead
  obtain ⟨hb, hinfo, harg⟩ := argument_of_header hhead
  rw [skipItems]
  · rcases hmajor with rfl | rfl
    · simp [bind_run, byte, hb, hinfo, harg, htake, counted]
    · simp [bind_run, byte, hb, hinfo, harg, htake, counted]
  · exact hframe

/-- The items that a head of definite length asks for. -/
def wanted (n : ℕ) : (major : ℕ) → ℕ
  | 4 => n
  | 5 => 2 * n
  | _ => 1

theorem skip_opens {major : ℕ} (hframe : frame ≠ some 0) (hhead : header major bs = some (some n, mid))
    (hmajor : major = 4 ∨ major = 5 ∨ major = 6) :
    skipItems (fuel + 1) (frame :: pending) bs =
      skipItems fuel (some (wanted n major) :: counted frame :: pending) mid := by
  obtain ⟨b, tail, rfl, -⟩ := header_suffix hhead
  obtain ⟨hb, hinfo, harg⟩ := argument_of_header hhead
  rw [skipItems]
  · rcases hmajor with rfl | rfl | rfl
    · simp [bind_run, byte, hb, hinfo, harg, counted, wanted]
    · simp [bind_run, byte, hb, hinfo, harg, counted, wanted]
    · simp [bind_run, byte, hb, harg, counted, wanted]
  · exact hframe

theorem skip_opens_indef {major : ℕ} (hframe : frame ≠ some 0) (hhead : header major bs = some (none, mid))
    (hmajor : 2 ≤ major ∧ major ≤ 5) :
    skipItems (fuel + 1) (frame :: pending) bs = skipItems fuel (none :: counted frame :: pending) mid := by
  obtain ⟨b, hfirst, rfl⟩ := header_eq_indef.1 hhead
  have hb : b.toNat / 32 = major := by omega
  have hinfo : b.toNat % 32 = 31 := by omega
  rw [skipItems]
  · obtain rfl | rfl | rfl | rfl : major = 2 ∨ major = 3 ∨ major = 4 ∨ major = 5 := by omega
    · simp [bind_run, byte, hb, hinfo, counted]
    · simp [bind_run, byte, hb, hinfo, counted]
    · simp [bind_run, byte, hb, hinfo, counted]
    · simp [bind_run, byte, hb, hinfo, counted]
  · exact hframe

theorem skip_closes : skipItems (fuel + 1) (none :: pending) (0xff :: rest) = skipItems fuel pending rest := by
  rw [skipItems]
  · rfl
  · simp

theorem skip_full : skipItems (fuel + 1) (some 0 :: pending) bs = skipItems fuel pending bs := rfl

end Steps

/-- With so many steps a container that a break ends is closed. -/
def SkipsOpen (bs rest : Bytes) : Prop := ∃ c, c ≤ 2 * (bs.length - rest.length) ∧ ∀ fuel pending,
  skipItems (fuel + c) (none :: pending) bs = skipItems fuel pending rest

/-- With so many steps the stack is as it was, but for the item or the items that have been moved over. -/
def Skips (bs rest : Bytes) : Goal → Prop
  | .item => ∃ c, c ≤ 2 * (bs.length - rest.length) ∧ ∀ fuel frame pending, frame ≠ some 0 →
      skipItems (fuel + c) (frame :: pending) bs = skipItems fuel (counted frame :: pending) rest
  | .items n => ∃ c, c ≤ 2 * (bs.length - rest.length) + 1 ∧ ∀ fuel pending,
      skipItems (fuel + c) (some n :: pending) bs = skipItems fuel pending rest
  | .bytes n => ∃ s, take n bs = some (s, rest)
  | .chunks major => major = 2 ∨ major = 3 → SkipsOpen bs rest
  | .untilBreak => SkipsOpen bs rest
  | .pairsUntilBreak => SkipsOpen bs rest

section Runs
variable {bs mid rest : Bytes}

theorem Skips.next {n : ℕ} (hitem : Skips bs mid .item) (h : Skips mid rest (.items n)) (hlt : mid.length < bs.length)
    (hle : rest.length ≤ mid.length) : Skips bs rest (.items (n + 1)) := by
  obtain ⟨c, hc, hskip⟩ := hitem
  obtain ⟨c', hc', hskip'⟩ := h
  refine ⟨c' + c, by omega, fun fuel pending => ?_⟩
  rw [← add_assoc, hskip _ _ _ (by simp)]
  exact hskip' fuel pending

/-- One in front of what a break ends. -/
theorem Skips.more (hitem : Skips bs mid .item) (h : SkipsOpen mid rest) (hlt : mid.length < bs.length)
    (hle : rest.length ≤ mid.length) : SkipsOpen bs rest := by
  obtain ⟨c, hc, hskip⟩ := hitem
  obtain ⟨c', hc', hskip'⟩ := h
  refine ⟨c' + c, by omega, fun fuel pending => ?_⟩
  rw [← add_assoc, hskip _ _ _ (by simp)]
  exact hskip' fuel pending

theorem Skips.item {major : ℕ} {arg : Option ℕ} {g : Goal} (hhead : header major bs = some (arg, mid))
    (hcontent : content major arg = some g) (h : Skips mid rest g) (hread : Reads g mid rest) :
    Skips bs rest .item := by
  have hlt := header_length hhead
  have hle := hread.progress.1
  -- no content
  have hplain : ∀ {n : ℕ}, major = 0 ∨ major = 1 ∨ major = 7 → arg = some n → g = .items 0 → Skips bs rest .item := by
    rintro n hmajor rfl rfl
    cases hread with
    | none => exact ⟨1, by omega, fun fuel frame pending hframe => skip_plain hframe hhead hmajor⟩
    | stop hg => cases hg
  -- a string
  have hstring : ∀ {n : ℕ}, major = 2 ∨ major = 3 → arg = some n → g = .bytes n → Skips bs rest .item := by
    rintro n hmajor rfl rfl
    obtain ⟨s, htake⟩ := h
    exact ⟨1, by omega, fun fuel frame pending hframe => skip_string hframe hhead hmajor htake⟩
  -- a container of definite length
  have hopens : ∀ {n : ℕ}, major = 4 ∨ major = 5 ∨ major = 6 → arg = some n → g = .items (wanted n major) →
      Skips bs rest .item := by
    rintro n hmajor rfl rfl
    obtain ⟨c, hc, hskip⟩ := h
    refine ⟨c + 1, by omega, fun fuel frame pending hframe => ?_⟩
    rw [← add_assoc, skip_opens hframe hhead hmajor]
    exact hskip fuel _
  -- one of indefinite length
  have hindef : 2 ≤ major ∧ major ≤ 5 → arg = none → SkipsOpen mid rest → Skips bs rest .item := by
    rintro hmajor rfl ⟨c, hc, hskip⟩
    refine ⟨c + 1, by omega, fun fuel frame pending hframe => ?_⟩
    rw [← add_assoc, skip_opens_indef hframe hhead hmajor]
    exact hskip fuel _
  unfold content at hcontent
  split at hcontent
  all_goals first
    | cases hcontent
      exact hplain (by omega) rfl rfl
    | cases hcontent
      exact hstring (by omega) rfl rfl
    | cases hcontent
      exact hopens (by omega) rfl rfl
    | cases hcontent
      exact hindef (by omega) rfl h
    | cases hcontent
      exact hindef (by omega) rfl (h (by omega))
    | cases hcontent

theorem Reads.skips {g : Goal} (h : Reads g bs rest) : Skips bs rest g := by
  induction h with
  | item hhead _ hcontent h ih => exact ih.item hhead hcontent h
  | none => exact ⟨1, by omega, fun fuel pending => skip_full⟩
  | next hitem h ihitem ih => exact ihitem.next ih hitem.length_lt h.progress.1
  | bytes htake => exact ⟨_, htake⟩
  | @stop g rest hg =>
    have hclosed : SkipsOpen (0xff :: rest) rest :=
      ⟨1, by rw [List.length_cons]; omega, fun fuel pending => skip_closes⟩
    cases g with
    | chunks => exact fun _ => hclosed
    | untilBreak | pairsUntilBreak => exact hclosed
    | _ => cases hg
  | chunk hhead htake h ih =>
    intro hmajor
    obtain ⟨c, hc, hskip⟩ := ih hmajor
    have hlt := header_length hhead
    have hlen := take_length htake
    have hle := h.progress.1
    refine ⟨c + 1, by omega, fun fuel pending => ?_⟩
    rw [← add_assoc, skip_string (by simp) hhead hmajor htake]
    exact hskip fuel pending
  | more hitem h ihitem ih => exact ihitem.more ih hitem.length_lt h.progress.1
  | pair hkey hvalue h ihkey ihvalue ih =>
    exact ihkey.more (ihvalue.more ih hvalue.length_lt h.progress.1) hkey.length_lt
      (h.progress.1.trans hvalue.length_lt.le)

theorem skip_of_reads (h : Reads .item bs rest) : skip bs = some ((), rest) := by
  obtain ⟨c, hc, hskip⟩ := h.skips
  obtain ⟨k, hk⟩ : ∃ k, 2 * bs.length + 2 = (k + 2) + c := ⟨2 * bs.length - c, by omega⟩
  rw [skip, hk, hskip _ _ _ (by simp)]
  rfl

end Runs
/-! ### Bytes behind what is skipped -/

/-- What one decoder reads, another reads of more bytes. -/
def Extends {α : Type} (d d' : Decoder α) : Prop :=
  ∀ bs a rest more, d bs = some (a, rest) → d' (bs ++ more) = some (a, rest ++ more)

theorem Extends.bind {α β : Type} {d d' : Decoder α} {f f' : α → Decoder β} (h : Extends d d')
    (hf : ∀ a, Extends (f a) (f' a)) : Extends (d >>= f) (d' >>= f') := by
  intro bs b rest more hrun
  rw [bind_run] at hrun ⊢
  split at hrun
  · next a mid hmid =>
    rw [h _ _ _ more hmid]
    exact hf a _ _ _ more hrun
  · cases hrun

theorem Extends.fail {α : Type} (d : Decoder α) : Extends Decoder.fail d := fun _ _ _ _ h => nomatch h

theorem Extends.byte : Extends Decoder.byte Decoder.byte := by
  intro bs b rest more h
  cases bs with
  | nil => cases h
  | cons c tail =>
    cases h
    rfl

theorem Extends.skipItems {fuel fuel' : ℕ} (hle : fuel ≤ fuel') (pending : List (Option ℕ)) :
    Extends (Decoder.skipItems fuel pending) (Decoder.skipItems fuel' pending) := by
  have harg : ∀ info, Extends (argument info) (argument info) := fun info _ _ _ more h => argument_more h more
  have htake : ∀ n, Extends (take n) (take n) := fun n _ _ _ more h => take_more h more
  induction fuel generalizing fuel' pending with
  | zero =>
    cases pending with
    | nil =>
      intro bs a rest more h
      rw [Decoder.skipItems] at h ⊢
      cases h
      rfl
    | cons frame pending => exact .fail _
  | succ fuel ih =>
    obtain ⟨fuel', rfl⟩ : ∃ k, fuel' = k + 1 := ⟨fuel' - 1, by omega⟩
    have ih' := fun pending => ih (show fuel ≤ fuel' by omega) pending
    have hitem : ∀ (frame : Option ℕ) (pending : List (Option ℕ)), frame ≠ some 0 →
        Extends (Decoder.skipItems (fuel + 1) (frame :: pending))
          (Decoder.skipItems (fuel' + 1) (frame :: pending)) := by
      intro frame pending hframe
      rw [Decoder.skipItems, Decoder.skipItems]
      · refine Extends.byte.bind fun b => ?_
        generalize b.toNat / 32 = major
        generalize b.toNat % 32 = info
        dsimp only
        match major with
        | 0 | 1 | 6 | n + 8 => exact (harg _).bind fun n => ih' _
        | 2 | 3 | 4 | 5 | 7 =>
          split_ifs
          all_goals first
            | exact ih' _
            | exact .fail _
            | exact (harg _).bind fun n => ih' _
            | exact (harg _).bind fun n => (htake n).bind fun _ => ih' _
      · exact hframe
      · exact hframe
    match pending with
    | [] => exact fun _ _ _ _ h => by cases h; rfl
    | some 0 :: pending => exact ih' pending
    | none :: pending => exact hitem none pending (by simp)
    | some (n + 1) :: pending => exact hitem (some (n + 1)) pending (by simp)

theorem skip_more {bs rest : Bytes} (h : skip bs = some ((), rest)) (more : Bytes) :
    skip (bs ++ more) = some ((), rest ++ more) := by
  have hle : 2 * bs.length + 2 ≤ 2 * (bs ++ more).length + 2 := by
    rw [List.length_append]
    omega
  exact Extends.skipItems hle _ bs () rest more h

end Cbor
