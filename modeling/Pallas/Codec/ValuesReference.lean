import Pallas.Codec.Values

/-!
# Machine values by the standard

A decoder that meets the laws of `MinicborValues`. It says of every read that fails whether the bytes end too early.
-/

namespace Pallas
open Cbor Cbor.Decoder

namespace MinicborValues
open Minicbor
variable {α β : Type}

/-- An unsigned integer below `2 ^ k`, by the constructor of its type. -/
def unsigned (k : ℕ) (of : ℕ → α) : Cbor.Decoder α := fun bs => match header 0 bs with
  | some (some n, rest) => if n < 2 ^ k then some (of n, rest) else none
  | _ => none

def boolean : Cbor.Decoder Bool
  | 0xf5 :: rest => some (true, rest)
  | 0xf4 :: rest => some (false, rest)
  | _ => none

/-- Items up to their number. -/
def counted (item : Reader String α) : ℕ → Reader String (List α)
  | 0 => pure []
  | n + 1 => do
    let a ← item
    let as ← counted item n
    pure (a :: as)

def byte : Reader String UInt8 := ofDecoder Cbor.Decoder.byte Forward.byte

/-- Items up to the break. -/
def untilBreak (item : Reader String α) : (fuel : ℕ) → Reader String (List α)
  | 0 => Reader.throw "decode error"
  | fuel + 1 => do
    if (← Reader.probe byte) = 0xff then
      let _ ← byte
      pure []
    else
      let a ← item
      let as ← untilBreak item fuel
      pure (a :: as)

theorem forward_unsigned (k : ℕ) (of : ℕ → α) : Forward (unsigned k of) := by
  intro bs a rest h
  unfold unsigned at h
  split at h
  · next n mid hhead =>
    split at h
    · cases h
      exact Forward.header 0 _ _ _ hhead
    · cases h
  · cases h

theorem forward_boolean : Forward boolean := by
  intro bs b rest h
  unfold boolean at h
  split at h
  · cases h
    exact List.suffix_cons _ _
  · cases h
    exact List.suffix_cons _ _
  · cases h

/-- Items behind a head of the major type. -/
def iterate (major : ℕ) (item : Reader String α) : Reader String (List α) := do
  match ← ofDecoder (length major) (Forward.length major) with
  | some n => counted item n.toNat
  | none => ⟨fun bs => (untilBreak item (bs.length + 1)).run bs, fun bs => (untilBreak item (bs.length + 1)).forward bs⟩

def both (x : Reader String α) (y : Reader String β) : Reader String (α × β) := do
  if (← reference.array) = some 2 then entry x y
  else Reader.throw "decode error"

/-- The decoder by the standard, with machine values. -/
def reference : MinicborValues String where
  toMinicborText := MinicborText.reference
  isEndOfInput e := e == endOfInput
  u8 := ofDecoder (unsigned 8 UInt8.ofNat) (forward_unsigned _ _)
  u16 := ofDecoder (unsigned 16 UInt16.ofNat) (forward_unsigned _ _)
  u32 := ofDecoder (unsigned 32 UInt32.ofNat) (forward_unsigned _ _)
  bool := ofDecoder boolean forward_boolean
  arrayIter := iterate 4
  mapIter key value := iterate 5 (entry key value)
  pair := both

section Steps
variable {bs rest : Bytes}

theorem unsigned_eq_some {k : ℕ} {of : ℕ → α} {toNat : α → ℕ} (hlt : ∀ a, toNat a < 2 ^ k)
    (hof : ∀ n a, n < 2 ^ k → (of n = a ↔ n = toNat a)) {a : α} :
    unsigned k of bs = some (a, rest) ↔ header 0 bs = some (some (toNat a), rest) := by
  unfold unsigned
  constructor
  · intro h
    split at h
    · next n mid hhead =>
      split at h
      · next hn =>
        obtain ⟨ha, rfl⟩ := Prod.mk.inj (Option.some.inj h)
        rw [hhead, (hof n a hn).1 ha]
      · cases h
    · cases h
  · intro hhead
    simp only [hhead, if_pos (hlt a), (hof _ a (hlt a)).2 rfl]

theorem unsigned8_eq_some {n : UInt8} :
    unsigned 8 UInt8.ofNat bs = some (n, rest) ↔ header 0 bs = some (some n.toNat, rest) :=
  unsigned_eq_some UInt8.toNat_lt fun n a hn => by rw [← UInt8.toNat_inj, UInt8.toNat_ofNat_of_lt' hn]

theorem unsigned16_eq_some {n : UInt16} :
    unsigned 16 UInt16.ofNat bs = some (n, rest) ↔ header 0 bs = some (some n.toNat, rest) :=
  unsigned_eq_some UInt16.toNat_lt fun n a hn => by rw [← UInt16.toNat_inj, UInt16.toNat_ofNat_of_lt' hn]

theorem unsigned32_eq_some {n : UInt32} :
    unsigned 32 UInt32.ofNat bs = some (n, rest) ↔ header 0 bs = some (some n.toNat, rest) :=
  unsigned_eq_some UInt32.toNat_lt fun n a hn => by rw [← UInt32.toNat_inj, UInt32.toNat_ofNat_of_lt' hn]

theorem boolean_eq_some {b : Bool} : boolean bs = some (b, rest) ↔ bs = Cbor.bool b ++ rest := by
  constructor
  · intro h
    unfold boolean at h
    split at h
    · cases h
      rfl
    · cases h
      rfl
    · cases h
  · rintro rfl
    cases b <;> rfl

theorem counted_eq_ok {item : Reader String α} {n : ℕ} {as : List α} :
    (counted item n).run bs = (.ok as, rest) ↔ Elements item (some n) bs as rest := by
  induction n generalizing bs as with
  | zero =>
    constructor
    · intro h
      cases h
      exact .done
    · intro h
      cases h
      rfl
  | succ n ih =>
    rw [counted, Reader.bind_eq_ok]
    constructor
    · rintro ⟨a, mid, ha, h⟩
      obtain ⟨as', mid', has, h⟩ := Reader.bind_eq_ok.1 h
      cases h
      exact .next ha (ih.1 has)
    · intro h
      cases h with
      | next ha h => exact ⟨_, _, ha, Reader.bind_eq_ok.2 ⟨_, _, ih.2 h, rfl⟩⟩

theorem elements_progress {item : Reader String α} {b : UInt8} {tail : Bytes} {as : List α} {a : α} (hb : b ≠ 0xff)
    (h : Elements item none (b :: tail) as rest) : item.run (b :: tail) ≠ (.ok a, b :: tail) := by
  generalize hlen : (none : Option ℕ) = len at h
  generalize hbs : b :: tail = bs at h
  intro hrun
  induction h with
  | done => cases hlen
  | next => cases hlen
  | stop => exact hb (List.cons.inj hbs).1
  | more _ ha h ih =>
    obtain ⟨-, rfl⟩ := Prod.mk.inj (ha.symm.trans hrun)
    exact ih hlen hbs hrun

theorem run_byte_cons (b : UInt8) (tail : Bytes) : byte.run (b :: tail) = (.ok b, tail) := rfl

theorem untilBreak_sound {item : Reader String α} {fuel : ℕ} {as : List α}
    (h : (untilBreak item fuel).run bs = (.ok as, rest)) : Elements item none bs as rest := by
  induction fuel generalizing bs as with
  | zero => cases h
  | succ fuel ih =>
    rw [untilBreak] at h
    obtain ⟨b, mid, hb, h⟩ := Reader.bind_eq_ok.1 h
    cases bs with
    | nil => cases hb
    | cons c tail =>
      obtain ⟨hc, rfl⟩ := Prod.mk.inj hb
      obtain rfl : c = b := Except.ok.inj hc
      split at h
      · next hbreak =>
        subst hbreak
        cases h
        exact .stop
      · next hbreak =>
        obtain ⟨a, mid, ha, h⟩ := Reader.bind_eq_ok.1 h
        obtain ⟨as', mid', has, h⟩ := Reader.bind_eq_ok.1 h
        cases h
        exact .more hbreak ha (ih has)

theorem untilBreak_complete {item : Reader String α} {as : List α} (h : Elements item none bs as rest) {fuel : ℕ}
    (hfuel : bs.length < fuel) : (untilBreak item fuel).run bs = (.ok as, rest) := by
  induction fuel generalizing bs as with
  | zero => omega
  | succ fuel ih =>
    rw [untilBreak, Reader.run_bind]
    cases h with
    | stop => rfl
    | more hb ha h' =>
      rename_i b tail mid a as'
      have hmid : mid.length < (b :: tail).length := by
        have hsuffix : mid <:+ b :: tail := by
          have := item.forward (b :: tail)
          rwa [ha] at this
        refine lt_of_le_of_ne hsuffix.length_le fun hlen => ?_
        obtain rfl := hsuffix.eq_of_length hlen
        exact elements_progress hb h' ha
      rw [Reader.run_probe, run_byte_cons, Reader.next_ok, if_neg hb]
      exact Reader.bind_eq_ok.2 ⟨a, mid, ha, Reader.bind_eq_ok.2 ⟨as', rest, ih h' (by omega), rfl⟩⟩

theorem iterate_eq_ok {major : ℕ} {item : Reader String α} {as : List α} :
    (iterate major item).run bs = (.ok as, rest) ↔
    ∃ len mid, header major bs = some (len, mid) ∧ Elements item len mid as rest := by
  have hlength : ∀ n mid, (ofDecoder (length major) (Forward.length major)).run bs = (.ok n, mid) ↔
      header major bs = some (n.map UInt64.toNat, mid) := fun n mid =>
    (run_ofDecoder _ (Forward.length major)).trans length_eq_some
  rw [iterate, Reader.bind_eq_ok]
  constructor
  · rintro ⟨n, mid, hn, h⟩
    refine ⟨_, mid, (hlength n mid).1 hn, ?_⟩
    cases n with
    | some n => exact counted_eq_ok.1 h
    | none =>
      have hrun : (untilBreak item (mid.length + 1)).run mid = (.ok as, rest) := h
      exact untilBreak_sound hrun
  · rintro ⟨len, mid, hhead, h⟩
    cases len with
    | some n =>
      have hn : n < 2 ^ 64 := header_lt hhead
      refine ⟨some (UInt64.ofNat n), mid, (hlength _ _).2 ?_, counted_eq_ok.2 ?_⟩
      · rw [Option.map_some, UInt64.toNat_ofNat_of_lt' hn, hhead]
      · rwa [UInt64.toNat_ofNat_of_lt' hn]
    | none => exact ⟨none, mid, (hlength _ _).2 hhead, untilBreak_complete h (Nat.lt_succ_self _)⟩

theorem both_eq_ok {x : Reader String α} {y : Reader String β} {p : α × β} : (both x y).run bs = (.ok p, rest) ↔
    ∃ mid, header 4 bs = some (some 2, mid) ∧ (entry x y).run mid = (.ok p, rest) := by
  have harray : ∀ mid, reference.array.run bs = (.ok (some 2), mid) ↔ header 4 bs = some (some 2, mid) :=
    MinicborText.reference_lawful.array bs (some 2)
  rw [both, Reader.bind_eq_ok]
  constructor
  · rintro ⟨n, mid, hn, h⟩
    split at h
    · next h2 =>
      subst h2
      exact ⟨mid, (harray mid).1 hn, h⟩
    · cases h
  · rintro ⟨mid, hhead, hp⟩
    exact ⟨some 2, mid, (harray mid).2 hhead, by rwa [if_pos rfl]⟩

theorem typeOf_unsigned {n : ℕ} (h : header 0 bs = some (some n, rest)) : ∃ t, typeOf bs = .ok t ∧ t.isUnsigned := by
  obtain ⟨b, wide, info, hinfo, htype⟩ := typeOf_definite h
  refine ⟨_, htype, ?_⟩
  rw [typeOfHead, intType]
  split_ifs
  · rfl
  · rfl
  · rfl
  · rfl
  · omega

theorem skipItem_of_reads (h : Reads .item bs rest) : skipItem bs = some ((), rest) := by
  rw [skipItem, if_neg, skip_of_reads h]
  intro hbreak
  obtain ⟨tail, rfl⟩ := List.head?_eq_some_iff.1 hbreak
  exact h.not_break

theorem skipItem_more (h : skipItem bs = some ((), rest)) (more : Bytes) :
    skipItem (bs ++ more) = some ((), rest ++ more) := by
  unfold skipItem at h ⊢
  split at h
  · next hbreak =>
    obtain ⟨tail, rfl⟩ := List.head?_eq_some_iff.1 hbreak
    cases h
    rfl
  · next hbreak =>
    rw [if_neg, skip_more h more]
    cases bs with
    | nil => cases h
    | cons b tail => exact hbreak

end Steps

/-! ### Where the bytes end -/

section Ends
variable {w more rest : Bytes}

/-- A head whose front is there is there in full, or cut off. -/
theorem header_or_truncated {major : ℕ} {r : Option ℕ} (h : header major (w ++ more) = some (r, rest)) :
    (∃ rest', header major w = some (r, rest') ∧ rest = rest' ++ more) ∨ header major w = none ∧
      truncated w = true := by
  cases w with
  | nil => exact .inr ⟨rfl, rfl⟩
  | cons b tail =>
    rcases hhead : header major (b :: tail) with _ | ⟨r', rest'⟩
    · refine .inr ⟨rfl, ?_⟩
      rw [List.cons_append, header_cons] at h
      rw [header_cons] at hhead
      split_ifs at h hhead with hmajor hindef
      rcases harg : argument (b.toNat % 32) tail with _ | ⟨n, mid⟩
      · rw [truncated, harg]
        have hinfo : ¬ b.toNat % 32 < 24 := by
          intro hlt
          rw [argument, if_pos hlt] at harg
          cases harg
        have hinfo' : b.toNat % 32 ≤ 27 := by
          by_contra hgt
          rw [argument, if_neg (by omega), if_neg (by omega), if_neg (by omega), if_neg (by omega), if_neg (by omega)] at h
          cases h
        simp only [decide_eq_true_eq]
        omega
      · rw [harg] at hhead
        cases hhead
    · obtain ⟨rfl, rfl⟩ := Prod.mk.inj (Option.some.inj ((header_more hhead more).symm.trans h))
      exact .inl ⟨rest', rfl, rfl⟩

theorem truncated_of_take {major n : ℕ} {mid : Bytes} (hmajor : major = 2 ∨ major = 3)
    (hhead : header major w = some (some n, mid)) (hle : ¬ n ≤ mid.length) : truncated w = true := by
  obtain ⟨b, tail, rfl, -⟩ := header_suffix hhead
  have hb := header_major hhead
  have hinfo := header_definite hhead
  rw [header_cons, if_neg (by omega), if_neg (by omega)] at hhead
  obtain ⟨⟨n', mid'⟩, harg, heq⟩ := Option.map_eq_some_iff.1 hhead
  obtain ⟨rfl, rfl⟩ : n' = n ∧ mid' = mid := by simpa using heq
  rw [truncated, harg]
  simp only [decide_eq_true_eq]
  omega

theorem string_or_truncated {major : ℕ} {d : Cbor.Decoder α} {f : α → Bytes} (hmajor : major = 2 ∨ major = 3)
    (hd : ∀ {bs rest a}, d bs = some (a, rest) ↔
      ∃ n mid, header major bs = some (some n, mid) ∧ take n mid = some (f a, rest))
    {a : α} (h : d (w ++ more) = some (a, rest)) :
    (∃ rest', d w = some (a, rest')) ∨ d w = none ∧ truncated w = true := by
  obtain ⟨n, mid, hhead, htake⟩ := hd.1 h
  rcases header_or_truncated hhead with ⟨mid', hhead', rfl⟩ | ⟨hnone, hcut⟩
  · by_cases hle : n ≤ mid'.length
    · have htake' : take n mid' = some (mid'.take n, mid'.drop n) := by rw [take, if_pos hle]
      obtain ⟨hs, -⟩ := Prod.mk.inj (Option.some.inj ((take_more htake' more).symm.trans htake))
      exact .inl ⟨mid'.drop n, hd.2 ⟨n, mid', hhead', by rw [htake', hs]⟩⟩
    · refine .inr ⟨?_, truncated_of_take hmajor hhead' hle⟩
      refine Option.eq_none_iff_forall_ne_some.2 ?_
      rintro ⟨a', rest'⟩ hw
      obtain ⟨n', mid'', hhead'', htake''⟩ := hd.1 hw
      obtain ⟨heq, rfl⟩ := Prod.mk.inj (Option.some.inj (hhead'.symm.trans hhead''))
      cases heq
      rw [take, if_neg hle] at htake''
      cases htake''
  · refine .inr ⟨Option.eq_none_iff_forall_ne_some.2 ?_, hcut⟩
    rintro ⟨a', rest'⟩ hw
    obtain ⟨n', mid', hhead', -⟩ := hd.1 hw
    rw [hnone] at hhead'
    cases hhead'

theorem waits_ofDecoder {d : Cbor.Decoder α} (hd : Forward d) (h : ∀ {w more a rest}, d (w ++ more) = some (a, rest) →
    (∃ rest', d w = some (a, rest')) ∨ d w = none ∧ truncated w = true) :
    (ofDecoder d hd).Waits reference.isEndOfInput := by
  intro w more a rest hrun
  rcases h ((run_ofDecoder d hd).1 hrun) with ⟨rest', hw⟩ | ⟨hnone, hcut⟩
  · exact .inl ⟨rest', (run_ofDecoder d hd).2 hw⟩
  · refine .inr ⟨endOfInput, w, ?_, beq_self_eq_true _⟩
    rw [run_ofDecoder_none d hd hnone]
    show (Except.error (if truncated w then endOfInput else "decode error"), w) = _
    rw [if_pos hcut]

theorem waits_of_header {major : ℕ} {d : Cbor.Decoder α} (hd : Forward d) {f : α → Option ℕ}
    (h : ∀ {bs rest a}, d bs = some (a, rest) ↔ header major bs = some (f a, rest)) :
    (ofDecoder d hd).Waits reference.isEndOfInput := by
  refine waits_ofDecoder hd fun {w more a rest} hrun => ?_
  rcases header_or_truncated (h.1 hrun) with ⟨rest', hhead, -⟩ | ⟨hnone, hcut⟩
  · exact .inl ⟨rest', h.2 hhead⟩
  · refine .inr ⟨Option.eq_none_iff_forall_ne_some.2 ?_, hcut⟩
    rintro ⟨a', rest'⟩ hw
    rw [h.1 hw] at hnone
    cases hnone

theorem boolean_or_truncated {b : Bool} (h : boolean (w ++ more) = some (b, rest)) :
    (∃ rest', boolean w = some (b, rest')) ∨ boolean w = none ∧ truncated w = true := by
  cases w with
  | nil => exact .inr ⟨rfl, rfl⟩
  | cons c tail =>
    obtain ⟨hc, -⟩ : c :: tail ++ more = Cbor.bool b ++ rest ∧ True := ⟨boolean_eq_some.1 h, trivial⟩
    refine .inl ⟨tail, boolean_eq_some.2 ?_⟩
    cases b <;> cases hc <;> rfl

theorem streams_counted {item : Reader String α} (h : item.Streams reference.isEndOfInput) (n : ℕ) :
    (counted item n).Streams reference.isEndOfInput := by
  induction n with
  | zero => exact .pure []
  | succ n ih => exact h.bind fun a => ih.map _

theorem waits_untilBreak {item : Reader String α} (h : item.Streams reference.isEndOfInput) {as : List α}
    (helems : Elements item none (w ++ more) as rest) {fuel : ℕ} (hfuel : w.length < fuel) :
    (∃ rest', (untilBreak item fuel).run w = (.ok as, rest')) ∨
      ∃ e rest', (untilBreak item fuel).run w = (.error e, rest') ∧ reference.isEndOfInput e = true := by
  induction fuel generalizing w as with
  | zero => omega
  | succ fuel ih =>
    rw [untilBreak, Reader.run_bind]
    cases w with
    | nil => exact .inr ⟨endOfInput, [], rfl, beq_self_eq_true _⟩
    | cons b tail =>
      rw [Reader.run_probe, run_byte_cons, Reader.next_ok]
      rw [List.cons_append] at helems
      cases helems with
      | stop => exact .inl ⟨tail, rfl⟩
      | more hb ha hrest =>
        rename_i mid a as'
        rw [if_neg hb]
        rcases h.waits (b :: tail) more a mid ha with ⟨mid', ha'⟩ | ⟨e, mid', ha', he⟩
        · have hlong := h.steady _ a mid' more ha'
          obtain ⟨-, rfl⟩ := Prod.mk.inj (ha.symm.trans hlong)
          have hmid : mid'.length < (b :: tail).length := by
            have hsuffix : mid' <:+ b :: tail := by
              have := item.forward (b :: tail)
              rwa [ha'] at this
            refine lt_of_le_of_ne hsuffix.length_le fun hlen => ?_
            obtain rfl := hsuffix.eq_of_length hlen
            exact elements_progress hb hrest ha
          rcases ih hrest (by omega) with ⟨rest', hrun⟩ | ⟨e, rest', hrun, he⟩
          · exact .inl ⟨rest', Reader.bind_eq_ok.2 ⟨a, mid', ha', Reader.bind_eq_ok.2 ⟨as', rest', hrun, rfl⟩⟩⟩
          · refine .inr ⟨e, rest', ?_, he⟩
            rw [Reader.run_bind, ha', Reader.next_ok, Reader.run_bind, hrun, Reader.next_error]
        · exact .inr ⟨e, mid', by rw [Reader.run_bind, ha', Reader.next_error], he⟩

theorem waits_iterate {major : ℕ} {item : Reader String α} (h : item.Streams reference.isEndOfInput) :
    (iterate major item).Waits reference.isEndOfInput := by
  intro w more as rest hrun
  obtain ⟨n, mid, hn, hitems⟩ := Reader.bind_eq_ok.1 hrun
  have hlength : (ofDecoder (length major) (Forward.length major)).Waits reference.isEndOfInput :=
    waits_of_header (Forward.length major) length_eq_some
  rcases hlength w more n mid hn with ⟨mid', hn'⟩ | ⟨e, mid', hn', he⟩
  · have hhead := header_more (length_eq_some.1 ((run_ofDecoder _ _).1 hn')) more
    obtain ⟨-, rfl⟩ := Prod.mk.inj (Option.some.inj (hhead.symm.trans (length_eq_some.1 ((run_ofDecoder _ _).1 hn))))
    have hnext : ∀ {r : Except String (List α) × Bytes}, (iterate major item).run w = r ↔ (match n with
        | some n => counted item n.toNat
        | none => (⟨fun bs => (untilBreak item (bs.length + 1)).run bs,
          fun bs => (untilBreak item (bs.length + 1)).forward bs⟩ : Reader String (List α))).run mid' = r := by
      intro r
      rw [iterate, Reader.run_bind, hn', Reader.next_ok]
    simp only [hnext]
    cases n with
    | some n => exact (streams_counted h n.toNat).waits mid' more as rest hitems
    | none =>
      have hrun : (untilBreak item ((mid' ++ more).length + 1)).run (mid' ++ more) = (.ok as, rest) := hitems
      exact waits_untilBreak h (untilBreak_sound hrun) (Nat.lt_succ_self _)
  · exact .inr ⟨e, mid', by rw [iterate, Reader.run_bind, hn', Reader.next_error], he⟩

theorem waits_both {x : Reader String α} {y : Reader String β} (hx : x.Streams reference.isEndOfInput)
    (hy : y.Streams reference.isEndOfInput) : (both x y).Waits reference.isEndOfInput := by
  have harray : reference.array.Streams reference.isEndOfInput := by
    refine ⟨fun bs n rest more h => ?_, waits_of_header (Forward.length 4) length_eq_some⟩
    exact (MinicborText.reference_lawful.array _ _ _).2
      (header_more ((MinicborText.reference_lawful.array _ _ _).1 h) more)
  refine (harray.bind fun n => ?_).waits
  split
  · exact hx.bind fun a => hy.map _
  · exact .throw _

theorem waits_skip : reference.skip.Waits reference.isEndOfInput := by
  intro w more _ rest _
  rcases hrun : reference.skip.run w with ⟨_ | _, rest'⟩
  · obtain ⟨_, rfl⟩ := Reader.mapError_eq_error hrun
    exact .inr ⟨_, rest', rfl, beq_self_eq_true _⟩
  · exact .inl ⟨rest', rfl⟩

end Ends

theorem reference_lawful : reference.Lawful where
  toText := MinicborText.reference_lawful
  u8 _ _ _ := (run_ofDecoder _ (forward_unsigned 8 UInt8.ofNat)).trans unsigned8_eq_some
  u16 _ _ _ := (run_ofDecoder _ (forward_unsigned 16 UInt16.ofNat)).trans unsigned16_eq_some
  u32 _ _ _ := (run_ofDecoder _ (forward_unsigned 32 UInt32.ofNat)).trans unsigned32_eq_some
  bool _ _ _ := (run_ofDecoder _ forward_boolean).trans boolean_eq_some
  arrayIter _ _ _ _ := iterate_eq_ok
  mapIter _ _ _ _ _ := iterate_eq_ok
  pair _ _ _ _ _ := both_eq_ok
  datatype_unsigned _ _ _ := typeOf_unsigned
  skip_item _ _ h := Minicbor.run_skip.2 (skipItem_of_reads h)
  skip_steady _ _ _ more h := Minicbor.run_skip.2 (skipItem_more (Minicbor.run_skip.1 h) more)
  array_waits := waits_of_header (Forward.length 4) length_eq_some
  map_waits := waits_of_header (Forward.length 5) length_eq_some
  tag_waits := waits_of_header (Forward.definite 6) definite_eq_some
  u8_waits := waits_of_header (forward_unsigned 8 UInt8.ofNat) unsigned8_eq_some
  u16_waits := waits_of_header (forward_unsigned 16 UInt16.ofNat) unsigned16_eq_some
  u32_waits := waits_of_header (forward_unsigned 32 UInt32.ofNat) unsigned32_eq_some
  u64_waits := waits_of_header (Forward.definite 0) definite_eq_some
  bool_waits := waits_ofDecoder forward_boolean boolean_or_truncated
  bytes_waits := waits_ofDecoder Forward.definiteBytes (string_or_truncated (.inl rfl) definiteBytes_eq_some)
  str_waits := waits_ofDecoder MinicborText.forward_definiteText
    (string_or_truncated (.inr rfl) MinicborText.definiteText_eq_some)
  arrayIter_waits _ h := waits_iterate h
  mapIter_waits _ _ hk hv := waits_iterate (hk.bind fun _ => hv.map _)
  pair_waits _ _ hx hy := waits_both hx hy
  datatype_end := ⟨endOfInput, rfl, beq_self_eq_true _⟩
  skip_waits := waits_skip

end MinicborValues
end Pallas
