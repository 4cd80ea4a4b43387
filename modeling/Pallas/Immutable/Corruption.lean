import Pallas.Immutable.Traces

/-!
# Chunks with corrupt indexes

What `chunk::read_blocks` does with any three files. A chunk is `Intact` where the iteration is `Safe`: no offset lies before
the position that has been reached, the first entry is there, and no block ends beyond the chunk file. Entries that are
missing further on are reported.
-/

namespace Pallas.Immutable
open Iterators

/-- Iterating the blocks of a chunk does not panic (in a debug build: no subtraction of offsets goes below zero), ends with
the first error, and has an error where reading the indexes has one. -/
def Safe (dir : ChunkFiles) : Prop :=
  ∀ pr, Chunk.readBlocks pr dir ≠ .panic ∧ ∀ r, Chunk.readBlocks pr dir = .ok r →
    ∃ items : List (Except Chunk.Error Bytes), Gives (Chunk.Reader.nextBlock pr) r (.ofList items) ∧
      (∀ pre e post, items = pre ++ .error e :: post → post = []) ∧
      ∀ index entries, Secondary.readEntries pr dir = .ok index →
        Gives (Secondary.Reader.next pr) index (.ofList entries) → (∃ e, .error e ∈ entries) → ∃ e, .error e ∈ items

/-! ### The condition -/

/-- The slots up to the first occupied one whose entry is not in the secondary index. -/
def reached (secondary : Bytes) : List (UInt32 × UInt32) → List (UInt32 × UInt32)
  | [] => []
  | (last, next) :: rest =>
    if next > last ∧ ¬ Secondary.Readable secondary last then [(last, next)] else (last, next) :: reached secondary rest

/-- The offsets of the occupied slots. -/
def occupied (slots : List (UInt32 × UInt32)) : List UInt32 :=
  slots.filterMap fun (last, next) => if next > last then some last else none

/-- The slots a chunk is read for. -/
def File.slots (primary secondary : File) : List (UInt32 × UInt32) :=
  reached secondary.contents (Primary.spans (Primary.offsets primary.contents.tail))

/-- Where the blocks after the first start, by the entries that are there. -/
def File.starts (primary secondary : File) : List ℕ :=
  ((occupied (primary.slots secondary)).filter fun offset => Secondary.Readable secondary.contents offset).tail.map
    fun offset => (Secondary.entryAt secondary.contents offset).blockOffset.toNat

/-- The indexes lead forwards only, and stay in the chunk. -/
structure Intact (primary secondary chunk : File) : Prop where
  slots : (primary.slots secondary).length ≤ 2 ^ 32
  spaced : (occupied (primary.slots secondary)).IsChain fun offset next =>
    offset.toNat + Secondary.layoutSize ≤ next.toNat
  first : ∀ offset ∈ (occupied (primary.slots secondary)).head?, Secondary.Readable secondary.contents offset
  sorted : (primary.starts secondary).IsChain (· ≤ ·)
  within : ∀ start ∈ primary.starts secondary, start ≤ chunk.contents.length

section cons
variable {secondary : Bytes} {last next : UInt32} {rest : List (UInt32 × UInt32)}

theorem reached_missing (hlt : next > last) (h : ¬ Secondary.Readable secondary last) :
    reached secondary ((last, next) :: rest) = [(last, next)] := if_pos ⟨hlt, h⟩

theorem reached_cons (h : next > last → Secondary.Readable secondary last) :
    reached secondary ((last, next) :: rest) = (last, next) :: reached secondary rest :=
  if_neg fun hmissing => hmissing.2 (h hmissing.1)

theorem occupied_pos (hlt : next > last) : occupied ((last, next) :: rest) = last :: occupied rest := by
  simp [occupied, hlt]

theorem occupied_neg (hlt : ¬ next > last) : occupied ((last, next) :: rest) = occupied rest := by
  simp [occupied, hlt]

end cons

/-! ### Reading the indexes -/

/-- The slots that have been counted. -/
def counted : Option UInt32 → ℕ
  | none => 0
  | some slot => slot.toNat + 1

theorem nextSlot_some {pr : Profile} {x : UInt32} :
    Primary.nextSlot pr (some x) = MachineInt.exact pr (x.toNat + 1 : ℤ) := by
  have hone : MachineInt.toInt (1 : UInt32) = 1 := rfl
  have hx : MachineInt.toInt x = x.toNat := rfl
  rw [Primary.nextSlot, MachineInt.add, hone, hx]

theorem nextSlot_ok {pr : Profile} {slot : Option UInt32} (h : pr = .release ∨ counted slot < 2 ^ 32) :
    ∃ s, Primary.nextSlot pr slot = .ok s ∧ (pr = .release ∨ counted (some s) = counted slot + 1) := by
  cases slot with
  | none => exact ⟨0, rfl, .inr rfl⟩
  | some x =>
    rcases h with rfl | h
    · refine ⟨MachineInt.wrap (x.toNat + 1 : ℤ), ?_, .inl rfl⟩
      rw [nextSlot_some, MachineInt.exact_release]
    have hfits : MachineInt.Fits UInt32 (x.toNat + 1 : ℤ) := by
      constructor
      · show (0 : ℤ) ≤ x.toNat + 1
        omega
      · show (x.toNat + 1 : ℤ) ≤ 2 ^ 32 - 1
        simp only [counted] at h
        omega
    refine ⟨MachineInt.wrap (x.toNat + 1 : ℤ), ?_, .inr ?_⟩
    · rw [nextSlot_some, MachineInt.exact_of_fits hfits]
    · have hwrap : ((MachineInt.wrap (x.toNat + 1 : ℤ) : UInt32).toNat : ℤ) = x.toNat + 1 :=
        MachineInt.toInt_wrap_of_fits hfits
      simp only [counted]
      omega

theorem nextSlot_debug {slot : Option UInt32} (h : Primary.nextSlot .debug slot ≠ .panic) : counted slot < 2 ^ 32 := by
  cases slot with
  | none => exact Nat.two_pow_pos 32
  | some x =>
    by_contra hfull
    rw [nextSlot_some] at h
    refine h (MachineInt.exact_eq_panic.2 ⟨rfl, ?_⟩)
    rintro ⟨-, hhi⟩
    have hhi' : (x.toNat + 1 : ℤ) ≤ 2 ^ 32 - 1 := hhi
    simp only [counted] at hfull
    omega

/-- The trace of `next_occupied` after the slot `slot`. -/
abbrev slotTrace (pr : Profile) (slot : Option UInt32) (slots : List (UInt32 × UInt32)) :
    Trace (Except Primary.Error Primary.Entry) :=
  ((Primary.entries pr slot slots).map .ok).filterMap Primary.Reader.found

section slotTrace
variable {pr : Profile} {slot : Option UInt32} {s : UInt32} {last next : UInt32} {rest : List (UInt32 × UInt32)}

theorem slotTrace_panic (h : Primary.nextSlot pr slot = .panic) :
    slotTrace pr slot ((last, next) :: rest) = .panic := by
  simp only [slotTrace, Primary.entries, h, Trace.map, Trace.filterMap]

theorem slotTrace_pos (h : Primary.nextSlot pr slot = .ok s) (hlt : next > last) :
    slotTrace pr slot ((last, next) :: rest) = .item (.ok (.occupied s last)) (slotTrace pr (some s) rest) := by
  simp only [slotTrace, Primary.entries, h, if_pos hlt, Trace.map, Trace.filterMap, Primary.Reader.found]

theorem slotTrace_neg (h : Primary.nextSlot pr slot = .ok s) (hlt : ¬ next > last) :
    slotTrace pr slot ((last, next) :: rest) = slotTrace pr (some s) rest := by
  simp only [slotTrace, Primary.entries, h, if_neg hlt, Trace.map, Trace.filterMap, Primary.Reader.found]

end slotTrace

/-- What reading the entries at these offsets gives. -/
def readings (contents : Bytes) (offsets : List UInt32) : List (Except Secondary.Error Secondary.Entry) :=
  offsets.map fun offset =>
    if Secondary.Readable contents offset then .ok (Secondary.entryAt contents offset) else .error .inconsistentState

/-- From the position `start`, the slots lead forwards. -/
structure Forward (contents : Bytes) (start : ℕ) (slots : List (UInt32 × UInt32)) : Prop where
  begins : ∀ offset ∈ (occupied (reached contents slots)).head?, start ≤ offset.toNat
  spaced : (occupied (reached contents slots)).IsChain
    fun offset next => offset.toNat + Secondary.layoutSize ≤ next.toNat

theorem count_rest {pr : Profile} {n m k : ℕ} (hcount : pr = .release ∨ n + (k + 1) ≤ 2 ^ 32)
    (hcounted : pr = .release ∨ m = n + 1) : pr = .release ∨ m + k ≤ 2 ^ 32 := by
  rcases hcount with hpr | hcount
  · exact .inl hpr
  · exact hcounted.imp_right fun h => by omega

section forward
variable {pr : Profile} {contents : Bytes} {slot : Option UInt32} {start : ℕ} {slots : List (UInt32 × UInt32)}

theorem Forward.reads_eq (h : Forward contents start slots)
    (hcount : pr = .release ∨ counted slot + (reached contents slots).length ≤ 2 ^ 32) :
    Secondary.reads pr contents start (slotTrace pr slot slots) =
      .ofList (readings contents (occupied (reached contents slots))) := by
  induction slots generalizing slot start with
  | nil => rfl
  | cons span rest ih =>
    obtain ⟨last, next⟩ := span
    obtain ⟨hstart, hspaced⟩ := h
    by_cases hlt : next > last
    · by_cases hread : Secondary.Readable contents last
      · rw [reached_cons fun _ => hread, List.length_cons] at hcount
        rw [reached_cons fun _ => hread, occupied_pos hlt] at hstart hspaced ⊢
        obtain ⟨s, hs, hcounted⟩ := @nextSlot_ok pr slot (hcount.imp_right fun h => by omega)
        obtain ⟨hnext, hspaced⟩ := List.isChain_cons.1 hspaced
        have hrest := @ih (some s) (last.toNat + Secondary.layoutSize) ⟨hnext, hspaced⟩ (count_rest hcount hcounted)
        have hle : start ≤ last.toNat := hstart last rfl
        rw [slotTrace_pos hs hlt, Secondary.reads, if_neg fun hunder => absurd hunder.2 (by omega), if_pos hread, hrest]
        -- the slots after this one have a trace that does not begin with a panic
        generalize slotTrace pr (some s) rest = tr at hrest
        have hlook : ∀ t : Trace (Except Secondary.Error Secondary.Entry), tr.lookahead t = t := by
          cases tr with
          | done => exact fun _ => rfl
          | item _ _ => exact fun _ => rfl
          | panic =>
            have hends := Trace.ends_ofList (readings contents (occupied (reached contents rest)))
            rw [← hrest] at hends
            exact hends.elim
        have hcons : readings contents (last :: occupied (reached contents rest)) =
            .ok (Secondary.entryAt contents last) :: readings contents (occupied (reached contents rest)) := by
          rw [readings, List.map_cons, if_pos hread, readings]
        rw [hlook, hcons, Trace.ofList]
      · rw [reached_missing hlt hread, List.length_singleton] at hcount
        rw [reached_missing hlt hread, occupied_pos hlt] at hstart ⊢
        obtain ⟨s, hs, -⟩ := @nextSlot_ok pr slot (hcount.imp_right fun h => by omega)
        have hle : start ≤ last.toNat := hstart last rfl
        rw [slotTrace_pos hs hlt, Secondary.reads, if_neg
          fun hunder => absurd hunder.2 (by omega), if_neg hread, readings,
          List.map_cons, if_neg hread]
        rfl
    · have hreached : reached contents ((last, next) :: rest) = (last, next) :: reached contents rest :=
        reached_cons fun h => absurd h hlt
      rw [hreached, List.length_cons] at hcount
      rw [hreached, occupied_neg hlt] at hstart hspaced ⊢
      obtain ⟨s, hs, hcounted⟩ := @nextSlot_ok pr slot (hcount.imp_right fun h => by omega)
      rw [slotTrace_neg hs hlt]
      exact ih ⟨hstart, hspaced⟩ (count_rest hcount hcounted)

theorem forward_of_ends (h : (Secondary.reads .debug contents start (slotTrace .debug slot slots)).Ends)
    (hcounted : counted slot ≤ 2 ^ 32) :
    counted slot + (reached contents slots).length ≤ 2 ^ 32 ∧ Forward contents start slots := by
  induction slots generalizing slot start with
  | nil => exact ⟨hcounted, nofun, .nil⟩
  | cons span rest ih =>
    obtain ⟨last, next⟩ := span
    have hslot : counted slot < 2 ^ 32 := by
      refine nextSlot_debug fun hpanic => ?_
      rw [slotTrace_panic hpanic] at h
      exact h
    obtain ⟨s, hs, hcounted'⟩ := @nextSlot_ok .debug slot (.inr hslot)
    replace hcounted' : counted (some s) = counted slot + 1 := hcounted'.resolve_left nofun
    by_cases hlt : next > last
    · rw [slotTrace_pos hs hlt, Secondary.reads] at h
      split_ifs at h with hunder hread
      · exact h.elim
      · have hle : start ≤ last.toNat := by
          by_contra hlt'
          exact hunder ⟨rfl, by omega⟩
        have hrest : (Secondary.reads .debug contents (last.toNat + Secondary.layoutSize)
            (slotTrace .debug (some s) rest)).Ends := by
          generalize slotTrace .debug (some s) rest = tr at h
          cases tr with
          | panic => exact h.elim
          | done => exact h
          | item _ _ => exact h
        obtain ⟨hslots, hnext, hspaced⟩ := ih hrest (by omega)
        refine ⟨?_, ?_, ?_⟩
        · rw [reached_cons fun _ => hread, List.length_cons]
          omega
        · rw [reached_cons fun _ => hread, occupied_pos hlt]
          rintro offset ⟨⟩
          exact hle
        · rw [reached_cons fun _ => hread, occupied_pos hlt]
          exact List.isChain_cons.2 ⟨hnext, hspaced⟩
      · have hle : start ≤ last.toNat := by
          by_contra hlt'
          exact hunder ⟨rfl, by omega⟩
        refine ⟨?_, ?_, ?_⟩
        · rw [reached_missing hlt hread, List.length_singleton]
          omega
        · rw [reached_missing hlt hread, occupied_pos hlt]
          rintro offset ⟨⟩
          exact hle
        · rw [reached_missing hlt hread, occupied_pos hlt]
          exact .singleton _
    · have hreached : reached contents ((last, next) :: rest) = (last, next) :: reached contents rest :=
        reached_cons fun h => absurd h hlt
      rw [slotTrace_neg hs hlt] at h
      obtain ⟨hslots, hstart, hspaced⟩ := ih h (by omega)
      refine ⟨?_, ?_, ?_⟩
      · rw [hreached, List.length_cons]
        omega
      · rwa [hreached, occupied_neg hlt]
      · rwa [hreached, occupied_neg hlt]

end forward

theorem stopsAtError_reads {pr : Profile} {contents : Bytes} {start : ℕ}
    {tr : Trace (Except Primary.Error Primary.Entry)} :
    (Secondary.reads pr contents start tr).StopsAtError := by
  induction tr generalizing start with
  | done => trivial
  | panic => trivial
  | item x rest ih =>
    match x with
    | .error e => exact rfl
    | .ok (.empty slot) => trivial
    | .ok (.occupied slot offset) =>
      rw [Secondary.reads]
      split_ifs
      · trivial
      · cases rest with
        | panic => trivial
        | done => trivial
        | item _ _ => exact @ih (offset.toNat + Secondary.layoutSize)
      · exact rfl

theorem stopsAtError_index {pr : Profile} {primary secondary : Bytes} :
    (Secondary.index pr primary secondary).StopsAtError := stopsAtError_reads

/-! ### Cutting the chunk -/

/-- Where the blocks of these entries start. -/
def startsOf (entries : List (Except Secondary.Error Secondary.Entry)) : List ℕ :=
  entries.filterMap fun entry => match entry with
    | .ok entry => some entry.blockOffset.toNat
    | .error _ => none

/-- From the position `start`, the offsets cut a file of this length. -/
structure Cuts (length start : ℕ) (offsets : List ℕ) : Prop where
  begins : ∀ offset ∈ offsets.head?, start ≤ offset
  sorted : offsets.IsChain (· ≤ ·)
  within : ∀ offset ∈ offsets, offset ≤ length

theorem cuts_nil {length start : ℕ} : Cuts length start [] := ⟨nofun, .nil, nofun⟩

theorem cuts_cons {length start offset : ℕ} {offsets : List ℕ} :
    Cuts length start (offset :: offsets) ↔ start ≤ offset ∧ offset ≤ length ∧ Cuts length offset offsets := by
  constructor
  · rintro ⟨hbegins, hsorted, hwithin⟩
    obtain ⟨hnext, hsorted⟩ := List.isChain_cons.1 hsorted
    exact ⟨hbegins offset rfl, hwithin offset (by simp), hnext, hsorted, fun o ho => hwithin o (by simp [ho])⟩
  · rintro ⟨hle, hlen, hnext, hsorted, hwithin⟩
    refine ⟨?_, List.isChain_cons.2 ⟨hnext, hsorted⟩, ?_⟩
    · rintro o ⟨⟩
      exact hle
    · intro o ho
      rcases List.mem_cons.1 ho with rfl | ho
      · exact hlen
      · exact hwithin o ho

namespace Chunk
variable {contents : Bytes} {start : ℕ} {tr : Trace (Except Secondary.Error Secondary.Entry)}

theorem blocks_ne_done : blocks contents start tr ≠ .done := by
  intro h
  cases tr with
  | done => cases h
  | panic => cases h
  | item x rest =>
    cases x with
    | error e => cases h
    | ok next =>
      rw [blocks] at h
      split_ifs at h
      · cases rest <;> cases h
      · cases rest <;> cases h

/-- With an entry in hand, the blocks come without a panic and up to the first error exactly where the offsets of the
entries to come cut the file. -/
theorem blocks_iff (hstops : tr.StopsAtError) (hlength : contents.length < 2 ^ 63) :
    (blocks contents start tr).Ends ∧ (blocks contents start tr).StopsAtError ↔
      tr.Ends ∧ Cuts contents.length start (startsOf tr.items) := by
  induction tr generalizing start with
  | done => exact iff_of_true ⟨trivial, trivial⟩ ⟨trivial, cuts_nil⟩
  | panic => exact iff_of_false (fun h => h.1) fun h => h.1
  | item x rest ih =>
    cases x with
    | error e =>
      obtain rfl : rest = .done := hstops
      exact iff_of_true ⟨trivial, rfl⟩ ⟨trivial, cuts_nil⟩
    | ok next =>
      have hstarts : startsOf (Trace.item (.ok next) rest).items = next.blockOffset.toNat :: startsOf rest.items := rfl
      have hends : (Trace.item (Except.ok next) rest).Ends ↔ rest.Ends := Iff.rfl
      rw [hstarts, cuts_cons, hends, blocks]
      by_cases hcut : start ≤ next.blockOffset.toNat ∧ next.blockOffset.toNat - start < 2 ^ 63
      · rw [if_pos hcut]
        by_cases hpanic : rest = .panic
        · subst hpanic
          exact iff_of_false (fun h => h.1) fun h => h.1
        · have hlook : ∀ t : Trace (Except Error Bytes), rest.lookahead t = t := by
            cases rest with
            | panic => exact absurd rfl hpanic
            | done => exact fun _ => rfl
            | item _ _ => exact fun _ => rfl
          rw [hlook]
          by_cases hle : next.blockOffset.toNat ≤ contents.length
          · rw [if_pos hle]
            exact (ih hstops).trans ⟨fun h => ⟨h.1, hcut.1, hle, h.2⟩, fun h => ⟨h.1, h.2.2.2⟩⟩
          · -- after a read beyond the end there is always another block
            rw [if_neg hle]
            exact iff_of_false (fun h => blocks_ne_done h.2) fun h => hle h.2.2.1
      · rw [if_neg hcut]
        exact iff_of_false (fun h => h.1) fun h => hcut ⟨h.2.1, by have := h.2.2.1; omega⟩

theorem blocks_hasError (h : (blocks contents start tr).Ends) (htr : tr.HasError) :
    (blocks contents start tr).HasError := by
  obtain ⟨e, he⟩ := htr
  induction tr generalizing start with
  | done => cases he
  | panic => exact h.elim
  | item x rest ih =>
    cases x with
    | error e' => exact ⟨_, List.mem_singleton.2 rfl⟩
    | ok next =>
      have hrest : .error e ∈ rest.items := by
        rcases List.mem_cons.1 he with he | he
        · cases he
        · exact he
      rw [blocks] at h ⊢
      by_cases hcut : start ≤ next.blockOffset.toNat ∧ next.blockOffset.toNat - start < 2 ^ 63
      · rw [if_pos hcut] at h ⊢
        cases rest with
        | panic => exact h.elim
        | done => cases hrest
        | item a more =>
          rw [Trace.lookahead_item] at h ⊢
          split_ifs at h ⊢
          · obtain ⟨e', he'⟩ := ih h hrest
            exact ⟨e', List.mem_cons_of_mem _ he'⟩
          · exact ⟨_, List.mem_cons_self⟩
      · rw [if_neg hcut] at h
        exact h.elim

theorem ends_of_cut (hstops : tr.StopsAtError) (hlength : contents.length < 2 ^ 63) (hends : (cut contents tr).Ends)
    (hstops' : (cut contents tr).StopsAtError) : tr.Ends := by
  cases tr with
  | done => trivial
  | panic => exact hends
  | item x rest =>
    cases x with
    | error e =>
      obtain rfl : rest = .done := hstops
      trivial
    | ok entry =>
      rw [cut] at hends hstops'
      cases rest with
      | panic => exact hends
      | done => trivial
      | item a more => exact ((@blocks_iff contents 0 (.item a more) hstops hlength).1 ⟨hends, hstops'⟩).1

/-- The blocks come as they should exactly where the first entry could be read and the offsets of the others cut the file. -/
theorem cut_iff (hstops : tr.StopsAtError) (hlength : contents.length < 2 ^ 63) :
    ((cut contents tr).Ends ∧ (cut contents tr).StopsAtError ∧ (tr.Ends → tr.HasError → (cut contents tr).HasError)) ↔
      tr.Ends ∧ (∀ e, tr.items.head? ≠ some (.error e)) ∧ Cuts contents.length 0 (startsOf tr.items.tail) := by
  cases tr with
  | done =>
    have hnone : ∀ e : Secondary.Error, (Trace.done : Trace (Except Secondary.Error Secondary.Entry)).items.head? ≠
        some (.error e) := fun e => (Option.some_ne_none _).symm
    refine iff_of_true ⟨trivial, trivial, fun _ herror => ?_⟩ ⟨trivial, hnone, cuts_nil⟩
    obtain ⟨e, he⟩ := herror
    cases he
  | panic => exact iff_of_false (fun h => h.1) fun h => h.1
  | item x rest =>
    cases x with
    | error e =>
      -- the error is in `current`, which is dropped: the whole file is given as a block
      obtain rfl : rest = .done := hstops
      refine iff_of_false (fun h => ?_) fun h => h.2.1 e rfl
      obtain ⟨e', he'⟩ := h.2.2 trivial ⟨e, List.mem_singleton.2 rfl⟩
      cases he' with
      | tail _ he' => cases he'
    | ok entry =>
      have hrest := @blocks_iff contents 0 rest hstops hlength
      have hends : (Trace.item (Except.ok entry) rest).Ends ↔ rest.Ends := Iff.rfl
      have htail : (Trace.item (Except.ok entry) rest).items.tail = rest.items := rfl
      have hok : ∀ e, (Trace.item (Except.ok entry) rest).items.head? ≠ some (.error e) := by
        intro e h
        cases h
      rw [hends, htail, cut]
      cases rest with
      | panic => exact iff_of_false (fun h => h.1) fun h => h.1
      | done =>
        refine iff_of_true ⟨trivial, trivial, fun _ herror => ?_⟩ ⟨trivial, hok, cuts_nil⟩
        obtain ⟨e, he⟩ := herror
        cases he with
        | tail _ he => cases he
      | item a more =>
        rw [Trace.lookahead_item]
        constructor
        · rintro ⟨hends, hstops, -⟩
          obtain ⟨hends', hcuts⟩ := hrest.1 ⟨hends, hstops⟩
          exact ⟨hends', hok, hcuts⟩
        · rintro ⟨hends, -, hcuts⟩
          obtain ⟨hends', hstops'⟩ := hrest.2 ⟨hends, hcuts⟩
          refine ⟨hends', hstops', fun _ herror => ?_⟩
          obtain ⟨e, he⟩ := herror
          refine blocks_hasError hends' ⟨e, ?_⟩
          rcases List.mem_cons.1 he with he | he
          · cases he
          · exact he

end Chunk

/-! ### The three files -/

section readings
variable {contents : Bytes} {offsets : List UInt32}

theorem startsOf_readings : startsOf (readings contents offsets) =
    (offsets.filter fun offset => Secondary.Readable contents offset).map
      fun offset => (Secondary.entryAt contents offset).blockOffset.toNat := by
  induction offsets with
  | nil => rfl
  | cons offset offsets ih =>
    simp only [readings, startsOf, List.map_cons, List.filterMap_cons] at ih ⊢
    by_cases h : Secondary.Readable contents offset
    · rw [List.filter_cons_of_pos (by simpa using h), if_pos h, List.map_cons]
      exact congrArg _ ih
    · rw [List.filter_cons_of_neg (by simpa using h), if_neg h]
      exact ih

theorem head_readings : (∀ e, (readings contents offsets).head? ≠ some (.error e)) ↔
    ∀ offset ∈ offsets.head?, Secondary.Readable contents offset := by
  cases offsets with
  | nil => exact iff_of_true nofun nofun
  | cons offset offsets =>
    by_cases h : Secondary.Readable contents offset
    · refine iff_of_true (fun e he => ?_) ?_
      · rw [readings, List.map_cons, if_pos h, List.head?_cons] at he
        cases he
      · rintro o ⟨⟩
        exact h
    · refine iff_of_false (fun hall => hall .inconsistentState ?_) fun hall => h (hall offset rfl)
      rw [readings, List.map_cons, if_neg h, List.head?_cons]

theorem startsOf_tail (h : ∀ offset ∈ offsets.head?, Secondary.Readable contents offset) :
    startsOf (readings contents offsets).tail =
      (offsets.filter fun offset => Secondary.Readable contents offset).tail.map
        fun offset => (Secondary.entryAt contents offset).blockOffset.toNat := by
  cases offsets with
  | nil => rfl
  | cons offset offsets =>
    rw [List.filter_cons_of_pos (by simpa using h offset rfl)]
    exact startsOf_readings

end readings

section files
variable {primary secondary chunk : File} {version : UInt8} {bytes : Bytes}

theorem intact_iff (h : primary.contents = version :: bytes) : Intact primary secondary chunk ↔
    (primary.slots secondary).length ≤ 2 ^ 32 ∧
      Forward secondary.contents 0 (Primary.spans (Primary.offsets bytes)) ∧
      (∀ e, (readings secondary.contents (occupied (primary.slots secondary))).head? ≠ some (.error e)) ∧
      Cuts chunk.contents.length 0
        (startsOf (readings secondary.contents (occupied (primary.slots secondary))).tail) := by
  have hslots : primary.slots secondary = reached secondary.contents (Primary.spans (Primary.offsets bytes)) := by
    rw [File.slots, h, List.tail_cons]
  rw [head_readings]
  constructor
  · rintro ⟨hcount, hspaced, hfirst, hsorted, hwithin⟩
    refine ⟨hcount, ⟨fun _ _ => Nat.zero_le _, ?_⟩, hfirst, ?_⟩
    · rwa [← hslots]
    · rw [startsOf_tail hfirst]
      exact ⟨fun _ _ => Nat.zero_le _, hsorted, hwithin⟩
  · rintro ⟨hcount, ⟨-, hspaced⟩, hfirst, hcuts⟩
    rw [← hslots] at hspaced
    rw [startsOf_tail hfirst] at hcuts
    exact ⟨hcount, hspaced, hfirst, hcuts.sorted, hcuts.within⟩

theorem index_eq {pr : Profile} (h : primary.contents = version :: bytes)
    (hcount : pr = .release ∨ (primary.slots secondary).length ≤ 2 ^ 32)
    (hforward : Forward secondary.contents 0 (Primary.spans (Primary.offsets bytes))) :
    Secondary.index pr bytes secondary.contents =
      .ofList (readings secondary.contents (occupied (primary.slots secondary))) := by
  rw [File.slots, h, List.tail_cons] at hcount ⊢
  exact hforward.reads_eq (hcount.imp_right fun h => (Nat.zero_add _).trans_le h)

theorem Safe.trace (hsafe : Safe ⟨some primary, some secondary, some chunk⟩) (h : primary.contents = version :: bytes) :
    let tr := Secondary.index .debug bytes secondary.contents
    (Chunk.cut chunk.contents tr).Ends ∧ (Chunk.cut chunk.contents tr).StopsAtError ∧
      (tr.Ends → tr.HasError → (Chunk.cut chunk.contents tr).HasError) := by
  obtain ⟨hne, hall⟩ := hsafe .debug
  rcases @Chunk.readBlocks_eq .debug ⟨some primary, some secondary, some chunk⟩ _ _ _ _ _ rfl rfl rfl h with
    ⟨-, hpanic⟩ | ⟨r, hr, hgives⟩
  · exact absurd hpanic hne
  obtain ⟨items, hitems, hstops, herror⟩ := hall r hr
  intro tr
  have htr : Chunk.cut chunk.contents tr = .ofList items := hgives.unique hitems
  rw [htr]
  refine ⟨Trace.ends_ofList items, Trace.stopsAtError_ofList.2 hstops, fun hends hhas => ?_⟩
  rcases @Secondary.readEntries_eq .debug ⟨some primary, some secondary, some chunk⟩ _ _ _ _ rfl rfl h with
    ⟨hpanic, -⟩ | ⟨index, hindex, hgives'⟩
  · have hends' : (Secondary.index .debug bytes secondary.contents).Ends := hends
    rw [hpanic] at hends'
    exact hends'.elim
  · rw [← hends.ofList_items] at hhas
    obtain ⟨e, he⟩ := herror index tr.items hindex (by rwa [hends.ofList_items]) (by simpa [Trace.HasError] using hhas)
    exact ⟨e, by simpa using he⟩

end files

/-- Without a version there is no iteration, and no slot. -/
theorem safe_of_nil {dir : ChunkFiles} {primary secondary : File} (hp : dir.primary = some primary)
    (hs : dir.secondary = some secondary) (h : primary.contents = []) : Safe dir := by
  intro pr
  have herr : Chunk.readBlocks pr dir =
      .err (.secondaryIndexError (.primaryIndexError (.versionMissing .unexpectedEof))) := by
    simp only [Chunk.readBlocks, Secondary.readEntries, hp, hs, Outcome.ofOption, Outcome.ok_bind,
      Primary.Reader.open_nil h, Outcome.err_bind]
  refine ⟨fun hpanic => ?_, fun r hr => ?_⟩
  · cases herr.symm.trans hpanic
  · cases herr.symm.trans hr

theorem intact_of_nil {primary secondary chunk : File} (h : primary.contents = []) :
    Intact primary secondary chunk := by
  have hslots : primary.slots secondary = [] := by
    rw [File.slots, h]
    rfl
  have hstarts : primary.starts secondary = [] := by
    rw [File.starts, hslots]
    rfl
  constructor
  · rw [hslots]
    exact Nat.zero_le _
  · rw [hslots]
    exact .nil
  · rw [hslots]
    nofun
  · rw [hstarts]
    exact .nil
  · rw [hstarts]
    nofun

theorem Safe.intact {primary secondary chunk : File} (hsafe : Safe ⟨some primary, some secondary, some chunk⟩) :
    Intact primary secondary chunk := by
  cases h : primary.contents with
  | nil => exact intact_of_nil h
  | cons version bytes =>
    obtain ⟨hends, hstops, herror⟩ := hsafe.trace h
    obtain ⟨hendsTr, hhead, hcuts⟩ := (Chunk.cut_iff stopsAtError_index chunk.length_lt).1 ⟨hends, hstops, herror⟩
    obtain ⟨hcount, hforward⟩ := @forward_of_ends _ none _ _ hendsTr (Nat.zero_le _)
    have hslots : (primary.slots secondary).length ≤ 2 ^ 32 := by
      rw [File.slots, h, List.tail_cons]
      exact (Nat.le_add_left _ _).trans hcount
    rw [index_eq h (.inr hslots) hforward, Trace.items_ofList] at hhead hcuts
    exact (intact_iff h).2 ⟨hslots, hforward, hhead, hcuts⟩

theorem Intact.safe {primary secondary chunk : File} (hintact : Intact primary secondary chunk) :
    Safe ⟨some primary, some secondary, some chunk⟩ := by
  cases h : primary.contents with
  | nil => exact safe_of_nil rfl rfl h
  | cons version bytes =>
    obtain ⟨hslots, hforward, hhead, hcuts⟩ := (intact_iff h).1 hintact
    intro pr
    have htr := @index_eq _ _ _ _ pr h (.inr hslots) hforward
    obtain ⟨hends, hstops, herror⟩ :=
      (Chunk.cut_iff (@stopsAtError_index pr bytes secondary.contents) chunk.length_lt).2 (by
      rw [htr, Trace.items_ofList]
      exact ⟨Trace.ends_ofList _, hhead, hcuts⟩)
    rcases @Chunk.readBlocks_eq pr ⟨some primary, some secondary, some chunk⟩ _ _ _ _ _ rfl rfl rfl h with
      ⟨hpanic, -⟩ | ⟨r, hr, hgives⟩
    · rw [hpanic] at hends
      exact hends.elim
    refine ⟨by rw [hr]; nofun, fun r' hr' => ?_⟩
    obtain rfl : r = r' := Outcome.ok.inj (hr.symm.trans hr')
    rw [← hends.ofList_items] at hstops hgives
    refine ⟨_, hgives, Trace.stopsAtError_ofList.1 hstops, fun index entries hindex hentries hhas => herror ?_ ?_⟩
    · rw [htr]
      exact Trace.ends_ofList _
    rcases @Secondary.readEntries_eq pr ⟨some primary, some secondary, some chunk⟩ _ _ _ _ rfl rfl h with
      ⟨-, hpanic⟩ | ⟨index', hindex', hgives'⟩
    · rw [hpanic] at hindex
      cases hindex
    · obtain rfl : index' = index := Outcome.ok.inj (hindex'.symm.trans hindex)
      rw [hgives'.unique hentries, Trace.HasError, Trace.items_ofList]
      exact hhas

/-- For any contents of the three files, iterating the blocks is safe exactly where the chunk is intact. -/
theorem safe_iff_intact (primary secondary chunk : File) :
    Safe ⟨some primary, some secondary, some chunk⟩ ↔ Intact primary secondary chunk :=
  ⟨Safe.intact, Intact.safe⟩

/-- The one occupied slot has no entry: the chunk file is given as a block, and no error. -/
theorem missing_entry_is_block : ¬ Safe ⟨some ⟨[1, 0, 0, 0, 0, 0, 0, 0, 56], by decide⟩, some ⟨[], by decide⟩,
    some ⟨[7], by decide⟩⟩ := fun h => absurd (h.intact.first 0 rfl) (by decide)

end Pallas.Immutable
