import Pallas.Immutable.Readers
import Pallas.Lib.Iterators

/-!
# What iterating the readers comes to

Each reader's trace as a function of the contents of its file and of the trace of the reader below it: `entries` of the
primary index from its offsets, `reads` of the secondary index, and `blocks` of the chunk file.
-/

namespace Pallas.Immutable
open Iterators

/-- The bytes that are still to be read. -/
def BufReader.left (r : BufReader) : Bytes := r.file.contents.drop r.position

/-! ### The primary index -/

namespace Primary

/-- The offsets in a primary index; up to three bytes at its end are none. -/
def offsets : Bytes → List UInt32
  | a :: b :: c :: d :: rest => secondaryOffset [a, b, c, d] :: offsets rest
  | _ => []

/-- Each slot's offset and the next one. -/
def spans (offs : List UInt32) : List (UInt32 × UInt32) := offs.zip offs.tail

/-- The trace of the primary index, after the slot `slot`. -/
def entries (pr : Profile) : Option UInt32 → List (UInt32 × UInt32) → Trace Entry
  | _, [] => .done
  | slot, (last, next) :: rest => match nextSlot pr slot with
    | .ok s => .item (if next > last then .occupied s last else .empty s) (entries pr (some s) rest)
    | .panic => .panic

theorem offsets_of_length {bs : Bytes} (h : bs.length < 4) : offsets bs = [] := by
  match bs with
  | [] => rfl
  | [_] => rfl
  | [_, _] => rfl
  | [_, _, _] => rfl
  | _ :: _ :: _ :: _ :: _ => simp at h; omega

theorem offsets_cons {bs : Bytes} (h : 4 ≤ bs.length) :
    offsets bs = secondaryOffset (bs.take 4) :: offsets (bs.drop 4) := by
  match bs with
  | [] => simp at h
  | [_] => simp at h
  | [_, _] => simp at h
  | [_, _, _] => simp at h
  | _ :: _ :: _ :: _ :: _ => rfl

theorem readOffset_eq (r : BufReader) : (readOffset r).1 = (offsets r.left).head?.map .ok ∧
    offsets (readOffset r).2.left = (offsets r.left).tail := by
  unfold readOffset BufReader.readExact layoutSize BufReader.left
  split_ifs with h
  · have hlen : 4 ≤ (r.file.contents.drop r.position).length := by
      rw [List.length_drop]
      omega
    rw [offsets_cons hlen, List.drop_drop]
    exact ⟨rfl, rfl⟩
  · have hlen : (r.file.contents.drop r.position).length < 4 := by
      rw [List.length_drop]
      omega
    have hend : r.file.contents.drop (max r.position r.file.contents.length) = [] :=
      List.drop_eq_nil_of_le (le_max_right _ _)
    rw [offsets_of_length hlen, hend]
    exact ⟨rfl, rfl⟩

namespace Reader
variable {pr : Profile} {r : Reader} {offs : List UInt32}

/-- The reader stands before these offsets, two of them read ahead. -/
structure Before (r : Reader) (offs : List UInt32) : Prop where
  last : r.lastOffset = offs.head?.map .ok
  next : r.nextOffset = offs.tail.head?.map .ok
  left : offsets r.inner.left = offs.tail.tail

theorem gives_next (h : r.Before offs) : Gives (next pr) r ((entries pr r.lastSlot (spans offs)).map .ok) := by
  induction offs generalizing r with
  | nil =>
    refine @Gives.done _ _ _ _ { r with lastOffset := none, nextOffset := none } ?_
    have hlast := h.last
    simp only [List.head?_nil, Option.map_none] at hlast
    simp only [Reader.next, hlast]
  | cons last offs ih =>
    obtain ⟨hlast, hnext, hleft⟩ := h
    cases offs with
    | nil =>
      refine @Gives.done _ _ _ _ { r with lastOffset := none, nextOffset := none } ?_
      simp only [List.head?_cons, Option.map_some, List.tail_cons, List.head?_nil, Option.map_none] at hlast hnext
      simp only [Reader.next, hlast, hnext]
    | cons next offs =>
      simp only [List.head?_cons, Option.map_some, List.tail_cons] at hlast hnext hleft
      have hspans : spans (last :: next :: offs) = (last, next) :: spans (next :: offs) := rfl
      rw [hspans, entries]
      cases hslot : nextSlot pr r.lastSlot with
      | err e => exact e.elim
      | panic =>
        refine .panic ?_
        simp only [Reader.next, hlast, hnext, hslot, Outcome.panic_bind]
      | ok slot =>
        obtain ⟨hread, hrest⟩ := readOffset_eq r.inner
        rw [hleft] at hread hrest
        refine .item ?_ (@ih { r with
          inner := (readOffset r.inner).2, lastSlot := some slot, lastOffset := some (.ok next),
          nextOffset := (readOffset r.inner).1 } ⟨rfl, hread, hrest⟩)
        simp only [Reader.next, hlast, hnext, hslot, Outcome.ok_bind]

/-- An entry that `next_occupied` does not pass over. -/
def found : Except Error Entry → Option (Except Error Entry)
  | .ok (.empty _) => none
  | entry => some entry

theorem gives_nextOccupied (h : r.Before offs) :
    Gives (nextOccupied pr) r (((entries pr r.lastSlot (spans offs)).map .ok).filterMap found) := by
  refine Gives.skip ?_ ?_ ?_ ?_ (gives_next h)
  · intro s t hn
    rw [nextOccupied, hn]
  · intro s hn
    rw [nextOccupied, hn]
  · intro s t entry entry' hn hf
    rw [nextOccupied, hn]
    unfold found at hf
    split at hf
    · cases hf
    · next hne =>
      cases hf
      split
      · next heq =>
        cases heq
        exact absurd rfl (hne _)
      · rfl
  · intro s t entry hn hf
    unfold found at hf
    split at hf
    · rw [nextOccupied, hn]
    · cases hf

theorem before_open {file : File} {version : UInt8} {bytes : Bytes} (h : file.contents = version :: bytes) :
    ∃ r, Reader.open file = .ok r ∧ r.lastSlot = none ∧ r.Before (offsets bytes) := by
  have hversion : readVersion (.new file) = .ok (version, ⟨file, 1⟩) := by
    simp [readVersion, BufReader.new, BufReader.readExact, h]
  have hleft : BufReader.left ⟨file, 1⟩ = bytes := by simp [BufReader.left, h]
  obtain ⟨hlast, hrest⟩ := readOffset_eq ⟨file, 1⟩
  obtain ⟨hnext, hrest'⟩ := readOffset_eq (readOffset ⟨file, 1⟩).2
  rw [hleft] at hlast hrest
  rw [hrest] at hnext hrest'
  refine ⟨{
    inner := (readOffset (readOffset ⟨file, 1⟩).2).2, version := version, lastSlot := none,
    lastOffset := (readOffset ⟨file, 1⟩).1, nextOffset := (readOffset (readOffset ⟨file, 1⟩).2).1 }, ?_, rfl,
    hlast, hnext, hrest'⟩
  simp only [Reader.open, hversion, Outcome.ok_bind]

theorem open_nil {file : File} (h : file.contents = []) : Reader.open file = .err (.versionMissing .unexpectedEof) := by
  simp [Reader.open, readVersion, BufReader.new, BufReader.readExact, h]

end Reader
end Primary

/-! ### The secondary index -/

namespace Secondary

/-- The entry at an offset. -/
def entryAt (contents : Bytes) (offset : UInt32) : Entry := .from ((contents.drop offset.toNat).take layoutSize)

/-- All of the entry is in the file. -/
def Readable (contents : Bytes) (offset : UInt32) : Prop := offset.toNat + layoutSize ≤ contents.length

instance (contents : Bytes) (offset : UInt32) :
    Decidable (Readable contents offset) := inferInstanceAs (Decidable (_ ≤ _))

/-- The trace of the secondary index from the position `start`, over the occupied slots. -/
def reads (pr : Profile) (contents : Bytes) :
    ℕ → Trace (Except Primary.Error Primary.Entry) → Trace (Except Error Entry)
  | _, .done => .done
  | _, .panic => .panic
  | _, .item (.error e) _ => .item (.error (.primaryIndexError e)) .done
  | _, .item (.ok (.empty _)) _ => .done
  | start, .item (.ok (.occupied _ offset)) rest =>
    if pr = .debug ∧ offset.toNat < start then .panic
    else if Readable contents offset then
      rest.lookahead (.item (.ok (entryAt contents offset)) (reads pr contents (offset.toNat + layoutSize) rest))
    else .item (.error .inconsistentState) .done

section seek
variable {pr : Profile} {start : ℕ} {offset : UInt32}

theorem toInt_ofNat {n : ℕ} (h : n < 2 ^ 64) : MachineInt.toInt (UInt64.ofNat n) = n := by
  show ((UInt64.ofNat n).toNat : ℤ) = n
  rw [UInt64.toNat_ofNat_of_lt' h]

theorem sub_eq_panic (hstart : start < 2 ^ 63) (hpr : pr = .debug) (hlt : offset.toNat < start) :
    (MachineInt.sub pr (UInt64.ofNat offset.toNat) (UInt64.ofNat start) : Outcome Empty UInt64) = .panic := by
  have hoffset := offset.toNat_lt
  refine MachineInt.exact_eq_panic.2 ⟨hpr, ?_⟩
  rw [toInt_ofNat (by omega), toInt_ofNat (by omega)]
  rintro ⟨hlo, -⟩
  have : (0 : ℤ) ≤ offset.toNat - start := hlo
  omega

theorem sub_eq_ok (hstart : start < 2 ^ 63) (h : ¬ (pr = .debug ∧ offset.toNat < start)) :
    ∃ delta : UInt64, (MachineInt.sub pr (UInt64.ofNat offset.toNat)
      (UInt64.ofNat start) : Outcome Empty UInt64) = .ok delta ∧
      (MachineInt.cast delta : Int64).toInt = offset.toNat - start := by
  have hoffset := offset.toNat_lt
  refine ⟨MachineInt.wrap (offset.toNat - start : ℤ), ?_, ?_⟩
  · refine MachineInt.exact_eq_ok.2 ?_
    rw [toInt_ofNat (by omega), toInt_ofNat (by omega)]
    refine ⟨rfl, ?_⟩
    cases pr with
    | debug =>
      refine .inl ⟨?_, ?_⟩
      · show (0 : ℤ) ≤ offset.toNat - start
        have : ¬ offset.toNat < start := fun hlt => h ⟨rfl, hlt⟩
        omega
      · show (offset.toNat - start : ℤ) ≤ 2 ^ 64 - 1
        omega
    | release => exact .inr rfl
  · have hfits : MachineInt.Fits Int64 (offset.toNat - start : ℤ) := by
      constructor
      · show (-2 ^ 63 : ℤ) ≤ offset.toNat - start
        omega
      · show (offset.toNat - start : ℤ) ≤ 2 ^ 63 - 1
        omega
    have hcast : (MachineInt.cast (MachineInt.wrap (offset.toNat - start : ℤ) : UInt64) : Int64) =
        MachineInt.wrap (offset.toNat - start : ℤ) :=
      MachineInt.wrap_eq_of_modEq (MachineInt.toInt_wrap_modEq (offset.toNat - start : ℤ))
    rw [hcast]
    exact MachineInt.toInt_wrap_of_fits hfits

theorem seek_eq {inner : BufReader} (hpos : inner.position < 2 ^ 63)
    (h : ¬ (pr = .debug ∧ offset.toNat < inner.position)) :
    ∃ delta : UInt64,
      (MachineInt.sub pr (UInt64.ofNat offset.toNat) (UInt64.ofNat inner.position) : Outcome Empty UInt64) = .ok delta ∧
      inner.seekRelative (MachineInt.cast delta) = (.ok (), ⟨inner.file, offset.toNat⟩) := by
  obtain ⟨delta, hdelta, hcast⟩ := sub_eq_ok hpos h
  have hoffset := offset.toNat_lt
  refine ⟨delta, hdelta, ?_⟩
  have hto : (inner.position : ℤ) + (offset.toNat - inner.position) = offset.toNat := by omega
  simp only [BufReader.seekRelative, hcast, hto]
  rw [if_pos ⟨by omega, by omega⟩, Int.toNat_natCast]

end seek

namespace Reader
variable {pr : Profile} {r : Reader} {tr : Trace (Except Primary.Error Primary.Entry)}

theorem next_none (h : r.current = none) : r.next pr = .ok (none, { r with current := none }) := by
  simp only [next, h]

theorem current_of_none {t : Reader} (h : r.next pr = .ok (none, t)) : t.current = none := by
  unfold next at h
  split at h
  · cases h
    rfl
  · cases h
  · split at h
    · cases h
      rfl
    · obtain ⟨delta, -, h⟩ := Outcome.bind_eq_ok.1 h
      split at h
      · cases h
      · split at h
        · obtain ⟨p, -, h⟩ := Outcome.bind_eq_ok.1 h
          cases h
        · cases h
        · cases h

theorem gives_next (hpos : r.inner.position < 2 ^ 63)
    (h : Ahead (Primary.Reader.nextOccupied pr) r.current r.index tr) :
    Gives (next pr) r (reads pr r.inner.file.contents r.inner.position tr) := by
  induction tr generalizing r with
  | done => exact .done (next_none h.of_done)
  | panic => exact (Ahead.ne_panic h).elim
  | item x rest ih =>
    obtain ⟨hcurrent, hrest⟩ := h.of_some
    have hended : Gives (next pr) { r with current := none } .done := .done (next_none rfl)
    match x with
    | .error e =>
      refine .item ?_ hended
      simp only [next, hcurrent]
    | .ok (.empty slot) =>
      refine @Gives.done _ _ _ _ { r with current := none } ?_
      simp only [next, hcurrent, Primary.Entry.offset]
    | .ok (.occupied slot offset) =>
      rw [reads]
      split_ifs with hunder hread
      · refine .panic ?_
        simp only [next, hcurrent, Primary.Entry.offset, BufReader.streamPosition,
          sub_eq_panic hpos hunder.1 hunder.2, Outcome.panic_bind]
      · obtain ⟨delta, hdelta, hseek⟩ := seek_eq hpos hunder
        have hexact : (⟨r.inner.file, offset.toNat⟩ : BufReader).readExact layoutSize =
            (.ok ((r.inner.file.contents.drop offset.toNat).take layoutSize),
              ⟨r.inner.file, offset.toNat + layoutSize⟩) :=
          if_pos hread
        rcases hrest.ahead with ⟨rfl, hpanic⟩ | ⟨current, index, hnext, hahead⟩
        · refine .panic ?_
          simp only [next, hcurrent, Primary.Entry.offset, BufReader.streamPosition, hdelta,
            Outcome.ok_bind, hseek, hexact,
            hpanic, Outcome.panic_bind]
        · rw [hahead.lookahead]
          refine .item ?_ (@ih ⟨⟨r.inner.file, offset.toNat + layoutSize⟩, index, current⟩ ?_ hahead)
          · simp only [next, hcurrent, Primary.Entry.offset, BufReader.streamPosition, hdelta,
              Outcome.ok_bind, hseek, hexact,
              hnext]
            rfl
          · have hoffset := offset.toNat_lt
            show offset.toNat + 56 < 2 ^ 63
            omega
      · obtain ⟨delta, hdelta, hseek⟩ := seek_eq hpos hunder
        have hexact : (⟨r.inner.file, offset.toNat⟩ : BufReader).readExact layoutSize =
            (.error .unexpectedEof, ⟨r.inner.file, max offset.toNat r.inner.file.contents.length⟩) := if_neg hread
        refine @Gives.item _ _ _ _ ⟨⟨r.inner.file, max offset.toNat r.inner.file.contents.length⟩, r.index, none⟩ _ _ ?_
          (.done (next_none rfl))
        simp only [next, hcurrent, Primary.Entry.offset, BufReader.streamPosition, hdelta, Outcome.ok_bind,
          hseek, hexact]

theorem open_eq {index : Primary.Reader} {file : File} (h : Gives (Primary.Reader.nextOccupied pr) index tr) :
    (tr = .panic ∧ Reader.open pr index file = .panic) ∨
      ∃ r, Reader.open pr index file = .ok r ∧ Gives (next pr) r (reads pr file.contents 0 tr) := by
  rcases h.ahead with ⟨htr, hpanic⟩ | ⟨current, index', hnext, hahead⟩
  · refine .inl ⟨htr, ?_⟩
    simp only [Reader.open, hpanic, Outcome.panic_bind]
  · refine .inr ⟨⟨.new file, index', current⟩, ?_,
      @gives_next _ ⟨.new file, index', current⟩ _ (Nat.two_pow_pos 63) hahead⟩
    simp only [Reader.open, hnext, Outcome.ok_bind]

end Reader

/-- The trace of the secondary index over the slots of a primary index, both from the start. -/
def index (pr : Profile) (primary secondary : Bytes) : Trace (Except Error Entry) :=
  reads pr secondary 0
    (((Primary.entries pr none (Primary.spans (Primary.offsets primary))).map .ok).filterMap Primary.Reader.found)

theorem readEntries_eq {pr : Profile} {dir : ChunkFiles} {p s : File} {version : UInt8} {bytes : Bytes}
    (hp : dir.primary = some p) (hs : dir.secondary = some s) (h : p.contents = version :: bytes) :
    (index pr bytes s.contents = .panic ∧ readEntries pr dir = .panic) ∨
      ∃ r, readEntries pr dir = .ok r ∧ Gives (Reader.next pr) r (index pr bytes s.contents) := by
  obtain ⟨primary, hopen, hslot, hbefore⟩ := Primary.Reader.before_open h
  have hgives := @Primary.Reader.gives_nextOccupied pr _ _ hbefore
  rw [hslot] at hgives
  rcases @Reader.open_eq pr _ _ s hgives with ⟨htr, hpanic⟩ | ⟨r, hr, hgives'⟩
  · refine .inl ⟨?_, ?_⟩
    · rw [index, htr, reads]
    · simp only [readEntries, hp, hs, Outcome.ofOption, hopen, Outcome.ok_bind, hpanic]
  · refine .inr ⟨r, ?_, hgives'⟩
    simp only [readEntries, hp, hs, Outcome.ofOption, hopen, Outcome.ok_bind, hr]

end Secondary

/-! ### The chunk -/

namespace Chunk

/-- The trace of the chunk file from the position `start`, with an entry in hand and this trace of the entries to come. -/
def blocks (contents : Bytes) : ℕ → Trace (Except Secondary.Error Secondary.Entry) → Trace (Except Error Bytes)
  | start, .done => .item (.ok (contents.drop start)) .done
  | _, .panic => .panic
  | _, .item (.error e) _ => .item (.error (.secondaryIndexError e)) .done
  | start, .item (.ok next) rest =>
    if start ≤ next.blockOffset.toNat ∧ next.blockOffset.toNat - start < 2 ^ 63 then
      rest.lookahead (if next.blockOffset.toNat ≤ contents.length then
        .item (.ok ((contents.drop start).take (next.blockOffset.toNat - start)))
          (blocks contents next.blockOffset.toNat rest)
        else .item (.error (.cannotReadBlock .unexpectedEof)) (blocks contents contents.length rest))
    else .panic

/-- The trace of the chunk file from the start, over the trace of its secondary index. -/
def cut (contents : Bytes) : Trace (Except Secondary.Error Secondary.Entry) → Trace (Except Error Bytes)
  | .done => .done
  | .panic => .panic
  | .item _ rest => rest.lookahead (blocks contents 0 rest)

section block
variable {pr : Profile} {file : BufReader} {nextOffset : UInt64}

/-- In a release build, too, a block that starts before the last one ended is not read: its length wraps beyond what a
vector can hold. -/
theorem readMiddleBlock_panic (hpos : file.position < 2 ^ 63)
    (h : ¬ (file.position ≤ nextOffset.toNat ∧ nextOffset.toNat - file.position < 2 ^ 63)) :
    readMiddleBlock pr file nextOffset = .panic := by
  unfold readMiddleBlock
  dsimp only
  have hoffset := nextOffset.toNat_lt
  have hstart : MachineInt.toInt file.streamPosition = file.position := Secondary.toInt_ofNat (by omega)
  have hnext : MachineInt.toInt nextOffset = nextOffset.toNat := rfl
  rcases hsub : (MachineInt.sub pr nextOffset file.streamPosition : Outcome Empty UInt64) with delta | e | _
  · rw [Outcome.ok_bind, if_neg]
    obtain ⟨rfl, -⟩ := MachineInt.exact_eq_ok.1 hsub
    rw [hstart, hnext]
    have hwrap : (MachineInt.wrap (nextOffset.toNat - file.position : ℤ) : UInt64).toNat =
        ((nextOffset.toNat - file.position : ℤ) % 2 ^ 64).toNat := UInt64.toNat_ofNat_of_lt' (by
      show ((nextOffset.toNat - file.position : ℤ) % 2 ^ 64).toNat < 2 ^ 64
      omega)
    rw [hwrap]
    omega
  · exact e.elim
  · rfl

theorem readMiddleBlock_eq (hpos : file.position < 2 ^ 63) (hle : file.position ≤ nextOffset.toNat)
    (hlt : nextOffset.toNat - file.position < 2 ^ 63) :
    readMiddleBlock pr file nextOffset = .ok (match file.readExact (nextOffset.toNat - file.position) with
      | (.ok buf, file) => (.ok buf, file)
      | (.error e, file) => (.error (.cannotReadBlock e), file)) := by
  have hoffset := nextOffset.toNat_lt
  have hstart : MachineInt.toInt file.streamPosition = file.position := Secondary.toInt_ofNat (by omega)
  have hfits : MachineInt.Fits UInt64 (MachineInt.toInt nextOffset - MachineInt.toInt file.streamPosition) := by
    rw [hstart]
    constructor
    · show (0 : ℤ) ≤ nextOffset.toNat - file.position
      omega
    · show (nextOffset.toNat - file.position : ℤ) ≤ 2 ^ 64 - 1
      omega
  have hsub : (MachineInt.sub pr nextOffset file.streamPosition : Outcome Empty UInt64) =
      .ok (MachineInt.wrap (MachineInt.toInt nextOffset - MachineInt.toInt file.streamPosition)) :=
    MachineInt.exact_of_fits hfits
  have hdelta : (MachineInt.wrap (MachineInt.toInt nextOffset - MachineInt.toInt file.streamPosition) : UInt64).toNat =
      nextOffset.toNat - file.position := by
    have htoInt : ((MachineInt.wrap
        (MachineInt.toInt nextOffset - MachineInt.toInt file.streamPosition) : UInt64).toNat : ℤ) =
        nextOffset.toNat - MachineInt.toInt file.streamPosition := MachineInt.toInt_wrap_of_fits hfits
    rw [hstart] at htoInt
    rw [hstart]
    omega
  unfold readMiddleBlock
  dsimp only
  rw [hsub, Outcome.ok_bind, hdelta, if_pos hlt]
  rcases file.readExact (nextOffset.toNat - file.position) with ⟨_ | _, _⟩ <;> rfl

end block

namespace Reader
variable {pr : Profile} {r : Reader} {tr : Trace (Except Secondary.Error Secondary.Entry)}

theorem nextBlock_none (h : r.current = none) :
    r.nextBlock pr = .ok (none, { r with current := none, next := none }) := by
  simp only [nextBlock, h]

theorem gives_nextBlock (hpos : r.inner.position ≤ r.inner.file.contents.length) (hcurrent : r.current.isSome)
    (h : Ahead (Secondary.Reader.next pr) r.next r.index tr) :
    Gives (nextBlock pr) r (blocks r.inner.file.contents r.inner.position tr) := by
  induction tr generalizing r with
  | done =>
    obtain ⟨current, hcurrent⟩ := Option.isSome_iff_exists.1 hcurrent
    refine @Gives.item _ _ _ _ ⟨(readLastBlock r.inner).2, r.index, none, none⟩ _ _ ?_ (.done (nextBlock_none rfl))
    simp only [nextBlock, hcurrent, h.of_done]
    rfl
  | panic => exact (Ahead.ne_panic h).elim
  | item x rest ih =>
    obtain ⟨hnext, hrest⟩ := h.of_some
    obtain ⟨current, hcurrent⟩ := Option.isSome_iff_exists.1 hcurrent
    have hlength := r.inner.file.length_lt
    cases x with
    | error e =>
      refine @Gives.item _ _ _ _ ⟨r.inner, r.index, none, none⟩ _ _ ?_ (.done (nextBlock_none rfl))
      simp only [nextBlock, hcurrent, hnext]
    | ok next =>
      rw [blocks]
      by_cases hcut : r.inner.position ≤ next.blockOffset.toNat ∧ next.blockOffset.toNat - r.inner.position < 2 ^ 63
      · rw [if_pos hcut]
        have hread := @readMiddleBlock_eq pr r.inner next.blockOffset (by omega) hcut.1 hcut.2
        rcases hrest.ahead with ⟨rfl, hpanic⟩ | ⟨next', index, hindex, hahead⟩
        · refine .panic ?_
          simp only [nextBlock, hcurrent, hnext, hread, hpanic, Outcome.ok_bind, Outcome.panic_bind]
        · rw [hahead.lookahead]
          have hto : r.inner.position + (next.blockOffset.toNat - r.inner.position) = next.blockOffset.toNat := by omega
          split_ifs with hle
          · refine .item ?_ (@ih ⟨⟨r.inner.file, next.blockOffset.toNat⟩, index, some (.ok next), next'⟩ hle rfl hahead)
            simp only [nextBlock, hcurrent, hnext, hread, hindex, Outcome.ok_bind, BufReader.readExact, hto, if_pos hle]
          · refine .item ?_ (@ih ⟨⟨r.inner.file, r.inner.file.contents.length⟩, index, some (.ok next),
              next'⟩ le_rfl rfl hahead)
            simp only [nextBlock, hcurrent, hnext, hread, hindex, Outcome.ok_bind, BufReader.readExact, hto, if_neg hle,
              max_eq_right hpos]
      · rw [if_neg hcut]
        refine .panic ?_
        simp only [nextBlock, hcurrent, hnext, readMiddleBlock_panic (show r.inner.position < 2 ^ 63 by omega) hcut,
          Outcome.panic_bind]

theorem open_eq {index : Secondary.Reader} {file : File} (h : Gives (Secondary.Reader.next pr) index tr) :
    (cut file.contents tr = .panic ∧ Reader.open pr index file = .panic) ∨
      ∃ r, Reader.open pr index file = .ok r ∧ Gives (nextBlock pr) r (cut file.contents tr) := by
  cases h with
  | @done s t hn =>
    -- asked again after its end, the index gives nothing again
    have hn' := @Secondary.Reader.next_none pr _ (Secondary.Reader.current_of_none hn)
    refine .inr ⟨⟨.new file, { t with current := none }, none, none⟩, ?_, .done (nextBlock_none rfl)⟩
    simp only [Reader.open, hn, hn', Outcome.ok_bind]
  | panic hn =>
    refine .inl ⟨rfl, ?_⟩
    simp only [Reader.open, hn, Outcome.panic_bind]
  | @item s t a rest hn hrest =>
    rcases hrest.ahead with ⟨rfl, hpanic⟩ | ⟨next, index', hnext, hahead⟩
    · refine .inl ⟨rfl, ?_⟩
      simp only [Reader.open, hn, hpanic, Outcome.ok_bind, Outcome.panic_bind]
    · refine .inr ⟨⟨.new file, index', some a, next⟩, ?_, ?_⟩
      · simp only [Reader.open, hn, hnext, Outcome.ok_bind]
      · rw [cut, hahead.lookahead]
        exact @gives_nextBlock _ ⟨.new file, index', some a, next⟩ _ (Nat.zero_le _) rfl hahead

end Reader

theorem readBlocks_eq {pr : Profile} {dir : ChunkFiles} {p s c : File} {version : UInt8} {bytes : Bytes}
    (hp : dir.primary = some p) (hs : dir.secondary = some s) (hc : dir.chunk = some c)
    (h : p.contents = version :: bytes) :
    (cut c.contents (Secondary.index pr bytes s.contents) = .panic ∧ readBlocks pr dir = .panic) ∨
      ∃ r, readBlocks pr dir = .ok r ∧
        Gives (Reader.nextBlock pr) r (cut c.contents (Secondary.index pr bytes s.contents)) := by
  rcases @Secondary.readEntries_eq pr _ _ _ _ _ hp hs h with ⟨htr, hpanic⟩ | ⟨index, hindex, hgives⟩
  · refine .inl ⟨?_, ?_⟩
    · rw [htr, cut]
    · simp only [readBlocks, hpanic, Outcome.panic_bind]
  · rcases @Reader.open_eq pr _ _ c hgives with ⟨htr, hpanic⟩ | ⟨r, hr, hgives'⟩
    · refine .inl ⟨htr, ?_⟩
      simp only [readBlocks, hindex, hc, Outcome.ofOption, Outcome.ok_bind, hpanic]
    · refine .inr ⟨r, ?_, hgives'⟩
      simp only [readBlocks, hindex, hc, Outcome.ofOption, Outcome.ok_bind, hr]

end Chunk

end Pallas.Immutable
