import Pallas.Lib.BigEndian
import Pallas.Lib.Machine

/-!
# The readers of an immutable chunk

A chunk of the immutable database is three files: a primary index, with the offset of each slot's entry in the secondary
index, the secondary index, with the offset of each block in the chunk file, and the chunk file. Each reader is an iterator
that keeps the next item, or the next two, of the reader below it.

The files are what the readers find there: reading fails at their end only. Subtractions of offsets are `u64`, so the
build profile decides what happens below zero.
-/

namespace Pallas.Immutable

/-- A file. Positions in a file are signed 64-bit numbers. -/
structure File where
  contents : Bytes
  length_lt : contents.length < 2 ^ 63

/-- `std::io::ErrorKind`, as far as the readers meet it. -/
inductive IoError where
  | notFound
  | unexpectedEof
  | invalidInput
  deriving DecidableEq

/-- `BufReader<File>`: the file, and where the next byte is read. -/
structure BufReader where
  file : File
  position : ℕ

namespace BufReader

def new (file : File) : BufReader := ⟨file, 0⟩

/-- `read_exact` of `n` bytes. At the end of the file it takes what is left and fails. -/
def readExact (r : BufReader) (n : ℕ) : Except IoError Bytes × BufReader :=
  if r.position + n ≤ r.file.contents.length then
    (.ok ((r.file.contents.drop r.position).take n), { r with position := r.position + n })
  else (.error .unexpectedEof, { r with position := max r.position r.file.contents.length })

def readToEnd (r : BufReader) : Bytes × BufReader :=
  (r.file.contents.drop r.position, { r with position := max r.position r.file.contents.length })

def streamPosition (r : BufReader) : UInt64 := UInt64.ofNat r.position

/-- `seek_relative`: to any position that is one, also beyond the end. -/
def seekRelative (r : BufReader) (delta : Int64) : Except IoError Unit × BufReader :=
  let position : ℤ := r.position + delta.toInt
  if 0 ≤ position ∧ position < 2 ^ 63 then (.ok (), { r with position := position.toNat })
  else (.error .invalidInput, r)

end BufReader

/-! ### The primary index -/

namespace Primary

inductive Error where
  | versionMissing (e : IoError)
  | cannotReadPrimaryIndex (e : IoError)
  deriving DecidableEq

inductive Entry where
  | empty (slot : UInt32)
  | occupied (slot offset : UInt32)
  deriving DecidableEq

def Entry.offset : Entry → Option UInt32
  | empty _ => none
  | occupied _ x => some x

/-- The size of `layout`: one `u32`. -/
def layoutSize : ℕ := 4

def secondaryOffset (view : Bytes) : UInt32 := UInt32.ofNat (Cbor.ofBigEndian view)

structure Reader where
  inner : BufReader
  version : UInt8
  lastSlot : Option UInt32
  lastOffset : Option (Except Error UInt32)
  nextOffset : Option (Except Error UInt32)

def readVersion (inner : BufReader) : Outcome Error (UInt8 × BufReader) :=
  match inner.readExact 1 with
  | (.ok buf, inner) => .ok (buf.headD 0, inner)
  | (.error e, _) => .err (.versionMissing e)

def readOffset (file : BufReader) : Option (Except Error UInt32) × BufReader :=
  match file.readExact layoutSize with
  | (.error .unexpectedEof, file) => (none, file)
  | (.error e, file) => (some (.error (.cannotReadPrimaryIndex e)), file)
  | (.ok buf, file) => (some (.ok (secondaryOffset buf)), file)

def Reader.open (file : File) : Outcome Error Reader := do
  let (version, inner) ← readVersion (.new file)
  let (lastOffset, inner) := readOffset inner
  let (nextOffset, inner) := readOffset inner
  .ok { inner := inner, version := version, lastSlot := none, lastOffset := lastOffset, nextOffset := nextOffset }

/-- `self.last_slot.map(|x| x + 1).unwrap_or_default()`. -/
def nextSlot (pr : Profile) : Option UInt32 → Outcome Empty UInt32
  | some x => MachineInt.add pr x 1
  | none => .ok 0

def Reader.next (pr : Profile) (r : Reader) : Outcome Empty (Option (Except Error Entry) × Reader) :=
  let taken := { r with lastOffset := none, nextOffset := none }
  match r.lastOffset, r.nextOffset with
  | none, _ => .ok (none, taken)
  | some _, none => .ok (none, taken)
  | _, some (.error e) => .ok (some (.error e), taken)
  | some (.error e), _ => .ok (some (.error e), taken)
  | some (.ok last), some (.ok next) => do
    let slot ← nextSlot pr r.lastSlot
    let entry := if next > last then Entry.occupied slot last else Entry.empty slot
    let (nextOffset, inner) := readOffset r.inner
    .ok (some (.ok entry), { r with
      inner := inner, lastSlot := some slot, lastOffset := some (.ok next), nextOffset := nextOffset })

/-- The bytes that are left, counting the offset that has been read ahead. -/
def Reader.rank (r : Reader) : ℕ :=
  (r.inner.file.contents.length - r.inner.position) + if r.nextOffset.isSome then 1 else 0

theorem rank_readOffset {file inner : BufReader} {offset : Option (Except Error UInt32)}
    (h : readOffset file = (offset, inner)) :
    (inner.file.contents.length - inner.position) + (if offset.isSome then 1 else 0) ≤
      file.file.contents.length - file.position := by
  unfold readOffset BufReader.readExact layoutSize at h
  split_ifs at h with hlen
  · cases h
    simp only [Option.isSome_some, if_true]
    omega
  · cases h
    simp

theorem Reader.rank_lt {pr : Profile} {r r' : Reader} {slot : UInt32}
    (h : r.next pr = .ok (some (.ok (.empty slot)), r')) : r'.rank < r.rank := by
  unfold Reader.next at h
  split at h
  · cases h
  · cases h
  · cases h
  · cases h
  · next hnext =>
    obtain ⟨slot', -, h⟩ := Outcome.bind_eq_ok.1 h
    have hread := rank_readOffset (Prod.mk.eta : ((readOffset r.inner).1, _) = readOffset r.inner).symm
    simp only [Outcome.ok.injEq, Prod.mk.injEq] at h
    obtain ⟨-, rfl⟩ := h
    simp only [Reader.rank, hnext, Option.isSome_some, if_true]
    omega

/-- The loop of `next_occupied`: entries of empty slots are passed over. -/
def Reader.nextOccupied (pr : Profile) (r : Reader) : Outcome Empty (Option (Except Error Entry) × Reader) :=
  match _h : r.next pr with
  | .ok (some (.ok (.empty _)), r') => r'.nextOccupied pr
  | result => result
termination_by r.rank
decreasing_by exact Reader.rank_lt _h

end Primary

/-! ### The secondary index -/

namespace Secondary

inductive Error where
  | cannotOpenFile (e : IoError)
  | cannotReadSecondaryIndex (e : IoError)
  | inconsistentState
  | primaryIndexError (e : Primary.Error)
  deriving DecidableEq

structure Entry where
  blockOffset : UInt64
  headerOffset : UInt16
  headerSize : UInt16
  checksum : UInt32
  headerHash : Bytes
  blockOrEbb : Bytes
  deriving DecidableEq

/-- The size of `layout`. -/
def layoutSize : ℕ := 56

/-- The field of `n` bytes at `start`. -/
def field (view : Bytes) (start n : ℕ) : Bytes := (view.drop start).take n

def Entry.from (view : Bytes) : Entry where
  blockOffset := UInt64.ofNat (Cbor.ofBigEndian (field view 0 8))
  headerOffset := UInt16.ofNat (Cbor.ofBigEndian (field view 8 2))
  headerSize := UInt16.ofNat (Cbor.ofBigEndian (field view 10 2))
  checksum := UInt32.ofNat (Cbor.ofBigEndian (field view 12 4))
  headerHash := field view 16 32
  blockOrEbb := field view 48 8

structure Reader where
  inner : BufReader
  index : Primary.Reader
  current : Option (Except Primary.Error Primary.Entry)

def Reader.open (pr : Profile) (index : Primary.Reader) (file : File) : Outcome Empty Reader := do
  let (current, index) ← index.nextOccupied pr
  .ok { inner := .new file, index := index, current := current }

def Reader.next (pr : Profile) (r : Reader) : Outcome Empty (Option (Except Error Entry) × Reader) :=
  let taken := { r with current := none }
  match r.current with
  | none => .ok (none, taken)
  | some (.error e) => .ok (some (.error (.primaryIndexError e)), taken)
  | some (.ok x) => match x.offset with
    | none => .ok (none, taken)
    | some current => do
      let start := r.inner.streamPosition
      let delta ← MachineInt.sub pr (UInt64.ofNat current.toNat) start
      match r.inner.seekRelative (MachineInt.cast delta) with
      | (.error e, inner) => .ok (some (.error (.cannotReadSecondaryIndex e)), { taken with inner := inner })
      | (.ok (), inner) => match inner.readExact layoutSize with
        | (.ok buf, inner) => do
          let (current, index) ← r.index.nextOccupied pr
          .ok (some (.ok (Entry.from buf)), { inner := inner, index := index, current := current })
        | (.error .unexpectedEof, inner) => .ok (some (.error .inconsistentState), { taken with inner := inner })
        | (.error e, inner) => .ok (some (.error (.cannotReadSecondaryIndex e)), { taken with inner := inner })

end Secondary

/-- The files of one chunk, those that are there. -/
structure ChunkFiles where
  primary : Option File
  secondary : Option File
  chunk : Option File

def Secondary.readEntries (pr : Profile) (dir : ChunkFiles) : Outcome Secondary.Error Secondary.Reader := do
  let primary ← Outcome.ofOption (.cannotOpenFile .notFound) dir.primary
  let primary ← match Primary.Reader.open primary with
    | .ok r => .ok r
    | .err e => .err (.primaryIndexError e)
    | .panic => .panic
  let secondary ← Outcome.ofOption (.cannotOpenFile .notFound) dir.secondary
  match Secondary.Reader.open pr primary secondary with
  | .ok r => .ok r
  | .panic => .panic

/-! ### The chunk -/

namespace Chunk

inductive Error where
  | cannotOpenChunkFile (e : IoError)
  | cannotReadBlock (e : IoError)
  | secondaryIndexError (e : Secondary.Error)
  deriving DecidableEq

structure Reader where
  inner : BufReader
  index : Secondary.Reader
  current : Option (Except Secondary.Error Secondary.Entry)
  next : Option (Except Secondary.Error Secondary.Entry)

def Reader.open (pr : Profile) (index : Secondary.Reader) (chunks : File) : Outcome Empty Reader := do
  let (current, index) ← index.next pr
  let (next, index) ← index.next pr
  .ok { inner := .new chunks, index := index, current := current, next := next }

/-- A vector longer than `isize::MAX` bytes cannot be asked for; for any other there is memory. -/
def readMiddleBlock (pr : Profile) (file : BufReader) (nextOffset : UInt64) :
    Outcome Empty (Except Error Bytes × BufReader) := do
  let start := file.streamPosition
  let delta ← MachineInt.sub pr nextOffset start
  if delta.toNat < 2 ^ 63 then
    match file.readExact delta.toNat with
    | (.ok buf, file) => .ok (.ok buf, file)
    | (.error e, file) => .ok (.error (.cannotReadBlock e), file)
  else .panic

def readLastBlock (file : BufReader) : Bytes × BufReader := file.readToEnd

def Reader.nextBlock (pr : Profile) (r : Reader) : Outcome Empty (Option (Except Error Bytes) × Reader) :=
  let taken := { r with current := none, next := none }
  match r.current, r.next with
  | none, _ => .ok (none, taken)
  | _, some (.error next) => .ok (some (.error (.secondaryIndexError next)), taken)
  | some _, some (.ok next) => do
    let (block, inner) ← readMiddleBlock pr r.inner next.blockOffset
    let (next', index) ← r.index.next pr
    .ok (some block, { inner := inner, index := index, current := some (.ok next), next := next' })
  | some _, none =>
    let (block, inner) := readLastBlock r.inner
    .ok (some (.ok block), { taken with inner := inner })

def readBlocks (pr : Profile) (dir : ChunkFiles) : Outcome Error Reader := do
  let secondary ← match Secondary.readEntries pr dir with
    | .ok r => .ok r
    | .err e => .err (.secondaryIndexError e)
    | .panic => .panic
  let chunk ← Outcome.ofOption (.cannotOpenChunkFile .notFound) dir.chunk
  match Reader.open pr secondary chunk with
  | .ok r => .ok r
  | .panic => .panic

end Chunk

end Pallas.Immutable
