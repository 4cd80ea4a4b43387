import Mathlib.Data.String.Basic
import Pallas.Immutable.Consistent

/-!
# The blocks of a directory and its tip (`storage/immutable/mod.rs`)

`read_blocks` reads the chunks of a directory one after the other, all but the last by name, and `get_tip` looks for the
last block in the newest of them. Chunks in which no slot is occupied hold no block, and `get_tip` does not look further
back.

Decoding a block is a parameter: what is known of it is its slot and its hash, or the error.
-/

namespace Pallas.Immutable
open Iterators

/-- `Point` of the network crate. -/
inductive Point where
  | origin
  | specific (slot : UInt64) (hash : Bytes)
  deriving DecidableEq

/-- The files with the extension `chunk`, by their stems and in the order of `read_dir`, and the three files of each. -/
structure Directory where
  names : List String
  files : String → ChunkFiles

/-- The errors of `get_tip` on a directory that can be read. -/
inductive TipError (δ : Type) where
  | chunkReadError (e : Chunk.Error)
  | cannotDecodeBlock (e : δ)

section
variable (pr : Profile) (dir : Directory) {δ : Type} (decode : Bytes → Except δ (UInt64 × Bytes))

/-- `build_stack_of_chunk_names`: newest first, and the last by name left out. -/
def buildStackOfChunkNames : List String := (dir.names.mergeSort (· ≤ ·)).dropLast.reverse

/-- One step of `ChunkReaders` under `map_while(Result::ok)`. -/
def openChunk (name : String) : Outcome Empty (Option Chunk.Reader) :=
  match Chunk.readBlocks pr (dir.files name) with
  | .ok r => .ok (some r)
  | .err _ => .ok none
  | .panic => .panic

/-- `ChunkReaders` over a stack of names, flattened: names are popped from the end. -/
def chunkReaders (names : List String) : Flatten String Chunk.Reader := ⟨names.reverse, none⟩

def nextBlock : Flatten String Chunk.Reader → Outcome Empty (Option (Except Chunk.Error Bytes) × Flatten String Chunk.Reader) :=
  Flatten.next (openChunk pr dir) (Chunk.Reader.nextBlock pr)

def readBlocks : Flatten String Chunk.Reader := chunkReaders (buildStackOfChunkNames dir)

/-- The point of the last item of an iteration. -/
def tipPoint {δ : Type} (decode : Bytes → Except δ (UInt64 × Bytes)) :
    Outcome Empty (Option (Except Chunk.Error Bytes)) → Outcome (TipError δ) (Option Point)
  | .ok none => .ok none
  | .ok (some (.error e)) => .err (.chunkReadError e)
  | .ok (some (.ok block)) => match decode block with
    | .ok (slot, hash) => .ok (some (.specific slot hash))
    | .error e => .err (.cannotDecodeBlock e)
  | .panic => .panic

/-- `get_tip` returns this. -/
inductive GetTip : Outcome (TipError δ) (Option Point) → Prop where
  | none : (buildStackOfChunkNames dir).head? = none → GetTip (.ok none)
  | some {name : String} {tr : Trace (Except Chunk.Error Bytes)} : (buildStackOfChunkNames dir).head? = some name →
      Gives (nextBlock pr dir) (chunkReaders [name]) tr → GetTip (tipPoint decode tr.last)

/-- The chunk opens, and gives these blocks. -/
def ReadsAs (files : ChunkFiles) (blocks : List Bytes) : Prop :=
  ∃ r, Chunk.readBlocks pr files = .ok r ∧ Gives (Chunk.Reader.nextBlock pr) r (.ofList (blocks.map .ok))

/-- `get_tip` returns the point of the last block that `read_blocks` gives, and none where there is no block. -/
def TipIsLast : Prop :=
  ∃ (blocks : List Bytes) (tip : Option Point), Gives (nextBlock pr dir) (readBlocks dir) (.ofList (blocks.map .ok)) ∧
    tipPoint decode (.ok (blocks.getLast?.map .ok)) = .ok tip ∧ GetTip pr dir decode (.ok tip)

variable {pr dir decode} {blocks : String → List Bytes}

theorem GetTip.unique {r r' : Outcome (TipError δ) (Option Point)} (h : GetTip pr dir decode r)
    (h' : GetTip pr dir decode r') : r = r' := by
  rcases h with hnone | ⟨hname, hgives⟩ <;> rcases h' with hnone' | ⟨hname', hgives'⟩
  · rfl
  · cases hnone.symm.trans hname'
  · cases hname.symm.trans hnone'
  · cases hname.symm.trans hname'
    rw [hgives.unique hgives']

theorem gives_chunkReaders {names : List String} (h : ∀ name ∈ names, ReadsAs pr (dir.files name) (blocks name)) :
    Gives (nextBlock pr dir) (chunkReaders names) (.ofList ((names.reverse.flatMap blocks).map .ok)) := by
  rw [List.map_flatMap]
  refine Flatten.gives fun name hname => ?_
  obtain ⟨r, hopen, hgives⟩ := h name (List.mem_reverse.1 hname)
  exact ⟨r, by rw [openChunk, hopen], hgives⟩

theorem tipPoint_eq_none {items : List Bytes} :
    tipPoint decode (.ok (items.getLast?.map .ok)) = .ok none ↔ items = [] := by
  rcases items.eq_nil_or_concat with rfl | ⟨init, block, rfl⟩
  · simp [tipPoint]
  · rw [List.concat_eq_append, List.getLast?_append_of_ne_nil _ (List.cons_ne_nil _ _)]
    rcases hdecode : decode block with e | ⟨slot, hash⟩ <;> simp [tipPoint, hdecode]

/-- What `get_tip` finds in the newest chunk. -/
theorem getTip_newest {name : String} {rest : List String} (hstack : buildStackOfChunkNames dir = name :: rest)
    (h : ReadsAs pr (dir.files name) (blocks name)) :
    GetTip pr dir decode (tipPoint decode (.ok ((blocks name).getLast?.map .ok))) := by
  have hgives : Gives (nextBlock pr dir) (chunkReaders [name]) (.ofList (([name].reverse.flatMap blocks).map .ok)) :=
    gives_chunkReaders (by simpa using h)
  have htip : GetTip pr dir decode _ := .some (by rw [hstack]; rfl) hgives
  rwa [Trace.last_ofList, List.reverse_singleton, List.flatMap_singleton, List.getLast?_map] at htip

theorem tipPoint_concat {init : List Bytes} {block : Bytes} : (∃ tip : Option Point,
    tipPoint decode (.ok ((init ++ [block]).getLast?.map .ok)) = .ok tip) ↔ ∃ point, decode block = .ok point := by
  rw [List.getLast?_append_of_ne_nil _ (List.cons_ne_nil _ _)]
  rcases hdecode : decode block with e | ⟨slot, hash⟩ <;> simp [tipPoint, hdecode]

/-- The tip is that of the last block exactly where the newest chunk holds a block and its last one decodes, or no chunk
holds one. -/
theorem tipIsLast_iff (h : ∀ name ∈ buildStackOfChunkNames dir, ReadsAs pr (dir.files name) (blocks name)) :
    TipIsLast pr dir decode ↔ ∀ newest ∈ (buildStackOfChunkNames dir).head?,
      (∃ block ∈ (blocks newest).getLast?, ∃ point, decode block = .ok point) ∨
        ∀ name ∈ buildStackOfChunkNames dir, blocks name = [] := by
  have hread : Gives (nextBlock pr dir) (readBlocks dir) _ := gives_chunkReaders h
  have hiff : TipIsLast pr dir decode ↔ ∃ tip, tipPoint decode
      (.ok (((buildStackOfChunkNames dir).reverse.flatMap blocks).getLast?.map .ok)) = .ok tip ∧
        GetTip pr dir decode (.ok tip) := by
    refine ⟨?_, fun ⟨tip, hpoint, htip⟩ => ⟨_, tip, hread, hpoint, htip⟩⟩
    rintro ⟨found, tip, hgives, hpoint, htip⟩
    have hitems := congrArg Trace.items (hgives.unique hread)
    rw [Trace.items_ofList, Trace.items_ofList] at hitems
    rw [List.map_injective_iff.2 (fun _ _ => Except.ok.inj) hitems] at hpoint
    exact ⟨tip, hpoint, htip⟩
  rw [hiff]
  rcases hstack : buildStackOfChunkNames dir with _ | ⟨name, rest⟩
  · exact iff_of_true ⟨none, rfl, .none (by rw [hstack]; rfl)⟩ nofun
  · have hnewest : GetTip pr dir decode _ := getTip_newest hstack (h name (by simp [hstack]))
    rw [List.reverse_cons, List.flatMap_append, List.flatMap_singleton]
    simp only [List.head?_cons, Option.mem_def, Option.some.injEq, forall_eq']
    rcases (blocks name).eq_nil_or_concat with hempty | ⟨init, block, hblocks⟩
    · -- the tip is then none, which it should only be when nothing is read
      rw [hempty] at hnewest
      have hnone : (∃ tip, tipPoint decode (.ok ((rest.reverse.flatMap blocks).getLast?.map .ok)) = .ok tip ∧
          GetTip pr dir decode (.ok tip)) ↔
          tipPoint decode (.ok ((rest.reverse.flatMap blocks).getLast?.map .ok)) = .ok none := by
        refine ⟨fun ⟨tip, hpoint, htip⟩ => ?_, fun hpoint => ⟨none, hpoint, hnewest⟩⟩
        rw [hpoint, htip.unique hnewest]
        rfl
      simp only [hempty, List.append_nil, List.getLast?_nil, List.forall_mem_cons, true_and]
      rw [hnone, tipPoint_eq_none, List.flatMap_eq_nil_iff]
      simp
    · -- the tip is that of the newest chunk, which is the last one read
      rw [hblocks, List.concat_eq_append] at hnewest ⊢
      rw [← List.append_assoc]
      have hlast : ((rest.reverse.flatMap blocks ++ init) ++ [block]).getLast? = (init ++ [block]).getLast? := by simp
      rw [hlast]
      have hholds : blocks name ≠ [] := by simp [hblocks]
      constructor
      · rintro ⟨tip, hpoint, -⟩
        exact .inl ⟨block, by simp, tipPoint_concat.1 ⟨tip, hpoint⟩⟩
      · rintro (⟨last, hmem, hdecodes⟩ | hall)
        · obtain rfl : block = last := by simpa using hmem
          have htip : ∃ tip : Option Point,
              tipPoint decode (.ok ((init ++ [block]).getLast?.map .ok)) = .ok tip := tipPoint_concat.2 hdecodes
          obtain ⟨tip, hpoint⟩ := htip
          exact ⟨tip, hpoint, hpoint ▸ hnewest⟩
        · exact absurd (hall name (by simp)) hholds

end

/-! ### Two chunks, and a third that is left out -/

/-- A chunk of one block, written for one slot. -/
def oneBlock : ChunkFiles :=
  ⟨some ⟨[1, 0, 0, 0, 0, 0, 0, 0, 56], by decide⟩, some ⟨List.replicate 56 0, by decide⟩, some ⟨[7], by decide⟩⟩

/-- A chunk of one slot, which is not occupied. -/
def noBlock : ChunkFiles := ⟨some ⟨[1, 0, 0, 0, 0, 0, 0, 0, 0], by decide⟩, some ⟨[], by decide⟩, some ⟨[], by decide⟩⟩

theorem readsAs_oneBlock : ReadsAs .debug oneBlock [[7]] := by
  have hconsistent : Consistent ⟨[1, 0, 0, 0, 0, 0, 0, 0, 56], by decide⟩ ⟨List.replicate 56 0, by decide⟩
      ⟨[7], by decide⟩ := by
    refine ⟨nofun, by decide, ?_, by decide, by decide, by decide⟩
    have hspans : Primary.spans (Primary.offsets [0, 0, 0, 0, 0, 0, 0, 56]) = [(0, 56)] := by decide
    intro span hspan _
    rw [List.tail_cons, hspans] at hspan
    obtain rfl := List.mem_singleton.1 hspan
    exact ⟨by decide, by decide⟩
  exact hconsistent.gives_blocks (.inr (by decide))

theorem readsAs_noBlock : ReadsAs .debug noBlock [] := by
  have hconsistent : Consistent ⟨[1, 0, 0, 0, 0, 0, 0, 0, 0], by decide⟩ ⟨[], by decide⟩ ⟨[], by decide⟩ :=
    consistent_replicate (n := 1) rfl
  exact hconsistent.gives_blocks (.inr (by decide))

/-- Three chunks, of which the last by name is left out. -/
def threeChunks (first second : ChunkFiles) : Directory where
  names := ["00001", "00002", "00000"]
  files name := if name = "00000" then first else second

theorem stack_threeChunks (first second : ChunkFiles) :
    buildStackOfChunkNames (threeChunks first second) = ["00001", "00000"] := by
  have hsorted : ["00001", "00002", "00000"].mergeSort (· ≤ ·) = ["00000", "00001", "00002"] := by
    simp +decide [List.mergeSort, List.MergeSort.Internal.splitInTwo]
  rw [buildStackOfChunkNames, threeChunks, hsorted]
  rfl

theorem readsAs_threeChunks {first second : ChunkFiles} {bs cs : List Bytes} (hfirst : ReadsAs .debug first bs)
    (hsecond : ReadsAs .debug second cs) : ∀ name ∈ buildStackOfChunkNames (threeChunks first second),
      ReadsAs .debug ((threeChunks first second).files name) (if name = "00000" then bs else cs) := by
  intro name _
  by_cases hname : name = "00000"
  · simpa [threeChunks, hname] using hfirst
  · simpa [threeChunks, hname] using hsecond

/-- The tip of two chunks of one block each. -/
theorem tipIsLast_oneBlock :
    TipIsLast .debug (threeChunks oneBlock oneBlock) (fun _ => (.ok (5, [1]) : Except Unit (UInt64 × Bytes))) := by
  refine (tipIsLast_iff (readsAs_threeChunks readsAs_oneBlock readsAs_oneBlock)).2 fun newest _ => .inl ?_
  exact ⟨[7], by simp, (5, [1]), rfl⟩

/-- There is a block, and no tip. -/
theorem no_tip_above_block : ¬ ∀ (dir : Directory) (decode : Bytes → Except Unit (UInt64 × Bytes)),
    (∀ name ∈ buildStackOfChunkNames dir, ∃ blocks, ReadsAs .debug (dir.files name) blocks) →
      TipIsLast .debug dir decode := by
  intro h
  have hreads := readsAs_threeChunks readsAs_oneBlock readsAs_noBlock
  have htip := h (threeChunks oneBlock noBlock) (fun _ => .ok (5, [1])) fun name hname => ⟨_, hreads name hname⟩
  rcases (tipIsLast_iff hreads).1 htip "00001" (by rw [stack_threeChunks]; rfl) with ⟨last, hlast, -⟩ | hall
  · cases hlast
  · exact absurd (hall "00000" (by rw [stack_threeChunks]; simp)) (by simp)

end Pallas.Immutable
