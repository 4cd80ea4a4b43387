import Pallas.Immutable.ChunkSearch
import Pallas.Immutable.Tip

/-!
# Reading from a point (`storage/immutable/mod.rs`)

`read_blocks_from_point` looks for the chunk that may hold a point by the first block of each, drops the chunks below it,
and reads the rest up to the point. On a chain whose chunks follow one another this comes to the plain search of all the
blocks that `read_blocks` gives (`blocksFrom`), except below the first block of the chain (`BelowChain`), where nothing is
found even when any block from the slot on would do.

A chunk without a block compares as above every slot, so such chunks must be newer than those that hold one.
-/

namespace Pallas.Immutable
open Iterators

/-- What a `MultiEraBlock` is asked for here. -/
structure BlockHeader where
  slot : UInt64
  number : UInt64
  hash : Bytes
  deriving DecidableEq

/-- The errors of `read_blocks_from_point` on a directory that can be read. -/
inductive PointError (δ : Type) where
  | cannotFindBlock (point : Point)
  | originMissing
  | cannotDecodeBlock (e : δ)
  | chunkReadError (e : Chunk.Error)
  deriving DecidableEq

abbrev FallibleBlock : Type := Except Chunk.Error Bytes

section
variable {δ : Type} (pr : Profile) (dir : Directory) (decode : Bytes → Except δ BlockHeader)

/-- The last comparison of `iterate_till_point`; no hash stands for any. -/
def BlockHeader.matches (block : BlockHeader) (slot : UInt64) (blockHash : Bytes) : Prop :=
  (blockHash = [] ∧ slot ≤ block.slot) ∨ (block.hash = blockHash ∧ block.slot = slot)

instance (block : BlockHeader) (slot : UInt64) (blockHash : Bytes) : Decidable (block.matches slot blockHash) :=
  inferInstanceAs (Decidable (_ ∨ _))

def iterateTillPoint (slot : UInt64) (blockHash : Bytes) :
    Trace FallibleBlock → Outcome (PointError δ) (Trace FallibleBlock)
  | .done => .ok .done
  | .panic => .panic
  | .item (.error e) rest => .ok (.item (.error e) rest)
  | .item (.ok data) rest => match decode data with
    | .error e => .err (.cannotDecodeBlock e)
    | .ok block =>
      if block.slot < slot then iterateTillPoint slot blockHash rest
      else if block.matches slot blockHash then .ok (.item (.ok data) rest)
      else .err (.cannotFindBlock (.specific slot blockHash))

/-- The branch for the origin: the first block must be that of the genesis. -/
def iterateFromOrigin : Trace FallibleBlock → Outcome (PointError δ) (Trace FallibleBlock)
  | .done => .ok .done
  | .panic => .panic
  | .item (.error e) rest => .ok (.item (.error e) rest)
  | .item (.ok data) rest => match decode data with
    | .error e => .err (.cannotDecodeBlock e)
    | .ok block => if block.slot = 0 ∧ block.number = 0 then .ok (.item (.ok data) rest) else .err .originMissing

/-- `cmp`: the first block of a chunk against a slot. An error is none where the comparison panics. -/
def compareFirst (name : String) (slot : UInt64) : Except (Option (PointError δ)) Ordering :=
  match Chunk.readBlocks pr (dir.files name) with
  | .panic => .error none
  | .err e => .error (some (.chunkReadError e))
  | .ok blocks => match blocks.nextBlock pr with
    | .panic => .error none
    | .ok (none, _) => .ok .gt
    | .ok (some (.error e), _) => .error (some (.chunkReadError e))
    | .ok (some (.ok data), _) => match decode data with
      | .error e => .error (some (.cannotDecodeBlock e))
      | .ok block => .ok (compare block.slot slot)

/-- The chunk that may hold a slot. -/
def chunkOf (slot : UInt64) : Outcome (Option (PointError δ)) (Option ℕ) :=
  chunkBinarySearch (buildStackOfChunkNames dir) slot (compareFirst pr dir decode)

/-- `read_blocks_from_point` returns this. -/
inductive ReadBlocksFromPoint : Point → Outcome (PointError δ) (Trace FallibleBlock) → Prop where
  | origin {tr : Trace FallibleBlock} : Gives (nextBlock pr dir) (readBlocks dir) tr →
      ReadBlocksFromPoint .origin (iterateFromOrigin decode tr)
  | found {slot : UInt64} {blockHash : Bytes} {chunkIndex : ℕ} {tr : Trace FallibleBlock} :
      chunkOf pr dir decode slot = .ok (some chunkIndex) →
      Gives (nextBlock pr dir) (chunkReaders ((buildStackOfChunkNames dir).take (chunkIndex + 1))) tr →
      ReadBlocksFromPoint (.specific slot blockHash) (iterateTillPoint decode slot blockHash tr)
  | notFound {slot : UInt64} {blockHash : Bytes} : chunkOf pr dir decode slot = .ok none →
      ReadBlocksFromPoint (.specific slot blockHash) (.err (.cannotFindBlock (.specific slot blockHash)))
  | fails {slot : UInt64} {blockHash : Bytes} {e : PointError δ} : chunkOf pr dir decode slot = .err (some e) →
      ReadBlocksFromPoint (.specific slot blockHash) (.err e)
  | comparePanics {slot : UInt64} {blockHash : Bytes} : chunkOf pr dir decode slot = .err none →
      ReadBlocksFromPoint (.specific slot blockHash) .panic
  | searchPanics {slot : UInt64} {blockHash : Bytes} : chunkOf pr dir decode slot = .panic →
      ReadBlocksFromPoint (.specific slot blockHash) .panic

variable {pr dir decode}

theorem ReadBlocksFromPoint.unique {point : Point} {r r' : Outcome (PointError δ) (Trace FallibleBlock)}
    (h : ReadBlocksFromPoint pr dir decode point r) (h' : ReadBlocksFromPoint pr dir decode point r') : r = r' := by
  cases h with
  | origin hgives =>
    cases h' with
    | origin hgives' => rw [hgives.unique hgives']
  | found hchunk hgives =>
    cases h' with
    | found hchunk' hgives' =>
      cases hchunk.symm.trans hchunk'
      rw [hgives.unique hgives']
    | _ hchunk' => cases hchunk.symm.trans hchunk'
  | notFound hchunk =>
    cases h' with
    | notFound _ => rfl
    | _ hchunk' => cases hchunk.symm.trans hchunk'
  | fails hchunk =>
    cases h' with
    | fails hchunk' =>
      cases hchunk.symm.trans hchunk'
      rfl
    | _ hchunk' => cases hchunk.symm.trans hchunk'
  | comparePanics hchunk =>
    cases h' with
    | comparePanics _ => rfl
    | searchPanics _ => rfl
    | _ hchunk' => cases hchunk.symm.trans hchunk'
  | searchPanics hchunk =>
    cases h' with
    | comparePanics _ => rfl
    | searchPanics _ => rfl
    | _ hchunk' => cases hchunk.symm.trans hchunk'

end

/-! ### The plain search -/

section plain
variable {δ : Type} {decode : Bytes → Except δ BlockHeader} (header : Bytes → BlockHeader) (chain : List Bytes)

/-- The blocks of a chain from a point on. The search ends at the first block that is not below it. Where every block is
below it, none is left. -/
def blocksFrom : Point → Outcome (PointError δ) (List Bytes)
  | .origin =>
    if ∀ block ∈ chain.head?, (header block).slot = 0 ∧ (header block).number = 0 then .ok chain else .err .originMissing
  | .specific slot blockHash =>
    let rest := chain.dropWhile fun block => (header block).slot < slot
    if ∀ block ∈ rest.head?, (header block).matches slot blockHash then .ok rest
    else .err (.cannotFindBlock (.specific slot blockHash))

/-- The points below the first block of a chain, and all points but the origin if there is no block. -/
def BelowChain : Point → Prop
  | .origin => False
  | .specific slot _ => ∀ first ∈ chain.head?, slot < (header first).slot

instance : DecidablePred (BelowChain header chain)
  | .origin => inferInstanceAs (Decidable False)
  | .specific slot _ => inferInstanceAs (Decidable (∀ first ∈ chain.head?, slot < (header first).slot))

/-- What is found on a chain: nothing below its first block, and what the plain search finds elsewhere. -/
def foundFrom (point : Point) : Outcome (PointError δ) (List Bytes) :=
  if BelowChain header chain point then .err (.cannotFindBlock point) else blocksFrom header chain point

variable {header chain}

theorem iterateFromOrigin_ofList (hdecode : ∀ block ∈ chain, decode block = .ok (header block)) :
    iterateFromOrigin decode (.ofList (chain.map .ok)) =
      (fun bs => .ofList (bs.map .ok)) <$> blocksFrom header chain .origin := by
  cases chain with
  | nil => simp [iterateFromOrigin, blocksFrom, Trace.ofList, Functor.map]
  | cons block rest =>
    simp only [List.map_cons, Trace.ofList, iterateFromOrigin, hdecode block (by simp), blocksFrom, List.head?_cons,
      Option.mem_def, Option.some.injEq, forall_eq']
    split_ifs
    · simp [Functor.map, Trace.ofList]
    · rfl

theorem iterateTillPoint_ofList {slot : UInt64} {blockHash : Bytes}
    (hdecode : ∀ block ∈ chain, decode block = .ok (header block)) :
    iterateTillPoint decode slot blockHash (.ofList (chain.map .ok)) =
      if ∀ block ∈ (chain.dropWhile fun block => (header block).slot < slot).head?,
          (header block).matches slot blockHash then
        .ok (.ofList ((chain.dropWhile fun block => (header block).slot < slot).map .ok))
      else .err (.cannotFindBlock (.specific slot blockHash)) := by
  induction chain with
  | nil => simp [iterateTillPoint, Trace.ofList]
  | cons block rest ih =>
    have hrest := ih fun b hb => hdecode b (by simp [hb])
    simp only [List.map_cons, Trace.ofList, iterateTillPoint, hdecode block (by simp)]
    by_cases hlt : (header block).slot < slot
    · rw [if_pos hlt, hrest, List.dropWhile_cons_of_pos (by simpa using hlt)]
    · rw [if_neg hlt, List.dropWhile_cons_of_neg (by simpa using hlt)]
      simp only [List.head?_cons, Option.mem_def, Option.some.injEq, forall_eq', List.map_cons, Trace.ofList]

theorem foundFrom_eq {before after : List Bytes} {block : Bytes} (hchain : chain = before ++ block :: after)
    (hbefore : ∀ b ∈ before, (header b).slot < (header block).slot) :
    (foundFrom header chain (.specific (header block).slot (header block).hash) : Outcome (PointError δ) _) =
      .ok (block :: after) := by
  have hdrop : (chain.dropWhile fun b => (header b).slot < (header block).slot) = block :: after := by
    rw [hchain, List.dropWhile_append_of_pos (by simpa using hbefore), List.dropWhile_cons_of_neg (by simp)]
  have hfirst : ¬ BelowChain header chain (.specific (header block).slot (header block).hash) := by
    rw [hchain]
    intro hbelow
    cases before with
    | nil => exact absurd (hbelow block rfl) (UInt64.lt_irrefl _)
    | cons first more => exact absurd (hbelow first rfl) (UInt64.lt_asymm (hbefore first (by simp)))
  simp only [foundFrom, if_neg hfirst, blocksFrom, hdrop]
  rw [if_pos]
  simp [BlockHeader.matches]

end plain

/-! ### A search in other chunks -/

section search
variable {α ChunkT PointT ε : Type} {cmp : ChunkT → PointT → Except ε Ordering} {point : PointT}

theorem searchLoop_map (f : α → ChunkT) (items : List α) (left right : ℕ) :
    searchLoop (items.map f) point cmp left right = searchLoop items point (fun a => cmp (f a)) left right := by
  induction hsize : right - left using Nat.strong_induction_on generalizing left right with
  | _ size ih =>
    rw [searchLoop, searchLoop]
    by_cases hlt : right < left
    · rw [if_pos hlt, if_pos hlt]
    rw [if_neg hlt, if_neg hlt, List.length_map]
    by_cases hsome : 0 < right - left
    · simp only [if_pos hsome, List.getElem?_map]
      cases hitem : items[left + (right - left) / 2]? with
      | none => rfl
      | some a =>
        rcases hcmp : cmp (f a) point with e | (_ | _ | _)
        · simp [hcmp]
        · simpa [hcmp] using ih _ (by omega) _ _ rfl
        · simp [hcmp]
        · simpa [hcmp] using ih _ (by omega) _ _ rfl
    · simp only [if_neg hsome]

theorem chunkBinarySearch_map (f : α → ChunkT) (items : List α) :
    chunkBinarySearch (items.map f) point cmp = chunkBinarySearch items point (fun a => cmp (f a)) := by
  rw [chunkBinarySearch, chunkBinarySearch, List.length_map, searchLoop_map]

end search

/-! ### Chunks that follow one another -/

/-- The chunks of a directory read, their blocks decode, and they are in the order of their slots: from chunk to chunk the
slots increase, within a chunk they do not decrease. Chunks without a block are newer than those with one. -/
structure InOrder {δ : Type} (pr : Profile) (dir : Directory) (decode : Bytes → Except δ BlockHeader)
    (blocks : String → List Bytes) (header : Bytes → BlockHeader) : Prop where
  reads : ∀ name ∈ buildStackOfChunkNames dir, ReadsAs pr (dir.files name) (blocks name)
  decodes : ∀ name ∈ buildStackOfChunkNames dir, ∀ block ∈ blocks name, decode block = .ok (header block)
  within : ∀ name ∈ buildStackOfChunkNames dir,
    (blocks name).Pairwise fun block next => (header block).slot ≤ (header next).slot
  across : (buildStackOfChunkNames dir).Pairwise fun newer older =>
    ∀ block ∈ blocks older, ∀ next ∈ blocks newer, (header block).slot < (header next).slot
  holds : (buildStackOfChunkNames dir).Pairwise fun newer older => blocks newer ≠ [] → blocks older ≠ []

/-- All the blocks of a directory. -/
def chainOf (dir : Directory) (blocks : String → List Bytes) : List Bytes :=
  (buildStackOfChunkNames dir).reverse.flatMap blocks

/-- What a chunk is searched by: the slot of its first block. A chunk without a block is above every slot. -/
def firstSlot (header : Bytes → BlockHeader) (blocks : String → List Bytes) (count : ℕ) (chunk : String × ℕ) : ℕ :=
  match (blocks chunk.1).head? with
  | some block => (header block).slot.toNat
  | none => 2 ^ 64 + (count - chunk.2)

namespace InOrder
variable {δ : Type} {pr : Profile} {dir : Directory} {decode : Bytes → Except δ BlockHeader}
  {blocks : String → List Bytes} {header : Bytes → BlockHeader} {slot : UInt64} {blockHash : Bytes}

theorem compare_slots (a b : UInt64) : compare a b = compare a.toNat b.toNat := by
  rcases lt_trichotomy a.toNat b.toNat with h | h | h
  · rw [Nat.compare_eq_lt.2 h]
    exact Std.compare_eq_lt.2 h
  · obtain rfl := UInt64.toNat_inj.1 h
    rw [Nat.compare_eq_eq.2 rfl]
    exact Std.ReflCmp.compare_self
  · rw [Nat.compare_eq_gt.2 h]
    exact Std.compare_eq_gt.2 h

theorem firstSlot_le (h : InOrder pr dir decode blocks header) {name : String} {i count : ℕ} {block : Bytes}
    (hname : name ∈ buildStackOfChunkNames dir) (hblock : block ∈ blocks name) :
    firstSlot header blocks count (name, i) ≤ (header block).slot.toNat := by
  have hwithin := h.within name hname
  cases hblocks : blocks name with
  | nil => simp [hblocks] at hblock
  | cons first rest =>
    rw [hblocks] at hwithin hblock
    simp only [firstSlot, hblocks, List.head?_cons]
    rcases List.mem_cons.1 hblock with rfl | hrest
    · exact le_rfl
    · exact UInt64.le_iff_toNat_le.1 ((List.pairwise_cons.1 hwithin).1 block hrest)

theorem firstSlot_desc (h : InOrder pr dir decode blocks header) :
    (buildStackOfChunkNames dir).zipIdx.Pairwise fun a b =>
      firstSlot header blocks (buildStackOfChunkNames dir).length b <
        firstSlot header blocks (buildStackOfChunkNames dir).length a := by
  rw [List.pairwise_iff_getElem]
  intro i j hi hj hij
  rw [List.length_zipIdx] at hi hj
  simp only [List.getElem_zipIdx, Nat.zero_add]
  have hacross := List.pairwise_iff_getElem.1 h.across i j hi hj hij
  have hholds := List.pairwise_iff_getElem.1 h.holds i j hi hj hij
  cases hnewer : blocks (buildStackOfChunkNames dir)[i] with
  | nil =>
    simp only [firstSlot, hnewer, List.head?_nil]
    cases blocks (buildStackOfChunkNames dir)[j] with
    | nil =>
      simp only [List.head?_nil]
      omega
    | cons block rest =>
      have hlt := (header block).slot.toNat_lt
      simp only [List.head?_cons]
      omega
  | cons block rest =>
    obtain ⟨first, more, holder⟩ := List.exists_cons_of_ne_nil (hholds (by simp [hnewer]))
    simp only [firstSlot, hnewer, holder, List.head?_cons]
    exact UInt64.lt_iff_toNat_lt.1 (hacross first (by simp [holder]) block (by simp [hnewer]))

theorem compareFirst_eq (h : InOrder pr dir decode blocks header) {name : String} {i count : ℕ}
    (hname : name ∈ buildStackOfChunkNames dir) :
    compareFirst pr dir decode name slot = .ok (compare (firstSlot header blocks count (name, i)) slot.toNat) := by
  obtain ⟨r, hopen, hgives⟩ := h.reads name hname
  have hdecodes := h.decodes name hname
  cases hblocks : blocks name with
  | nil =>
    rw [hblocks] at hgives
    cases hgives with
    | done hn =>
      have hlt := slot.toNat_lt
      have hgt : compare (2 ^ 64 + (count - i)) slot.toNat = .gt := compare_gt_iff_gt.2 (by omega)
      simp only [compareFirst, hopen, hn, firstSlot, hblocks, List.head?_nil, hgt]
  | cons block rest =>
    rw [hblocks] at hgives hdecodes
    cases hgives with
    | item hn _ =>
      simp only [compareFirst, hopen, hn, hdecodes block (by simp), firstSlot, hblocks, List.head?_cons,
        compare_slots]

theorem exists_chunkOf_eq (h : InOrder pr dir decode blocks header) (slot : UInt64) :
    ∃ found, chunkOf pr dir decode slot = .ok found ∧
    Found (firstSlot header blocks (buildStackOfChunkNames dir).length) slot.toNat
      (buildStackOfChunkNames dir).zipIdx found := by
  have hcmp : ∀ chunk ∈ (buildStackOfChunkNames dir).zipIdx, compareFirst pr dir decode chunk.1 slot =
      .ok (compare (firstSlot header blocks (buildStackOfChunkNames dir).length chunk) slot.toNat) := by
    rintro ⟨name, i⟩ hchunk
    exact h.compareFirst_eq (List.fst_mem_of_mem_zipIdx hchunk)
  have hsame : ∀ chunk ∈ (buildStackOfChunkNames dir).zipIdx, ∀ o, compareFirst pr dir decode chunk.1 slot = .ok o →
      o = compare (firstSlot header blocks (buildStackOfChunkNames dir).length chunk) slot.toNat := by
    intro chunk hchunk o ho
    exact (Except.ok.inj ((hcmp chunk hchunk).symm.trans ho)).symm
  obtain ⟨hpanic, hfound, herr⟩ := chunkBinarySearch_spec h.firstSlot_desc hsame
  have hmap : chunkOf pr dir decode slot = chunkBinarySearch (buildStackOfChunkNames dir).zipIdx slot
      fun chunk => compareFirst pr dir decode chunk.1 := by
    rw [← chunkBinarySearch_map, List.zipIdx_map_fst]
    rfl
  rw [hmap]
  rcases hsearch : chunkBinarySearch (buildStackOfChunkNames dir).zipIdx slot
      fun chunk => compareFirst pr dir decode chunk.1 with found | e | _
  · exact ⟨found, rfl, hfound found hsearch⟩
  · obtain ⟨i, chunk, -, hchunk, he⟩ := (herr e).1 hsearch
    cases (hcmp chunk (List.mem_of_getElem? hchunk)).symm.trans he
  · exact absurd hsearch hpanic

theorem gives_chainOf (h : InOrder pr dir decode blocks header) :
    Gives (nextBlock pr dir) (readBlocks dir) (.ofList ((chainOf dir blocks).map .ok)) :=
  gives_chunkReaders h.reads

theorem decodes_chainOf (h : InOrder pr dir decode blocks header) :
    ∀ block ∈ chainOf dir blocks, decode block = .ok (header block) := by
  intro block hblock
  obtain ⟨name, hname, hmem⟩ := List.mem_flatMap.1 hblock
  exact h.decodes name (List.mem_reverse.1 hname) block hmem

theorem foundFrom_of_notFound (h : InOrder pr dir decode blocks header)
    (habove : ∀ chunk ∈ (buildStackOfChunkNames dir).zipIdx,
      slot.toNat < firstSlot header blocks (buildStackOfChunkNames dir).length chunk) :
    (foundFrom header (chainOf dir blocks) (.specific slot blockHash) : Outcome (PointError δ) _) =
      .err (.cannotFindBlock (.specific slot blockHash)) := by
  rw [foundFrom, if_pos]
  intro first hfirst
  obtain ⟨name, hname, hmem⟩ := List.mem_flatMap.1 (List.mem_of_mem_head? hfirst)
  obtain ⟨i, hi⟩ := List.mem_iff_getElem?.1 (List.mem_reverse.1 hname)
  have hlt := habove (name, i) (List.mem_zipIdx_iff_getElem?.2 hi)
  have hfirstSlot : firstSlot header blocks (buildStackOfChunkNames dir).length (name, i) ≤ (header first).slot.toNat :=
    h.firstSlot_le (List.mem_reverse.1 hname) hmem
  exact UInt64.lt_iff_toNat_lt.2 (hlt.trans_le hfirstSlot)

theorem foundFrom_of_found (h : InOrder pr dir decode blocks header) {newer older : List String} {name : String}
    (hstack : buildStackOfChunkNames dir = newer ++ name :: older) {first : Bytes} {rest : List Bytes}
    (hblocks : blocks name = first :: rest) (hle : (header first).slot ≤ slot) :
    (fun bs => Trace.ofList (bs.map .ok)) <$> foundFrom header (chainOf dir blocks) (.specific slot blockHash) =
      iterateTillPoint decode slot blockHash (.ofList (((newer ++ [name]).reverse.flatMap blocks).map .ok)) := by
  have hchain : chainOf dir blocks = older.reverse.flatMap blocks ++ (newer ++ [name]).reverse.flatMap blocks := by
    simp [chainOf, hstack]
  have hacross := h.across
  rw [hstack, List.pairwise_append] at hacross
  have holder : ∀ block ∈ older.reverse.flatMap blocks, (header block).slot < slot := by
    intro block hblock
    obtain ⟨below, hbelow, hmem⟩ := List.mem_flatMap.1 hblock
    have hlt := (List.pairwise_cons.1 hacross.2.1).1 below (List.mem_reverse.1 hbelow) block hmem first (by simp [hblocks])
    exact UInt64.lt_of_lt_of_le hlt hle
  have hdecodes : ∀ block ∈ (newer ++ [name]).reverse.flatMap blocks, decode block = .ok (header block) := by
    intro block hblock
    refine h.decodes_chainOf block ?_
    rw [hchain]
    exact List.mem_append_right _ hblock
  have hfirst : ¬ BelowChain header (chainOf dir blocks) (.specific slot blockHash) := by
    rw [hchain]
    intro habove
    cases hbelow : older.reverse.flatMap blocks with
    | nil =>
      rw [hbelow] at habove
      exact absurd (habove first (by simp [hblocks])) (UInt64.not_lt.2 hle)
    | cons block more =>
      rw [hbelow] at habove
      exact absurd (habove block rfl) (UInt64.lt_asymm (holder block (by simp [hbelow])))
  have hdrop : ((chainOf dir blocks).dropWhile fun block => (header block).slot < slot) =
      (((newer ++ [name]).reverse.flatMap blocks).dropWhile fun block => (header block).slot < slot) := by
    rw [hchain, List.dropWhile_append_of_pos (by simpa using holder)]
  rw [iterateTillPoint_ofList hdecodes]
  simp only [foundFrom, if_neg hfirst, blocksFrom, hdrop]
  split_ifs
  · rfl
  · rfl

theorem readBlocksFromPoint_foundFrom (h : InOrder pr dir decode blocks header) (point : Point) :
    ReadBlocksFromPoint pr dir decode point
      ((fun bs => .ofList (bs.map .ok)) <$> foundFrom header (chainOf dir blocks) point) := by
  cases point with
  | origin =>
    have hnot : ¬ BelowChain header (chainOf dir blocks) .origin := id
    rw [foundFrom, if_neg hnot, ← iterateFromOrigin_ofList h.decodes_chainOf]
    exact .origin h.gives_chainOf
  | specific slot blockHash =>
    obtain ⟨found, hchunk, hfound⟩ := h.exists_chunkOf_eq slot
    cases found with
    | none =>
      rw [h.foundFrom_of_notFound (hfound.none_iff.1 rfl)]
      exact .notFound hchunk
    | some i =>
      obtain ⟨⟨name, j⟩, hitem, ⟨-, -, -, hle⟩, -⟩ := hfound.greatest i rfl
      obtain ⟨hname, rfl⟩ : (buildStackOfChunkNames dir)[i]? = some name ∧ j = i := by
        simpa [List.getElem?_zipIdx, eq_comm, and_comm] using hitem
      obtain ⟨hlt, hget⟩ := List.getElem?_eq_some_iff.1 hname
      have htake : (buildStackOfChunkNames dir).take (j + 1) = (buildStackOfChunkNames dir).take j ++ [name] := by
        rw [List.take_add_one, hname, Option.toList_some]
      have hstack : buildStackOfChunkNames dir =
          (buildStackOfChunkNames dir).take j ++ name :: (buildStackOfChunkNames dir).drop (j + 1) := by
        rw [← hget, List.getElem_cons_drop, List.take_append_drop]
      -- a chunk without a block is above every slot
      cases hblocks : blocks name with
      | nil =>
        have hslot := slot.toNat_lt
        simp only [firstSlot, hblocks, List.head?_nil] at hle
        omega
      | cons first rest =>
        simp only [firstSlot, hblocks, List.head?_cons] at hle
        rw [h.foundFrom_of_found hstack hblocks (UInt64.le_iff_toNat_le.2 hle)]
        refine .found hchunk ?_
        rw [htake]
        refine gives_chunkReaders fun name' hname' => h.reads name' ?_
        exact List.mem_of_mem_take (htake ▸ hname')

theorem readBlocksFromPoint_block (h : InOrder pr dir decode blocks header) {before after : List Bytes} {block : Bytes}
    (hchain : chainOf dir blocks = before ++ block :: after)
    (hbefore : ∀ b ∈ before, (header b).slot < (header block).slot) :
    ReadBlocksFromPoint pr dir decode (.specific (header block).slot (header block).hash)
      (.ok (.ofList ((block :: after).map .ok))) := by
  have hread := h.readBlocksFromPoint_foundFrom (.specific (header block).slot (header block).hash)
  rwa [foundFrom_eq hchain hbefore] at hread

end InOrder

/-- On a chain in order, `read_blocks_from_point` returns what the plain search of all the blocks returns, but an error at
every point below the first block. -/
theorem readBlocksFromPoint_iff {δ : Type} {pr : Profile} {dir : Directory} {decode : Bytes → Except δ BlockHeader}
    {blocks : String → List Bytes} {header : Bytes → BlockHeader} (h : InOrder pr dir decode blocks header) (point : Point)
    (r : Outcome (PointError δ) (Trace FallibleBlock)) :
    ReadBlocksFromPoint pr dir decode point r ↔
      r = if BelowChain header (chainOf dir blocks) point then .err (.cannotFindBlock point)
        else (fun bs => .ofList (bs.map .ok)) <$> blocksFrom header (chainOf dir blocks) point := by
  have hread := h.readBlocksFromPoint_foundFrom point
  rw [foundFrom, apply_ite (Functor.map _)] at hread
  constructor
  · exact fun hr => hr.unique hread
  · rintro rfl
    exact hread

theorem inOrder_oneBlock : InOrder .debug (threeChunks oneBlock noBlock)
    (fun _ => (.ok ⟨5, 0, [1]⟩ : Except Unit BlockHeader)) (fun name => if name = "00000" then [[7]] else [])
    (fun _ => ⟨5, 0, [1]⟩) where
  reads := readsAs_threeChunks readsAs_oneBlock readsAs_noBlock
  decodes _ _ _ _ := rfl
  within name _ := by split_ifs <;> simp
  across := by simp [stack_threeChunks]
  holds := by simp [stack_threeChunks]

/-- The block is read from its point on, and from its slot on; nothing is found at its slot with another hash, nor at a
slot below it with any. -/
theorem readBlocksFromPoint_oneBlock :
    ReadBlocksFromPoint .debug (threeChunks oneBlock noBlock) (fun _ => (.ok ⟨5, 0, [1]⟩ : Except Unit BlockHeader))
      (.specific 5 [1]) (.ok (.item (.ok [7]) .done)) ∧
    ReadBlocksFromPoint .debug (threeChunks oneBlock noBlock) (fun _ => (.ok ⟨5, 0, [1]⟩ : Except Unit BlockHeader))
      (.specific 5 []) (.ok (.item (.ok [7]) .done)) ∧
    ReadBlocksFromPoint .debug (threeChunks oneBlock noBlock) (fun _ => (.ok ⟨5, 0, [1]⟩ : Except Unit BlockHeader))
      (.specific 5 [2]) (.err (.cannotFindBlock (.specific 5 [2]))) ∧
    ReadBlocksFromPoint .debug (threeChunks oneBlock noBlock) (fun _ => (.ok ⟨5, 0, [1]⟩ : Except Unit BlockHeader))
      (.specific 3 []) (.err (.cannotFindBlock (.specific 3 []))) := by
  have hchain : chainOf (threeChunks oneBlock noBlock) (fun name => if name = "00000" then [[7]] else []) = [[7]] := by
    simp [chainOf, stack_threeChunks]
  simp only [readBlocksFromPoint_iff inOrder_oneBlock, hchain]
  exact ⟨rfl, rfl, rfl, rfl⟩

end Pallas.Immutable
