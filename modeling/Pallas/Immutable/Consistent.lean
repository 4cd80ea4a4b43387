import Pallas.Immutable.Corruption

/-!
# Consistent chunks

A chunk whose indexes fit together is read back whole: one block for each occupied slot, cut at the offsets.
-/

namespace Pallas.Immutable
open Iterators

/-- The occupied slots of a primary index. -/
def File.occupiedSlots (primary : File) :
    List UInt32 := occupied (Primary.spans (Primary.offsets primary.contents.tail))

/-- Where the blocks start, by the secondary index. -/
def File.blockOffsets (primary secondary : File) : List ℕ :=
  primary.occupiedSlots.map fun offset => (Secondary.entryAt secondary.contents offset).blockOffset.toNat

/-- The secondary index has one entry for each occupied slot of the primary index, and their blocks follow one another from
the start of the chunk file. -/
structure Consistent (primary secondary chunk : File) : Prop where
  version : primary.contents ≠ []
  ordered : (Primary.offsets primary.contents.tail).IsChain (· ≤ ·)
  entries : ∀ span ∈ Primary.spans (Primary.offsets primary.contents.tail), span.2 > span.1 →
    span.1.toNat + Secondary.layoutSize ≤ span.2.toNat ∧ Secondary.Readable secondary.contents span.1
  sorted : (primary.blockOffsets secondary).IsChain (· < ·)
  start : ∀ offset ∈ (primary.blockOffsets secondary).head?, offset = 0
  within : ∀ offset ∈ primary.blockOffsets secondary, offset ≤ chunk.contents.length

/-! ### The indexes -/

section indexes
variable {contents : Bytes} {offs : List UInt32}

theorem reached_eq {slots : List (UInt32 × UInt32)}
    (h : ∀ span ∈ slots, span.2 > span.1 → Secondary.Readable contents span.1) :
    reached contents slots = slots := by
  induction slots with
  | nil => rfl
  | cons span rest ih =>
    obtain ⟨last, next⟩ := span
    rw [reached_cons (h (last, next) (by simp)), ih fun span hspan => h span (by simp [hspan])]

theorem le_head_occupied {first : UInt32} {offs : List UInt32} (h : (first :: offs).IsChain (· ≤ ·)) :
    ∀ offset ∈ (occupied (Primary.spans (first :: offs))).head?, first ≤ offset := by
  induction offs generalizing first with
  | nil => nofun
  | cons next offs ih =>
    obtain ⟨hle, hrest⟩ := List.isChain_cons_cons.1 h
    have hspans : Primary.spans (first :: next :: offs) = (first, next) :: Primary.spans (next :: offs) := rfl
    rw [hspans]
    by_cases hlt : next > first
    · rw [occupied_pos hlt]
      rintro offset ⟨⟩
      exact UInt32.le_refl first
    · rw [occupied_neg hlt]
      exact fun offset hoffset => UInt32.le_trans hle (ih hrest offset hoffset)

theorem spaced_of_ordered (h : offs.IsChain (· ≤ ·))
    (hroom : ∀ span ∈ Primary.spans offs, span.2 > span.1 → span.1.toNat + Secondary.layoutSize ≤ span.2.toNat) :
    (occupied (Primary.spans offs)).IsChain fun offset next => offset.toNat + Secondary.layoutSize ≤ next.toNat := by
  induction offs with
  | nil => exact .nil
  | cons first offs ih =>
    cases offs with
    | nil => exact .nil
    | cons next offs =>
      obtain ⟨-, hrest⟩ := List.isChain_cons_cons.1 h
      have hspans : Primary.spans (first :: next :: offs) = (first, next) :: Primary.spans (next :: offs) := rfl
      rw [hspans] at hroom ⊢
      have hchain := ih hrest fun span hspan => hroom span (by simp [hspan])
      by_cases hlt : next > first
      · rw [occupied_pos hlt]
        refine List.isChain_cons.2 ⟨fun offset hoffset => ?_, hchain⟩
        have hle : next.toNat ≤ offset.toNat := UInt32.le_iff_toNat_le.1 (le_head_occupied hrest offset hoffset)
        exact (hroom (first, next) (by simp) hlt).trans hle
      · rw [occupied_neg hlt]
        exact hchain

end indexes

/-! ### The blocks -/

/-- A file from `start`, cut at these offsets. -/
def pieces (contents : Bytes) : ℕ → List ℕ → List Bytes
  | start, [] => [contents.drop start]
  | start, next :: offsets => (contents.drop start).take (next - start) :: pieces contents next offsets

section pieces
variable {contents : Bytes} {start : ℕ} {offsets : List ℕ}

theorem length_pieces : (pieces contents start offsets).length = offsets.length + 1 := by
  induction offsets generalizing start with
  | nil => rfl
  | cons next offsets ih => rw [pieces, List.length_cons, ih, List.length_cons]

theorem take_append_drop_of_le {next : ℕ} (h : start ≤ next) :
    (contents.drop start).take (next - start) ++ contents.drop next = contents.drop start := by
  have hdrop : contents.drop next = (contents.drop start).drop (next - start) := by
    rw [List.drop_drop, Nat.add_sub_cancel' h]
  rw [hdrop, List.take_append_drop]

theorem flatten_pieces (h : Cuts contents.length start offsets) :
    (pieces contents start offsets).flatten = contents.drop start := by
  induction offsets generalizing start with
  | nil => simp [pieces]
  | cons next offsets ih =>
    obtain ⟨hle, -, hrest⟩ := cuts_cons.1 h
    rw [pieces, List.flatten_cons, ih hrest, take_append_drop_of_le hle]

theorem flatten_take_pieces (h : Cuts contents.length start offsets) {i offset : ℕ}
    (hi : (start :: offsets)[i]? = some offset) :
    ((pieces contents start offsets).take i).flatten = (contents.drop start).take (offset - start) ∧
      start ≤ offset := by
  induction offsets generalizing start i with
  | nil =>
    cases i with
    | zero =>
      obtain rfl : start = offset := by simpa using hi
      simp
    | succ i => simp at hi
  | cons next offsets ih =>
    cases i with
    | zero =>
      obtain rfl : start = offset := by simpa using hi
      simp
    | succ i =>
      obtain ⟨hle, -, hrest⟩ := cuts_cons.1 h
      obtain ⟨hflatten, hle'⟩ := @ih next hrest i (by simpa using hi)
      refine ⟨?_, hle.trans hle'⟩
      have hsplit : offset - start = (next - start) + (offset - next) := by omega
      have hdrop : (contents.drop start).drop (next - start) = contents.drop next := by
        rw [List.drop_drop, Nat.add_sub_cancel' hle]
      rw [pieces, List.take_succ_cons, List.flatten_cons, hflatten, hsplit, List.take_add, hdrop]

end pieces

namespace Chunk

theorem blocks_eq {contents : Bytes} {start : ℕ} {entries : List Secondary.Entry} (hlength : contents.length < 2 ^ 63)
    (h : Cuts contents.length start (entries.map fun entry => entry.blockOffset.toNat)) :
    blocks contents start (.ofList (entries.map .ok)) =
      .ofList ((pieces contents start (entries.map fun entry => entry.blockOffset.toNat)).map .ok) := by
  induction entries generalizing start with
  | nil => rfl
  | cons entry entries ih =>
    obtain ⟨hle, hlen, hrest⟩ := cuts_cons.1 h
    have hlt : entry.blockOffset.toNat - start < 2 ^ 63 := ((Nat.sub_le _ _).trans hlen).trans_lt hlength
    rw [List.map_cons, Trace.ofList, blocks, if_pos ⟨hle, hlt⟩, Trace.lookahead_ofList, if_pos hlen, ih hrest]
    rfl

end Chunk

section consistent
variable {primary secondary chunk : File}

theorem Consistent.slots_eq (h : Consistent primary secondary chunk) :
    primary.slots secondary = Primary.spans (Primary.offsets primary.contents.tail) :=
  reached_eq fun span hspan hlt => (h.entries span hspan hlt).2

theorem Consistent.forward (h : Consistent primary secondary chunk) :
    Forward secondary.contents 0 (Primary.spans (Primary.offsets primary.contents.tail)) := by
  have hreached := reached_eq fun span hspan hlt => (h.entries span hspan hlt).2
  refine ⟨fun _ _ => Nat.zero_le _, ?_⟩
  rw [hreached]
  exact spaced_of_ordered h.ordered fun span hspan hlt => (h.entries span hspan hlt).1

theorem Consistent.readable (h : Consistent primary secondary chunk) :
    ∀ offset ∈ primary.occupiedSlots, Secondary.Readable secondary.contents offset := by
  intro offset hoffset
  obtain ⟨⟨last, next⟩, hspan, hsome⟩ := List.mem_filterMap.1 hoffset
  dsimp only at hsome
  split_ifs at hsome with hlt
  cases hsome
  exact (h.entries (offset, next) hspan hlt).2

theorem Consistent.cuts (h : Consistent primary secondary chunk) :
    Cuts chunk.contents.length 0 (primary.blockOffsets secondary).tail :=
  ⟨fun _ _ => Nat.zero_le _, h.sorted.tail.imp fun _ _ => Nat.le_of_lt,
    fun offset hoffset => h.within offset (List.mem_of_mem_tail hoffset)⟩

/-- The blocks of a consistent chunk. -/
def File.blocks (primary secondary chunk : File) : List Bytes :=
  match primary.blockOffsets secondary with
  | [] => []
  | _ :: offsets => pieces chunk.contents 0 offsets

theorem Consistent.cut_eq {pr : Profile} {version : UInt8} {bytes : Bytes} (h : Consistent primary secondary chunk)
    (hcontents : primary.contents = version :: bytes)
    (hslots : pr = .release ∨ (Primary.spans (Primary.offsets primary.contents.tail)).length ≤ 2 ^ 32) :
    Chunk.cut chunk.contents (Secondary.index pr bytes secondary.contents) =
      .ofList ((primary.blocks secondary chunk).map .ok) := by
  have hforward := h.forward
  rw [hcontents, List.tail_cons] at hforward
  have hindex := @index_eq _ _ _ _ pr hcontents (by rwa [h.slots_eq]) hforward
  have hreadings : readings secondary.contents primary.occupiedSlots =
      (primary.occupiedSlots.map (Secondary.entryAt secondary.contents)).map .ok := by
    rw [readings, List.map_map]
    exact List.map_congr_left fun offset hoffset => if_pos (h.readable offset hoffset)
  rw [hindex, h.slots_eq]
  show Chunk.cut chunk.contents (.ofList (readings secondary.contents primary.occupiedSlots)) = _
  have hcuts := h.cuts
  rw [hreadings, File.blocks]
  rw [File.blockOffsets] at hcuts ⊢
  generalize primary.occupiedSlots = slots at hcuts
  cases slots with
  | nil => rfl
  | cons offset offsets =>
    rw [List.map_cons, List.map_cons, Trace.ofList, Chunk.cut, Trace.lookahead_ofList, Chunk.blocks_eq chunk.length_lt]
    · simp only [List.map_cons, List.map_map]
      rfl
    · rw [List.map_map]
      exact hcuts

theorem Consistent.length_blocks : (primary.blocks secondary chunk).length = primary.occupiedSlots.length := by
  have hlength : (primary.blockOffsets secondary).length = primary.occupiedSlots.length := List.length_map _
  rw [← hlength, File.blocks]
  cases primary.blockOffsets secondary with
  | nil => rfl
  | cons offset offsets => exact length_pieces

theorem Consistent.flatten_take (h : Consistent primary secondary chunk) {i offset : ℕ}
    (hi : (primary.blockOffsets secondary)[i]? = some offset) :
    ((primary.blocks secondary chunk).take i).flatten = chunk.contents.take offset := by
  have hcuts := h.cuts
  have hstart := h.start
  rw [File.blocks]
  cases hoffsets : primary.blockOffsets secondary with
  | nil => simp [hoffsets] at hi
  | cons first offsets =>
    rw [hoffsets] at hi hcuts hstart
    obtain rfl : first = 0 := hstart first rfl
    obtain ⟨hflatten, -⟩ := flatten_take_pieces hcuts hi
    exact hflatten

theorem Consistent.flatten_blocks (h : Consistent primary secondary chunk)
    (hsome : primary.occupiedSlots ≠ [] ∨ chunk.contents = []) :
    (primary.blocks secondary chunk).flatten = chunk.contents := by
  have hcuts := h.cuts
  rw [File.blocks]
  cases hoffsets : primary.blockOffsets secondary with
  | nil =>
    rcases hsome with hsome | hnil
    · exact absurd (List.map_eq_nil_iff.1 hoffsets) hsome
    · rw [hnil]
      rfl
  | cons first offsets =>
    rw [hoffsets] at hcuts
    exact flatten_pieces hcuts

/-- Iterating the blocks of a chunk gives one for each occupied slot, and no error; together they are the chunk file, cut at
the block offsets. -/
def ReadWhole (pr : Profile) (primary secondary chunk : File) : Prop :=
  ∃ (r : Chunk.Reader) (blocks : List Bytes),
    Chunk.readBlocks pr ⟨some primary, some secondary, some chunk⟩ = .ok r ∧
    Gives (Chunk.Reader.nextBlock pr) r (.ofList (blocks.map .ok)) ∧
    blocks.length = primary.occupiedSlots.length ∧
    (∀ i offset, (primary.blockOffsets secondary)[i]? = some offset →
      (blocks.take i).flatten = chunk.contents.take offset) ∧
    blocks.flatten = chunk.contents

theorem Consistent.gives_blocks {pr : Profile} (h : Consistent primary secondary chunk)
    (hslots : pr = .release ∨ (Primary.spans (Primary.offsets primary.contents.tail)).length ≤ 2 ^ 32) :
    ∃ r, Chunk.readBlocks pr ⟨some primary, some secondary, some chunk⟩ = .ok r ∧
      Gives (Chunk.Reader.nextBlock pr) r (.ofList ((primary.blocks secondary chunk).map .ok)) := by
  obtain ⟨version, bytes, hcontents⟩ := List.exists_cons_of_ne_nil h.version
  have hcut := h.cut_eq hcontents hslots
  rcases @Chunk.readBlocks_eq pr ⟨some primary, some secondary, some chunk⟩ _ _ _ _ _ rfl rfl rfl hcontents with
    ⟨hpanic, -⟩ | ⟨r, hr, hgives⟩
  · have hends := Trace.ends_ofList
      ((primary.blocks secondary chunk).map (Except.ok : Bytes → Except Chunk.Error Bytes))
    rw [← hcut, hpanic] at hends
    exact hends.elim
  · rw [hcut] at hgives
    exact ⟨r, hr, hgives⟩

/-- A consistent chunk is read back whole. -/
theorem consistent_readWhole {pr : Profile} (h : Consistent primary secondary chunk)
    (hsome : primary.occupiedSlots ≠ [] ∨ chunk.contents = [])
    (hslots : pr = .release ∨ (Primary.spans (Primary.offsets primary.contents.tail)).length ≤ 2 ^ 32) :
    ReadWhole pr primary secondary chunk := by
  obtain ⟨r, hr, hgives⟩ := h.gives_blocks hslots
  exact ⟨r, primary.blocks secondary chunk, hr, hgives, Consistent.length_blocks, fun _ _ => h.flatten_take,
    h.flatten_blocks hsome⟩

end consistent

/-- Three slots, the first and the last of them occupied, and two blocks. -/
theorem consistent_readWhole_two :
    ReadWhole .debug ⟨[1, 0, 0, 0, 0, 0, 0, 0, 56, 0, 0, 0, 56, 0, 0, 0, 112], by decide⟩
      ⟨List.replicate 56 0 ++ ([0, 0, 0, 0, 0, 0, 0, 2] ++ List.replicate 48 0), by decide⟩ ⟨[7, 8, 9], by decide⟩ := by
  refine consistent_readWhole
    ⟨nofun, by decide, ?_, by decide, by decide, by decide⟩ (.inl (by decide)) (.inr (by decide))
  have hspans : Primary.spans (Primary.offsets [0, 0, 0, 0, 0, 0, 0, 56, 0, 0, 0, 56, 0, 0, 0, 112]) =
      [(0, 56), (56, 56), (56, 112)] := by decide
  intro span hspan hlt
  rw [List.tail_cons, hspans] at hspan
  simp only [List.mem_cons, List.not_mem_nil, or_false] at hspan
  rcases hspan with rfl | rfl | rfl
  · exact ⟨by decide, by decide⟩
  · exact absurd hlt (by decide)
  · exact ⟨by decide, by decide⟩

/-! ### Where nothing is read -/

theorem count_of_read {primary secondary chunk : File} {r : Chunk.Reader} {items : List (Except Chunk.Error Bytes)}
    {version : UInt8} {bytes : Bytes} (hcontents : primary.contents = version :: bytes)
    (hr : Chunk.readBlocks .debug ⟨some primary, some secondary, some chunk⟩ = .ok r)
    (hgives : Gives (Chunk.Reader.nextBlock .debug) r (.ofList items)) (hstops : (Trace.ofList items).StopsAtError) :
    (primary.slots secondary).length ≤ 2 ^ 32 := by
  rcases @Chunk.readBlocks_eq .debug ⟨some primary, some secondary, some chunk⟩ _ _ _ _ _ rfl rfl rfl hcontents with
    ⟨-, hpanic⟩ | ⟨r', hr', hgives'⟩
  · cases hpanic.symm.trans hr
  obtain rfl : r' = r := Outcome.ok.inj (hr'.symm.trans hr)
  have hcut := hgives'.unique hgives
  have hends : (Secondary.index .debug bytes secondary.contents).Ends := by
    refine Chunk.ends_of_cut stopsAtError_index chunk.length_lt ?_ ?_
    · rw [hcut]
      exact Trace.ends_ofList items
    · rwa [hcut]
  obtain ⟨hcount, -⟩ := @forward_of_ends _ none _ _ hends (Nat.zero_le _)
  rw [File.slots, hcontents, List.tail_cons]
  exact (Nat.le_add_left _ _).trans hcount

theorem offsets_replicate (n : ℕ) : Primary.offsets (List.replicate (4 * n) 0) = List.replicate n 0 := by
  induction n with
  | zero => rfl
  | succ n ih =>
    have hsplit : List.replicate (4 * (n + 1)) (0 : UInt8) = 0 :: 0 :: 0 :: 0 :: List.replicate (4 * n) 0 := rfl
    rw [hsplit, Primary.offsets, ih]
    rfl

theorem spans_replicate (n : ℕ) : Primary.spans (List.replicate (n + 1) 0) = List.replicate n (0, 0) := by
  rw [Primary.spans, List.tail_replicate, Nat.add_sub_cancel, List.zip_replicate, Nat.min_eq_right (Nat.le_succ n)]

theorem occupied_replicate (n : ℕ) : occupied (List.replicate n (0, 0)) = [] := by
  induction n with
  | zero => rfl
  | succ n ih =>
    rw [List.replicate_succ, occupied_neg (by decide)]
    exact ih

theorem consistent_replicate {primary secondary chunk : File} {n : ℕ}
    (h : primary.contents = 1 :: List.replicate (4 * (n + 1)) 0) : Consistent primary secondary chunk := by
  have hspans : Primary.spans (Primary.offsets primary.contents.tail) = List.replicate n (0, 0) := by
    rw [h, List.tail_cons, offsets_replicate, spans_replicate]
  have hslots : primary.blockOffsets secondary = [] := by
    rw [File.blockOffsets, File.occupiedSlots, hspans, occupied_replicate, List.map_nil]
  constructor
  · rw [h]
    exact List.cons_ne_nil _ _
  · rw [h, List.tail_cons, offsets_replicate]
    exact List.isChain_replicate_of_rel _ (UInt32.le_refl 0)
  · intro span hspan hlt
    rw [hspans] at hspan
    rw [List.eq_of_mem_replicate hspan] at hlt
    exact absurd hlt (by decide)
  · rw [hslots]
    exact .nil
  · rw [hslots]
    nofun
  · rw [hslots]
    nofun

theorem slots_replicate {primary secondary : File} {n : ℕ}
    (h : primary.contents = 1 :: List.replicate (4 * (n + 1)) 0) :
    (primary.slots secondary).length = n := by
  rw [File.slots, h, List.tail_cons, offsets_replicate, spans_replicate, reached_eq, List.length_replicate]
  intro span hspan hlt
  rw [List.eq_of_mem_replicate hspan] at hlt
  exact absurd hlt (by decide)

/-- What is in the chunk file is not read where no slot is occupied, and a debug build does not get past `2 ^ 32` slots. -/
theorem consistent_not_read :
    (∃ primary secondary chunk : File, primary.contents = [1, 0, 0, 0, 0] ∧ secondary.contents = [] ∧
      chunk.contents = [7] ∧
      Consistent primary secondary chunk ∧ ∀ pr, ¬ ReadWhole pr primary secondary chunk) ∧
    ∃ primary secondary chunk : File, primary.contents = 1 :: List.replicate (4 * (2 ^ 32 + 1 + 1)) 0 ∧
      secondary.contents = [] ∧ chunk.contents = [] ∧
      Consistent primary secondary chunk ∧ ¬ ReadWhole .debug primary secondary chunk := by
  constructor
  · refine ⟨⟨[1, 0, 0, 0, 0], by decide⟩, ⟨[], by decide⟩, ⟨[7], by decide⟩, rfl, rfl, rfl,
      @consistent_replicate _ _ _ 0 rfl, fun pr hwhole => ?_⟩
    obtain ⟨r, blocks, -, -, hlength, -, hflatten⟩ := hwhole
    obtain rfl : blocks = [] := List.length_eq_zero_iff.1 hlength
    cases hflatten
  · have hlength : (1 :: List.replicate (4 * (2 ^ 32 + 1 + 1)) (0 : UInt8)).length < 2 ^ 63 := by
      rw [List.length_cons, List.length_replicate]
      norm_num
    refine ⟨⟨1 :: List.replicate (4 * (2 ^ 32 + 1 + 1)) 0, hlength⟩, ⟨[], by decide⟩, ⟨[], by decide⟩, rfl, rfl, rfl,
      consistent_replicate rfl, fun hwhole => ?_⟩
    obtain ⟨r, blocks, hr, hgives, -⟩ := hwhole
    have hstops : (Trace.ofList (blocks.map (Except.ok : Bytes → Except Chunk.Error Bytes))).StopsAtError := by
      refine Trace.stopsAtError_ofList.2 fun pre e post heq => ?_
      have hmem : Except.error e ∈ blocks.map (Except.ok : Bytes → Except Chunk.Error Bytes) := heq ▸ by simp
      simp at hmem
    have hcount := count_of_read rfl hr hgives hstops
    rw [slots_replicate rfl] at hcount
    omega

end Pallas.Immutable
