import Pallas.Codec.ValuesReference
import Pallas.Lib.FinMap

/-!
# Decoders that `minicbor` derives

A derived decoder of a struct reads an array: the fields by their index into variables, whatever follows them is skipped, and a
variable that has not been set is an error, unless it is an option. An enumeration without data is read as the index of its variant.
`MinicborDerive` adds the two errors to `MinicborValues`.
-/

namespace Pallas
open Cbor Cbor.Decoder Std

structure MinicborDerive (ε : Type) extends MinicborValues ε where
  missingValue : ℕ → ε
  unknownVariant : ℤ → ε

namespace Derived
variable {ε σ α β γ δ τ υ : Type} (m : MinicborDerive ε)

/-! ### The loops -/

section Loops
variable (fields : List (σ → Reader ε σ))

/-- The field at an index, or an item to be skipped. -/
def readField (i : ℕ) (s : σ) : Reader ε σ :=
  match fields[i]? with
  | some field => field s
  | none => do
    let _ ← m.skip
    pure s

def readFields : (n i : ℕ) → σ → Reader ε σ
  | 0, _, s => pure s
  | n + 1, i, s => do
    let s ← readField m fields i s
    readFields n (i + 1) s

def readUntilBreak : (fuel i : ℕ) → σ → Reader ε σ
  | 0, _, _ => .throw (m.message "end of input")
  | fuel + 1, i, s => do
    if (← m.peekType) = .break then
      let _ ← m.skip
      pure s
    else
      let s ← readField m fields i s
      readUntilBreak fuel (i + 1) s

/-- All the fields, by the length of the array. -/
def readArray (s : σ) : Reader ε σ := do
  match ← m.array with
  | some n => readFields m fields n.toNat 0 s
  | none => ⟨fun bs => (readUntilBreak m fields (bs.length + 1) 0 s).run bs,
      fun bs => (readUntilBreak m fields (bs.length + 1) 0 s).forward bs⟩

end Loops

/-- The value of a variable. -/
def required (i : ℕ) : Option α → Reader ε α
  | some a => pure a
  | none => .throw (m.missingValue i)

/-- A struct of two fields. -/
def struct₂ (x : Reader ε α) (y : Reader ε β) (make : α → β → τ) : Reader ε τ := do
  let s ← readArray m [fun s => do return (some (← x), s.2), fun s => do return (s.1, some (← y))] (none, none)
  let a ← required m 0 s.1
  let b ← required m 1 s.2
  pure (make a b)

/-- A struct of three fields. -/
def struct₃ (x : Reader ε α) (y : Reader ε β) (z : Reader ε γ) (make : α → β → γ → τ) : Reader ε τ := do
  let s ← readArray m [fun s => do return (some (← x), s.2), fun s => do return (s.1, some (← y), s.2.2),
    fun s => do return (s.1, s.2.1, some (← z))] (none, none, none)
  let a ← required m 0 s.1
  let b ← required m 1 s.2.1
  let c ← required m 2 s.2.2
  pure (make a b c)

/-- A struct of four fields. -/
def struct₄ (x : Reader ε α) (y : Reader ε β) (z : Reader ε γ) (w : Reader ε δ)
    (make : α → β → γ → δ → τ) : Reader ε τ := do
  let s ← readArray m [fun s => do return (some (← x), s.2), fun s => do return (s.1, some (← y), s.2.2),
    fun s => do return (s.1, s.2.1, some (← z), s.2.2.2), fun s => do return (s.1, s.2.1, s.2.2.1, some (← w))]
    (none, none, none, none)
  let a ← required m 0 s.1
  let b ← required m 1 s.2.1
  let c ← required m 2 s.2.2.1
  let d ← required m 3 s.2.2.2
  pure (make a b c d)

/-- A struct of four fields and one that may be left out. -/
def struct₅ (x : Reader ε α) (y : Reader ε β) (z : Reader ε γ) (w : Reader ε δ) (v : Reader ε (Option υ))
    (make : α → β → γ → δ → Option υ → τ) : Reader ε τ := do
  let s ← readArray m [fun s => do return (some (← x), s.2), fun s => do return (s.1, some (← y), s.2.2),
    fun s => do return (s.1, s.2.1, some (← z), s.2.2.2),
      fun s => do return (s.1, s.2.1, s.2.2.1, some (← w), s.2.2.2.2),
    fun s => do return (s.1, s.2.1, s.2.2.1, s.2.2.2.1, ← v)] (none, none, none, none, none)
  let a ← required m 0 s.1
  let b ← required m 1 s.2.1
  let c ← required m 2 s.2.2.1
  let d ← required m 3 s.2.2.2.1
  pure (make a b c d s.2.2.2.2)

/-- `Option<T>`. -/
def optional (x : Reader ε α) : Reader ε (Option α) := do
  if (← m.peekType) = .null then
    let _ ← m.skip
    pure none
  else some <$> x

/-- `BTreeMap<K, V>`: the entries are inserted one after the other. -/
def btreeMap {κ ν : Type} [Ord κ] [TransOrd κ] (key : Reader ε κ) (value : Reader ε ν) : Reader ε (FinMap κ ν) := do
  let entries ← m.mapIter key value
  pure (entries.foldl (fun map e => map.insert e.1 e.2) ∅)

/-- `#[cbor(index_only)]`. -/
def indexOnly (variant : ℤ → Option α) : Reader ε α := do
  let n ← m.int
  match variant n with
  | some a => pure a
  | none => .throw (m.unknownVariant n)

/-! ### What they read back -/

section Inverts
variable {m} {x : Reader ε α} {y : Reader ε β} {z : Reader ε γ} {w : Reader ε δ} {bx bw by' bz : Bytes}
  {a : α} {b : β} {c : γ} {d : δ}

/-- An array of `n` fields, each of which is read. -/
theorem readArray_takes (hm : m.toMinicborValues.Lawful) {fields : List (σ → Reader ε σ)} {n : ℕ} (hn : n < 2 ^ 64)
    {bytes : Bytes} {s s' : σ} (h : (readFields m fields n 0 s).Takes bytes s') :
    (readArray m fields s).Takes (Cbor.array n ++ bytes) s' := by
  refine (hm.array_takes hn).bind ?_
  show (readFields m fields (UInt64.ofNat n).toNat 0 s).Takes bytes s'
  rwa [UInt64.toNat_ofNat_of_lt' hn]

theorem struct₂_takes (hm : m.toMinicborValues.Lawful) (hx : x.Takes bx a) (hy : y.Takes by' b) (make : α → β → τ) :
    (struct₂ m x y make).Takes (Cbor.array 2 ++ (bx ++ by')) (make a b) := by
  refine Reader.Takes.last (?_ : (readArray m _ (none, none)).Takes _ (some a, some b)) rfl
  refine readArray_takes hm (by omega) ?_
  simp only [readFields, readField, List.getElem?_cons_zero, List.getElem?_cons_succ]
  refine Reader.Takes.bind (hx.last rfl) ?_
  exact Reader.Takes.last (hy.last rfl) rfl

theorem struct₃_takes (hm : m.toMinicborValues.Lawful) (hx : x.Takes bx a) (hy : y.Takes by' b) (hz : z.Takes bz c)
    (make : α → β → γ → τ) :
    (struct₃ m x y z make).Takes (Cbor.array 3 ++ (bx ++ (by' ++ bz))) (make a b c) := by
  refine Reader.Takes.last (?_ : (readArray m _ (none, none, none)).Takes _ (some a, some b, some c)) rfl
  refine readArray_takes hm (by omega) ?_
  simp only [readFields, readField, List.getElem?_cons_zero, List.getElem?_cons_succ]
  refine Reader.Takes.bind (hx.last rfl) ?_
  refine Reader.Takes.bind (hy.last rfl) ?_
  exact Reader.Takes.last (hz.last rfl) rfl

theorem struct₄_takes (hm : m.toMinicborValues.Lawful) (hx : x.Takes bx a) (hy : y.Takes by' b) (hz : z.Takes bz c)
    (hw : w.Takes bw d) (make : α → β → γ → δ → τ) :
    (struct₄ m x y z w make).Takes (Cbor.array 4 ++ (bx ++ (by' ++ (bz ++ bw)))) (make a b c d) := by
  refine Reader.Takes.last (?_ : (readArray m _ (none, none, none, none)).Takes _ (some a, some b, some c, some d)) rfl
  refine readArray_takes hm (by omega) ?_
  simp only [readFields, readField, List.getElem?_cons_zero, List.getElem?_cons_succ]
  refine Reader.Takes.bind (hx.last rfl) ?_
  refine Reader.Takes.bind (hy.last rfl) ?_
  refine Reader.Takes.bind (hz.last rfl) ?_
  exact Reader.Takes.last (hw.last rfl) rfl

theorem indexOnly_takes (hm : m.toMinicborValues.Lawful) {variant : ℤ → Option α} {n : ℕ} (hn : n < 2 ^ 64)
    (h : variant n = some a) : (indexOnly m variant).Takes (Cbor.uint n) a := by
  have hint : m.int.Takes (Cbor.uint n) n := by
    intro rest
    rw [hm.int]
    exact ⟨n, .inl ⟨header_head (by omega) hn, rfl⟩⟩
  refine hint.last ?_
  rw [h]

theorem struct₂_inverts (hm : m.toMinicborValues.Lawful) (hx : x.Inverts bx a) (hy : y.Inverts by' b)
    (make : α → β → τ) :
    (struct₂ m x y make).Inverts (Cbor.array 2 ++ (bx ++ by')) (make a b) := by
  intro hlt
  simp only [List.length_append] at hlt
  exact struct₂_takes hm (hx (by omega)) (hy (by omega)) make

theorem struct₃_inverts (hm : m.toMinicborValues.Lawful) (hx : x.Inverts bx a) (hy : y.Inverts by' b)
    (hz : z.Inverts bz c) (make : α → β → γ → τ) :
    (struct₃ m x y z make).Inverts (Cbor.array 3 ++ (bx ++ (by' ++ bz))) (make a b c) := by
  intro hlt
  simp only [List.length_append] at hlt
  exact struct₃_takes hm (hx (by omega)) (hy (by omega)) (hz (by omega)) make

theorem struct₄_inverts (hm : m.toMinicborValues.Lawful) (hx : x.Inverts bx a) (hy : y.Inverts by' b)
    (hz : z.Inverts bz c)
    (hw : w.Inverts bw d) (make : α → β → γ → δ → τ) :
    (struct₄ m x y z w make).Inverts (Cbor.array 4 ++ (bx ++ (by' ++ (bz ++ bw)))) (make a b c d) := by
  intro hlt
  simp only [List.length_append] at hlt
  exact struct₄_takes hm (hx (by omega)) (hy (by omega)) (hz (by omega)) (hw (by omega)) make

end Inverts

/-! ### What they have read -/

section Reads
variable {m} {fields : List (σ → Reader ε σ)} {s s' : σ} {i : ℕ} {bs rest : Bytes}

/-- Fields that are read one after the other, from an index on. -/
inductive Stepped (m : MinicborDerive ε) (fields : List (σ → Reader ε σ)) : (i : ℕ) → σ → Bytes → σ → Prop
  | done {i : ℕ} {s : σ} {bs : Bytes} : Stepped m fields i s bs s
  | step {i : ℕ} {s s₁ s' : σ} {bs mid : Bytes} (hfield : (readField m fields i s).run bs = (.ok s₁, mid))
      (h : Stepped m fields (i + 1) s₁ mid s') : Stepped m fields i s bs s'

theorem stepped_of_readFields {n : ℕ} (h : (readFields m fields n i s).run bs = (.ok s', rest)) :
    Stepped m fields i s bs s' := by
  induction n generalizing i s bs with
  | zero =>
    cases h
    exact .done
  | succ n ih =>
    obtain ⟨s₁, mid, hfield, h⟩ := Reader.bind_eq_ok.1 h
    exact .step hfield (ih h)

theorem stepped_of_readUntilBreak {fuel : ℕ} (hrun : (readUntilBreak m fields fuel i s).run bs = (.ok s', rest)) :
    Stepped m fields i s bs s' := by
  induction fuel generalizing i s bs with
  | zero => cases hrun
  | succ fuel ih =>
    obtain ⟨t, mid, ht, h⟩ := Reader.bind_eq_ok.1 hrun
    obtain ⟨-, rfl⟩ := Minicbor.run_peekType_eq_ok.1 ht
    split at h
    · obtain ⟨u, mid', -, h⟩ := Reader.bind_eq_ok.1 h
      cases h
      exact .done
    · obtain ⟨s₁, mid', hfield, h⟩ := Reader.bind_eq_ok.1 h
      exact .step hfield (ih h)

theorem stepped_of_readArray (hm : m.toMinicborValues.Lawful) (h : (readArray m fields s).run bs = (.ok s', rest)) :
    ∃ len mid, header 4 bs = some (len, mid) ∧ Stepped m fields 0 s mid s' := by
  obtain ⟨len, mid, hlen, h⟩ := Reader.bind_eq_ok.1 h
  refine ⟨_, mid, (hm.array _ _ _).1 hlen, ?_⟩
  cases len with
  | some n => exact stepped_of_readFields h
  | none =>
    have hloop : (readUntilBreak m fields (mid.length + 1) 0 s).run mid = (.ok s', rest) := h
    exact stepped_of_readUntilBreak hloop

theorem Stepped.past (h : Stepped m fields i s bs s') (hi : fields.length ≤ i) : s' = s := by
  induction h with
  | done => rfl
  | step hfield _ ih =>
    rw [readField, List.getElem?_eq_none hi] at hfield
    obtain ⟨u, mid, -, heq⟩ := Reader.bind_eq_ok.1 hfield
    cases heq
    exact ih (Nat.le_succ_of_le hi)

theorem required_eq_ok {o : Option α} {a : α} (h : (required m i o).run bs = (.ok a, rest)) : o = some a := by
  cases o with
  | none => cases h
  | some b =>
    cases h
    rfl

theorem struct₂_reads (hm : m.toMinicborValues.Lawful) {x : Reader ε α} {y : Reader ε β} {make : α → β → τ} {t : τ}
    (h : (struct₂ m x y make).run bs = (.ok t, rest)) :
    ∃ len mid a mid₁ b mid₂, header 4 bs = some (len, mid) ∧ x.run mid = (.ok a, mid₁) ∧ y.run mid₁ = (.ok b, mid₂) ∧
      t = make a b := by
  obtain ⟨s, _, harray, h⟩ := Reader.bind_eq_ok.1 h
  obtain ⟨a, _, ha, h⟩ := Reader.bind_eq_ok.1 h
  obtain ⟨b, _, hb, h⟩ := Reader.bind_eq_ok.1 h
  cases h
  have ha := required_eq_ok ha
  have hb := required_eq_ok hb
  obtain ⟨len, mid, hhead, hfirst⟩ := stepped_of_readArray hm harray
  cases hfirst with
  | done => cases ha
  | step hfield hsecond =>
    obtain ⟨a', mid₁, hx, heq⟩ := Reader.bind_eq_ok.1 hfield
    cases heq
    cases hsecond with
    | done => cases hb
    | step hfield hrest =>
      obtain ⟨b', mid₂, hy, heq⟩ := Reader.bind_eq_ok.1 hfield
      cases heq
      obtain rfl := hrest.past le_rfl
      cases ha
      cases hb
      exact ⟨len, mid, _, _, _, _, hhead, hx, hy, rfl⟩

end Reads

/-! ### What they return -/

/-- Whatever the reader returns meets the predicate. -/
def Gives (P : α → Prop) (x : Reader ε α) : Prop := ∀ bs a rest, x.run bs = (.ok a, rest) → P a

section Gives
variable {m} {P : σ → Prop}

theorem Gives.bind {Q : α → Prop} {R : β → Prop} {x : Reader ε α} {f : α → Reader ε β} (hx : Gives Q x)
    (hf : ∀ a, Q a → Gives R (f a)) : Gives R (x >>= f) := by
  intro bs b rest h
  obtain ⟨a, mid, ha, h⟩ := Reader.bind_eq_ok.1 h
  exact hf a (hx _ _ _ ha) _ _ _ h

theorem Gives.trivial (x : Reader ε α) : Gives (fun _ => True) x := fun _ _ _ _ => True.intro

theorem Gives.pure {a : σ} (h : P a) : Gives P (Pure.pure a : Reader ε σ) := by
  intro bs b rest hrun
  cases hrun
  exact h

theorem Gives.set {Q : α → Prop} {x : Reader ε α} (hx : Gives Q x) {f : α → σ} (hf : ∀ a, Q a → P (f a)) :
    Gives P (do return f (← x)) := hx.bind fun a ha => .pure (hf a ha)

section Loops
variable {fields : List (σ → Reader ε σ)} (hfields : ∀ f ∈ fields, ∀ s, P s → Gives P (f s))
include hfields

theorem readField_gives (i : ℕ) {s : σ} (hs : P s) : Gives P (readField m fields i s) := by
  unfold readField
  split
  · next field hfield => exact hfields field (List.mem_of_getElem? hfield) s hs
  · exact (Gives.trivial _).bind fun _ _ => .pure hs

theorem readFields_gives (n i : ℕ) {s : σ} (hs : P s) : Gives P (readFields m fields n i s) := by
  induction n generalizing i s with
  | zero => exact .pure hs
  | succ n ih => exact (readField_gives hfields i hs).bind fun s hs => ih (i + 1) hs

theorem readUntilBreak_gives (fuel i : ℕ) {s : σ} (hs : P s) : Gives P (readUntilBreak m fields fuel i s) := by
  induction fuel generalizing i s with
  | zero => exact fun _ _ _ h => nomatch h
  | succ fuel ih =>
    refine (Gives.trivial _).bind fun t _ => ?_
    split
    · exact (Gives.trivial _).bind fun _ _ => .pure hs
    · exact (readField_gives hfields i hs).bind fun s hs => ih (i + 1) hs

theorem readArray_gives {s : σ} (hs : P s) : Gives P (readArray m fields s) := by
  refine (Gives.trivial _).bind fun len _ => ?_
  cases len with
  | some n => exact readFields_gives hfields _ 0 hs
  | none => exact fun bs => readUntilBreak_gives hfields (bs.length + 1) 0 hs bs

end Loops

section Sequences
variable {Q : α → Prop} {item : Reader ε α}

theorem elements_gives (h : Gives Q item) {len : Option ℕ} {bs rest : Bytes} {as : List α}
    (helems : Elements item len bs as rest) : ∀ a ∈ as, Q a := by
  induction helems with
  | done => simp
  | next ha _ ih => exact List.forall_mem_cons.2 ⟨h _ _ _ ha, ih⟩
  | stop => simp
  | more _ ha _ ih => exact List.forall_mem_cons.2 ⟨h _ _ _ ha, ih⟩

theorem arrayIter_gives (hm : m.toMinicborValues.Lawful) (h : Gives Q item) :
    Gives (fun as => ∀ a ∈ as, Q a) (m.arrayIter item) := by
  intro bs as rest hrun
  obtain ⟨len, mid, -, helems⟩ := (hm.arrayIter _ _ _ _).1 hrun
  exact elements_gives h helems

theorem mapIter_gives {κ : Type} (hm : m.toMinicborValues.Lawful) {key : Reader ε κ} (h : Gives Q item) :
    Gives (fun es => ∀ e ∈ es, Q e.2) (m.mapIter key item) := by
  intro bs es rest hrun
  obtain ⟨len, mid, -, helems⟩ := (hm.mapIter _ _ _ _ _).1 hrun
  have hentry : Gives (fun e => Q e.2) (entry key item) := (Gives.trivial _).bind fun _ _ => h.bind fun _ ha => .pure ha
  exact elements_gives hentry helems

theorem btreeMap_gives {κ : Type} [Ord κ] [TransOrd κ] [LawfulEqOrd κ] (hm : m.toMinicborValues.Lawful)
    {key : Reader ε κ}
    (h : Gives Q item) : Gives (fun map : FinMap κ α => ∀ (k : κ) a, map[k]? = some a → Q a) (btreeMap m key item) := by
  refine (mapIter_gives hm h).bind fun es hes => .pure fun k a hka => ?_
  obtain hmem | hempty := FinMap.getElem?_foldl_insert hka
  · exact hes _ hmem
  · simp at hempty

end Sequences

theorem required_gives (i : ℕ) {Q : α → Prop} {x : Option α} (h : ∀ a, x = some a → Q a) :
    Gives Q (required m i x) := by
  cases x with
  | none => exact fun _ _ _ h => nomatch h
  | some a => exact .pure (h a rfl)

theorem forall_given {Q : α → Prop} {a : α} (ha : Q a) : ∀ b, some a = some b → Q b := by
  rintro _ ⟨⟩
  exact ha

/-- A struct of two fields is made of what its fields return. -/
theorem struct₂_gives {Q : α → Prop} {R : β → Prop} {x : Reader ε α} {y : Reader ε β} (hx : Gives Q x) (hy : Gives R y)
    {make : α → β → τ} {P : τ → Prop} (hmake : ∀ a b, Q a → R b → P (make a b)) : Gives P (struct₂ m x y make) := by
  have hfields : Gives (fun s : Option α × Option β => (∀ a, s.1 = some a → Q a) ∧ ∀ b, s.2 = some b → R b)
      (readArray m [fun s => do return (some (← x), s.2), fun s => do return (s.1, some (← y))] (none, none)) := by
    refine readArray_gives ?_ (by simp)
    simp only [List.forall_mem_cons]
    exact ⟨fun s hs => hx.set fun a ha => ⟨forall_given ha, hs.2⟩,
      fun s hs => hy.set fun b hb => ⟨hs.1, forall_given hb⟩, by simp⟩
  refine hfields.bind fun s hs => (required_gives 0 hs.1).bind fun a ha => ?_
  exact (required_gives 1 hs.2).bind fun b hb => .pure (hmake a b ha hb)

/-- So is one of four. -/
theorem struct₄_gives {Q : α → Prop} {R : β → Prop} {S : γ → Prop} {T : δ → Prop} {x : Reader ε α} {y : Reader ε β}
    {z : Reader ε γ} {w : Reader ε δ} (hx : Gives Q x) (hy : Gives R y) (hz : Gives S z) (hw : Gives T w)
    {make : α → β → γ → δ → τ} {P : τ → Prop} (hmake : ∀ a b c d, Q a → R b → S c → T d → P (make a b c d)) :
    Gives P (struct₄ m x y z w make) := by
  have hfields : Gives (fun s : Option α × Option β × Option γ × Option δ => (∀ a, s.1 = some a → Q a) ∧
      (∀ b, s.2.1 = some b → R b) ∧ (∀ c, s.2.2.1 = some c → S c) ∧ ∀ d, s.2.2.2 = some d → T d)
      (readArray m [fun s => do return (some (← x), s.2), fun s => do return (s.1, some (← y), s.2.2),
        fun s => do return (s.1, s.2.1, some (← z), s.2.2.2), fun s => do return (s.1, s.2.1, s.2.2.1, some (← w))]
        (none, none, none, none)) := by
    refine readArray_gives ?_ (by simp)
    simp only [List.forall_mem_cons]
    exact ⟨fun s hs => hx.set fun a ha => ⟨forall_given ha, hs.2⟩,
      fun s hs => hy.set fun b hb => ⟨hs.1, forall_given hb, hs.2.2⟩,
      fun s hs => hz.set fun c hc => ⟨hs.1, hs.2.1, forall_given hc, hs.2.2.2⟩,
      fun s hs => hw.set fun d hd => ⟨hs.1, hs.2.1, hs.2.2.1, forall_given hd⟩, by simp⟩
  refine hfields.bind fun s hs => (required_gives 0 hs.1).bind fun a ha => ?_
  refine (required_gives 1 hs.2.1).bind fun b hb => (required_gives 2 hs.2.2.1).bind fun c hc => ?_
  exact (required_gives 3 hs.2.2.2).bind fun d hd => .pure (hmake a b c d ha hb hc hd)

/-- So is one of four and one that may be left out. -/
theorem struct₅_gives {Q : α → Prop} {R : β → Prop} {S : γ → Prop} {T : δ → Prop} {x : Reader ε α} {y : Reader ε β}
    {z : Reader ε γ} {w : Reader ε δ} {v : Reader ε (Option υ)} (hx : Gives Q x) (hy : Gives R y)
    (hz : Gives S z) (hw : Gives T w)
    {make : α → β → γ → δ → Option υ → τ} {P : τ → Prop}
    (hmake : ∀ a b c d e, Q a → R b → S c → T d → P (make a b c d e)) :
    Gives P (struct₅ m x y z w v make) := by
  have hfields : Gives (fun s : Option α × Option β × Option γ × Option δ × Option υ => (∀ a, s.1 = some a → Q a) ∧
      (∀ b, s.2.1 = some b → R b) ∧ (∀ c, s.2.2.1 = some c → S c) ∧ ∀ d, s.2.2.2.1 = some d → T d)
      (readArray m [fun s => do return (some (← x), s.2), fun s => do return (s.1, some (← y), s.2.2),
        fun s => do return (s.1, s.2.1, some (← z), s.2.2.2),
          fun s => do return (s.1, s.2.1, s.2.2.1, some (← w), s.2.2.2.2),
        fun s => do return (s.1, s.2.1, s.2.2.1, s.2.2.2.1, ← v)] (none, none, none, none, none)) := by
    refine readArray_gives ?_ (by simp)
    simp only [List.forall_mem_cons]
    exact ⟨fun s hs => hx.set fun a ha => ⟨forall_given ha, hs.2⟩,
      fun s hs => hy.set fun b hb => ⟨hs.1, forall_given hb, hs.2.2⟩,
      fun s hs => hz.set fun c hc => ⟨hs.1, hs.2.1, forall_given hc, hs.2.2.2⟩,
      fun s hs => hw.set fun d hd => ⟨hs.1, hs.2.1, hs.2.2.1, forall_given hd⟩,
      fun s hs => (Gives.trivial v).set fun _ _ => hs, by simp⟩
  refine hfields.bind fun s hs => (required_gives 0 hs.1).bind fun a ha => ?_
  refine (required_gives 1 hs.2.1).bind fun b hb => (required_gives 2 hs.2.2.1).bind fun c hc => ?_
  exact (required_gives 3 hs.2.2.2).bind fun d hd => .pure (hmake a b c d _ ha hb hc hd)

end Gives

end Derived
end Pallas
