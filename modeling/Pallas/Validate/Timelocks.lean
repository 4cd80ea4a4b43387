import Pallas.Validate.NativeWitnesses

/-!
# Native scripts over intervals and at slots

A script is a monotone formula over three kinds of leaves: nothing in it negates, and a threshold only counts. So what
makes every leaf that holds hold again does the same for the script (`satisfied_mono`). `eval_native_script` is that
formula for the bounds of an interval, and the meaning of a script at one slot is the same formula with other leaves.
-/

namespace Pallas.ShelleyMa

/-- The truth of the leaves: of a key hash, of a slot before which and of one from which on the script is invalid. -/
structure Atoms where
  pubkey : AddrKeyhash → Bool
  invalidBefore : UInt64 → Bool
  invalidHereafter : UInt64 → Bool

namespace Atoms

/-- Every leaf that holds in the first holds in the second. -/
structure Implies (p q : Atoms) : Prop where
  pubkey : ∀ h, p.pubkey h = true → q.pubkey h = true
  invalidBefore : ∀ v, p.invalidBefore v = true → q.invalidBefore v = true
  invalidHereafter : ∀ v, p.invalidHereafter v = true → q.invalidHereafter v = true

mutual

/-- The script as a formula over its leaves. -/
def satisfied (p : Atoms) : NativeScript → Bool
  | .scriptAll xs => (satisfiedEach p xs).all id
  | .scriptAny xs => (satisfiedEach p xs).any id
  | .scriptPubkey h => p.pubkey h
  | .scriptNOfK n xs => n.toInt ≤ (satisfiedEach p xs).count true
  | .invalidBefore v => p.invalidBefore v
  | .invalidHereafter v => p.invalidHereafter v

def satisfiedEach (p : Atoms) : List NativeScript → List Bool
  | [] => []
  | x :: xs => satisfied p x :: satisfiedEach p xs

end

/-! ### Lists of results that improve -/

section Results
variable {as bs : List Bool}

/-- Result by result, what was true is true. -/
def Improves (as bs : List Bool) : Prop := List.Forall₂ (fun a b => a = true → b = true) as bs

theorem Improves.all (h : Improves as bs) (hall : as.all id = true) : bs.all id = true := by
  induction h with
  | nil => rfl
  | cons hab _ ih =>
    rw [List.all_cons, Bool.and_eq_true] at hall ⊢
    exact ⟨hab hall.1, ih hall.2⟩

theorem Improves.any (h : Improves as bs) (hany : as.any id = true) : bs.any id = true := by
  induction h with
  | nil => exact hany
  | cons hab _ ih =>
    rw [List.any_cons, Bool.or_eq_true] at hany ⊢
    exact hany.imp hab ih

theorem Improves.count_le (h : Improves as bs) : as.count true ≤ bs.count true := by
  induction h with
  | nil => rfl
  | @cons a b _ _ hab _ ih =>
    cases a with
    | false => simpa using ih.trans (List.count_le_count_cons)
    | true =>
      rw [hab rfl, List.count_cons_self, List.count_cons_self]
      exact Nat.succ_le_succ ih

end Results

variable {p q : Atoms}

mutual

theorem satisfied_mono (h : p.Implies q) : ∀ s : NativeScript, p.satisfied s = true → q.satisfied s = true
  | .scriptAll xs, hs => (satisfiedEach_mono h xs).all hs
  | .scriptAny xs, hs => (satisfiedEach_mono h xs).any hs
  | .scriptPubkey hash, hs => h.pubkey hash hs
  | .scriptNOfK n xs, hs => by
    rw [satisfied, decide_eq_true_eq] at hs ⊢
    exact hs.trans (Int.ofNat_le.2 (satisfiedEach_mono h xs).count_le)
  | .invalidBefore v, hs => h.invalidBefore v hs
  | .invalidHereafter v, hs => h.invalidHereafter v hs

theorem satisfiedEach_mono (h : p.Implies q) : ∀ xs : List NativeScript, Improves (p.satisfiedEach xs) (q.satisfiedEach xs)
  | [] => .nil
  | x :: xs => .cons (satisfied_mono h x) (satisfiedEach_mono h xs)

end

end Atoms

/-! ### The two readings -/

section
variable (c : Crypto)

/-- The key hashes of the witnesses. -/
def witnessKeys (wits : List VKeyWitness) : List AddrKeyhash := wits.map fun w => c.blake2b224 w.vkey

/-- The leaves for the bounds of an interval. -/
def boundAtoms (keys : List AddrKeyhash) (low upp : Option UInt64) : Atoms :=
  ⟨keys.contains, fun v => low.any (v ≤ ·), fun v => upp.any (· ≤ v)⟩

/-- The leaves at one slot. -/
def slotAtoms (keys : List AddrKeyhash) (slot : Slot) : Atoms :=
  ⟨keys.contains, fun v => v ≤ slot, fun v => slot < v⟩

mutual

theorem evalNativeScript_eq (keys : List AddrKeyhash) (low upp : Option UInt64) :
    ∀ s, evalNativeScript keys low upp s = (boundAtoms keys low upp).satisfied s
  | .scriptAll xs => by rw [evalNativeScript, Atoms.satisfied, evalNativeScripts_eq]
  | .scriptAny xs => by rw [evalNativeScript, Atoms.satisfied, evalNativeScripts_eq]
  | .scriptPubkey _ => rfl
  | .scriptNOfK n xs => by rw [evalNativeScript, Atoms.satisfied, evalNativeScripts_eq]
  | .invalidBefore _ => by cases low <;> rfl
  | .invalidHereafter _ => by cases upp <;> rfl

theorem evalNativeScripts_eq (keys : List AddrKeyhash) (low upp : Option UInt64) :
    ∀ xs, evalNativeScripts keys low upp xs = (boundAtoms keys low upp).satisfiedEach xs
  | [] => rfl
  | x :: xs => by
    rw [evalNativeScripts, Atoms.satisfiedEach, evalNativeScript_eq keys low upp x, evalNativeScripts_eq keys low upp xs]

end

/-- A present lower bound is still there, and no lower. -/
def Raised (low low' : Option UInt64) : Prop := ∀ a ∈ low, ∃ b ∈ low', a ≤ b

/-- A present upper bound is still there, and no higher. -/
def Lowered (upp upp' : Option UInt64) : Prop := ∀ a ∈ upp, ∃ b ∈ upp', b ≤ a

/-- The slot is in the interval. -/
def Within (low upp : Option UInt64) (slot : Slot) : Prop := (∀ a ∈ low, a ≤ slot) ∧ ∀ b ∈ upp, slot < b

variable {c} {wits wits' : List VKeyWitness} {low low' upp upp' : Option UInt64}

theorem boundAtoms_implies (hwits : wits ⊆ wits') (hlow : Raised low low') (hupp : Lowered upp upp') :
    (boundAtoms (witnessKeys c wits) low upp).Implies (boundAtoms (witnessKeys c wits') low' upp') := by
  refine ⟨fun h hh => ?_, fun v hv => ?_, fun v hv => ?_⟩
  · show (witnessKeys c wits').contains h = true
    rw [List.contains_iff_mem]
    exact List.map_subset _ hwits (List.contains_iff_mem.1 hh)
  · obtain ⟨a, ha, hle⟩ := (Option.any_eq_true _ low).1 hv
    obtain ⟨b, hb, hab⟩ := hlow a ha
    exact (Option.any_eq_true _ low').2 ⟨b, hb, decide_eq_true (UInt64.le_trans (of_decide_eq_true hle) hab)⟩
  · obtain ⟨a, ha, hle⟩ := (Option.any_eq_true _ upp).1 hv
    obtain ⟨b, hb, hba⟩ := hupp a ha
    exact (Option.any_eq_true _ upp').2 ⟨b, hb, decide_eq_true (UInt64.le_trans hba (of_decide_eq_true hle))⟩

theorem boundAtoms_implies_slotAtoms {keys : List AddrKeyhash} {slot : Slot} (h : Within low upp slot) :
    (boundAtoms keys low upp).Implies (slotAtoms keys slot) := by
  refine ⟨fun _ hh => hh, fun v hv => ?_, fun v hv => ?_⟩
  · obtain ⟨a, ha, hle⟩ := (Option.any_eq_true _ low).1 hv
    exact decide_eq_true (UInt64.le_trans (of_decide_eq_true hle) (h.1 a ha))
  · obtain ⟨b, hb, hle⟩ := (Option.any_eq_true _ upp).1 hv
    exact decide_eq_true (UInt64.lt_of_lt_of_le (h.2 b hb) (of_decide_eq_true hle))

/-- More witnesses and a narrower interval satisfy no fewer scripts, and what an interval satisfies is satisfied at each of
its slots. -/
theorem evalNativeScript_monotone_sound {script : NativeScript}
    (h : evalNativeScript (witnessKeys c wits) low upp script = true) :
    (wits ⊆ wits' → Raised low low' → Lowered upp upp' →
      evalNativeScript (witnessKeys c wits') low' upp' script = true) ∧
    ∀ slot, Within low upp slot → (slotAtoms (witnessKeys c wits) slot).satisfied script = true := by
  rw [evalNativeScript_eq] at h
  refine ⟨fun hwits hlow hupp => ?_, fun slot hslot => ?_⟩
  · rw [evalNativeScript_eq]
    exact Atoms.satisfied_mono (boundAtoms_implies hwits hlow hupp) script h
  · exact Atoms.satisfied_mono (boundAtoms_implies_slotAtoms hslot) script h

end

/-- A script with a window, of which the interval from 3 to 5 is a part. -/
theorem window_holds_within :
    let script := NativeScript.scriptNOfK 2 [.scriptAll [.invalidBefore 2, .invalidHereafter 6], .invalidBefore 3, .scriptAny []]
    evalNativeScript [] (some 4) (some 5) script = true ∧ (slotAtoms [] 4).satisfied script = true := by
  intro script
  have hheld : evalNativeScript (witnessKeys readHashes []) (some 3) (some 5) script = true := by decide
  have h := @evalNativeScript_monotone_sound readHashes [] [] (some 3) (some 4) (some 5) (some 5) script hheld
  refine ⟨h.1 (List.Subset.refl _) ?_ ?_, h.2 4 ?_⟩
  · rintro _ ⟨⟩
    exact ⟨4, rfl, by decide⟩
  · rintro _ ⟨⟩
    exact ⟨5, rfl, by decide⟩
  · refine ⟨?_, ?_⟩ <;> rintro _ ⟨⟩ <;> decide

end Pallas.ShelleyMa
