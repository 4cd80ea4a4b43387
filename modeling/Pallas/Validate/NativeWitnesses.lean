import Pallas.Validate.ShelleyMa
import Pallas.Lib.CborItem

/-!
# Finding a native script among the witnesses

The loop of `check_native_script_witness` writes every script into one buffer, after the ones before it, and hashes the
buffer. So it hashes the first script as it should, and from the second on a sequence of scripts.
-/

namespace Pallas.ShelleyMa

section
variable {c : Crypto} {hash : ScriptHash}

/-- The scripts one after the other, as the buffer holds them. -/
def scriptBytes (scripts : List NativeScript) : Bytes := scripts.flatMap NativeScript.encode

/-- The scripts that have been read hash to `hash`, after some that do not matter. -/
theorem findScriptHash_eq_ok {scripts : List NativeScript} {payload : Bytes} :
    findScriptHash c hash payload scripts = .ok () ↔
      ∃ pre script post, scripts = pre ++ script :: post ∧
        c.blake2b224 (payload ++ scriptBytes (pre ++ [script])) = hash := by
  induction scripts generalizing payload with
  | nil =>
    refine iff_of_false nofun ?_
    rintro ⟨pre, script, post, h, -⟩
    cases pre <;> cases h
  | cons script rest ih =>
    have hbytes : scriptBytes [script] = script.encode := List.append_nil _
    rw [findScriptHash]
    by_cases hfirst : c.blake2b224 (payload ++ script.encode) = hash
    · rw [if_pos hfirst]
      exact iff_of_true rfl ⟨[], script, rest, rfl, by rwa [List.nil_append, hbytes]⟩
    · rw [if_neg hfirst, ih]
      constructor
      · rintro ⟨pre, last, post, rfl, h⟩
        refine ⟨script :: pre, last, post, rfl, ?_⟩
        rwa [List.append_assoc] at h
      · rintro ⟨pre, last, post, hscripts, h⟩
        cases pre with
        | nil =>
          obtain ⟨rfl, -⟩ := List.cons.inj hscripts
          rw [List.nil_append, hbytes] at h
          exact absurd h hfirst
        | cons first pre =>
          obtain ⟨rfl, rfl⟩ := List.cons.inj hscripts
          refine ⟨pre, last, post, rfl, ?_⟩
          rwa [List.append_assoc]

theorem checkNativeScriptWitness_some {scripts : List NativeScript} :
    checkNativeScriptWitness c hash (some scripts) = .ok () ↔
      ∃ pre script post, scripts = pre ++ script :: post ∧ c.blake2b224 (0 :: scriptBytes (pre ++ [script])) = hash :=
  findScriptHash_eq_ok

end

section
variable (c : Crypto) (hash : ScriptHash)

/-- The first script has the hash. -/
def FirstMatches (scripts : List NativeScript) :
    Prop := ∃ script ∈ scripts.head?, computeNativeScriptHash c script = hash

/-- A script after the first has the hash. -/
def LaterMatches (scripts : List NativeScript) :
    Prop := ∃ script ∈ scripts.tail, computeNativeScriptHash c script = hash

/-- The first scripts, two or more of them written one after the other, have the hash. -/
def TogetherMatch (scripts : List NativeScript) : Prop :=
  ∃ pre script post, scripts = pre ++ script :: post ∧ pre ≠ [] ∧
    c.blake2b224 (0 :: scriptBytes (pre ++ [script])) = hash

/-- A script is found exactly where it is among the witnesses, if it is the first, or if any other is there exactly where the
hash is that of the scripts up to some place. -/
theorem checkNativeScriptWitness_finds_iff (scripts : List NativeScript) :
    (checkNativeScriptWitness c hash (some scripts) = .ok () ↔
      ∃ script ∈ scripts, computeNativeScriptHash c script = hash) ↔
      FirstMatches c hash scripts ∨ (LaterMatches c hash scripts ↔ TogetherMatch c hash scripts) := by
  have hfound : checkNativeScriptWitness c hash (some scripts) = .ok () ↔
      FirstMatches c hash scripts ∨ TogetherMatch c hash scripts := by
    rw [checkNativeScriptWitness_some]
    constructor
    · rintro ⟨pre, script, post, rfl, h⟩
      cases pre with
      | nil =>
        rw [List.nil_append, scriptBytes, List.flatMap_singleton] at h
        exact .inl ⟨script, rfl, h⟩
      | cons first pre => exact .inr ⟨first :: pre, script, post, rfl, List.cons_ne_nil _ _, h⟩
    · rintro (⟨script, hscript, h⟩ | ⟨pre, script, post, hscripts, -, h⟩)
      · obtain ⟨rest, rfl⟩ := List.head?_eq_some_iff.1 hscript
        refine ⟨[], script, rest, rfl, ?_⟩
        rwa [List.nil_append, scriptBytes, List.flatMap_singleton]
      · exact ⟨pre, script, post, hscripts, h⟩
  have hthere : (∃ script ∈ scripts, computeNativeScriptHash c script = hash) ↔
      FirstMatches c hash scripts ∨ LaterMatches c hash scripts := by
    cases scripts with
    | nil =>
      refine iff_of_false ?_ ?_
      · rintro ⟨script, hscript, -⟩
        cases hscript
      · rintro (⟨script, hscript, -⟩ | ⟨script, hscript, -⟩)
        · cases hscript
        · cases hscript
    | cons first rest => simp [FirstMatches, LaterMatches]
  rw [hfound, hthere]
  by_cases hfirst : FirstMatches c hash scripts
  · simp only [hfirst, true_or]
  · simp only [hfirst, false_or]
    exact Iff.comm

end

/-- Hashes that keep short strings apart. -/
def readHashes : Crypto :=
  ⟨fun bs => BitVec.ofNat _ (Cbor.ofBigEndian bs), fun bs => BitVec.ofNat _ (Cbor.ofBigEndian bs),
    fun bs => bs, fun _ _ _ => false⟩

/-- The second of two scripts is not found under its own hash. -/
theorem second_script_not_found :
    ¬ (checkNativeScriptWitness readHashes (computeNativeScriptHash readHashes (.invalidBefore 2))
          (some [.invalidBefore 1, .invalidBefore 2]) = .ok () ↔
        ∃ script ∈ [NativeScript.invalidBefore 1, .invalidBefore 2],
          computeNativeScriptHash readHashes script = computeNativeScriptHash readHashes (.invalidBefore 2)) := by
  intro h
  have hfound := h.2 ⟨.invalidBefore 2, by simp, rfl⟩
  rw [checkNativeScriptWitness, findScriptHash, if_neg (by decide), findScriptHash, if_neg (by decide)] at hfound
  cases hfound

end Pallas.ShelleyMa
