import Pallas.Flat.Encoder

/-!
# The bits of a value

`Kind.image k n x` is the bit string of a value of the kind `k` that starts `n` bits into the buffer. Only values that
begin with a filler depend on `n`. `Written e w` says that the encoder has been given the bits `w`: whole bytes in
the buffer, and the rest at the top of `currentByte` with zeros below. Each operation of the encoder appends the image
of its value.
-/

namespace Pallas.Flat
open Bits

/-- What a filler writes after `n` bits. -/
def padding (n : ℕ) : Bits := ofNat (8 - n % 8) 1

/-- The blocks of a byte string, closed with an empty one. -/
def blocks (x : Bytes) : Bytes := (Encoder.chunks x).flatMap Encoder.block ++ [0]

/-- The items, a set bit in front of each, and a clear bit after the last. -/
def listImage {α : Type} (image : ℕ → α → Bits) : ℕ → List α → Bits
  | _, [] => [false]
  | n, x :: xs => true :: image (n + 1) x ++ listImage image (n + 1 + (image (n + 1) x).length) xs

def Kind.image : (k : Kind) → ℕ → k.Val → Bits
  | .bool, _, x => [x]
  | .u8, _, x => ofNat 8 x.toNat
  | .bits m, _, x => ofNat m x.toNat
  | .word, _, x => ofBytes (groups x.toNat)
  | .integer, _, x => ofBytes (groups (zigzag x).toNat)
  | .bigInteger, _, x => ofBytes (groups (zigzagBig x))
  | .char, _, x => ofBytes (groups x.toNat)
  | .string, n, x => listImage (fun _ c => ofBytes (groups c.toNat)) n x.toList
  | .utf8, n, x => padding n ++ ofBytes (blocks x.toUTF8.data.toList)
  | .bytes, n, x => padding n ++ ofBytes (blocks x)
  | .filler, n, _ => padding n
  | .list item, n, xs => listImage item.image n xs

/-- The values one after the other. -/
def imageAll : ℕ → List ((k : Kind) × k.Val) → Bits
  | _, [] => []
  | n, ⟨k, x⟩ :: rest => k.image n x ++ imageAll (n + (k.image n x).length) rest

/-! ### What the encoder has written -/

/-- The encoder has written these bits. -/
inductive Written : Encoder → Bits → Prop where
  | intro {buffer : Bytes} {used p : ℕ} {current : UInt8} (hused : used < 8) (hp : p < 2 ^ used)
      (hcurrent : current.toNat = p <<< (8 - used)) : Written ⟨buffer, used, current⟩ (ofBytes buffer ++ ofNat used p)

namespace Written
variable {e : Encoder} {w : Bits} {n : ℕ} {v : UInt8}

theorem new : Written .new [] := @intro [] 0 0 0 (by decide) (by decide) rfl

theorem usedBits_eq (h : Written e w) : e.usedBits = w.length % 8 := by
  cases h with
  | @intro buffer used p current hused hp hcurrent =>
    show used = _
    rw [List.length_append, length_ofBytes, length_ofNat]
    omega

theorem usedBits_lt (h : Written e w) : e.usedBits < 8 := by
  rw [h.usedBits_eq]
  omega

theorem aligned (buffer : Bytes) : Written ⟨buffer, 0, 0⟩ (ofBytes buffer) := by
  have h : Written ⟨buffer, 0, 0⟩ (ofBytes buffer ++ ofNat 0 0) := .intro (by decide) (by decide) rfl
  rwa [ofNat, List.append_nil] at h

theorem eq_ofBytes (h : Written e w) (haligned : e.usedBits = 0) : w = ofBytes e.buffer := by
  cases h with
  | intro hused hp hcurrent =>
    obtain rfl := haligned
    exact List.append_nil _

theorem toNat_shiftLeft {x : UInt8} {k : ℕ} (hk : k < 8) : (x <<< UInt8.ofNat k).toNat = x.toNat <<< k % 2 ^ 8 := by
  rw [UInt8.toNat_shiftLeft, UInt8.toNat_ofNat_of_lt' (hk.trans (by decide)), Nat.mod_eq_of_lt hk]

theorem toNat_shiftRight {x : UInt8} {k : ℕ} (hk : k < 8) : (x >>> UInt8.ofNat k).toNat = x.toNat >>> k := by
  rw [UInt8.toNat_shiftRight, UInt8.toNat_ofNat_of_lt' (hk.trans (by decide)), Nat.mod_eq_of_lt hk]

theorem grow (h : Written e w) (hv : v.toNat < 2 ^ n) (hpos : 0 < n) (hroom : e.usedBits + n < 8) :
    Written { e with
      usedBits := e.usedBits + n
      currentByte := e.currentByte ||| v <<< UInt8.ofNat (8 - (e.usedBits + n)) } (w ++ ofNat n v.toNat) := by
  cases h with
  | @intro buffer used p current hused hp hcurrent =>
    replace hroom : used + n < 8 := hroom
    rw [List.append_assoc, ← ofNat_shiftLeft_or used hv]
    refine .intro hroom (shiftLeft_or_lt hp hv) ?_
    have hshift : 8 - used = n + (8 - (used + n)) := by omega
    have hfits : v.toNat <<< (8 - (used + n)) < 2 ^ 8 := by
      have hlt := Nat.shiftLeft_lt (m := 8 - (used + n)) hv
      exact hlt.trans_le (Nat.pow_le_pow_right (by omega) (by omega))
    show (current ||| v <<< UInt8.ofNat (8 - (used + n))).toNat = _
    rw [UInt8.toNat_or, hcurrent, toNat_shiftLeft (by omega), Nat.mod_eq_of_lt hfits, hshift, Nat.shiftLeft_add,
      Nat.shiftLeft_or_distrib]

theorem fill (h : Written e w) (hv : v.toNat < 2 ^ n) (hfull : e.usedBits + n = 8) :
    Written { e with currentByte := e.currentByte ||| v }.nextWord (w ++ ofNat n v.toNat) := by
  cases h with
  | @intro buffer used p current hused hp hcurrent =>
    replace hfull : used + n = 8 := hfull
    have hbyte : (current ||| v).toNat = p <<< n ||| v.toNat := by
      rw [UInt8.toNat_or, hcurrent, show 8 - used = n by omega]
    have hbits : ofBytes buffer ++ ofNat used p ++ ofNat n v.toNat = ofBytes (buffer ++ [current ||| v]) := by
      rw [List.append_assoc, ← ofNat_shiftLeft_or used hv, hfull, ofBytes_append, ofBytes_cons, hbyte, ofBytes_nil,
        List.append_nil]
    rw [hbits]
    exact aligned _

/-- A value that does not fit: its high bits fill the byte, its `s` low bits start the next. -/
theorem spill {s : ℕ} (h : Written e w) (hv : v.toNat < 2 ^ n) (hn : n ≤ 8) (hs : 0 < s)
    (hover : e.usedBits + n = 8 + s) :
    Written ⟨e.buffer ++ [e.currentByte ||| v >>> UInt8.ofNat s], s, v <<< UInt8.ofNat (8 - s)⟩
      (w ++ ofNat n v.toNat) := by
  have hused := h.usedBits_lt
  have hsn : s < n := by omega
  have hhigh : (v >>> UInt8.ofNat s).toNat < 2 ^ (n - s) := by
    rw [toNat_shiftRight (by omega), Nat.shiftRight_eq_div_pow]
    apply Nat.div_lt_of_lt_mul
    rwa [← pow_add, show s + (n - s) = n by omega]
  have hfill := h.fill hhigh (by omega)
  have hwhole := hfill.eq_ofBytes rfl
  have hsplit : ofNat n v.toNat = ofNat (n - s) (v >>> UInt8.ofNat s).toNat ++ ofNat s v.toNat := by
    conv_lhs => rw [show n = n - s + s by omega, ofNat_add]
    rw [toNat_shiftRight (by omega)]
  have hlow : ofNat s v.toNat = ofNat s (v.toNat % 2 ^ s) := by
    apply ofNat_congr
    intro i hi
    rw [Nat.testBit_mod_two_pow]
    simp [hi]
  rw [hsplit, ← List.append_assoc, hwhole, hlow]
  refine .intro (by omega) (Nat.mod_lt _ (by positivity)) ?_
  rw [toNat_shiftLeft (by omega)]
  apply Nat.eq_of_testBit_eq
  intro i
  simp only [Nat.testBit_mod_two_pow, Nat.testBit_shiftLeft]
  grind

/-! ### The operations -/

theorem zero (h : Written e w) : Written e.zero (w ++ [false]) := by
  have hused := h.usedBits_lt
  unfold Encoder.zero
  split
  · have hfill := h.fill (v := 0) (n := 1) (by decide) (by omega)
    rwa [UInt8.or_zero] at hfill
  · have hgrow := h.grow (v := 0) (n := 1) (by decide) (by omega) (by omega)
    rwa [UInt8.zero_shiftLeft, UInt8.or_zero] at hgrow

theorem one (h : Written e w) : Written e.one (w ++ [true]) := by
  have hused := h.usedBits_lt
  unfold Encoder.one
  split
  · exact h.fill (v := 1) (n := 1) (by decide) (by omega)
  · have hgrow := h.grow (v := 1) (n := 1) (by decide) (by omega) (by omega)
    have hmask : ∀ u < 7, (1 : UInt8) <<< UInt8.ofNat (8 - (u + 1)) = 128 >>> UInt8.ofNat u := by decide
    rwa [hmask e.usedBits (by omega)] at hgrow

theorem bool (h : Written e w) (x : Bool) : Written (e.bool x) (w ++ [x]) := by
  cases x with
  | true => exact h.one
  | false => exact h.zero

theorem u8 (h : Written e w) (x : UInt8) : Written (e.u8 x) (w ++ ofNat 8 x.toNat) := by
  have hx := x.toNat_lt
  unfold Encoder.u8
  split
  next haligned =>
    have hfill := (aligned e.buffer).fill (v := x) (n := 8) hx rfl
    rwa [← h.eq_ofBytes haligned, UInt8.zero_or] at hfill
  next haligned => exact h.spill hx le_rfl (Nat.pos_of_ne_zero haligned) (Nat.add_comm _ _)

theorem bits (h : Written e w) (hpos : 1 ≤ n) (hn : n ≤ 8) (hv : v.toNat < 2 ^ n) :
    Written (e.bits n v) (w ++ ofNat n v.toNat) := by
  have hused := h.usedBits_lt
  unfold Encoder.bits
  dsimp only
  split_ifs with h10 h11 h20 h21 h22 h23 hfull hroom
  · obtain ⟨rfl, rfl⟩ := h10
    exact h.zero
  · obtain ⟨rfl, rfl⟩ := h11
    exact h.one
  · obtain ⟨rfl, rfl⟩ := h20
    exact List.append_assoc w [false] [false] ▸ h.zero.zero
  · obtain ⟨rfl, rfl⟩ := h21
    exact List.append_assoc w [false] [true] ▸ h.zero.one
  · obtain ⟨rfl, rfl⟩ := h22
    exact List.append_assoc w [true] [false] ▸ h.one.zero
  · obtain ⟨rfl, rfl⟩ := h23
    exact List.append_assoc w [true] [true] ▸ h.one.one
  · exact h.fill hv hfull
  · exact h.grow hv hpos hroom
  · exact h.spill hv hn (by omega) (by omega)

theorem byte (h : Written e w) (b : UInt8) : Written (e.bits 8 b) (w ++ ofNat 8 b.toNat) :=
  h.bits (by decide) le_rfl b.toNat_lt

theorem words (h : Written e w) (d : ℕ) : Written (e.words d) (w ++ ofBytes (groups d)) := by
  induction d using groups.induct generalizing e w with
  | case1 d hlast =>
    rw [Encoder.words, if_pos hlast, groups_of_eq hlast, ofBytes_cons, ofBytes_nil, List.append_nil]
    exact h.byte _
  | case2 d hmore ih =>
    rw [Encoder.words, if_neg hmore, groups_of_ne hmore, ofBytes_cons, ← List.append_assoc]
    exact ih (h.byte _)

theorem filler (h : Written e w) : Written e.filler (w ++ padding w.length) := by
  have hused := h.usedBits_lt
  rw [padding, ← h.usedBits_eq]
  exact h.fill (v := 1) (Nat.one_lt_two_pow (by omega)) (by omega)

theorem byteArray (h : Written e w) (haligned : e.usedBits = 0) (arr : Bytes) :
    ∃ e', e.byteArray arr = .ok e' ∧ Written e' (w ++ ofBytes (blocks arr)) := by
  refine ⟨e.writeBlk arr, if_neg (by simpa using haligned), ?_⟩
  have hpushed : ∀ (cs : List Bytes) (buffer : Bytes),
      cs.foldl (fun buffer chunk => buffer ++ Encoder.block chunk) buffer = buffer ++ cs.flatMap Encoder.block := by
    intro cs
    induction cs with
    | nil => simp
    | cons c cs ih =>
      intro buffer
      rw [List.foldl_cons, ih, List.flatMap_cons, List.append_assoc]
  cases h with
  | @intro buffer used p current hused hp hcurrent =>
    obtain rfl := haligned
    obtain rfl : p = 0 := by omega
    obtain rfl : current = 0 := UInt8.toNat_inj.1 hcurrent
    have hbuffer := aligned (buffer ++ blocks arr)
    rw [ofBytes_append] at hbuffer
    simpa [Encoder.writeBlk, hpushed, ofNat, blocks] using hbuffer

theorem bytes (h : Written e w) (x : Bytes) :
    ∃ e', e.bytes x = .ok e' ∧ Written e' (w ++ (padding w.length ++ ofBytes (blocks x))) := by
  rw [← List.append_assoc]
  exact h.filler.byteArray rfl x

theorem char (h : Written e w) (c : Char) : Written (e.char c) (w ++ ofBytes (groups c.toNat)) := by
  have hc : c.val.toUInt64.toNat = c.toNat := UInt32.toNat_toUInt64 c.val
  rw [Encoder.char, Encoder.word, hc]
  exact h.words _

theorem list_cons {w : Bits} {e : Encoder} {α : Type} {image : ℕ → α → Bits} {x : α} {xs : List α}
    (h : Written e (w ++ [true] ++ image (w.length + 1) x ++
      listImage image (w ++ [true] ++ image (w.length + 1) x).length xs)) :
    Written e (w ++ listImage image w.length (x :: xs)) := by
  have hlen : (w ++ [true] ++ image (w.length + 1) x).length = w.length + 1 + (image (w.length + 1) x).length := by
    rw [List.length_append, List.length_append, List.length_singleton]
  rw [hlen] at h
  simpa [listImage] using h

theorem string (h : Written e w) (s : String) :
    Written (e.string s) (w ++ listImage (fun _ c => ofBytes (groups c.toNat)) w.length s.toList) := by
  unfold Encoder.string
  induction s.toList generalizing e w with
  | nil => exact h.zero
  | cons c cs ih =>
    rw [List.foldl_cons]
    exact (ih (h.one.char c)).list_cons

theorem encodeListWith {α : Type} {image : ℕ → α → Bits} {encoderFunc : α → Encoder → Except EncodeError Encoder}
    {xs : List α} (h : Written e w)
    (hitem : ∀ x ∈ xs, ∀ {e w}, Written e w → ∃ e', encoderFunc x e = .ok e' ∧ Written e' (w ++ image w.length x)) :
    ∃ e', e.encodeListWith xs encoderFunc = .ok e' ∧ Written e' (w ++ listImage image w.length xs) := by
  induction xs generalizing e w with
  | nil => exact ⟨e.zero, rfl, h.zero⟩
  | cons x xs ih =>
    obtain ⟨e₁, he₁, h₁⟩ := hitem x List.mem_cons_self h.one
    rw [List.length_append, List.length_singleton] at h₁
    obtain ⟨e₂, he₂, h₂⟩ := ih h₁ fun y hy => hitem y (List.mem_cons_of_mem x hy)
    refine ⟨e₂, ?_, h₂.list_cons⟩
    rw [← he₂, Encoder.encodeListWith, Encoder.encodeListWith, List.foldlM_cons, he₁]
    rfl

end Written

theorem Kind.written (k : Kind) {x : k.Val} (hx : k.Holds x) {e : Encoder} {w : Bits} (h : Written e w) :
    ∃ e', k.encode x e = .ok e' ∧ Written e' (w ++ k.image w.length x) := by
  induction k generalizing e w with
  | bool => exact ⟨_, rfl, h.bool x⟩
  | u8 => exact ⟨_, rfl, h.u8 x⟩
  | bits n => exact ⟨_, rfl, h.bits hx.1 hx.2.1 hx.2.2⟩
  | word => exact ⟨_, rfl, h.words _⟩
  | integer => exact ⟨_, rfl, h.words _⟩
  | bigInteger => exact ⟨_, rfl, h.words _⟩
  | char => exact ⟨_, rfl, h.char x⟩
  | string => exact ⟨_, rfl, h.string x⟩
  | utf8 => exact h.bytes _
  | bytes => exact h.bytes x
  | filler => exact ⟨_, rfl, h.filler⟩
  | list item ih => exact h.encodeListWith fun y hy _ _ hw => ih (hx y hy) hw

/-- The values one after the other, into one encoder. -/
def encodeAll (values : List ((k : Kind) × k.Val)) (e : Encoder) : Except EncodeError Encoder :=
  values.foldlM (fun e value => value.1.encode value.2 e) e

theorem encodeAll_written {values : List ((k : Kind) × k.Val)} (hvalues : ∀ value ∈ values, value.1.Holds value.2)
    {e : Encoder} {w : Bits} (h : Written e w) :
    ∃ e', encodeAll values e = .ok e' ∧ Written e' (w ++ imageAll w.length values) := by
  induction values generalizing e w with
  | nil => exact ⟨e, rfl, by simpa [imageAll] using h⟩
  | cons value rest ih =>
    obtain ⟨e₁, he₁, h₁⟩ := value.1.written (hvalues value List.mem_cons_self) h
    obtain ⟨e₂, he₂, h₂⟩ := ih (fun v hv => hvalues v (List.mem_cons_of_mem value hv)) h₁
    refine ⟨e₂, ?_, ?_⟩
    · rw [← he₂, encodeAll, encodeAll, List.foldlM_cons, he₁]
      rfl
    · rw [List.length_append, List.append_assoc] at h₂
      exact h₂

end Pallas.Flat
