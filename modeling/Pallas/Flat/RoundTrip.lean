import Pallas.Flat.Decoder

/-!
# The decoder reads what the encoder wrote

Each method of the decoder returns the value whose image comes next and moves by the length of that image, wherever
in a byte it starts and whatever follows. With `Kind.written` this gives the round trip of a sequence of values.
-/

namespace Pallas.Flat
open Bits

/-- In front of the bits `w` the procedure returns `a` and moves behind them. -/
def Reads {α : Type} (p : DecodeM α) (a : α) (d : Decoder) (w : Bits) : Prop :=
  ∀ t, d.rest = w ++ t → p d = (.ok a, d.advance w.length)

namespace Reads
variable {α β : Type} {d : Decoder} {t : Bits}

theorem passes {body : α → DecodeM (α ⊕ β)} {a : α} {b : β} {w : Bits}
    (h : ∀ fuel, d.rest.length < fuel → Reads (Proc.loop body fuel a) b d w) : Reads (Decoder.passes body a) b d w := by
  intro t ht
  rw [Decoder.passes, Proc.get_bind]
  exact h _ (by rw [Decoder.bitsLeft_eq]; omega) t ht

theorem map {p : DecodeM α} {a : α} {w : Bits} (f : α → β) (h : Reads p a d w) :
    Reads (do return f (← p)) (f a) d w := fun t ht => by
  rw [Proc.bind_ok (h t ht)]
  rfl

/-! ### Fillers -/

theorem zero_cons {b : Bool} (h : d.rest = b :: t) (hused : d.usedBits < 8) :
    Decoder.zero d = (.ok !b, d.advance 1) := by
  rw [Decoder.zero, Proc.bind_ok (Decoder.bit_cons h hused)]
  rfl

theorem fillerLoop (k fuel : ℕ) (hused : d.usedBits < 8) (hfuel : d.rest.length < fuel) :
    Reads (Proc.loop (fun _ => Decoder.fillerPass) fuel ()) () d (ofNat (k + 1) 1) := by
  intro t ht
  have hlen := congrArg List.length ht
  rw [List.length_append, length_ofNat] at hlen
  induction k generalizing d fuel with
  | zero =>
    obtain ⟨fuel, rfl⟩ : ∃ f, fuel = f + 1 := ⟨fuel - 1, by omega⟩
    have hpass : Decoder.fillerPass d = (.ok (.inr ()), d.advance 1) := Proc.bind_ok (zero_cons ht hused)
    rw [Proc.loop_stop hpass, length_ofNat]
  | succ k ih =>
    obtain ⟨fuel, rfl⟩ : ∃ f, fuel = f + 1 := ⟨fuel - 1, by omega⟩
    have hbit : (1 : ℕ).testBit (k + 1) = false := Nat.testBit_lt_two_pow (Nat.one_lt_two_pow (by omega))
    have hfirst : d.rest = false :: (ofNat (k + 1) 1 ++ t) := by rw [ht, ofNat, hbit, List.cons_append]
    have hrest : (d.advance 1).rest =
        ofNat (k + 1) 1 ++ t := by rw [Decoder.rest_advance, hfirst, List.drop_one, List.tail_cons]
    have hlen' := congrArg List.length hrest
    rw [List.length_append, length_ofNat] at hlen'
    have hpass : Decoder.fillerPass d = (.ok (.inl ()), d.advance 1) := Proc.bind_ok (zero_cons hfirst hused)
    rw [Proc.loop_next hpass, ih fuel Decoder.usedBits_advance (by omega) hrest hlen', Decoder.advance_advance,
      length_ofNat, length_ofNat, Nat.add_comm 1]

theorem filler (hused : d.usedBits < 8) : Reads Decoder.filler () d (padding d.offset) := by
  have hpad : padding d.offset = ofNat (7 - d.offset % 8 + 1) 1 := by
    rw [padding, show 8 - d.offset % 8 = 7 - d.offset % 8 + 1 by omega]
  rw [hpad]
  exact passes fun fuel hfuel => fillerLoop _ fuel hused hfuel

/-! ### Words -/

theorem last_group {x : ℕ} (h : x < 128) : UInt8.ofNat x &&& 127 = UInt8.ofNat x ∧ ¬ UInt8.ofNat x &&& 128 > 0 := by
  revert x
  decide

theorem more_group {x : ℕ} (h : x < 128) :
    UInt8.ofNat (x ||| 128) &&& 127 = UInt8.ofNat x ∧ UInt8.ofNat (x ||| 128) &&& 128 > 0 := by
  revert x
  decide

theorem lt_128_of_shiftRight {c : ℕ} (h : c >>> 7 = 0) : c < 128 := by
  rw [Nat.shiftRight_eq_div_pow] at h
  omega

theorem and_127_of_lt {c : ℕ} (h : c < 128) : c &&& 127 = c := by
  rw [show (127 : ℕ) = 2 ^ 7 - 1 from rfl, Nat.and_two_pow_sub_one_eq_mod]
  omega

/-- The accumulator after a pass of `big_word`, put together with what is above. -/
theorem accumulate (acc c shl : ℕ) :
    (acc ||| (c &&& 127) <<< shl) ||| c >>> 7 <<< (shl + 7) = acc ||| c <<< shl := by
  rw [Nat.or_assoc]
  conv_rhs => rw [← and_127_or c]
  rw [Nat.shiftLeft_or_distrib, ← Nat.shiftLeft_add, Nat.add_comm shl]

theorem groupsLoop {γ : Type} {pass : γ × ℕ → DecodeM ((γ × ℕ) ⊕ γ)} (val : γ → ℕ) (hval : Function.Injective val)
    (fits : ℕ → ℕ → Prop) (hfits : ∀ {shl c}, fits shl c → c >>> 7 ≠ 0 → fits (shl + 7) (c >>> 7))
    (hpass : ∀ acc {shl c b d t}, fits shl c → d.usedBits < 8 → d.rest = ofNat 8 (b : UInt8).toNat ++ t →
      (b &&& 127).toNat = c &&& 127 → ∃ acc', val acc' = val acc ||| (c &&& 127) <<< shl ∧
        pass (acc, shl) d = (.ok (if b &&& 128 > 0 then .inl (acc', shl + 7) else .inr acc'), d.advance 8))
    {c shl fuel : ℕ} {acc r : γ} (hc : fits shl c) (hr : val r = val acc ||| c <<< shl) (hused : d.usedBits < 8)
    (hfuel : d.rest.length < fuel) : Reads (Proc.loop pass fuel (acc, shl)) r d (ofBytes (groups c)) := by
  intro t ht
  induction c using groups.induct generalizing d fuel acc shl with
  | case1 c hlast =>
    obtain ⟨fuel, rfl⟩ : ∃ f, fuel = f + 1 := ⟨fuel - 1, by omega⟩
    have hlt := lt_128_of_shiftRight hlast
    rw [groups_of_eq hlast, and_127_of_lt hlt] at ht ⊢
    obtain ⟨hlow, htop⟩ := last_group hlt
    have hbyte : (UInt8.ofNat c &&& 127).toNat = c &&& 127 := by
      rw [hlow, UInt8.toNat_ofNat_of_lt' (hlt.trans (by decide)), and_127_of_lt hlt]
    obtain ⟨acc', hacc', hread⟩ := hpass acc hc hused ht hbyte
    rw [if_neg htop] at hread
    rw [and_127_of_lt hlt, ← hr] at hacc'
    rw [Proc.loop_stop hread, hval hacc', length_ofBytes]
    rfl
  | case2 c hmore ih =>
    obtain ⟨fuel, rfl⟩ : ∃ f, fuel = f + 1 := ⟨fuel - 1, by omega⟩
    have hlt := and_127_lt c
    rw [groups_of_ne hmore, ofBytes_cons] at ht ⊢
    rw [List.append_assoc] at ht
    obtain ⟨hlow, htop⟩ := more_group hlt
    have hbyte : (UInt8.ofNat (c &&& 127 ||| 128) &&& 127).toNat = c &&& 127 := by
      rw [hlow, UInt8.toNat_ofNat_of_lt' (hlt.trans (by decide))]
    obtain ⟨acc', hacc', hread⟩ := hpass acc hc hused ht hbyte
    rw [if_pos htop] at hread
    have hrest : (d.advance 8).rest = ofBytes (groups (c >>> 7)) ++ t := by
      rw [Decoder.rest_advance, ht, List.drop_left' (length_ofNat _ _)]
    have hshort : (d.advance 8).rest.length < fuel := by
      have hlen := congrArg List.length ht
      rw [List.length_append, length_ofNat] at hlen
      rw [Decoder.rest_advance, List.length_drop]
      omega
    have hr' : val r = val acc' ||| c >>> 7 <<< (shl + 7) := by rw [hr, hacc', accumulate]
    rw [Proc.loop_next hread, ih (hfits hc hmore) hr' Decoder.usedBits_advance hshort hrest, Decoder.advance_advance,
      List.length_append, length_ofNat]

theorem bigWord (c : ℕ) (hused : d.usedBits < 8) : Reads Decoder.bigWord c d (ofBytes (groups c)) := by
  refine passes fun fuel hfuel => groupsLoop id Function.injective_id (fun _ _ => True)
    (fun _ _ => trivial) ?_ trivial (by simp) hused hfuel
  intro acc shl c b d t _ hused ht hbyte
  refine ⟨acc ||| (c &&& 127) <<< shl, rfl, ?_⟩
  rw [Decoder.bigWordPass, Proc.bind_ok (Decoder.byte_ok ht hused), hbyte]
  rfl

theorem word (c : UInt64) (hused : d.usedBits < 8) : Reads Decoder.word c d (ofBytes (groups c.toNat)) := by
  refine passes fun fuel hfuel => groupsLoop UInt64.toNat (fun _ _ => UInt64.toNat_inj.1)
    (fun shl c => c <<< shl < 2 ^ 64 ∧ shl < 64) ?_ ?_ ⟨c.toNat_lt, by decide⟩ (by simp) hused hfuel
  · rintro shl c ⟨hlt, -⟩ hmore
    have hshift : c >>> 7 <<< (shl + 7) ≤ c <<< shl := by
      rw [Nat.shiftLeft_eq, Nat.shiftLeft_eq, Nat.shiftRight_eq_div_pow, pow_add, mul_comm (2 ^ shl), ← mul_assoc]
      exact Nat.mul_le_mul_right _ (Nat.div_mul_le_self c _)
    refine ⟨hshift.trans_lt hlt, ?_⟩
    by_contra hge
    have hone : 1 ≤ c >>> 7 := Nat.one_le_iff_ne_zero.2 hmore
    have hbig : 2 ^ 64 ≤ c >>> 7 <<< (shl + 7) := by
      rw [Nat.shiftLeft_eq]
      calc 2 ^ 64 ≤ 2 ^ (shl + 7) := Nat.pow_le_pow_right (by decide) (by omega)
        _ = 1 * 2 ^ (shl + 7) := (one_mul _).symm
        _ ≤ _ := Nat.mul_le_mul_right _ hone
    omega
  · rintro acc shl c b d t ⟨hlt, hshl⟩ hused ht hbyte
    refine ⟨acc ||| (b &&& 127).toUInt64 <<< UInt64.ofNat shl, ?_, ?_⟩
    · have hfits : (c &&& 127) <<< shl < 2 ^ 64 := by
        refine lt_of_le_of_lt ?_ hlt
        rw [Nat.shiftLeft_eq, Nat.shiftLeft_eq]
        exact Nat.mul_le_mul_right _ Nat.and_le_left
      rw [UInt64.toNat_or, UInt64.toNat_shiftLeft, UInt64.toNat_ofNat_of_lt' (hshl.trans (by decide)),
        Nat.mod_eq_of_lt hshl, UInt8.toNat_toUInt64, hbyte, Nat.mod_eq_of_lt hfits]
    · rw [Decoder.wordPass, Proc.bind_ok (Decoder.byte_ok ht hused), if_neg (Nat.not_le.2 hshl)]
      rfl

end Reads

/-! ### Zigzag -/

theorem getLsbD_zigzag (i : Int64) {k : ℕ} (hk : k < 64) :
    (zigzag i).toBitVec.getLsbD k = ((!decide (k = 0) && i.toBitVec.getLsbD (k - 1)) ^^ i.toBitVec.msb) := by
  have hwide : (i.toBitVec.signExtend 128).getLsbD (63 + k) = i.toBitVec.msb := by
    rw [BitVec.getLsbD_signExtend]
    rcases Nat.eq_zero_or_pos k with rfl | hpos
    · simp [BitVec.msb_eq_getLsbD_last]
    · simp [show ¬ 63 + k < 64 by omega, show 63 + k < 128 by omega]
  have hlow : (i.toBitVec.signExtend 128).getLsbD (k - 1) = i.toBitVec.getLsbD (k - 1) := by
    rw [BitVec.getLsbD_signExtend]
    simp [show k - 1 < 64 by omega, show k - 1 < 128 by omega]
  simp only [zigzag, BitVec.getLsbD_setWidth, BitVec.getLsbD_xor, BitVec.getLsbD_shiftLeft,
    BitVec.getLsbD_sshiftRight, hwide, hlow]
  simp [hk, show k < 128 by omega, show 63 + k < 128 by omega, show ¬ 128 ≤ k by omega]

theorem toBitVec_unzigzag (n : UInt64) : (unzigzag n).toBitVec = (n.toBitVec >>> 1) ^^^ -(n.toBitVec &&& 1) := by
  simp [unzigzag]

theorem neg_and_one (x : BitVec 64) : -(x &&& 1) = if x.getLsbD 0 then BitVec.allOnes 64 else 0 := by
  have hone : x &&& 1 = if x.getLsbD 0 then 1 else 0 := by
    ext k hk
    cases k with
    | zero => cases h : x.getLsbD 0 <;> simp_all
    | succ k => cases h : x.getLsbD 0 <;> simp_all
  rw [hone]
  cases x.getLsbD 0 <;> rfl

theorem unzigzag_zigzag (i : Int64) : unzigzag (zigzag i) = i := by
  apply Int64.toBitVec_inj.1
  rw [toBitVec_unzigzag, neg_and_one, getLsbD_zigzag i (by decide)]
  apply BitVec.eq_of_getLsbD_eq
  intro k hk
  rw [BitVec.getLsbD_xor, BitVec.getLsbD_ushiftRight]
  rcases Nat.lt_or_ge (1 + k) 64 with hk' | hk'
  · rw [getLsbD_zigzag i hk']
    cases h : i.toBitVec.msb with
    | false => simp [hk]
    | true => simp [hk, -BitVec.reduceAllOnes]
  · obtain rfl : k = 63 := by omega
    rw [BitVec.getLsbD_of_ge _ _ hk']
    cases h : i.toBitVec.msb <;> simp_all [BitVec.msb_eq_getLsbD_last]

theorem unzigzagBig_zigzagBig (i : ℤ) : unzigzagBig (zigzagBig i) = i := by
  unfold unzigzagBig
  rcases lt_or_ge i 0 with hneg | hpos
  · obtain ⟨n, rfl⟩ := Int.eq_negSucc_of_lt_zero hneg
    have hn : zigzagBig (Int.negSucc n) = 2 * n + 1 := by
      rw [zigzagBig, if_neg (Int.not_le.2 hneg), Int.shiftLeft_eq]
      omega
    have hhalf : (2 * n + 1) >>> 1 = n := by rw [Nat.shiftRight_eq_div_pow]; omega
    have hsign : 2 * n + 1 &&& 1 = 1 := by rw [Nat.and_one_is_mod]; omega
    rw [hn, hhalf, hsign]
    show Int.negSucc (n ^^^ 0) = _
    rw [Nat.xor_zero]
  · obtain ⟨n, rfl⟩ := Int.eq_ofNat_of_zero_le hpos
    have hn : zigzagBig n = 2 * n := by
      rw [zigzagBig, if_pos hpos, Int.shiftLeft_eq]
      omega
    have hhalf : (2 * n) >>> 1 = n := by rw [Nat.shiftRight_eq_div_pow]; omega
    have hsign : 2 * n &&& 1 = 0 := by rw [Nat.and_one_is_mod]; omega
    rw [hn, hhalf, hsign]
    show Int.ofNat (n ^^^ 0) = _
    rw [Nat.xor_zero]
    rfl

namespace Reads
variable {α β : Type} {d : Decoder} {t : Bits}

theorem integer (i : Int64) (hused : d.usedBits < 8) :
    Reads Decoder.integer i d (ofBytes (groups (zigzag i).toNat)) := by
  have h := (word (zigzag i) hused).map unzigzag
  rwa [unzigzag_zigzag] at h

theorem bigInteger (i : ℤ) (hused : d.usedBits < 8) :
    Reads Decoder.bigInteger i d (ofBytes (groups (zigzagBig i))) := by
  have h := (bigWord (zigzagBig i) hused).map unzigzagBig
  rwa [unzigzagBig_zigzagBig] at h

theorem char (c : Char) (hused : d.usedBits < 8) : Reads Decoder.char c d (ofBytes (groups c.toNat)) := by
  have hc : c.val.toUInt64.toNat = c.toNat := UInt32.toNat_toUInt64 c.val
  have hword := word c.val.toUInt64 hused
  rw [hc] at hword
  intro t ht
  have hback : c.val.toUInt64.toUInt32 = c.val := UInt32.toUInt32_toUInt64 c.val
  rw [Decoder.char, Proc.bind_ok (hword t ht)]
  simp only [hback, dif_pos c.valid]
  rfl

/-! ### Lists -/

theorem listLoop {push : β → α → β} {item : DecodeM α} {image : ℕ → α → Bits}
    {xs : List α} (hitem : ∀ x ∈ xs, ∀ {d : Decoder}, d.usedBits < 8 → Reads item x d (image d.offset x))
    (acc : β) (fuel : ℕ) (hused : d.usedBits < 8) (hfuel : d.rest.length < fuel) :
    Reads (Proc.loop (Decoder.listPass push item) fuel acc) (xs.foldl push acc) d (listImage image d.offset xs) := by
  intro t ht
  induction xs generalizing d fuel acc with
  | nil =>
    obtain ⟨fuel, rfl⟩ : ∃ f, fuel = f + 1 := ⟨fuel - 1, by omega⟩
    have hpass : Decoder.listPass push item acc d = (.ok (.inr acc), d.advance 1) := by
      rw [Decoder.listPass, Proc.bind_ok (Decoder.bit_cons ht hused)]
      rfl
    rw [Proc.loop_stop hpass]
    rfl
  | cons x xs ih =>
    obtain ⟨fuel, rfl⟩ : ∃ f, fuel = f + 1 := ⟨fuel - 1, by omega⟩
    rw [listImage, List.cons_append, List.cons_append] at ht
    have hbit := Decoder.bit_cons ht hused
    have hrest : (d.advance 1).rest = image (d.offset + 1) x ++
        (listImage image (d.offset + 1 + (image (d.offset + 1) x).length) xs ++ t) := by
      rw [Decoder.rest_advance, ht, List.drop_one, List.tail_cons, List.append_assoc]
    have hitemRead := hitem x List.mem_cons_self Decoder.usedBits_advance _ (by rwa [Decoder.offset_advance])
    rw [Decoder.offset_advance, Decoder.advance_advance] at hitemRead
    have hpass : Decoder.listPass push item acc d =
        (.ok (.inl (push acc x)), d.advance (1 + (image (d.offset + 1) x).length)) := by
      rw [Decoder.listPass, Proc.bind_ok hbit]
      exact Proc.bind_ok hitemRead
    have hrest' : (d.advance (1 + (image (d.offset + 1) x).length)).rest =
        listImage image (d.offset + (1 + (image (d.offset + 1) x).length)) xs ++ t := by
      rw [← Decoder.advance_advance, Decoder.rest_advance, hrest, List.drop_left, Nat.add_assoc]
    have hlen := congrArg List.length ht
    rw [List.length_cons] at hlen
    have hshort : (d.advance (1 + (image (d.offset + 1) x).length)).rest.length < fuel := by
      rw [Decoder.rest_advance, List.length_drop]
      omega
    rw [Proc.loop_next hpass,
      ih (fun y hy => hitem y (List.mem_cons_of_mem x hy)) _ fuel Decoder.usedBits_advance hshort
      (by rwa [Decoder.offset_advance]), Decoder.advance_advance, Decoder.offset_advance, List.foldl_cons, listImage]
    simp only [List.cons_append, List.length_cons, List.length_append]
    congr 2
    rw [Nat.add_assoc d.offset]
    omega

theorem decodeListWith {item : DecodeM α} {image : ℕ → α → Bits} {xs : List α}
    (hitem : ∀ x ∈ xs, ∀ {d : Decoder}, d.usedBits < 8 → Reads item x d (image d.offset x)) (hused : d.usedBits < 8) :
    Reads (Decoder.decodeListWith item) xs d (listImage image d.offset xs) := by
  have hpush : ∀ acc : List α, xs.foldl (fun xs x => xs ++ [x]) acc = acc ++ xs := by
    intro acc
    induction xs generalizing acc with
    | nil => simp
    | cons x xs ih =>
      rw [List.foldl_cons, ih fun y hy => hitem y (List.mem_cons_of_mem x hy)]
      simp
  refine passes fun fuel hfuel => ?_
  have h := @listLoop α (List α) d (fun xs x => xs ++ [x]) item image xs hitem [] fuel hused hfuel
  rwa [hpush, List.nil_append] at h

theorem string (s : String) (hused : d.usedBits < 8) :
    Reads Decoder.string s d (listImage (fun _ c => ofBytes (groups c.toNat)) d.offset s.toList) := by
  have hpush : ∀ (cs : List Char) (acc : String), (cs.foldl String.push acc).toList = acc.toList ++ cs := by
    intro cs
    induction cs with
    | nil => simp
    | cons c cs ih =>
      intro acc
      rw [List.foldl_cons, ih, String.toList_push, List.append_assoc]
      rfl
  refine passes fun fuel hfuel => ?_
  have h := @listLoop Char String d String.push Decoder.char (fun _ c => ofBytes (groups c.toNat)) s.toList
    (fun c _ _ hused => char c hused) "" fuel hused hfuel
  have hs : s.toList.foldl String.push "" = s := String.ext (by rw [hpush]; rfl)
  rwa [hs] at h

/-! ### Byte arrays -/

theorem flatten_chunks (arr : Bytes) : (Encoder.chunks arr).flatten = arr := by
  induction arr using Encoder.chunks.induct with
  | case1 => simp [Encoder.chunks]
  | case2 arr hne ih => rw [Encoder.chunks, if_neg hne, List.flatten_cons, ih, List.take_append_drop]

theorem mem_chunks {arr chunk : Bytes} (h : chunk ∈ Encoder.chunks arr) : chunk ≠ [] ∧ chunk.length < 256 := by
  induction arr using Encoder.chunks.induct with
  | case1 => simp [Encoder.chunks] at h
  | case2 arr hne ih =>
    rw [Encoder.chunks, if_neg hne] at h
    rcases List.mem_cons.1 h with rfl | hrest
    · refine ⟨?_, ?_⟩
      · simpa using hne
      · rw [List.length_take]
        omega
    · exact ih hrest

theorem takeByte_cons {buffer s : Bytes} {pos : ℕ} {b : UInt8} (h : buffer.drop pos = b :: s) :
    Decoder.takeByte ⟨buffer, 0, pos⟩ = (.ok b, ⟨buffer, 0, pos + 1⟩) ∧ buffer.drop (pos + 1) = s := by
  have hindex : buffer[pos]? = some b := by
    have hget : (buffer.drop pos)[0]? = buffer[pos + 0]? := List.getElem?_drop
    rw [h] at hget
    exact hget.symm
  refine ⟨?_, ?_⟩
  · rw [Decoder.takeByte, Proc.get_bind, Proc.bind_ok (Decoder.index_apply hindex)]
    rfl
  · rw [← List.drop_drop, h]
    rfl

theorem ensureBytes_ok {buffer : Bytes} {pos n : ℕ} (h : n ≤ (buffer.drop pos).length) (hpos : 0 < n) :
    Decoder.ensureBytes n ⟨buffer, 0, pos⟩ = (.ok (), ⟨buffer, 0, pos⟩) := by
  rw [List.length_drop] at h
  have hno : ¬ (n : ℤ) > buffer.length - pos := by omega
  rw [Decoder.ensureBytes, Proc.get_bind, if_neg hno]
  rfl

/-- The blocks after the length byte `b` that has been taken. -/
theorem blockLoop {buffer : Bytes} {cs : List Bytes} (hcs : ∀ c ∈ cs, c ≠ [] ∧ c.length < 256) {b : UInt8} {pos : ℕ}
    {tail : Bytes} (acc : Bytes) (fuel : ℕ) (h : b :: buffer.drop pos = cs.flatMap Encoder.block ++ 0 :: tail)
    (hfuel : cs.length < fuel) : Proc.loop Decoder.blockPass fuel (b, acc) ⟨buffer, 0, pos⟩ =
      (.ok (acc ++ cs.flatten), ⟨buffer, 0, pos + (cs.flatMap Encoder.block).length⟩) := by
  induction cs generalizing b pos acc fuel with
  | nil =>
    obtain ⟨fuel, rfl⟩ : ∃ f, fuel = f + 1 := ⟨fuel - 1, by omega⟩
    obtain ⟨rfl, -⟩ := List.cons.inj h
    have hpass : Decoder.blockPass (0, acc) ⟨buffer, 0, pos⟩ = (.ok (.inr acc), ⟨buffer, 0, pos⟩) := rfl
    rw [Proc.loop_stop hpass, List.flatten_nil, List.append_nil]
    rfl
  | cons c cs ih =>
    obtain ⟨fuel, rfl⟩ : ∃ f, fuel = f + 1 := ⟨fuel - 1, by omega⟩
    obtain ⟨hne, hlt⟩ := hcs c List.mem_cons_self
    rw [List.flatMap_cons, Encoder.block, List.cons_append, List.cons_append] at h
    obtain ⟨rfl, hdrop⟩ := List.cons.inj h
    have hlen : (UInt8.ofNat c.length).toNat = c.length := UInt8.toNat_ofNat_of_lt' hlt
    have hnonzero : UInt8.ofNat c.length ≠ 0 := by
      intro hzero
      rw [hzero] at hlen
      exact hne (List.length_eq_zero_iff.1 hlen.symm)
    obtain ⟨b', s, hs⟩ : ∃ b' s, cs.flatMap Encoder.block ++ 0 :: tail = b' :: s :=
      List.exists_cons_of_ne_nil (by simp)
    rw [List.append_assoc, hs] at hdrop
    have hdrop' : buffer.drop (pos + c.length) = b' :: s := by rw [← List.drop_drop, hdrop, List.drop_left]
    obtain ⟨htake, hnext⟩ := takeByte_cons hdrop'
    have hroom : pos + c.length ≤ buffer.length := by
      have hl := congrArg List.length hdrop
      rw [List.length_drop, List.length_append, List.length_cons] at hl
      omega
    have hslice : Decoder.slice c.length ⟨buffer, 0, pos⟩ = (.ok c, ⟨buffer, 0, pos⟩) := by
      rw [Decoder.slice, Proc.get_bind, if_pos hroom, hdrop, List.take_left]
      rfl
    have hensure : Decoder.ensureBytes (c.length + 1) ⟨buffer, 0, pos⟩ = (.ok (), ⟨buffer, 0, pos⟩) := by
      apply ensureBytes_ok
      · rw [hdrop, List.length_append, List.length_cons]
        omega
      · omega
    have hpass : Decoder.blockPass (UInt8.ofNat c.length, acc) ⟨buffer, 0, pos⟩ =
        (.ok (.inl (b', acc ++ c)), ⟨buffer, 0, pos + c.length + 1⟩) := by
      rw [Decoder.blockPass, if_pos hnonzero, hlen, Proc.bind_ok hensure, Proc.bind_ok hslice, Proc.modify_bind,
        Proc.bind_ok htake]
      rfl
    have hblocks : b' :: buffer.drop (pos + c.length + 1) = cs.flatMap Encoder.block ++ 0 :: tail := by rw [hnext, hs]
    rw [Proc.loop_next hpass, ih (fun c' hc' => hcs c' (List.mem_cons_of_mem c hc')) _ fuel hblocks
      (by simpa using hfuel), List.flatten_cons, List.append_assoc, List.flatMap_cons, List.length_append, Encoder.block,
      List.length_cons]
    congr 2
    omega

theorem byteArray {buffer : Bytes} {pos : ℕ} (x : Bytes) :
    Reads Decoder.byteArray x ⟨buffer, 0, pos⟩ (ofBytes (blocks x)) := by
  intro t ht
  have hrest : ofBytes (buffer.drop pos) = ofBytes (blocks x) ++ t := by
    rw [ofBytes_drop, ← ht]
    rfl
  obtain ⟨hdrop, -⟩ := eq_append_of_ofBytes hrest
  generalize (buffer.drop pos).drop (blocks x).length = more at hdrop
  obtain ⟨b, s, hs⟩ : ∃ b s, blocks x ++ more = b :: s := List.exists_cons_of_ne_nil (by simp [blocks])
  obtain ⟨htake, hnext⟩ := takeByte_cons (hdrop.trans hs)
  have hlen := congrArg List.length hdrop
  rw [List.length_drop, List.length_append, blocks, List.length_append, List.length_singleton] at hlen
  have hensure : Decoder.ensureBytes 1 ⟨buffer, 0, pos⟩ = (.ok (), ⟨buffer, 0, pos⟩) := by
    apply ensureBytes_ok
    · rw [List.length_drop]
      omega
    · omega
  have hblocks : b :: buffer.drop (pos + 1) = (Encoder.chunks x).flatMap Encoder.block ++ 0 :: more := by
    rw [hnext, ← hs, blocks, List.append_assoc]
    rfl
  have hcount : ∀ cs : List Bytes, cs.length ≤ (cs.flatMap Encoder.block).length := by
    intro cs
    induction cs with
    | nil => rfl
    | cons c cs ih =>
      rw [List.length_cons, List.flatMap_cons, List.length_append, Encoder.block, List.length_cons]
      omega
  have hfuel : (Encoder.chunks x).length < Decoder.bitsLeft ⟨buffer, 0, pos + 1⟩ + 1 := by
    have hchunks := hcount (Encoder.chunks x)
    show _ < 8 * buffer.length - (8 * (pos + 1) + 0) + 1
    omega
  have hloop := blockLoop (fun c hc => mem_chunks hc) [] _ hblocks hfuel
  rw [Decoder.byteArray, Proc.get_bind, if_neg (by simp), Proc.bind_ok hensure, Proc.bind_ok htake, Decoder.passes,
    Proc.get_bind, hloop, flatten_chunks, List.nil_append, length_ofBytes]
  have hpos : (8 * pos + 0 + 8 * (blocks x).length) / 8 =
      pos + 1 + ((Encoder.chunks x).flatMap Encoder.block).length := by
    rw [blocks, List.length_append, List.length_singleton]
    omega
  have hused : (8 * pos + 0 + 8 * (blocks x).length) % 8 = 0 := by omega
  simp only [Decoder.advance, Decoder.offset, hpos, hused]

theorem bytes (x : Bytes) (hused : d.usedBits < 8) :
    Reads Decoder.bytes x d (padding d.offset ++ ofBytes (blocks x)) := by
  intro t ht
  rw [List.append_assoc] at ht
  have haligned : d.advance (padding d.offset).length = ⟨d.buffer, 0, (d.offset + (padding d.offset).length) / 8⟩ := by
    have hmod : (d.offset + (padding d.offset).length) % 8 = 0 := by
      rw [padding, length_ofNat]
      omega
    rw [Decoder.advance, hmod]
  have hrest : (d.advance (padding d.offset).length).rest = ofBytes (blocks x) ++ t := by
    rw [Decoder.rest_advance, ht, List.drop_left]
  have harray : Decoder.byteArray (d.advance (padding d.offset).length) =
      (.ok x, (d.advance (padding d.offset).length).advance (ofBytes (blocks x)).length) := by
    rw [haligned] at hrest ⊢
    exact byteArray x t hrest
  rw [Decoder.bytes, Proc.bind_ok (filler hused _ ht), harray, Decoder.advance_advance, List.length_append]

theorem utf8 (s : String) (hused : d.usedBits < 8) :
    Reads Decoder.utf8 s d (padding d.offset ++ ofBytes (blocks s.toUTF8.data.toList)) := by
  intro t ht
  have hback : String.fromUTF8? ⟨s.toUTF8.data.toList.toArray⟩ = some s := by
    have hvalid : (⟨s.toUTF8.data.toList.toArray⟩ : ByteArray).IsValidUTF8 := by simpa using s.isValidUTF8
    rw [String.fromUTF8?, dif_pos hvalid]
    rfl
  rw [Decoder.utf8, Proc.bind_ok (bytes _ hused t ht), hback]
  rfl

end Reads

theorem Kind.reads (k : Kind) {x : k.Val} (hx : k.Holds x) {d : Decoder} (hused : d.usedBits < 8) :
    Reads k.decode x d (k.image d.offset x) := by
  induction k generalizing d with
  | bool => exact fun t ht => Decoder.bool_cons ht hused
  | u8 => exact fun t ht => by rw [Kind.image, length_ofNat]; exact Decoder.byte_ok ht hused
  | bits n =>
    intro t ht
    have hread := Decoder.bits8_ok ht hx.2.2 hx.1 hx.2.1 hused
    rw [UInt8.ofNat_toNat] at hread
    rw [Kind.image, length_ofNat]
    exact hread
  | word => exact Reads.word x hused
  | integer => exact Reads.integer x hused
  | bigInteger => exact Reads.bigInteger x hused
  | char => exact Reads.char x hused
  | string => exact Reads.string x hused
  | utf8 => exact Reads.utf8 x hused
  | bytes => exact Reads.bytes x hused
  | filler => exact Reads.filler hused
  | list item ih => exact Reads.decodeListWith (fun y hy _ hd => ih (hx y hy) hd) hused

/-- The decoder methods one after the other. -/
def decodeAll : List Kind → DecodeM (List ((k : Kind) × k.Val))
  | [] => return []
  | k :: kinds => do
    let x ← k.decode
    let rest ← decodeAll kinds
    return ⟨k, x⟩ :: rest

theorem decodeAll_reads {values : List ((k : Kind) × k.Val)} (hvalues : ∀ value ∈ values, value.1.Holds value.2)
    {d : Decoder} (hused : d.usedBits < 8) :
    Reads (decodeAll (values.map Sigma.fst)) values d (imageAll d.offset values) := by
  intro t ht
  induction values generalizing d with
  | nil =>
    show (Except.ok [], d) = (Except.ok [], d.advance 0)
    rw [Decoder.advance_zero hused]
  | cons value rest ih =>
    obtain ⟨k, x⟩ := value
    rw [imageAll, List.append_assoc] at ht
    have hfirst := k.reads (hvalues ⟨k, x⟩ List.mem_cons_self) hused _ ht
    have hrest : (d.advance (k.image d.offset x).length).rest =
        imageAll (d.advance (k.image d.offset x).length).offset rest ++ t := by
      rw [Decoder.rest_advance, ht, List.drop_left, Decoder.offset_advance]
    have hlater := ih (fun v hv => hvalues v (List.mem_cons_of_mem _ hv)) Decoder.usedBits_advance hrest
    rw [List.map_cons, decodeAll, Proc.bind_ok hfirst, Proc.bind_ok hlater, Decoder.advance_advance,
      Decoder.offset_advance, imageAll, List.length_append]
    rfl

/-! ### Round trip -/

/-- The values in one buffer, closed with a filler. -/
def flat (values : List ((k : Kind) × k.Val)) : Except EncodeError Bytes := do
  let e ← encodeAll values .new
  return e.filler.buffer

/-- The values of these kinds and the closing filler. -/
def unflat (kinds : List Kind) : DecodeM (List ((k : Kind) × k.Val)) := do
  let values ← decodeAll kinds
  Decoder.filler
  return values

/-- Any sequence of values is read back as it was written, up to the end of the buffer. -/
theorem unflat_flat (values : List ((k : Kind) × k.Val)) (hvalues : ∀ value ∈ values, value.1.Holds value.2) :
    ∃ buffer, flat values = .ok buffer ∧
      unflat (values.map Sigma.fst) (.new buffer) = (.ok values, { buffer, usedBits := 0, pos := buffer.length }) := by
  obtain ⟨e, he, hwritten⟩ := encodeAll_written hvalues Written.new
  rw [List.nil_append, List.length_nil] at hwritten
  have hclosed := hwritten.filler.eq_ofBytes rfl
  refine ⟨e.filler.buffer, by rw [flat, he]; rfl, ?_⟩
  generalize e.filler.buffer = buffer at hclosed
  have hread : decodeAll (values.map Sigma.fst) (.new buffer) =
      (.ok values, (Decoder.new buffer).advance (imageAll 0 values).length) :=
    decodeAll_reads hvalues (Nat.zero_lt_succ 7) _ hclosed.symm
  have hoffset : ((Decoder.new buffer).advance (imageAll 0 values).length).offset = (imageAll 0 values).length := by
    rw [Decoder.offset_advance]
    exact Nat.zero_add _
  have hrest : ((Decoder.new buffer).advance (imageAll 0 values).length).rest =
      padding ((Decoder.new buffer).advance (imageAll 0 values).length).offset ++ [] := by
    rw [Decoder.rest_advance, Decoder.rest_new, ← hclosed, List.drop_left, hoffset, List.append_nil]
  have hfiller := Reads.filler Decoder.usedBits_advance _ hrest
  rw [hoffset, Decoder.advance_advance, ← List.length_append, hclosed, length_ofBytes] at hfiller
  have hend : (Decoder.new buffer).advance (8 * buffer.length) = { buffer, usedBits := 0, pos := buffer.length } := by
    have hpos : (8 * 0 + 0 + 8 * buffer.length) / 8 = buffer.length := by omega
    have hused : (8 * 0 + 0 + 8 * buffer.length) % 8 = 0 := by omega
    simp only [Decoder.advance, Decoder.offset, Decoder.new, hpos, hused]
  rw [unflat, Proc.bind_ok hread, Proc.bind_ok hfiller, hend]
  rfl

/-- Fields of several widths, a byte string that is moved to a byte boundary, and a nested list. -/
theorem mixed_unflat_flat :
    ∃ buffer, flat [⟨.bits 3, 5⟩, ⟨.u8, 200⟩, ⟨.bytes, [7, 8]⟩, ⟨.bool, true⟩,
      ⟨.list (.list .bool), [[true], []]⟩] = .ok buffer ∧
      unflat [.bits 3, .u8, .bytes, .bool, .list (.list .bool)] (.new buffer) =
        (.ok [⟨.bits 3, 5⟩, ⟨.u8, 200⟩, ⟨.bytes, [7, 8]⟩, ⟨.bool, true⟩, ⟨.list (.list .bool), [[true], []]⟩],
          { buffer, usedBits := 0, pos := buffer.length }) :=
  unflat_flat [⟨.bits 3, 5⟩, ⟨.u8, 200⟩, ⟨.bytes, [7, 8]⟩, ⟨.bool, true⟩, ⟨.list (.list .bool), [[true], []]⟩]
    (by simp [Kind.Holds])

end Pallas.Flat
