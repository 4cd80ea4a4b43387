import Pallas.Codec.LedgerExact
import Pallas.Codec.CostModels

/-!
# Ledger values written again

A value of one of these types that was decoded is read back from what is written of it, whatever comes behind: a set keeps its arm, a
registration the state of its slot, a transaction whether its validity was given. Cost models of Conway keep only the languages that
Conway names (`takes_iff`).
-/

namespace Pallas
open Cbor Cbor.Decoder
open Dijkstra (TagSet BlsKey Certificate Guards AccountBalanceInterval MempoolTransaction)

namespace Codec
variable {ε α β ω σ μ π : Type} {m : MinicborLedger ε}

/-! ### Sets and guards -/

section Sets
variable (hm : m.Lawful) {rule : String} {minimum : ℕ} {item : Codec ε α}
include hm

omit hm in
theorem encode_set (set : TagSet minimum α) : (tagPreservingSet m rule minimum item).encode set =
    (if set.arm = .tagged then Cbor.tag tagSet.toNat else []) ++ (vec m item).encode set.items := rfl

theorem peek_arm (arm : Dijkstra.SetArm) {bs mid : Bytes} {n : ℕ} (hhead : header 4 bs = some (some n, mid)) :
    m.datatype ((if arm = .tagged then Cbor.tag tagSet.toNat else []) ++ bs) =
      .ok (if arm = .tagged then .tag else .array) := by
  cases arm with
  | tagged => exact hm.toContainers.datatype_tag _ _ _ ((hm.toContainers.tag _ _ _).1 (hm.tag_takes tagSet bs))
  | bare => exact hm.toContainers.datatype_array _ _ _ hhead

theorem setArm_run (arm : Dijkstra.SetArm) {bs mid : Bytes} {n : ℕ} (hhead : header 4 bs = some (some n, mid)) :
    (setArm m rule).run ((if arm = .tagged then Cbor.tag tagSet.toNat else []) ++ bs) = (.ok arm, bs) := by
  refine (Wrapper.run_peek (m := m.toMinicborContainers) (peek_arm hm arm hhead) _).trans ?_
  cases arm with
  | tagged =>
    refine Reader.bind_eq_ok.2 ⟨_, _, hm.tag_takes tagSet bs, ?_⟩
    rw [if_neg (not_not.2 rfl)]
    rfl
  | bare => rfl

theorem passTag_run (arm : Dijkstra.SetArm) {bs mid : Bytes} {n : ℕ} (hhead : header 4 bs = some (some n, mid)) :
    (passTag m).run ((if arm = .tagged then Cbor.tag tagSet.toNat else []) ++ bs) = (.ok (), bs) := by
  refine (Wrapper.run_peek (m := m.toMinicborContainers) (peek_arm hm arm hhead) _).trans ?_
  cases arm with
  | tagged => exact Reader.bind_eq_ok.2 ⟨_, _, hm.tag_takes tagSet bs, rfl⟩
  | bare => rfl

theorem tagPreservingSet_inverts (hitem : item.RoundTrips) (set : TagSet minimum α) :
    (tagPreservingSet m rule minimum item).decode.Inverts ((tagPreservingSet m rule minimum item).encode set) set := by
  intro hlt rest
  rw [encode_set] at hlt ⊢
  have hvec : ((vec m item).encode set.items).length < 2 ^ 64 :=
    Nat.lt_of_le_of_lt (List.suffix_append _ _).length_le hlt
  obtain ⟨n, mid, hhead⟩ := vec_headed hitem _ hvec
  rw [List.append_assoc]
  refine Reader.bind_eq_ok.2 ⟨_, _, setArm_run hm set.arm (header_more hhead rest), ?_⟩
  refine Reader.bind_eq_ok.2 ⟨_, _, (vec_roundTrips hm hitem).inverts _ hvec rest, ?_⟩
  rw [atLeast, dif_pos set.enough]
  rfl

theorem guardsElement_run {major : ℕ} (hmajor : major < 7) (hitem : item.RoundTrips) (hhead : item.Headed major)
    (set : Dijkstra.NonEmptySet α) (hlt : ((dijkstraNonEmptySet m item).encode set).length < 2 ^ 64) (rest : Bytes) :
    ∃ t mid, (guardsElement m).run ((dijkstraNonEmptySet m item).encode set ++ rest) = (.ok t, mid) ∧
      t.ofMajor major := by
  obtain ⟨arm, _ | ⟨a, as⟩, enough⟩ := set
  · exact absurd enough (Nat.not_succ_le_zero 0)
  have hvec : ((vec m item).encode (a :: as)).length < 2 ^ 64 :=
    Nat.lt_of_le_of_lt (List.suffix_append _ _).length_le hlt
  obtain ⟨n, mid, harray⟩ := vec_headed hitem _ hvec
  have hitems : ((a :: as).flatMap item.encode).length < 2 ^ 64 :=
    Nat.lt_of_le_of_lt (List.suffix_append _ _).length_le hvec
  have hlen := length_le_flatMap fun b hb => (hitem.begins b (lt_of_mem_flatMap hb hitems)).ne_nil
  obtain ⟨t, ht, hof⟩ := hhead.datatype hm hmajor (lt_of_mem_flatMap List.mem_cons_self hitems)
    (as.flatMap item.encode ++ rest)
  have hsplit : (dijkstraNonEmptySet m item).encode ⟨arm, a :: as, enough⟩ ++ rest =
      (if arm = .tagged then Cbor.tag tagSet.toNat else []) ++ ((vec m item).encode (a :: as) ++ rest) :=
        List.append_assoc _ _ _
  refine ⟨t, item.encode a ++ (as.flatMap item.encode ++ rest), ?_, hof⟩
  rw [hsplit]
  refine Reader.bind_eq_ok.2 ⟨_, _, passTag_run hm arm (header_more harray rest), ?_⟩
  have hcount : as.length + 1 < 2 ^ 64 := by
    rw [List.length_cons] at hlen
    omega
  have hopen := hm.array_takes hcount (item.encode a ++ (as.flatMap item.encode ++ rest))
  have hbytes : (vec m item).encode (a :: as) ++ rest =
      Cbor.array (as.length + 1) ++ (item.encode a ++ (as.flatMap item.encode ++ rest)) := by
    show Cbor.array (as.length + 1) ++ (item.encode a ++ as.flatMap item.encode) ++ rest = _
    simp only [List.append_assoc]
  rw [hbytes]
  refine Reader.bind_eq_ok.2 ⟨_, _, hopen, ?_⟩
  have hne : some (UInt64.ofNat (as.length + 1)) ≠ some 0 := by
    intro h
    have hzero := congrArg UInt64.toNat (Option.some.inj h)
    rw [UInt64.toNat_ofNat_of_lt' hcount] at hzero
    exact Nat.succ_ne_zero _ hzero
  rw [if_neg hne]
  exact Minicbor.run_peekType_eq_ok.2 ⟨ht, rfl⟩

theorem guards_inverts {credential : Codec ε StakeCredential} (hcredential : credential.RoundTrips)
    (hhead : credential.Headed 4)
    (g : Guards) : (guards m credential).decode.Inverts ((guards m credential).encode g) g := by
  have hprobe : ∀ {bs mid : Bytes} {t : CborType} {f : CborType → Reader ε Guards},
      (guardsElement m).run bs = (.ok t, mid) →
      ((guardsElement m).probe >>= f).run bs = (f t).run bs := by
    intro bs mid t f h
    rw [Reader.run_bind, Reader.run_probe, h, Reader.next_ok]
  intro hlt rest
  cases g with
  | addrKeyhashes x =>
    obtain ⟨t, mid, hrun, hof⟩ := guardsElement_run hm (by omega) (hash_roundTrips hm 28) (hash_headed 28) x hlt rest
    obtain rfl : t = .bytes := of_decide_eq_true hof
    exact (hprobe hrun).trans
      (map_inverts (tagPreservingSet_inverts hm (hash_roundTrips hm 28) x) Guards.addrKeyhashes hlt rest)
  | credentials x =>
    obtain ⟨t, mid, hrun, hof⟩ := guardsElement_run hm (by omega) hcredential hhead x hlt rest
    obtain rfl : t = .array := of_decide_eq_true hof
    exact (hprobe hrun).trans (map_inverts (tagPreservingSet_inverts hm hcredential x) Guards.credentials hlt rest)

/-! ### Intervals -/

theorem datatype_coin (n : Coin) (rest : Bytes) : ∃ t, m.datatype ((u64 m).encode n ++ rest) = .ok t ∧ t.isUnsigned :=
  hm.datatype_unsigned _ _ _ ((hm.toContainers.u64 _ _ _).1 (hm.u64_takes n rest))

theorem bound_takes (b : Option Coin) : (bound m).decode.Takes ((bound m).encode b) b := by
  intro rest
  cases b with
  | some n =>
    obtain ⟨t, ht, hof⟩ := datatype_coin hm n rest
    refine (Wrapper.run_peek (m := m.toMinicborContainers) ht _).trans ?_
    split
    · cases hof
    · exact map_takes (hm.u64_takes n) some rest
  | none =>
    have ht : m.datatype (Cbor.null ++ rest) = .ok .null := (hm.datatype_null _).2 ⟨rest, rfl⟩
    refine (Wrapper.run_peek (m := m.toMinicborContainers) ht _).trans ?_
    exact Reader.bind_eq_ok.2 ⟨(), rest, null_takes hm rest, rfl⟩

theorem interval_takes (lower upper : Option Coin) {a : AccountBalanceInterval} (h : interval m lower upper = pure a) :
    (accountBalanceInterval m).decode.Takes (Cbor.array 2 ++ ((bound m).encode lower ++ (bound m).encode upper)) a := by
  intro rest
  have hhead : header 4 (Cbor.array 2 ++ ((bound m).encode lower ++ (bound m).encode upper) ++ rest) = _ :=
    header_more (header_head (by omega) (by omega)) rest
  refine (Wrapper.run_peek (m := m.toMinicborContainers) (hm.toContainers.datatype_array _ _ _ hhead) _).trans ?_
  have hbody : (do
      let len ← m.array
      intervalLength m len
      let lower ← (bound m).decode
      let upper ← (bound m).decode
      intervalEnd m len
      interval m lower upper).Takes (Cbor.array 2 ++ ((bound m).encode lower ++ (bound m).encode upper)) a := by
    refine (hm.array_takes (n := 2) (by omega)).bind ?_
    refine Reader.Takes.bind (w := []) (.pure ()) ?_
    refine (bound_takes hm lower).bind ((bound_takes hm upper).last ?_)
    rw [h]
    rfl
  exact hbody rest

theorem accountBalanceInterval_takes (a : AccountBalanceInterval) :
    (accountBalanceInterval m).decode.Takes ((accountBalanceInterval m).encode a) a := by
  cases a with
  | lowerBound l => exact interval_takes hm (some l) none rfl
  | bounded l u => exact interval_takes hm (some l) (some u) rfl
  | upperBound u => exact interval_takes hm none (some u) rfl
  | exact c =>
    intro rest
    obtain ⟨t, ht, hof⟩ := datatype_coin hm c rest
    refine (Wrapper.run_peek (m := m.toMinicborContainers) ht _).trans ?_
    split
    · cases hof
    · cases hof
    · exact map_takes (hm.u64_takes c) AccountBalanceInterval.exact rest

end Sets

/-! ### Certificates -/

section Certificates
variable {δ : Type} {parts : LedgerParts ε α β ω δ}

/-- The slot of a certificate that was read is not `undefined`, which is written as null. -/
def SlotRead : Certificate → Prop
  | .poolRegistration _ _ blsKey _ _ _ _ _ _ _ => blsKey ≠ some .undefined
  | _ => True

open Derived (Gives) in
theorem certificate_gives : Gives SlotRead (certificate m parts).decode := by
  have two : ∀ {A B : Type} {x : Reader ε A} {y : Reader ε B} {make : A → B → Certificate},
      (∀ a b, SlotRead (make a b)) →
      Gives SlotRead (fields₂ x y make) :=
        fun h => (Gives.trivial _).bind fun a _ => (Gives.trivial _).bind fun b _ => .pure (h a b)
  have three : ∀ {A B C : Type} {x : Reader ε A} {y : Reader ε B} {z : Reader ε C} {make : A → B → C → Certificate},
      (∀ a b c, SlotRead (make a b c)) → Gives SlotRead (fields₃ x y z make) :=
        fun h => (Gives.trivial _).bind fun a _ => two (h a)
  have four : ∀ {A B C D : Type} {x : Reader ε A} {y : Reader ε B} {z : Reader ε C} {w : Reader ε D}
      {make : A → B → C → D → Certificate}, (∀ a b c d, SlotRead (make a b c d)) →
        Gives SlotRead (fields₄ x y z w make) :=
    fun h => (Gives.trivial _).bind fun a _ => three (h a)
  have hslot : Gives (fun k => k ≠ some Nullable.undefined) (blsKeySlot m parts).decode := by
    refine (Gives.trivial _).bind fun t _ => ?_
    have hkey : Gives (fun k => k ≠ some Nullable.undefined)
        ((fun k => some (Nullable.some k)) <$> parts.blsKey.decode) := by
      rw [← bind_pure_comp]
      exact (Gives.trivial _).bind fun k _ => .pure (by simp)
    split
    · exact hkey
    · exact hkey
    · exact (Gives.trivial _).bind fun _ _ => .pure (by simp)
    · exact .pure (by simp)
  have hthrow : ∀ e, Gives SlotRead (Reader.throw e : Reader ε Certificate) := fun _ _ _ _ h => nomatch h
  refine (Gives.trivial _).bind fun _ _ => (Gives.trivial _).bind fun variant _ => ?_
  unfold certificateFields
  split
  · exact two fun _ _ => True.intro
  · refine (Gives.trivial _).bind fun _ _ => (Gives.trivial _).bind fun _ _ => hslot.bind fun k hk => ?_
    exact (Gives.trivial _).bind fun _ _ => (Gives.trivial _).bind fun _ _ => (Gives.trivial _).bind
      fun _ _ => four fun _ _ _ _ => hk
  · exact two fun _ _ => True.intro
  · exact two fun _ _ => True.intro
  · exact two fun _ _ => True.intro
  · exact two fun _ _ => True.intro
  · exact three fun _ _ _ => True.intro
  · exact three fun _ _ _ => True.intro
  · exact three fun _ _ _ => True.intro
  · exact four fun _ _ _ _ => True.intro
  · exact two fun _ _ => True.intro
  · exact two fun _ _ => True.intro
  · exact three fun _ _ _ => True.intro
  · exact two fun _ _ => True.intro
  · exact two fun _ _ => True.intro
  · exact hthrow _
  · exact hthrow _
  · exact hthrow _

variable (hm : m.Lawful)
include hm

theorem slot_inverts (hkey : parts.blsKey.RoundTrips) (hhead : parts.blsKey.Headed 4) {k : Option (Nullable BlsKey)}
    (hk : k ≠ some .undefined) {f : Option (Nullable BlsKey) → Reader ε Certificate} {w : Bytes} {c : Certificate}
    (hw : ∀ rest, ∃ t, m.datatype (w ++ rest) = .ok t ∧ t.isUnsigned) (hf : (f k).Inverts w c) :
    ((blsKeySlot m parts).decode >>= f).Inverts ((blsKeySlot m parts).encode k ++ w) c := by
  intro hlt rest
  rw [List.length_append] at hlt
  rw [List.append_assoc]
  refine Reader.bind_eq_ok.2 ⟨k, w ++ rest, ?_, hf (by omega) rest⟩
  cases k with
  | none =>
    obtain ⟨t, ht, hof⟩ := hw rest
    refine (Wrapper.run_peek (m := m.toMinicborContainers) ht _).trans ?_
    split
    · cases hof
    · cases hof
    · cases hof
    · rfl
  | some k =>
    cases k with
    | some key =>
      have hlong : (parts.blsKey.encode key).length < 2 ^ 64 := Nat.lt_of_le_of_lt (Nat.le_add_right _ _) hlt
      obtain ⟨t, ht, hof⟩ := hhead.datatype hm (by omega) hlong (w ++ rest)
      obtain rfl : t = .array := of_decide_eq_true hof
      refine (Wrapper.run_peek (m := m.toMinicborContainers) ht _).trans ?_
      exact map_inverts (hkey.inverts key) (fun k => some (Nullable.some k)) hlong _
    | null =>
      have ht : m.datatype (Cbor.null ++ (w ++ rest)) = .ok .null := (hm.datatype_null _).2 ⟨_, rfl⟩
      refine (Wrapper.run_peek (m := m.toMinicborContainers) ht _).trans ?_
      exact Reader.bind_eq_ok.2 ⟨(), _, null_takes hm _, rfl⟩
    | undefined => exact absurd rfl hk

end Certificates
end Codec

/-! ### The parts as the source has them -/

/-- What is read depends only on the bytes that are read, and there are some. -/
def Local {ε α : Type} (x : Reader ε α) : Prop := ∀ w rest a, x.run (w ++ rest) = (.ok a, rest) → w ≠ [] ∧ x.Takes w a

/-- The codecs that are derived, and that of what a set is of. -/
structure DerivedCodecs (ε α β ω σ μ π : Type) where
  item : Codec ε α
  stakeCredential : Reader ε StakeCredential
  drep : Reader ε Conway.DRep
  body : Codec ε β
  witnessSet : Codec ε ω
  shelley : Codec ε σ
  shelleyMa : Codec ε μ
  postAlonzo : Codec ε π

/-- A derived decoder reads what the derived encoder writes, and nothing but what it consumes. -/
structure DerivedCodecs.Lawful {ε α β ω σ μ π : Type} (d : DerivedCodecs ε α β ω σ μ π) : Prop where
  item : d.item.RoundTrips
  stakeCredential : ∀ c, d.stakeCredential.Inverts (Codec.encodeStakeCredential c) c
  drep : ∀ r, d.drep.Inverts (Codec.encodeDRep r) r
  body : Local d.body.decode
  witnessSet : Local d.witnessSet.decode
  shelley : Local d.shelley.decode
  shelleyMa : Local d.shelleyMa.decode
  postAlonzo : Local d.postAlonzo.decode

def DerivedCodecs.parts {ε α β ω σ μ π : Type} (m : MinicborLedger ε) (d : DerivedCodecs ε α β ω σ μ π) :
    LedgerParts ε α β ω (Dijkstra.AuxiliaryData σ μ π) where
  item := d.item
  alonzoAssets := .btreeMap m (.hash m 28) (.btreeMap m (.byteString m) (.u64 m))
  conwayAssets := .btreeMap m (.hash m 28) (.btreeMap m (.byteString m) (.positiveCoin m))
  stakeCredential := ⟨d.stakeCredential, Codec.encodeStakeCredential⟩
  drep := ⟨d.drep, Codec.encodeDRep⟩
  blsKey := .blsKey m
  margin := .rationalNumber m
  relays := .vec m (.relay m)
  poolMetadata := .option m (.poolMetadata m)
  anchor := .option m (.anchor m)
  body := d.body
  witnessSet := d.witnessSet
  auxiliaryData := .auxiliaryData m d.shelley d.shelleyMa d.postAlonzo

namespace Codec
variable {ε α β ω σ μ π : Type} {m : MinicborLedger ε} {d : DerivedCodecs ε α β ω σ μ π} (hm : m.Lawful) (hd : d.Lawful)
include hm hd

omit hm hd in
theorem stakeCredential_headed : (d.parts m).stakeCredential.Headed 4 := by
  intro c _
  cases c with
  | scriptHash h => exact array_headed (by omega) _
  | addrKeyhash h => exact array_headed (by omega) _

theorem certificate_inverts {c : Certificate} (hread : SlotRead c) :
    (certificate m (d.parts m)).decode.Inverts ((certificate m (d.parts m)).encode c) c := by
  have hvariant : ∀ {n : ℕ} {w : Bytes} {c : Certificate} (v : UInt16), n < 2 ^ 64 →
      (certificateFields m (d.parts m) v.toNat).Inverts w c →
        (certificate m (d.parts m)).decode.Inverts (Cbor.array n ++ (Cbor.uint v.toNat ++ w)) c :=
    fun v hn h => array_inverts hm hn ((hm.u16_takes v).inverts.bind h)
  have hash28 := (hash_roundTrips hm 28).inverts
  have hcoin := (u64_roundTrips hm).inverts
  have hstc := hd.stakeCredential
  have hdrep := hd.drep
  have hanchor : (option m (anchor m)).RoundTrips := option_roundTrips hm (by omega)
    (.of_headed (struct_inverts hm (text_roundTrips hm) (hash_roundTrips hm 32)
      fun _ => rfl) struct_headed) struct_headed
  have hmetadata : (option m (poolMetadata m)).RoundTrips := option_roundTrips hm (by omega)
    (.of_headed (struct_inverts hm (text_roundTrips hm) (byteString_roundTrips hm)
      fun _ => rfl) struct_headed) struct_headed
  have hkey : (blsKey m).RoundTrips :=
    .of_headed (struct_inverts hm (byteString_roundTrips hm) (byteString_roundTrips hm) fun _ => rfl) struct_headed
  cases c with
  | stakeDelegation a b => exact hvariant 2 (by omega) (fields₂_inverts (hstc a) (hash28 b) _)
  | poolRegistration operator vrfKeyhash blsKey pledge cost margin rewardAccount poolOwners relays poolMetadata =>
    refine hvariant 3 (by split <;> omega) ?_
    refine (hash28 operator).bind (((hash_roundTrips hm 32).inverts vrfKeyhash).bind ?_)
    refine slot_inverts hm hkey struct_headed hread (fun rest => ?_) ?_
    · rw [List.append_assoc]
      exact datatype_coin hm pledge _
    · refine (hcoin pledge).bind ((hcoin cost).bind (((rationalNumber_roundTrips hm).inverts margin).bind ?_))
      exact fields₄_inverts ((byteString_roundTrips hm).inverts rewardAccount)
        (tagPreservingSet_inverts hm (hash_roundTrips hm 28) poolOwners)
          ((vec_roundTrips hm (relay_roundTrips hm)).inverts relays)
        (hmetadata.inverts poolMetadata) _
  | poolRetirement a b => exact hvariant 4 (by omega) (fields₂_inverts (hash28 a) (hcoin b) _)
  | reg a b => exact hvariant 7 (by omega) (fields₂_inverts (hstc a) (hcoin b) _)
  | unReg a b => exact hvariant 8 (by omega) (fields₂_inverts (hstc a) (hcoin b) _)
  | voteDeleg a b => exact hvariant 9 (by omega) (fields₂_inverts (hstc a) (hdrep b) _)
  | stakeVoteDeleg a b c => exact hvariant 10 (by omega) (fields₃_inverts (hstc a) (hash28 b) (hdrep c) _)
  | stakeRegDeleg a b c => exact hvariant 11 (by omega) (fields₃_inverts (hstc a) (hash28 b) (hcoin c) _)
  | voteRegDeleg a b c => exact hvariant 12 (by omega) (fields₃_inverts (hstc a) (hdrep b) (hcoin c) _)
  | stakeVoteRegDeleg a b c e => exact hvariant 13 (by omega) (fields₄_inverts (hstc a) (hash28 b) (hdrep c) (hcoin e) _)
  | authCommitteeHot a b => exact hvariant 14 (by omega) (fields₂_inverts (hstc a) (hstc b) _)
  | resignCommitteeCold a b => exact hvariant 15 (by omega) (fields₂_inverts (hstc a) (hanchor.inverts b) _)
  | regDRepCert a b c => exact hvariant 16 (by omega) (fields₃_inverts (hstc a) (hcoin b) (hanchor.inverts c) _)
  | unRegDRepCert a b => exact hvariant 17 (by omega) (fields₂_inverts (hstc a) (hcoin b) _)
  | updateDRepCert a b => exact hvariant 18 (by omega) (fields₂_inverts (hstc a) (hanchor.inverts b) _)

end Codec

/-! ### Transactions -/

/-- The types of the three forms of auxiliary data. -/
def CborType.isAuxiliary : CborType → Bool
  | .map | .mapIndef | .array | .arrayIndef | .tag => true
  | _ => false

namespace Codec
variable {ε α β ω σ μ π : Type} {m : MinicborLedger ε}

theorem datatype_stays (hm : m.Lawful) {w rest : Bytes} {t : CborType} (hw : w ≠ [])
    (ht : m.datatype (w ++ rest) = .ok t)
    (hint : t.isInt = false) (rest' : Bytes) : m.datatype (w ++ rest') = .ok t := by
  obtain ⟨b, tail, rfl⟩ := List.exists_cons_of_ne_nil hw
  exact hm.datatype_first _ _ _ _ ht hint

/-- What was kept is read back. -/
theorem keepRaw_takes {inner : Codec ε α} (h : Local inner.decode) {bs rest : Bytes} {k : Keep.KeepRaw α}
    (hrun : (keepRaw inner).decode.run bs = (.ok k, rest)) :
    (keepRaw inner).encode k ≠ [] ∧ bs = (keepRaw inner).encode k ++ rest ∧
      (keepRaw inner).decode.Takes ((keepRaw inner).encode k) k := by
  obtain ⟨hinner, hraw⟩ := Keep.KeepRaw.decode_eq_ok.1 hrun
  have hsuffix := inner.decode.forward bs
  rw [hinner] at hsuffix
  obtain ⟨w, rfl⟩ := hsuffix
  obtain ⟨hw, htakes⟩ := h w rest k.inner hinner
  rw [List.length_append, Nat.add_sub_cancel, List.take_left] at hraw
  have hencode : (keepRaw inner).encode k = w := by
    show Keep.KeepRaw.encode inner.encode k = w
    rw [Keep.KeepRaw.encode, Keep.KeepRaw.rawCbor, hraw, if_neg (by simpa using hw)]
  rw [hencode]
  subst hraw
  exact ⟨hw, rfl, Keep.KeepRaw.decode_takes htakes⟩

section AuxiliaryData
variable (hm : m.Lawful) {shelley : Codec ε σ} {shelleyMa : Codec ε μ} {postAlonzo : Codec ε π}
  (hshelley : Local shelley.decode)
  (hshelleyMa : Local shelleyMa.decode) (hpostAlonzo : Local postAlonzo.decode)
include hm hshelley hshelleyMa hpostAlonzo

omit hm hshelley hshelleyMa hpostAlonzo in
theorem auxiliaryData_datatype {bs rest : Bytes} {a : Dijkstra.AuxiliaryData σ μ π}
    (h : (auxiliaryData m shelley shelleyMa postAlonzo).decode.run bs = (.ok a, rest)) :
    ∃ t, m.datatype bs = .ok t ∧ t.isAuxiliary := by
  obtain ⟨t, ht, h⟩ := Wrapper.peek_eq_ok (m := m.toMinicborContainers) h
  refine ⟨t, ht, ?_⟩
  split at h
  · rfl
  · rfl
  · rfl
  · rfl
  · rfl
  · cases h

theorem auxiliaryData_local : Local (auxiliaryData m shelley shelleyMa postAlonzo).decode := by
  intro w rest a h
  have hlocal : ∀ {A : Type} {x : Reader ε A} {f : A → Dijkstra.AuxiliaryData σ μ π}, Local x →
      (f <$> x).run (w ++ rest) = (.ok a, rest) → w ≠ [] ∧ (f <$> x).Takes w a := by
    intro A x f hx hrun
    rw [← bind_pure_comp] at hrun
    obtain ⟨b, mid, hb, hrun⟩ := Reader.bind_eq_ok.1 hrun
    cases hrun
    obtain ⟨hw, htakes⟩ := hx w rest b hb
    exact ⟨hw, map_takes htakes f⟩
  obtain ⟨t, ht, haux⟩ := auxiliaryData_datatype h
  have hint : t.isInt = false := by
    cases t with
    | u8 | u16 | u32 | u64 | i8 | i16 | i32 | i64 | int => cases haux
    | _ => rfl
  have hpeek : ∀ {f : CborType → Reader ε (Dijkstra.AuxiliaryData σ μ π)}, w ≠ [] ∧ (f t).Takes w a →
      w ≠ [] ∧ (m.peekType >>= f).Takes w a := by
    rintro f ⟨hw, htakes⟩
    exact ⟨hw, fun rest' => (Wrapper.run_peek (m := m.toMinicborContainers)
      (datatype_stays hm hw ht hint rest') _).trans (htakes rest')⟩
  refine hpeek ?_
  obtain ⟨t', ht', h⟩ := Wrapper.peek_eq_ok (m := m.toMinicborContainers) h
  obtain rfl := Except.ok.inj (ht'.symm.trans ht)
  split at h
  · exact hlocal hshelley h
  · exact hlocal hshelley h
  · exact hlocal hshelleyMa h
  · exact hlocal hshelleyMa h
  · exact hlocal hpostAlonzo h
  · cases h

theorem nullable_aux_takes {bs rest : Bytes} {a : Nullable (Keep.KeepRaw (Dijkstra.AuxiliaryData σ μ π))}
    {aux : Codec ε _}
    (haux : aux = auxiliaryData m shelley shelleyMa postAlonzo)
    (h : (nullable m.toMinicborContainers (keepRaw aux)).decode.run bs = (.ok a, rest)) :
    (nullable m.toMinicborContainers (keepRaw aux)).decode.Takes
      ((nullable m.toMinicborContainers (keepRaw aux)).encode a) a ∧
      ∀ rest', ∃ t, m.datatype ((nullable m.toMinicborContainers (keepRaw aux)).encode a ++ rest') =
        .ok t ∧ t ≠ .bool := by
  subst haux
  obtain ⟨t, ht, h⟩ := Wrapper.peek_eq_ok (m := m.toMinicborContainers) h
  have hnull : ∀ rest', m.datatype (Cbor.null ++ rest') = .ok .null := fun rest' => (hm.datatype_null _).2 ⟨rest', rfl⟩
  have hundefined : ∀ rest', m.datatype ([0xf7] ++ rest') = .ok .undefined :=
    fun rest' => (hm.datatype_undefined _).2 ⟨rest', rfl⟩
  split at h
  · obtain ⟨_, mid, -, h⟩ := Reader.bind_eq_ok.1 h
    cases h
    refine ⟨fun rest' => ?_, fun rest' => ⟨_, hnull rest', by decide⟩⟩
    refine (Wrapper.run_peek (m := m.toMinicborContainers) (hnull rest') _).trans ?_
    exact Reader.bind_eq_ok.2 ⟨(), rest', null_takes hm rest', rfl⟩
  · obtain ⟨_, mid, -, h⟩ := Reader.bind_eq_ok.1 h
    cases h
    refine ⟨fun rest' => ?_, fun rest' => ⟨_, hundefined rest', by decide⟩⟩
    refine (Wrapper.run_peek (m := m.toMinicborContainers) (hundefined rest') _).trans ?_
    exact Reader.bind_eq_ok.2 ⟨(), rest', (hm.undefined _ _).2 rfl, rfl⟩
  · next hnotNull hnotUndefined =>
    rw [← bind_pure_comp] at h
    obtain ⟨k, mid, hk, h⟩ := Reader.bind_eq_ok.1 h
    cases h
    obtain ⟨hw, hbs, htakes⟩ := keepRaw_takes (auxiliaryData_local hm hshelley hshelleyMa hpostAlonzo) hk
    obtain ⟨t', ht', haux⟩ := auxiliaryData_datatype (Keep.KeepRaw.decode_eq_ok.1 hk).1
    obtain rfl := Except.ok.inj (ht.symm.trans ht')
    have hint : t.isInt = false ∧ t ≠ .bool := by
      cases t with
      | u8 | u16 | u32 | u64 | i8 | i16 | i32 | i64 | int | bool => cases haux
      | _ => exact ⟨rfl, by simp⟩
    rw [hbs] at ht
    have hstays := datatype_stays hm hw ht hint.1
    refine ⟨fun rest' => ?_, fun rest' => ⟨t, hstays rest', hint.2⟩⟩
    refine (Wrapper.run_peek (m := m.toMinicborContainers) (hstays rest') _).trans ?_
    split
    · exact absurd rfl hnotNull
    · exact absurd rfl hnotUndefined
    · exact map_takes htakes Nullable.some rest'

end AuxiliaryData

/-- A transaction that was read is read back, with what was said of its validity. -/
theorem mempoolTransaction_takes {d : DerivedCodecs ε α β ω σ μ π} (hm : m.Lawful) (hd : d.Lawful) {bs rest : Bytes}
    {tx : MempoolTransaction β ω (Dijkstra.AuxiliaryData σ μ π)}
    (h : (mempoolTransaction m (d.parts m)).decode.run bs = (.ok tx, rest)) :
    (mempoolTransaction m (d.parts m)).decode.Takes ((mempoolTransaction m (d.parts m)).encode tx) tx := by
  obtain ⟨len, mid, hlen, h⟩ := Reader.bind_eq_ok.1 h
  obtain ⟨body, mid₁, hbody, h⟩ := Reader.bind_eq_ok.1 h
  obtain ⟨witnessSet, mid₂, hwitness, h⟩ := Reader.bind_eq_ok.1 h
  obtain ⟨supplied, mid₃, hvalid, h⟩ := Reader.bind_eq_ok.1 h
  obtain ⟨_, mid₄, hlength, h⟩ := Reader.bind_eq_ok.1 h
  obtain ⟨auxiliaryData, mid₅, haux, h⟩ := Reader.bind_eq_ok.1 h
  cases h
  obtain ⟨-, -, hbody⟩ := keepRaw_takes hd.body hbody
  obtain ⟨-, -, hwitness⟩ := keepRaw_takes hd.witnessSet hwitness
  obtain ⟨haux, htold⟩ := nullable_aux_takes hm hd.shelley hd.shelleyMa hd.postAlonzo rfl haux
  have hcount : (if supplied then 4 else 3) < 2 ^ 64 := by
    split <;> omega
  -- the flag is given, or what follows is told from one
  have hflag : ∀ rest, (isValidSupplied m).run ((if supplied then Cbor.bool true else []) ++
      ((nullable m.toMinicborContainers (keepRaw (d.parts m).auxiliaryData)).encode auxiliaryData ++ rest)) =
        (.ok supplied, (nullable m.toMinicborContainers
          (keepRaw (d.parts m).auxiliaryData)).encode auxiliaryData ++ rest) := by
    intro rest
    cases supplied with
    | true =>
      have ht : ∀ tail, m.datatype (Cbor.bool true ++ tail) = .ok .bool :=
        fun tail => (hm.datatype_bool _).2 ⟨true, tail, rfl⟩
      refine (Wrapper.run_peek (m := m.toMinicborContainers) (ht _) _).trans ?_
      exact Reader.bind_eq_ok.2 ⟨true, _, hm.bool_takes true _, rfl⟩
    | false =>
      obtain ⟨t, ht, hbool⟩ := htold rest
      refine (Wrapper.run_peek (m := m.toMinicborContainers) ht _).trans ?_
      split
      · exact absurd rfl hbool
      · rfl
  have hfits : (mempoolLength m supplied (some (.ofNat (if supplied then 4 else 3)))).Takes [] () := by
    cases supplied <;> exact .pure ()
  refine (hm.array_takes hcount).bind (hbody.bind (hwitness.bind ?_))
  intro rest
  rw [List.append_assoc]
  refine Reader.bind_eq_ok.2 ⟨supplied, _, hflag rest, Reader.bind_eq_ok.2 ⟨(), _, hfits _, ?_⟩⟩
  exact Reader.bind_eq_ok.2 ⟨_, _, haux rest, rfl⟩

end Codec

/-! ### All of them -/

/-- The types whose values are to survive. -/
inductive Reencoded where
  | conwayCostModels
  | dijkstraCostModels
  | certificate
  | guards
  | accountBalanceInterval
  | set
  | nonEmptySet
  | mempoolTransaction
  deriving DecidableEq

namespace Reencoded
variable {ε α β ω σ μ π : Type} (m : MinicborLedger ε) (d : DerivedCodecs ε α β ω σ μ π)

def Value (α β ω σ μ π : Type) : Reencoded → Type
  | conwayCostModels => Conway.CostModels
  | dijkstraCostModels => Dijkstra.CostModels
  | certificate => Certificate
  | guards => Guards
  | accountBalanceInterval => AccountBalanceInterval
  | set => Dijkstra.Set α
  | nonEmptySet => Dijkstra.NonEmptySet α
  | mempoolTransaction => MempoolTransaction β ω (Dijkstra.AuxiliaryData σ μ π)

def codec : (k : Reencoded) → Codec ε (k.Value α β ω σ μ π)
  | conwayCostModels => .conwayCostModels m
  | dijkstraCostModels => .dijkstraCostModels m
  | certificate => .certificate m (d.parts m)
  | guards => .guards m (d.parts m).stakeCredential
  | accountBalanceInterval => .accountBalanceInterval m
  | set => .dijkstraSet m d.item
  | nonEmptySet => .dijkstraNonEmptySet m d.item
  | mempoolTransaction => .mempoolTransaction m (d.parts m)

/-- There is nothing in the bytes that the encoder would skip. -/
def Complete (bs rest : Bytes) : Reencoded → Prop
  | conwayCostModels => Codec.Named m bs rest
  | _ => True

variable {m d}

/-- What was decoded is read back from what is written of it, whatever follows, if and only if the encoder skips nothing. -/
theorem takes_iff (hm : m.Lawful) (hd : d.Lawful) {k : Reencoded} {bs rest : Bytes} {a : k.Value α β ω σ μ π}
    (h : (k.codec m d).decode.run bs = (.ok a, rest)) (hlt : ((k.codec m d).encode a).length < 2 ^ 64) :
    (k.codec m d).decode.Takes ((k.codec m d).encode a) a ↔ k.Complete m bs rest := by
  cases k with
  | conwayCostModels => exact Codec.conwayCostModels_takes_iff hm h hlt
  | dijkstraCostModels => exact iff_of_true (Codec.dijkstraCostModels_inverts hm h hlt) True.intro
  | certificate => exact iff_of_true (Codec.certificate_inverts hm hd (Codec.certificate_gives _ _ _ h) hlt) True.intro
  | guards =>
    have hcredential : (d.parts m).stakeCredential.RoundTrips :=
      .of_headed hd.stakeCredential Codec.stakeCredential_headed
    exact iff_of_true (Codec.guards_inverts hm hcredential Codec.stakeCredential_headed a hlt) True.intro
  | accountBalanceInterval => exact iff_of_true (Codec.accountBalanceInterval_takes hm a) True.intro
  | set => exact iff_of_true (Codec.tagPreservingSet_inverts hm hd.item a hlt) True.intro
  | nonEmptySet => exact iff_of_true (Codec.tagPreservingSet_inverts hm hd.item a hlt) True.intro
  | mempoolTransaction => exact iff_of_true (Codec.mempoolTransaction_takes hm hd h) True.intro

end Reencoded

/-! ### At the decoder by the standard -/

section Reference
open MinicborLedger (reference reference_lawful)

/-- The derived codecs of the flat enumerations, and bodies of one byte. -/
def derivedReference : DerivedCodecs String UInt64 UInt8 UInt8 UInt8 UInt8 UInt8 :=
  let oneByte : Codec String UInt8 := ⟨MinicborValues.byte, fun b => [b]⟩
  { item := .u64 reference
    stakeCredential := do
      let _ ← reference.array
      let variant ← reference.u8
      let h ← (Codec.hash reference 28).decode
      pure (if variant = 1 then .scriptHash h else .addrKeyhash h)
    drep := do
      let _ ← reference.array
      let variant ← reference.u8
      if variant = 0 then .key <$> (Codec.hash reference 28).decode
      else if variant = 1 then .script <$> (Codec.hash reference 28).decode
      else pure (if variant = 2 then .abstain else .noConfidence)
    body := oneByte
    witnessSet := oneByte
    shelley := oneByte
    shelleyMa := oneByte
    postAlonzo := oneByte }

theorem byte_local : Local MinicborValues.byte := by
  intro w rest b h
  cases w with
  | nil =>
    cases rest with
    | nil => cases h
    | cons c tail =>
      rw [List.nil_append, MinicborValues.run_byte_cons] at h
      exact absurd (congrArg List.length (Prod.mk.inj h).2) (by simp)
  | cons c w =>
    rw [List.cons_append, MinicborValues.run_byte_cons] at h
    obtain ⟨hb, hrest⟩ := Prod.mk.inj h
    obtain rfl := Except.ok.inj hb
    obtain rfl : w = [] := by simpa using hrest
    exact ⟨List.cons_ne_nil _ _, fun rest' => rfl⟩

theorem derivedReference_lawful : derivedReference.Lawful where
  item := Codec.u64_roundTrips reference_lawful
  stakeCredential c := by
    have hhash := (Codec.hash_roundTrips reference_lawful 28).inverts
    cases c with
    | scriptHash h =>
      exact Codec.array_inverts reference_lawful (by omega) ((reference_lawful.u8_takes 1).inverts.bind ((hhash h).last rfl))
    | addrKeyhash h =>
      exact Codec.array_inverts reference_lawful (by omega) ((reference_lawful.u8_takes 0).inverts.bind ((hhash h).last rfl))
  drep r := by
    have hhash := (Codec.hash_roundTrips reference_lawful 28).inverts
    cases r with
    | key h =>
      exact Codec.array_inverts reference_lawful (by omega) ((reference_lawful.u8_takes 0).inverts.bind (Codec.map_inverts (hhash h) _))
    | script h =>
      exact Codec.array_inverts reference_lawful (by omega) ((reference_lawful.u8_takes 1).inverts.bind (Codec.map_inverts (hhash h) _))
    | abstain => exact Codec.array_inverts reference_lawful (by omega) ((reference_lawful.u8_takes 2).inverts.last rfl)
    | noConfidence => exact Codec.array_inverts reference_lawful (by omega) ((reference_lawful.u8_takes 3).inverts.last rfl)
  body := byte_local
  witnessSet := byte_local
  shelley := byte_local
  shelleyMa := byte_local
  postAlonzo := byte_local

/-- An upper bound in an array without a length. -/
theorem Reencoded.takes_iff_upperBound : (Codec.accountBalanceInterval reference).decode.Takes
    ((Codec.accountBalanceInterval reference).encode (.upperBound 5)) (.upperBound 5) := by
  have h : (Reencoded.accountBalanceInterval.codec reference derivedReference).decode.run [0x9f, 0xf6, 0x05, 0xff] =
      (.ok (AccountBalanceInterval.upperBound 5), []) := rfl
  exact (Reencoded.takes_iff reference_lawful derivedReference_lawful h (by decide)).2 True.intro

/-- A cost model of Conway for another language. -/
theorem conwayCostModels_drops :
    ∃ c, (Codec.conwayCostModels reference).decode.run [0xa1, 0x03, 0x81, 0x05] = (.ok c, []) ∧
    ¬ (Codec.conwayCostModels reference).decode.Takes ((Codec.conwayCostModels reference).encode c) c := by
  have hmap : (reference.mapIter reference.u64 (Codec.costModel reference).decode).run
      [0xa1, 0x03, 0x81, 0x05] = (.ok [(3, [5])], []) :=
    rfl
  have hrun : (Codec.conwayCostModels reference).decode.run [0xa1, 0x03, 0x81, 0x05] =
      (.ok (Conway.CostModels.ofModels ((∅ : FinMap UInt64 CostModel).insert 3 [5])), []) := by
    show (Conway.CostModels.ofModels <$> (Codec.models reference).decode).run _ = _
    rw [← bind_pure_comp]
    exact Reader.bind_eq_ok.2 ⟨_, _, Reader.bind_eq_ok.2 ⟨_, _, hmap, rfl⟩, rfl⟩
  have hfields : (Conway.CostModels.ofModels ((∅ : FinMap UInt64 CostModel).insert 3 [5])).fields = [] := by
    rw [Conway.CostModels.fields, Conway.CostModels.ofModels_eq]
    simp
  have hlt : ((Codec.conwayCostModels reference).encode
      (Conway.CostModels.ofModels ((∅ : FinMap UInt64 CostModel).insert 3 [5]))).length <
      2 ^ 64 := by
    show (Cbor.map _ ++ _).length < _
    rw [hfields]
    decide
  refine ⟨_, hrun, fun htakes => ?_⟩
  obtain ⟨len, mid, hhead, helems⟩ := (reference_lawful.mapIter _ _ _ _ _).1 hmap
  have hle : (3 : UInt64) ≤ 2 :=
    (Codec.conwayCostModels_takes_iff reference_lawful hrun hlt).1 htakes len mid _ hhead helems
      (3, [5]) List.mem_cons_self
  exact absurd hle (by decide)

end Reference
end Pallas
