import Pallas.Codec.Ledger
import Pallas.AddressBytes

/-!
# What the elements of the ledger types read back

Coins, hashes, texts and rational numbers, the structs of two fields, relays, and the options, sequences and maps of any of these:
what is written is read back (`Codec.RoundTrips`). A decoder that looks at a type before it reads tells what comes by the major type of
the head that was written (`Codec.Headed`).
-/

namespace Pallas
open Cbor Cbor.Decoder Std
open Dijkstra (TagSet BlsKey)

section Notions
variable {ε α : Type}

/-- What is written is read back, and begins like an item. -/
structure Codec.RoundTrips (c : Codec ε α) : Prop where
  inverts : ∀ a, c.decode.Inverts (c.encode a) a
  begins : ∀ a, (c.encode a).length < 2 ^ 64 → Begins (c.encode a)

/-- What is written begins with a head of the major type. -/
def Codec.Headed (major : ℕ) (c : Codec ε α) : Prop :=
  ∀ a, (c.encode a).length < 2 ^ 64 → ∃ n mid, header major (c.encode a) = some (some n, mid)

/-- The types of items with a length or an argument, by major type. -/
def CborType.ofMajor : (major : ℕ) → CborType → Bool
  | 0, t => t.isUnsigned
  | 1, t => t.isInt
  | 2, t => t = .bytes
  | 3, t => t = .string
  | 4, t => t = .array
  | 5, t => t = .map
  | 6, t => t = .tag
  | _, _ => true

theorem begins_of_header {major n : ℕ} {bs mid : Bytes} (h : header major bs = some (some n, mid)) : Begins bs := by
  obtain ⟨b, tail, rfl, -⟩ := header_suffix h
  refine ⟨b, tail, rfl, ?_⟩
  rintro rfl
  exact header_break h

theorem Codec.RoundTrips.of_headed {c : Codec ε α} {major : ℕ} (hinverts : ∀ a, c.decode.Inverts (c.encode a) a)
    (hhead : c.Headed major) : c.RoundTrips where
  inverts := hinverts
  begins a hlt := by
    obtain ⟨n, mid, h⟩ := hhead a hlt
    exact begins_of_header h

variable {m : MinicborLedger ε}

theorem datatype_of_header (hm : m.Lawful) {major n : ℕ} {bs mid : Bytes} (hmajor : major < 7)
    (h : header major bs = some (some n, mid)) : ∃ t, m.datatype bs = .ok t ∧ t.ofMajor major := by
  match major with
  | 0 => exact hm.datatype_unsigned _ _ _ h
  | 1 => exact hm.toContainers.datatype_nint _ _ _ h
  | 2 => exact ⟨_, hm.toContainers.datatype_bytes _ _ _ h, rfl⟩
  | 3 => exact ⟨_, hm.datatype_string _ _ _ h, rfl⟩
  | 4 => exact ⟨_, hm.toContainers.datatype_array _ _ _ h, rfl⟩
  | 5 => exact ⟨_, hm.toContainers.datatype_map _ _ _ h, rfl⟩
  | 6 => exact ⟨_, hm.toContainers.datatype_tag _ _ _ h, rfl⟩
  | _ + 7 => omega

/-- The type that is looked up in front of what was written. -/
theorem Codec.Headed.datatype (hm : m.Lawful) {c : Codec ε α} {major : ℕ} (hmajor : major < 7)
    (h : c.Headed major) {a : α}
    (hlt : (c.encode a).length < 2 ^ 64) (rest : Bytes) :
    ∃ t, m.datatype (c.encode a ++ rest) = .ok t ∧ t.ofMajor major := by
  obtain ⟨n, mid, hhead⟩ := h a hlt
  exact datatype_of_header hm hmajor (header_more hhead rest)

end Notions

namespace Codec
variable {ε α β γ δ τ : Type} (m : MinicborLedger ε)

/-! ### More codecs -/

def i64 : Codec ε Int64 := ⟨m.i64, fun z => Cbor.int z.toInt⟩

/-- `PositiveCoin`, which is transparent. -/
def positiveCoin : Codec ε PositiveCoin := ⟨PositiveCoin.mk <$> m.u64, fun n => Cbor.uint n.val.toNat⟩

/-- `BTreeMap<K, V>`. -/
def btreeMap {κ ν : Type} [Ord κ] [TransOrd κ] (key : Codec ε κ) (value : Codec ε ν) : Codec ε (FinMap κ ν) where
  decode := Derived.btreeMap m.derive key.decode value.decode
  encode map := Cbor.map map.size ++ map.toList.flatMap (pair key value).encode

/-- A struct of two fields. -/
def struct (x : Codec ε α) (y : Codec ε β) (make : α → β → τ) (parts : τ → α × β) : Codec ε τ where
  decode := Derived.struct₂ m.derive x.decode y.decode make
  encode t := Cbor.array 2 ++ (x.encode (parts t).1 ++ y.encode (parts t).2)

def blsKey : Codec ε BlsKey := struct m (byteString m) (byteString m) .mk fun k => (k.blsPubkey, k.blsPossessionProof)

def poolMetadata : Codec ε Alonzo.PoolMetadata := struct m (text m) (byteString m) .mk fun p => (p.url, p.hash)

def anchor : Codec ε Conway.Anchor := struct m (text m) (hash m 32) .mk fun a => (a.url, a.contentHash)

/-- `StakeCredential`, as the derived encoder writes it. -/
def encodeStakeCredential : StakeCredential → Bytes
  | .scriptHash h => Cbor.array 2 ++ (Cbor.uint 1 ++ h.encode)
  | .addrKeyhash h => Cbor.array 2 ++ (Cbor.uint 0 ++ h.encode)

/-- `DRep`. -/
def encodeDRep : Conway.DRep → Bytes
  | .key h => Cbor.array 2 ++ (Cbor.uint 0 ++ h.encode)
  | .script h => Cbor.array 2 ++ (Cbor.uint 1 ++ h.encode)
  | .abstain => Cbor.array 1 ++ Cbor.uint 2
  | .noConfidence => Cbor.array 1 ++ Cbor.uint 3

/-! ### Each of them -/

variable {m}

section Scalars
variable (hm : m.Lawful)
include hm

omit hm in
theorem uint_headed {n : ℕ} (hn : n < 2 ^ 64) : header 0 (Cbor.uint n) = some (some n, []) := by
  have h : header 0 (Cbor.uint n ++ []) = some (some n, []) := header_head (by omega) hn
  rwa [List.append_nil] at h

omit hm in
theorem u64_headed : (u64 m).Headed 0 := fun n _ => ⟨_, _, uint_headed n.toNat_lt⟩

omit hm in
theorem u32_headed : (u32 m).Headed 0 := by
  intro n _
  have hlt := n.toNat_lt
  exact ⟨_, _, uint_headed (by omega)⟩

theorem u64_roundTrips : (u64 m).RoundTrips := .of_headed (fun n => (hm.u64_takes n).inverts) u64_headed

theorem u32_roundTrips : (u32 m).RoundTrips := .of_headed (fun n => (hm.u32_takes n).inverts) u32_headed

theorem i64_roundTrips : (i64 m).RoundTrips where
  inverts z _ rest := by
    have hlow := z.le_toInt
    have hhigh := z.toInt_lt
    refine (hm.i64 _ _ _).2 ?_
    show SignedInt (Cbor.int z.toInt ++ rest) z rest
    unfold Cbor.int
    split
    · next hnonneg => exact ⟨z.toInt.toNat, .inl ⟨header_head (by omega) (by omega), by omega⟩⟩
    · next hneg => exact ⟨(-1 - z.toInt).toNat, .inr ⟨header_head (by omega) (by omega), by omega⟩⟩
  begins z _ := by
    have hlow := z.le_toInt
    have hhigh := z.toInt_lt
    show Begins (Cbor.int z.toInt)
    unfold Cbor.int
    split
    · exact begins_head (by omega) (by omega)
    · exact begins_head (by omega) (by omega)

omit hm in
theorem bytes_headed {s : Bytes} (h : (Cbor.bytes s).length < 2 ^ 64) :
    header 2 (Cbor.bytes s) = some (some s.length, s) := by
  rw [Cbor.bytes, List.length_append] at h
  exact header_head (by omega) (by omega)

theorem byteString_roundTrips : (byteString m).RoundTrips where
  inverts s hlt rest := by
    rw [show (byteString m).encode s = Cbor.bytes s from rfl] at hlt ⊢
    have hhead := header_more (bytes_headed hlt) rest
    exact (run_decodeBytesDefOrIndef hm.toContainers.toLawful).2 (.definite hhead (take_append _ _))
  begins s hlt := begins_of_header (bytes_headed hlt)

omit hm in
theorem byteString_headed : (byteString m).Headed 2 := fun _ hlt => ⟨_, _, bytes_headed hlt⟩

theorem hash_roundTrips (n : ℕ) : (hash m n).RoundTrips where
  inverts h hlt rest := by
    have hhead := header_more (bytes_headed hlt) rest
    exact (NativeScript.run_decodeHash hm.toScript).2
      ⟨h.toBytes, .definite hhead (take_append _ _), h.length_toBytes, h.ofBytes_toBytes.symm⟩
  begins h hlt := begins_of_header (bytes_headed hlt)

omit hm in
theorem hash_headed (n : ℕ) : (hash m n).Headed 2 := fun _ hlt => ⟨_, _, bytes_headed hlt⟩

omit hm in
theorem text_headed : (text m).Headed 3 := by
  intro s hlt
  rw [show (text m).encode s = encodeText s from rfl] at hlt ⊢
  rw [encodeText, List.length_append] at hlt
  exact ⟨_, _, header_head (by omega) (by omega)⟩

theorem text_roundTrips : (text m).RoundTrips := by
  refine .of_headed (fun s hlt rest => ?_) text_headed
  rw [show (text m).encode s = encodeText s from rfl] at hlt ⊢
  rw [encodeText, List.length_append] at hlt
  exact (run_decodeTextDefOrIndef hm.toContainers.toText).2 (.of_encodeText rest (by omega))

end Scalars

/-! ### What is made of them -/

section Fields
variable {x : Reader ε α} {y : Reader ε β} {z : Reader ε γ} {w : Reader ε δ} {bx bw by' bz : Bytes} {a : α}
  {b : β} {c : γ} {d : δ}

theorem fields₂_inverts (hx : x.Inverts bx a) (hy : y.Inverts by' b) (make : α → β → τ) :
    (fields₂ x y make).Inverts (bx ++ by') (make a b) :=
  hx.bind (hy.last rfl)

theorem fields₃_inverts (hx : x.Inverts bx a) (hy : y.Inverts by' b) (hz : z.Inverts bz c) (make : α → β → γ → τ) :
    (fields₃ x y z make).Inverts (bx ++ (by' ++ bz)) (make a b c) :=
  hx.bind (fields₂_inverts hy hz (make a))

theorem fields₄_inverts (hx : x.Inverts bx a) (hy : y.Inverts by' b) (hz : z.Inverts bz c) (hw : w.Inverts bw d)
    (make : α → β → γ → δ → τ) : (fields₄ x y z w make).Inverts (bx ++ (by' ++ (bz ++ bw))) (make a b c d) :=
  hx.bind (fields₃_inverts hy hz hw (make a))

theorem map_takes (hx : x.Takes bx a) (f : α → β) : (f <$> x).Takes bx (f a) := by
  rw [← bind_pure_comp]
  exact hx.last rfl

theorem map_inverts (hx : x.Inverts bx a) (f : α → β) : (f <$> x).Inverts bx (f a) := fun hlt => map_takes (hx hlt) f

end Fields

section Compound
variable (hm : m.Lawful)
include hm

omit hm in
theorem array_headed {n : ℕ} (hn : n < 2 ^ 64) (tail : Bytes) :
    ∃ k mid, header 4 (Cbor.array n ++ tail) = some (some k, mid) :=
  ⟨n, tail, header_head (by omega) hn⟩

theorem null_takes : m.null.Takes Cbor.null () := fun _ => (hm.null _ _).2 rfl

theorem array_inverts {n : ℕ} (hn : n < 2 ^ 64) {w : Bytes} {f : Option UInt64 → Reader ε α} {a : α}
    (h : (f (some (.ofNat n))).Inverts w a) : (m.array >>= f).Inverts (Cbor.array n ++ w) a :=
  (hm.array_takes hn).inverts.bind h

theorem option_roundTrips {item : Codec ε α} {major : ℕ} (hmajor : major < 7) (hitem : item.RoundTrips)
    (hhead : item.Headed major) :
    (option m item).RoundTrips where
  inverts o hlt rest := by
    cases o with
    | some a =>
      obtain ⟨t, ht, hof⟩ := hhead.datatype hm hmajor hlt rest
      have hnull : t ≠ .null := by
        rintro rfl
        match major with
        | 0 | 1 | 2 | 3 | 4 | 5 | 6 => cases hof
      refine (Wrapper.run_peek (m := m.toMinicborContainers) ht _).trans ?_
      rw [if_neg hnull]
      exact map_inverts (hitem.inverts a) some hlt rest
    | none =>
      have ht : m.datatype (Cbor.null ++ rest) = .ok .null := (hm.datatype_null _).2 ⟨rest, rfl⟩
      refine (Wrapper.run_peek (m := m.toMinicborContainers) ht _).trans ?_
      rw [if_pos rfl]
      have hskip := hm.toContainers.skip_item (0xf6 :: rest) rest (Wrapper.reads_simple (by decide) (by decide))
      exact Reader.bind_eq_ok.2 ⟨(), rest, hskip, rfl⟩
  begins o hlt := by
    cases o with
    | some a => exact hitem.begins a hlt
    | none => exact ⟨0xf6, [], rfl, by decide⟩

omit hm in
theorem vec_headed {item : Codec ε α} (hitem : item.RoundTrips) : (vec m item).Headed 4 := by
  intro xs hlt
  have hitems : (xs.flatMap item.encode).length < 2 ^ 64 := Nat.lt_of_le_of_lt (List.suffix_append _ _).length_le hlt
  have hlen := length_le_flatMap fun a ha => (hitem.begins a (lt_of_mem_flatMap ha hitems)).ne_nil
  exact array_headed (by omega) _

theorem vec_roundTrips {item : Codec ε α} (hitem : item.RoundTrips) : (vec m item).RoundTrips := by
  refine .of_headed (fun xs hlt => ?_) (vec_headed hitem)
  have hitems : (xs.flatMap item.encode).length < 2 ^ 64 := Nat.lt_of_le_of_lt (List.suffix_append _ _).length_le hlt
  exact hm.arrayIter_inverts (fun a _ => hitem.inverts a) (fun a ha => hitem.begins a (lt_of_mem_flatMap ha hitems)) hlt

theorem struct_inverts {x : Codec ε α} {y : Codec ε β} (hx : x.RoundTrips) (hy : y.RoundTrips)
    {make : α → β → τ} {parts : τ → α × β}
    (hmake : ∀ t, make (parts t).1 (parts t).2 = t) (t : τ) :
    (struct m x y make parts).decode.Inverts ((struct m x y make parts).encode t) t := by
  have h := Derived.struct₂_inverts (m := m.derive) hm.toContainers.toValues (hx.inverts (parts t).1)
    (hy.inverts (parts t).2) make
  rwa [hmake] at h

omit hm in
theorem struct_headed {x : Codec ε α} {y : Codec ε β} {make : α → β → τ} {parts : τ → α × β} :
    (struct m x y make parts).Headed 4 :=
  fun _ _ => array_headed (by omega) _

theorem rationalNumber_roundTrips : (rationalNumber m).RoundTrips := by
  refine .of_headed (fun r => ?_) fun r _ => ⟨30, _, header_head (by omega) (by omega)⟩
  have hcoin := u64_roundTrips hm
  have htag : m.tag.Inverts (Cbor.tag 30) 30 := (hm.tag_takes 30).inverts
  exact htag.bind (array_inverts hm (by omega) (fields₂_inverts (hcoin.inverts _) (hcoin.inverts _) RationalNumber.mk))

omit hm in
theorem relay_headed : (relay m).Headed 4 := by
  intro r _
  cases r with
  | singleHostAddr a b c => exact array_headed (by omega) _
  | singleHostName a b => exact array_headed (by omega) _
  | multiHostName a => exact array_headed (by omega) _

theorem relay_roundTrips : (relay m).RoundTrips := by
  have hport := option_roundTrips hm (by omega) (u32_roundTrips hm) u32_headed
  have hip := option_roundTrips hm (by omega) (byteString_roundTrips hm) byteString_headed
  have htext := text_roundTrips hm
  have hvariant : ∀ {n : ℕ} {w : Bytes} {r : Alonzo.Relay} (v : UInt16), n < 2 ^ 64 →
      (relayFields m v.toNat).Inverts w r →
      (relay m).decode.Inverts (Cbor.array n ++ (Cbor.uint v.toNat ++ w)) r :=
    fun v hn h => array_inverts hm hn ((hm.u16_takes v).inverts.bind h)
  refine .of_headed (fun r => ?_) relay_headed
  cases r with
  | singleHostAddr a b c => exact hvariant 0 (by omega) (fields₃_inverts (hport.inverts a) (hip.inverts b) (hip.inverts c) _)
  | singleHostName a b => exact hvariant 1 (by omega) (fields₂_inverts (hport.inverts a) (htext.inverts b) _)
  | multiHostName a => exact hvariant 2 (by omega) (map_inverts (htext.inverts a) _)

theorem entries_inverts {κ ν : Type} {key : Codec ε κ} {value : Codec ε ν} (hk : key.RoundTrips)
    (hv : value.RoundTrips) (es : List (κ × ν)) :
    (m.mapIter key.decode value.decode).Inverts (Cbor.map es.length ++ es.flatMap (pair key value).encode) es := by
  have hentry : ∀ e : κ × ν, (entry key.decode value.decode).Inverts ((pair key value).encode e) e := fun e =>
    (hk.inverts e.1).bind ((hv.inverts e.2).last rfl)
  intro hlt
  have hentries : (es.flatMap (pair key value).encode).length < 2 ^ 64 :=
    Nat.lt_of_le_of_lt (List.suffix_append _ _).length_le hlt
  have hfirst : ∀ e ∈ es, Begins ((pair key value).encode e) := by
    intro e he
    have hpair : ((pair key value).encode e).length < 2 ^ 64 := lt_of_mem_flatMap he hentries
    change (key.encode e.1 ++ value.encode e.2).length < 2 ^ 64 at hpair
    rw [List.length_append] at hpair
    exact (hk.begins e.1 (by omega)).append _
  exact hm.mapIter_inverts (fun e _ => hentry e) hfirst hlt

theorem btreeMap_inverts {κ ν : Type} [Ord κ] [TransOrd κ] [LawfulEqOrd κ] {key : Codec ε κ}
    {value : Codec ε ν} (hk : key.RoundTrips)
    (hv : value.RoundTrips) (map : FinMap κ ν) :
    (btreeMap m key value).decode.Inverts ((btreeMap m key value).encode map) map := by
  have hentries := entries_inverts hm hk hv map.toList
  rw [ExtTreeMap.length_toList] at hentries
  exact hentries.last (by rw [FinMap.foldl_insert_toList])

end Compound
end Codec
end Pallas
