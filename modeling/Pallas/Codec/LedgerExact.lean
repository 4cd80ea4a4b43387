import Pallas.Codec.Ledger
import Pallas.Lib.CborNest

/-!
# What the hand-written decoders consume

Where the elements are read exactly, what a decoder accepts is one data item if and only if the array at its front says how many elements
are read from it (`reads_item_iff`). A bundle, a rational number, a relay and a certificate drop the length, and a mempool transaction
leaves the break of an array without one; guards, intervals and sets always stop behind the item.
-/

namespace Pallas
open Cbor Cbor.Decoder
open Dijkstra (TagSet BlsKey Certificate Guards AccountBalanceInterval MempoolTransaction)

/-- What the reader accepts is one item. -/
abbrev Exact {ε α : Type} (x : Reader ε α) : Prop := ReadsItems 1 x

namespace ReadsItems
variable {ε α β : Type} {n k : ℕ} {x : Reader ε α} {f : α → Reader ε β}

theorem pure (a : α) : ReadsItems 0 (Pure.pure a : Reader ε α) := by
  intro bs b rest h
  cases h
  exact .none

theorem throw (e : ε) : ReadsItems n (Reader.throw e : Reader ε α) := fun _ _ _ h => nomatch h

theorem bind (hx : ReadsItems n x) (hf : ∀ a, ReadsItems k (f a)) : ReadsItems (n + k) (x >>= f) := by
  intro bs b rest h
  obtain ⟨a, mid, ha, h⟩ := Reader.bind_eq_ok.1 h
  exact Reads.items_append (hx _ _ _ ha) (hf a _ _ _ h)

theorem map (hx : ReadsItems n x) (g : α → β) : ReadsItems n (g <$> x) := by
  rw [← bind_pure_comp]
  exact hx.bind fun a => .pure (g a)

theorem of_item (h : ∀ bs a rest, x.run bs = (.ok a, rest) → Reads .item bs rest) : ReadsItems 1 x :=
  fun bs a rest hrun => .next (h bs a rest hrun) .none

theorem peek {m : MinicborContainers ε} {f : CborType → Reader ε β} (hf : ∀ t, ReadsItems n (f t)) :
    ReadsItems n (m.peekType >>= f) := by
  intro bs b rest h
  obtain ⟨t, -, h⟩ := Wrapper.peek_eq_ok h
  exact hf t _ _ _ h

/-- Where anything is. -/
theorem probe (hf : ∀ a, ReadsItems n (f a)) : ReadsItems n (x.probe >>= f) := by
  intro bs b rest h
  obtain ⟨a, mid, ha, h⟩ := Reader.bind_eq_ok.1 h
  obtain ⟨-, rfl⟩ := Prod.mk.inj ha
  exact hf a _ _ _ h

section Fields
variable {γ δ τ : Type} {y : Reader ε β} {z : Reader ε γ} {w : Reader ε δ}

theorem fields₂ (hx : Exact x) (hy : Exact y) (make : α → β → τ) : ReadsItems 2 (Codec.fields₂ x y make) :=
  hx.bind fun a => hy.bind fun b => .pure (make a b)

theorem fields₃ (hx : Exact x) (hy : Exact y) (hz : Exact z) (make : α → β → γ → τ) :
    ReadsItems 3 (Codec.fields₃ x y z make) :=
  hx.bind fun a => hy.fields₂ hz (make a)

theorem fields₄ (hx : Exact x) (hy : Exact y) (hz : Exact z) (hw : Exact w) (make : α → β → γ → δ → τ) :
    ReadsItems 4 (Codec.fields₄ x y z w make) :=
  hx.bind fun a => hy.fields₃ hz hw (make a)

end Fields
end ReadsItems

/-! ### An array and what follows its header -/

section Headers
variable {bs mid rest : Bytes} {len : Option ℕ} {n k : ℕ}

theorem reads_array_iff (hhead : header 4 bs = some (len, mid)) (h : Reads (.items k) mid rest) :
    Reads .item bs rest ↔ len = some k := by
  constructor
  · intro hitem
    obtain ⟨g, hg, hcontent⟩ := hitem.content_of_item hhead
    cases len with
    | none =>
      cases hg
      exact absurd hcontent h.items_not_untilBreak
    | some n =>
      cases hg
      rw [Reads.items_unique hcontent h]
  · rintro rfl
    exact .of_head hhead (by omega) rfl h

theorem reads_tagged_iff (hhead : header 6 bs = some (some n, mid)) : Reads .item bs rest ↔ Reads .item mid rest := by
  constructor
  · intro hitem
    obtain ⟨g, hg, hcontent⟩ := hitem.content_of_item hhead
    cases hg
    have hone : Reads (.items 1) mid rest := hcontent
    exact hone.items_one
  · exact reads_tagged hhead

theorem reads_items_take (h : Reads (.items (n + k)) bs rest) : ∃ mid, Reads (.items n) bs mid := by
  induction n generalizing bs with
  | zero => exact ⟨bs, .none⟩
  | succ n ih =>
    rw [Nat.succ_add] at h
    cases h with
    | next hitem h =>
      obtain ⟨mid, hmid⟩ := ih h
      exact ⟨mid, .next hitem hmid⟩
    | stop hg => cases hg

end Headers

namespace Codec
variable {ε α β ω δ : Type} {m : MinicborLedger ε}

/-! ### The elements -/

section Elements

theorem u32_exact (hm : m.Lawful) :
    Exact (u32 m).decode := .of_item fun _ _ _ h => .of_head ((hm.u32 _ _ _).1 h) (by omega) rfl .none

theorem u64_exact (hm : m.Lawful) : Exact m.u64 := .of_item fun _ _ _ h =>
  .of_head ((hm.toContainers.u64 _ _ _).1 h) (by omega) rfl .none

theorem byteString_exact (hm : m.Lawful) : Exact (byteString m).decode := .of_item fun _ _ _ h =>
  .of_byteString ((run_decodeBytesDefOrIndef hm.toContainers.toLawful).1 h)

theorem hash_exact (hm : m.Lawful) (n : ℕ) : Exact (hash m n).decode := by
  refine .of_item fun bs h rest hrun => ?_
  obtain ⟨s, hbytes, -, rfl⟩ := (NativeScript.run_decodeHash hm.toScript).1 hrun
  exact .of_byteString hbytes

theorem text_exact (hm : m.Lawful) : Exact (text m).decode := .of_item fun _ _ _ h =>
  ((run_decodeTextDefOrIndef hm.toContainers.toText).1 h).reads_item

theorem null_exact (hm : m.Lawful) : Exact m.null := by
  refine .of_item fun bs a rest h => ?_
  obtain rfl := (hm.null _ _).1 h
  exact Wrapper.reads_simple (by decide) (by decide)

theorem option_exact (hm : m.Lawful) {item : Codec ε α} (hitem : Exact item.decode) : Exact (option m item).decode := by
  intro bs a rest h
  obtain ⟨t, ht, h⟩ := Wrapper.peek_eq_ok (m := m.toMinicborContainers) h
  split at h
  · next hnull =>
    subst hnull
    obtain ⟨tail, rfl⟩ := (hm.datatype_null _).1 ht
    have hnull : Reads .item (0xf6 :: tail) tail := Wrapper.reads_simple (by decide) (by decide)
    obtain ⟨_, mid, hskip, h⟩ := Reader.bind_eq_ok.1 h
    cases hskip.symm.trans (hm.toContainers.skip_item _ _ hnull)
    cases h
    exact .next hnull .none
  · exact hitem.map some _ _ _ h

theorem vec_exact (hm : m.Lawful) {item : Codec ε α} (hitem : Exact item.decode) : Exact (vec m item).decode := by
  refine .of_item fun bs as rest h => ?_
  obtain ⟨len, mid, hhead, helems⟩ := (hm.arrayIter _ _ _ _).1 h
  exact helems.reads_array hitem hhead

theorem keepRaw_exact {inner : Codec ε α} (hinner : Exact inner.decode) : Exact (keepRaw inner).decode := fun _ _ _ h =>
  hinner _ _ _ (Keep.KeepRaw.decode_eq_ok.1 h).1

theorem nullable_exact (hm : m.Lawful) {item : Codec ε α} (hitem : Exact item.decode) :
    Exact (nullable m.toMinicborContainers item).decode :=
  .of_item fun _ _ _ h => (Wrapper.nullable_keeps hm.toContainers hitem h).1

end Elements

/-! ### Sets, guards and intervals -/

section Sets
variable {rule : String} {minimum : ℕ} {item : Codec ε α}

theorem setArm_eq_ok (hm : m.Lawful) {bs mid rest : Bytes} {arm : Dijkstra.SetArm}
    (h : (setArm m rule).run bs = (.ok arm, mid))
    (hitem : Reads .item mid rest) : Reads .item bs rest := by
  obtain ⟨t, -, h⟩ := Wrapper.peek_eq_ok (m := m.toMinicborContainers) h
  split at h
  · obtain ⟨found, start, htag, h⟩ := Reader.bind_eq_ok.1 h
    split at h
    · cases h
    · cases h
      exact reads_tagged ((hm.toContainers.tag _ _ _).1 htag) hitem
  · cases h
    exact hitem

theorem tagPreservingSet_exact (hm : m.Lawful) (hitem : Exact item.decode) :
    Exact (tagPreservingSet m rule minimum item).decode := by
  refine .of_item fun bs set rest h => ?_
  obtain ⟨arm, mid, harm, h⟩ := Reader.bind_eq_ok.1 h
  obtain ⟨items, rest', hitems, h⟩ := Reader.bind_eq_ok.1 h
  refine setArm_eq_ok hm harm ?_
  unfold atLeast at h
  split at h
  · cases h
    exact (vec_exact hm hitem _ _ _ hitems).items_one
  · cases h

theorem guards_exact (hm : m.Lawful) {credential : Codec ε StakeCredential} (hcredential : Exact credential.decode) :
    Exact (guards m credential).decode := by
  refine .probe fun t => ?_
  split
  · exact .throw _
  · exact (tagPreservingSet_exact hm hcredential).map _
  · exact (tagPreservingSet_exact hm hcredential).map _
  · exact (tagPreservingSet_exact hm (hash_exact hm 28)).map _
  · exact (tagPreservingSet_exact hm (hash_exact hm 28)).map _
  · intro bs a rest h
    obtain ⟨position, mid, -, h⟩ := Reader.bind_eq_ok.1 h
    cases h

theorem bound_exact (hm : m.Lawful) : Exact (bound m).decode := by
  refine .peek fun t => ?_
  split
  · exact (null_exact hm).bind fun _ => .pure none
  · exact (u64_exact hm).map some

theorem accountBalanceInterval_exact (hm : m.Lawful) : Exact (accountBalanceInterval m).decode := by
  have harray : Exact (do
      let len ← m.array
      intervalLength m len
      let lower ← (bound m).decode
      let upper ← (bound m).decode
      intervalEnd m len
      interval m lower upper) := by
    refine .of_item fun bs a rest h => ?_
    obtain ⟨len, mid, hlen, h⟩ := Reader.bind_eq_ok.1 h
    have hhead := (hm.array _ _ _).1 hlen
    obtain ⟨_, start, hlength, h⟩ := Reader.bind_eq_ok.1 h
    obtain ⟨lower, mid₁, hlower, h⟩ := Reader.bind_eq_ok.1 h
    obtain ⟨upper, mid₂, hupper, h⟩ := Reader.bind_eq_ok.1 h
    obtain ⟨_, stop, hend, h⟩ := Reader.bind_eq_ok.1 h
    have hitems : Reads (.items 2) start mid₂ :=
      Reads.items_append (bound_exact hm _ _ _ hlower) (bound_exact hm _ _ _ hupper)
    obtain rfl : stop = rest := by
      unfold interval at h
      split at h <;> cases h <;> rfl
    cases len with
    | none =>
      cases hlength
      -- the break is checked, then skipped
      obtain ⟨t, ht, hend⟩ := Wrapper.peek_eq_ok (m := m.toMinicborContainers) hend
      split at hend
      · cases hend
      · next hbreak =>
        obtain rfl := not_not.1 hbreak
        obtain ⟨tail, rfl⟩ := (hm.toContainers.datatype_break _).1 ht
        cases hend.symm.trans (hm.toContainers.skip_break tail)
        exact .of_head hhead (by omega) rfl (Reads.untilBreak_of_items hitems)
    | some found =>
      dsimp only [intervalLength] at hlength
      split at hlength
      · next htwo =>
        subst htwo
        cases hlength
        cases hend
        exact .of_head hhead (by omega) rfl hitems
      · cases hlength
  refine .peek fun t => ?_
  split
  · exact harray
  · exact harray
  · exact (u64_exact hm).map _

end Sets

/-! ### Where the length is dropped -/

section Variants
variable {parts : LedgerParts ε α β ω δ}

/-- The fields of a relay. -/
def relayCount : (variant : ℕ) → ℕ
  | 0 => 3
  | 1 => 2
  | _ => 1

/-- What stands in the slot of the `bls_key` is one. -/
def fillsSlot : CborType → Bool
  | .array | .arrayIndef | .null => true
  | _ => false

def blsKeySupplied (m : MinicborLedger ε) (bs : Bytes) : Bool := (m.datatype bs).toOption.any fillsSlot

/-- The fields of a certificate. -/
def certificateCount (blsKey : Bool) : (variant : ℕ) → ℕ
  | 3 => if blsKey then 10 else 9
  | 10 | 11 | 12 | 16 => 3
  | 13 => 4
  | _ => 2

theorem relayFields_reads (hm : m.Lawful) (variant : ℕ) : ReadsItems (relayCount variant) (relayFields m variant) := by
  match variant with
  | 0 =>
    have hip := option_exact hm (byteString_exact hm)
    exact (option_exact hm (u32_exact hm)).fields₃ hip hip _
  | 1 => exact (option_exact hm (u32_exact hm)).fields₂ (text_exact hm) _
  | 2 => exact (text_exact hm).map _
  | _ + 3 => exact .throw _

theorem blsKeySlot_reads (hm : m.Lawful) (hkey : Exact parts.blsKey.decode) {bs rest : Bytes}
    {k : Option (Nullable BlsKey)}
    (h : (blsKeySlot m parts).decode.run bs = (.ok k, rest)) : Reads (.items (blsKeySupplied m bs).toNat) bs rest := by
  obtain ⟨t, ht, h⟩ := Wrapper.peek_eq_ok (m := m.toMinicborContainers) h
  have hsupplied : blsKeySupplied m bs = fillsSlot t := by
    rw [blsKeySupplied, ht]
    rfl
  rw [hsupplied]
  clear ht hsupplied
  split at h
  · exact hkey.map _ _ _ _ h
  · exact hkey.map _ _ _ _ h
  · have hnull : ReadsItems 1 (m.null >>= fun _ => Pure.pure (some (Nullable.null (α := BlsKey)))) :=
      (null_exact hm).bind fun _ => .pure _
    exact hnull _ _ _ h
  · next harray hindef hnull =>
    cases h
    have hnone : fillsSlot t = false := by
      unfold fillsSlot
      split
      · exact absurd rfl harray
      · exact absurd rfl hindef
      · exact absurd rfl hnull
      · rfl
    rw [hnone]
    exact .none

theorem poolFields_reads (hm : m.Lawful) (hmargin : Exact parts.margin.decode) (hrelays : Exact parts.relays.decode)
    (hmetadata : Exact parts.poolMetadata.decode) (operator : PoolKeyhash) (vrfKeyhash : VrfKeyhash)
    (blsKey : Option (Nullable BlsKey)) : ReadsItems 7 (poolFields m parts operator vrfKeyhash blsKey) := by
  have hcoin := u64_exact hm
  have howners : Exact (dijkstraSet m (hash m 28)).decode := tagPreservingSet_exact hm (hash_exact hm 28)
  exact hcoin.bind fun _ => hcoin.bind fun _ => hmargin.bind
    fun _ => (byteString_exact hm).fields₄ howners hrelays hmetadata _

end Variants
end Codec

/-- The elements are read exactly. -/
structure LedgerParts.Exact {ε α β ω δ : Type} (parts : LedgerParts ε α β ω δ) : Prop where
  item : Pallas.Exact parts.item.decode
  alonzoAssets : Pallas.Exact parts.alonzoAssets.decode
  conwayAssets : Pallas.Exact parts.conwayAssets.decode
  stakeCredential : Pallas.Exact parts.stakeCredential.decode
  drep : Pallas.Exact parts.drep.decode
  blsKey : Pallas.Exact parts.blsKey.decode
  margin : Pallas.Exact parts.margin.decode
  relays : Pallas.Exact parts.relays.decode
  poolMetadata : Pallas.Exact parts.poolMetadata.decode
  anchor : Pallas.Exact parts.anchor.decode
  body : Pallas.Exact parts.body.decode
  witnessSet : Pallas.Exact parts.witnessSet.decode
  auxiliaryData : Pallas.Exact parts.auxiliaryData.decode

namespace Codec
variable {ε α β ω δ : Type} {m : MinicborLedger ε} {parts : LedgerParts ε α β ω δ} {bs rest : Bytes}

theorem poolRegistration_reads (hm : m.Lawful) (hp : parts.Exact) {a : Certificate}
    (h : (poolRegistration m parts).run bs = (.ok a, rest)) :
    ∃ stop, Reads (.items 2) bs stop ∧ Reads (.items (certificateCount (blsKeySupplied m stop) 3)) bs rest := by
  obtain ⟨operator, mid, hoperator, h⟩ := Reader.bind_eq_ok.1 h
  obtain ⟨vrfKeyhash, stop, hvrf, h⟩ := Reader.bind_eq_ok.1 h
  obtain ⟨blsKey, behind, hslot, h⟩ := Reader.bind_eq_ok.1 h
  have htwo : Reads (.items 2) bs stop :=
    Reads.items_append (hash_exact hm 28 _ _ _ hoperator) (hash_exact hm 32 _ _ _ hvrf)
  have hfields := poolFields_reads hm hp.margin hp.relays hp.poolMetadata operator vrfKeyhash blsKey _ _ _ h
  have hall := Reads.items_append htwo (Reads.items_append (blsKeySlot_reads hm hp.blsKey hslot) hfields)
  refine ⟨stop, htwo, ?_⟩
  cases hkey : blsKeySupplied m stop with
  | true => rwa [hkey] at hall
  | false => rwa [hkey] at hall

theorem certificateFields_reads (hm : m.Lawful) (hp : parts.Exact) {variant : ℕ} {a : Certificate}
    (h : (certificateFields m parts variant).run bs = (.ok a, rest)) :
    ∃ stop, Reads (.items 2) bs stop ∧ Reads (.items (certificateCount (blsKeySupplied m stop) variant)) bs rest := by
  have hash28 := hash_exact hm 28
  have hcoin := u64_exact hm
  have hstc := hp.stakeCredential
  -- any two fields are a start
  have hstart : ∀ {k : ℕ} {x : Reader ε Certificate}, ReadsItems (2 + k) x → x.run bs = (.ok a, rest) →
      (∀ key, certificateCount key variant = 2 + k) → ∃ stop, Reads (.items 2) bs stop ∧
        Reads (.items (certificateCount (blsKeySupplied m stop) variant)) bs rest := by
    intro k x hx hrun hcount
    have hall := hx _ _ _ hrun
    obtain ⟨stop, hstop⟩ := reads_items_take hall
    exact ⟨stop, hstop, by rwa [hcount]⟩
  unfold certificateFields at h
  split at h
  · exact hstart (k := 0) (hstc.fields₂ hash28 _) h fun _ => rfl
  · exact poolRegistration_reads hm hp h
  · exact hstart (k := 0) (hash28.fields₂ hcoin _) h fun _ => rfl
  · exact hstart (k := 0) (hstc.fields₂ hcoin _) h fun _ => rfl
  · exact hstart (k := 0) (hstc.fields₂ hcoin _) h fun _ => rfl
  · exact hstart (k := 0) (hstc.fields₂ hp.drep _) h fun _ => rfl
  · exact hstart (k := 1) (hstc.fields₃ hash28 hp.drep _) h fun _ => rfl
  · exact hstart (k := 1) (hstc.fields₃ hash28 hcoin _) h fun _ => rfl
  · exact hstart (k := 1) (hstc.fields₃ hp.drep hcoin _) h fun _ => rfl
  · exact hstart (k := 2) (hstc.fields₄ hash28 hp.drep hcoin _) h fun _ => rfl
  · exact hstart (k := 0) (hstc.fields₂ hstc _) h fun _ => rfl
  · exact hstart (k := 0) (hstc.fields₂ hp.anchor _) h fun _ => rfl
  · exact hstart (k := 1) (hstc.fields₃ hcoin hp.anchor _) h fun _ => rfl
  · exact hstart (k := 0) (hstc.fields₂ hcoin _) h fun _ => rfl
  · exact hstart (k := 0) (hstc.fields₂ hp.anchor _) h fun _ => rfl
  · cases h
  · cases h
  · cases h

theorem mempoolLength_eq_ok {supplied : Bool} {len : Option UInt64} {u : Unit}
    (h : (mempoolLength m supplied len).run bs = (.ok u, rest)) :
    rest = bs ∧ (len.map UInt64.toNat = none ∨ len.map UInt64.toNat = some (1 + 1 + supplied.toNat + 1)) := by
  cases len with
  | none =>
    cases h
    exact ⟨rfl, .inl rfl⟩
  | some len =>
    cases supplied with
    | true =>
      change (if len ≠ 4 then Reader.throw _ else pure ()).run bs = (.ok u, rest) at h
      split at h
      · cases h
      · next hfour =>
        cases h
        exact ⟨rfl, .inr (by rw [not_not.1 hfour]; rfl)⟩
    | false =>
      change (if len ≠ 3 then Reader.throw _ else pure ()).run bs = (.ok u, rest) at h
      split at h
      · cases h
      · next hthree =>
        cases h
        exact ⟨rfl, .inr (by rw [not_not.1 hthree]; rfl)⟩

/-- Three elements, or four of a transaction whose validity is given. -/
theorem mempoolTransaction_reads (hm : m.Lawful) (hp : parts.Exact) {tx : MempoolTransaction β ω δ}
    (h : (mempoolTransaction m parts).decode.run bs = (.ok tx, rest)) :
    ∃ len mid k, header 4 bs = some (len, mid) ∧ Reads (.items k) mid rest ∧ (len = none ∨ len = some k) := by
  obtain ⟨len, mid, hlen, h⟩ := Reader.bind_eq_ok.1 h
  obtain ⟨body, mid₁, hbody, h⟩ := Reader.bind_eq_ok.1 h
  obtain ⟨witnessSet, mid₂, hwitness, h⟩ := Reader.bind_eq_ok.1 h
  obtain ⟨supplied, mid₃, hvalid, h⟩ := Reader.bind_eq_ok.1 h
  obtain ⟨_, mid₄, hlength, h⟩ := Reader.bind_eq_ok.1 h
  obtain ⟨auxiliaryData, mid₅, haux, h⟩ := Reader.bind_eq_ok.1 h
  cases h
  have hflag : Reads (.items supplied.toNat) mid₂ mid₃ := by
    obtain ⟨t, -, hvalid⟩ := Wrapper.peek_eq_ok (m := m.toMinicborContainers) hvalid
    split at hvalid
    · obtain ⟨b, start, hb, hvalid⟩ := Reader.bind_eq_ok.1 hvalid
      split at hvalid
      · cases hvalid
        obtain rfl := (hm.bool _ _ _).1 hb
        cases b <;> exact .next (Wrapper.reads_simple (by decide) (by decide)) .none
      · cases hvalid
    · cases hvalid
      exact .none
  have htwo := Reads.items_append (keepRaw_exact hp.body _ _ _ hbody) (keepRaw_exact hp.witnessSet _ _ _ hwitness)
  obtain ⟨rfl, hfit⟩ := mempoolLength_eq_ok hlength
  have hlast := nullable_exact hm (keepRaw_exact hp.auxiliaryData) _ _ _ haux
  exact ⟨_, mid, _, (hm.array _ _ _).1 hlen, Reads.items_append (Reads.items_append htwo hflag) hlast, hfit⟩

end Codec

namespace Handwritten
open Codec
variable {ε α β ω δ : Type}

/-- The array at the front says how many elements are read from it. -/
def Declares (m : MinicborLedger ε) (bs : Bytes) : Handwritten → Prop
  | alonzoValue => ∀ len mid, header 4 bs = some (len, mid) → len = some 2
  | conwayValue => ∀ len mid, header 4 bs = some (len, mid) → len = some 2
  | rationalNumber => ∀ n start len mid, header 6 bs = some (n, start) → header 4 start = some (len, mid) → len = some 2
  | relay => ∀ len mid variant fields, header 4 bs = some (len, mid) → header 0 mid = some (some variant, fields) →
    len = some (1 + relayCount variant)
  | certificate => ∀ len mid variant fields stop, header 4 bs = some (len, mid) → header 0 mid = some (some variant, fields) →
    Reads (.items 2) fields stop → len = some (1 + certificateCount (blsKeySupplied m stop) variant)
  | mempoolTransaction => ∀ mid, header 4 bs ≠ some (none, mid)
  | _ => True

variable {m : MinicborLedger ε} {parts : LedgerParts ε α β ω δ} {bs rest : Bytes}

theorem value_reads_iff (hm : m.Lawful) {A : Type} {assets : Codec ε (Multiasset A)}
    (hassets : Exact assets.decode) {v : GenValue A}
    (h : (Codec.value m assets).decode.run bs = (.ok v, rest)) :
    Reads .item bs rest ↔ ∀ len mid, header 4 bs = some (len, mid) → len = some 2 := by
  have hcoin : (GenValue.coin <$> m.u64 : Reader ε (GenValue A)).run bs = (.ok v, rest) →
      (Reads .item bs rest ↔ ∀ len mid, header 4 bs = some (len, mid) → len = some 2) := by
    intro h
    rw [← bind_pure_comp] at h
    obtain ⟨n, mid, hn, h⟩ := Reader.bind_eq_ok.1 h
    cases h
    have hhead := (hm.toContainers.u64 _ _ _).1 hn
    refine ⟨fun _ len mid' hhead' => ?_, fun _ => .of_head hhead (by omega) rfl .none⟩
    exact absurd (Reads.header_unique hhead hhead').1 (by omega)
  obtain ⟨t, -, h⟩ := Wrapper.peek_eq_ok (m := m.toMinicborContainers) h
  split at h
  · obtain ⟨len, mid, hlen, h⟩ := Reader.bind_eq_ok.1 h
    have hhead := (hm.array _ _ _).1 hlen
    rw [reads_array_iff hhead ((u64_exact hm).fields₂ hassets _ _ _ _ h)]
    refine ⟨fun htwo len' mid' hhead' => ?_, fun hall => hall _ _ hhead⟩
    obtain ⟨-, rfl, -⟩ := Reads.header_unique hhead hhead'
    exact htwo
  · exact hcoin h
  · exact hcoin h
  · exact hcoin h
  · exact hcoin h
  · cases h

theorem rationalNumber_reads_iff (hm : m.Lawful) {r : RationalNumber}
    (h : (Codec.rationalNumber m).decode.run bs = (.ok r, rest)) :
    Reads .item bs rest ↔ rationalNumber.Declares m bs := by
  obtain ⟨n, start, htag, h⟩ := Reader.bind_eq_ok.1 h
  obtain ⟨len, mid, hlen, h⟩ := Reader.bind_eq_ok.1 h
  have htag := (hm.toContainers.tag _ _ _).1 htag
  have hhead := (hm.array _ _ _).1 hlen
  rw [reads_tagged_iff htag, reads_array_iff hhead ((u64_exact hm).fields₂ (u64_exact hm) _ _ _ _ h)]
  refine ⟨fun htwo n' start' len' mid' htag' hhead' => ?_, fun hall => hall _ _ _ _ htag hhead⟩
  obtain ⟨-, -, rfl⟩ := Reads.header_unique htag htag'
  obtain ⟨-, rfl, -⟩ := Reads.header_unique hhead hhead'
  exact htwo

theorem relay_reads_iff (hm : m.Lawful) {r : Alonzo.Relay} (h : (Codec.relay m).decode.run bs = (.ok r, rest)) :
    Reads .item bs rest ↔ relay.Declares m bs := by
  obtain ⟨len, mid, hlen, h⟩ := Reader.bind_eq_ok.1 h
  obtain ⟨variant, fields, hvariant, h⟩ := Reader.bind_eq_ok.1 h
  have hhead := (hm.array _ _ _).1 hlen
  have hvariant := (hm.u16 _ _ _).1 hvariant
  have hone : Reads (.items 1) mid fields := .next (.of_head hvariant (by omega) rfl .none) .none
  rw [reads_array_iff hhead (Reads.items_append hone (relayFields_reads hm _ _ _ _ h))]
  refine ⟨fun hcount len' mid' variant' fields' hhead' hvariant' => ?_, fun hall => hall _ _ _ _ hhead hvariant⟩
  obtain ⟨-, rfl, rfl⟩ := Reads.header_unique hhead hhead'
  obtain ⟨-, hsame, -⟩ := Reads.header_unique hvariant hvariant'
  cases hsame
  exact hcount

theorem certificate_reads_iff (hm : m.Lawful) (hp : parts.Exact) {c : Certificate}
    (h : (Codec.certificate m parts).decode.run bs = (.ok c, rest)) :
    Reads .item bs rest ↔ certificate.Declares m bs := by
  obtain ⟨len, mid, hlen, h⟩ := Reader.bind_eq_ok.1 h
  obtain ⟨variant, fields, hvariant, h⟩ := Reader.bind_eq_ok.1 h
  have hhead := (hm.array _ _ _).1 hlen
  have hvariant := (hm.u16 _ _ _).1 hvariant
  have hone : Reads (.items 1) mid fields := .next (.of_head hvariant (by omega) rfl .none) .none
  obtain ⟨stop, hstop, hfields⟩ := certificateFields_reads hm hp h
  rw [reads_array_iff hhead (Reads.items_append hone hfields)]
  refine ⟨fun hcount len' mid' variant' fields' stop' hhead' hvariant' hstop' => ?_,
    fun hall => hall _ _ _ _ _ hhead hvariant hstop⟩
  obtain ⟨-, rfl, rfl⟩ := Reads.header_unique hhead hhead'
  obtain ⟨-, hsame, rfl⟩ := Reads.header_unique hvariant hvariant'
  cases hsame
  obtain rfl := Reads.unique hstop hstop'
  exact hcount

theorem mempoolTransaction_reads_iff (hm : m.Lawful) (hp : parts.Exact) {tx : MempoolTransaction β ω δ}
    (h : (Codec.mempoolTransaction m parts).decode.run bs = (.ok tx, rest)) :
    Reads .item bs rest ↔ mempoolTransaction.Declares m bs := by
  obtain ⟨len, mid, k, hhead, hitems, hlen⟩ := mempoolTransaction_reads hm hp h
  rw [reads_array_iff hhead hitems]
  constructor
  · rintro rfl mid' hhead'
    cases hhead.symm.trans hhead'
  · intro hdefinite
    obtain rfl | hlen := hlen
    · exact absurd hhead (hdefinite mid)
    · exact hlen

/-- With exact elements, what is accepted is one data item if and only if the array in it has the length of what is read from it. -/
theorem reads_item_iff (hm : m.Lawful) (hp : parts.Exact) {k : Handwritten} {a : k.Value α β ω δ}
    (h : (k.codec m parts).decode.run bs = (.ok a, rest)) : Reads .item bs rest ↔ k.Declares m bs := by
  have hexact : ∀ {T : Type} {x : Reader ε T} {t : T}, Exact x → x.run bs = (.ok t, rest) →
      (Reads .item bs rest ↔ True) :=
    fun hx hrun => iff_true_intro (hx _ _ _ hrun).items_one
  cases k with
  | alonzoValue => exact value_reads_iff hm hp.alonzoAssets h
  | conwayValue => exact value_reads_iff hm hp.conwayAssets h
  | rationalNumber => exact rationalNumber_reads_iff hm h
  | relay => exact relay_reads_iff hm h
  | certificate => exact certificate_reads_iff hm hp h
  | guards => exact hexact (guards_exact hm hp.stakeCredential) h
  | accountBalanceInterval => exact hexact (accountBalanceInterval_exact hm) h
  | set => exact hexact (tagPreservingSet_exact hm hp.item) h
  | nonEmptySet => exact hexact (tagPreservingSet_exact hm hp.item) h
  | mempoolTransaction => exact mempoolTransaction_reads_iff hm hp h

/-- Elements that are numbers where any type is allowed, and that no bytes are elsewhere. -/
def numberParts : LedgerParts String UInt64 UInt64 UInt64 UInt64 :=
  let none : {T : Type} → Codec String T := ⟨Reader.throw "no element", fun _ => []⟩
  let number : Codec String UInt64 := Codec.u64 MinicborLedger.reference
  ⟨number, none, none, none, none, none, none, none, none, none, number, number, number⟩

theorem numberParts_exact : numberParts.Exact := by
  constructor <;> first | exact ReadsItems.throw _ | exact Codec.u64_exact MinicborLedger.reference_lawful

/-- A transaction of numbers, with `is_valid`, in an array of four. -/
theorem reads_item_iff_transaction :
    Reads .item [0x84, 0x01, 0x02, 0xf5, 0x03, 0x06] [0x06] ↔
      mempoolTransaction.Declares MinicborLedger.reference [0x84, 0x01, 0x02, 0xf5, 0x03, 0x06] :=
  reads_item_iff (k := mempoolTransaction) MinicborLedger.reference_lawful numberParts_exact rfl

/-- A rational number in an array of one reads past it. -/
theorem rationalNumber_reads_past :
    (Codec.rationalNumber MinicborLedger.reference).decode.run [0xd8, 0x1e, 0x81, 0x01, 0x02] = (.ok ⟨1, 2⟩, []) ∧
      ¬ Reads .item [0xd8, 0x1e, 0x81, 0x01, 0x02] [] := by
  refine ⟨rfl, fun h => ?_⟩
  have hone : Reads .item [0xd8, 0x1e, 0x81, 0x01, 0x02] [0x02] := by
    have htag : header 6 [0xd8, 0x1e, 0x81, 0x01, 0x02] = some (some 30, [0x81, 0x01, 0x02]) := rfl
    have harray : header 4 [0x81, 0x01, 0x02] = some (some 1, [0x01, 0x02]) := rfl
    have hfirst : header 0 [0x01, 0x02] = some (some 1, [0x02]) := rfl
    exact reads_tagged htag (.of_head harray (by omega) rfl (.next (.of_head hfirst (by omega) rfl .none) .none))
  cases Reads.unique h hone

end Handwritten
end Pallas
