import Pallas.Eras

/-!
# What the script integrity hash is computed from (`phase1/alonzo.rs`, `phase1/babbage.rs`)

The redeemers written out again, the datums, and the cost models of the languages in use. Up to
Babbage the cost models are not read from the protocol parameters: `cost_model_cbor` holds them as
hex strings, chosen by network and slot. Each of those strings is a CBOR map with an entry for
PlutusV1, for PlutusV2, or both; the entries are given once here, and the maps put together from them.
-/

namespace Pallas

/-! ### Redeemers -/

/-- `Encode for ExUnits`. -/
def encodeExUnits (u : ExUnits) : Bytes := Cbor.array 2 ++ Cbor.uint u.mem.toNat ++ Cbor.uint u.steps.toNat

namespace Alonzo

/-- The index of a tag's variant. -/
def RedeemerTag.index : RedeemerTag → Nat
  | spend => 0
  | mint => 1
  | cert => 2
  | reward => 3

/-- `encode(redeemer, ..)` on the list of redeemers. -/
def encodeRedeemers (redeemers : List Redeemer) : Bytes :=
  Cbor.array redeemers.length ++ redeemers.flatMap fun r =>
    Cbor.array 4 ++ Cbor.uint r.tag.index ++ Cbor.uint r.index.toNat ++ r.data.encode ++ encodeExUnits r.exUnits

end Alonzo

/-! ### Cost models -/

inductive Babbage.Language where
  | plutusV1
  | plutusV2
  deriving DecidableEq

/-- The entry of the Alonzo cost model. -/
def alonzoV1View : Bytes :=
  Cbor.bigEndian 40 0x41005901d59f1a000302590001011a00060bc719026d00011a000249f01903e800011a000249f018 ++
    Cbor.bigEndian 40 0x201a0025cea81971f70419744d186419744d186419744d186419744d186419744d186419744d1864 ++
    Cbor.bigEndian 40 0x1864186419744d18641a000249f018201a000249f018201a000249f018201a000249f01903e80001 ++
    Cbor.bigEndian 40 0x1a000249f018201a000249f01903e800081a000242201a00067e2318760001011a000249f01903e8 ++
    Cbor.bigEndian 40 0x00081a000249f01a0001b79818f7011a000249f0192710011a0002155e19052e011903e81a000249 ++
    Cbor.bigEndian 40 0xf01903e8011a000249f018201a000249f018201a000249f0182001011a000249f0011a000249f004 ++
    Cbor.bigEndian 40 0x1a000194af18f8011a000194af18f8011a0002377c190556011a0002bdea1901f1011a000249f018 ++
    Cbor.bigEndian 40 0x201a000249f018201a000249f018201a000249f018201a000249f018201a000249f018201a000242 ++
    Cbor.bigEndian 40 0x201a00067e23187600010119f04c192bd200011a000249f018201a000242201a00067e2318760001 ++
    Cbor.bigEndian 40 0x011a000242201a00067e2318760001011a0025cea81971f704001a000141bb041a000249f0191388 ++
    Cbor.bigEndian 40 0x00011a000249f018201a000302590001011a000249f018201a000249f018201a000249f018201a00 ++
    Cbor.bigEndian 34 0x0249f018201a000249f018201a000249f018201a000249f018201a00330da70101ff

/-- The first entry for PlutusV1. -/
def babbageV1View : Bytes :=
  Cbor.bigEndian 40 0x41005901b69f1a0003236119032c01011903e819023b00011903e8195e7104011903e818201a0001 ++
    Cbor.bigEndian 40 0xca761928eb041959d818641959d818641959d818641959d818641959d818641959d8186418641864 ++
    Cbor.bigEndian 40 0x1959d81864194c5118201a0002acfa182019b551041a000363151901ff00011a00015c3518201a00 ++
    Cbor.bigEndian 40 0x0797751936f404021a0002ff941a0006ea7818dc0001011903e8196ff604021a0003bd081a00034e ++
    Cbor.bigEndian 40 0xc5183e011a00102e0f19312a011a00032e801901a5011a0002da781903e819cf06011a00013a3418 ++
    Cbor.bigEndian 40 0x2019a8f118201903e818201a00013aac0119e143041903e80a1a00030219189c011a00030219189c ++
    Cbor.bigEndian 40 0x011a0003207c1901d9011a000330001901ff0119ccf3182019fd40182019ffd5182019581e182019 ++
    Cbor.bigEndian 40 0x40b318201a00012adf18201a0002ff941a0006ea7818dc0001011a00010f92192da7000119eabb18 ++
    Cbor.bigEndian 40 0x201a0002ff941a0006ea7818dc0001011a0002ff941a0006ea7818dc0001011a000c504e19771204 ++
    Cbor.bigEndian 40 0x1a001d6af61a0001425b041a00040c660004001a00014fab18201a0003236119032c010119a0de18 ++
    Cbor.bigEndian 40 0x201a00033d7618201979f41820197fb8182019a95d1820197df718201995aa18201a009063b91903 ++
    Cbor.bigEndian 3 0xfd0aff

/-- The entry for PlutusV1 after the last update. -/
def laterV1View : Bytes :=
  Cbor.bigEndian 40 0x41005901b69f1a0003236119032c01011903e819023b00011903e8195e7104011903e818201a0001 ++
    Cbor.bigEndian 40 0xca761928eb041959d818641959d818641959d818641959d818641959d818641959d8186418641864 ++
    Cbor.bigEndian 40 0x1959d81864194c5118201a0002acfa182019b551041a000363151901ff00011a00015c3518201a00 ++
    Cbor.bigEndian 40 0x0797751936f404021a0002ff941a0006ea7818dc0001011903e8196ff604021a0003bd081a00034e ++
    Cbor.bigEndian 40 0xc5183e011a00102e0f19312a011a00032e801901a5011a0002da781903e819cf06011a00013a3418 ++
    Cbor.bigEndian 40 0x2019a8f118201903e818201a00013aac0119e143041903e80a1a00030219189c011a00030219189c ++
    Cbor.bigEndian 40 0x011a0003207c1901d9011a000330001901ff0119ccf3182019fd40182019ffd5182019581e182019 ++
    Cbor.bigEndian 40 0x40b318201a00012adf18201a0002ff941a0006ea7818dc0001011a00010f92192da7000119eabb18 ++
    Cbor.bigEndian 40 0x201a0002ff941a0006ea7818dc0001011a0002ff941a0006ea7818dc0001011a000c504e19771204 ++
    Cbor.bigEndian 40 0x1a001d6af61a0001425b041a00040c660004001a00014fab18201a0003236119032c010119a0de18 ++
    Cbor.bigEndian 40 0x201a00033d7618201979f41820197fb8182019a95d1820197df718201995aa18201a0374f693194a ++
    Cbor.bigEndian 3 0x1f0aff

/-- The first entry for PlutusV2. -/
def babbageV2View : Bytes :=
  Cbor.bigEndian 40 0x0198af1a0003236119032c01011903e819023b00011903e8195e7104011903e818201a0001ca7619 ++
    Cbor.bigEndian 40 0x28eb041959d818641959d818641959d818641959d818641959d818641959d81864186418641959d8 ++
    Cbor.bigEndian 40 0x1864194c5118201a0002acfa182019b551041a000363151901ff00011a00015c3518201a00079775 ++
    Cbor.bigEndian 40 0x1936f404021a0002ff941a0006ea7818dc0001011903e8196ff604021a0003bd081a00034ec5183e ++
    Cbor.bigEndian 40 0x011a00102e0f19312a011a00032e801901a5011a0002da781903e819cf06011a00013a34182019a8 ++
    Cbor.bigEndian 40 0xf118201903e818201a00013aac0119e143041903e80a1a00030219189c011a00030219189c011a00 ++
    Cbor.bigEndian 40 0x03207c1901d9011a000330001901ff0119ccf3182019fd40182019ffd5182019581e18201940b318 ++
    Cbor.bigEndian 40 0x201a00012adf18201a0002ff941a0006ea7818dc0001011a00010f92192da7000119eabb18201a00 ++
    Cbor.bigEndian 40 0x02ff941a0006ea7818dc0001011a0002ff941a0006ea7818dc0001011a0011b22c1a0005fdde0002 ++
    Cbor.bigEndian 40 0x1a000c504e197712041a001d6af61a0001425b041a00040c660004001a00014fab18201a00032361 ++
    Cbor.bigEndian 40 0x19032c010119a0de18201a00033d7618201979f41820197fb8182019a95d1820197df718201995aa ++
    Cbor.bigEndian 40 0x18201b00000004a817c8001b00000004a817c8001a009063b91903fd0a1b00000004a817c800001b ++
    Cbor.bigEndian 8 0x00000004a817c800

/-- The entry for PlutusV2 on preview between the two. -/
def previewV2View : Bytes :=
  Cbor.bigEndian 40 0x0198af1a0003236119032c01011903e819023b00011903e8195e7104011903e818201a0001ca7619 ++
    Cbor.bigEndian 40 0x28eb041959d818641959d818641959d818641959d818641959d818641959d81864186418641959d8 ++
    Cbor.bigEndian 40 0x1864194c5118201a0002acfa182019b551041a000363151901ff00011a00015c3518201a00079775 ++
    Cbor.bigEndian 40 0x1936f404021a0002ff941a0006ea7818dc0001011903e8196ff604021a0003bd081a00034ec5183e ++
    Cbor.bigEndian 40 0x011a00102e0f19312a011a00032e801901a5011a0002da781903e819cf06011a00013a34182019a8 ++
    Cbor.bigEndian 40 0xf118201903e818201a00013aac0119e143041903e80a1a00030219189c011a00030219189c011a00 ++
    Cbor.bigEndian 40 0x03207c1901d9011a000330001901ff0119ccf3182019fd40182019ffd5182019581e18201940b318 ++
    Cbor.bigEndian 40 0x201a00012adf18201a0002ff941a0006ea7818dc0001011a00010f92192da7000119eabb18201a00 ++
    Cbor.bigEndian 40 0x02ff941a0006ea7818dc0001011a0002ff941a0006ea7818dc0001011a0011b22c1a0005fdde0002 ++
    Cbor.bigEndian 40 0x1a000c504e197712041a001d6af61a0001425b041a00040c660004001a00014fab18201a00032361 ++
    Cbor.bigEndian 40 0x19032c010119a0de18201a00033d7618201979f41820197fb8182019a95d1820197df718201995aa ++
    Cbor.bigEndian 26 0x18201a0223accc0a1a009063b91903fd0a1a02515e841980b30a

/-- The entry for PlutusV2 after the last update. -/
def laterV2View : Bytes :=
  Cbor.bigEndian 40 0x0198af1a0003236119032c01011903e819023b00011903e8195e7104011903e818201a0001ca7619 ++
    Cbor.bigEndian 40 0x28eb041959d818641959d818641959d818641959d818641959d818641959d81864186418641959d8 ++
    Cbor.bigEndian 40 0x1864194c5118201a0002acfa182019b551041a000363151901ff00011a00015c3518201a00079775 ++
    Cbor.bigEndian 40 0x1936f404021a0002ff941a0006ea7818dc0001011903e8196ff604021a0003bd081a00034ec5183e ++
    Cbor.bigEndian 40 0x011a00102e0f19312a011a00032e801901a5011a0002da781903e819cf06011a00013a34182019a8 ++
    Cbor.bigEndian 40 0xf118201903e818201a00013aac0119e143041903e80a1a00030219189c011a00030219189c011a00 ++
    Cbor.bigEndian 40 0x03207c1901d9011a000330001901ff0119ccf3182019fd40182019ffd5182019581e18201940b318 ++
    Cbor.bigEndian 40 0x201a00012adf18201a0002ff941a0006ea7818dc0001011a00010f92192da7000119eabb18201a00 ++
    Cbor.bigEndian 40 0x02ff941a0006ea7818dc0001011a0002ff941a0006ea7818dc0001011a0011b22c1a0005fdde0002 ++
    Cbor.bigEndian 40 0x1a000c504e197712041a001d6af61a0001425b041a00040c660004001a00014fab18201a00032361 ++
    Cbor.bigEndian 40 0x19032c010119a0de18201a00033d7618201979f41820197fb8182019a95d1820197df718201995aa ++
    Cbor.bigEndian 26 0x18201a0223accc0a1a0374f693194a1f0a1a02515e841980b30a

/-- `cost_model_cbor` of Alonzo. -/
def alonzoCostModelCbor : Bytes := Cbor.map 1 ++ alonzoV1View

/-- The three strings of one range of slots: only the first version, only the second, or both. -/
def costModelFor (txLanguages : List Babbage.Language) (v1 v2 : Bytes) : Bytes :=
  match txLanguages.contains .plutusV1, txLanguages.contains .plutusV2 with
  | true, false => Cbor.map 1 ++ v1
  | false, true => Cbor.map 1 ++ v2
  | _, _ => Cbor.map 2 ++ v1 ++ v2

/-- `cost_model_cbor` of Babbage. -/
def babbageCostModelCbor (txLanguages : List Babbage.Language) (networkMagic : UInt32) (networkId : UInt8)
    (slot : UInt64) : Bytes :=
  if networkMagic = 1 ∧ networkId = 0 then
    if slot < 3974409 then alonzoCostModelCbor
    else if slot ≤ 20390403 then costModelFor txLanguages babbageV1View babbageV2View
    else costModelFor txLanguages laterV1View laterV2View
  else if networkMagic = 2 ∧ networkId = 0 then
    if slot < 777610 then alonzoCostModelCbor
    else if slot < 1900893 then costModelFor txLanguages babbageV1View babbageV2View
    else if slot ≤ 9244810 then costModelFor txLanguages babbageV1View previewV2View
    else costModelFor txLanguages laterV1View laterV2View
  else
    if slot < 72748820 then alonzoCostModelCbor
    else if slot < 84844885 then costModelFor txLanguages babbageV1View babbageV2View
    else costModelFor txLanguages laterV1View laterV2View

end Pallas
