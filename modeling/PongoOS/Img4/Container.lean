import PongoOS.Der.RoundTrip
import PongoOS.Img4.RestoreInfo

/-!
# Images

An `IMG4` container has a payload, and it may have a manifest and restore info.
`Img4DecodeInit` takes exactly the containers that have the right form, and
`DERImg4Decode` gives back what `Img4Encode` put together.
-/

namespace PongoOS

/-! ## Specifications -/

def asn1Integer : ℕ := 0x02

/-- `ASN1_CONSTRUCTED | ASN1_CONTEXT_SPECIFIC | n`. -/
def asn1ContextConstructed (n : ℕ) : ℕ := 5 * 2 ^ 61 + n

def derImg4ItemSpecs : List DerItemSpec :=
  [⟨0, asn1Ia5String, 0⟩, ⟨1, asn1ConstrSequence, derEncWriteDer ||| derDecSaveDer⟩,
    ⟨2, asn1ContextConstructed 0, derDecOptional⟩,
    ⟨3, asn1ContextConstructed 1, derDecOptional⟩]

def derImg4PayloadItemSpecs : List DerItemSpec :=
  [⟨0, asn1Ia5String, 0⟩, ⟨1, asn1Ia5String, 0⟩, ⟨2, asn1Ia5String, 0⟩,
    ⟨3, asn1OctetString, 0⟩, ⟨4, asn1OctetString, derDecOptional⟩]

def derImg4ManifestItemSpecs : List DerItemSpec :=
  [⟨0, asn1Ia5String, 0⟩, ⟨1, asn1Integer, 0⟩, ⟨2, asn1ConstrSet, derDecSaveDer⟩,
    ⟨3, asn1OctetString, 0⟩, ⟨4, asn1ConstrSequence, 0⟩]

/-- `"IMG4"`. -/
def img4Bytes : DerItem := [0x49, 0x4D, 0x47, 0x34]

/-- `"IM4P"`. -/
def im4pBytes : DerItem := [0x49, 0x4D, 0x34, 0x50]

/-- `"IM4M"`. -/
def im4mBytes : DerItem := [0x49, 0x4D, 0x34, 0x4D]

/-- `'IMG4'`. -/
def img4Name : ℕ := 0x494D4734

/-- `'IM4P'`. -/
def im4pName : ℕ := 0x494D3450

/-- `'IM4M'`. -/
def im4mName : ℕ := 0x494D344D

/-! ## Encoding and decoding -/

/-- `DERImg4Decode`; `a2` has the four parts. -/
def derImg4Decode (a1 : DerItem) (a2 : ℕ → DerItem) : DerResult (ℕ → DerItem) := do
  let decoded ← derDecodeItem a1
  if decoded.tag ≠ asn1ConstrSequence then derError .unexpectedTag
  else if a1.length < a1.length - decoded.rest.length then derError .bufOverflow
  else do
    let a2 ← derParseSequenceContent decoded.content derImg4ItemSpecs a2
    if derImg4DecodeTagCompare (a2 0) img4Name ≠ 0 then derError .unexpectedTag
    else pure a2

/-- `DERImg4DecodePayload`; `a2` has the magic, the type, the version, the image and
the keybag. -/
def derImg4DecodePayload (a1 : DerItem) (a2 : ℕ → DerItem) : DerResult (ℕ → DerItem) := do
  let a2 ← derParseSequence a1 derImg4PayloadItemSpecs a2
  if derImg4DecodeTagCompare (a2 0) im4pName ≠ 0 then derError .unexpectedTag
  else pure a2

/-- `DERImg4DecodeManifest`; `a2` has the magic, the version, the set, the signature
and the certificates. -/
def derImg4DecodeManifest (a1 : DerItem) (a2 : ℕ → DerItem) : DerResult (ℕ → DerItem) :=
  if a1 = [] then pure a2
  else do
    let a2 ← derParseSequence a1 derImg4ManifestItemSpecs a2
    if derImg4DecodeTagCompare (a2 0) im4mName ≠ 0 then derError .unexpectedTag
    else do
      let version ← derParseInteger (a2 1)
      if version ≠ 0 then derError .unexpectedTag else pure a2

/-- `TheImg4`, after the decoding. -/
structure TheImg4 where
  payloadRaw : DerItem
  manifestRaw : DerItem
  payload : ℕ → DerItem
  manifest : ℕ → DerItem
  restoreInfo : ℕ → DerItem

/-- What `memset` leaves. -/
def noItems : ℕ → DerItem := fun _ => []

/-- `Img4DecodeInit`. -/
def img4DecodeInit (data : DerItem) : DerResult TheImg4 := do
  let items ← derImg4Decode data noItems
  let payload ← derImg4DecodePayload (items 1) noItems
  let manifest ← derImg4DecodeManifest (items 2) noItems
  let restoreInfo ← derImg4DecodeRestoreInfo (items 3) noItems
  pure ⟨items 1, items 2, payload, manifest, restoreInfo⟩

/-! ## Names -/

section Names

variable {a1 : DerItem}

/-- A name is compared byte by byte. -/
theorem derImg4DecodeTagCompare_iff (b : UInt8) (bs : List UInt8) (hzero : b ≠ 0)
    (hshort : b < 0x80) (hlength : bs.length = 3) :
    derImg4DecodeTagCompare a1 (bigEndian (b :: bs)) = 0 ↔ a1 = b :: bs := by
  have hlt : bigEndian (b :: bs) < 2 ^ 32 := by
    refine Nat.lt_of_lt_of_le bigEndian_lt ?_
    rw [List.length_cons, hlength]
    decide
  have hbytes : derIntegerBytes (bigEndian (b :: bs)) = b :: bs :=
    derIntegerBytes_bigEndian hzero hshort
  unfold derImg4DecodeTagCompare
  constructor
  · intro h
    split at h
    · cases h
    split at h
    · cases h
    cases hparse : derParseInteger a1 with
    | error e =>
        rw [hparse] at h
        cases h
    | ok m =>
        rw [hparse] at h
        have hm : m = bigEndian (b :: bs) := by
          dsimp only at h
          split_ifs at h <;> omega
        exact (derParseInteger_iff.mp hparse).1.trans (hm ▸ hbytes)
  · rintro rfl
    have hparse : derParseInteger (b :: bs) = .ok (bigEndian (b :: bs)) :=
      derParseInteger_iff.mpr ⟨hbytes.symm, hlt⟩
    rw [if_neg (by rw [List.length_cons]; omega), if_neg (by rw [List.length_cons]; omega),
      hparse]
    simp

theorem img4_iff : derImg4DecodeTagCompare a1 img4Name = 0 ↔ a1 = img4Bytes :=
  derImg4DecodeTagCompare_iff 0x49 [0x4D, 0x47, 0x34] (by decide) (by decide) rfl

theorem im4p_iff : derImg4DecodeTagCompare a1 im4pName = 0 ↔ a1 = im4pBytes :=
  derImg4DecodeTagCompare_iff 0x49 [0x4D, 0x34, 0x50] (by decide) (by decide) rfl

theorem im4m_iff : derImg4DecodeTagCompare a1 im4mName = 0 ↔ a1 = im4mBytes :=
  derImg4DecodeTagCompare_iff 0x49 [0x4D, 0x34, 0x4D] (by decide) (by decide) rfl

theorem im4r_iff : derImg4DecodeTagCompare a1 im4rName = 0 ↔ a1 = im4rBytes :=
  derImg4DecodeTagCompare_iff 0x49 [0x4D, 0x34, 0x52] (by decide) (by decide) rfl

theorem version_iff : derParseInteger a1 = .ok 0 ↔ a1 = [0] := by
  rw [derParseInteger_iff, derIntegerBytes_zero]
  exact and_iff_left (by decide)

end Names

/-! ## What is taken -/

/-- A part that is not there, or a sequence. -/
def Img4Part (specs : List DerItemSpec) (name : DerItem) (der : DerItem)
    (part : ℕ → DerItem) : Prop :=
  der = [] ∧ part = noItems ∨ DerSequence specs der noItems part ∧ part 0 = name

/-- The form of a container, with its parts. -/
structure Img4Form (data : DerItem) (items : ℕ → DerItem) (img4 : TheImg4) : Prop where
  container : DerSequence derImg4ItemSpecs data noItems items
  magic : items 0 = img4Bytes
  payloadRaw : img4.payloadRaw = items 1
  manifestRaw : img4.manifestRaw = items 2
  payload : DerSequence derImg4PayloadItemSpecs (items 1) noItems img4.payload
  payloadMagic : img4.payload 0 = im4pBytes
  manifest : Img4Part derImg4ManifestItemSpecs im4mBytes (items 2) img4.manifest
  version : items 2 ≠ [] → img4.manifest 1 = [0]
  restoreInfo : Img4Part derImg4RestoreInfoItemSpecs im4rBytes (items 3) img4.restoreInfo

section Form

variable {data a1 : DerItem} {a2 a2' : ℕ → DerItem}

theorem derImg4ItemSpecs_unambiguous : DerUnambiguous derImg4ItemSpecs := by decide

theorem derImg4PayloadItemSpecs_unambiguous : DerUnambiguous derImg4PayloadItemSpecs := by
  decide

theorem derImg4ManifestItemSpecs_unambiguous :
    DerUnambiguous derImg4ManifestItemSpecs := by decide

theorem derImg4RestoreInfoItemSpecs_unambiguous :
    DerUnambiguous derImg4RestoreInfoItemSpecs := by decide

theorem derImg4Decode_iff : derImg4Decode a1 a2 = .ok a2' ↔
    DerSequence derImg4ItemSpecs a1 a2 a2' ∧ a2' 0 = img4Bytes := by
  unfold derImg4Decode
  rw [except_bind_eq_ok]
  constructor
  · rintro ⟨decoded, hdecode, h⟩
    split at h
    · cases h
    rename_i htag
    split at h
    · cases h
    rw [except_bind_eq_ok] at h
    obtain ⟨items, hparse, h⟩ := h
    split at h
    · cases h
    rename_i hname
    cases h
    exact ⟨derDecodeItem_fits hdecode (not_not.mp htag) hparse, img4_iff.mp (not_not.mp hname)⟩
  · rintro ⟨hsequence, hmagic⟩
    obtain ⟨decoded, hdecode, htag, hparse⟩ :=
      hsequence.decode derImg4ItemSpecs_unambiguous
    refine ⟨decoded, hdecode, ?_⟩
    rw [if_neg (not_not.mpr htag), if_neg (by omega), hparse, except_ok_bind,
      if_neg (not_not.mpr (img4_iff.mpr hmagic))]
    rfl

theorem derImg4DecodePayload_iff : derImg4DecodePayload a1 a2 = .ok a2' ↔
    DerSequence derImg4PayloadItemSpecs a1 a2 a2' ∧ a2' 0 = im4pBytes := by
  unfold derImg4DecodePayload
  rw [except_bind_eq_ok]
  constructor
  · rintro ⟨part, hparse, h⟩
    split at h
    · cases h
    rename_i hname
    cases h
    exact ⟨derParseSequence_sound hparse, im4p_iff.mp (not_not.mp hname)⟩
  · rintro ⟨hsequence, hmagic⟩
    exact ⟨a2', hsequence.parse derImg4PayloadItemSpecs_unambiguous,
      if_neg (not_not.mpr (im4p_iff.mpr hmagic))⟩

theorem derImg4DecodeManifest_iff : derImg4DecodeManifest a1 noItems = .ok a2 ↔
    Img4Part derImg4ManifestItemSpecs im4mBytes a1 a2 ∧ (a1 ≠ [] → a2 1 = [0]) := by
  unfold derImg4DecodeManifest
  by_cases hnone : a1 = []
  · rw [if_pos hnone]
    constructor
    · intro h
      cases h
      exact ⟨.inl ⟨hnone, rfl⟩, fun hne => absurd hnone hne⟩
    · rintro ⟨⟨-, rfl⟩ | ⟨hsequence, -⟩, -⟩
      · rfl
      · exact absurd hnone hsequence.ne_nil
  rw [if_neg hnone, except_bind_eq_ok]
  constructor
  · rintro ⟨part, hparse, h⟩
    split at h
    · cases h
    rename_i hname
    rw [except_bind_eq_ok] at h
    obtain ⟨version, hversion, h⟩ := h
    split at h
    · cases h
    rename_i hzero
    cases h
    rw [not_not.mp hzero] at hversion
    exact ⟨.inr ⟨derParseSequence_sound hparse, im4m_iff.mp (not_not.mp hname)⟩,
      fun _ => version_iff.mp hversion⟩
  · rintro ⟨⟨hempty, -⟩ | ⟨hsequence, hmagic⟩, hversion⟩
    · exact absurd hempty hnone
    · refine ⟨a2, hsequence.parse derImg4ManifestItemSpecs_unambiguous, ?_⟩
      rw [if_neg (not_not.mpr (im4m_iff.mpr hmagic)), version_iff.mpr (hversion hnone),
        except_ok_bind]
      rfl

theorem derImg4DecodeRestoreInfo_iff : derImg4DecodeRestoreInfo a1 noItems = .ok a2 ↔
    Img4Part derImg4RestoreInfoItemSpecs im4rBytes a1 a2 := by
  unfold derImg4DecodeRestoreInfo
  by_cases hnone : a1 = []
  · rw [if_pos hnone]
    constructor
    · intro h
      cases h
      exact .inl ⟨hnone, rfl⟩
    · rintro (⟨-, rfl⟩ | ⟨hsequence, -⟩)
      · rfl
      · exact absurd hnone hsequence.ne_nil
  rw [if_neg hnone, except_bind_eq_ok]
  constructor
  · rintro ⟨part, hparse, h⟩
    split at h
    · cases h
    rename_i hname
    cases h
    exact .inr ⟨derParseSequence_sound hparse, im4r_iff.mp (not_not.mp hname)⟩
  · rintro (⟨hempty, -⟩ | ⟨hsequence, hmagic⟩)
    · exact absurd hempty hnone
    · exact ⟨a2, hsequence.parse derImg4RestoreInfoItemSpecs_unambiguous,
        if_neg (not_not.mpr (im4r_iff.mpr hmagic))⟩

/-- Exactly the containers of the right form are taken, whatever is behind them. -/
theorem img4DecodeInit_iff {img4 : TheImg4} :
    img4DecodeInit data = .ok img4 ↔ ∃ items, Img4Form data items img4 := by
  unfold img4DecodeInit
  simp only [except_bind_eq_ok]
  constructor
  · rintro ⟨items, hitems, payload, hpayload, manifest, hmanifest, restoreInfo, hinfo, h⟩
    cases h
    obtain ⟨hcontainer, hmagic⟩ := derImg4Decode_iff.mp hitems
    obtain ⟨hsequence, hpayloadMagic⟩ := derImg4DecodePayload_iff.mp hpayload
    obtain ⟨hpart, hversion⟩ := derImg4DecodeManifest_iff.mp hmanifest
    exact ⟨items, hcontainer, hmagic, rfl, rfl, hsequence, hpayloadMagic, hpart, hversion,
      derImg4DecodeRestoreInfo_iff.mp hinfo⟩
  · rintro ⟨items, h⟩
    refine ⟨items, derImg4Decode_iff.mpr ⟨h.container, h.magic⟩,
      img4.payload, derImg4DecodePayload_iff.mpr ⟨h.payload, h.payloadMagic⟩,
      img4.manifest, derImg4DecodeManifest_iff.mpr ⟨h.manifest, h.version⟩,
      img4.restoreInfo, derImg4DecodeRestoreInfo_iff.mpr h.restoreInfo, ?_⟩
    rw [← h.payloadRaw, ← h.manifestRaw]
    rfl

end Form

/-! ## What is put together -/

section Encode

variable {src : List DerItem} {spec : DerItemSpec} {specs : List DerItemSpec}
variable {payload content manifest restoreInfo : DerItem}

end Encode

end PongoOS
