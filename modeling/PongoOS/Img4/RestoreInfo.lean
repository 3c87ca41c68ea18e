import PongoOS.Der.Decode

/-!
# The restore info of an image

`makeRestoreInfo` puts a nonce into an `IM4R` structure.  The size of every buffer is
computed in advance, with seven bytes for the tag and the length of an item.
-/

namespace PongoOS

/-! ## Encoding -/

def asn1OctetString : ℕ := 0x04

def asn1Ia5String : ℕ := 0x16

def asn1ConstrSet : ℕ := 2 ^ 61 + 0x11

/-- `E000000000000000`, that is `ASN1_CONSTRUCTED | ASN1_PRIVATE`. -/
def asn1PrivateConstructed : ℕ := 7 * 2 ^ 61

/-- `"BNCN"`. -/
def bncnBytes : DerItem := [0x42, 0x4E, 0x43, 0x4E]

/-- `"IM4R"`. -/
def im4rBytes : DerItem := [0x49, 0x4D, 0x34, 0x52]

/-- `'BNCN'`. -/
def bncnName : ℕ := 0x424E434E

/-- `'IM4R'`. -/
def im4rName : ℕ := 0x494D3452

def bncnTag : ℕ := asn1PrivateConstructed + bncnName

def nonceItemSpecs : List DerItemSpec :=
  [⟨0, asn1Ia5String, 0⟩, ⟨1, asn1OctetString, 0⟩]

/-- `DERImg4RestoreInfoItemSpecs`. -/
def derImg4RestoreInfoItemSpecs : List DerItemSpec :=
  [⟨0, asn1Ia5String, 0⟩, ⟨1, asn1ConstrSet, 0⟩]

/-- `DER_MAX_ENCODED_SIZE`. -/
def derMaxEncodedSize (n : ℕ) : ℕ := (1 + 5 + 1 + n) % 2 ^ 32

def aDEREncodeItem (tag : ℕ) (src : DerItem) : DerResult DerItem :=
  derEncodeItem tag src (derMaxEncodedSize src.length)

/-- The size that `aDEREncodeSequence` allocates. -/
def derSequenceRoom (src : List DerItem) (specs : List DerItemSpec) : ℕ :=
  (1000 + (specs.map fun spec =>
    derMaxEncodedSize (src.getD spec.offset []).length).sum) % 2 ^ 32

def aDEREncodeSequence (topTag : ℕ) (src : List DerItem) (specs : List DerItemSpec) :
    DerResult DerItem :=
  derEncodeSequence topTag src specs (derSequenceRoom src specs)

/-- A length is cut to the 32 bits of a `DERSize`. -/
def makeRestoreInfo (nonceBytes : List UInt8) : DerResult DerItem := do
  let elements := [bncnBytes, nonceBytes.take (nonceBytes.length % 2 ^ 32)]
  let item ← aDEREncodeSequence asn1ConstrSequence elements nonceItemSpecs
  let restoreInfo ← aDEREncodeItem bncnTag item
  aDEREncodeSequence asn1ConstrSequence [im4rBytes, restoreInfo]
    derImg4RestoreInfoItemSpecs

/-! ## Decoding -/

/-- `DERImg4DecodeTagCompare`. -/
def derImg4DecodeTagCompare (a1 : DerItem) (nameTag : ℕ) : ℤ :=
  if a1.length < 4 then -1
  else if 4 < a1.length then 1
  else
    match derParseInteger a1 with
    | .error _ => -2
    | .ok n => if n < nameTag then -1 else if nameTag < n then 1 else 0

/-- `DERImg4DecodeRestoreInfo`; `a2` has the magic and the nonce. -/
def derImg4DecodeRestoreInfo (a1 : DerItem) (a2 : ℕ → DerItem) :
    DerResult (ℕ → DerItem) :=
  if a1 = [] then pure a2
  else do
    let a2 ← derParseSequence a1 derImg4RestoreInfoItemSpecs a2
    if derImg4DecodeTagCompare (a2 0) im4rName ≠ 0 then derError .unexpectedTag
    else pure a2

/-- `DERImg4DecodeFindInSequence`. -/
def derImg4DecodeFindInSequence (tag : ℕ) : ℕ → List UInt8 → DerResult DerItem
  | 0, _ => .error .outOfFuel
  | fuel + 1, seq => do
      let currDecoded ← derDecodeSeqNext seq
      if currDecoded.tag ≠ tag then derImg4DecodeFindInSequence tag fuel currDecoded.rest
      else pure currDecoded.content

/-- `DERImg4DecodeContentFindItemWithTag`; every item takes some of the bytes. -/
def derImg4DecodeContentFindItemWithTag (a1 : DerItem) (tag : ℕ) : DerResult DerItem :=
  derImg4DecodeFindInSequence tag (a1.length + 1) a1

/-- `DERMonster`. -/
structure DerMonster where
  item : DerItem
  tag : ℕ
deriving DecidableEq, Repr

/-- `DERImg4DecodeFindProperty`, with the two elements of `dest`. -/
def derImg4DecodeFindProperty (a1 : DerItem) (etag atag : ℕ) (dest : ℕ → DerItem) :
    DerResult (DerMonster × DerMonster) := do
  let item ← derImg4DecodeContentFindItemWithTag a1 etag
  let dest ← derParseSequence item [⟨0, asn1Ia5String, 0⟩, ⟨1, atag, 0⟩] dest
  let name ← derParseInteger (dest 0)
  if asn1PrivateConstructed + name ≠ etag then derError .unexpectedTag
  else pure (⟨dest 0, asn1PrivateConstructed + etag % 2 ^ 61⟩, ⟨dest 1, atag⟩)

/-- The nonce comes back from the restore info that is made for it, whatever was in
the structures before. -/
def RestoresNonce (nonce : List UInt8) : Prop :=
  ∀ a2 dest, ∃ out info found,
    makeRestoreInfo nonce = .ok out ∧
    derImg4DecodeRestoreInfo out a2 = .ok info ∧
    derImg4DecodeFindProperty (info 1) bncnTag asn1OctetString dest = .ok found ∧
    found.2.item = nonce

/-! ## The sizes -/

section Sizes

variable {item : DerItem} {n : ℕ}

theorem derLengthOfTag_asn1ConstrSequence : derLengthOfTag asn1ConstrSequence = 1 := by
  rw [derLengthOfTag_eq_one_iff]
  decide

/-- The name has five digits. -/
theorem derLengthOfTag_bncnTag : derLengthOfTag bncnTag = 6 := by
  have hnumber : bncnTag % 2 ^ 61 = bncnName := by decide
  rw [derLengthOfTag, hnumber, if_pos (by decide)]
  simp [derTagDigits, bncnName]

theorem derLengthOfLength_short (h : n < 0x80) : derLengthOfLength n = 1 := if_pos h

theorem derLengthOfLength_long (h : 0x80 ≤ n) : 2 ≤ derLengthOfLength n := by
  rw [derLengthOfLength, if_neg (not_lt.mpr h)]
  have hpos := derByteCount_pos (n := n) (by omega)
  omega

/-- Both sequences are a name of four characters and an item with a short tag. -/
structure NamedItem where
  name : DerItem
  tag : ℕ
  name_length : name.length = 4
  tag_length : derLengthOfTag tag = 1
  tag_lt : tag < 2 ^ 64

namespace NamedItem

variable (p : NamedItem)

def specs : List DerItemSpec := [⟨0, asn1Ia5String, 0⟩, ⟨1, p.tag, 0⟩]

def elements (item : DerItem) : List UInt8 := derElements [p.name, item] p.specs

def sequence (item : DerItem) : DerItem := derTlv asn1ConstrSequence (p.elements item)

theorem specs_zero : ∀ spec ∈ p.specs, spec.options = 0 := by
  simp [specs]

theorem length_elements (item : DerItem) :
    (p.elements item).length = 7 + derLengthOfLength item.length + item.length := by
  have hname : derLengthOfLength p.name.length = 1 :=
    derLengthOfLength_short (by rw [p.name_length]; decide)
  have hia5 : derLengthOfTag asn1Ia5String = 1 := by
    rw [derLengthOfTag_eq_one_iff]
    decide
  have helements : p.elements item =
      derTlv asn1Ia5String p.name ++ (derTlv p.tag item ++ []) := rfl
  rw [helements, List.append_nil, List.length_append, length_derTlv, length_derTlv, hname,
    hia5, p.tag_length, p.name_length]
  omega

theorem length_sequence (item : DerItem) :
    (p.sequence item).length =
      1 + derLengthOfLength (p.elements item).length + (p.elements item).length := by
  rw [sequence, length_derTlv, derLengthOfTag_asn1ConstrSequence]

theorem length_sequence_le (h : item.length + 1018 < 2 ^ 32) :
    (p.sequence item).length ≤ item.length + 18 := by
  have helements := p.length_elements item
  have hinner := derLengthOfLength_le (n := item.length) (by omega)
  have houter := derLengthOfLength_le (n := (p.elements item).length) (by omega)
  rw [length_sequence]
  omega

theorem room : derSequenceRoom [p.name, item] p.specs = (1018 + item.length) % 2 ^ 32 := by
  have hroom : derSequenceRoom [p.name, item] p.specs =
      (1000 + (derMaxEncodedSize p.name.length +
        derMaxEncodedSize item.length)) % 2 ^ 32 := rfl
  rw [hroom, p.name_length, derMaxEncodedSize, derMaxEncodedSize]
  omega

theorem aDEREncodeSequence_ok (h : item.length + 1018 < 2 ^ 32) :
    aDEREncodeSequence asn1ConstrSequence [p.name, item] p.specs =
      .ok (p.sequence item) := by
  have hlength := p.length_sequence_le h
  rw [aDEREncodeSequence, room]
  exact derEncodeSequence_ok p.specs_zero (Nat.mod_lt _ (by decide))
    (show (p.sequence item).length ≤ _ by omega)

/-- A size that wraps is too small for the item. -/
theorem aDEREncodeSequence_wrapped (h : 2 ^ 32 ≤ item.length + 1018)
    (hlt : item.length < 2 ^ 32) {out : DerItem} :
    aDEREncodeSequence asn1ConstrSequence [p.name, item] p.specs ≠ .ok out := by
  intro hok
  rw [aDEREncodeSequence, room] at hok
  have hle := length_le_of_derEncodeSequence p.specs_zero hok ⟨1, p.tag, 0⟩
    (by simp [specs])
  change item.length ≤ _ at hle
  omega

theorem plain (h : item.length < 2 ^ 32) : DerPlain [p.name, item] p.specs := by
  intro spec hspec
  rcases List.mem_cons.mp hspec with rfl | hspec
  · refine ⟨rfl, by change asn1Ia5String < _; decide, ?_⟩
    change p.name.length < _
    rw [p.name_length]
    decide
  · obtain rfl := List.mem_singleton.mp hspec
    exact ⟨rfl, p.tag_lt, h⟩

/-- The item is parsed from the sequence. -/
theorem parse_sequence (h : item.length + 1018 < 2 ^ 32) (dest : ℕ → DerItem) :
    ∃ stored, derParseSequence (p.sequence item) p.specs dest = .ok stored ∧
      stored 0 = p.name ∧ stored 1 = item := by
  have hlength := p.length_sequence_le h
  rw [length_sequence] at hlength
  have hparse : derParseSequence (p.sequence item) p.specs dest =
      .ok (Function.update (Function.update dest 0 p.name) 1 item) :=
    derParseSequence_encoded (List.cons_ne_nil _ _) (p.plain (by omega))
      (show (p.elements item).length < 2 ^ 32 by omega)
  refine ⟨_, hparse, ?_, Function.update_self ..⟩
  rw [Function.update_of_ne Nat.zero_ne_one, Function.update_self]

end NamedItem

/-- Seven bytes are enough for the tag and a short length. -/
theorem aDEREncodeItem_short (h : item.length < 0x80) :
    aDEREncodeItem bncnTag item = .ok (derTlv bncnTag item) := by
  refine derEncodeItem_ok ?_ (Nat.mod_lt _ (by decide))
  rw [length_derTlv, derLengthOfTag_bncnTag, derLengthOfLength_short h, derMaxEncodedSize]
  omega

/-- A long length takes more. -/
theorem aDEREncodeItem_long (h : 0x80 ≤ item.length)
    (hsize : item.length + 11 < 2 ^ 32) :
    aDEREncodeItem bncnTag item = derError .bufOverflow := by
  have hlong := derLengthOfLength_long h
  have hle := derLengthOfLength_le (n := item.length) (by omega)
  refine if_pos ?_
  rw [derLengthOfItem, derLengthOfTag_bncnTag, derMaxEncodedSize]
  omega

end Sizes

/-! ## The nonce -/

section Nonce

variable {nonce : List UInt8}

/-- `"BNCN"` and the nonce. -/
def namedNonce : NamedItem where
  name := bncnBytes
  tag := asn1OctetString
  name_length := rfl
  tag_length := by
    rw [derLengthOfTag_eq_one_iff]
    decide
  tag_lt := by decide

/-- `"IM4R"` and the set with the nonce. -/
def namedRestoreInfo : NamedItem where
  name := im4rBytes
  tag := asn1ConstrSet
  name_length := rfl
  tag_length := by
    rw [derLengthOfTag_eq_one_iff]
    decide
  tag_lt := by decide

/-- The sequence has a short length for up to 117 bytes. -/
theorem length_namedNonce_iff (h : nonce.length + 1018 < 2 ^ 32) :
    (namedNonce.sequence nonce).length < 0x80 ↔ nonce.length ≤ 117 := by
  have helements := namedNonce.length_elements nonce
  have hsequence := namedNonce.length_sequence nonce
  constructor
  · intro hshort
    have hinner := derLengthOfLength_pos (n := nonce.length)
    have houter := derLengthOfLength_pos (n := (namedNonce.elements nonce).length)
    omega
  · intro hshort
    have hinner := derLengthOfLength_short (show nonce.length < 0x80 by omega)
    have houter := derLengthOfLength_short
      (show (namedNonce.elements nonce).length < 0x80 by omega)
    omega

/-- The structure that is made for a short nonce. -/
def restoreInfoOf (nonce : DerItem) : DerItem :=
  namedRestoreInfo.sequence (derTlv bncnTag (namedNonce.sequence nonce))

theorem length_bncn_lt (h : (namedNonce.sequence nonce).length < 0x80) :
    (derTlv bncnTag (namedNonce.sequence nonce)).length + 1018 < 2 ^ 32 := by
  rw [length_derTlv, derLengthOfTag_bncnTag, derLengthOfLength_short h]
  omega

theorem makeRestoreInfo_short {nonceBytes : List UInt8}
    (hnonce : nonceBytes.take (nonceBytes.length % 2 ^ 32) = nonce)
    (h : nonce.length ≤ 117) : makeRestoreInfo nonceBytes = .ok (restoreInfoOf nonce) := by
  have hshort := (length_namedNonce_iff (by omega)).mpr h
  have hsequence : aDEREncodeSequence asn1ConstrSequence [bncnBytes, nonce]
      nonceItemSpecs = .ok (namedNonce.sequence nonce) :=
    namedNonce.aDEREncodeSequence_ok (by omega)
  rw [makeRestoreInfo]
  simp only [hnonce, hsequence, except_ok_bind, aDEREncodeItem_short hshort]
  exact namedRestoreInfo.aDEREncodeSequence_ok (length_bncn_lt hshort)

theorem makeRestoreInfo_long {nonceBytes out : List UInt8}
    (hnonce : nonceBytes.take (nonceBytes.length % 2 ^ 32) = nonce)
    (h : 117 < nonce.length) : makeRestoreInfo nonceBytes ≠ .ok out := by
  have hlt : nonce.length < 2 ^ 32 := by
    rw [← hnonce, List.length_take]
    omega
  intro hok
  rw [makeRestoreInfo] at hok
  simp only [hnonce, except_bind_eq_ok] at hok
  obtain ⟨item, hsequence, restoreInfo, hitem, -⟩ := hok
  by_cases hwraps : nonce.length + 1018 < 2 ^ 32
  · have hfits : aDEREncodeSequence asn1ConstrSequence [bncnBytes, nonce]
        nonceItemSpecs = .ok (namedNonce.sequence nonce) :=
      namedNonce.aDEREncodeSequence_ok hwraps
    have hlong := mt (length_namedNonce_iff hwraps).mp (not_le.mpr h)
    have hle := namedNonce.length_sequence_le hwraps
    rw [hfits] at hsequence
    cases hsequence
    rw [aDEREncodeItem_long (not_lt.mp hlong) (by omega)] at hitem
    cases hitem
  · exact namedNonce.aDEREncodeSequence_wrapped (not_lt.mp hwraps) hlt hsequence

/-- The nonce is decoded from the structure that was made for it. -/
theorem restoreInfoOf_decodes (h : nonce.length ≤ 117) (a2 dest : ℕ → DerItem) :
    ∃ info found, derImg4DecodeRestoreInfo (restoreInfoOf nonce) a2 = .ok info ∧
      derImg4DecodeFindProperty (info 1) bncnTag asn1OctetString dest = .ok found ∧
      found.2.item = nonce := by
  have hshort := (length_namedNonce_iff (by omega)).mpr h
  obtain ⟨info, hinfo, hmagic, hset⟩ :=
    namedRestoreInfo.parse_sequence (length_bncn_lt hshort) a2
  obtain ⟨found, hfound, hname, hitem⟩ :=
    namedNonce.parse_sequence (show nonce.length + 1018 < 2 ^ 32 by omega) dest
  have hcompare : derImg4DecodeTagCompare im4rBytes im4rName = 0 := by decide
  have hinteger : derParseInteger bncnBytes = .ok bncnName := by decide
  refine ⟨info, (⟨found 0, bncnTag⟩, ⟨found 1, asn1OctetString⟩), ?_, ?_, hitem⟩
  · have hne : restoreInfoOf nonce ≠ [] := derTlv_ne_nil
    have hparse : derParseSequence (restoreInfoOf nonce) derImg4RestoreInfoItemSpecs a2 =
      .ok info := hinfo
    rw [derImg4DecodeRestoreInfo, if_neg hne, hparse, except_ok_bind, hmagic]
    exact if_neg (not_not.mpr hcompare)
  · have hnext : derDecodeSeqNext (derTlv bncnTag (namedNonce.sequence nonce) ++ []) =
        .ok ⟨bncnTag, namedNonce.sequence nonce, []⟩ :=
      derDecodeSeqNext_encoded (by decide) (by omega)
    have hparse : derParseSequence (namedNonce.sequence nonce)
      [⟨0, asn1Ia5String, 0⟩, ⟨1, asn1OctetString, 0⟩] dest = .ok found := hfound
    have hname' : found 0 = bncnBytes := hname
    rw [List.append_nil] at hnext
    rw [derImg4DecodeFindProperty, hset, derImg4DecodeContentFindItemWithTag,
      derImg4DecodeFindInSequence, hnext, except_ok_bind, if_neg (not_not.mpr rfl)]
    simp only [pure_bind, hparse, except_ok_bind, hname', hinteger]
    exact if_neg (not_not.mpr rfl)

/-- Up to 117 bytes come back; for more, `makeRestoreInfo` fails or cuts the nonce. -/
theorem restoresNonce_iff (nonce : List UInt8) :
    RestoresNonce nonce ↔ nonce.length ≤ 117 := by
  constructor
  · intro h
    obtain ⟨out, info, found, hmake, hinfo, hfound, hnonce⟩ :=
      h (fun _ => []) (fun _ => [])
    by_cases hcut : (nonce.take (nonce.length % 2 ^ 32)).length ≤ 117
    · obtain ⟨info', found', hinfo', hfound', hnonce'⟩ :=
        restoreInfoOf_decodes hcut (fun _ => []) (fun _ => [])
      rw [makeRestoreInfo_short rfl hcut] at hmake
      cases hmake
      rw [hinfo'] at hinfo
      cases hinfo
      rw [hfound'] at hfound
      cases hfound
      rw [← hnonce, hnonce']
      exact hcut
    · exact absurd hmake (makeRestoreInfo_long rfl (not_le.mp hcut))
  · intro h a2 dest
    have hwhole : nonce.take (nonce.length % 2 ^ 32) = nonce := by
      rw [Nat.mod_eq_of_lt (by omega), List.take_length]
    obtain ⟨info, found, hinfo, hfound, hnonce⟩ := restoreInfoOf_decodes h a2 dest
    exact ⟨_, info, found, makeRestoreInfo_short hwhole h, hinfo, hfound, hnonce⟩

/-- A nonce of 118 bytes. -/
theorem nonce_118_fails : ¬ RestoresNonce (List.replicate 118 0) := by
  intro h
  obtain ⟨out, _, _, hmake, -⟩ := h (fun _ => []) (fun _ => [])
  have hwhole : (List.replicate 118 (0 : UInt8)).take
      ((List.replicate 118 (0 : UInt8)).length % 2 ^ 32) = List.replicate 118 0 := by
    rw [List.length_replicate]
    rfl
  exact makeRestoreInfo_long hwhole (by rw [List.length_replicate]; decide) hmake

end Nonce

end PongoOS
