import PongoOS.Der.Decode

/-!
# What the decoder takes

Only the encodings that the encoder writes are decoded, with one exception: a length
from 1 to 127 may also be written in a byte of its own behind `0x81`.
-/

namespace PongoOS

variable {tag n t k : ℕ} {tag1 : UInt8} {bytes der rest form raw content : List UInt8}

/-! ## Tags -/

theorem derTagLoop_digit (hn : t * 128 + k ≠ 0) (hk : k < 128) :
    derTagLoop (t * 128 + k) bytes = derTagLoop t (UInt8.ofNat (k + 0x80) :: bytes) := by
  rw [derTagLoop, if_neg hn, show (t * 128 + k) / 128 = t by omega,
    show (t * 128 + k) % 128 = k by omega]

/-- The digits that are read are those that encode the number.  The induction is on
the bytes; `t` is the number so far. -/
theorem derDecodeTagLoop_sound (h : derDecodeTagLoop t der = .ok (n, rest))
    (hfirst : t ≠ 0 ∨ der.head? ≠ some 0x80) :
    derTagLoop t der = derTagLoop (n / 128) (UInt8.ofNat (n % 128) :: rest) ∧
      rest ≠ [] ∧ t * 128 ≤ n := by
  induction der generalizing t with
  | nil => cases h
  | cons b der ih =>
      have hb := b.toNat_lt
      rw [derDecodeTagLoop] at h
      split at h
      · cases h
      rename_i hroom
      rw [not_or] at hroom
      dsimp only at h
      split at h
      · rename_i hmark
        rw [UInt8.le_iff_toNat_le] at hmark
        change 128 ≤ b.toNat at hmark
        have hne : t * 128 + b.toNat % 128 ≠ 0 := by
          rcases hfirst with ht | hhead
          · omega
          · have hzero : b.toNat ≠ 128 := by
              intro heq
              apply hhead
              rw [List.head?_cons, Option.some_inj, ← UInt8.toNat_inj]
              exact heq
            omega
        obtain ⟨hloop, hrest, hle⟩ := ih h (.inl hne)
        refine ⟨?_, hrest, by omega⟩
        rw [← hloop, derTagLoop_digit hne (by omega),
          show b.toNat % 128 + 0x80 = b.toNat by omega, UInt8.ofNat_toNat]
      · rename_i hlast
        rw [UInt8.le_iff_toNat_le] at hlast
        change ¬ 128 ≤ b.toNat at hlast
        cases h
        refine ⟨?_, hroom.1, by omega⟩
        rw [show (t * 128 + b.toNat % 128) / 128 = t by omega,
          show (t * 128 + b.toNat % 128) % 128 = b.toNat by omega, UInt8.ofNat_toNat]

theorem derDecodeTagNumber_sound (h : derDecodeTagNumber tag1 der = .ok (n, rest))
    (hder : der ≠ []) :
    tag1 :: der = derTagBytes (tag1.toNat / 32 * 2 ^ 61 + n) ++ rest ∧ n < 2 ^ 61 ∧
      rest ≠ [] := by
  have htag1 := tag1.toNat_lt
  rw [derDecodeTagNumber] at h
  split at h
  · rename_i hlong
    split at h
    · cases h
    rename_i hfirst
    rw [except_bind_eq_ok] at h
    obtain ⟨⟨m, rest'⟩, hloop, hcheck⟩ := h
    dsimp only at hcheck
    split at hcheck
    · cases hcheck
    rename_i hlt
    cases hcheck
    obtain ⟨b, bs, rfl⟩ := List.exists_cons_of_ne_nil hder
    simp only [List.head?_cons, Option.any_some, decide_eq_true_eq, not_or] at hfirst
    obtain ⟨hdigits, hrest, -⟩ := derDecodeTagLoop_sound hloop
      (.inr (by rw [List.head?_cons, Ne, Option.some_inj]; exact hfirst.1))
    rw [derTagLoop, if_pos rfl] at hdigits
    have hlarge : 0x1F ≤ n := by
      by_cases hone : n / 128 = 0
      · rw [derTagLoop, if_pos hone, List.cons.injEq] at hdigits
        have hb := hfirst.2
        rw [hdigits.1, UInt8.lt_iff_toNat_lt,
          UInt8.toNat_ofNat_of_lt' (show n % 128 < 256 by omega)] at hb
        change ¬ n % 128 < 31 at hb
        omega
      · omega
    refine ⟨?_, by omega, hrest⟩
    rw [derTagBytes_long (by omega), List.cons_append, derTagLoop_append,
      List.singleton_append, show (tag1.toNat / 32 * 2 ^ 61 + n) % 2 ^ 61 = n by omega,
      show (tag1.toNat / 32 * 2 ^ 61 + n) / 2 ^ 61 * 32 + 0x1F = tag1.toNat by omega,
      UInt8.ofNat_toNat, ← hdigits]
  · rename_i hshort
    cases h
    refine ⟨?_, by omega, hder⟩
    rw [derTagBytes_short (by omega), List.singleton_append,
      show (tag1.toNat / 32 * 2 ^ 61 + tag1.toNat % 32) / 2 ^ 61 * 32 +
        (tag1.toNat / 32 * 2 ^ 61 + tag1.toNat % 32) % 2 ^ 61 = tag1.toNat by omega,
      UInt8.ofNat_toNat]

/-! ## Lengths -/

/-- The ways to write the length `n` that are read back. -/
inductive DerLengthForm : ℕ → List UInt8 → Prop where
  | minimal (n : ℕ) : DerLengthForm n (derLengthBytes n)
  | ofOneByte {n : ℕ} : 0 < n → n < 0x80 → DerLengthForm n [0x81, UInt8.ofNat n]

theorem bigEndian_singleton (b : UInt8) : bigEndian [b] = b.toNat := rfl

theorem bigEndian_pos (hbytes : bytes ≠ []) (hfirst : bytes.head? ≠ some 0) :
    0 < bigEndian bytes := by
  induction bytes using List.reverseRecOn with
  | nil => exact absurd rfl hbytes
  | append_singleton bs b ih =>
      rw [bigEndian_concat]
      by_cases hbs : bs = []
      · subst hbs
        have hb : b.toNat ≠ 0 := by
          intro hzero
          apply hfirst
          rw [List.nil_append, List.head?_cons, Option.some_inj, ← UInt8.toNat_inj]
          exact hzero
        omega
      · rw [List.head?_append_of_ne_nil _ hbs] at hfirst
        have hpos := ih hbs hfirst
        omega

/-- Digits that do not start with zero are those of their value. -/
theorem derLengthLoop_bigEndian (hfirst : bytes.head? ≠ some 0) :
    derLengthLoop (bigEndian bytes) = bytes := by
  induction bytes using List.reverseRecOn with
  | nil => rw [show bigEndian [] = 0 from rfl, derLengthLoop, if_pos rfl]
  | append_singleton bs b ih =>
      have hb := b.toNat_lt
      have hpos := bigEndian_pos (List.append_ne_nil_of_right_ne_nil bs
        (List.cons_ne_nil b [])) hfirst
      rw [bigEndian_concat] at hpos ⊢
      have hbs : derLengthLoop (bigEndian bs) = bs := by
        by_cases hnil : bs = []
        · rw [hnil]
          rw [show bigEndian [] = 0 from rfl, derLengthLoop, if_pos rfl]
        · exact ih (by rwa [List.head?_append_of_ne_nil _ hnil] at hfirst)
      rw [derLengthLoop, if_neg (by omega),
        show (b.toNat + 256 * bigEndian bs) / 256 = bigEndian bs by omega, hbs]
      congr 2
      rw [← UInt8.toNat_inj, UInt8.toNat_ofNat']
      omega

theorem bigEndian_lt : bigEndian bytes < 256 ^ bytes.length := by
  rw [bigEndian, ← List.length_reverse]
  exact littleEndian_lt bytes.reverse

theorem DerLengthForm.ne_nil (h : DerLengthForm n form) : form ≠ [] := by
  cases h with
  | minimal =>
      rw [← List.length_pos_iff, length_derLengthBytes]
      exact derLengthOfLength_pos
  | ofOneByte _ _ => exact List.cons_ne_nil _ _

/-- Bytes that are no longer than a word and do not start with zero. -/
theorem derLengthForm_of_digits (hbytes : bytes ≠ []) (hfirst : bytes.head? ≠ some 0)
    (hlength : bytes.length ≤ 4) :
    DerLengthForm (bigEndian bytes) (UInt8.ofNat (0x80 + bytes.length) :: bytes) := by
  have hpos := bigEndian_pos hbytes hfirst
  have hloop := derLengthLoop_bigEndian hfirst
  by_cases hshort : bigEndian bytes < 0x80
  · have hcount : bytes.length = 1 := by
      rw [← hloop, length_derLengthLoop, derByteCount, if_neg (Nat.ne_of_gt hpos), derByteCount,
        if_pos (by omega)]
    obtain ⟨b, rfl⟩ := List.length_eq_one_iff.mp hcount
    have hvalue := bigEndian_singleton b
    have hform := DerLengthForm.ofOneByte hpos hshort
    rw [hvalue, UInt8.ofNat_toNat] at hform
    rw [hvalue]
    exact hform
  · have hform := DerLengthForm.minimal (bigEndian bytes)
    rw [derLengthBytes, if_neg hshort, derLengthOfLength, if_neg hshort,
      ← length_derLengthLoop, hloop, Nat.add_sub_cancel_left, Nat.add_comm] at hform
    exact hform

theorem derDecodeLength_oneByte (hpos : 0 < n) (hshort : n < 0x80)
    (hle : n ≤ rest.length) :
    derDecodeLength (0x81 :: UInt8.ofNat n :: rest) = .ok (n, rest) := by
  have hn : (UInt8.ofNat n).toNat = n :=
    UInt8.toNat_ofNat_of_lt' (show n < 256 by omega)
  have hne : UInt8.ofNat n ≠ 0 := by
    rw [Ne, ← UInt8.toNat_inj, hn]
    exact Nat.ne_of_gt hpos
  have hvalue : (shiftIn [UInt8.ofNat n]).toNat = n := by
    rw [shiftIn_toNat, bigEndian_singleton, hn]
    omega
  have hform : (0x80 : UInt8) ≤ 0x81 := by decide
  have hcount : (0x81 : UInt8).toNat % 128 = 1 := rfl
  rw [derDecodeLength, if_pos hform]
  simp only [hcount, List.take_succ_cons, List.take_zero, List.drop_succ_cons,
    List.drop_zero, hvalue]
  rw [if_neg (by simp [hne]), if_neg (not_lt.mpr hle)]
  rfl

theorem derDecodeLength_iff : derDecodeLength bytes = .ok (n, rest) ↔
    n ≤ rest.length ∧ n < 2 ^ 32 ∧ ∃ form, DerLengthForm n form ∧ bytes = form ++ rest := by
  constructor
  · intro h
    cases bytes with
    | nil => cases h
    | cons len1 der =>
        have hlen1 := len1.toNat_lt
        rw [derDecodeLength] at h
        dsimp only at h
        split at h
        · rename_i hlong
          rw [UInt8.le_iff_toNat_le] at hlong
          change 128 ≤ len1.toNat at hlong
          split at h
          · cases h
          rename_i hvalid
          obtain ⟨hmax, hroom, hzero, hfirst⟩ :
              len1.toNat % 128 ≤ 4 ∧ len1.toNat % 128 ≤ der.length ∧
                len1.toNat % 128 ≠ 0 ∧ der.head? ≠ some 0 := by
            simpa only [not_or, not_lt] using hvalid
          split at h
          · cases h
          rename_i hcontent
          cases h
          have hlength : (der.take (len1.toNat % 128)).length = len1.toNat % 128 :=
            List.length_take_of_le hroom
          have hdigits : (der.take (len1.toNat % 128)).head? ≠ some 0 := by
            rwa [List.head?_take, if_neg hzero]
          have hform := derLengthForm_of_digits (by
            rw [← List.length_pos_iff, hlength]
            exact Nat.pos_of_ne_zero hzero) hdigits (hlength.symm ▸ hmax)
          have hlt : bigEndian (der.take (len1.toNat % 128)) < 2 ^ 32 := by
            refine Nat.lt_of_lt_of_le bigEndian_lt ?_
            rw [hlength]
            exact Nat.pow_le_pow_right (by decide) hmax
          rw [shiftIn_toNat, Nat.mod_eq_of_lt hlt] at hcontent ⊢
          refine ⟨not_lt.mp hcontent, hlt, _, hform, ?_⟩
          rw [hlength, show 0x80 + len1.toNat % 128 = len1.toNat by omega,
            UInt8.ofNat_toNat, List.cons_append, List.take_append_drop]
        · rename_i hshort
          rw [UInt8.le_iff_toNat_le] at hshort
          change ¬ 128 ≤ len1.toNat at hshort
          split at h
          · cases h
          rename_i hcontent
          cases h
          refine ⟨not_lt.mp hcontent, by omega, _, .minimal _, ?_⟩
          rw [derLengthBytes, if_pos (by omega), UInt8.ofNat_toNat, List.singleton_append]
  · rintro ⟨hle, hlt, form, hform, rfl⟩
    cases hform with
    | minimal => exact derDecodeLength_encoded hlt hle
    | ofOneByte hpos hshort => exact derDecodeLength_oneByte hpos hshort hle

/-! ## Numbers -/

/-- The content of an `INTEGER`: no byte too many, and the highest bit clear. -/
def derIntegerBytes (n : ℕ) : DerItem :=
  if (derLengthLoop n).head?.all fun b => 0x80 ≤ b then 0 :: derLengthLoop n
  else derLengthLoop n

theorem derIntegerBytes_zero : derIntegerBytes 0 = [0] := by
  rw [derIntegerBytes, derLengthLoop, if_pos rfl]
  rfl

theorem derIntegerBytes_bigEndian {b : UInt8} (hzero : b ≠ 0) (hshort : b < 0x80) :
    derIntegerBytes (bigEndian (b :: bytes)) = b :: bytes := by
  have hloop : derLengthLoop (bigEndian (b :: bytes)) = b :: bytes := by
    apply derLengthLoop_bigEndian
    rw [List.head?_cons, Ne, Option.some_inj]
    exact hzero
  rw [derIntegerBytes, hloop, if_neg (by simpa using hshort)]

theorem foldl_eq_bigEndian :
    bytes.foldl (fun value c => (value * 256 + c.toNat) % 2 ^ 64) 0 =
      bigEndian bytes % 2 ^ 64 := by
  induction bytes using List.reverseRecOn with
  | nil => rfl
  | append_singleton bs b ih =>
      rw [List.foldl_concat, ih, bigEndian_concat]
      omega

theorem bigEndian_zero_cons : bigEndian (0 :: bytes) = bigEndian bytes := by
  induction bytes using List.reverseRecOn with
  | nil => rfl
  | append_singleton bs b ih => rw [← List.cons_append, bigEndian_concat, ih, bigEndian_concat]

theorem bigEndian_lt_of_length (h : bytes.length ≤ 8) : bigEndian bytes < 2 ^ 64 :=
  Nat.lt_of_lt_of_le bigEndian_lt (Nat.pow_le_pow_right (by decide) h)

theorem derParseInteger64_zero_cons (hfirst : bytes.head?.all fun b => 0x80 ≤ b)
    (hlength : bytes.length ≤ 8) :
    derParseInteger64 (0 :: bytes) = .ok (bigEndian bytes) := by
  have hvalue := Nat.mod_eq_of_lt (bigEndian_lt_of_length hlength)
  have hsecond : ¬ ((0 : UInt8) = 0 ∧ bytes.head?.any (fun c => c < 0x80) = true) := by
    cases bytes with
    | nil => simp
    | cons c cs =>
        have hc : ¬ c < 0x80 := UInt8.not_lt.mpr (by simpa using hfirst)
        simp [hc]
  unfold derParseInteger64
  dsimp only
  rw [if_neg (by decide), if_neg hsecond, if_neg (by rw [List.length_cons]; omega),
    if_neg (fun h => h.1 rfl), foldl_eq_bigEndian, bigEndian_zero_cons, hvalue]
  rfl

theorem derParseInteger64_cons {b : UInt8} (hzero : b ≠ 0) (hshort : b < 0x80)
    (hlength : (b :: bytes).length ≤ 8) :
    derParseInteger64 (b :: bytes) = .ok (bigEndian (b :: bytes)) := by
  have hvalue := Nat.mod_eq_of_lt (bigEndian_lt_of_length hlength)
  unfold derParseInteger64
  dsimp only
  rw [if_neg (UInt8.not_le.mpr hshort), if_neg (fun h => hzero h.1),
    if_neg (fun h => hzero h.1), if_neg (by omega), foldl_eq_bigEndian, hvalue]
  rfl

/-- Numbers are parsed from their shortest encodings only. -/
theorem derParseInteger64_sound (h : derParseInteger64 content = .ok n) :
    content = derIntegerBytes n ∧ n < 2 ^ 64 := by
  have hparse := h
  cases content with
  | nil => cases h
  | cons b bs =>
      unfold derParseInteger64 at h
      dsimp only at h
      split at h
      · cases h
      rename_i hneg
      split at h
      · cases h
      rename_i hsecond
      split at h
      · cases h
      rename_i hlong
      split at h
      · cases h
      rename_i hlong'
      by_cases hzero : b = 0
      · subst hzero
        have hlength : bs.length ≤ 8 := by
          by_contra hgt
          apply hlong
          rw [List.length_cons]
          exact ⟨rfl, by omega⟩
        have hfirst : bs.head?.all (fun b => 0x80 ≤ b) := by
          cases bs with
          | nil => rfl
          | cons c cs => simpa using hsecond
        rw [derParseInteger64_zero_cons hfirst hlength] at hparse
        cases hparse
        have hloop : derLengthLoop (bigEndian bs) = bs := by
          apply derLengthLoop_bigEndian
          cases bs with
          | nil => simp
          | cons c cs =>
              rintro heq
              rw [heq] at hfirst
              exact absurd hfirst (by decide)
        refine ⟨?_, bigEndian_lt_of_length hlength⟩
        rw [derIntegerBytes, hloop, if_pos hfirst]
      · have hlength : (b :: bs).length ≤ 8 := by
          by_contra hgt
          exact hlong' ⟨hzero, not_le.mp hgt⟩
        have hshort : b < 0x80 := UInt8.not_le.mp hneg
        rw [derParseInteger64_cons hzero hshort hlength] at hparse
        cases hparse
        exact ⟨(derIntegerBytes_bigEndian hzero hshort).symm, bigEndian_lt_of_length hlength⟩

theorem derParseInteger64_bytes (hn : n < 2 ^ 64) :
    derParseInteger64 (derIntegerBytes n) = .ok n := by
  have hcount : (derLengthLoop n).length ≤ 8 := by
    rw [length_derLengthLoop]
    exact derByteCount_le (by omega)
  have hvalue := bigEndian_derLengthLoop (n := n)
  unfold derIntegerBytes
  split
  · rename_i hfirst
    rw [derParseInteger64_zero_cons hfirst hcount, hvalue]
  · rename_i hfirst
    cases hbytes : derLengthLoop n with
    | nil =>
        rw [hbytes] at hfirst
        exact absurd rfl hfirst
    | cons b bs =>
        rw [hbytes] at hfirst hcount hvalue
        have hzero : b ≠ 0 := by
          have hne : n ≠ 0 := by
            rintro rfl
            rw [derLengthLoop, if_pos rfl] at hbytes
            cases hbytes
          have hhead := head_derLengthLoop hne
          rw [hbytes, List.head?_cons, Ne, Option.some_inj] at hhead
          exact hhead
        rw [derParseInteger64_cons hzero (by simpa using hfirst) hcount, hvalue]

theorem derParseInteger_iff : derParseInteger content = .ok n ↔
    content = derIntegerBytes n ∧ n < 2 ^ 32 := by
  unfold derParseInteger
  rw [except_bind_eq_ok]
  constructor
  · rintro ⟨m, hparse, hcheck⟩
    split at hcheck
    · cases hcheck
    rename_i hsmall
    cases hcheck
    exact ⟨(derParseInteger64_sound hparse).1, by omega⟩
  · rintro ⟨rfl, hn⟩
    exact ⟨n, derParseInteger64_bytes (by omega), if_neg (by omega)⟩

/-! ## Items -/

/-- `raw` is an encoding of an item that the decoder takes. -/
structure DerEncodes (raw : List UInt8) (tag : ℕ) (content : DerItem) : Prop where
  tag_lt : tag < 2 ^ 64
  length_lt : content.length < 2 ^ 32
  form : ∃ form, DerLengthForm content.length form ∧
    raw = derTagBytes tag ++ form ++ content

theorem derEncodes_tlv (htag : tag < 2 ^ 64) (hlength : content.length < 2 ^ 32) :
    DerEncodes (derTlv tag content) tag content :=
  ⟨htag, hlength, _, .minimal _, rfl⟩

theorem DerEncodes.ne_nil (h : DerEncodes raw tag content) : raw ≠ [] := by
  obtain ⟨form, hform, rfl⟩ := h.form
  exact List.append_ne_nil_of_left_ne_nil
    (List.append_ne_nil_of_right_ne_nil _ hform.ne_nil) _

theorem DerEncodes.decode (h : DerEncodes raw tag content) (rest : List UInt8) :
    derDecodeItem (raw ++ rest) = .ok ⟨tag, content, rest⟩ := by
  obtain ⟨form, hform, rfl⟩ := h.form
  have htag := h.tag_lt
  have hne : form ++ (content ++ rest) ≠ [] :=
    List.append_ne_nil_of_left_ne_nil hform.ne_nil _
  obtain ⟨tag1, bs, hbytes, hbs, hclass, hnumber⟩ := derDecodeTagNumber_encoded htag hne
  obtain ⟨b, bs, rfl⟩ := List.exists_cons_of_ne_nil hbs
  have hlength : derDecodeLength (form ++ (content ++ rest)) =
      .ok (content.length, content ++ rest) :=
    derDecodeLength_iff.mpr ⟨by rw [List.length_append]; omega, h.length_lt, form, hform,
      rfl⟩
  rw [List.append_assoc, List.append_assoc, hbytes, derDecodeItem, hnumber, except_ok_bind]
  simp only
  rw [hlength, except_ok_bind, hclass]
  simp only [List.take_left, List.drop_left]
  exact congrArg (fun t => Except.ok (DerDecoded.mk t content rest)) (by omega)

theorem derDecodeItem_sound (h : derDecodeItem bytes = .ok ⟨tag, content, rest⟩) :
    ∃ raw, DerEncodes raw tag content ∧ bytes = raw ++ rest := by
  match bytes, h with
  | [], h => cases h
  | [_], h => cases h
  | tag1 :: b :: der, h =>
      have htag1 := tag1.toNat_lt
      rw [derDecodeItem, except_bind_eq_ok] at h
      obtain ⟨⟨m, der'⟩, hnumber, h⟩ := h
      rw [except_bind_eq_ok] at h
      obtain ⟨⟨k, der''⟩, hlength, h⟩ := h
      obtain ⟨hbytes, hm, -⟩ := derDecodeTagNumber_sound hnumber (List.cons_ne_nil _ _)
      obtain ⟨hle, hlt, form, hform, rfl⟩ := derDecodeLength_iff.mp hlength
      cases h
      have hcontent : (der''.take k).length = k := List.length_take_of_le hle
      refine ⟨_, ⟨by omega, by omega, form, by rwa [hcontent], rfl⟩, ?_⟩
      rw [hbytes, List.append_assoc, List.append_assoc, List.take_append_drop]

/-- The decoder takes exactly the encodings of items, whatever is behind them. -/
theorem derDecodeItem_iff : derDecodeItem bytes = .ok ⟨tag, content, rest⟩ ↔
    ∃ raw, DerEncodes raw tag content ∧ bytes = raw ++ rest := by
  constructor
  · exact derDecodeItem_sound
  · rintro ⟨raw, hraw, rfl⟩
    exact hraw.decode rest

end PongoOS
