import Mathlib.Data.List.GetD
import PongoOS.Shell.Tokens

/-!
# The command `aes`

The arguments are up to three optional words for the mode, the direction and the
size of the key, the initialisation vector with the key, and the data.  The last
two are hexadecimal, where a byte takes two characters.
-/

namespace PongoOS

/-! ## Hexadecimal text -/

/-- The range check of `hexparse` for one character. -/
def HexChar (c : UInt8) : Prop :=
  (48 ≤ c ∧ c ≤ 57) ∨ (97 ≤ c ∧ c ≤ 102) ∨ (65 ≤ c ∧ c ≤ 70)

instance (c : UInt8) : Decidable (HexChar c) :=
  inferInstanceAs (Decidable (_ ∨ _))

def hexNibble (c : UInt8) : UInt8 :=
  if 48 ≤ c ∧ c ≤ 57 then c - 48
  else (if 97 ≤ c ∧ c ≤ 102 then c - 97 else c - 65) + 10

/-- `hexparse`, with what it writes to `buf`.  Behind the string there is its
terminator.  The text is consumed where the source indexes it. -/
def hexparse : List UInt8 → ℕ → Option (List UInt8)
  | _, 0 => some []
  | s, n + 1 =>
      let c := s.getD 0 0
      let d := s.getD 1 0
      if HexChar c ∧ HexChar d then
        (hexparse (s.drop 2) n).map ((hexNibble c <<< 4 ||| hexNibble d) :: ·)
      else none

/-! ## The command -/

-- the parts of `op`, each with its mask
def aesEncrypt : ℕ := 0x00000000
def aesDecrypt : ℕ := 0x80000000
def aesModeMask : ℕ := 0x80000000
def aesCbc : ℕ := 0x00000000
def aesEcb : ℕ := 0x40000000
def aesCipherMask : ℕ := 0x40000000
def aes128 : ℕ := 0x10000000
def aes192 : ℕ := 0x20000000
def aes256 : ℕ := 0x30000000
def aesBitsMask : ℕ := 0x30000000
def aesUserKey : ℕ := 0x00000000
def aesUid : ℕ := 0x00000001
def aesGid0 : ℕ := 0x00000002
def aesGid1 : ℕ := 0x00000003
def aesKeyMask : ℕ := 0x00000003

def asciiWord (s : String) : List UInt8 := s.toUTF8.toList

/-- The call of `aes` that the command makes. -/
structure AesRequest where
  op : ℕ
  data : List UInt8
  iv : Option (List UInt8)
  key : Option (List UInt8)
deriving DecidableEq, Repr

/-- The loop that fills `parts`, and the check for more arguments behind it. -/
def aesParts : ℕ → List UInt8 → Option (List (List UInt8))
  | 0, args => if args = [] then some [] else none
  | n + 1, args =>
      if space ∈ args then
        (aesParts n (lineArguments args)).map (firstWord args :: ·)
      else some [args]

/-- A word that may be left out: its value, and the index behind it. -/
def optionalWord {α : Type} (options : List (List UInt8 × α)) (default : α)
    (parts : List (List UInt8)) (idx : ℕ) : α × ℕ :=
  match options.find? fun o => parts[idx]? = some o.1 with
  | some o => (o.2, idx + 1)
  | none => (default, idx)

/-- Which key is used: a key of the device, or one with its vector in `s`. -/
def aesKey (keylen : ℕ) (s : List UInt8) :
    Except (List String) (ℕ × Option (List UInt8) × Option (List UInt8)) :=
  if s = asciiWord "uid" then pure (aesUid, none, none)
  else if s = asciiWord "gid0" then pure (aesGid0, none, none)
  else if s = asciiWord "gid1" then pure (aesGid1, none, none)
  else if s.length ≠ 2 * (0x10 + keylen) then .error ["Bad key\n"]
  else
    match hexparse s 0x10, hexparse (s.drop 0x10) keylen with
    | some iv, some key => pure (aesUserKey, some iv, some key)
    | _, _ => .error ["Bad key\n"]

def aesData (s : List UInt8) : Except (List String) (List UInt8) :=
  let sz := s.length
  if sz = 0 then .error ["No data given\n"]
  else if sz % 0x20 ≠ 0 then
    .error ["Data must be multiple of AES block size (is 0x%lx)\n"]
  else
    match hexparse s (sz / 2) with
    | some data => pure data
    | none => .error ["Bad data\n"]

/-- `aes_cmd`, up to its call of `aes`.  An error is what is printed before the
usage.  The allocation for the data, which panics when there is no memory, is
left out. -/
def aesCmd (args : List UInt8) : Except (List String) AesRequest :=
  match aesParts 5 (args.dropWhile (· = space)) with
  | none => .error ["Too many arguments\n"]
  | some parts =>
      if parts[0]? = some [] then .error []
      else if parts.length ≤ 1 then .error ["Too few arguments\n"]
      else
        let (mode, idx) := optionalWord
          [(asciiWord "cbc", aesCbc), (asciiWord "ecb", aesEcb)] aesCbc parts 0
        let (op, idx) := optionalWord
          [(asciiWord "enc", aesEncrypt), (asciiWord "dec", aesDecrypt)]
          aesDecrypt parts idx
        if parts.length ≤ idx then .error ["Too few arguments\n"]
        else
          let ((bits, keylen), idx) := optionalWord
            [(asciiWord "128", aes128, 0x10), (asciiWord "192", aes192, 0x18),
              (asciiWord "256", aes256, 0x20)] (aes256, 0x20) parts idx
          if parts.length ≤ idx + 1 then .error ["Too few arguments\n"]
          else do
            let (keyid, iv, key) ← aesKey keylen (parts.getD idx [])
            let data ← aesData (parts.getD (idx + 1) [])
            pure ⟨op ||| mode ||| bits ||| keyid, data, iv, key⟩

/-! ## What a line asks for -/

inductive AesMode where
  | cbc
  | ecb
deriving DecidableEq, Repr

inductive AesDirection where
  | enc
  | dec
deriving DecidableEq, Repr

inductive AesBits where
  | bits128
  | bits192
  | bits256
deriving DecidableEq, Repr

def AesMode.word : AesMode → List UInt8
  | .cbc => asciiWord "cbc"
  | .ecb => asciiWord "ecb"

def AesMode.flag : AesMode → ℕ
  | .cbc => aesCbc
  | .ecb => aesEcb

def AesDirection.word : AesDirection → List UInt8
  | .enc => asciiWord "enc"
  | .dec => asciiWord "dec"

def AesDirection.flag : AesDirection → ℕ
  | .enc => aesEncrypt
  | .dec => aesDecrypt

def AesBits.word : AesBits → List UInt8
  | .bits128 => asciiWord "128"
  | .bits192 => asciiWord "192"
  | .bits256 => asciiWord "256"

def AesBits.flag : AesBits → ℕ
  | .bits128 => aes128
  | .bits192 => aes192
  | .bits256 => aes256

/-- The bytes of a key. -/
def AesBits.keylen : AesBits → ℕ
  | .bits128 => 16
  | .bits192 => 24
  | .bits256 => 32

/-- The optional words of a line. -/
structure AesTokens where
  mode : Option AesMode
  direction : Option AesDirection
  bits : Option AesBits

namespace AesTokens

variable (t : AesTokens)

def words : List (List UInt8) :=
  (t.mode.map AesMode.word).toList ++
    ((t.direction.map AesDirection.word).toList ++
      (t.bits.map AesBits.word).toList)

/-- The default is `cbc dec 256`. -/
def namedMode : AesMode := t.mode.getD .cbc

def namedDirection : AesDirection := t.direction.getD .dec

def namedBits : AesBits := t.bits.getD .bits256

end AesTokens

/-- The character writes the digit, in lower or upper case. -/
def IsHexDigit (c : UInt8) (v : ℕ) : Prop :=
  (asciiWord "0123456789abcdef")[v]? = some c ∨
    (asciiWord "0123456789ABCDEF")[v]? = some c

/-- The text is a hexadecimal encoding of the bytes. -/
inductive HexEncodes : List UInt8 → List UInt8 → Prop where
  | nil : HexEncodes [] []
  | cons {c d b : UInt8} {s bs : List UInt8} (hc : IsHexDigit c (b.toNat / 16))
      (hd : IsHexDigit d (b.toNat % 16)) (hrest : HexEncodes s bs) :
      HexEncodes (c :: d :: s) (b :: bs)

/-- The operation that is asked for, with the vector and the key. -/
structure AesSpec (t : AesTokens) (iv key data : List UInt8) (r : AesRequest) :
    Prop where
  mode : r.op &&& aesCipherMask = t.namedMode.flag
  direction : r.op &&& aesModeMask = t.namedDirection.flag
  bits : r.op &&& aesBitsMask = t.namedBits.flag
  keyid : r.op &&& aesKeyMask = aesUserKey
  iv_eq : r.iv = some iv
  key_eq : r.key = some key
  data_eq : r.data = data

/-! ## Decoding -/

section Hex

variable {c : UInt8} {s bs : List UInt8} {v n : ℕ}

theorem hexDigits_spec :
    ∀ s ∈ [asciiWord "0123456789abcdef", asciiWord "0123456789ABCDEF"],
      s.length = 16 ∧ ∀ v < 16, HexChar (s.getD v 0) ∧
        hexNibble (s.getD v 0) = UInt8.ofNat v := by
  decide +kernel

theorem IsHexDigit.spec (h : IsHexDigit c v) :
    HexChar c ∧ hexNibble c = UInt8.ofNat v := by
  have hspec : ∀ s ∈ [asciiWord "0123456789abcdef", asciiWord "0123456789ABCDEF"],
      s[v]? = some c → HexChar c ∧ hexNibble c = UInt8.ofNat v := by
    intro s hs hget
    obtain ⟨hlength, hall⟩ := hexDigits_spec s hs
    obtain ⟨hv, -⟩ := List.getElem?_eq_some_iff.mp hget
    have hdigit := hall v (hlength ▸ hv)
    rwa [List.getD_eq_getElem?_getD, hget] at hdigit
  rcases h with h | h
  · exact hspec _ (by simp) h
  · exact hspec _ (by simp) h

/-- Two digits are a byte. -/
theorem nibbles_eq (b : UInt8) :
    UInt8.ofNat (b.toNat / 16) <<< 4 ||| UInt8.ofNat (b.toNat % 16) = b := by
  have hall : ∀ n < 256,
      UInt8.ofNat (n / 16) <<< 4 ||| UInt8.ofNat (n % 16) = UInt8.ofNat n := by
    decide +kernel
  rw [hall b.toNat b.toNat_lt, UInt8.ofNat_toNat]

theorem HexEncodes.length (h : HexEncodes s bs) : s.length = 2 * bs.length := by
  induction h with
  | nil => rfl
  | cons _ _ _ ih =>
      rw [List.length_cons, List.length_cons, List.length_cons, ih]
      omega

theorem HexEncodes.drop (h : HexEncodes s bs) :
    HexEncodes (s.drop (2 * n)) (bs.drop n) := by
  induction n generalizing s bs with
  | zero => exact h
  | succ n ih =>
      cases h with
      | nil =>
          rw [List.drop_nil, List.drop_nil]
          exact .nil
      | cons _ _ hrest => exact ih hrest

theorem HexEncodes.hexparse (h : HexEncodes s bs) (hn : n ≤ bs.length) :
    hexparse s n = some (bs.take n) := by
  induction n generalizing s bs with
  | zero => rfl
  | succ n ih =>
      cases h with
      | nil => cases hn
      | cons hc hd hrest =>
          rw [List.length_cons] at hn
          simp only [PongoOS.hexparse, List.getD_cons_zero, List.getD_cons_succ,
            List.drop_succ_cons, List.drop_zero, List.take_succ_cons]
          rw [if_pos ⟨hc.spec.1, hd.spec.1⟩, ih hrest (by omega), hc.spec.2,
            hd.spec.2, nibbles_eq]
          rfl

end Hex

/-! ## Splitting -/

section Words

variable {line w : List UInt8} {ws : List (List UInt8)} {n : ℕ}

/-- The parts are the words, and an empty one behind spaces at the end. -/
theorem aesParts_words (hline : line.head? ≠ some space)
    (hwords : lineWords line = ws) (hne : ws ≠ []) (hlength : ws.length ≤ n) :
    aesParts n line = some ws ∨ aesParts n line = some (ws ++ [[]]) := by
  induction n generalizing line ws with
  | zero => exact absurd (List.length_eq_zero_iff.mp (Nat.le_zero.mp hlength)) hne
  | succ n ih =>
      have hnonempty : line ≠ [] := by
        rintro rfl
        exact hne hwords.symm
      by_cases hspace : space ∈ line
      · rw [aesParts, if_pos hspace]
        rw [lineWords_cons hspace hline] at hwords
        subst hwords
        rw [List.length_cons] at hlength
        have hargs : (lineArguments line).head? ≠ some space := by
          intro hhead
          have hnot := List.head?_dropWhile_not (· = space)
            (line.dropWhile (· ≠ space))
          rw [lineArguments] at hhead
          rw [hhead] at hnot
          simp at hnot
        rcases List.eq_nil_or_concat (lineWords (lineArguments line)) with
          hnil | ⟨_, _, hcons⟩
        · -- there are only spaces behind the last word
          have hend : lineArguments line = [] := by
            by_contra hcons
            by_cases hspace' : space ∈ lineArguments line
            · rw [lineWords_cons hspace' hargs] at hnil
              cases hnil
            · rw [lineWords_word hspace' hcons] at hnil
              cases hnil
          rw [hend, lineWords_nil]
          cases n with
          | zero => exact .inl rfl
          | succ n => exact .inr rfl
        · rcases ih hargs rfl (by rw [hcons]; simp) (by omega) with hparts | hparts
          · exact .inl (by rw [hparts]; rfl)
          · exact .inr (by rw [hparts]; rfl)
      · rw [aesParts, if_neg hspace]
        rw [lineWords_word hspace hnonempty] at hwords
        exact .inl (by rw [hwords])

end Words

/-! ## Optional words -/

section Optional

variable {κ α : Type} {all : List κ} {word : κ → List UInt8} {flag : κ → α}
  {dflt : κ} {pre rest : List (List UInt8)}

/-- A word that is there, or is left out before another one. -/
theorem optionalWord_eq (hall : ∀ k, k ∈ all) (hword : Function.Injective word)
    (o : Option κ) (hrest : ∀ k, rest.head? ≠ some (word k)) :
    optionalWord (all.map fun k => (word k, flag k)) (flag dflt)
        (pre ++ ((o.map word).toList ++ rest)) pre.length =
      (flag (o.getD dflt), (pre ++ (o.map word).toList).length) := by
  have hget : (pre ++ ((o.map word).toList ++ rest))[pre.length]? =
      (o.map word).or rest.head? := by
    rw [List.getElem?_append_right le_rfl, Nat.sub_self]
    cases o with
    | none => exact List.head?_eq_getElem?.symm
    | some k => rfl
  unfold optionalWord
  simp only [hget]
  cases o with
  | none =>
      have hnone : (all.map fun k => (word k, flag k)).find?
          (fun o => ((none : Option κ).map word).or rest.head? = some o.1) =
            none := by
        simp [List.find?_eq_none, hrest]
      rw [hnone]
      simp
  | some k =>
      have hsome : (all.map fun k => (word k, flag k)).find?
          (fun o => ((some k).map word).or rest.head? = some o.1) =
            some (word k, flag k) := by
        have hmem : (word k, flag k) ∈ all.map fun k => (word k, flag k) :=
          List.mem_map.mpr ⟨k, hall k, rfl⟩
        have hexists : ((all.map fun k => (word k, flag k)).find? fun o =>
            ((some k).map word).or rest.head? = some o.1).isSome = true :=
          List.find?_isSome.mpr ⟨_, hmem, decide_eq_true rfl⟩
        obtain ⟨o, ho⟩ := Option.isSome_iff_exists.mp hexists
        obtain ⟨k', -, rfl⟩ := List.mem_map.mp (List.mem_of_find?_eq_some ho)
        have hfound := List.find?_some ho
        have hsame : some (word k) = some (word k') := of_decide_eq_true hfound
        rw [ho, hword (Option.some.inj hsame)]
      rw [hsome]
      simp

end Optional

/-! ## The command -/

section Command

variable {t : AesTokens} {iv key data ivkey text args : List UInt8}

theorem asciiWord_bytes :
    asciiWord "cbc" = [0x63, 0x62, 0x63] ∧ asciiWord "ecb" = [0x65, 0x63, 0x62] ∧
      asciiWord "enc" = [0x65, 0x6e, 0x63] ∧
      asciiWord "dec" = [0x64, 0x65, 0x63] ∧
      asciiWord "128" = [0x31, 0x32, 0x38] ∧
      asciiWord "192" = [0x31, 0x39, 0x32] ∧
      asciiWord "256" = [0x32, 0x35, 0x36] ∧
      asciiWord "uid" = [0x75, 0x69, 0x64] ∧
      asciiWord "gid0" = [0x67, 0x69, 0x64, 0x30] ∧
      asciiWord "gid1" = [0x67, 0x69, 0x64, 0x31] := by
  decide +kernel

theorem AesMode.word_injective : Function.Injective AesMode.word := by
  obtain ⟨hcbc, hecb, -⟩ := asciiWord_bytes
  intro m m' h
  cases m <;> cases m' <;> simp [AesMode.word, hcbc, hecb] at h ⊢

theorem AesDirection.word_injective : Function.Injective AesDirection.word := by
  obtain ⟨-, -, henc, hdec, -⟩ := asciiWord_bytes
  intro d d' h
  cases d <;> cases d' <;> simp [AesDirection.word, henc, hdec] at h ⊢

theorem AesBits.word_injective : Function.Injective AesBits.word := by
  obtain ⟨-, -, -, -, h128, h192, h256, -⟩ := asciiWord_bytes
  intro b b' h
  cases b <;> cases b' <;> simp [AesBits.word, h128, h192, h256] at h ⊢

theorem aesMode_eq (o : Option AesMode) {rest : List (List UInt8)}
    (hrest : ∀ m : AesMode, rest.head? ≠ some m.word) :
    optionalWord [(asciiWord "cbc", aesCbc), (asciiWord "ecb", aesEcb)] aesCbc
        ((o.map AesMode.word).toList ++ rest) 0 =
      ((o.getD .cbc).flag, (o.map AesMode.word).toList.length) :=
  @optionalWord_eq AesMode ℕ [.cbc, .ecb] AesMode.word AesMode.flag .cbc []
    rest (by rintro ⟨⟩ <;> simp) AesMode.word_injective o hrest

theorem aesDirection_eq (o : Option AesDirection) (pre : List (List UInt8))
    {rest : List (List UInt8)}
    (hrest : ∀ d : AesDirection, rest.head? ≠ some d.word) :
    optionalWord
        [(asciiWord "enc", aesEncrypt), (asciiWord "dec", aesDecrypt)] aesDecrypt
        (pre ++ ((o.map AesDirection.word).toList ++ rest)) pre.length =
      ((o.getD .dec).flag, (pre ++ (o.map AesDirection.word).toList).length) :=
  @optionalWord_eq AesDirection ℕ [.enc, .dec] AesDirection.word
    AesDirection.flag .dec pre rest (by rintro ⟨⟩ <;> simp)
    AesDirection.word_injective o hrest

theorem aesBits_eq (o : Option AesBits) (pre : List (List UInt8))
    {rest : List (List UInt8)}
    (hrest : ∀ b : AesBits, rest.head? ≠ some b.word) :
    optionalWord [(asciiWord "128", aes128, 0x10), (asciiWord "192", aes192, 0x18),
        (asciiWord "256", aes256, 0x20)] (aes256, 0x20)
        (pre ++ ((o.map AesBits.word).toList ++ rest)) pre.length =
      (((o.getD .bits256).flag, (o.getD .bits256).keylen),
        (pre ++ (o.map AesBits.word).toList).length) :=
  @optionalWord_eq AesBits (ℕ × ℕ) [.bits128, .bits192, .bits256] AesBits.word
    (fun b => (b.flag, b.keylen)) .bits256 pre rest (by rintro ⟨⟩ <;> simp)
    AesBits.word_injective o hrest

theorem head_ne_of_long {w : List UInt8} {rest : List (List UInt8)}
    (hlong : 4 ≤ ivkey.length) (hw : w.length ≤ 3) :
    (ivkey :: rest).head? ≠ some w := by
  intro h
  cases h
  omega

/-- No word of one kind is a word of another one. -/
theorem words_apart :
    (∀ (m : AesMode) (d : AesDirection), d.word ≠ m.word) ∧
      (∀ (m : AesMode) (b : AesBits), b.word ≠ m.word) ∧
      ∀ (d : AesDirection) (b : AesBits), b.word ≠ d.word := by
  obtain ⟨hcbc, hecb, henc, hdec, h128, h192, h256, -⟩ := asciiWord_bytes
  refine ⟨?_, ?_, ?_⟩ <;> rintro ⟨⟩ ⟨⟩ <;>
    simp [AesMode.word, AesDirection.word, AesBits.word, hcbc, hecb, henc, hdec,
      h128, h192, h256]

theorem word_length :
    (∀ m : AesMode, m.word.length = 3) ∧
      (∀ d : AesDirection, d.word.length = 3) ∧
      ∀ b : AesBits, b.word.length = 3 := by
  obtain ⟨hcbc, hecb, henc, hdec, h128, h192, h256, -⟩ := asciiWord_bytes
  refine ⟨?_, ?_, ?_⟩ <;> rintro ⟨⟩ <;>
    simp [AesMode.word, AesDirection.word, AesBits.word, hcbc, hecb, henc, hdec,
      h128, h192, h256]

theorem getD_behind (xs ys zs rest : List (List UInt8)) (i : ℕ) :
    (xs ++ (ys ++ (zs ++ rest))).getD ((xs ++ ys ++ zs).length + i) [] =
      rest.getD i [] := by
  rw [← List.append_assoc ys, ← List.append_assoc xs, List.append_assoc xs ys,
    List.getD_append_right _ _ _ _ (Nat.le_add_right _ _),
    Nat.add_sub_cancel_left]

/-- What the command does with the words of its line. -/
theorem aesCmd_words (hwords : lineWords args = t.words ++ [ivkey, text])
    (hlong : 4 ≤ ivkey.length) :
    aesCmd args = (do
      let (keyid, iv, key) ← aesKey t.namedBits.keylen ivkey
      let data ← aesData text
      pure ⟨t.namedDirection.flag ||| t.namedMode.flag ||| t.namedBits.flag |||
        keyid, data, iv, key⟩) := by
  obtain ⟨mode, direction, bits⟩ := t
  obtain ⟨hmodeLength, hdirectionLength, hbitsLength⟩ := word_length
  obtain ⟨hdirectionMode, hbitsMode, hbitsDirection⟩ := words_apart
  have hparts : ∃ extra, aesParts 5 (args.dropWhile (· = space)) =
      some ((mode.map AesMode.word).toList ++
        ((direction.map AesDirection.word).toList ++
          ((bits.map AesBits.word).toList ++ (ivkey :: text :: extra)))) := by
    have hstart : (args.dropWhile (· = space)).head? ≠ some space := by
      intro hhead
      have hnot := List.head?_dropWhile_not (· = space) args
      rw [hhead] at hnot
      simp at hnot
    have hlength : (AesTokens.words ⟨mode, direction, bits⟩ ++
        [ivkey, text]).length ≤ 5 := by
      cases mode <;> cases direction <;> cases bits <;> simp [AesTokens.words]
    rcases aesParts_words hstart (lineWords_dropWhile.trans hwords) (by simp)
      hlength with hparts | hparts
    · exact ⟨[], by rw [hparts]; simp [AesTokens.words]⟩
    · exact ⟨[[]], by rw [hparts]; simp [AesTokens.words]⟩
  obtain ⟨extra, hparts⟩ := hparts
  have hbits : ∀ b : AesBits, (ivkey :: text :: extra).head? ≠ some b.word :=
    fun b => head_ne_of_long hlong (hbitsLength b).le
  have hdirection : ∀ d : AesDirection, ((bits.map AesBits.word).toList ++
      (ivkey :: text :: extra)).head? ≠ some d.word := by
    intro d
    cases bits with
    | none => exact head_ne_of_long hlong (hdirectionLength d).le
    | some b => exact fun h => hbitsDirection d b (Option.some.inj h)
  have hmode : ∀ m : AesMode, ((direction.map AesDirection.word).toList ++
      ((bits.map AesBits.word).toList ++ (ivkey :: text :: extra))).head? ≠
        some m.word := by
    intro m
    cases direction with
    | some d => exact fun h => hdirectionMode m d (Option.some.inj h)
    | none =>
        cases bits with
        | none => exact head_ne_of_long hlong (hmodeLength m).le
        | some b => exact fun h => hbitsMode m b (Option.some.inj h)
  have hfirst : ((mode.map AesMode.word).toList ++
      ((direction.map AesDirection.word).toList ++
        ((bits.map AesBits.word).toList ++ (ivkey :: text :: extra))))[0]? ≠
          some [] := by
    intro h
    have hempty : ∀ {w : List UInt8}, some w = some [] → w.length = 0 :=
      fun h => List.length_eq_zero_iff.mpr (Option.some.inj h)
    cases mode with
    | some m =>
        have hlength := hempty h
        rw [hmodeLength] at hlength
        cases hlength
    | none =>
        cases direction with
        | some d =>
            have hlength := hempty h
            rw [hdirectionLength] at hlength
            cases hlength
        | none =>
            cases bits with
            | some b =>
                have hlength := hempty h
                rw [hbitsLength] at hlength
                cases hlength
            | none =>
                have hlength := hempty h
                omega
  have hdirectionEq := aesDirection_eq direction
    (mode.map AesMode.word).toList hdirection
  have hbitsEq := aesBits_eq bits ((mode.map AesMode.word).toList ++
    (direction.map AesDirection.word).toList) hbits
  rw [List.append_assoc] at hbitsEq
  unfold aesCmd
  rw [hparts]
  simp only [if_neg hfirst, aesMode_eq mode hmode, hdirectionEq, hbitsEq]
  -- the three checks for a missing part
  rw [if_neg (by simp only [List.length_append, List.length_cons]; omega),
    if_neg (by simp only [List.length_append, List.length_cons]; omega),
    if_neg (by simp only [List.length_append, List.length_cons]; omega)]
  rw [getD_behind, ← Nat.add_zero (List.length _), getD_behind]
  rfl

/-- The key is read from the eighth byte on. -/
theorem aesKey_hex {keylen : ℕ} (hivkey : HexEncodes ivkey (iv ++ key))
    (hiv : iv.length = 16) (hkey : key.length = keylen) :
    aesKey keylen ivkey =
      .ok (aesUserKey, some iv, some (((iv ++ key).drop 8).take keylen)) := by
  have hlength : ivkey.length = 2 * (0x10 + keylen) := by
    rw [hivkey.length, List.length_append, hiv, hkey]
  have hword : ∀ w : List UInt8, w.length ≤ 4 → ivkey ≠ w := by
    rintro w hw rfl
    omega
  have hvector : hexparse ivkey 0x10 = some iv := by
    rw [hivkey.hexparse (by rw [List.length_append]; omega), List.take_left' hiv]
  have hrest : hexparse (ivkey.drop 0x10) keylen =
      some (((iv ++ key).drop 8).take keylen) := by
    refine (hivkey.drop (n := 8)).hexparse ?_
    rw [List.length_drop, List.length_append]
    omega
  obtain ⟨-, -, -, -, -, -, -, huid, hgid0, hgid1⟩ := asciiWord_bytes
  rw [aesKey, huid, hgid0, hgid1, if_neg (hword _ (by decide)),
    if_neg (hword _ (by decide)), if_neg (hword _ (by decide)),
    if_neg (not_not_intro hlength), hvector, hrest]
  rfl

theorem aesData_hex (htext : HexEncodes text data) (hdata : data ≠ [])
    (hblocks : data.length % 16 = 0) : aesData text = .ok data := by
  have hpos := List.length_pos_iff.mpr hdata
  have hlength := htext.length
  have hparse : hexparse text (text.length / 2) = some data := by
    rw [hlength, Nat.mul_div_cancel_left _ (by decide),
      htext.hexparse le_rfl, List.take_length]
  rw [aesData, if_neg (by omega), if_neg (by omega), hparse]
  rfl

theorem flags_spec (m : AesMode) (d : AesDirection) (b : AesBits) :
    (d.flag ||| m.flag ||| b.flag ||| aesUserKey) &&& aesCipherMask = m.flag ∧
      (d.flag ||| m.flag ||| b.flag ||| aesUserKey) &&& aesModeMask = d.flag ∧
      (d.flag ||| m.flag ||| b.flag ||| aesUserKey) &&& aesBitsMask = b.flag ∧
      (d.flag ||| m.flag ||| b.flag ||| aesUserKey) &&& aesKeyMask =
        aesUserKey := by
  cases m <;> cases d <;> cases b <;> decide

/-- The bytes from the eighth on, as many as the key has, are the key exactly if
each of them is the one eight bytes behind it. -/
theorem take_drop_eq_iff (hiv : iv.length = 16) :
    ((iv ++ key).drop 8).take key.length = key ↔
      ∀ i < key.length, (iv ++ key)[8 + i]? = (iv ++ key)[16 + i]? := by
  have hget : ∀ i, (iv ++ key)[16 + i]? = key[i]? := by
    intro i
    rw [List.getElem?_append_right (by omega), hiv, Nat.add_sub_cancel_left]
  constructor
  · intro h i hi
    rw [hget, ← List.getElem?_drop, ← List.getElem?_take_of_lt hi, h]
  · intro h
    refine List.ext_getElem? fun i => ?_
    by_cases hi : i < key.length
    · rw [List.getElem?_take_of_lt hi, List.getElem?_drop, h i hi, hget]
    · rw [List.getElem?_take_eq_none (Nat.le_of_not_lt hi),
        List.getElem?_eq_none (Nat.le_of_not_lt hi)]

/-- The command performs what the words ask for, with the vector and the key,
exactly if the bytes from the eighth on repeat after eight bytes. -/
theorem aesCmd_iff (hwords : lineWords args = t.words ++ [ivkey, text])
    (hivkey : HexEncodes ivkey (iv ++ key)) (hiv : iv.length = 16)
    (hkey : key.length = t.namedBits.keylen) (htext : HexEncodes text data)
    (hdata : data ≠ []) (hblocks : data.length % 16 = 0) :
    (∃ r, aesCmd args = .ok r ∧ AesSpec t iv key data r) ↔
      ∀ i < key.length, (iv ++ key)[8 + i]? = (iv ++ key)[16 + i]? := by
  have hlong : 4 ≤ ivkey.length := by
    rw [hivkey.length, List.length_append]
    omega
  have hrun := aesCmd_words hwords hlong
  rw [aesKey_hex hivkey hiv hkey, aesData_hex htext hdata hblocks] at hrun
  obtain ⟨hmode, hdirection, hbits, hkeyid⟩ :=
    flags_spec t.namedMode t.namedDirection t.namedBits
  rw [← take_drop_eq_iff hiv, hkey]
  constructor
  · rintro ⟨r, hr, hspec⟩
    cases hrun.symm.trans hr
    exact Option.some.inj hspec.key_eq
  · intro hsame
    refine ⟨_, hrun, hmode, hdirection, hbits, hkeyid, rfl, ?_, rfl⟩
    exact congrArg some hsame

end Command

/-! ## Lines -/

/-- The bytes in lower case. -/
def hexText (bs : List UInt8) : List UInt8 :=
  bs.flatMap fun b =>
    [(asciiWord "0123456789abcdef").getD (b.toNat / 16) 0,
      (asciiWord "0123456789abcdef").getD (b.toNat % 16) 0]

theorem hexEncodes_hexText (bs : List UInt8) : HexEncodes (hexText bs) bs := by
  have hdigit : ∀ v < 16, IsHexDigit
      ((asciiWord "0123456789abcdef").getD v 0) v := by
    have hlength := (hexDigits_spec _ List.mem_cons_self).1
    intro v hv
    refine .inl ?_
    rw [List.getD_eq_getElem?_getD, List.getElem?_eq_getElem (by omega)]
    rfl
  induction bs with
  | nil => exact .nil
  | cons b bs ih =>
      have hlt := b.toNat_lt
      exact .cons (hdigit _ (by omega)) (hdigit _ (by omega)) ih

/-- `aes ecb 128`, with a vector and a key that are all 0. -/
theorem aesCmd_zeros :
    ∃ r, aesCmd (asciiWord "ecb 128 " ++ hexText (List.replicate 32 0) ++
        space :: hexText (List.replicate 16 0)) = .ok r ∧
      AesSpec ⟨some .ecb, none, some .bits128⟩ (List.replicate 16 0)
        (List.replicate 16 0) (List.replicate 16 0) r := by
  refine (aesCmd_iff (by decide +kernel) (hexEncodes_hexText _)
    List.length_replicate List.length_replicate (hexEncodes_hexText _)
    (by decide) (by decide)).mpr ?_
  decide

/-- The bytes from 0 to 47, as a vector and a key of 256 bits. -/
theorem aesCmd_reads_key_early :
    lineWords (hexText ((List.range 48).map UInt8.ofNat) ++
        space :: hexText (List.replicate 16 0)) =
      AesTokens.words ⟨none, none, none⟩ ++
        [hexText ((List.range 48).map UInt8.ofNat),
          hexText (List.replicate 16 0)] ∧
    ¬ ∃ r, aesCmd (hexText ((List.range 48).map UInt8.ofNat) ++
        space :: hexText (List.replicate 16 0)) = .ok r ∧
      AesSpec ⟨none, none, none⟩ ((List.range 16).map UInt8.ofNat)
        ((List.range' 16 32).map UInt8.ofNat) (List.replicate 16 0) r := by
  have hwords : lineWords (hexText ((List.range 48).map UInt8.ofNat) ++
      space :: hexText (List.replicate 16 0)) =
        AesTokens.words ⟨none, none, none⟩ ++
          [hexText ((List.range 48).map UInt8.ofNat),
            hexText (List.replicate 16 0)] := by
    decide +kernel
  have hbytes : (List.range 48).map UInt8.ofNat =
      (List.range 16).map UInt8.ofNat ++ (List.range' 16 32).map UInt8.ofNat := by
    decide
  have hkey := hexEncodes_hexText ((List.range 48).map UInt8.ofNat)
  rw [hbytes] at hkey
  refine ⟨hwords, ?_⟩
  rintro ⟨r, hr, hspec⟩
  rw [aesCmd_words hwords (by decide +kernel), hbytes,
    aesKey_hex hkey (by decide) (by decide),
    aesData_hex (hexEncodes_hexText _) (by decide) (by decide)] at hr
  cases hr
  exact absurd (Option.some.inj hspec.key_eq) (by decide)

end PongoOS
