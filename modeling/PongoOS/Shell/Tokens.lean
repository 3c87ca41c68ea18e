import PongoOS.Shell.CommandLine

/-!
# Splitting a line into words

`command_tokenize` is called again and again, each time on what the last call
returned.
-/

namespace PongoOS

/-! ## Words -/

/-- The words of a line, with any number of spaces around them. -/
def lineWords (line : List UInt8) : List (List UInt8) :=
  (line.splitOnP (· = space)).filter (· ≠ [])

section Words

variable {line w : List UInt8}

@[simp] theorem lineWords_nil : lineWords [] = [] := rfl

theorem lineWords_space : lineWords (space :: line) = lineWords line := by
  rw [lineWords, List.splitOnP_cons_eq_if_modifyHead, if_pos (by simp)]
  simp [lineWords]

theorem lineWords_dropWhile :
    lineWords (line.dropWhile (· = space)) = lineWords line := by
  induction line with
  | nil => rfl
  | cons c line ih =>
      by_cases hspace : c = space
      · rw [List.dropWhile_cons_of_pos (by simpa using hspace), ih, hspace,
          lineWords_space]
      · rw [List.dropWhile_cons_of_neg (by simpa using hspace)]

theorem lineWords_word (hspace : space ∉ w) (hw : w ≠ []) : lineWords w = [w] := by
  rw [lineWords, List.splitOnP_eq_singleton fun c hc => by
    rw [decide_eq_false_iff_not]
    rintro rfl
    exact hspace hc]
  simp [hw]

theorem lineWords_cons (hspace : space ∈ line) (hline : line.head? ≠ some space) :
    lineWords line = firstWord line :: lineWords (lineArguments line) := by
  have hword : ∀ c ∈ firstWord line, decide (c = space) = false := by
    intro c hc
    have hne := List.mem_takeWhile_imp hc
    simpa using hne
  obtain ⟨rest, hsplit, hargs⟩ := exists_firstWord_append hspace
  have hne : firstWord line ≠ [] := by
    intro hnil
    rw [hnil, List.nil_append] at hsplit
    rw [hsplit] at hline
    exact hline rfl
  rw [hargs, lineWords_dropWhile]
  conv_lhs => rw [hsplit]
  rw [lineWords, List.splitOnP_append_cons_of_forall_mem hword _ (by simp)]
  simp [hne, lineWords]

end Words

/-! ## What is read and written -/

/-- The places that the inner loop reads, and what it returns. -/
def commandTokenizeSpacesTrace (bound : ℕ) (m : ByteMemory) :
    ℕ → ℕ → List ℕ × Outcome (Option Arguments)
  | 0, _ => ([], .error .outOfFuel)
  | fuel + 1, str =>
      if m str = 0 then ([str], pure (if bound < str then none else some .empty))
      else if bound < str then ([str], pure none)
      else if m str = space then
        let (places, ret) := commandTokenizeSpacesTrace bound m fuel (str + 1)
        (str :: places, ret)
      else ([str], pure (some (.ptr str)))

/-- The places that the outer loop reads and writes, and what it does.  The place of
the first space is read and then written. -/
def commandTokenizeWordTrace (bound : ℕ) (m : ByteMemory) :
    ℕ → ℕ → List ℕ × Outcome (Option Arguments × ByteMemory)
  | 0, _ => ([], .error .outOfFuel)
  | fuel + 1, str =>
      if m str = 0 then ([str], pure (some .empty, m))
      else if bound < str then ([str], pure (none, m))
      else if m str = space then
        let m := m.write str [0]
        let (places, ret) := commandTokenizeSpacesTrace bound m fuel (str + 1)
        (str :: str :: places, do pure (← ret, m))
      else
        let (places, ret) := commandTokenizeWordTrace bound m fuel (str + 1)
        (str :: places, ret)

def commandTokenizeTrace (str strbufsz : ℕ) (m : ByteMemory) :
    List ℕ × Outcome (Option Arguments × ByteMemory) :=
  commandTokenizeWordTrace (str + strbufsz) m (strbufsz + 2) str

section Trace

variable {m : ByteMemory} {bound fuel str strbufsz n : ℕ}

theorem commandTokenizeSpacesTrace_snd :
    (commandTokenizeSpacesTrace bound m fuel str).2 =
      commandTokenizeSpaces bound m fuel str := by
  fun_induction commandTokenizeSpacesTrace bound m fuel str <;>
    simp_all [commandTokenizeSpaces]

theorem commandTokenizeWordTrace_snd :
    (commandTokenizeWordTrace bound m fuel str).2 =
      commandTokenizeWord bound m fuel str := by
  induction fuel generalizing str with
  | zero => rfl
  | succ fuel ih =>
      rw [commandTokenizeWordTrace, commandTokenizeWord]
      split
      · rfl
      · split
        · rfl
        · split
          · simp only [commandTokenizeSpacesTrace_snd]
          · exact ih

theorem commandTokenizeTrace_snd :
    (commandTokenizeTrace str strbufsz m).2 = commandTokenize str strbufsz m :=
  commandTokenizeWordTrace_snd

/-- The bound is tested behind the read, so that spaces up to the bound lead
beyond it. -/
theorem commandTokenizeSpacesTrace_beyond (hstr : str + n = bound + 1)
    (hfuel : n < fuel) :
    (∃ a ∈ (commandTokenizeSpacesTrace bound m fuel str).1, bound < a) ↔
      (m.bytesAt str n).dropWhile (· = space) = [] := by
  induction n generalizing str fuel with
  | zero =>
      obtain ⟨fuel, rfl⟩ := Nat.exists_eq_add_of_lt hfuel
      have hbeyond : bound < str := by omega
      rw [commandTokenizeSpacesTrace]
      split <;> simp [hbeyond, ByteMemory.bytesAt]
  | succ n ih =>
      obtain ⟨fuel, rfl⟩ : ∃ j, fuel = j + 1 := Nat.exists_eq_add_of_le' (by omega)
      have hwithin : ¬ bound < str := by omega
      have hrest := ih (show str + 1 + n = bound + 1 by omega) (show n < fuel by omega)
      rw [commandTokenizeSpacesTrace, ByteMemory.bytesAt_succ]
      by_cases hzero : m str = 0
      · rw [if_pos hzero, List.dropWhile_cons_of_neg (by simp [hzero, space])]
        simp [hwithin]
      · rw [if_neg hzero, if_neg hwithin]
        by_cases hspace : m str = space
        · rw [if_pos hspace, List.dropWhile_cons_of_pos (by simpa using hspace),
            ← hrest]
          simp [hwithin]
        · rw [if_neg hspace, List.dropWhile_cons_of_neg (by simpa using hspace)]
          simp [hwithin]

theorem commandTokenizeWordTrace_beyond (hstr : str + n = bound + 1)
    (hfuel : n < fuel) :
    (∃ a ∈ (commandTokenizeWordTrace bound m fuel str).1, bound < a) ↔
      0 ∉ m.bytesAt str n ∧ lineArguments (m.bytesAt str n) = [] := by
  induction n generalizing str fuel with
  | zero =>
      obtain ⟨fuel, rfl⟩ := Nat.exists_eq_add_of_lt hfuel
      have hbeyond : bound < str := by omega
      rw [commandTokenizeWordTrace]
      split <;> simp [hbeyond, ByteMemory.bytesAt, lineArguments]
  | succ n ih =>
      obtain ⟨fuel, rfl⟩ : ∃ j, fuel = j + 1 := Nat.exists_eq_add_of_le' (by omega)
      have hwithin : ¬ bound < str := by omega
      have hrest := ih (show str + 1 + n = bound + 1 by omega) (show n < fuel by omega)
      rw [commandTokenizeWordTrace, ByteMemory.bytesAt_succ]
      by_cases hzero : m str = 0
      · rw [if_pos hzero]
        simp [hwithin, hzero]
      · rw [if_neg hzero, if_neg hwithin]
        have hmem : 0 ∉ m str :: m.bytesAt (str + 1) n ↔ 0 ∉ m.bytesAt (str + 1) n := by
          rw [List.mem_cons, or_iff_right (Ne.symm hzero)]
        by_cases hspace : m str = space
        · have hkept : (m.write str [0]).bytesAt (str + 1) n = m.bytesAt (str + 1) n :=
            ByteMemory.bytesAt_congr fun i _ =>
              ByteMemory.write_apply_of_not (by rw [List.length_singleton]; omega)
          have hspaces := commandTokenizeSpacesTrace_beyond (m := m.write str [0])
            (show str + 1 + n = bound + 1 by omega) (show n < fuel by omega)
          have hnonzero : (m.bytesAt (str + 1) n).dropWhile (· = space) = [] →
              0 ∉ m.bytesAt (str + 1) n := by
            intro hdrop hzero
            have hall := List.dropWhile_eq_nil_iff.mp hdrop 0 hzero
            simp [space] at hall
          rw [hkept] at hspaces
          rw [if_pos hspace, hmem, lineArguments,
            List.dropWhile_cons_of_neg (by simpa using hspace),
            List.dropWhile_cons_of_pos (by simpa using hspace),
            and_iff_right_of_imp hnonzero, ← hspaces]
          simp [hwithin]
        · rw [if_neg hspace, hmem, lineArguments,
            List.dropWhile_cons_of_pos (by simpa using hspace), ← lineArguments,
            ← hrest]
          simp [hwithin]

/-- The bytes up to the bound are one word and spaces behind it, so that a call does
not find where the second word or the string ends. -/
def Unended (m : ByteMemory) (str strbufsz : ℕ) : Prop :=
  0 ∉ m.bytesAt str (strbufsz + 1) ∧
    lineArguments (m.bytesAt str (strbufsz + 1)) = []

instance (m : ByteMemory) (str strbufsz : ℕ) : Decidable (Unended m str strbufsz) :=
  inferInstanceAs (Decidable (_ ∧ _))

theorem commandTokenizeTrace_within :
    (∀ a ∈ (commandTokenizeTrace str strbufsz m).1, a ≤ str + strbufsz) ↔
      ¬ Unended m str strbufsz := by
  have hbeyond := commandTokenizeWordTrace_beyond (m := m)
    (show str + (strbufsz + 1) = str + strbufsz + 1 from rfl)
    (show strbufsz + 1 < strbufsz + 2 by omega)
  rw [Unended, ← hbeyond, not_exists]
  simp only [not_and, not_lt, commandTokenizeTrace]

end Trace

/-! ## All words of a line -/

/-- `command_tokenize` is called until what it returned is empty: the tokens, what
was returned last, and the memory then.  `last` is the last place of the buffer. -/
def commandTokens (last : ℕ) : ℕ → Arguments → ByteMemory →
    Outcome (List ℕ × Option Arguments × ByteMemory)
  | 0, _, _ => .error .outOfFuel
  | _ + 1, .empty, m => pure ([], some .empty, m)
  | fuel + 1, .ptr str, m =>
      if m str = 0 then pure ([], some (.ptr str), m)
      else do
        let (ret, m) ← commandTokenize str (last - str) m
        match ret with
        | none => pure ([str], none, m)
        | some args =>
            let (tokens, ret, m) ← commandTokens last fuel args m
            pure (str :: tokens, ret, m)

/-- The words of a line, and an empty one in front of a space. -/
def tokenWords (line : List UInt8) : List (List UInt8) :=
  if line.head? = some space then [] :: lineWords line else lineWords line

section Tokens

variable {m : ByteMemory} {last fuel str : ℕ} {xs : List UInt8}

theorem tokenWords_eq (hne : xs ≠ []) :
    tokenWords xs = firstWord xs :: lineWords (lineArguments xs) := by
  unfold tokenWords
  split
  · rename_i hhead
    obtain ⟨rest, rfl⟩ : ∃ rest, xs = space :: rest := by
      cases xs with
      | nil => cases hhead
      | cons x rest => exact ⟨rest, by rw [Option.some.inj hhead]⟩
    rw [firstWord, List.takeWhile_cons_of_neg (by simp), lineArguments,
      List.dropWhile_cons_of_neg (by simp), List.dropWhile_cons_of_pos (by simp),
      lineWords_dropWhile, lineWords_space]
  · rename_i hhead
    by_cases hspace : space ∈ xs
    · exact lineWords_cons hspace hhead
    · rw [lineWords_word hspace hne, firstWord_of_not_mem hspace,
        lineArguments_of_not_mem hspace, lineWords_nil]

/-- The arguments do not start with a space. -/
theorem tokenWords_lineArguments :
    tokenWords (lineArguments xs) = lineWords (lineArguments xs) := by
  refine if_neg fun hhead => ?_
  have hnot := List.head?_dropWhile_not (· = space) (xs.dropWhile (· ≠ space))
  rw [← lineArguments, hhead] at hnot
  simp at hnot

/-- What the calls leave: the words as strings at the tokens, only spaces overwritten,
and nothing in front of `str`. -/
structure Tokenized (m : ByteMemory) (str : ℕ) (xs : List UInt8)
    (run : List ℕ × Option Arguments × ByteMemory) : Prop where
  words : List.Forall₂ (fun token word => run.2.2.Holds token (word ++ [0])) run.1
    (tokenWords xs)
  returned : ∃ args, run.2.1 = some args ∧ args.Holds run.2.2 []
  separators : ∀ a, run.2.2 a = m a ∨
    (str ≤ a ∧ a < str + xs.length) ∧ m a = space ∧ run.2.2 a = 0

theorem Tokenized.nil (h : m.Holds str [0]) :
    Tokenized m str [] ([], some (.ptr str), m) where
  words := .nil
  returned := ⟨_, rfl, h⟩
  separators := fun _ => .inl rfl

/-- One word, and nothing behind the spaces that follow it. -/
theorem Tokenized.single (h : m.Holds str (xs ++ [0])) (hne : xs ≠ [])
    (hargs : lineArguments xs = []) :
    Tokenized m str xs ([str], some .empty, lineSplit m str xs) where
  words := by
    rw [tokenWords_eq hne, hargs]
    exact .cons (lineSplit_holds_firstWord h) .nil
  returned := ⟨_, rfl, rfl⟩
  separators := by
    intro a
    refine (lineSplit_apply h a).imp_right ?_
    rintro ⟨hspace, rfl, hold, hnew⟩
    obtain ⟨gap, hline⟩ := exists_gap hspace
    have hlength := congrArg List.length hline
    simp only [List.length_append, List.length_cons] at hlength
    exact ⟨⟨by omega, by omega⟩, hold, hnew⟩

/-- One word in front of the words that the other calls find. -/
theorem Tokenized.cons {start : ℕ} {run : List ℕ × Option Arguments × ByteMemory}
    (h : m.Holds str (xs ++ [0])) (hspace : space ∈ xs)
    (hstart : start + (lineArguments xs).length = str + xs.length)
    (hrest : Tokenized (lineSplit m str xs) start (lineArguments xs) run) :
    Tokenized m str xs (str :: run.1, run.2) := by
  obtain ⟨gap, hline⟩ := exists_gap hspace
  have hlength := congrArg List.length hline
  simp only [List.length_append, List.length_cons] at hlength
  refine ⟨?_, hrest.returned, fun a => ?_⟩
  · rw [tokenWords_eq (List.ne_nil_of_mem hspace), ← tokenWords_lineArguments]
    refine .cons ?_ hrest.words
    -- The calls behind this one only write behind its word.
    refine (ByteMemory.bytesAt_congr fun i hi => ?_).trans (lineSplit_holds_firstWord h)
    rw [List.length_append, List.length_singleton] at hi
    exact (hrest.separators _).resolve_right fun hchanged => by omega
  · rcases hrest.separators a with hsame | ⟨hin, hold, hnew⟩
    · rw [hsame]
      refine (lineSplit_apply h a).imp_right ?_
      rintro ⟨-, rfl, hold, hnew⟩
      exact ⟨⟨by omega, by omega⟩, hold, hnew⟩
    · rcases lineSplit_apply h a with hsame | ⟨-, -, -, hzero⟩
      · exact .inr ⟨⟨by omega, by omega⟩, hsame ▸ hold, hnew⟩
      · rw [hzero] at hold
        cases hold

theorem zero_not_mem_lineArguments (hxs : 0 ∉ xs) : 0 ∉ lineArguments xs := fun hmem =>
  hxs ((List.dropWhile_sublist _).subset ((List.dropWhile_sublist _).subset hmem))

/-- The induction is on the calls. -/
theorem commandTokens_tokenized (h : m.Holds str (xs ++ [0])) (hxs : 0 ∉ xs)
    (hlast : str + xs.length ≤ last) (hfuel : xs.length < fuel) :
    ∃ run, commandTokens last fuel (.ptr str) m = .ok run ∧ Tokenized m str xs run := by
  induction fuel generalizing m str xs with
  | zero => omega
  | succ fuel ih =>
      rw [commandTokens]
      cases hcase : xs with
      | nil =>
          rw [hcase] at h
          rw [if_pos (ByteMemory.holds_cons.mp h).1]
          exact ⟨_, rfl, .nil h⟩
      | cons x rest =>
          rw [← hcase]
          have hne : xs ≠ [] := hcase ▸ List.cons_ne_nil x rest
          have hfirst : m str ≠ 0 := first_ne_zero (hcase ▸ h) (hcase ▸ hxs)
          have hcall : commandTokenize str (last - str) m = .ok (some (argumentsAt
              (str + xs.length) (lineArguments xs)), lineSplit m str xs) :=
            commandTokenizeWord_eq h hxs (by omega) (by omega)
          rw [if_neg hfirst, hcall, Outcome.ok_bind]
          have hpos : 0 < xs.length := List.length_pos_iff.mpr hne
          by_cases hargs : lineArguments xs = []
          · obtain ⟨fuel, rfl⟩ : ∃ j, fuel = j + 1 :=
              Nat.exists_eq_add_of_le' (by omega)
            rw [argumentsAt, if_pos hargs]
            exact ⟨_, rfl, .single h hne hargs⟩
          · have hspace : space ∈ xs := by
              by_contra hnot
              exact hargs (lineArguments_of_not_mem hnot)
            obtain ⟨gap, hline⟩ := exists_gap hspace
            have hlength := congrArg List.length hline
            simp only [List.length_append, List.length_cons] at hlength
            have hrest := lineSplit_holds_arguments h
            rw [argumentsAt, if_neg hargs] at hrest ⊢
            obtain ⟨run, hrun, htokens⟩ := ih hrest (zero_not_mem_lineArguments hxs)
              (by omega) (by omega)
            simp only [hrun]
            exact ⟨_, rfl, .cons h hspace (by omega) htokens⟩

/-- What `command_tokenize` promises for the `strbufsz + 1` bytes from `str` on. -/
structure Tokenizes (m : ByteMemory) (str strbufsz : ℕ) : Prop where
  within : ∀ a ∈ (commandTokenizeTrace str strbufsz m).1, a ≤ str + strbufsz
  tokens : ∀ xs, 0 ∉ xs → m.Holds str (xs ++ [0]) → xs.length ≤ strbufsz →
    ∃ run, commandTokens (str + strbufsz) (strbufsz + 2) (.ptr str) m = .ok run ∧
      Tokenized m str xs run

/-- The words are right; the byte behind the buffer is read if nothing in the buffer
stops a call. -/
theorem tokenizes_iff (m : ByteMemory) (str strbufsz : ℕ) :
    Tokenizes m str strbufsz ↔ ¬ Unended m str strbufsz := by
  rw [← commandTokenizeTrace_within]
  refine ⟨Tokenizes.within, fun hwithin => ⟨hwithin, fun xs hxs h hlength => ?_⟩⟩
  exact commandTokens_tokenized h hxs (by omega) (by omega)

/-- `help` without a terminator in a buffer of four bytes. -/
theorem help_reads_beyond :
    ¬ Tokenizes (ByteMemory.write (fun _ => 0) 0x1000 [104, 101, 108, 112]) 0x1000 3 :=
  fun h => absurd (h.within 0x1004 (by decide)) (by decide)

end Tokens

end PongoOS
