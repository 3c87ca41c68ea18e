import Mathlib.Data.List.TakeWhile
import PongoOS.Shell.CommandTable

/-!
# Lines of commands

A line is split in place: the first space becomes the terminator of the first word,
and what follows the spaces behind it is the argument.  The callback that a line
calls depends only on the calls that registered and unregistered its first word.
-/

namespace PongoOS

/-! ## Splitting a line -/

/-- The part of a line before the first space. -/
def firstWord (line : List UInt8) : List UInt8 := line.takeWhile (· ≠ space)

/-- The part behind the first word and the spaces that follow it. -/
def lineArguments (line : List UInt8) : List UInt8 :=
  (line.dropWhile (· ≠ space)).dropWhile (· = space)

/-- The string that is passed to the callback. -/
def Arguments.Holds (m : ByteMemory) : Arguments → List UInt8 → Prop
  | .empty, xs => xs = []
  | .ptr str, xs => m.Holds str (xs ++ [0])

/-- What `command_tokenize` returns where the line ends at `stop` and `xs` is left of
it. -/
def argumentsAt (stop : ℕ) (xs : List UInt8) : Arguments :=
  if xs = [] then .empty else .ptr (stop - xs.length)

variable {m : ByteMemory} {bound str fuel : ℕ} {xs : List UInt8}

theorem argumentsAt_holds {stop : ℕ} (h : m.Holds (stop - xs.length) (xs ++ [0])) :
    (argumentsAt stop xs).Holds m xs := by
  unfold argumentsAt
  split
  · rename_i hempty
    exact hempty
  · exact h

theorem first_ne_zero {x : UInt8} (h : m.Holds str (x :: xs ++ [0]))
    (hxs : 0 ∉ x :: xs) : m str ≠ 0 := by
  rw [(ByteMemory.holds_cons.mp h).1]
  exact fun hzero => hxs (hzero ▸ List.mem_cons_self)

theorem commandTokenizeSpaces_eq (h : m.Holds str (xs ++ [0])) (hxs : 0 ∉ xs)
    (hbound : str + xs.length ≤ bound) (hfuel : xs.length < fuel) :
    commandTokenizeSpaces bound m fuel str =
      .ok (some (argumentsAt (str + xs.length) (xs.dropWhile (· = space)))) := by
  induction xs generalizing str fuel with
  | nil =>
      obtain ⟨fuel, rfl⟩ := Nat.exists_eq_add_of_lt hfuel
      rw [commandTokenizeSpaces, if_pos (ByteMemory.holds_cons.mp h).1,
        if_neg (by simpa using hbound)]
      rfl
  | cons x xs ih =>
      obtain ⟨fuel, rfl⟩ : ∃ j, fuel = j + 1 := Nat.exists_eq_add_of_le' (by omega)
      have hne := first_ne_zero h hxs
      rw [List.cons_append, ByteMemory.holds_cons] at h
      rw [List.length_cons] at hbound hfuel
      rw [commandTokenizeSpaces, if_neg hne, if_neg (by omega), h.1]
      by_cases hspace : x = space
      · rw [if_pos hspace, List.dropWhile_cons_of_pos (by simpa using hspace),
          ih h.2 (fun hmem => hxs (List.mem_cons_of_mem _ hmem)) (by omega) (by omega),
          List.length_cons, Nat.add_right_comm, Nat.add_assoc]
      · rw [if_neg hspace, List.dropWhile_cons_of_neg (by simpa using hspace),
          argumentsAt, if_neg (List.cons_ne_nil x xs), Nat.add_sub_cancel]
        rfl

/-- The line with its first space overwritten. -/
def lineSplit (m : ByteMemory) (str : ℕ) (xs : List UInt8) : ByteMemory :=
  if space ∈ xs then m.write (str + (firstWord xs).length) [0] else m

/-- The induction is on the line. -/
theorem commandTokenizeWord_eq (h : m.Holds str (xs ++ [0])) (hxs : 0 ∉ xs)
    (hbound : str + xs.length ≤ bound) (hfuel : xs.length < fuel) :
    commandTokenizeWord bound m fuel str =
      .ok (some (argumentsAt (str + xs.length) (lineArguments xs)),
        lineSplit m str xs) := by
  induction xs generalizing str fuel with
  | nil =>
      obtain ⟨fuel, rfl⟩ := Nat.exists_eq_add_of_lt hfuel
      rw [commandTokenizeWord, if_pos (ByteMemory.holds_cons.mp h).1]
      rfl
  | cons x xs ih =>
      obtain ⟨fuel, rfl⟩ : ∃ j, fuel = j + 1 := Nat.exists_eq_add_of_le' (by omega)
      have hne := first_ne_zero h hxs
      have hxs' : 0 ∉ xs := fun hmem => hxs (List.mem_cons_of_mem _ hmem)
      rw [List.cons_append, ByteMemory.holds_cons] at h
      rw [List.length_cons] at hbound hfuel
      rw [commandTokenizeWord, if_neg hne, if_neg (by omega), h.1]
      by_cases hspace : x = space
      · have hrest : (m.write str [0]).Holds (str + 1) (xs ++ [0]) :=
          (ByteMemory.bytesAt_congr fun i _ =>
            ByteMemory.write_apply_of_not (by rw [List.length_singleton]; omega)).trans h.2
        have hspaces := commandTokenizeSpaces_eq hrest hxs'
          (show str + 1 + xs.length ≤ bound by omega) (show xs.length < fuel by omega)
        have hstop : str + (x :: xs).length = str + 1 + xs.length := by
          rw [List.length_cons]
          omega
        rw [lineArguments, lineSplit, firstWord,
          if_pos (List.mem_cons.mpr (.inl hspace.symm)),
          List.takeWhile_cons_of_neg (by simpa using hspace),
          List.dropWhile_cons_of_neg (by simpa using hspace),
          List.dropWhile_cons_of_pos (by simpa using hspace), hstop]
        simp only [if_pos hspace, hspaces]
        rfl
      · have hmem : space ∈ x :: xs ↔ space ∈ xs := by
          rw [List.mem_cons, or_iff_right (fun heq => hspace heq.symm)]
        have hword : firstWord (x :: xs) = x :: firstWord xs :=
          List.takeWhile_cons_of_pos (by simpa using hspace)
        have hargs : lineArguments (x :: xs) = lineArguments xs := by
          rw [lineArguments, List.dropWhile_cons_of_pos (by simpa using hspace),
            lineArguments]
        have hshift (n : ℕ) : str + (n + 1) = str + 1 + n := by omega
        rw [if_neg hspace, ih h.2 hxs' (by omega) (by omega), hargs, lineSplit, lineSplit,
          hword, List.length_cons, List.length_cons, hshift xs.length,
          hshift (firstWord xs).length]
        simp only [hmem]

/-- A line with a space is its first word, the space, and what is behind it. -/
theorem exists_firstWord_append (hspace : space ∈ xs) :
    ∃ rest, xs = firstWord xs ++ space :: rest ∧
      lineArguments xs = rest.dropWhile (· = space) := by
  cases hdrop : xs.dropWhile (· ≠ space) with
  | nil =>
      have hall := List.dropWhile_eq_nil_iff.mp hdrop space hspace
      simp at hall
  | cons c rest =>
      have hhead := List.head?_dropWhile_not (· ≠ space) xs
      rw [hdrop] at hhead
      have hc : c = space := by simpa using hhead
      refine ⟨rest, ?_, ?_⟩
      · rw [← hc, ← hdrop]
        exact List.takeWhile_append_dropWhile.symm
      · rw [lineArguments, hdrop, hc, List.dropWhile_cons_of_pos (by simp)]

/-- What is between the first word and the arguments. -/
theorem exists_gap (hspace : space ∈ xs) :
    ∃ gap, xs = firstWord xs ++ space :: gap ++ lineArguments xs := by
  obtain ⟨rest, hline, hargs⟩ := exists_firstWord_append hspace
  refine ⟨rest.takeWhile (· = space), ?_⟩
  rw [hargs, List.append_assoc, List.cons_append, List.takeWhile_append_dropWhile]
  exact hline

theorem firstWord_of_not_mem (hspace : space ∉ xs) : firstWord xs = xs := by
  refine List.takeWhile_eq_self_iff.mpr fun x hx => ?_
  rw [decide_eq_true_iff]
  rintro rfl
  exact hspace hx

theorem lineArguments_of_not_mem (hspace : space ∉ xs) : lineArguments xs = [] := by
  have hdrop : xs.dropWhile (· ≠ space) = [] := by
    rw [List.dropWhile_eq_nil_iff]
    intro x hx
    rw [decide_eq_true_iff]
    rintro rfl
    exact hspace hx
  rw [lineArguments, hdrop]
  rfl

/-- Only a space is overwritten, behind the first word. -/
theorem lineSplit_apply (h : m.Holds str (xs ++ [0])) (a : ℕ) :
    lineSplit m str xs a = m a ∨
      space ∈ xs ∧ a = str + (firstWord xs).length ∧ m a = space ∧
        lineSplit m str xs a = 0 := by
  unfold lineSplit
  split
  · rename_i hspace
    by_cases ha : a = str + (firstWord xs).length
    · obtain ⟨rest, hline, -⟩ := exists_firstWord_append hspace
      rw [hline, List.append_assoc, ByteMemory.holds_append] at h
      refine .inr ⟨hspace, ha, ?_, ?_⟩
      · rw [ha]
        exact (ByteMemory.holds_cons.mp h.2).1
      · rw [ha]
        exact (ByteMemory.holds_cons.mp ByteMemory.holds_write).1
    · exact .inl (ByteMemory.write_apply_of_not (by rw [List.length_singleton]; omega))
  · exact .inl rfl

theorem lineSplit_holds_firstWord (h : m.Holds str (xs ++ [0])) :
    (lineSplit m str xs).Holds str (firstWord xs ++ [0]) := by
  unfold lineSplit
  split
  · rename_i hspace
    obtain ⟨rest, hline, -⟩ := exists_firstWord_append hspace
    rw [hline, List.append_assoc, ByteMemory.holds_append] at h
    refine ByteMemory.holds_append.mpr ⟨?_, ByteMemory.holds_write⟩
    exact (ByteMemory.bytesAt_congr fun i hi =>
      ByteMemory.write_apply_of_not (by omega)).trans h.1
  · rename_i hspace
    rwa [firstWord_of_not_mem hspace]

theorem lineSplit_holds_arguments (h : m.Holds str (xs ++ [0])) :
    (argumentsAt (str + xs.length) (lineArguments xs)).Holds (lineSplit m str xs)
      (lineArguments xs) := by
  by_cases hspace : space ∈ xs
  · obtain ⟨gap, hline⟩ := exists_gap hspace
    have hlength := congrArg List.length hline
    rw [List.length_append] at hlength
    rw [hline, List.append_assoc, ByteMemory.holds_append] at h
    have hstart : str + xs.length - (lineArguments xs).length =
        str + (firstWord xs ++ space :: gap).length := by omega
    refine argumentsAt_holds ?_
    rw [hstart, lineSplit, if_pos hspace]
    refine (ByteMemory.bytesAt_congr fun i _ => ?_).trans h.2
    exact ByteMemory.write_apply_of_not (by
      rw [List.length_append, List.length_cons, List.length_singleton]
      omega)
  · rw [lineArguments_of_not_mem hspace]
    rfl

theorem commandTokenizeWord_holds (h : m.Holds str (xs ++ [0])) (hxs : 0 ∉ xs)
    (hbound : str + xs.length ≤ bound) (hfuel : xs.length < fuel) :
    ∃ args m', commandTokenizeWord bound m fuel str = .ok (some args, m') ∧
      m'.Holds str (firstWord xs ++ [0]) ∧ args.Holds m' (lineArguments xs) :=
  ⟨_, _, commandTokenizeWord_eq h hxs hbound hfuel, lineSplit_holds_firstWord h,
    lineSplit_holds_arguments h⟩

/-! ## Executing a line -/

/-- The first word of a line, as a string. -/
def CString.firstWord (line : CString) : CString :=
  ⟨PongoOS.firstWord line.bytes, fun h =>
    line.nonzero ((List.takeWhile_sublist _).subset h)⟩

/-- The line is executed in a state in which `reg` is bound. -/
structure ExecutesLine (reg : CString → Option ℕ) (line : CString) (s : Shell)
    (x : Execution) : Prop where
  called : x.called.map Prod.fst = reg line.firstWord
  arguments : ∀ cb args, x.called = some (cb, args) →
    args.Holds x.mem (lineArguments line.bytes)
  commands : x.shell.commands = s.commands
  flags : x.shell.commandFlags =
    if line.firstWord.bytes ≠ [] ∧ reg line.firstWord = none then
      s.commandFlags ||| commandNotfound
    else s.commandFlags

namespace Shell

variable {s : Shell} {reg : CString → Option ℕ} {line word : CString} {cmd : ℕ}

theorem isNamedAt_iff {c : Command} (hword : m.Holds cmd (word.bytes ++ [0])) :
    c.isNamedAt m cmd = true ↔ c.name = some word := by
  unfold Command.isNamedAt
  cases c.name with
  | none => simp
  | some n => simp [hword.strEq_iff, eq_comm]

/-- The entry that the word in memory is found at. -/
theorem Registers.find (h : s.Registers reg)
    (hword : m.Holds cmd (word.bytes ++ [0])) :
    (s.commands.entries.find? fun c => c.isNamedAt m cmd).map Command.cb =
      reg word := by
  cases hfind : s.commands.entries.find? fun c => c.isNamedAt m cmd with
  | none =>
      rw [List.find?_eq_none] at hfind
      cases hreg : reg word with
      | none => rfl
      | some cb =>
          obtain ⟨c, hc, hname⟩ := h.binds.complete word cb hreg
          exact absurd ((isNamedAt_iff hword).mpr hname) (hfind c hc)
  | some c =>
      have htest : c.isNamedAt m cmd = true := by
        simpa only using List.find?_some hfind
      have hname := (isNamedAt_iff hword).mp htest
      exact (h.binds.sound c (List.mem_of_find?_eq_some hfind) word hname).symm

/-- The word is not empty if its first byte is not its terminator. -/
theorem first_ne_zero_iff (hword : m.Holds cmd (word.bytes ++ [0])) :
    m cmd ≠ 0 ↔ word.bytes ≠ [] := by
  cases hbytes : word.bytes with
  | nil =>
      rw [hbytes] at hword
      simp [(ByteMemory.holds_cons.mp hword).1]
  | cons x xs =>
      have hnonzero := word.nonzero
      rw [hbytes] at hword hnonzero
      rw [List.cons_append, ByteMemory.holds_cons] at hword
      simp only [hword.1, ne_eq, reduceCtorEq, not_false_eq_true, iff_true]
      exact fun hzero => hnonzero (hzero ▸ List.mem_cons_self)

theorem Registers.executes (h : s.Registers reg)
    (hline : m.Holds cmd (line.bytes ++ [0])) (hlength : line.bytes.length ≤ 511) :
    ∃ x, s.commandExecute cmd m = .ok x ∧ ExecutesLine reg line s x := by
  obtain ⟨args, m', htokenize, hword, hargs⟩ := commandTokenizeWord_holds
    hline line.nonzero (show cmd + line.bytes.length ≤ cmd + 0x1ff by omega)
    (show line.bytes.length < 0x1ff + 2 by omega)
  have hword' : m'.Holds cmd (line.firstWord.bytes ++ [0]) := hword
  have hfind := h.find hword'
  have hfirst := first_ne_zero_iff hword'
  rw [commandExecute, commandTokenize, htokenize, Outcome.ok_bind]
  simp only
  cases hfound : s.commands.entries.find? fun c => c.isNamedAt m' cmd with
  | some c =>
      rw [hfound] at hfind
      refine ⟨_, rfl, hfind, ?_, rfl, ?_⟩
      · rintro cb args' ⟨⟩
        exact hargs
      · rw [if_neg]
        rintro ⟨-, hnone⟩
        rw [hnone] at hfind
        cases hfind
  | none =>
      rw [hfound] at hfind
      by_cases hempty : m' cmd ≠ 0
      · rw [if_pos hempty]
        exact ⟨_, rfl, hfind, nofun, rfl, (if_pos ⟨hfirst.mp hempty, hfind.symm⟩).symm⟩
      · rw [if_neg hempty]
        exact ⟨_, rfl, hfind, nofun, rfl,
          (if_neg fun hword => hempty (hfirst.mpr hword.1)).symm⟩

theorem Registers.full_iff {q : Qsort Command} {name : CString}
    {desc : Option CString} {cb : ℕ} (h : s.Registers reg) :
    s.commandRegister q name desc cb = .error (.panic "too many commands") ↔
      ∃ names : List CString, names.Nodup ∧ names.length = maxCommands ∧
        name ∉ names ∧ ∀ n ∈ names, reg n ≠ none := by
  rw [← h.binds.full_iff h.ordered, ← CommandTable.full_iff,
    commandRegister_eq h.notMasking]
  cases s.commands.entries.findIdx? fun c => c.name.isNone || c.isNamed name with
  | none => simp
  | some i => simp

/-- The table after any calls, and what lines and calls do then. -/
theorem commands_correct (q : Qsort Command) {flags : UInt32} {ops : List CommandOp}
    (h : runCommandOps q ops (boot flags) = .ok s) :
    s.commands.Ordered ∧
      (∀ line cmd m, ByteMemory.Holds m cmd (CString.bytes line ++ [0]) →
        line.bytes.length ≤ 511 → ∃ x, s.commandExecute cmd m = .ok x ∧
          ExecutesLine (registered ops) line s x) ∧
      ∀ name desc cb, s.commandRegister q name desc cb =
          .error (.panic "too many commands") ↔
        ∃ names : List CString, names.Nodup ∧ names.length = maxCommands ∧
          name ∉ names ∧ ∀ n ∈ names, registered ops n ≠ none := by
  have hs := run_registers ops h
  exact ⟨hs.ordered, fun _ _ _ hline hlength => hs.executes hline hlength,
    fun _ _ _ => hs.full_iff⟩

/-- `"help"`. -/
def helpName : CString := ⟨[104, 101, 108, 112], by decide⟩

theorem commands_correct_help :
    ∃ s, runCommandOps (Qsort.merge Command) [.register helpName none 1] (boot 0) =
        .ok s ∧ s.commands.Ordered ∧
      (∀ line cmd m, ByteMemory.Holds m cmd (CString.bytes line ++ [0]) →
        line.bytes.length ≤ 511 → ∃ x, s.commandExecute cmd m = .ok x ∧
          ExecutesLine (registered [.register helpName none 1]) line s x) ∧
      ∀ name desc cb, s.commandRegister (Qsort.merge Command) name desc cb =
          .error (.panic "too many commands") ↔
        ∃ names : List CString, names.Nodup ∧ names.length = maxCommands ∧
          name ∉ names ∧
            ∀ n ∈ names, registered [.register helpName none 1] n ≠ none :=
  ⟨_, rfl, commands_correct (Qsort.merge Command) rfl⟩

end Shell

end PongoOS
