import PongoOS.Support.Overlay
import PongoOS.Support.Sorting

/-!
# Commands of the shell

The commands are kept in a table of 64 entries, of which the ones without a name
are free.  A line is split at its first spaces, and the first word is looked up in
the table.  The lock of the table is left out: no call is interrupted here.
-/

namespace PongoOS

/-! ## The table -/

def maxCommands : ℕ := 64

/-- `struct command`, with 0 for no callback. -/
structure Command where
  name : Option CString
  desc : Option CString
  cb : ℕ
deriving DecidableEq, Repr

/-- A free entry. -/
def Command.free : Command := ⟨none, none, 0⟩

/-- `commands`. -/
structure CommandTable where
  entries : List Command
  size_eq : entries.length = maxCommands

structure Shell where
  commands : CommandTable
  isMaskingAutoboot : Bool
  commandFlags : UInt32

/-- Where lines are read to. -/
def commandBufferSize : ℕ := 0x200

def commandNotfound : UInt32 := 1

/-- `"autoboot"`. -/
def autobootName : CString := ⟨[97, 117, 116, 111, 98, 111, 111, 116], by decide⟩

def cmpCmd (x y : Command) : ℤ :=
  match x.name, y.name with
  | none, none => 0
  | none, some _ => 1
  | some _, none => -1
  | some a, some b => a.compare b

theorem cmpCmd_consistent : Consistent cmpCmd where
  swap x y := by
    unfold cmpCmd
    rcases x.name with _ | a <;> rcases y.name with _ | b <;>
      simp [CString.compare_consistent.swap]
  trans x y z := by
    have htrans := CString.compare_consistent.trans
    unfold cmpCmd
    rcases x.name with _ | a <;> rcases y.name with _ | b <;>
      rcases z.name with _ | c <;> simp
    exact htrans a b c

/-- `commands[i].name && strcmp(commands[i].name, name) == 0`. -/
def Command.isNamed (c : Command) (name : CString) : Bool :=
  match c.name with
  | none => false
  | some n => n.compare name = 0

namespace CommandTable

def set (t : CommandTable) (i : ℕ) (c : Command) : CommandTable :=
  ⟨t.entries.set i c, by rw [List.length_set, t.size_eq]⟩

def map (t : CommandTable) (f : Command → Command) : CommandTable :=
  ⟨t.entries.map f, by rw [List.length_map, t.size_eq]⟩

/-- `qsort(commands, 64, sizeof(struct command), &cmp_cmd)`. -/
def sort (q : Qsort Command) (t : CommandTable) : CommandTable :=
  ⟨q.sort cmpCmd t.entries, by
    rw [(q.perm _ _ cmpCmd_consistent).length_eq, t.size_eq]⟩

end CommandTable

namespace Shell

/-- Before anything is registered. -/
def boot (flags : UInt32) : Shell where
  commands := ⟨List.replicate maxCommands Command.free, List.length_replicate⟩
  isMaskingAutoboot := false
  commandFlags := flags

def setCommands (s : Shell) (t : CommandTable) : Shell := { s with commands := t }

def commandUnregister (q : Qsort Command) (name : CString) (s : Shell) : Shell :=
  s.setCommands ((s.commands.map fun c =>
    if c.isNamed name then Command.free else c).sort q)

def commandRegister (q : Qsort Command) (name : CString) (desc : Option CString)
    (cb : ℕ) (s : Shell) : Outcome Shell :=
  if s.isMaskingAutoboot ∧ name.compare autobootName = 0 then .ok s
  else
    match s.commands.entries.findIdx? fun c => c.name.isNone || c.isNamed name with
    | some i => .ok (s.setCommands ((s.commands.set i ⟨some name, desc, cb⟩).sort q))
    | none => .error (.panic "too many commands")

end Shell

/-! ## Lines -/

/-- What `command_tokenize` returns if it is not null: a literal `""`, or a pointer
into the line. -/
inductive Arguments where
  | empty
  | ptr (str : ℕ)
deriving DecidableEq, Repr

def space : UInt8 := 32

/-- The inner loop, which skips spaces. -/
def commandTokenizeSpaces (bound : ℕ) (m : ByteMemory) :
    ℕ → ℕ → Outcome (Option Arguments)
  | 0, _ => .error .outOfFuel
  | fuel + 1, str =>
      if m str = 0 then pure (if bound < str then none else some .empty)
      else if bound < str then pure none
      else if m str = space then commandTokenizeSpaces bound m fuel (str + 1)
      else pure (some (.ptr str))

/-- The outer loop, which ends the first word. -/
def commandTokenizeWord (bound : ℕ) (m : ByteMemory) :
    ℕ → ℕ → Outcome (Option Arguments × ByteMemory)
  | 0, _ => .error .outOfFuel
  | fuel + 1, str =>
      if m str = 0 then pure (some .empty, m)
      else if bound < str then pure (none, m)
      else if m str = space then do
        let m := m.write str [0]
        pure (← commandTokenizeSpaces bound m fuel (str + 1), m)
      else commandTokenizeWord bound m fuel (str + 1)

def commandTokenize (str strbufsz : ℕ) (m : ByteMemory) :
    Outcome (Option Arguments × ByteMemory) :=
  commandTokenizeWord (str + strbufsz) m (strbufsz + 2) str

/-- What `command_execute` does: the callback that it calls with its arguments, and
what it reports as a bad command. -/
structure Execution where
  called : Option (ℕ × Arguments)
  badCommand : Option (List UInt8)
  shell : Shell
  mem : ByteMemory

/-- `commands[i].name && !strcmp(cmd, commands[i].name)`. -/
def Command.isNamedAt (c : Command) (m : ByteMemory) (cmd : ℕ) : Bool :=
  match c.name with
  | none => false
  | some n => m.strEq n.bytes cmd

namespace Shell

def commandExecute (cmd : ℕ) (m : ByteMemory) (s : Shell) : Outcome Execution := do
  let (arguments, m) ← commandTokenize cmd 0x1ff m
  let found := s.commands.entries.find? fun c => c.isNamedAt m cmd
  match arguments, found with
  | some arguments, some c => pure ⟨some (c.cb, arguments), none, s, m⟩
  | _, _ =>
      if m cmd ≠ 0 then
        pure ⟨none, some (m.stringAt cmd commandBufferSize),
          { s with commandFlags := s.commandFlags ||| commandNotfound }, m⟩
      else pure ⟨none, none, s, m⟩

end Shell

end PongoOS
