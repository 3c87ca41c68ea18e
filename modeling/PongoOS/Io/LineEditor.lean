import PongoOS.Io.Stdin

/-!
# Editing of standard input

An editor appends what is typed to its output, unless too much of the output is
unread, and takes the last byte back as long as nobody has read it.  Standard
input is that editor, with the unread part of the output in its buffer.
-/

namespace PongoOS

/-! ## The editor -/

/-- The first `read` bytes of the output have been read. -/
structure LineEditor where
  output : List UInt8
  read : ℕ

namespace LineEditor

def unread (e : LineEditor) : ℕ := e.output.length - e.read

def append (c : UInt8) (e : LineEditor) : LineEditor :=
  if e.unread < 512 then { e with output := e.output ++ [c] } else e

def erase (e : LineEditor) : LineEditor :=
  if 0 < e.unread then { e with output := e.output.dropLast } else e

/-- In a build with `QEMU` a newline follows a carriage return. -/
def key (qemu : Bool) (c : UInt8) (e : LineEditor) : LineEditor :=
  if c = 0x7f then e.erase
  else if qemu = true ∧ c = 13 then (e.append 13).append 10
  else e.append c

def take (len : ℕ) (e : LineEditor) : LineEditor :=
  { e with read := min (e.read + len) e.output.length }

end LineEditor

/-! ## Calls -/

/-- A `_read` that finds nothing waits, and looks again in a later `read`. -/
inductive StdinCall where
  | queueRxChar (inch : UInt8)
  | read (len : ℕ)

namespace StdinCall

def edit (qemu : Bool) (e : LineEditor) : StdinCall → LineEditor
  | queueRxChar inch => e.key qemu inch
  | read len => e.take len

/-- What the call returns, in the buffer it is called with. -/
def returned (s : Stdin) : StdinCall → List UInt8
  | queueRxChar _ => []
  | read len => s.buf.take len

/-- The call of `queue_rx_char` that follows is the last thing it does. -/
def run (qemu : Bool) (s : Stdin) : StdinCall → Stdin
  | queueRxChar inch =>
      match if qemu then Stdin.followUp inch else none with
      | some c => (s.queueRxChar inch).queueRxChar c
      | none => s.queueRxChar inch
  | read len => s.readBuf len

/-- All that the calls return, and the state after them. -/
def runs (qemu : Bool) : List StdinCall → Stdin → List UInt8 × Stdin
  | [], s => ([], s)
  | call :: calls, s =>
      let r := runs qemu calls (call.run qemu s)
      (call.returned s ++ r.1, r.2)

end StdinCall

/-! ## The buffer holds what is unread -/

theorem Stdin.queueRxChar_buf (s : Stdin) (inch : UInt8) :
    (s.queueRxChar inch).buf =
      if inch = delete then s.buf.dropLast
      else if s.buf.length < 512 then s.buf ++ [inch] else s.buf := by
  unfold queueRxChar
  dsimp only
  split_ifs <;> rfl

theorem Stdin.readBuf_buf (s : Stdin) (len : ℕ) :
    (s.readBuf len).buf = s.buf.drop len := by
  unfold readBuf
  split
  · rename_i hempty
    rw [setReader_buf, hempty, List.drop_nil]
  · rfl

/-- `returned` is what has been read of the output, and the buffer is the rest. -/
structure Edits (e : LineEditor) (returned : List UInt8) (s : Stdin) :
    Prop where
  output : e.output = returned ++ s.buf
  read : e.read = returned.length
  length_le : s.buf.length ≤ 512

namespace Edits

open Stdin

variable {e : LineEditor} {returned : List UInt8} {s : Stdin} {c : UInt8}
  {qemu : Bool}

theorem unread (h : Edits e returned s) : e.unread = s.buf.length := by
  rw [LineEditor.unread, h.output, h.read, List.length_append]
  exact Nat.add_sub_cancel_left _ _

theorem append (h : Edits e returned s) (hc : c ≠ delete) :
    Edits (e.append c) returned (s.queueRxChar c) := by
  have hbuf := s.queueRxChar_buf c
  rw [if_neg hc] at hbuf
  unfold LineEditor.append
  rw [h.unread]
  by_cases hroom : s.buf.length < 512
  · rw [if_pos hroom] at hbuf ⊢
    refine ⟨?_, h.read, ?_⟩
    · rw [hbuf, h.output, List.append_assoc]
    · rw [hbuf, List.length_append, List.length_singleton]
      exact hroom
  · rw [if_neg hroom] at hbuf ⊢
    exact ⟨hbuf ▸ h.output, h.read, hbuf ▸ h.length_le⟩

theorem erase (h : Edits e returned s) :
    Edits e.erase returned (s.queueRxChar delete) := by
  have hbuf := s.queueRxChar_buf delete
  rw [if_pos rfl] at hbuf
  have hlength : (s.queueRxChar delete).buf.length ≤ 512 := by
    rw [hbuf, List.length_dropLast]
    exact Nat.le_trans (Nat.sub_le _ _) h.length_le
  unfold LineEditor.erase
  rw [h.unread]
  by_cases hempty : s.buf = []
  · rw [hempty, List.length_nil, if_neg (Nat.lt_irrefl 0)]
    refine ⟨?_, h.read, hlength⟩
    rw [hbuf, h.output, hempty]
    rfl
  · rw [if_pos (List.length_pos_iff.mpr hempty)]
    refine ⟨?_, h.read, hlength⟩
    rw [hbuf, h.output, List.dropLast_append_of_ne_nil hempty]

theorem key (h : Edits e returned s) (inch : UInt8) :
    Edits (e.key qemu inch) returned
      ((StdinCall.queueRxChar inch).run qemu s) := by
  unfold LineEditor.key StdinCall.run followUp
  by_cases hdelete : inch = 0x7f
  · rw [if_pos hdelete, hdelete]
    cases qemu
    · exact h.erase
    · exact h.erase
  rw [if_neg hdelete]
  cases qemu with
  | false => exact h.append hdelete
  | true =>
      by_cases hreturn : inch = carriageReturn
      · subst hreturn
        exact (h.append hdelete).append (by decide)
      · rw [if_neg fun hboth => hreturn hboth.2]
        simp only [if_true, if_neg hreturn]
        exact h.append hdelete

theorem take (h : Edits e returned s) (len : ℕ) :
    Edits (e.take len) (returned ++ s.buf.take len) (s.readBuf len) := by
  refine ⟨?_, ?_, ?_⟩
  · rw [s.readBuf_buf, List.append_assoc, List.take_append_drop]
    exact h.output
  · simp only [LineEditor.take, h.read, h.output, List.length_append,
      List.length_take]
    omega
  · rw [s.readBuf_buf, List.length_drop]
    exact Nat.le_trans (Nat.sub_le _ _) h.length_le

/-- A call does to the buffer what the editor does to its output. -/
theorem call (h : Edits e returned s) (call : StdinCall) :
    Edits (call.edit qemu e) (returned ++ call.returned s)
      (call.run qemu s) := by
  cases call with
  | queueRxChar inch =>
      rw [StdinCall.returned, List.append_nil]
      exact h.key inch
  | read len => exact h.take len

theorem calls (h : Edits e returned s) (calls : List StdinCall) :
    Edits (calls.foldl (StdinCall.edit qemu) e)
      (returned ++ (StdinCall.runs qemu calls s).1)
      (StdinCall.runs qemu calls s).2 := by
  induction calls generalizing e returned s with
  | nil =>
      rw [StdinCall.runs, List.append_nil]
      exact h
  | cons call calls ih =>
      rw [List.foldl_cons, StdinCall.runs, ← List.append_assoc]
      exact ih (h.call call)

end Edits

/-- What was returned and what is in the buffer is the output of the editor. -/
theorem stdin_edits (qemu : Bool) (calls : List StdinCall) :
    (StdinCall.runs qemu calls emptyStdin).1 ++
        (StdinCall.runs qemu calls emptyStdin).2.buf =
      (calls.foldl (StdinCall.edit qemu) ⟨[], 0⟩).output ∧
    (StdinCall.runs qemu calls emptyStdin).2.buf.length ≤ 512 := by
  have hstart : Edits ⟨[], 0⟩ [] emptyStdin := ⟨rfl, rfl, by decide⟩
  have hend : Edits (calls.foldl (StdinCall.edit qemu) ⟨[], 0⟩) _ _ :=
    hstart.calls calls
  exact ⟨hend.output.symm, hend.length_le⟩

/-! ## Calls as steps -/

section Steps

open Stdin

variable {s : Stdin} {p len : ℕ} {inch c : UInt8}

/-- A call of a producer that nobody interrupts. -/
theorem StdinCall.run_queueRxChar (hidle : s.producer p = none) :
    ∃ es s', Run StdinStep s es s' ∧ s'.producer p = none ∧
      s'.buf = ((StdinCall.queueRxChar inch).run true s).buf := by
  have hcall : StdinStep s (.call p inch) (s.setProducer p (some inch)) :=
    ⟨hidle, rfl⟩
  have hqueue : ∀ (t : Stdin) (c : UInt8), t.producer p = some c →
      StdinStep t (.queue p) ((t.queueRxChar c).setProducer p (followUp c)) :=
    fun t c hc => ⟨c, hc, rfl⟩
  have hself : ∀ (t : Stdin) (x : Option UInt8),
      (t.setProducer p x).producer p = x := by
    intro t x
    rw [setProducer_producer, Function.update_self]
  have hfirst := hqueue _ inch (hself s (some inch))
  by_cases hreturn : inch = carriageReturn
  · subst hreturn
    -- the newline is queued in a section of its own
    have hsecond := hqueue _ newline (hself
      ((s.setProducer p (some carriageReturn)).queueRxChar carriageReturn)
      (followUp carriageReturn))
    refine ⟨_, _, .cons hcall (.cons hfirst (.single hsecond)), hself _ _, ?_⟩
    simp only [StdinCall.run, followUp, if_true, setProducer_buf,
      queueRxChar_buf]
  · refine ⟨_, _, .cons hcall (.single hfirst), ?_, ?_⟩
    · rw [hself, followUp, if_neg hreturn]
    · simp only [StdinCall.run, followUp, if_true, if_neg hreturn,
        setProducer_buf, queueRxChar_buf]

/-- A call of the reader that finds something. -/
theorem StdinCall.run_read (hreader : s.reader = .out) (hlen : len ≠ 0) :
    Run StdinStep s [.read len, .check]
      ((StdinCall.read len).run true (s.setReader (.check len))) :=
  .cons ⟨hreader, hlen, rfl⟩ (.single ⟨len, rfl, rfl⟩)

end Steps

end PongoOS
