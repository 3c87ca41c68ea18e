import PongoOS.Io.Stdout

/-!
# The end of the output

In non-blocking mode the buffer holds the end of what was written since it was
fetched, as much of it as there is room for.  Once `preemption_over` is set,
standard output goes to standard error and is not stored.
-/

namespace PongoOS

/-! ## The end of a list -/

/-- The last `k` elements, or all if there are fewer. -/
def lastOf {α : Type} (k : ℕ) (l : List α) : List α :=
  l.drop (l.length - min l.length k)

section LastOf

variable {α : Type} {k : ℕ} {l : List α} {c : α}

theorem length_lastOf : (lastOf k l).length = min l.length k := by
  unfold lastOf
  rw [List.length_drop]
  omega

/-- One element more: the first of the last `k` goes if there are `k` already. -/
theorem lastOf_append_singleton (hk : 0 < k) :
    lastOf k (l ++ [c]) =
      if (lastOf k l).length < k then lastOf k l ++ [c]
      else (lastOf k l).tail ++ [c] := by
  rw [length_lastOf]
  unfold lastOf
  rw [List.length_append, List.length_singleton]
  by_cases hroom : l.length < k
  · rw [if_pos (by omega), List.drop_append_of_le_length (by omega)]
    congr 2
    omega
  · rw [if_neg (by omega), List.tail_drop,
      List.drop_append_of_le_length (by omega)]
    congr 2
    omega

end LastOf

/-! ## Calls -/

namespace Stdout

/-- `_write` to standard output in non-blocking mode. -/
def write (data : List UInt8) (s : Stdout) : Stdout :=
  if s.preemptionOver then s
  else data.foldl (fun s c => s.setBuf (s.store c)) s

end Stdout

inductive StdoutCall where
  | write (data : List UInt8)
  | fetch
  | setPreemptionOver (ended : Bool)

namespace StdoutCall

def run (s : Stdout) : StdoutCall → Stdout
  | write data => s.write data
  | fetch => s.setBuf []
  | setPreemptionOver ended => { s with preemptionOver := ended }

/-- What the fetches return. -/
def fetches : List StdoutCall → Stdout → List (List UInt8)
  | [], _ => []
  | fetch :: calls, s => s.buf :: fetches calls (fetch.run s)
  | call :: calls, s => fetches calls (call.run s)

/-- What is written between the fetches while preemption is not over: `since` was
written since the last one. -/
def segments : List StdoutCall → Bool → List UInt8 → List (List UInt8)
  | [], _, _ => []
  | write data :: calls, ended, since =>
      segments calls ended (if ended then since else since ++ data)
  | fetch :: calls, ended, since => since :: segments calls ended []
  | setPreemptionOver ended :: calls, _, since => segments calls ended since

end StdoutCall

/-! ## Windows -/

section Windows

variable {s : Stdout} {since data : List UInt8} {t : ℕ}

/-- The buffer is the end of what was written. -/
def Stdout.EndOf (s : Stdout) (since : List UInt8) : Prop :=
  s.buf = lastOf (stdoutBuflen - 1) since

theorem Stdout.EndOf.store (h : s.EndOf since) (c : UInt8) :
    (s.setBuf (s.store c)).EndOf (since ++ [c]) := by
  have hwindow := lastOf_append_singleton (k := stdoutBuflen - 1) (l := since)
    (c := c) (by decide)
  rw [← show s.buf = lastOf (stdoutBuflen - 1) since from h] at hwindow
  exact hwindow.symm

theorem Stdout.EndOf.stores (h : s.EndOf since) :
    (data.foldl (fun s c => s.setBuf (s.store c)) s).EndOf (since ++ data) ∧
      (data.foldl (fun s c => s.setBuf (s.store c)) s).preemptionOver =
        s.preemptionOver := by
  induction data generalizing s since with
  | nil => exact ⟨by rwa [List.append_nil], rfl⟩
  | cons c data ih =>
      have hrest := ih (h.store c)
      rw [List.append_assoc] at hrest
      exact hrest

theorem Stdout.EndOf.fetches (h : s.EndOf since) (calls : List StdoutCall) :
    StdoutCall.fetches calls s =
      (StdoutCall.segments calls s.preemptionOver since).map
        (lastOf (stdoutBuflen - 1)) := by
  induction calls generalizing s since with
  | nil => rfl
  | cons call calls ih =>
      cases call with
      | write data =>
          have hwrite : (s.write data).EndOf
                (if s.preemptionOver then since else since ++ data) ∧
              (s.write data).preemptionOver = s.preemptionOver := by
            unfold Stdout.write
            split
            · exact ⟨h, rfl⟩
            · exact h.stores
          have hrest := ih hwrite.1
          rw [hwrite.2] at hrest
          exact hrest
      | fetch =>
          have hempty : (s.setBuf []).EndOf [] := rfl
          exact congrArg₂ List.cons h (ih hempty)
      | setPreemptionOver ended =>
          exact ih (s := { s with preemptionOver := ended }) h

/-- Every fetch returns the end of what was written since the one before, as much
as the buffer has room for. -/
theorem stdout_fetches (calls : List StdoutCall) :
    StdoutCall.fetches calls (Stdout.quiet.setBlocking false) =
        (StdoutCall.segments calls false []).map (lastOf (stdoutBuflen - 1)) ∧
      ∀ xfer ∈ StdoutCall.fetches calls (Stdout.quiet.setBlocking false),
        xfer.length ≤ stdoutBuflen := by
  have hempty : (Stdout.quiet.setBlocking false).EndOf [] := rfl
  have hfetches := hempty.fetches calls
  refine ⟨hfetches, fun xfer hxfer => ?_⟩
  rw [hfetches] at hxfer
  obtain ⟨segment, -, rfl⟩ := List.mem_map.mp hxfer
  rw [length_lastOf]
  exact Nat.le_trans (Nat.min_le_right _ _) (Nat.sub_le _ _)

/-- What is written when preemption is over is not fetched. -/
theorem write_after_preemption_not_fetched :
    StdoutCall.fetches [.setPreemptionOver true, .write [65], .fetch]
        (Stdout.quiet.setBlocking false) ≠ [lastOf (stdoutBuflen - 1) [65]] := by
  decide

/-! ## Calls as steps -/

theorem foldl_store_setWriter (w : Writer) :
    data.foldl (fun s c => s.setBuf (s.store c)) (s.setWriter t w) =
      (data.foldl (fun s c => s.setBuf (s.store c)) s).setWriter t w := by
  induction data generalizing s with
  | nil => rfl
  | cons c data ih => exact ih (s := s.setBuf (s.store c))

theorem foldl_store_buf {s' : Stdout} (h : s'.buf = s.buf) :
    (data.foldl (fun s c => s.setBuf (s.store c)) s').buf =
      (data.foldl (fun s c => s.setBuf (s.store c)) s).buf := by
  induction data generalizing s s' with
  | nil => exact h
  | cons c data ih =>
      refine ih ?_
      rw [Stdout.setBuf_buf, Stdout.setBuf_buf, Stdout.store, Stdout.store, h]

theorem Stdout.setWriter_setWriter (w w' : Writer) :
    (s.setWriter t w).setWriter t w' = s.setWriter t w' := by
  simp [Stdout.setWriter]

theorem run_stores (hholds : s.writer t = .holds data)
    (hblocking : s.blocking = false) :
    Run StdoutStep s (data.map (.put t))
      ((data.foldl (fun s c => s.setBuf (s.store c)) s).setWriter t
        (.holds [])) := by
  induction data generalizing s with
  | nil =>
      have hsame : s.setWriter t (.holds []) = s := by
        simp only [Stdout.setWriter, ← hholds, Function.update_eq_self]
      rw [List.foldl_nil, hsame]
      exact .nil s
  | cons c data ih =>
      have hput : StdoutStep s (.put t c)
          ((s.setBuf (s.store c)).setWriter t (.holds data)) :=
        ⟨data, hholds, .inr hblocking, rfl⟩
      have hrest := ih (s := (s.setBuf (s.store c)).setWriter t (.holds data))
        (by rw [Stdout.setWriter_writer, Function.update_self]) hblocking
      rw [foldl_store_setWriter, Stdout.setWriter_setWriter] at hrest
      exact .cons hput hrest

/-- A call of `_write` that nobody interrupts. -/
theorem run_write (hidle : s.writer t = .idle) (howner : s.owner = none)
    (hblocking : s.blocking = false) (hpreemption : s.preemptionOver = false) :
    ∃ s', Run StdoutStep s
        (.call t data :: .take t :: (data.map (.put t) ++ [.finish t])) s' ∧
      s'.buf = (s.write data).buf ∧ s'.writer t = .idle ∧ s'.owner = none := by
  have hcall : StdoutStep s (.call t data) (s.setWriter t (.wants data)) :=
    ⟨hidle, hpreemption, rfl⟩
  have htake : StdoutStep (s.setWriter t (.wants data)) (.take t)
      (((s.setWriter t (.wants data)).setOwner (some t)).setWriter t
        (.holds data)) :=
    ⟨data, by rw [Stdout.setWriter_writer, Function.update_self], howner, rfl⟩
  have hholds : (((s.setWriter t (.wants data)).setOwner (some t)).setWriter t
      (.holds data)).writer t = .holds data := by
    rw [Stdout.setWriter_writer, Function.update_self]
  have hputs := run_stores hholds hblocking
  refine ⟨_, .cons hcall (.cons htake (hputs.append (.single ⟨?_, rfl⟩))), ?_, ?_,
    rfl⟩
  · rw [Stdout.setWriter_writer, Function.update_self]
  · rw [Stdout.setWriter_buf, Stdout.setOwner_buf, Stdout.setWriter_buf,
      Stdout.write, if_neg (Bool.eq_false_iff.mp hpreemption)]
    exact foldl_store_buf rfl
  · rw [Stdout.setWriter_writer, Function.update_self]

end Windows

end PongoOS
