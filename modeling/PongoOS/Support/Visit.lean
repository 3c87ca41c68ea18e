import PongoOS.Support.Outcome
import Mathlib.Algebra.Notation.Prod
import Mathlib.Data.List.Basic

/-!
# Visits that can be stopped

A walk makes one call after the other on a state.  A call that does not return 0
stops the walk, and its result is the result of the walk.
-/

namespace PongoOS

variable {ε σ α β : Type}

/-- The calls for a list of events. -/
def visit (call : ε → σ → Outcome (ℤ × σ)) : List ε → σ → Outcome (ℤ × σ)
  | [], s => pure (0, s)
  | e :: es, s => do
      let (r, s) ← call e s
      if r ≠ 0 then pure (r, s) else visit call es s

/-- The results of a function that ends at `off` if it is not stopped. -/
def returning [Zero α] (off : α) (x : Outcome (ℤ × σ)) :
    Outcome (ℤ × σ × α) := do
  let (r, s) ← x
  pure (r, s, if r = 0 then off else 0)

section Visit

variable {call : ε → σ → Outcome (ℤ × σ)} {s : σ} [Zero α] {off : α}

theorem visit_append (es fs : List ε) :
    visit call (es ++ fs) s = (do
      let (r, s) ← visit call es s
      if r ≠ 0 then pure (r, s) else visit call fs s) := by
  induction es generalizing s with
  | nil => simp [visit, bind, Except.bind, pure, Except.pure]
  | cons e es ih =>
      rw [List.cons_append, visit, visit, bind_assoc]
      apply bind_congr
      intro rs
      by_cases hr : rs.1 = 0
      · simpa [hr] using ih
      · simp [bind, Except.bind, pure, Except.pure, hr]

theorem visit_singleton (e : ε) : visit call [e] s = call e s := by
  rw [visit]
  cases call e s with
  | error e => rfl
  | ok rs =>
      obtain ⟨r, s⟩ := rs
      by_cases hr : r = 0
      · simp [visit, bind, Except.bind, pure, Except.pure, hr]
      · simp [bind, Except.bind, pure, Except.pure, hr]

theorem returning_visit_append (es fs : List ε) :
    returning off (visit call (es ++ fs) s) = (do
      let (r, s) ← visit call es s
      if r ≠ 0 then pure (r, s, 0) else returning off (visit call fs s)) := by
  rw [returning, visit_append, bind_assoc]
  apply bind_congr
  intro rs
  by_cases hr : rs.1 = 0
  · simp [returning, hr]
  · simp [bind, Except.bind, pure, Except.pure, hr]

theorem returning_visit_cons (e : ε) (es : List ε) :
    returning off (visit call (e :: es) s) = (do
      let (r, s) ← call e s
      if r ≠ 0 then pure (r, s, 0) else returning off (visit call es s)) := by
  rw [← List.singleton_append, returning_visit_append, visit_singleton]

/-- What follows a function that returned 0 gets the offset where it ended. -/
theorem returning_then [Zero β] (x : Outcome (ℤ × σ))
    (k : α → σ → Outcome (ℤ × σ × β)) :
    (do
      let (r, s, off) ← returning off x
      if r ≠ 0 then pure (r, s, 0) else k off s) = (do
      let (r, s) ← x
      if r ≠ 0 then pure (r, s, 0) else k off s) := by
  cases x with
  | error e => rfl
  | ok rs =>
      by_cases hr : rs.1 = 0
      · simp [returning, bind, Except.bind, pure, Except.pure, hr]
      · simp [returning, bind, Except.bind, pure, Except.pure, hr]

/-- `returning`, written as what a function does. -/
theorem returning_eq (x : Outcome (ℤ × σ)) : returning off x = (do
    let (r, s) ← x
    if r ≠ 0 then pure (r, s, 0) else pure (0, s, off)) := by
  apply bind_congr
  rintro ⟨r, s⟩
  by_cases hr : r = 0
  · simp [hr]
  · simp [hr]

/-- Calls that all return 0. -/
theorem visit_of_zero {upd : ε → σ → σ}
    (hcall : ∀ e s, call e s = .ok (0, upd e s)) (es : List ε) (s : σ) :
    visit call es s = .ok (0, es.foldl (fun s e => upd e s) s) := by
  induction es generalizing s with
  | nil => rfl
  | cons e es ih =>
      rw [visit, hcall, Outcome.ok_bind]
      exact ih (upd e s)

end Visit

/-! ## Searches -/

/-- The results of a search in the state `s`: `code` and the state with what was
found. -/
def stopped (code : ℤ) (found : β → σ) (s : σ) : Option β → ℤ × σ
  | some v => (code, found v)
  | none => (0, s)

theorem stopped_some_snd (code : ℤ) (o : Option β) :
    (stopped code some none o).2 = o := by
  cases o with
  | some v => rfl
  | none => rfl

/-- Calls that stop at a hit find the first one. -/
theorem visit_search {call : ε → σ → Outcome (ℤ × σ)} {code : ℤ} {s : σ}
    {found : β → σ} {hit : ε → Option β} (hcode : code ≠ 0) (es : List ε)
    (hcall : ∀ e ∈ es, call e s = .ok (stopped code found s (hit e))) :
    visit call es s = .ok (stopped code found s (es.findSome? hit)) := by
  induction es with
  | nil => rfl
  | cons e es ih =>
      rw [visit, hcall e List.mem_cons_self, Outcome.ok_bind,
        List.findSome?_cons]
      cases hit e with
      | some v => exact if_pos hcode
      | none => exact ih fun e he => hcall e (List.mem_cons_of_mem _ he)

end PongoOS
