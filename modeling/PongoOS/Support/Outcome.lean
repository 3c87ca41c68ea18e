import Mathlib.Data.Nat.Basic
import Mathlib.Tactic.Common

/-!
# Calls that may stop

A C function of this development either returns or stops the machine with
`panic`.  `Outcome` carries that distinction.  `outOfFuel` is a third
possibility which belongs to the embedding alone: recursive functions are
defined by recursion on a fuel argument, and every result about such a
function says that the bound is never reached.
-/

namespace PongoOS

section Except

variable {ε α β : Type} {x : Except ε α} {f : α → Except ε β} {e : ε}

theorem except_ok_bind (a : α) :
    ((.ok a : Except ε α) >>= f) = f a := rfl

theorem except_bind_eq_ok {b : β} :
    (x >>= f) = .ok b ↔ ∃ a, x = .ok a ∧ f a = .ok b := by
  cases x <;> simp [bind, Except.bind]

theorem except_bind_eq_error :
    (x >>= f) = .error e ↔ x = .error e ∨ ∃ a, x = .ok a ∧ f a = .error e := by
  cases x <;> simp [bind, Except.bind]

/-- A loop over a list stops for a reason for which its body does. -/
theorem foldlM_error {g : β → α → Except ε β} {E : ε → Prop} {l : List α}
    {b : β} (hg : ∀ b a e, g b a = .error e → E e)
    (h : l.foldlM g b = .error e) : E e := by
  induction l generalizing b with
  | nil => cases h
  | cons a l ih =>
      rw [List.foldlM_cons, except_bind_eq_error] at h
      rcases h with hfirst | ⟨_, -, hrest⟩
      · exact hg _ _ _ hfirst
      · exact ih hrest

/-- A loop over a range stops in the first round that stops. -/
theorem foldlM_range_eq_error {g : β → ℕ → Except ε β} {n : ℕ} {b : β} :
    (List.range n).foldlM g b = .error e ↔
      ∃ i < n, ∃ c, (List.range i).foldlM g b = .ok c ∧ g c i = .error e := by
  induction n with
  | zero => exact ⟨nofun, nofun⟩
  | succ n ih =>
      rw [List.range_succ, List.foldlM_append, except_bind_eq_error, ih]
      simp only [List.foldlM_cons, List.foldlM_nil, bind_pure]
      constructor
      · rintro (⟨i, hi, hstop⟩ | ⟨c, hc, hstop⟩)
        · exact ⟨i, Nat.lt_succ_of_lt hi, hstop⟩
        · exact ⟨n, Nat.lt_succ_self n, c, hc, hstop⟩
      · rintro ⟨i, hi, hstop⟩
        rcases Nat.lt_succ_iff_lt_or_eq.mp hi with hlt | rfl
        · exact .inl ⟨i, hlt, hstop⟩
        · exact .inr hstop

end Except

/-- Why a call did not return. -/
inductive Stop where
  | panic (msg : String)
  | outOfFuel
deriving DecidableEq, Repr

abbrev Outcome (α : Type) := Except Stop α

namespace Outcome

variable {α β σ : Type}

@[simp] theorem bind_eq_ok {x : Outcome α} {f : α → Outcome β} {b : β} :
    (x >>= f) = .ok b ↔ ∃ a, x = .ok a ∧ f a = .ok b :=
  except_bind_eq_ok

@[simp] theorem pure_eq_ok {a b : α} :
    (pure a : Outcome α) = .ok b ↔ a = b := by
  simp [pure, Except.pure]

theorem bind_eq_error {x : Outcome α} {f : α → Outcome β} {e : Stop} :
    (x >>= f) = .error e ↔
      x = .error e ∨ ∃ a, x = .ok a ∧ f a = .error e :=
  except_bind_eq_error

theorem ok_bind (a : α) (f : α → Outcome β) :
    ((.ok a : Outcome α) >>= f) = f a := rfl

/-- What an evaluation shows of a result holds of a call that returned. -/
theorem ok_of_map {x : Outcome α} {f : α → β} {b : β}
    (h : x.toOption.map f = some b) : ∃ a, x = .ok a ∧ f a = b := by
  cases x with
  | ok a => exact ⟨a, rfl, Option.some.inj h⟩
  | error e => cases h

/-! ## What a call establishes -/

/-- If `x` returns, `P` holds of its result, and if it stops, `E` holds of the
reason. -/
def Sat (E : Stop → Prop) (P : α → Prop) : Outcome α → Prop
  | .ok a => P a
  | .error e => E e

section Sat

variable {E E' : Stop → Prop} {P P' : α → Prop} {Q : β → Prop}
  {x : Outcome α} {f : α → Outcome β}

@[simp] theorem sat_ok {a : α} : Sat E P (.ok a) ↔ P a := Iff.rfl

@[simp] theorem sat_error {e : Stop} :
    Sat E P (.error e : Outcome α) ↔ E e := Iff.rfl

theorem Sat.bind (hx : Sat E P x) (hf : ∀ a, P a → Sat E Q (f a)) :
    Sat E Q (x >>= f) := by
  cases x with
  | ok a => exact hf a hx
  | error e => exact hx

theorem Sat.mono (hE : ∀ e, E e → E' e) (hP : ∀ a, P a → P' a)
    (hx : Sat E P x) : Sat E' P' x := by
  cases x with
  | ok a => exact hP a hx
  | error e => exact hE e hx

theorem Sat.imp (hx : Sat E P x) (hP : ∀ a, P a → P' a) : Sat E P' x :=
  hx.mono (fun _ he => he) hP

theorem sat_iff : Sat E P x ↔
    (∀ a, x = .ok a → P a) ∧ ∀ e, x = .error e → E e := by
  cases x with
  | ok a => simp
  | error e => simp

end Sat

/-! ## Counted loops -/

/-- `for (i = start; i < start + n; i++) body(i)`. -/
def forRange (body : ℕ → σ → Outcome σ) : ℕ → ℕ → σ → Outcome σ
  | _, 0, s => .ok s
  | i, n + 1, s => body i s >>= forRange body (i + 1) n

@[simp] theorem forRange_zero (body : ℕ → σ → Outcome σ) (i : ℕ) (s : σ) :
    forRange body i 0 s = .ok s := rfl

theorem forRange_succ_ok {body : ℕ → σ → Outcome σ} {i n : ℕ} {s s' : σ} :
    forRange body i (n + 1) s = .ok s' ↔
      ∃ s₁, body i s = .ok s₁ ∧ forRange body (i + 1) n s₁ = .ok s' := by
  simp [forRange]

/-- The invariant rule: `P i` is what holds when the counter is `i`. -/
theorem forRange_invariant {body : ℕ → σ → Outcome σ} {P : ℕ → σ → Prop}
    {i n : ℕ} {s s' : σ}
    (hbody : ∀ j s₁ s₂, i ≤ j → j < i + n → P j s₁ →
      body j s₁ = .ok s₂ → P (j + 1) s₂)
    (hs : P i s) (hrun : forRange body i n s = .ok s') :
    P (i + n) s' := by
  induction n generalizing i s with
  | zero =>
      cases hrun
      exact hs
  | succ n ih =>
      obtain ⟨s₁, hfirst, hrest⟩ := forRange_succ_ok.mp hrun
      have hs₁ : P (i + 1) s₁ :=
        hbody i s s₁ le_rfl (by omega) hs hfirst
      have hlast := ih
        (fun j a b hij hjn => hbody j a b (by omega) (by omega)) hs₁ hrest
      rwa [show i + (n + 1) = i + 1 + n by omega]

/-- The rule for a property that does not mention the counter. -/
theorem forRange_preserves {body : ℕ → σ → Outcome σ} {P : σ → Prop}
    {i n : ℕ} {s s' : σ}
    (hbody : ∀ j s₁ s₂, i ≤ j → j < i + n → P s₁ →
      body j s₁ = .ok s₂ → P s₂)
    (hs : P s) (hrun : forRange body i n s = .ok s') : P s' :=
  forRange_invariant (P := fun _ => P) hbody hs hrun

/-- A loop stops where its body does. -/
theorem forRange_stops {body : ℕ → σ → Outcome σ} {i n : ℕ} {s : σ} {e : Stop}
    (h : forRange body i n s = .error e) : ∃ j k, body j k = .error e := by
  induction n generalizing i s with
  | zero => cases h
  | succ n ih =>
      rw [forRange, bind_eq_error] at h
      rcases h with hfirst | ⟨k, -, hrest⟩
      · exact ⟨i, s, hfirst⟩
      · exact ih hrest

/-- A loop all of whose bodies return, returns. -/
theorem forRange_returns {f : ℕ → σ → Outcome σ} {P : ℕ → σ → Prop}
    {i n : ℕ} {s : σ}
    (hf : ∀ j s₁, i ≤ j → j < i + n → P j s₁ →
      ∃ s₂, f j s₁ = .ok s₂ ∧ P (j + 1) s₂)
    (hs : P i s) : ∃ s', forRange f i n s = .ok s' ∧ P (i + n) s' := by
  induction n generalizing i s with
  | zero => exact ⟨s, rfl, hs⟩
  | succ n ih =>
      obtain ⟨s₁, hfirst, hs₁⟩ := hf i s le_rfl (by omega) hs
      obtain ⟨s', hrest, hs'⟩ := ih
        (fun j a hij hjn => hf j a (by omega) (by omega)) hs₁
      refine ⟨s', forRange_succ_ok.mpr ⟨s₁, hfirst, hrest⟩, ?_⟩
      rwa [show i + (n + 1) = i + 1 + n by omega]

end Outcome

end PongoOS
