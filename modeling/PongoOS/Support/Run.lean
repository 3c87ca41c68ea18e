import Mathlib.Logic.Relation

/-!
# Runs of a labelled step relation

`Run step s es s'` says that the events `es`, taken in order, lead from `s` to
`s'`.  What a step preserves, a run preserves.  What an event did is read off
the states around it.
-/

namespace PongoOS

variable {σ ε : Type}

inductive Run (step : σ → ε → σ → Prop) : σ → List ε → σ → Prop where
  | nil (s : σ) : Run step s [] s
  | cons {s s₁ s' : σ} {e : ε} {es : List ε} :
      step s e s₁ → Run step s₁ es s' → Run step s (e :: es) s'

/-- An event with the states before and after it. -/
structure Transition (σ ε : Type) where
  before : σ
  event : ε
  after : σ

/-- `step` with events that carry the states around them. -/
def Traced (step : σ → ε → σ → Prop) (s : σ) (x : Transition σ ε) (s' : σ) :
    Prop :=
  step s x.event s' ∧ x.before = s ∧ x.after = s'

namespace Run

variable {step step' : σ → ε → σ → Prop} {s s' s'' : σ} {es es' : List ε}

theorem single {e : ε} (h : step s e s') : Run step s [e] s' :=
  cons h (nil s')

theorem append (h : Run step s es s') (h' : Run step s' es' s'') :
    Run step s (es ++ es') s'' := by
  induction h with
  | nil _ => exact h'
  | cons hstep _ ih => exact cons hstep (ih h')

theorem mono (hle : ∀ a e b, step a e b → step' a e b)
    (h : Run step s es s') : Run step' s es s' := by
  induction h with
  | nil s => exact nil s
  | cons hstep _ ih => exact cons (hle _ _ _ hstep) ih

/-- The invariant rule. -/
theorem invariant {I : σ → Prop}
    (hstep : ∀ a e b, I a → step a e b → I b) (hs : I s)
    (h : Run step s es s') : I s' := by
  induction h with
  | nil _ => exact hs
  | cons hfirst _ ih => exact ih (hstep _ _ _ hs hfirst)

/-- The invariant rule with a history: `g` is updated by every event. -/
theorem history {γ : Type} {I : σ → γ → Prop} {upd : γ → ε → γ} {g : γ}
    (hstep : ∀ a g e b, I a g → step a e b → I b (upd g e)) (hs : I s g)
    (h : Run step s es s') : I s' (es.foldl upd g) := by
  induction h generalizing g with
  | nil _ => exact hs
  | cons hfirst _ ih => exact ih (hstep _ _ _ _ hs hfirst)

/-- What relates the two ends of each step relates the two ends of a run. -/
theorem relates {R : σ → σ → Prop} (hrefl : ∀ a, R a a)
    (htrans : ∀ a b c, R a b → R b c → R a c)
    (hstep : ∀ a e b, step a e b → R a b) (h : Run step s es s') : R s s' := by
  induction h with
  | nil s => exact hrefl s
  | cons hfirst _ ih => exact htrans _ _ _ (hstep _ _ _ hfirst) ih

/-- Every event of a traced run is a step. -/
theorem traced_step {xs : List (Transition σ ε)} {x : Transition σ ε}
    (h : Run (Traced step) s xs s') (hx : x ∈ xs) :
    step x.before x.event x.after := by
  induction h with
  | nil s => cases hx
  | cons hfirst _ ih =>
      rcases List.mem_cons.mp hx with rfl | hx
      · obtain ⟨hstep, rfl, rfl⟩ := hfirst
        exact hstep
      · exact ih hx

end Run

/-! ## What happens once -/

/-- `P` holds of one place of the list, and of no other. -/
def Once {α : Type} (P : α → Prop) (xs : List α) : Prop :=
  ∃ l x l', xs = l ++ x :: l' ∧ P x ∧ ∀ y ∈ l ++ l', ¬ P y

namespace Once

variable {α : Type} {P : α → Prop} {x : α} {xs : List α}

theorem head (hx : P x) (h : ∀ y ∈ xs, ¬ P y) : Once P (x :: xs) :=
  ⟨[], x, xs, rfl, hx, h⟩

theorem cons (hx : ¬ P x) (h : Once P xs) : Once P (x :: xs) := by
  obtain ⟨l, y, l', rfl, hy, hother⟩ := h
  refine ⟨x :: l, y, l', rfl, hy, fun z hz => ?_⟩
  rcases List.mem_cons.mp hz with rfl | hz
  · exact hx
  · exact hother z hz

end Once

end PongoOS
