import PongoOS.Support.Outcome

/-!
# What a loop does in its rounds

A loop that may stop acts in every round it comes to, and the last of these may
be the one that stops it.
-/

namespace PongoOS

section Trace

variable {ε α β γ : Type} {act : β → α → List γ} {step : β → α → Except ε β}
  {b b' : β} {c : γ} {l : List α}

/-- What is done where a call returns. -/
def afterOk (x : Except ε β) (act : β → List γ) : List γ :=
  match x with
  | .ok b => act b
  | .error _ => []

theorem mem_afterOk {x : Except ε β} {act : β → List γ} :
    c ∈ afterOk x act ↔ ∃ b, x = .ok b ∧ c ∈ act b := by
  cases x <;> simp [afterOk]

/-- What the rounds of `List.foldlM step` do. -/
def foldTrace (act : β → α → List γ) (step : β → α → Except ε β) :
    β → List α → List γ
  | _, [] => []
  | b, a :: l =>
      act b a ++ afterOk (step b a) fun b' => foldTrace act step b' l

/-- Where every round keeps `I`, it is enough to look at rounds that start with
it. -/
theorem forall_mem_foldTrace {I : β → Prop} {P : γ → Prop}
    (hact : ∀ a ∈ l, ∀ b, I b → ∀ c ∈ act b a, P c)
    (hstep : ∀ a ∈ l, ∀ b b', I b → step b a = .ok b' → I b') (hb : I b) :
    ∀ c ∈ foldTrace act step b l, P c := by
  induction l generalizing b with
  | nil => exact fun c hc => absurd hc List.not_mem_nil
  | cons a l ih =>
      intro c hc
      rw [foldTrace] at hc
      rcases List.mem_append.mp hc with hfirst | hrest
      · exact hact a List.mem_cons_self b hb c hfirst
      · obtain ⟨b', hok, hrest⟩ := mem_afterOk.mp hrest
        exact ih (fun a ha => hact a (List.mem_cons_of_mem _ ha))
          (fun a ha => hstep a (List.mem_cons_of_mem _ ha))
          (hstep a List.mem_cons_self b b' hb hok) c hrest

/-- Where whether a round stops does not depend on the rounds before it, a loop
returns if none of its rounds stops. -/
theorem exists_foldlM_eq_ok_iff {accepts : α → Prop}
    (hstep : ∀ b a, (∃ b', step b a = .ok b') ↔ accepts a) :
    (∃ b', l.foldlM step b = .ok b') ↔ ∀ a ∈ l, accepts a := by
  induction l generalizing b with
  | nil => exact ⟨fun _ => nofun, fun _ => ⟨b, rfl⟩⟩
  | cons a l ih =>
      rw [List.foldlM_cons, List.forall_mem_cons]
      constructor
      · rintro ⟨b', hrun⟩
        obtain ⟨b₁, hfirst, hrest⟩ := except_bind_eq_ok.mp hrun
        exact ⟨(hstep b a).mp ⟨b₁, hfirst⟩, ih.mp ⟨b', hrest⟩⟩
      · rintro ⟨hfirst, hrest⟩
        obtain ⟨b₁, hfirst⟩ := (hstep b a).mpr hfirst
        obtain ⟨b', hrest⟩ := (ih (b := b₁)).mpr hrest
        exact ⟨b', except_bind_eq_ok.mpr ⟨b₁, hfirst, hrest⟩⟩

/-- Where neither what a round does nor whether it stops depends on the rounds
before it, a round is come to if none before it stops. -/
theorem mem_foldTrace_iff {act : α → List γ} {accepts : α → Prop}
    (hstep : ∀ b a, (∃ b', step b a = .ok b') ↔ accepts a) :
    c ∈ foldTrace (fun _ => act) step b l ↔
      ∃ (i : ℕ) (a : α), l[i]? = some a ∧
        (∀ j < i, ∀ a', l[j]? = some a' → accepts a') ∧ c ∈ act a := by
  induction l generalizing b with
  | nil =>
      refine iff_of_false List.not_mem_nil ?_
      rintro ⟨i, a, hi, -⟩
      cases hi
  | cons a l ih =>
      rw [foldTrace, List.mem_append, mem_afterOk]
      constructor
      · rintro (hfirst | ⟨b', hok, hrest⟩)
        · exact ⟨0, a, rfl, fun j hj => absurd hj (Nat.not_lt_zero j), hfirst⟩
        · obtain ⟨i, a', hi, hbefore, hc⟩ := ih.mp hrest
          refine ⟨i + 1, a', hi, fun j hj a'' hj' => ?_, hc⟩
          cases j with
          | zero =>
              cases hj'
              exact (hstep b a).mp ⟨b', hok⟩
          | succ j => exact hbefore j (Nat.lt_of_succ_lt_succ hj) a'' hj'
      · rintro ⟨i, a', hi, hbefore, hc⟩
        cases i with
        | zero =>
            cases hi
            exact .inl hc
        | succ i =>
            obtain ⟨b', hok⟩ :=
              (hstep b a).mpr (hbefore 0 (Nat.succ_pos i) a rfl)
            refine .inr ⟨b', hok, ih.mpr ⟨i, a', hi, fun j hj a'' hj' => ?_, hc⟩⟩
            exact hbefore (j + 1) (Nat.succ_lt_succ hj) a'' hj'

theorem mem_foldTrace_range_iff {act : ℕ → List γ} {accepts : ℕ → Prop}
    {step : β → ℕ → Except ε β} {n : ℕ}
    (hstep : ∀ b i, (∃ b', step b i = .ok b') ↔ accepts i) :
    c ∈ foldTrace (fun _ => act) step b (List.range n) ↔
      ∃ i < n, (∀ j < i, accepts j) ∧ c ∈ act i := by
  rw [mem_foldTrace_iff hstep]
  constructor
  · rintro ⟨i, a, hi, hbefore, hc⟩
    obtain ⟨hlt, rfl⟩ := List.getElem?_eq_some_iff.mp hi
    rw [List.length_range] at hlt
    rw [List.getElem_range] at hc
    refine ⟨i, hlt, fun j hj => hbefore j hj j ?_, hc⟩
    exact List.getElem?_range (Nat.lt_trans hj hlt)
  · rintro ⟨i, hi, hbefore, hc⟩
    refine ⟨i, i, List.getElem?_range hi, fun j hj a hj' => ?_, hc⟩
    rw [List.getElem?_range (Nat.lt_trans hj hi)] at hj'
    cases hj'
    exact hbefore j hj

theorem foldlM_keeps {I : β → Prop}
    (hstep : ∀ a ∈ l, ∀ b b', I b → step b a = .ok b' → I b') (hb : I b)
    (hrun : l.foldlM step b = .ok b') : I b' := by
  induction l generalizing b with
  | nil =>
      cases hrun
      exact hb
  | cons a l ih =>
      rw [List.foldlM_cons, except_bind_eq_ok] at hrun
      obtain ⟨b₁, hfirst, hrest⟩ := hrun
      exact ih (fun a ha => hstep a (List.mem_cons_of_mem _ ha))
        (hstep a List.mem_cons_self b b₁ hb hfirst) hrest

end Trace

/-! ## Counted loops over an array -/

/-- What the rounds of `Outcome.forRange body` do. -/
def forRangeTrace {σ γ : Type} (act : ℕ → σ → List γ)
    (body : ℕ → σ → Outcome σ) : ℕ → ℕ → σ → List γ
  | _, 0, _ => []
  | i, n + 1, s =>
      act i s ++ afterOk (body i s) fun s' =>
        forRangeTrace act body (i + 1) n s'

/-- A loop that uses its counter as an index of an array with `top` elements,
and stops when the counter is larger than `top`.  `Inv` holds before every
round, and below `top` a round goes on for the counters in `passes`. -/
structure ChecksIndex {σ : Type} (act : ℕ → σ → List ℕ)
    (body : ℕ → σ → Outcome σ) (Inv : ℕ → σ → Prop) (passes : ℕ → Prop)
    (top : ℕ) : Prop where
  touched : ∀ i s, Inv i s → i < top → ∀ k ∈ act i s, k < top
  goes_on : ∀ i s, Inv i s → i < top → passes i →
    ∃ s', body i s = .ok s' ∧ Inv (i + 1) s'
  stops : ∀ i s, Inv i s → i < top → ¬ passes i →
    ∃ msg, body i s = .error (.panic msg)
  touches_top : ∀ s, Inv top s → top ∈ act top s
  refuses : ∀ i s, Inv i s → top < i →
    act i s = [] ∧ ∃ msg, body i s = .error (.panic msg)

namespace ChecksIndex

variable {σ : Type} {act : ℕ → σ → List ℕ} {body : ℕ → σ → Outcome σ}
  {Inv : ℕ → σ → Prop} {passes : ℕ → Prop} {top i n : ℕ} {s : σ}

/-- The loop comes to `top`. -/
def Reaches (passes : ℕ → Prop) (top i n : ℕ) : Prop :=
  i ≤ top ∧ top < i + n ∧ ∀ j, i ≤ j → j < top → passes j

theorem touches (h : ChecksIndex act body Inv passes top) (hs : Inv i s)
    (hreaches : Reaches passes top i n) : top ∈ forRangeTrace act body i n s := by
  obtain ⟨hle, hlt, hpasses⟩ := hreaches
  induction n generalizing i s with
  | zero => omega
  | succ n ih =>
      rw [forRangeTrace]
      rcases Nat.lt_or_eq_of_le hle with hbelow | rfl
      · obtain ⟨s', hok, hs'⟩ := h.goes_on i s hs hbelow (hpasses i le_rfl hbelow)
        refine List.mem_append_right _ (mem_afterOk.mpr ⟨s', hok, ?_⟩)
        exact ih hs' hbelow (by omega) fun j hj => hpasses j (Nat.le_of_succ_le hj)
      · exact List.mem_append_left _ (h.touches_top s hs)

theorem below (h : ChecksIndex act body Inv passes top) (hs : Inv i s)
    (hreaches : ¬ Reaches passes top i n) :
    ∀ k ∈ forRangeTrace act body i n s, k < top := by
  induction n generalizing i s with
  | zero => exact fun k hk => absurd hk List.not_mem_nil
  | succ n ih =>
      intro k hk
      rw [forRangeTrace] at hk
      rcases Nat.lt_trichotomy i top with hlt | rfl | hlt
      · rcases List.mem_append.mp hk with hfirst | hrest
        · exact h.touched i s hs hlt k hfirst
        · obtain ⟨s', hok, hrest⟩ := mem_afterOk.mp hrest
          by_cases hpasses : passes i
          · obtain ⟨s₁, hok₁, hs₁⟩ := h.goes_on i s hs hlt hpasses
            cases hok.symm.trans hok₁
            refine ih hs₁ (fun ⟨hle, htop, hall⟩ => hreaches ?_) k hrest
            refine ⟨Nat.le_of_lt hlt, by omega, fun j hij hj => ?_⟩
            rcases Nat.eq_or_lt_of_le hij with rfl | hlt'
            · exact hpasses
            · exact hall j hlt' hj
          · obtain ⟨msg, herror⟩ := h.stops i s hs hlt hpasses
            cases hok.symm.trans herror
      · refine absurd ⟨le_rfl, by omega, fun j hij hj => ?_⟩ hreaches
        exact absurd hij (Nat.not_le_of_lt hj)
      · obtain ⟨hnil, msg, herror⟩ := h.refuses i s hs hlt
        rw [hnil, herror] at hk
        cases hk

/-- A loop that goes beyond the array without coming to `top` panics. -/
theorem panics (h : ChecksIndex act body Inv passes top) (hs : Inv i s)
    (hreaches : ¬ Reaches passes top i n) (hn : 0 < n) (hbeyond : top < i + n) :
    ∃ msg, Outcome.forRange body i n s = .error (.panic msg) := by
  induction n generalizing i s with
  | zero => cases hn
  | succ n ih =>
      rw [Outcome.forRange]
      rcases Nat.lt_trichotomy i top with hlt | rfl | hlt
      · by_cases hpasses : passes i
        · obtain ⟨s₁, hok₁, hs₁⟩ := h.goes_on i s hs hlt hpasses
          rw [hok₁, Outcome.ok_bind]
          refine ih hs₁ (fun hrest => hreaches ?_) (by omega) (by omega)
          obtain ⟨-, htop, hall⟩ := hrest
          refine ⟨Nat.le_of_lt hlt, by omega, fun j hij hj => ?_⟩
          rcases Nat.eq_or_lt_of_le hij with rfl | hlt'
          · exact hpasses
          · exact hall j hlt' hj
        · obtain ⟨msg, herror⟩ := h.stops i s hs hlt hpasses
          exact ⟨msg, by rw [herror]; rfl⟩
      · refine absurd ⟨le_rfl, by omega, fun j hij hj => ?_⟩ hreaches
        exact absurd hij (Nat.not_le_of_lt hj)
      · obtain ⟨-, msg, herror⟩ := h.refuses i s hs hlt
        exact ⟨msg, by rw [herror]; rfl⟩

end ChecksIndex

end PongoOS
