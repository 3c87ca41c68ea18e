import PongoOS.Support.ByteMemory

/-!
# Sorting with a comparison function

The comparison functions of C return a number whose sign is the result.  `qsort`
puts the elements in some order that agrees with such a function, if the function
is consistent; which of several such orders it chooses is not known.
-/

namespace PongoOS

/-! ## Comparison functions -/

section Compare

variable {α : Type}

/-- What `qsort` asks of a comparison function. -/
structure Consistent (cmp : α → α → ℤ) : Prop where
  swap : ∀ a b, cmp a b ≤ 0 ↔ 0 ≤ cmp b a
  trans : ∀ a b c, cmp a b ≤ 0 → cmp b c ≤ 0 → cmp a c ≤ 0

theorem Consistent.total {cmp : α → α → ℤ} (h : Consistent cmp) (a b : α) :
    cmp a b ≤ 0 ∨ cmp b a ≤ 0 := by
  rcases Int.le_total (cmp a b) 0 with hab | hab
  · exact .inl hab
  · exact .inr ((h.swap b a).mpr hab)

/-- A function that sorts as `qsort` does. -/
structure Qsort (α : Type) where
  sort : (α → α → ℤ) → List α → List α
  perm : ∀ cmp l, Consistent cmp → (sort cmp l).Perm l
  sorted : ∀ cmp l, Consistent cmp → (sort cmp l).Pairwise fun a b => cmp a b ≤ 0

/-- There is such a function. -/
def Qsort.merge (α : Type) : Qsort α where
  sort cmp l := l.mergeSort fun a b => cmp a b ≤ 0
  perm _ l _ := List.mergeSort_perm l _
  sorted cmp l h := by
    have hsorted := @List.pairwise_mergeSort _ (fun a b => decide (cmp a b ≤ 0))
      (fun a b c hab hbc => by
        simp only [decide_eq_true_eq] at *
        exact h.trans a b c hab hbc)
      (fun a b => by simpa using h.total a b) l
    exact hsorted.imp of_decide_eq_true

end Compare

/-! ## Strings -/

/-- `strcmp` of two strings, without their terminators. -/
def strcmp : List UInt8 → List UInt8 → ℤ
  | [], [] => 0
  | [], y :: _ => -y.toNat
  | x :: _, [] => x.toNat
  | x :: xs, y :: ys => if x = y then strcmp xs ys else (x.toNat : ℤ) - y.toNat

theorem strcmp_swap (xs ys : List UInt8) : strcmp ys xs = -strcmp xs ys := by
  induction xs generalizing ys with
  | nil => cases ys <;> simp [strcmp]
  | cons x xs ih =>
      cases ys with
      | nil => simp [strcmp]
      | cons y ys =>
          by_cases hxy : x = y
          · rw [strcmp, if_pos hxy.symm, strcmp, if_pos hxy, ih]
          · rw [strcmp, if_neg (Ne.symm hxy), strcmp, if_neg hxy]
            omega

theorem toNat_pos_of_notMem {x : UInt8} {xs : List UInt8} (h : 0 ∉ x :: xs) :
    0 < x.toNat := by
  refine Nat.pos_of_ne_zero fun hzero => h ?_
  rw [show x = 0 from UInt8.toNat_inj.mp hzero]
  exact List.mem_cons_self

theorem strcmp_eq_zero {xs ys : List UInt8} (hxs : 0 ∉ xs) (hys : 0 ∉ ys) :
    strcmp xs ys = 0 ↔ xs = ys := by
  induction xs generalizing ys with
  | nil =>
      cases ys with
      | nil => simp [strcmp]
      | cons y ys =>
          have hpos := toNat_pos_of_notMem hys
          simp only [strcmp, reduceCtorEq, iff_false]
          omega
  | cons x xs ih =>
      cases ys with
      | nil =>
          have hpos := toNat_pos_of_notMem hxs
          simp only [strcmp, reduceCtorEq, iff_false]
          omega
      | cons y ys =>
          have hne : x.toNat = y.toNat ↔ x = y := UInt8.toNat_inj
          have hrest := ih (fun h => hxs (List.mem_cons_of_mem _ h))
            (fun h => hys (List.mem_cons_of_mem _ h))
          rw [strcmp, List.cons.injEq]
          split
          · rename_i hxy
            rw [hrest]
            simp [hxy]
          · rename_i hxy
            have hxy' : x.toNat ≠ y.toNat := fun h => hxy (hne.mp h)
            simp only [hxy, false_and, iff_false]
            omega

theorem strcmp_trans {xs ys zs : List UInt8} (hxs : 0 ∉ xs) (hys : 0 ∉ ys)
    (hxy : strcmp xs ys ≤ 0) (hyz : strcmp ys zs ≤ 0) : strcmp xs zs ≤ 0 := by
  induction xs generalizing ys zs with
  | nil => cases zs <;> simp [strcmp]
  | cons x xs ih =>
      cases ys with
      | nil =>
          have hpos := toNat_pos_of_notMem hxs
          simp only [strcmp] at hxy
          omega
      | cons y ys =>
          cases zs with
          | nil =>
              have hpos := toNat_pos_of_notMem hys
              simp only [strcmp] at hyz
              omega
          | cons z zs =>
              simp only [strcmp] at hxy hyz ⊢
              by_cases hxy' : x = y
              · subst hxy'
                rw [if_pos rfl] at hxy
                split
                · rename_i hxz
                  rw [if_pos hxz] at hyz
                  exact ih (fun h => hxs (List.mem_cons_of_mem _ h))
                    (fun h => hys (List.mem_cons_of_mem _ h)) hxy hyz
                · rename_i hxz
                  rwa [if_neg hxz] at hyz
              · rw [if_neg hxy'] at hxy
                have hlt : x.toNat ≠ y.toNat := fun h => hxy' (UInt8.toNat_inj.mp h)
                have hle : y.toNat ≤ z.toNat := by
                  split at hyz
                  · rename_i hyz'
                    rw [hyz']
                  · omega
                rw [if_neg (fun hxz => by rw [hxz] at hlt hxy; omega)]
                omega

/-- `strcmp`. -/
def CString.compare (s t : CString) : ℤ := strcmp s.bytes t.bytes

theorem CString.compare_eq_zero {s t : CString} : s.compare t = 0 ↔ s = t := by
  rw [CString.compare, strcmp_eq_zero s.nonzero t.nonzero]
  constructor
  · intro h
    cases s
    cases t
    cases h
    rfl
  · rintro rfl
    rfl

theorem CString.compare_consistent : Consistent CString.compare where
  swap s t := by
    rw [compare, compare, strcmp_swap s.bytes t.bytes]
    omega
  trans s t _ := strcmp_trans s.nonzero t.nonzero

end PongoOS
