import Mathlib.Data.List.Perm.Subperm
import PongoOS.Shell.Command

/-!
# The command table after any calls

The used entries of the table come first, in the order of their names, and no name
occurs twice.  So a scan for a name that stops at the first free entry finds it, and
a lookup finds what was registered last.
-/

namespace PongoOS

/-! ## Histories -/

inductive CommandOp where
  | register (name : CString) (desc : Option CString) (cb : ℕ)
  | unregister (name : CString)

namespace CommandOp

def name : CommandOp → CString
  | .register n _ _ => n
  | .unregister n => n

/-- What the name is bound to by the call. -/
def bound : CommandOp → Option ℕ
  | .register _ _ cb => some cb
  | .unregister _ => none

def run (q : Qsort Command) (s : Shell) : CommandOp → Outcome Shell
  | .register n desc cb => s.commandRegister q n desc cb
  | .unregister n => .ok (s.commandUnregister q n)

end CommandOp

def runCommandOps (q : Qsort Command) (ops : List CommandOp) (s : Shell) :
    Outcome Shell :=
  ops.foldlM (CommandOp.run q) s

/-- The callback that was registered last, unless the name was unregistered
since. -/
def registered (ops : List CommandOp) (name : CString) : Option ℕ :=
  (lastWhere (fun op => op.name = name) ops).bind CommandOp.bound

theorem registered_concat {ops : List CommandOp} {op : CommandOp} {name : CString} :
    registered (ops ++ [op]) name =
      if op.name = name then op.bound else registered ops name := by
  unfold registered
  split
  · rename_i hname
    rw [lastWhere_concat_of_pos (P := fun op : CommandOp => op.name = name) hname]
    rfl
  · rename_i hname
    rw [lastWhere_concat_of_neg (P := fun op : CommandOp => op.name = name) hname]

/-! ## The invariant -/

theorem Command.isNamed_iff {c : Command} {name : CString} :
    c.isNamed name = true ↔ c.name = some name := by
  unfold isNamed
  cases hc : c.name with
  | none => simp
  | some n => simp [CString.compare_eq_zero]

namespace CommandTable

/-- No name occurs twice. -/
def Distinct (t : CommandTable) : Prop :=
  t.entries.Pairwise fun a b => ∀ n, a.name = some n → b.name ≠ some n

/-- The used entries come first and are sorted by name. -/
structure Ordered (t : CommandTable) : Prop where
  used_first : t.entries.Pairwise fun a b => b.name ≠ none → a.name ≠ none
  sorted : t.entries.Pairwise fun a b =>
    ∀ m n, a.name = some m → b.name = some n → m.compare n < 0

/-- The entries are the ones of `reg`. -/
structure Binds (t : CommandTable) (reg : CString → Option ℕ) : Prop where
  sound : ∀ c ∈ t.entries, ∀ n, c.name = some n → reg n = some c.cb
  complete : ∀ n cb, reg n = some cb → ∃ c ∈ t.entries, c.name = some n

variable {t : CommandTable} {reg : CString → Option ℕ} {c : Command}
  {name : CString} {q : Qsort Command} {i : ℕ}

theorem Ordered.distinct (h : t.Ordered) : t.Distinct := by
  refine h.sorted.imp fun hlt n ha hb => ?_
  have hself := hlt n n ha hb
  rw [CString.compare_eq_zero.mpr rfl] at hself
  exact Int.lt_irrefl 0 hself

theorem perm_sort : (t.sort q).entries.Perm t.entries :=
  q.perm _ _ cmpCmd_consistent

theorem mem_sort : c ∈ (t.sort q).entries ↔ c ∈ t.entries := perm_sort.mem_iff

theorem Binds.sort (h : t.Binds reg) : (t.sort q).Binds reg :=
  ⟨fun c hc => h.sound c (mem_sort.mp hc), fun n cb hn =>
    (h.complete n cb hn).imp fun _ hc => ⟨mem_sort.mpr hc.1, hc.2⟩⟩

/-- Sorting restores the order. -/
theorem Distinct.sort (h : t.Distinct) : (t.sort q).Ordered := by
  have hsorted : (t.sort q).entries.Pairwise fun a b => cmpCmd a b ≤ 0 :=
    q.sorted _ _ cmpCmd_consistent
  have hdistinct : (t.sort q).Distinct :=
    (perm_sort.pairwise_iff fun hab n hb ha => hab n ha hb).mpr h
  constructor
  case used_first =>
    refine hsorted.imp fun {a b} hle hb ha => ?_
    obtain ⟨n, hn⟩ := Option.ne_none_iff_exists'.mp hb
    simp [cmpCmd, ha, hn] at hle
  case sorted =>
    refine hsorted.imp₂ (fun {a b} hle hne m n ha hb => ?_) hdistinct
    have hne' : m.compare n ≠ 0 := by
      rw [Ne, CString.compare_eq_zero]
      rintro rfl
      exact hne m ha hb
    simp only [cmpCmd, ha, hb] at hle
    omega

/-! ## Calls -/

/-- The entry that `command_register` takes for `name`. -/
structure IsSlot (t : CommandTable) (name : CString) (i : ℕ) : Prop where
  lt : i < t.entries.length
  free_or_named : t.entries[i].name = none ∨ t.entries[i].name = some name
  before : ∀ j (hj : j < i), t.entries[j].name ≠ none ∧ t.entries[j].name ≠ some name

theorem findIdx_eq_some_iff :
    t.entries.findIdx? (fun c => c.name.isNone || c.isNamed name) = some i ↔
      t.IsSlot name i := by
  simp only [List.findIdx?_eq_some_iff_getElem, Bool.or_eq_true, Option.isNone_iff_eq_none,
    Command.isNamed_iff, not_or]
  exact ⟨fun ⟨hlt, hi, hbefore⟩ => ⟨hlt, hi, hbefore⟩,
    fun h => ⟨h.lt, h.free_or_named, h.before⟩⟩

/-- No other entry has the name.  Behind a free entry all are free. -/
theorem IsSlot.others (h : t.IsSlot name i) (ht : t.Ordered) {j : ℕ}
    (hj : j < t.entries.length) (hne : j ≠ i) : t.entries[j].name ≠ some name := by
  have hlt := h.lt
  rcases Nat.lt_or_gt_of_ne hne with hbefore | hafter
  · exact (h.before j hbefore).2
  · rcases h.free_or_named with hfree | hnamed
    · intro hname
      refine List.pairwise_iff_getElem.mp ht.used_first i j hlt hj hafter ?_ hfree
      rw [hname]
      exact Option.some_ne_none name
    · exact List.pairwise_iff_getElem.mp ht.distinct i j hlt hj hafter name hnamed

theorem IsSlot.distinct_set (h : t.IsSlot name i) (ht : t.Ordered)
    (hc : c.name = some name) : (t.set i c).Distinct := by
  refine List.pairwise_iff_getElem.mpr fun a b ha hb hab n hna hnb => ?_
  simp only [set, List.length_set] at ha hb
  simp only [set, List.getElem_set] at hna hnb
  split at hna
  · rename_i hia
    rw [hc] at hna
    cases hna
    rw [if_neg (by omega)] at hnb
    exact h.others ht hb (by omega) hnb
  · split at hnb
    · rename_i hia _
      rw [hc] at hnb
      cases hnb
      exact h.others ht ha (Ne.symm hia) hna
    · exact List.pairwise_iff_getElem.mp ht.distinct a b ha hb hab n hna hnb

theorem IsSlot.binds_set (h : t.IsSlot name i) (ht : t.Ordered) (hreg : t.Binds reg)
    (hc : c.name = some name) :
    (t.set i c).Binds fun n => if name = n then some c.cb else reg n := by
  have hlt := h.lt
  constructor
  case sound =>
    intro x hx n hn
    obtain ⟨j, hj, hx⟩ := List.mem_iff_getElem.mp hx
    simp only [set, List.length_set] at hj
    simp only [set, List.getElem_set] at hx
    split at hx
    · rw [← hx, hc] at hn
      cases hn
      rw [if_pos rfl, hx]
    · rename_i hij
      subst hx
      have hname : name ≠ n := by
        rintro rfl
        exact h.others ht hj (Ne.symm hij) hn
      rw [if_neg hname]
      exact hreg.sound _ (List.getElem_mem hj) n hn
  case complete =>
    intro n cb hn
    by_cases hname : name = n
    · subst hname
      exact ⟨c, List.mem_set hlt c, hc⟩
    · rw [if_neg hname] at hn
      obtain ⟨x, hx, hxn⟩ := hreg.complete n cb hn
      obtain ⟨j, hj, rfl⟩ := List.mem_iff_getElem.mp hx
      have hij : i ≠ j := by
        rintro rfl
        rcases h.free_or_named with hfree | hnamed
        · rw [hfree] at hxn
          cases hxn
        · rw [hnamed] at hxn
          cases hxn
          exact hname rfl
      refine ⟨t.entries[j], ?_, hxn⟩
      rw [List.mem_iff_getElem]
      exact ⟨j, by simpa [set] using hj, by simp [set, hij]⟩

/-- The table without the entries of `name`. -/
def without (t : CommandTable) (name : CString) : CommandTable :=
  t.map fun c => if c.isNamed name then Command.free else c

theorem mem_without : c ∈ (t.without name).entries ∧ c.name ≠ none ↔
    c ∈ t.entries ∧ c.name ≠ none ∧ c.name ≠ some name := by
  simp only [without, map, List.mem_map]
  constructor
  · rintro ⟨⟨x, hx, rfl⟩, hused⟩
    split at hused
    · exact absurd rfl hused
    · rename_i hname
      rw [if_neg hname]
      exact ⟨hx, hused, fun h => hname (Command.isNamed_iff.mpr h)⟩
  · rintro ⟨hc, hused, hname⟩
    refine ⟨⟨c, hc, if_neg fun h => hname (Command.isNamed_iff.mp h)⟩, hused⟩

theorem Distinct.without (h : t.Distinct) : (t.without name).Distinct := by
  refine List.pairwise_map.mpr (h.imp fun {a b} hab n ha hb => ?_)
  split at ha
  · cases ha
  · split at hb
    · cases hb
    · exact hab n ha hb

theorem Binds.without (h : t.Binds reg) :
    (t.without name).Binds fun n => if name = n then none else reg n := by
  constructor
  case sound =>
    intro c hc n hn
    obtain ⟨hc, -, hname⟩ := mem_without.mp ⟨hc, by simp [hn]⟩
    have hne : name ≠ n := by
      rintro rfl
      exact hname hn
    rw [if_neg hne]
    exact h.sound c hc n hn
  case complete =>
    intro n cb hn
    have hne : name ≠ n := by
      rintro rfl
      simp at hn
    rw [if_neg hne] at hn
    obtain ⟨c, hc, hcn⟩ := h.complete n cb hn
    have hother : c.name ≠ some name := by
      rw [hcn]
      exact fun h => hne (Option.some.inj h).symm
    exact ⟨c, (mem_without.mpr ⟨hc, by simp [hcn], hother⟩).1, hcn⟩

/-- The names that are in use. -/
def names (t : CommandTable) : List CString := t.entries.filterMap Command.name

theorem mem_names : name ∈ t.names ↔ ∃ c ∈ t.entries, c.name = some name :=
  List.mem_filterMap

theorem Distinct.nodup_names (h : t.Distinct) : t.names.Nodup :=
  List.pairwise_filterMap.mpr (h.imp fun hab n hn n' hn' heq => by
    subst heq
    exact hab n hn hn')

theorem length_names_le : t.names.length ≤ maxCommands :=
  t.size_eq ▸ List.length_filterMap_le ..

/-- There is no place for `name`. -/
theorem full_iff :
    t.entries.findIdx? (fun c => c.name.isNone || c.isNamed name) = none ↔
      t.names.length = maxCommands ∧ name ∉ t.names := by
  have hfull : t.names.length = maxCommands ↔ ∀ c ∈ t.entries, c.name ≠ none := by
    rw [names, List.length_filterMap_eq_countP, ← t.size_eq, List.countP_eq_length]
    simp only [Option.isSome_iff_ne_none]
  rw [hfull, mem_names, List.findIdx?_eq_none_iff]
  simp only [← Bool.not_eq_true, Bool.or_eq_true, not_or, Option.isNone_iff_eq_none,
    Command.isNamed_iff, not_exists, not_and]
  exact ⟨fun h => ⟨fun c hc => (h c hc).1, fun c hc => (h c hc).2⟩,
    fun h c hc => ⟨h.1 c hc, h.2 c hc⟩⟩

/-- The table is full of names other than `name`. -/
theorem Binds.full_iff (hreg : t.Binds reg) (ht : t.Ordered) :
    t.names.length = maxCommands ∧ name ∉ t.names ↔
      ∃ ns : List CString, ns.Nodup ∧ ns.length = maxCommands ∧ name ∉ ns ∧
        ∀ n ∈ ns, reg n ≠ none := by
  constructor
  · rintro ⟨hlength, hname⟩
    refine ⟨t.names, ht.distinct.nodup_names, hlength, hname, fun n hn => ?_⟩
    obtain ⟨c, hc, hcn⟩ := mem_names.mp hn
    rw [hreg.sound c hc n hcn]
    exact Option.some_ne_none c.cb
  · rintro ⟨ns, hnodup, hlength, hname, hused⟩
    have hsub : ∀ n ∈ ns, n ∈ t.names := by
      intro n hn
      obtain ⟨cb, hcb⟩ := Option.ne_none_iff_exists'.mp (hused n hn)
      exact mem_names.mpr (hreg.complete n cb hcb)
    have hle : ns.length ≤ t.names.length := (List.subperm_of_subset hnodup hsub).length_le
    have hmax : t.names.length ≤ maxCommands := length_names_le
    refine ⟨by omega, fun hmem => ?_⟩
    have hnodup' : (name :: ns).Nodup := List.nodup_cons.mpr ⟨hname, hnodup⟩
    have hsub' : ∀ n ∈ name :: ns, n ∈ t.names :=
      List.forall_mem_cons.mpr ⟨hmem, hsub⟩
    have hle' := (List.subperm_of_subset hnodup' hsub').length_le
    rw [List.length_cons] at hle'
    omega

end CommandTable

namespace Shell

/-- What holds after any calls that bind `reg`. -/
structure Registers (s : Shell) (reg : CString → Option ℕ) : Prop where
  ordered : s.commands.Ordered
  binds : s.commands.Binds reg
  notMasking : s.isMaskingAutoboot = false

variable {s s' : Shell} {reg : CString → Option ℕ} {q : Qsort Command}
  {name : CString} {desc : Option CString} {cb : ℕ}

theorem boot_registers (flags : UInt32) : (boot flags).Registers fun _ => none := by
  have hentry : ∀ c ∈ (boot flags).commands.entries, c.name = none := by
    intro c hc
    rw [List.eq_of_mem_replicate hc]
    rfl
  refine ⟨⟨?_, ?_⟩, ⟨fun c hc n hn => ?_, nofun⟩, rfl⟩
  · refine List.pairwise_iff_getElem.mpr fun i j hi hj _ hused => ?_
    exact absurd (hentry _ (List.getElem_mem hj)) hused
  · refine List.pairwise_iff_getElem.mpr fun i j hi hj _ m n hm => ?_
    rw [hentry _ (List.getElem_mem hi)] at hm
    cases hm
  · rw [hentry c hc] at hn
    cases hn

theorem commandRegister_eq (h : s.isMaskingAutoboot = false) :
    s.commandRegister q name desc cb =
      match s.commands.entries.findIdx? fun c => c.name.isNone || c.isNamed name with
      | some i => .ok (s.setCommands ((s.commands.set i ⟨some name, desc, cb⟩).sort q))
      | none => .error (.panic "too many commands") :=
  (if_neg (by simp [h])).trans rfl

theorem Registers.step {op : CommandOp} (h : s.Registers reg)
    (hop : op.run q s = .ok s') :
    s'.Registers fun n => if op.name = n then op.bound else reg n := by
  cases op with
  | register name desc cb =>
      rw [CommandOp.run, commandRegister_eq h.notMasking] at hop
      split at hop
      · rename_i i hi
        cases hop
        have hslot := CommandTable.findIdx_eq_some_iff.mp hi
        exact ⟨(hslot.distinct_set h.ordered rfl).sort,
          (hslot.binds_set h.ordered h.binds rfl).sort, h.notMasking⟩
      · cases hop
  | unregister name =>
      cases hop
      exact ⟨h.ordered.distinct.without.sort, h.binds.without.sort, h.notMasking⟩

/-- The induction is on the calls from the last one on. -/
theorem run_registers {flags : UInt32} (ops : List CommandOp)
    (h : runCommandOps q ops (boot flags) = .ok s) :
    s.Registers (registered ops) := by
  induction ops using List.reverseRecOn generalizing s with
  | nil =>
      cases h
      exact boot_registers flags
  | append_singleton ops op ih =>
      rw [runCommandOps, List.foldlM_append, Outcome.bind_eq_ok] at h
      obtain ⟨s₁, hops, hop⟩ := h
      rw [List.foldlM_cons, Outcome.bind_eq_ok] at hop
      obtain ⟨s₂, hop, hlast⟩ := hop
      cases hlast
      have hstep := (ih hops).step hop
      simpa only [← registered_concat] using hstep

end Shell

end PongoOS
