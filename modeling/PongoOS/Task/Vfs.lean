import Mathlib.Data.Finset.Option
import PongoOS.Support.Outcome
import PongoOS.Support.RefForest
import PongoOS.Support.Run

/-!
# File tables

Files, file descriptors and file tables count the references to them.  A
descriptor holds a reference to its file.  A file table would hold references
to descriptors, but nothing ever sets its `file_count`.
-/

namespace PongoOS

open Holders RefForest

inductive VfsObject where
  | file
  | filedesc (file : ℕ)
  | filetable (fileTable : List ℕ) (fileCount : ℕ)
deriving DecidableEq, Repr

namespace VfsObject

/-- The object that this one holds a reference to. -/
def parent : VfsObject → ℕ
  | filedesc f => f
  | _ => 0

theorem parent_eq_iff {o : VfsObject} {a : ℕ} (h0 : a ≠ 0) :
    o.parent = a ↔ o = .filedesc a := by
  cases o with
  | filedesc f => exact ⟨congrArg _, fun h => filedesc.inj h⟩
  | file => exact iff_of_false (Ne.symm h0) nofun
  | filetable t n => exact iff_of_false (Ne.symm h0) nofun

def fileCount : VfsObject → ℕ
  | filetable _ n => n
  | _ => 0

def entry : VfsObject → ℕ → ℕ
  | filetable t _, i => t.getD i 0
  | _, _ => 0

end VfsObject

/-- The objects at the addresses `live`. -/
structure Vfs where
  live : Finset ℕ
  refcount : ℕ → ℕ
  object : ℕ → VfsObject

namespace Vfs

@[simps]
def setRefcount (s : Vfs) (a n : ℕ) : Vfs :=
  { s with refcount := Function.update s.refcount a n }

@[simps]
def free (s : Vfs) (a : ℕ) : Vfs := { s with live := s.live.erase a }

/-- `malloc` has returned `a`, and the object has one reference. -/
@[simps]
def create (s : Vfs) (a : ℕ) (o : VfsObject) : Vfs where
  live := insert a s.live
  refcount := Function.update s.refcount a 1
  object := Function.update s.object a o

/-- What the three `_reference` functions do. -/
def reference (a : ℕ) (s : Vfs) : Vfs :=
  if a = 0 then s else s.setRefcount a ((s.refcount a + 1) % 2 ^ 32)

def filetableReference (filetable : ℕ) (s : Vfs) : Vfs := s.reference filetable

def filedescReference (fd : ℕ) (s : Vfs) : Vfs := s.reference fd

def fileReference (file : ℕ) (s : Vfs) : Vfs := s.reference file

/-- `__atomic_fetch_sub(&refcount, 1, __ATOMIC_SEQ_CST)`. -/
def dropRef (s : Vfs) (a : ℕ) : Vfs :=
  s.setRefcount a ((s.refcount a + 0xffffffff) % 2 ^ 32)

def fileRelease (file : ℕ) (s : Vfs) : Vfs :=
  if file = 0 then s
  else if s.refcount file = 1 then (s.dropRef file).free file
  else s.dropRef file

def filedescRelease (fd : ℕ) (s : Vfs) : Vfs :=
  if fd = 0 then s
  else if s.refcount fd = 1 then
    ((s.dropRef fd).fileRelease (s.object fd).parent).free fd
  else s.dropRef fd

def filetableRelease (filetable : ℕ) (s : Vfs) : Vfs :=
  if filetable = 0 then s
  else if s.refcount filetable = 1 then
    ((List.range (s.object filetable).fileCount).foldl
      (fun s i => s.filedescRelease ((s.object filetable).entry i))
      (s.dropRef filetable)).free filetable
  else s.dropRef filetable

def fileCreate (a : ℕ) (s : Vfs) : Vfs := s.create a .file

def filedescCreate (file a : ℕ) (s : Vfs) : Vfs :=
  (s.fileReference file).create a (.filedesc file)

/-- `FILETABLE_MAX_SIZE`. -/
def filetableMaxSize : ℕ := 512

def filetableCreate (size a : ℕ) (s : Vfs) : Outcome Vfs :=
  if filetableMaxSize < size then
    .error (.panic "filetable_create called with huge size")
  else pure (s.create a (.filetable (List.replicate size 0) 0))

/-! ## Counting -/

/-- `none` stands for the root, which no object has. -/
def forest (s : Vfs) : Forest (Option ℕ) where
  nodes := Finset.insertNone s.live
  count o := o.elim 0 s.refcount
  parent o := o.elim (some 0) fun a => some (s.object a).parent

/-- Every object counts the references `ext` and those of descriptors. -/
def Counted (ext : Option ℕ → ℕ) (s : Vfs) : Prop :=
  Counts (some 0) none (2 ^ 32) ext s.forest

section Counted

variable {s s' : Vfs} {ext ext' : Option ℕ → ℕ} {a p n : ℕ} {o : VfsObject}

theorem setRefcount_forest :
    (s.setRefcount a n).forest = s.forest.setCount (some a) n := by
  unfold forest Forest.setCount
  congr 1
  funext o
  cases o with
  | none => simp
  | some b => by_cases hb : b = a <;> simp [hb]

theorem free_forest : (s.free a).forest = s.forest.erase (some a) := by
  unfold forest Forest.erase
  congr 1
  ext o
  cases o <;> simp

theorem create_forest :
    (s.create a o).forest = s.forest.insert (some a) (some o.parent) := by
  unfold forest Forest.insert
  congr 1
  · ext b
    cases b <;> simp
  · funext b
    cases b with
    | none => simp
    | some b => by_cases hb : b = a <;> simp [hb]
  · funext b
    cases b with
    | none => simp
    | some b => by_cases hb : b = a <;> simp [hb]

theorem some_ne_null (h0 : a ≠ 0) : some a ≠ some 0 :=
  (Option.some_injective ℕ).ne h0

theorem mem_forest : some a ∈ s.forest.nodes ↔ a ∈ s.live := Finset.some_mem_insertNone

theorem Counted.bump_zero (h : s.Counted ext) : s.Counted (bump ext (some 0)) :=
  h.congr fun _ h0 _ => bump_of_ne ext (Ne.symm h0)

theorem Counted.of_bump_zero (h : s.Counted (bump ext (some 0))) : s.Counted ext :=
  h.congr fun _ h0 _ => (bump_of_ne ext (Ne.symm h0)).symm

theorem Counted.refcount (h : s.Counted ext) (ha : a ∈ s.live) :
    0 < s.refcount a ∧ s.refcount a < 2 ^ 32 :=
  (h.count (some a) (mem_forest.mpr ha) (Option.some_ne_none a)).2

theorem Counted.mem (h : s.Counted (bump ext (some a))) (h0 : a ≠ 0) : a ∈ s.live :=
  mem_forest.mp (Counts.mem h (some_ne_null h0))

theorem Counted.reference (h : s.Counted ext) (ha : a = 0 ∨ a ∈ s.live)
    (hroom : s.refcount a + 1 < 2 ^ 32) :
    (s.reference a).Counted (bump ext (some a)) := by
  unfold Vfs.reference
  split_ifs with h0
  · subst h0
    exact h.bump_zero
  · unfold Counted
    rw [Nat.mod_eq_of_lt hroom, setRefcount_forest]
    exact h.take (mem_forest.mpr (ha.resolve_left h0)) (Option.some_ne_none a)
      hroom.ne

theorem Counted.create (h : s.Counted (bump ext (some o.parent))) (h0 : a ≠ 0)
    (ha : a ∉ s.live) : (s.create a o).Counted (bump ext (some a)) := by
  unfold Counted
  rw [create_forest]
  refine h.insert (some_ne_null h0) ?_ (by decide)
  rwa [mem_forest]

/-- One of several references is dropped. -/
theorem Counted.dropRef (h : s.Counted (bump ext (some a))) (h0 : a ≠ 0)
    (hlast : s.refcount a ≠ 1) : (s.dropRef a).Counted ext := by
  have hmod : (s.refcount a + 0xffffffff) % 2 ^ 32 = s.refcount a - 1 := by
    have := h.refcount (h.mem h0)
    omega
  unfold Counted Vfs.dropRef
  rw [hmod, setRefcount_forest]
  exact h.drop hlast

/-- The last reference is dropped, and the object leaves its own to others. -/
theorem Counted.free (h : s.Counted (bump ext (some a))) (h0 : a ≠ 0)
    (hone : s.refcount a = 1) :
    ((s.dropRef a).free a).Counted (bump ext (some (s.object a).parent)) := by
  unfold Counted Vfs.dropRef
  rw [free_forest, setRefcount_forest]
  exact h.erase (some_ne_null h0) (Option.some_ne_none a) hone _

theorem Counted.fileRelease (h : s.Counted (bump ext (some a)))
    (ha : a ≠ 0 → s.object a = .file) : (s.fileRelease a).Counted ext := by
  unfold Vfs.fileRelease
  split_ifs with h0 hone
  · subst h0
    exact h.of_bump_zero
  · have hfree := h.free h0 hone
    rw [ha h0] at hfree
    exact hfree.of_bump_zero
  · exact h.dropRef h0 hone

/-- The file of a descriptor is released before the descriptor is freed. -/
theorem fileRelease_free :
    (s.fileRelease p).free a = (s.free a).fileRelease p := by
  unfold Vfs.fileRelease Vfs.dropRef
  rw [free_refcount]
  split_ifs
  · rfl
  · simp only [Vfs.free, Vfs.setRefcount, Finset.erase_right_comm]
  · rfl

theorem Counted.filedescRelease (h : s.Counted (bump ext (some a)))
    (ha : a ≠ 0 → ∃ f, s.object a = .filedesc f ∧ (f ≠ 0 → s.object f = .file)) :
    (s.filedescRelease a).Counted ext := by
  unfold Vfs.filedescRelease
  split_ifs with h0 hone
  · subst h0
    exact h.of_bump_zero
  · obtain ⟨f, hobject, hfile⟩ := ha h0
    have hfree := h.free h0 hone
    rw [fileRelease_free]
    rw [hobject] at hfree ⊢
    exact hfree.fileRelease hfile
  · exact h.dropRef h0 hone

theorem Counted.filetableRelease (h : s.Counted (bump ext (some a)))
    (hparent : (s.object a).parent = 0) (hcount : (s.object a).fileCount = 0) :
    (s.filetableRelease a).Counted ext := by
  unfold Vfs.filetableRelease
  split_ifs with h0 hone
  · subst h0
    exact h.of_bump_zero
  · have hfree := h.free h0 hone
    rw [hparent] at hfree
    rw [hcount]
    exact hfree.of_bump_zero
  · exact h.dropRef h0 hone

theorem Counted.parent_mem (h : s.Counted ext) (ha : a ∈ s.live)
    (h0 : (s.object a).parent ≠ 0) : (s.object a).parent ∈ s.live := by
  have hmem := h.parent (some a) (mem_forest.mpr ha)
  exact mem_forest.mp (hmem (some_ne_null h0))

/-- The descriptors of a file. -/
def filedescs (s : Vfs) (file : ℕ) : Finset ℕ :=
  s.live.filter fun fd => s.object fd = .filedesc file

theorem holders_forest (h0 : a ≠ 0) :
    holders s.forest.nodes s.forest.parent (some a) = (s.filedescs a).card := by
  have hfilter : (s.forest.nodes.filter fun o => s.forest.parent o = some a) =
      (s.filedescs a).map .some := by
    ext o
    cases o with
    | none =>
        refine iff_of_false ?_ (by simp)
        intro hmem
        have hnone : some 0 = some a := (Finset.mem_filter.mp hmem).2
        exact some_ne_null h0 hnone.symm
    | some b =>
        have hparent : s.forest.parent (some b) = some (s.object b).parent := rfl
        rw [Finset.mem_filter, mem_forest, hparent, Option.some_inj,
          VfsObject.parent_eq_iff h0]
        simp [filedescs]
  unfold holders
  rw [hfilter, Finset.card_map]

/-! ## What the objects are -/

/-- Descriptors are of files, and no file table has entries. -/
structure Typed (s : Vfs) : Prop where
  file : ∀ a ∈ s.live, ∀ f, s.object a = .filedesc f → f ≠ 0 → s.object f = .file
  fileCount : ∀ a ∈ s.live, (s.object a).fileCount = 0

theorem Typed.mono (h : s.Typed) (hobject : s'.object = s.object)
    (hlive : s'.live ⊆ s.live) : s'.Typed where
  file a ha := by
    rw [hobject]
    exact h.file a (hlive ha)
  fileCount a ha := by
    rw [hobject]
    exact h.fileCount a (hlive ha)

theorem Typed.create (h : s.Typed) (hs : s.Counted ext) (ha : a ∉ s.live)
    (hfile : ∀ f, o = .filedesc f → f ≠ 0 → f ∈ s.live ∧ s.object f = .file)
    (hcount : o.fileCount = 0) : (s.create a o).Typed := by
  have hold : ∀ b ∈ s.live, Function.update s.object a o b = s.object b := by
    intro b hb
    apply Function.update_of_ne
    rintro rfl
    exact ha hb
  constructor
  · intro b hb f hobject h0
    rw [create_object] at hobject ⊢
    rcases Finset.mem_insert.mp hb with rfl | hb
    · rw [Function.update_self] at hobject
      obtain ⟨hf, hkind⟩ := hfile f hobject h0
      rw [hold f hf]
      exact hkind
    · rw [hold b hb] at hobject
      have hf : f ∈ s.live := by
        have := hs.parent_mem hb
        rw [hobject] at this
        exact this h0
      rw [hold f hf]
      exact h.file b hb f hobject h0
  · intro b hb
    rw [create_object]
    rcases Finset.mem_insert.mp hb with rfl | hb
    · rw [Function.update_self]
      exact hcount
    · rw [hold b hb]
      exact h.fileCount b hb

theorem reference_object : (s.reference a).object = s.object := by
  unfold Vfs.reference
  split_ifs <;> rfl

theorem reference_live : (s.reference a).live = s.live := by
  unfold Vfs.reference
  split_ifs <;> rfl

theorem fileRelease_object : (s.fileRelease a).object = s.object := by
  unfold Vfs.fileRelease
  split_ifs <;> rfl

theorem fileRelease_live : (s.fileRelease a).live ⊆ s.live := by
  unfold Vfs.fileRelease
  split_ifs
  · exact Finset.Subset.refl _
  · exact Finset.erase_subset _ _
  · exact Finset.Subset.refl _

theorem filedescRelease_object : (s.filedescRelease a).object = s.object := by
  unfold Vfs.filedescRelease
  split_ifs
  · rfl
  · exact fileRelease_object
  · rfl

theorem filedescRelease_live : (s.filedescRelease a).live ⊆ s.live := by
  unfold Vfs.filedescRelease
  split_ifs
  · exact Finset.Subset.refl _
  · exact (Finset.erase_subset _ _).trans fileRelease_live
  · exact Finset.Subset.refl _

theorem filetableRelease_frame (hcount : (s.object a).fileCount = 0) :
    (s.filetableRelease a).object = s.object ∧
      (s.filetableRelease a).live ⊆ s.live := by
  unfold Vfs.filetableRelease
  split_ifs
  · exact ⟨rfl, Finset.Subset.refl _⟩
  · rw [hcount]
    exact ⟨rfl, Finset.erase_subset _ _⟩
  · exact ⟨rfl, Finset.Subset.refl _⟩

end Counted

end Vfs

/-! ## Calls -/

/-- `held a` is the number of references to `a` that callers have. -/
structure VfsUse where
  vfs : Vfs
  held : ℕ → ℕ

namespace VfsUse

/-- A caller can get at `a`, by itself or as the file of a descriptor. -/
def Reaches (u : VfsUse) (a : ℕ) : Prop :=
  a = 0 ∨ 0 < u.held a ∨
    ∃ fd, fd ≠ 0 ∧ 0 < u.held fd ∧ u.vfs.object fd = .filedesc a

/-- `malloc` can return `a`. -/
def Fresh (u : VfsUse) (a : ℕ) : Prop := a ≠ 0 ∧ a ∉ u.vfs.live

/-- The count of `a` does not wrap. -/
def Room (u : VfsUse) (a : ℕ) : Prop := u.vfs.refcount a + 1 < 2 ^ 32

/-- A caller gives its reference to `a` back. -/
def GivesBack (u : VfsUse) (a : ℕ) (u' : VfsUse) : Prop :=
  if a = 0 then u'.held = u.held else u.held = bump u'.held a

end VfsUse

inductive VfsCall where
  | fileCreate (a : ℕ)
  | filedescCreate (file a : ℕ)
  | filetableCreate (size a : ℕ)
  /-- One of the three `_reference` functions. -/
  | reference (a : ℕ)
  | fileRelease (file : ℕ)
  | filedescRelease (fd : ℕ)
  | filetableRelease (filetable : ℕ)

def VfsStep (u : VfsUse) : VfsCall → VfsUse → Prop
  | .fileCreate a, u' => u.Fresh a ∧ u' = ⟨u.vfs.fileCreate a, bump u.held a⟩
  | .filedescCreate file a, u' => u.Fresh a ∧ u.Reaches file ∧ u.Room file ∧
      (file ≠ 0 → u.vfs.object file = .file) ∧
      u' = ⟨u.vfs.filedescCreate file a, bump u.held a⟩
  | .filetableCreate size a, u' => u.Fresh a ∧ ∃ vfs,
      u.vfs.filetableCreate size a = .ok vfs ∧ u' = ⟨vfs, bump u.held a⟩
  | .reference a, u' => u.Reaches a ∧ u.Room a ∧
      u' = ⟨u.vfs.reference a, bump u.held a⟩
  | .fileRelease a, u' => (a ≠ 0 → u.vfs.object a = .file) ∧ u.GivesBack a u' ∧
      u'.vfs = u.vfs.fileRelease a
  | .filedescRelease a, u' => (a ≠ 0 → ∃ f, u.vfs.object a = .filedesc f) ∧
      u.GivesBack a u' ∧ u'.vfs = u.vfs.filedescRelease a
  | .filetableRelease a, u' =>
      (a ≠ 0 → ∃ t n, u.vfs.object a = .filetable t n) ∧
      u.GivesBack a u' ∧ u'.vfs = u.vfs.filetableRelease a

namespace VfsUse

variable {u u' : VfsUse} {a : ℕ}

/-- The references from outside. -/
def outside (held : ℕ → ℕ) : Option ℕ → ℕ := fun o => o.elim 0 held

theorem outside_bump {held : ℕ → ℕ} :
    outside (bump held a) = bump (outside held) (some a) := by
  funext o
  cases o with
  | none => rfl
  | some b => by_cases hab : a = b <;> simp [outside, bump, hab]

/-- The counts are right and the objects are what they are used as. -/
structure Valid (u : VfsUse) : Prop where
  counted : u.vfs.Counted (outside u.held)
  typed : u.vfs.Typed

theorem Valid.held_mem (h : u.Valid) (h0 : a ≠ 0) (ha : 0 < u.held a) :
    a ∈ u.vfs.live := by
  apply Vfs.mem_forest.mp
  exact h.counted.outside (some a) (Vfs.some_ne_null h0) ha

/-- What a caller can get at has not been freed. -/
theorem Valid.reaches_mem (h : u.Valid) (ha : u.Reaches a) :
    a = 0 ∨ a ∈ u.vfs.live := by
  by_cases h0 : a = 0
  · exact .inl h0
  right
  obtain ha | ha | ⟨fd, hfd, hheld, hobject⟩ := ha
  · exact absurd ha h0
  · exact h.held_mem h0 ha
  · have hparent := h.counted.parent_mem (h.held_mem hfd hheld)
    rw [hobject] at hparent
    exact hparent h0

theorem Valid.givesBack (h : u.Valid) (hback : u.GivesBack a u') :
    u.vfs.Counted (bump (outside u'.held) (some a)) := by
  unfold GivesBack at hback
  split_ifs at hback with h0
  · subst h0
    rw [hback]
    exact h.counted.bump_zero
  · rw [← outside_bump, ← hback]
    exact h.counted

/-- A new object, given a reference to the one it refers to. -/
theorem Valid.create {o : VfsObject} {vfs : Vfs} (h : u.Valid) (hfresh : u.Fresh a)
    (hlive : vfs.live = u.vfs.live) (hobject : vfs.object = u.vfs.object)
    (hcounted : vfs.Counted (bump (outside u.held) (some o.parent)))
    (hfile : ∀ f, o = .filedesc f → f ≠ 0 →
      f ∈ u.vfs.live ∧ u.vfs.object f = .file)
    (hcount : o.fileCount = 0) : Valid ⟨vfs.create a o, bump u.held a⟩ := by
  obtain ⟨h0, ha⟩ := hfresh
  rw [← hlive] at ha
  constructor
  · have hnew := hcounted.create h0 ha
    rwa [← outside_bump] at hnew
  · refine (h.typed.mono hobject hlive.subset).create hcounted ha ?_ hcount
    rwa [hlive, hobject]

theorem Valid.step {c : VfsCall} (h : u.Valid) (hstep : VfsStep u c u') :
    u'.Valid := by
  cases c with
  | fileCreate a =>
      obtain ⟨hfresh, rfl⟩ := hstep
      exact h.create hfresh rfl rfl h.counted.bump_zero nofun rfl
  | filedescCreate file a =>
      obtain ⟨hfresh, hreaches, hroom, hfile, rfl⟩ := hstep
      have hmem := h.reaches_mem hreaches
      refine h.create hfresh Vfs.reference_live Vfs.reference_object
        (h.counted.reference hmem hroom) ?_ rfl
      rintro f hf h0
      obtain rfl := VfsObject.filedesc.inj hf
      exact ⟨hmem.resolve_left h0, hfile h0⟩
  | filetableCreate size a =>
      obtain ⟨hfresh, vfs, hok, rfl⟩ := hstep
      unfold Vfs.filetableCreate at hok
      split_ifs at hok
      rw [Outcome.pure_eq_ok] at hok
      subst hok
      exact h.create hfresh rfl rfl h.counted.bump_zero nofun rfl
  | reference a =>
      obtain ⟨hreaches, hroom, rfl⟩ := hstep
      constructor
      · have hmore := h.counted.reference (h.reaches_mem hreaches) hroom
        rwa [← outside_bump] at hmore
      · exact h.typed.mono Vfs.reference_object Vfs.reference_live.subset
  | fileRelease a =>
      obtain ⟨hfile, hback, hvfs⟩ := hstep
      have hcounted := h.givesBack hback
      constructor
      · rw [hvfs]
        exact hcounted.fileRelease hfile
      · rw [hvfs]
        exact h.typed.mono Vfs.fileRelease_object Vfs.fileRelease_live
  | filedescRelease a =>
      obtain ⟨hfiledesc, hback, hvfs⟩ := hstep
      have hcounted := h.givesBack hback
      constructor
      · rw [hvfs]
        refine hcounted.filedescRelease ?_
        intro h0
        obtain ⟨f, hobject⟩ := hfiledesc h0
        exact ⟨f, hobject, h.typed.file a (hcounted.mem h0) f hobject⟩
      · rw [hvfs]
        exact h.typed.mono Vfs.filedescRelease_object Vfs.filedescRelease_live
  | filetableRelease a =>
      obtain ⟨hfiletable, hback, hvfs⟩ := hstep
      have hcounted := h.givesBack hback
      by_cases h0 : a = 0
      · subst h0
        have hsame : u.vfs.filetableRelease 0 = u.vfs := if_pos rfl
        rw [hsame] at hvfs
        exact ⟨hvfs ▸ hcounted.of_bump_zero, hvfs ▸ h.typed⟩
      · obtain ⟨t, n, hobject⟩ := hfiletable h0
        have hcount := h.typed.fileCount a (hcounted.mem h0)
        obtain ⟨hsame, hlive⟩ := Vfs.filetableRelease_frame hcount
        constructor
        · rw [hvfs]
          refine hcounted.filetableRelease ?_ hcount
          rw [hobject]
          rfl
        · rw [hvfs]
          exact h.typed.mono hsame hlive

theorem valid_of_empty (hlive : u.vfs.live = ∅) (hheld : ∀ a, u.held a = 0) :
    u.Valid := by
  have hnodes : ∀ a, some a ∉ u.vfs.forest.nodes := by
    intro a
    rw [Vfs.mem_forest, hlive]
    exact Finset.notMem_empty a
  refine ⟨⟨?_, ?_, ?_, Finset.none_mem_insertNone, hnodes 0⟩, ⟨?_, ?_⟩⟩
  · rintro (_ | a) ha hroot
    · exact absurd rfl hroot
    · exact absurd ha (hnodes a)
  · rintro (_ | a) - hpos
    · exact absurd hpos (lt_irrefl 0)
    · exact absurd (hheld a) hpos.ne'
  · rintro (_ | a) ha hparent
    · exact absurd rfl hparent
    · exact absurd ha (hnodes a)
  · intro a ha
    rw [hlive] at ha
    exact absurd ha (Finset.notMem_empty a)
  · intro a ha
    rw [hlive] at ha
    exact absurd ha (Finset.notMem_empty a)

theorem Valid.refcount (h : u.Valid) (ha : a ∈ u.vfs.live) :
    u.vfs.refcount a = u.held a + (u.vfs.filedescs a).card := by
  have h0 : a ≠ 0 := by
    rintro rfl
    exact h.counted.null (Vfs.mem_forest.mpr ha)
  rw [← Vfs.holders_forest h0]
  exact (h.counted.count (some a) (Vfs.mem_forest.mpr ha) (Option.some_ne_none a)).1

theorem Valid.live_iff (h : u.Valid) (h0 : a ≠ 0) :
    a ∈ u.vfs.live ↔ 0 < u.held a ∨ (u.vfs.filedescs a).Nonempty := by
  have hiff := h.counted.mem_iff (Vfs.some_ne_null h0) (Option.some_ne_none a)
  rw [Vfs.mem_forest, Vfs.holders_forest h0] at hiff
  rw [hiff, ← Finset.card_pos]
  exact Nat.add_pos_iff_pos_or_pos

end VfsUse

/-- An object exists as long as something refers to it, and counts what does. -/
theorem vfsCalls_counted {u u' : VfsUse} {calls : List VfsCall}
    (hlive : u.vfs.live = ∅) (hheld : ∀ a, u.held a = 0)
    (h : Run VfsStep u calls u') :
    (∀ a ∈ u'.vfs.live,
      u'.vfs.refcount a = u'.held a + (u'.vfs.filedescs a).card) ∧
    (∀ a, a ≠ 0 → (a ∈ u'.vfs.live ↔
      0 < u'.held a ∨ (u'.vfs.filedescs a).Nonempty)) ∧
    ∀ a ∈ u'.vfs.live, (u'.vfs.object a).fileCount = 0 := by
  have hstep : ∀ a c b, VfsUse.Valid a → VfsStep a c b → VfsUse.Valid b :=
    fun _ _ _ ha hc => ha.step hc
  have hvalid := h.invariant hstep (VfsUse.valid_of_empty hlive hheld)
  refine ⟨?_, ?_, hvalid.typed.fileCount⟩
  · intro a ha
    exact hvalid.refcount ha
  · intro a h0
    exact hvalid.live_iff h0

def vfsBoot : VfsUse := ⟨⟨∅, fun _ => 0, fun _ => .file⟩, fun _ => 0⟩

/-- A file that only its descriptor refers to. -/
theorem vfsCalls_counted_vfsBoot : ∃ u', Run VfsStep vfsBoot
      [.fileCreate 8, .filedescCreate 8 16, .fileRelease 8] u' ∧
    u'.vfs.refcount 8 = 1 ∧ 8 ∈ u'.vfs.live ∧
    (∀ a ∈ u'.vfs.live,
      u'.vfs.refcount a = u'.held a + (u'.vfs.filedescs a).card) ∧
    (∀ a, a ≠ 0 → (a ∈ u'.vfs.live ↔
      0 < u'.held a ∨ (u'.vfs.filedescs a).Nonempty)) ∧
    ∀ a ∈ u'.vfs.live, (u'.vfs.object a).fileCount = 0 := by
  let u₁ : VfsUse := ⟨vfsBoot.vfs.fileCreate 8, bump vfsBoot.held 8⟩
  let u₂ : VfsUse := ⟨u₁.vfs.filedescCreate 8 16, bump u₁.held 16⟩
  let u₃ : VfsUse := ⟨u₂.vfs.fileRelease 8, bump vfsBoot.held 16⟩
  have hcreate : VfsStep vfsBoot (.fileCreate 8) u₁ :=
    ⟨⟨by decide, by decide⟩, rfl⟩
  have hroom : u₁.Room 8 := by
    unfold VfsUse.Room
    decide
  have hfiledesc : VfsStep u₁ (.filedescCreate 8 16) u₂ :=
    ⟨⟨by decide, by decide⟩, .inr (.inl (by decide)), hroom, fun _ => rfl, rfl⟩
  have hrelease : VfsStep u₂ (.fileRelease 8) u₃ := by
    refine ⟨fun _ => rfl, ?_, rfl⟩
    funext a
    exact Nat.add_right_comm _ _ _
  have hrun := Run.cons hcreate (.cons hfiledesc (.single hrelease))
  exact ⟨u₃, hrun, by decide +kernel, by decide +kernel,
    vfsCalls_counted rfl (fun _ => rfl) hrun⟩

end PongoOS
