import Mathlib.Data.List.Infix
import PongoOS.Support.Nesting

/-!
# The prelink information

Without `__kmod_info` the header of a kext is found in the property list of the
`__info` section.  It is read with string searches only: one visits the
dictionaries of the array of `PrelinkInfoDictionary`, and in each of them the
bundle identifier is looked up.

The text is the C string at the base of the section, without its `NUL`, and a
pointer into it is an offset.
-/

namespace PongoOS
namespace Prelink

open Nesting

/-- `pat` stands at `i`. -/
def At (text pat : List UInt8) (i : ℕ) : Prop := pat <+: text.drop i

instance (text pat : List UInt8) : DecidablePred (At text pat) :=
  fun i => inferInstanceAs (Decidable (pat <+: text.drop i))

/-- The first place of `pat` in the characters that stand from `i` on. -/
def searchFrom (pat : List UInt8) : List UInt8 → ℕ → Option ℕ
  | [], _ => none
  | c :: cs, i => if pat <+: c :: cs then some i else searchFrom pat cs (i + 1)

def strstr (text pat : List UInt8) (i : ℕ) : Option ℕ :=
  searchFrom pat (text.drop i) i

def memmem (text : List UInt8) (i n : ℕ) (pat : List UInt8) : Option ℕ :=
  searchFrom pat ((text.drop i).take n) i

def infoDict : List UInt8 := "PrelinkInfoDictionary".toUTF8.toList
def arrayOpen : List UInt8 := "<array>".toUTF8.toList
def dictOpen : List UInt8 := "<dict>".toUTF8.toList
def dictClose : List UInt8 := "</dict>".toUTF8.toList
def bundleIdentifier : List UInt8 := "CFBundleIdentifier".toUTF8.toList
def stringOpen : List UInt8 := "<string>".toUTF8.toList
def stringClose : List UInt8 := "</string>".toUTF8.toList
def loadAddr : List UInt8 := "_PrelinkExecutableLoadAddr".toUTF8.toList
def integerOpen : List UInt8 := "<integer".toUTF8.toList
def tagEnd : List UInt8 := ">".toUTF8.toList

/-- `sizeof(kname)`. -/
def knameSize : ℕ := 256

inductive ScanError where
  /-- `strstr` is given `NULL`, or seven bytes behind it. -/
  | nullText
  /-- `end_dict` is `NULL` where the identifier is searched. -/
  | nullEnd
  /-- The identifier and its `NUL` do not fit into `kname`. -/
  | knameOverrun
  /-- A loop has not ended. -/
  | unfinished
deriving DecidableEq, Repr

/-- `last_dict` and `end_dict` where the identifier is searched. -/
structure Visit where
  lastDict : ℕ
  endDict : ℕ
deriving DecidableEq, Repr

/-- The loop over `nested_dict`; `none` is `NULL`, and no pointer is below it. -/
def findEnd (text : List UInt8) : ℕ → Option ℕ → Option ℕ →
    Except ScanError (Option ℕ)
  | _, none, e => .ok e
  | 0, some _, _ => .error .unfinished
  | _ + 1, some _, none => .ok none
  | f + 1, some n, some e =>
      if e < n then .ok (some e)
      else findEnd text f (strstr text dictOpen (n + 1))
        (strstr text dictClose (e + 1))

/-- Where the value of the identifier starts and ends. -/
def kextIdent (text : List UInt8) (v : Visit) : Option (ℕ × ℕ) := do
  let ident ← memmem text v.lastDict (v.endDict - v.lastDict) bundleIdentifier
  let tag ← strstr text stringOpen ident
  let valueEnd ← strstr text stringClose (tag + stringOpen.length)
  return (tag + stringOpen.length, valueEnd)

/-- Where the number of the load address starts. -/
def kextAddr (text : List UInt8) (v : Visit) : Option ℕ := do
  let addr ← memmem text v.lastDict (v.endDict - v.lastDict) loadAddr
  let avalue ← strstr text integerOpen addr
  let avalue ← strstr text tagEnd avalue
  return avalue + 1

/-- What is done with one dictionary: `some` is the load address that is
returned for `kext_bundle_id`. -/
def kextBody (text id : List UInt8) (v : Visit) :
    Except ScanError (Option ℕ) :=
  match kextIdent text v with
  | none => .ok none
  | some (value, valueEnd) =>
      if knameSize ≤ valueEnd - value then .error .knameOverrun
      else if (text.drop value).take (valueEnd - value) = id then
        .ok (kextAddr text v)
      else .ok none

/-- The loop over `last_dict`, with the dictionaries that it has visited and the
load address that ends it. -/
def scanDicts (text id : List UInt8) : ℕ → Option ℕ →
    Except ScanError (List Visit × Option ℕ)
  | _, none => .ok ([], none)
  | 0, some _ => .error .unfinished
  | f + 1, some d =>
      match strstr text dictClose d with
      | none => .ok ([], none)
      | some e => do
          match ← findEnd text (text.length + 1)
            (strstr text dictOpen (d + 1)) (some e) with
          | none => .error .nullEnd
          | some e =>
              match ← kextBody text id ⟨d, e⟩ with
              | some addr => .ok ([⟨d, e⟩], some addr)
              | none => do
                  let (vs, r) ← scanDicts text id f (strstr text dictOpen e)
                  .ok (⟨d, e⟩ :: vs, r)

/-- `xnu_pf_get_kext_header` where there is no `__kmod_info`, up to the number
that the header's address is made from. -/
def xnuPfGetKextHeader (text id : List UInt8) :
    Except ScanError (List Visit × Option ℕ) :=
  match strstr text infoDict 0 with
  | none => .error .nullText
  | some prelinkinfo =>
      match strstr text arrayOpen prelinkinfo with
      | none => .error .nullText
      | some q => scanDicts text id (text.length + 1) (some (q + 7))

/-! ## The searches -/

theorem At.lt_length {text pat : List UInt8} {i : ℕ} (h : At text pat i)
    (hpat : pat ≠ []) : i < text.length := by
  by_contra hge
  rw [At, List.drop_eq_nil_of_le (by omega)] at h
  exact hpat (List.prefix_nil.1 h)

theorem searchFrom_next {text pat : List UInt8} (hpat : pat ≠ []) :
    ∀ {cs : List UInt8} {i : ℕ}, text.drop i = cs →
    NextFrom (At text pat) i (searchFrom pat cs i)
  | [], i, hcs => by
      intro j hij hat
      have hlt := hat.lt_length hpat
      have hle := List.drop_eq_nil_iff.1 hcs
      omega
  | c :: cs, i, hcs => by
      rw [searchFrom]
      split
      · next hpre =>
          refine ⟨le_rfl, ?_, fun j hij hji => by omega⟩
          rw [At, hcs]
          exact hpre
      · next hnot =>
          have hrest : text.drop (i + 1) = cs := by
            rw [← List.tail_drop, hcs, List.tail_cons]
          refine .of_succ ?_ (searchFrom_next hpat hrest)
          rw [At, hcs]
          exact hnot

theorem strstr_next (text : List UInt8) {pat : List UInt8} (hpat : pat ≠ [])
    (i : ℕ) : NextFrom (At text pat) i (strstr text pat i) :=
  searchFrom_next hpat rfl

theorem infix_of_searchFrom {pat : List UInt8} : ∀ {cs : List UInt8} {i k : ℕ},
    searchFrom pat cs i = some k → pat <:+: cs
  | [], _, _, h => nomatch h
  | c :: cs, i, k, h => by
      rw [searchFrom] at h
      split at h
      · next hpre => exact hpre.isInfix
      · exact (infix_of_searchFrom h).trans (List.suffix_cons c cs).isInfix

theorem dictOpen_ne_nil : dictOpen ≠ [] := by decide +kernel

theorem dictClose_ne_nil : dictClose ≠ [] := by decide +kernel

/-- No tag is both. -/
theorem not_dictClose_of_dictOpen {text : List UInt8} (i : ℕ)
    (hopen : At text dictOpen i) : ¬ At text dictClose i := by
  intro hclose
  have hpre := List.prefix_of_prefix_length_le hopen hclose
    (by decide +kernel)
  exact absurd hpre (by decide +kernel)

/-! ## The end of a dictionary -/

variable {text id : List UInt8} {a z : ℕ}

/-- `j` is the `</dict>` that belongs to the `<dict>` at `i`. -/
abbrev Closes (text : List UInt8) (i j : ℕ) : Prop :=
  Matches (At text dictOpen) (At text dictClose) i j

theorem findEnd_spec (hb : Balanced (At text dictOpen) (At text dictClose) a z)
    {i : ℕ} (hai : a ≤ i) : ∀ {f : ℕ} {n : Option ℕ} {e : ℕ},
    Searching (At text dictOpen) (At text dictClose) z i n e →
    text.length - e < f →
    ∃ e', findEnd text f n (some e) = .ok (some e') ∧ Closes text i e'
  | f, none, e, h, _ =>
      ⟨e, findEnd.eq_1 .., h.found fun _ hm => nomatch hm⟩
  | 0, some _, _, _, hf => absurd hf (Nat.not_lt_zero _)
  | f + 1, some n, e, h, hf => by
      rw [findEnd]
      split
      · next hen =>
          exact ⟨e, rfl, h.found fun m hm => Option.some.inj hm ▸ hen⟩
      · next hen =>
          obtain ⟨e', he', hlt, hsearch⟩ := h.next hb hai (Nat.not_lt.1 hen)
            (strstr_next text dictOpen_ne_nil (n + 1))
            (strstr_next text dictClose_ne_nil (e + 1))
          have hlen := h.close.lt_length dictClose_ne_nil
          rw [he']
          exact findEnd_spec hb hai hsearch (by omega)

/-- The two searches find the end of an outermost dictionary. -/
theorem findEnd_outermost
    (hb : Balanced (At text dictOpen) (At text dictClose) a z) {d : ℕ}
    (had : a ≤ d) (hdz : d < z)
    (hd : Outermost (At text dictOpen) (At text dictClose) a d) :
    ∃ e e', strstr text dictClose d = some e ∧
      findEnd text (text.length + 1) (strstr text dictOpen (d + 1)) (some e) =
        .ok (some e') ∧ Closes text d e' := by
  obtain ⟨k, hdk, hkz, hk⟩ := hb.exists_close hd hdz
  have hnext := strstr_next text dictClose_ne_nil d
  cases he : strstr text dictClose d with
  | none =>
      rw [he] at hnext
      exact absurd hk (hnext k hdk)
  | some e =>
      rw [he] at hnext
      have hek : e ≤ k := by
        by_contra hlt
        exact hnext.2.2 k hdk (by omega) hk
      have hsearch := Searching.start hd.1
        (strstr_next text dictOpen_ne_nil (d + 1)) hnext
        (not_dictClose_of_dictOpen d hd.1) (show e < z by omega)
      obtain ⟨e', hfind, hcloses⟩ := findEnd_spec hb had hsearch
        (show text.length - e < text.length + 1 by omega)
      exact ⟨e, e', rfl, hfind, hcloses⟩

/-! ## The dictionaries in order -/

/-- What the loop does if it is given the dictionaries one after the other. -/
def visitAll (text id : List UInt8) : List Visit →
    Except ScanError (List Visit × Option ℕ)
  | [] => .ok ([], none)
  | v :: vs => do
      match ← kextBody text id v with
      | some addr => .ok ([v], some addr)
      | none => do
          let (ws, r) ← visitAll text id vs
          .ok (v :: ws, r)

/-- The dictionaries of the array from `d` on that are in no other one. -/
abbrev topDictsFrom (text : List UInt8) (a z d : ℕ) : List ℕ :=
  outermostFrom (At text dictOpen) (At text dictClose) a z d

theorem scanDicts_step {f d e e' : ℕ} (he : strstr text dictClose d = some e)
    (hfind : findEnd text (text.length + 1) (strstr text dictOpen (d + 1))
      (some e) = .ok (some e')) :
    scanDicts text id (f + 1) (some d) = (do
      match ← kextBody text id ⟨d, e'⟩ with
      | some addr => .ok ([⟨d, e'⟩], some addr)
      | none => do
          let (vs, r) ← scanDicts text id f (strstr text dictOpen e')
          .ok (⟨d, e'⟩ :: vs, r)) := by
  rw [scanDicts, he]
  simp only [hfind]
  rfl

theorem scanDicts_eq_visitAll
    (hb : Balanced (At text dictOpen) (At text dictClose) a z)
    (hlast : strstr text dictOpen z = none) : ∀ {f d : ℕ}, a ≤ d → d < z →
    Outermost (At text dictOpen) (At text dictClose) a d →
    text.length - d < f →
    ∃ vs : List Visit, vs.map Visit.lastDict = topDictsFrom text a z d ∧
      (∀ v ∈ vs, Closes text v.lastDict v.endDict) ∧
      scanDicts text id f (some d) = visitAll text id vs
  | 0, _, _, _, _, hf => absurd hf (Nat.not_lt_zero _)
  | f + 1, d, had, hdz, hd, hf => by
      obtain ⟨e, e', he, hfind, hcloses⟩ := findEnd_outermost hb had hdz hd
      have hnext := strstr_next text dictOpen_ne_nil e'
      have hdicts : topDictsFrom text a z d = d :: topDictsFrom text a z (d + 1) :=
        outermostFrom_cons hd hdz
      rw [scanDicts_step he hfind]
      cases hm : strstr text dictOpen e' with
      | none =>
          rw [hm] at hnext
          have hnil : topDictsFrom text a z (d + 1) = [] :=
            outermostFrom_nil (hcloses.no_more_outermost hd.2 hnext)
          refine ⟨[⟨d, e'⟩], ?_, by simpa using hcloses, ?_⟩
          · rw [hdicts, hnil]
            rfl
          · rw [scanDicts.eq_1]
            rfl
      | some m =>
          rw [hm] at hnext
          have hmz : m < z := by
            by_contra hge
            have hnone := strstr_next text dictOpen_ne_nil z
            rw [hlast] at hnone
            exact hnone m (by omega) hnext.2.1
          obtain ⟨hmout, hbetween⟩ :=
            hcloses.next_outermost hb had hd.2 hnext hmz
          have hdm : d < m := Nat.lt_of_lt_of_le hcloses.lt hnext.1
          have hlen := hd.1.lt_length dictOpen_ne_nil
          obtain ⟨vs, hvs, hall, hscan⟩ := scanDicts_eq_visitAll hb hlast
            (f := f) (d := m) (by omega) hmz hmout (by omega)
          refine ⟨⟨d, e'⟩ :: vs, ?_, ?_, ?_⟩
          · have hskip : topDictsFrom text a z (d + 1) = topDictsFrom text a z m :=
              outermostFrom_skip hdm hmz.le fun j hdj hjm => hbetween j hdj hjm
            rw [List.map_cons, hvs, hdicts, hskip]
          · rintro v (_ | ⟨_, hv⟩)
            · exact hcloses
            · exact hall v hv
          · rw [hscan]
            rfl

/-! ## What stops the loop -/

/-- The identifier does not fit into `kname`. -/
def LongIdent (text : List UInt8) (v : Visit) : Prop :=
  ∃ i j, kextIdent text v = some (i, j) ∧ knameSize ≤ j - i

/-- The identifier is the one that is looked for, and there is a load address. -/
def Found (text id : List UInt8) (v : Visit) : Prop :=
  ∃ i j, kextIdent text v = some (i, j) ∧ j - i < knameSize ∧
    (text.drop i).take (j - i) = id ∧ (kextAddr text v).isSome

theorem kextBody_cases (text id : List UInt8) (v : Visit) :
    LongIdent text v ∧ kextBody text id v = .error .knameOverrun ∨
    ¬ LongIdent text v ∧ ∃ r, kextBody text id v = .ok r ∧
      (Found text id v ↔ r.isSome) := by
  cases hident : kextIdent text v with
  | none =>
      refine .inr ⟨?_, none, ?_, ?_⟩
      · rintro ⟨i, j, hij, -⟩
        rw [hident] at hij
        cases hij
      · unfold kextBody
        rw [hident]
      · simp [Found, hident]
  | some p =>
      obtain ⟨i, j⟩ := p
      by_cases hlong : knameSize ≤ j - i
      · refine .inl ⟨⟨i, j, hident, hlong⟩, ?_⟩
        unfold kextBody
        rw [hident]
        exact if_pos hlong
      · have hshort := Nat.not_le.1 hlong
        by_cases hid : (text.drop i).take (j - i) = id
        · refine .inr ⟨?_, kextAddr text v, ?_, ?_⟩
          · simp [LongIdent, hident, hshort]
          · simp [kextBody, hident, hshort, hid]
          · simp [Found, hident, hshort, hid]
        · refine .inr ⟨?_, none, ?_, ?_⟩
          · simp [LongIdent, hident, hshort]
          · simp [kextBody, hident, hshort, hid]
          · simp [Found, hident, hid]

/-- A prefix of the dictionaries is visited, and all of them if none has the
identifier. -/
theorem visitAll_prefix : ∀ {vs ws : List Visit} {r : Option ℕ},
    visitAll text id vs = .ok (ws, r) → ws <+: vs ∧ (r = none → ws = vs)
  | [], ws, r, h => by
      have heq := Except.ok.inj h
      rw [Prod.mk.injEq] at heq
      exact ⟨heq.1 ▸ List.prefix_rfl, fun _ => heq.1.symm⟩
  | v :: vs, ws, r, h => by
      rw [visitAll] at h
      obtain ⟨-, hbody⟩ | ⟨-, r', hbody, -⟩ := kextBody_cases text id v
      · rw [hbody] at h
        cases h
      · rw [hbody] at h
        cases r' with
        | some addr =>
            have heq := Except.ok.inj h
            rw [Prod.mk.injEq] at heq
            obtain ⟨rfl, rfl⟩ := heq
            exact ⟨List.prefix_append [v] vs, fun hnone => nomatch hnone⟩
        | none =>
            cases hrest : visitAll text id vs with
            | error e =>
                simp only [hrest] at h
                cases h
            | ok p =>
                obtain ⟨ws', r'⟩ := p
                simp only [hrest] at h
                have heq := Except.ok.inj h
                rw [Prod.mk.injEq] at heq
                obtain ⟨rfl, rfl⟩ := heq
                obtain ⟨hpre, hall⟩ := visitAll_prefix hrest
                refine ⟨(List.prefix_cons_inj v).2 hpre, fun hnone => ?_⟩
                rw [hall hnone]

/-- The loop ends if the dictionary with the identifier is before the first one
whose identifier is too long. -/
theorem visitAll_ok_iff : ∀ {vs : List Visit},
    vs.Pairwise (fun v w => v.lastDict < w.lastDict) →
    ((∃ p, visitAll text id vs = .ok p) ↔ ∀ v ∈ vs, LongIdent text v →
      ∃ w ∈ vs, w.lastDict < v.lastDict ∧ Found text id w)
  | [], _ => iff_of_true ⟨_, rfl⟩ fun _ hv => nomatch hv
  | v :: vs, hsorted => by
      have hlater := List.pairwise_cons.1 hsorted
      have ih := visitAll_ok_iff hlater.2
      rw [visitAll]
      obtain ⟨hlong, hbody⟩ | ⟨hshort, r, hbody, hfound⟩ :=
        kextBody_cases text id v
      · refine iff_of_false ?_ fun hcond => ?_
        · rintro ⟨p, hp⟩
          rw [hbody] at hp
          cases hp
        · obtain ⟨w, hw, hlt, -⟩ := hcond v List.mem_cons_self hlong
          rcases List.mem_cons.1 hw with rfl | hw
          · exact lt_irrefl _ hlt
          · exact lt_asymm hlt (hlater.1 w hw)
      · rw [hbody]
        cases r with
        | some addr =>
            refine iff_of_true ⟨_, rfl⟩ fun w hw hlong => ?_
            rcases List.mem_cons.1 hw with rfl | hw
            · exact absurd hlong hshort
            · exact ⟨v, List.mem_cons_self, hlater.1 w hw, hfound.2 rfl⟩
        | none =>
            have hnot : ¬ Found text id v := fun h => nomatch hfound.1 h
            have hrest : (∃ p, visitAll text id vs = .ok p) ↔
                ∃ p, (do
                  let (ws, r) ← visitAll text id vs
                  (.ok (v :: ws, r) : Except ScanError _)) = .ok p := by
              cases visitAll text id vs with
              | error e =>
                  refine iff_of_false ?_ ?_
                  · rintro ⟨p, hp⟩
                    cases hp
                  · rintro ⟨p, hp⟩
                    cases hp
              | ok p => exact iff_of_true ⟨_, rfl⟩ ⟨_, rfl⟩
            refine hrest.symm.trans (ih.trans ⟨fun hcond w hw hlong => ?_,
              fun hcond w hw hlong => ?_⟩)
            · rcases List.mem_cons.1 hw with rfl | hw
              · exact absurd hlong hshort
              · obtain ⟨u, hu, hlt, hfind⟩ := hcond w hw hlong
                exact ⟨u, List.mem_cons_of_mem _ hu, hlt, hfind⟩
            · obtain ⟨u, hu, hlt, hfind⟩ :=
                hcond w (List.mem_cons_of_mem _ hw) hlong
              rcases List.mem_cons.1 hu with rfl | hu
              · exact absurd hfind hnot
              · exact ⟨u, hu, hlt, hfind⟩

/-! ## The scan -/

/-- The dictionaries of the array of `PrelinkInfoDictionary` start at `a`, and the
array ends at `z`. -/
structure PrelinkArray (text : List UInt8) (a z : ℕ) : Prop where
  array : ∃ p q, strstr text infoDict 0 = some p ∧
    strstr text arrayOpen p = some q ∧ a = q + arrayOpen.length
  start : At text dictOpen a
  balanced : Balanced (At text dictOpen) (At text dictClose) a z
  last : strstr text dictOpen z = none

/-- The top-level dictionaries of the array, in order. -/
abbrev topDicts (text : List UInt8) (a z : ℕ) : List ℕ :=
  topDictsFrom text a z a

/-- A top-level dictionary with its own `</dict>`. -/
structure IsTopDict (text : List UInt8) (a z : ℕ) (v : Visit) : Prop where
  mem : v.lastDict ∈ topDicts text a z
  closes : Closes text v.lastDict v.endDict

/-- The loop ends, each dictionary that it visits is visited with its own
`</dict>`, and they are the top-level dictionaries up to the one that is
returned, or all of them. -/
def VisitsTopDicts (text id : List UInt8) (a z : ℕ) : Prop :=
  ∃ vs r, xnuPfGetKextHeader text id = .ok (vs, r) ∧
    (∀ v ∈ vs, Closes text v.lastDict v.endDict) ∧
    vs.map Visit.lastDict <+: topDicts text a z ∧
    (r = none → vs.map Visit.lastDict = topDicts text a z)

theorem PrelinkArray.start_lt (h : PrelinkArray text a z) : a < z := by
  by_contra hge
  have hnone := strstr_next text dictOpen_ne_nil z
  rw [h.last] at hnone
  exact hnone a (by omega) h.start

/-- The loop visits the top-level dictionaries one after the other. -/
theorem PrelinkArray.scan_eq (h : PrelinkArray text a z) (id : List UInt8) :
    ∃ vs : List Visit, vs.map Visit.lastDict = topDicts text a z ∧
      (∀ v ∈ vs, Closes text v.lastDict v.endDict) ∧
      xnuPfGetKextHeader text id = visitAll text id vs := by
  obtain ⟨p, q, hp, hq, ha⟩ := h.array
  have hlength : arrayOpen.length = 7 := by decide +kernel
  rw [hlength] at ha
  subst ha
  have hfuel : text.length - (q + 7) < text.length + 1 := by omega
  obtain ⟨vs, hvs, hcloses, hscan⟩ := scanDicts_eq_visitAll h.balanced h.last
    le_rfl h.start_lt ⟨h.start, rfl⟩ hfuel
  refine ⟨vs, hvs, hcloses, ?_⟩
  unfold xnuPfGetKextHeader
  rw [hp]
  dsimp only
  rw [hq]
  exact hscan

/-- What the loop visits is right unless an identifier is copied that `kname` has
no room for. -/
theorem visitsTopDicts_iff {text : List UInt8} {a z : ℕ}
    (h : PrelinkArray text a z) (id : List UInt8) :
    VisitsTopDicts text id a z ↔
      ∀ v, IsTopDict text a z v → LongIdent text v →
        ∃ w, IsTopDict text a z w ∧ w.lastDict < v.lastDict ∧
          Found text id w := by
  obtain ⟨vs, hvs, hcloses, hscan⟩ := h.scan_eq id
  have hsorted : vs.Pairwise fun v w => v.lastDict < w.lastDict := by
    have hdicts := outermostFrom_sorted (At text dictOpen) (At text dictClose)
      a z a
    exact List.pairwise_map.1 (hvs ▸ hdicts)
  have htop : ∀ v, IsTopDict text a z v ↔ v ∈ vs := by
    refine fun v => ⟨fun hv => ?_, fun hv => ⟨?_, hcloses v hv⟩⟩
    · obtain ⟨w, hw, heq⟩ := List.mem_map.1 (hvs ▸ hv.mem)
      have hend := hv.closes.unique (heq ▸ hcloses w hw)
      obtain rfl : w = v := by
        cases w
        cases v
        simp_all
      exact hw
    · exact hvs ▸ List.mem_map_of_mem hv
  have hok : (∃ p, visitAll text id vs = .ok p) ↔ ∀ v ∈ vs, LongIdent text v →
      ∃ w ∈ vs, w.lastDict < v.lastDict ∧ Found text id w :=
    visitAll_ok_iff hsorted
  simp only [htop]
  rw [← hok]
  constructor
  · rintro ⟨ws, r, hrun, -⟩
    exact ⟨(ws, r), hscan ▸ hrun⟩
  · rintro ⟨⟨ws, r⟩, hrun⟩
    obtain ⟨hpre, hall⟩ := visitAll_prefix hrun
    refine ⟨ws, r, hscan.trans hrun, fun v hv => ?_, ?_, fun hnone => ?_⟩
    · exact hcloses v (hpre.subset hv)
    · exact hvs ▸ hpre.map Visit.lastDict
    · rw [hall hnone, hvs]

/-- Counts the depth over `n` characters. -/
def tagsBalanced : ℕ → List UInt8 → ℤ → Bool
  | 0, _, d => d == 0
  | n + 1, cs, d => decide (0 ≤ d) && tagsBalanced n cs.tail
      (d + (if dictOpen <+: cs then 1 else 0) -
        (if dictClose <+: cs then 1 else 0))

theorem balancedFrom_eq_tagsBalanced (text : List UInt8) : ∀ (n i : ℕ) (d : ℤ),
    balancedFrom (At text dictOpen) (At text dictClose) n i d =
      tagsBalanced n (text.drop i) d
  | 0, _, _ => rfl
  | n + 1, i, d => by
      rw [balancedFrom, tagsBalanced, List.tail_drop,
        balancedFrom_eq_tagsBalanced text n (i + 1)]
      rfl

theorem PrelinkArray.of_check (p q : ℕ) (hp : strstr text infoDict 0 = some p)
    (hq : strstr text arrayOpen p = some q) (ha : a = q + arrayOpen.length)
    (hstart : At text dictOpen a) (hlast : strstr text dictOpen z = none)
    (hbalanced : a ≤ z ∧ tagsBalanced (z - a) (text.drop a) 0 = true) :
    PrelinkArray text a z where
  array := ⟨p, q, hp, hq, ha⟩
  start := hstart
  balanced := .of_check hbalanced.1 not_dictClose_of_dictOpen
    ((balancedFrom_eq_tagsBalanced text _ _ _).trans hbalanced.2)
  last := hlast

/-- Two dictionaries, and one inside the first. -/
def nestedInfo : List UInt8 :=
  ("<dict>PrelinkInfoDictionary<array><dict><dict></dict></dict>" ++
    "<dict></dict></array></dict>").toUTF8.toList

theorem prelinkArray_nestedInfo : PrelinkArray nestedInfo 34 73 :=
  .of_check 6 27 (by decide +kernel) (by decide +kernel)
    (by decide +kernel) (by decide +kernel) (by decide +kernel)
    (by decide +kernel)

theorem not_longIdent_nestedInfo (v : Visit) : ¬ LongIdent nestedInfo v := by
  rintro ⟨i, j, hident, -⟩
  have hnot : ¬ bundleIdentifier <:+: nestedInfo := by decide +kernel
  unfold kextIdent at hident
  cases hmem : memmem nestedInfo v.lastDict (v.endDict - v.lastDict)
      bundleIdentifier with
  | none =>
      rw [hmem] at hident
      cases hident
  | some k =>
      have htake := List.take_prefix (v.endDict - v.lastDict)
        (nestedInfo.drop v.lastDict)
      have hdrop := List.drop_suffix v.lastDict nestedInfo
      have hat := infix_of_searchFrom hmem
      exact hnot (hat.trans (htake.isInfix.trans hdrop.isInfix))

theorem visitsTopDicts_nestedInfo : VisitsTopDicts nestedInfo [97] 34 73 ∧
    topDicts nestedInfo 34 73 = [34, 60] :=
  ⟨(visitsTopDicts_iff prelinkArray_nestedInfo [97]).2 fun v _ hlong =>
    absurd hlong (not_longIdent_nestedInfo v), by decide +kernel⟩

/-- The identifier of the first dictionary has 256 characters. -/
def longInfo : List UInt8 :=
  "PrelinkInfoDictionary<array><dict>CFBundleIdentifier<string>".toUTF8.toList ++
    List.replicate 256 97 ++
    "</string></dict><dict></dict></array>".toUTF8.toList

theorem prelinkArray_longInfo : PrelinkArray longInfo 28 345 :=
  .of_check 0 21 (by decide +kernel) (by decide +kernel)
    (by decide +kernel) (by decide +kernel) (by decide +kernel)
    (by decide +kernel)

theorem long_identifier_overruns_kname :
    ¬ ∀ (text id : List UInt8) (a z : ℕ), PrelinkArray text a z →
      VisitsTopDicts text id a z := by
  intro h
  obtain ⟨vs, r, hrun, -⟩ := h longInfo [97] 28 345 prelinkArray_longInfo
  have hoverrun : xnuPfGetKextHeader longInfo [97] = .error .knameOverrun := by
    decide +kernel
  rw [hoverrun] at hrun
  cases hrun

end Prelink
end PongoOS
