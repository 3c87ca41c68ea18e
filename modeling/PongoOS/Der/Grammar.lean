import PongoOS.Der.Canonical

/-!
# The grammar of a sequence

A list of specifications stands for the sequences whose items come in their order,
without some of the optional ones.  `DERParseSequenceContent` takes no other bytes,
and it takes all of them if an optional specification cannot be mistaken for one
that may follow.  Then it reads back what `DEREncodeSequence` writes.
-/

namespace PongoOS

/-! ## Items and specifications -/

/-- An item with the bytes that encode it. -/
structure DerElement where
  tag : ℕ
  content : DerItem
  raw : List UInt8
  encodes : DerEncodes raw tag content

namespace DerItemSpec

variable (spec : DerItemSpec)

def Optional : Prop := spec.has derDecOptional = true

instance : Decidable spec.Optional := inferInstanceAs (Decidable (_ = true))

/-- An item with this tag is taken. -/
def Takes (tag : ℕ) : Prop := spec.has derDecAsnAny = true ∨ tag = spec.tag

/-- There may be a tag that both take. -/
def Overlaps (other : DerItemSpec) : Prop :=
  spec.has derDecAsnAny = true ∨ other.has derDecAsnAny = true ∨ spec.tag = other.tag

instance (other : DerItemSpec) : Decidable (spec.Overlaps other) :=
  inferInstanceAs (Decidable (_ ∨ _))

/-- Where the item goes. -/
def put (e : DerElement) (dest : ℕ → DerItem) : ℕ → DerItem :=
  if spec.has derDecSkip then dest
  else Function.update dest spec.offset (if spec.has derDecSaveDer then e.raw else e.content)

end DerItemSpec

def derBytes (es : List DerElement) : List UInt8 := es.flatMap DerElement.raw

/-- The items match the specifications, and lead from `dest` to `dest'`. -/
inductive DerFits : List DerItemSpec → List DerElement → (ℕ → DerItem) → (ℕ → DerItem) →
    Prop where
  | nil (dest : ℕ → DerItem) : DerFits [] [] dest dest
  | skip {spec : DerItemSpec} {specs : List DerItemSpec} {es : List DerElement}
      {dest dest' : ℕ → DerItem} :
      spec.Optional → DerFits specs es dest dest' → DerFits (spec :: specs) es dest dest'
  | item {spec : DerItemSpec} {specs : List DerItemSpec} {e : DerElement}
      {es : List DerElement} {dest dest' : ℕ → DerItem} :
      spec.Takes e.tag → DerFits specs es (spec.put e dest) dest' →
        DerFits (spec :: specs) (e :: es) dest dest'

/-- The specifications that the next item may match. -/
def derNext : List DerItemSpec → List DerItemSpec
  | [] => []
  | spec :: specs => spec :: if spec.Optional then derNext specs else []

/-- No optional specification takes an item that one of the next could take. -/
def DerUnambiguous : List DerItemSpec → Prop
  | [] => True
  | spec :: specs =>
      (spec.Optional → ∀ other ∈ derNext specs, ¬ spec.Overlaps other) ∧
        DerUnambiguous specs

instance decidableDerUnambiguous : DecidablePred DerUnambiguous
  | [] => inferInstanceAs (Decidable True)
  | _ :: specs =>
      have := decidableDerUnambiguous specs
      inferInstanceAs (Decidable (_ ∧ _))

section Grammar

variable {spec : DerItemSpec} {specs : List DerItemSpec} {e : DerElement}
variable {es : List DerElement} {dest dest' : ℕ → DerItem} {seq rest : List UInt8}
variable {tag fuel : ℕ}

theorem derBytes_eq_nil : derBytes es = [] ↔ es = [] := by
  constructor
  · intro h
    cases es with
    | nil => rfl
    | cons e es =>
        rw [derBytes, List.flatMap_cons, List.append_eq_nil_iff] at h
        exact absurd h.1 e.encodes.ne_nil
  · rintro rfl
    rfl

theorem derStore_eq_put (hseq : seq = e.raw ++ rest) :
    derStore spec seq ⟨e.tag, e.content, rest⟩ dest = spec.put e dest := by
  have htake : seq.take (seq.length - rest.length) = e.raw := by
    rw [hseq, List.length_append, Nat.add_sub_cancel_right, List.take_left]
  unfold derStore DerItemSpec.put
  dsimp only
  rw [htake]

/-! ## What is taken fits -/

theorem derDecodeTagLoop_error {t : ℕ} {r : DerStop}
    (h : derDecodeTagLoop t seq = .error r) : r = .code .decodeError := by
  induction seq generalizing t with
  | nil =>
      cases h
      rfl
  | cons b seq ih =>
      rw [derDecodeTagLoop] at h
      dsimp only at h
      split_ifs at h
      · cases h
        rfl
      · exact ih h
      · cases h

theorem derDecodeTagNumber_error {tag1 : UInt8} {r : DerStop}
    (h : derDecodeTagNumber tag1 seq = .error r) : r = .code .decodeError := by
  rw [derDecodeTagNumber] at h
  split at h
  · split at h
    · cases h
      rfl
    · rw [except_bind_eq_error] at h
      rcases h with hloop | ⟨_, -, hcheck⟩
      · exact derDecodeTagLoop_error hloop
      · dsimp only at hcheck
        split at hcheck <;> cases hcheck
        rfl
  · cases h

theorem derDecodeLength_error {r : DerStop}
    (h : derDecodeLength seq = .error r) : r = .code .decodeError := by
  cases seq with
  | nil =>
      cases h
      rfl
  | cons len1 der =>
      rw [derDecodeLength] at h
      dsimp only at h
      split_ifs at h <;> cases h <;> rfl

theorem derDecodeItem_error {r : DerStop}
    (h : derDecodeItem seq = .error r) : r = .code .decodeError := by
  match seq, h with
  | [], h =>
      cases h
      rfl
  | [_], h =>
      cases h
      rfl
  | tag1 :: b :: der, h =>
      rw [derDecodeItem, except_bind_eq_error] at h
      rcases h with hnumber | ⟨_, -, h⟩
      · exact derDecodeTagNumber_error hnumber
      rw [except_bind_eq_error] at h
      rcases h with hlength | ⟨_, -, hpure⟩
      · exact derDecodeLength_error hlength
      · cases hpure

/-- A sequence ends where no bytes are left. -/
theorem derDecodeSeqNext_end (h : derDecodeSeqNext seq = .error (.code .endOfSequence)) :
    seq = [] := by
  rw [derDecodeSeqNext] at h
  split at h
  · assumption
  · cases derDecodeItem_error h

theorem derDecodeSeqNext_element {decoded : DerDecoded}
    (h : derDecodeSeqNext seq = .ok decoded) :
    ∃ e : DerElement, decoded = ⟨e.tag, e.content, decoded.rest⟩ ∧
      seq = e.raw ++ decoded.rest := by
  rw [derDecodeSeqNext] at h
  split at h
  · cases h
  · obtain ⟨raw, hraw, hseq⟩ := derDecodeItem_sound h
    exact ⟨⟨decoded.tag, decoded.content, raw, hraw⟩, rfl, hseq⟩

theorem derFits_nil : DerFits specs [] dest dest' ↔
    (∀ spec ∈ specs, spec.Optional) ∧ dest' = dest := by
  induction specs with
  | nil =>
      constructor
      · rintro ⟨⟩
        exact ⟨fun _ hmem => absurd hmem List.not_mem_nil, rfl⟩
      · rintro ⟨-, rfl⟩
        exact .nil dest'
  | cons spec specs ih =>
      rw [List.forall_mem_cons]
      constructor
      · intro h
        cases h with
        | skip hoptional hfits =>
            obtain ⟨hall, hdest⟩ := ih.mp hfits
            exact ⟨⟨hoptional, hall⟩, hdest⟩
      · rintro ⟨⟨hoptional, hall⟩, hdest⟩
        exact .skip hoptional (ih.mpr ⟨hall, hdest⟩)

/-- The specification that is found, behind optional ones. -/
theorem derMatchSpec_fits {specs' : List DerItemSpec}
    (h : derMatchSpec e.tag specs = .ok (spec, specs'))
    (hfits : DerFits specs' es (spec.put e dest) dest') :
    DerFits specs (e :: es) dest dest' := by
  induction specs with
  | nil => cases h
  | cons other specs ih =>
      rw [derMatchSpec] at h
      split at h
      · rename_i htakes
        cases h
        exact .item htakes hfits
      · split at h
        · rename_i hoptional
          exact .skip hoptional (ih h)
        · cases h

theorem derParseLoop_nil (h : derParseLoop fuel [] seq dest = .ok dest') :
    seq = [] ∧ dest' = dest := by
  rw [derParseLoop] at h
  split at h
  · rename_i hseq
    cases h
    exact ⟨hseq, rfl⟩
  · cases h

/-- The induction is on the rounds. -/
theorem derParseLoop_fits (h : derParseLoop fuel specs seq dest = .ok dest') :
    ∃ es, DerFits specs es dest dest' ∧ seq = derBytes es := by
  induction fuel generalizing specs seq dest with
  | zero =>
      cases specs with
      | nil =>
          obtain ⟨hseq, rfl⟩ := derParseLoop_nil h
          exact ⟨[], .nil dest', hseq⟩
      | cons spec specs => cases h
  | succ fuel ih =>
      cases specs with
      | nil =>
          obtain ⟨hseq, rfl⟩ := derParseLoop_nil h
          exact ⟨[], .nil dest', hseq⟩
      | cons first others =>
          rw [derParseLoop] at h
          split at h
          · rename_i hend
            split at h
            · rename_i hall
              cases h
              refine ⟨[], derFits_nil.mpr ⟨?_, rfl⟩, derDecodeSeqNext_end hend⟩
              simpa [DerItemSpec.Optional] using hall
            · cases h
          · cases h
          · rename_i decoded hdecode
            obtain ⟨e, hdecoded, hseq⟩ := derDecodeSeqNext_element hdecode
            rw [except_bind_eq_ok] at h
            obtain ⟨⟨spec, specs'⟩, hmatch, h⟩ := h
            dsimp only at h
            rw [hdecoded] at hmatch h
            rw [derStore_eq_put hseq] at h
            have hrest : ∃ es, DerFits specs' es (spec.put e dest) dest' ∧
                decoded.rest = derBytes es := by
              split at h
              · rename_i hlast
                split at h
                · rename_i hnone
                  cases h
                  rw [hlast]
                  exact ⟨[], .nil _, hnone⟩
                · cases h
              · exact ih h
            obtain ⟨es, hfits, hbytes⟩ := hrest
            refine ⟨e :: es, derMatchSpec_fits hmatch hfits, ?_⟩
            rw [derBytes, List.flatMap_cons, hseq, hbytes]
            rfl

/-! ## What fits is taken -/

theorem DerFits.next (h : DerFits specs (e :: es) dest dest') :
    ∃ spec ∈ derNext specs, spec.Takes e.tag := by
  induction specs with
  | nil => cases h
  | cons first specs ih =>
      cases h with
      | skip hoptional hfits =>
          obtain ⟨spec, hspec, htakes⟩ := ih hfits
          rw [derNext, if_pos hoptional]
          exact ⟨spec, List.mem_cons_of_mem _ hspec, htakes⟩
      | item htakes _ => exact ⟨first, List.mem_cons_self, htakes⟩

/-- An optional specification is not mistaken for one behind it. -/
theorem DerFits.not_takes (h : DerFits specs (e :: es) dest dest')
    (hnone : ∀ other ∈ derNext specs, ¬ spec.Overlaps other) : ¬ spec.Takes e.tag := by
  obtain ⟨other, hother, hother'⟩ := h.next
  have hdisjoint := hnone other hother
  unfold DerItemSpec.Overlaps at hdisjoint
  unfold DerItemSpec.Takes at hother' ⊢
  rintro (hany | htag)
  · exact hdisjoint (.inl hany)
  · rcases hother' with hany' | htag'
    · exact hdisjoint (.inr (.inl hany'))
    · exact hdisjoint (.inr (.inr (htag.symm.trans htag')))

theorem derMatchSpec_takes (h : spec.Takes tag) :
    derMatchSpec tag (spec :: specs) = .ok (spec, specs) := if_pos h

theorem derMatchSpec_skip (hoptional : spec.Optional) (h : ¬ spec.Takes tag) :
    derMatchSpec tag (spec :: specs) = derMatchSpec tag specs :=
  (if_neg h).trans (if_pos hoptional)

theorem derParseLoop_skip {decoded : DerDecoded} (hoptional : spec.Optional)
    (htakes : ¬ spec.Takes decoded.tag) (hspecs : specs ≠ [])
    (hdecode : derDecodeSeqNext seq = .ok decoded) :
    derParseLoop (fuel + 1) (spec :: specs) seq dest =
      derParseLoop (fuel + 1) specs seq dest := by
  obtain ⟨first, others, rfl⟩ := List.exists_cons_of_ne_nil hspecs
  rw [derParseLoop, derParseLoop, hdecode]
  dsimp only
  rw [derMatchSpec_skip hoptional htakes]

/-- The induction is on the specifications. -/
theorem DerFits.parse (h : DerFits specs es dest dest') (hspecs : DerUnambiguous specs)
    (hfuel : specs.length ≤ fuel) :
    derParseLoop fuel specs (derBytes es) dest = .ok dest' := by
  induction specs generalizing es dest fuel with
  | nil =>
      cases h
      cases fuel <;> rfl
  | cons spec specs ih =>
      obtain ⟨fuel, rfl⟩ : ∃ k, fuel = k + 1 :=
        ⟨fuel - 1, by rw [List.length_cons] at hfuel; omega⟩
      rw [List.length_cons] at hfuel
      cases es with
      | nil =>
          obtain ⟨hall, rfl⟩ := derFits_nil.mp h
          have hall' : (spec :: specs).all (fun spec => spec.has derDecOptional) = true :=
            List.all_eq_true.mpr hall
          rw [derParseLoop]
          simp only [derBytes, List.flatMap_nil, derDecodeSeqNext, if_true, derError, hall']
          rfl
      | cons e es =>
          have hdecode : derDecodeSeqNext (derBytes (e :: es)) =
              .ok ⟨e.tag, e.content, derBytes es⟩ := by
            have hne : derBytes (e :: es) ≠ [] :=
              fun hnil => absurd (derBytes_eq_nil.mp hnil) (List.cons_ne_nil e es)
            rw [derDecodeSeqNext, if_neg hne]
            exact e.encodes.decode (derBytes es)
          cases h with
          | skip hoptional hfits =>
              have htakes := hfits.not_takes (hspecs.1 hoptional)
              have hne : specs ≠ [] := by
                rintro rfl
                cases hfits
              rw [derParseLoop_skip hoptional htakes hne hdecode]
              exact ih hfits hspecs.2 (by omega)
          | item htakes hfits =>
              have hstore : derStore spec (derBytes (e :: es))
                  ⟨e.tag, e.content, derBytes es⟩ dest = spec.put e dest :=
                derStore_eq_put rfl
              rw [derParseLoop, hdecode]
              dsimp only
              rw [derMatchSpec_takes htakes, except_ok_bind]
              dsimp only
              rw [hstore]
              by_cases hlast : specs = []
              · subst hlast
                cases hfits
                rw [if_pos rfl]
                exact if_pos rfl
              · rw [if_neg hlast]
                exact ih hfits hspecs.2 (by omega)

/-- A sequence of items that match the specifications, at the start of `der`. -/
def DerSequence (specs : List DerItemSpec) (der : DerItem) (dest dest' : ℕ → DerItem) :
    Prop :=
  ∃ es raw rest, DerEncodes raw asn1ConstrSequence (derBytes es) ∧ der = raw ++ rest ∧
    DerFits specs es dest dest'

theorem DerSequence.ne_nil {der : DerItem} (h : DerSequence specs der dest dest') :
    der ≠ [] := by
  obtain ⟨es, raw, rest, hencodes, rfl, -⟩ := h
  exact List.append_ne_nil_of_left_ne_nil hencodes.ne_nil rest

theorem derDecodeItem_fits {der : DerItem} {decoded : DerDecoded}
    (h : derDecodeItem der = .ok decoded) (htag : decoded.tag = asn1ConstrSequence)
    (hparse : derParseSequenceContent decoded.content specs dest = .ok dest') :
    DerSequence specs der dest dest' := by
  obtain ⟨raw, hencodes, hder⟩ := derDecodeItem_sound h
  obtain ⟨es, hfits, hcontent⟩ := derParseLoop_fits hparse
  exact ⟨es, raw, decoded.rest, htag ▸ hcontent ▸ hencodes, hder, hfits⟩

theorem DerSequence.decode {der : DerItem} (hspecs : DerUnambiguous specs)
    (h : DerSequence specs der dest dest') :
    ∃ decoded, derDecodeItem der = .ok decoded ∧ decoded.tag = asn1ConstrSequence ∧
      derParseSequenceContent decoded.content specs dest = .ok dest' := by
  obtain ⟨es, raw, rest, hencodes, rfl, hfits⟩ := h
  exact ⟨_, hencodes.decode rest, rfl, hfits.parse hspecs le_rfl⟩

theorem DerSequence.parse {der : DerItem} (hspecs : DerUnambiguous specs)
    (h : DerSequence specs der dest dest') :
    derParseSequence der specs dest = .ok dest' := by
  obtain ⟨decoded, hdecode, htag, hparse⟩ := h.decode hspecs
  rw [derParseSequence, hdecode, except_ok_bind, if_neg (not_not.mpr htag)]
  exact hparse

theorem derParseSequence_sound {der : DerItem}
    (h : derParseSequence der specs dest = .ok dest') :
    DerSequence specs der dest dest' := by
  rw [derParseSequence, except_bind_eq_ok] at h
  obtain ⟨decoded, hdecode, h⟩ := h
  split at h
  · cases h
  · rename_i htag
    exact derDecodeItem_fits hdecode (not_not.mp htag) h

/-- If the specifications are unambiguous, exactly the sequences of items that match
them are taken. -/
theorem derParseSequence_iff {der : DerItem} (hspecs : DerUnambiguous specs) :
    derParseSequence der specs dest = .ok dest' ↔ DerSequence specs der dest dest' :=
  ⟨derParseSequence_sound, DerSequence.parse hspecs⟩

/-- An optional number in front of some bytes: it is not there, and then it is all
there is. -/
theorem derParseSequence_iff_optional :
    (∃ dest', DerSequence [⟨0, 0x02, derDecOptional⟩, ⟨1, 0x04, 0⟩]
        [0x30, 0x03, 0x04, 0x01, 0x41] (fun _ => []) dest' ∧
        dest' 0 = [] ∧ dest' 1 = [0x41]) ∧
      ∀ dest', ¬ DerSequence [⟨0, 0x02, derDecOptional⟩, ⟨1, 0x04, 0⟩]
        [0x30, 0x03, 0x02, 0x01, 0x41] (fun _ => []) dest' := by
  have hspecs : DerUnambiguous [⟨0, 0x02, derDecOptional⟩, ⟨1, 0x04, 0⟩] := by decide
  constructor
  · have hparse : (derParseSequence [0x30, 0x03, 0x04, 0x01, 0x41]
        [⟨0, 0x02, derDecOptional⟩, ⟨1, 0x04, 0⟩] (fun _ => [])).toOption.map
        (fun dest' => (dest' 0, dest' 1)) = some ([], [0x41]) := by
      decide +kernel
    cases hresult : derParseSequence [0x30, 0x03, 0x04, 0x01, 0x41]
        [⟨0, 0x02, derDecOptional⟩, ⟨1, 0x04, 0⟩] (fun _ => []) with
    | error e =>
        rw [hresult] at hparse
        cases hparse
    | ok dest' =>
        rw [hresult] at hparse
        obtain ⟨hfirst, hsecond⟩ := Prod.mk.inj (Option.some.inj hparse)
        exact ⟨dest', (derParseSequence_iff hspecs).mp hresult, hfirst, hsecond⟩
  · intro dest' h
    have hrefused : (derParseSequence [0x30, 0x03, 0x02, 0x01, 0x41]
        [⟨0, 0x02, derDecOptional⟩, ⟨1, 0x04, 0⟩] (fun _ => [])).isOk = false := by
      decide +kernel
    rw [(derParseSequence_iff hspecs).mpr h] at hrefused
    cases hrefused

end Grammar

end PongoOS
