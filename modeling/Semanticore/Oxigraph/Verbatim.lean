import Semanticore.Lib.Except
import Semanticore.Oxigraph.Convert

/-!
# Terms are stored verbatim or refused

What the adapter accepts reads back as it was written; what it refuses could not be stored so.
-/

namespace Semanticore.Oxigraph
open Semanticore Semanticore.Lib

variable {B : Crates}

/-! ## Datatypes -/

theorem stripXsd_eq_some {datatype name : String} : stripXsd datatype = some name ↔ datatype = xsd ++ name := by
  unfold stripXsd
  constructor
  · intro h
    split at h
    · rename_i hpre
      cases h
      apply String.toList_injective
      obtain ⟨rest, hrest⟩ := List.isPrefixOf_iff_prefix.mp hpre
      simp [← hrest]
    · cases h
  · rintro rfl
    simp

/-- Every datatype stored by value is one that `round_trips` names, with the same Rust type. -/
theorem mem_storedTypes : ∀ p ∈ storedTypes, ∃ name, p.1 = xsd ++ name ∧
    ((name, p.2) ∈ primitiveTypes ∨ (name, p.2) ∈ derivedTypes) := by
  -- The type is compared first: few names are left to compare.
  have hall : ∀ p ∈ storedTypes, ∃ r ∈ primitiveTypes ++ derivedTypes, r.2 = p.2 ∧ p.1 = xsd ++ r.1 := by decide +kernel
  intro p hp
  obtain ⟨r, hr, htype, hname⟩ := hall p hp
  exact ⟨r.1, hname, htype ▸ List.mem_append.mp hr⟩

theorem storedType_primitive : ∀ p ∈ primitiveTypes, storedType (xsd ++ p.1) = some p.2 ∧ p.2.datatype = xsd ++ p.1 := by
  decide +kernel

theorem storedType_derived : ∀ p ∈ derivedTypes, storedType (xsd ++ p.1) = some p.2 ∧ p.2.datatype ≠ xsd ++ p.1 := by
  decide +kernel

theorem mem_of_find?_key {l : List (String × XsdType)} {p : String × XsdType} {name : String}
    (h : l.find? (·.1 = name) = some p) : p ∈ l ∧ p.1 = name :=
  ⟨List.mem_of_find?_eq_some h, by simpa using List.find?_some h⟩

theorem not_mem_of_find?_key {l : List (String × XsdType)} {name : String} (h : l.find? (·.1 = name) = none) (t : XsdType) :
    (name, t) ∉ l := by
  intro hmem
  simp only [List.find?_eq_none, decide_eq_true_eq] at h
  exact h _ hmem rfl

/-- The three answers `round_trips` finds for a datatype. -/
theorem datatype_cases (datatype : String) :
    (storedType datatype = none ∧ ∀ value, roundTrips B value datatype = true) ∨
      (∃ t, storedType datatype = some t ∧ t.datatype = datatype ∧
        ∀ value, roundTrips B value datatype = (canonical B t value || unparsable B t value)) ∨
      ∃ t, storedType datatype = some t ∧ t.datatype ≠ datatype ∧
        ∀ value, roundTrips B value datatype = unparsable B t value := by
  have hstored : ∀ p, storedTypes.find? (·.1 = datatype) = some p → ∃ name, datatype = xsd ++ name ∧
      ((name, p.2) ∈ primitiveTypes ∨ (name, p.2) ∈ derivedTypes) := by
    intro p hp
    obtain ⟨hmem, hkey⟩ := mem_of_find?_key hp
    exact hkey ▸ mem_storedTypes p hmem
  cases hstrip : stripXsd datatype with
  | none =>
      refine Or.inl ⟨?_, fun value => by simp [roundTrips, hstrip]⟩
      cases hfind : storedTypes.find? (·.1 = datatype) with
      | none => simp [storedType, hfind]
      | some p =>
          obtain ⟨name, hname, -⟩ := hstored p hfind
          rw [stripXsd_eq_some.mpr hname] at hstrip
          cases hstrip
  | some name =>
      obtain rfl := stripXsd_eq_some.mp hstrip
      cases hprimitive : primitiveTypes.find? (·.1 = name) with
      | some p =>
          obtain ⟨hmem, rfl⟩ := mem_of_find?_key hprimitive
          obtain ⟨htype, hdatatype⟩ := storedType_primitive p hmem
          exact Or.inr (Or.inl ⟨p.2, htype, hdatatype, fun value => by simp only [roundTrips, hstrip, hprimitive]⟩)
      | none =>
          cases hderived : derivedTypes.find? (·.1 = name) with
          | some p =>
              obtain ⟨hmem, rfl⟩ := mem_of_find?_key hderived
              obtain ⟨htype, hdatatype⟩ := storedType_derived p hmem
              exact Or.inr (Or.inr ⟨p.2, htype, hdatatype, fun value => by
                simp only [roundTrips, hstrip, hprimitive, hderived]⟩)
          | none =>
              refine Or.inl ⟨?_, fun value => by simp only [roundTrips, hstrip, hprimitive, hderived]⟩
              cases hfind : storedTypes.find? (·.1 = xsd ++ name) with
              | none => simp [storedType, hfind]
              | some p =>
                  obtain ⟨name', hname, hmem⟩ := hstored p hfind
                  obtain rfl : name = name' := by
                    rw [hname, stripXsd_eq_some.mpr rfl] at hstrip
                    exact (Option.some.inj hstrip).symm
                  rcases hmem with hmem | hmem
                  · exact (not_mem_of_find?_key hprimitive _ hmem).elim
                  · exact (not_mem_of_find?_key hderived _ hmem).elim

/-! ## Literals -/

namespace Ox.Literal

@[simp] theorem value_newTyped (value : String) (datatype : NamedNode) : (newTyped value datatype).value = value := by
  unfold newTyped; split <;> rfl

@[simp] theorem datatype_newTyped (value : String) (datatype : NamedNode) :
    (newTyped value datatype).datatype = datatype.iri := by
  unfold newTyped
  split
  · rename_i h; exact h.symm
  · rfl

@[simp] theorem language_newTyped (value : String) (datatype : NamedNode) : (newTyped value datatype).language = none := by
  unfold newTyped; split <;> rfl

end Ox.Literal

/-- `round_trips` says whether a literal reads back as it was written. -/
theorem roundTrips_iff (value datatype : String) : roundTrips B value datatype = true ↔
    ((Ox.Literal.newTyped value ⟨datatype⟩).encode B).decode = .literal (.newTyped value ⟨datatype⟩) := by
  have hvalue : ∀ t v, B.parse t value = some v → storedType datatype = some t →
      ((Ox.Literal.newTyped value ⟨datatype⟩).encode B).decode = .literal (.newTyped (B.display t v) ⟨t.datatype⟩) := by
    intro t v hparse htype
    simp [Ox.Literal.encode, htype, hparse, EncodedTerm.decode]
  have hverbatim : ∀ t, B.parse t value = none → storedType datatype = some t →
      ((Ox.Literal.newTyped value ⟨datatype⟩).encode B).decode = .literal (.newTyped value ⟨datatype⟩) := by
    intro t hparse htype
    simp [Ox.Literal.encode, htype, hparse, EncodedTerm.decode]
  rcases datatype_cases (B := B) datatype with ⟨htype, hround⟩ | ⟨t, htype, hsame, hround⟩ | ⟨t, htype, hother, hround⟩
  · simp [hround, Ox.Literal.encode, htype, EncodedTerm.decode]
  · rw [hround]
    cases hparse : B.parse t value with
    | none => simp [canonical, unparsable, hparse, hverbatim t hparse htype]
    | some v =>
        rw [hvalue t v hparse htype, hsame]
        simp only [canonical, unparsable, hparse, Option.isNone_some, Bool.or_false, decide_eq_true_eq]
        constructor
        · intro h
          rw [h]
        · intro h
          simpa using congrArg Ox.Literal.value (Ox.Term.literal.inj h)
  · rw [hround]
    cases hparse : B.parse t value with
    | none => simp [unparsable, hparse, hverbatim t hparse htype]
    | some v =>
        rw [hvalue t v hparse htype]
        simp only [unparsable, hparse, Option.isNone_some, Bool.false_eq_true, false_iff]
        intro h
        exact hother (by simpa using congrArg Ox.Literal.datatype (Ox.Term.literal.inj h))

/-- The literal is of `rdf:langString` and has no tag. -/
def Untagged (l : Core.Literal) : Prop := l.language = none ∧ l.datatype.iri = Core.rdfLangString

/-- Written without a tag, the literal reads back with a different lexical form or datatype. -/
def Changed (B : Crates) (l : Core.Literal) : Prop := l.language = none ∧
  ∃ l', ((Ox.Literal.newTyped l.value ⟨l.datatype.iri⟩).encode B).decode = .literal l' ∧
    (l'.value ≠ l.value ∨ l'.datatype ≠ l.datatype.iri)

theorem decode_newTyped (value : String) (datatype : Ox.NamedNode) : ∃ value' datatype',
    ((Ox.Literal.newTyped value datatype).encode B).decode = .literal (.newTyped value' datatype') := by
  unfold Ox.Literal.encode
  split
  · exact ⟨value, datatype, rfl⟩
  · split
    · exact ⟨value, datatype, rfl⟩
    · exact ⟨_, _, rfl⟩

theorem changed_iff {l : Core.Literal} (hnone : l.language = none) :
    Changed B l ↔ roundTrips B l.value l.datatype.iri = false := by
  obtain ⟨value', datatype', hdecode⟩ := decode_newTyped (B := B) l.value ⟨l.datatype.iri⟩
  constructor
  · rintro ⟨-, l', hl', hne⟩
    cases hround : roundTrips B l.value l.datatype.iri with
    | false => rfl
    | true =>
        have hsame := (roundTrips_iff _ _).mp hround
        rw [hl'] at hsame
        obtain rfl := Ox.Term.literal.inj hsame
        simp at hne
  · intro hround
    refine ⟨hnone, _, hdecode, ?_⟩
    by_contra hsame
    simp only [Ox.Literal.value_newTyped, Ox.Literal.datatype_newTyped, not_or, not_not] at hsame
    have htrue : roundTrips B l.value l.datatype.iri = true := by
      refine (roundTrips_iff _ _).mpr (hdecode.trans ?_)
      rw [hsame.1, ← hsame.2]
    exact Bool.false_ne_true (hround.symm.trans htrue)

theorem literalToOx_ok {l : Core.Literal} {o : Ox.Literal} : literalToOx B l = .ok o ↔
    (∃ tag, l.language = some tag ∧ B.validLanguageTag tag = true ∧ o = .languageTagged l.value tag) ∨
      (l.language = none ∧ ¬ Untagged l ∧ ¬ Changed B l ∧ B.validIri l.datatype.iri = true ∧
        o = .newTyped l.value ⟨l.datatype.iri⟩) := by
  unfold literalToOx namedToOx
  cases hlanguage : l.language with
  | some tag =>
      simp only [Option.some.injEq, exists_eq_left', reduceCtorEq, false_and, or_false]
      split
      · rename_i hvalid
        simp [hvalid, eq_comm]
      · rename_i hvalid
        simp [hvalid]
  | none =>
      simp only [Untagged, changed_iff hlanguage, hlanguage, reduceCtorEq, false_and, exists_false, false_or, true_and]
      split
      · rename_i hlang
        simp [hlang]
      · rename_i hlang
        split
        · rename_i hround
          simp only [Bool.not_eq_true'] at hround
          simp [hround]
        · rename_i hround
          simp only [Bool.not_eq_true', Bool.not_eq_false] at hround
          split
          · rename_i hvalid
            simp [hround, hlang, hvalid, eq_comm, pure, Except.pure, bind, Except.bind]
          · rename_i hvalid
            simp [hvalid, bind, Except.bind]

/-- An accepted literal reads back from the store as it was converted. -/
theorem literal_stable {l : Core.Literal} {o : Ox.Literal} (h : literalToOx B l = .ok o) :
    (o.encode B).decode = .literal o := by
  rcases literalToOx_ok.mp h with ⟨tag, -, -, rfl⟩ | ⟨hnone, -, hchanged, -, rfl⟩
  · have htype : storedType Ox.rdfLangString = none := by decide +kernel
    simp [Ox.Literal.encode, Ox.Literal.datatype, htype, EncodedTerm.decode]
  · rw [changed_iff hnone, Bool.not_eq_false] at hchanged
    exact (roundTrips_iff _ _).mp hchanged

theorem literalFromOx_toOx {l : Core.Literal} {o : Ox.Literal} (hbuilt : l.Built) (h : literalToOx B l = .ok o) :
    literalFromOx o = .ok l := by
  rcases literalToOx_ok.mp h with ⟨tag, htag, -, rfl⟩ | ⟨hnone, -, -, -, rfl⟩
  · cases hbuilt <;> cases htag
    rfl
  · unfold literalFromOx
    simp only [Ox.Literal.language_newTyped, Ox.Literal.datatype_newTyped, Ox.Literal.value_newTyped]
    obtain ⟨value, datatype, language⟩ := l
    cases hnone
    split
    · rename_i hstring
      obtain ⟨iri⟩ := datatype
      cases hstring
      rfl
    · rfl

/-! ## Terms -/

theorem namedToOx_ok {n : Core.NamedNode} {o : Ox.NamedNode} :
    namedToOx B n = .ok o ↔ B.validIri n.iri = true ∧ o = ⟨n.iri⟩ := by
  unfold namedToOx
  split
  · rename_i h; simp [h, eq_comm]
  · rename_i h; simp [h]

theorem blankToOx_ok {b : Core.BlankNode} {o : Ox.BlankNode} :
    blankToOx B b = .ok o ↔ B.validBlankNode b.id = true ∧ o = ⟨b.id⟩ := by
  unfold blankToOx
  split
  · rename_i h; simp [h, eq_comm]
  · rename_i h; simp [h]

theorem subjectFromOx_toOx {s : Core.NamedOrBlankNode} {o : Ox.NamedOrBlankNode} (h : subjectToOx B s = .ok o) :
    subjectFromOx o = s := by
  cases s with
  | named n =>
      obtain ⟨a, ha, rfl⟩ := map_eq_ok.mp h
      obtain ⟨-, rfl⟩ := namedToOx_ok.mp ha
      rfl
  | blank b =>
      obtain ⟨a, ha, rfl⟩ := map_eq_ok.mp h
      obtain ⟨-, rfl⟩ := blankToOx_ok.mp ha
      rfl

theorem namedFromOx_toOx {n : Core.NamedNode} {o : Ox.NamedNode} (h : namedToOx B n = .ok o) : namedFromOx o = n := by
  obtain ⟨-, rfl⟩ := namedToOx_ok.mp h
  rfl

theorem graphFromOx_toOx {g : Core.NamedOrDefault} {o : Ox.GraphName} (h : graphToOx B g = .ok o) :
    graphFromOx o = .ok g := by
  cases g with
  | named n =>
      obtain ⟨a, ha, rfl⟩ := map_eq_ok.mp h
      obtain ⟨-, rfl⟩ := namedToOx_ok.mp ha
      rfl
  | default =>
      cases h
      rfl

theorem termFromOx_toOx {t : Core.Term} {o : Ox.Term} (hbuilt : ∀ l, t = .literal l → l.Built)
    (h : termToOx B t = .ok o) : (o.encode B).decode = o ∧ termFromOx o = .ok t := by
  cases t with
  | named n =>
      obtain ⟨a, ha, rfl⟩ := map_eq_ok.mp h
      obtain ⟨-, rfl⟩ := namedToOx_ok.mp ha
      exact ⟨rfl, rfl⟩
  | blank b =>
      obtain ⟨a, ha, rfl⟩ := map_eq_ok.mp h
      obtain ⟨-, rfl⟩ := blankToOx_ok.mp ha
      exact ⟨rfl, rfl⟩
  | literal l =>
      obtain ⟨a, ha, rfl⟩ := map_eq_ok.mp h
      exact ⟨literal_stable ha, map_eq_ok.mpr ⟨l, literalFromOx_toOx (hbuilt l rfl) ha, rfl⟩⟩

/-! ## Quads -/

theorem quadToOx_ok {q : Core.Quad} {o : Ox.Quad} : quadToOx B q = .ok o ↔
    subjectToOx B q.subject = .ok o.subject ∧ namedToOx B q.predicate = .ok o.predicate ∧
      termToOx B q.object = .ok o.object ∧ graphToOx B q.graph = .ok o.graphName := by
  unfold quadToOx
  simp only [bind, Except.bind, pure, Except.pure]
  obtain ⟨os, op, oo, og⟩ := o
  cases subjectToOx B q.subject <;> simp
  cases namedToOx B q.predicate <;> simp
  cases termToOx B q.object <;> simp
  cases graphToOx B q.graph <;> simp

/-- An accepted quad reads back as it was written. -/
theorem quadFromOx_toOx {q : Core.Quad} {o : Ox.Quad} (hbuilt : q.Built) (h : quadToOx B q = .ok o) :
    quadFromOx (o.encode B).decode = .ok q := by
  obtain ⟨hsubject, hpredicate, hobject, hgraph⟩ := quadToOx_ok.mp h
  obtain ⟨hstable, hterm⟩ := termFromOx_toOx hbuilt hobject
  unfold quadFromOx
  simp only [Ox.Quad.encode, EncodedQuad.decode, hstable, hterm, subjectFromOx_toOx hsubject,
    namedFromOx_toOx hpredicate, graphFromOx_toOx hgraph]
  rfl

/-- No two accepted quads are stored alike. -/
theorem eq_of_encode_eq {q₁ q₂ : Core.Quad} {o₁ o₂ : Ox.Quad} (hbuilt₁ : q₁.Built) (hbuilt₂ : q₂.Built)
    (h₁ : quadToOx B q₁ = .ok o₁) (h₂ : quadToOx B q₂ = .ok o₂) (heq : o₁.encode B = o₂.encode B) : q₁ = q₂ := by
  have hread₁ := quadFromOx_toOx hbuilt₁ h₁
  rw [heq, quadFromOx_toOx hbuilt₂ h₂] at hread₁
  exact (Except.ok.inj hread₁).symm

/-- What makes a quad unfit for the store: an invalid IRI, blank-node label or language tag, an `rdf:langString`
without a tag, or a literal that would read back changed. -/
inductive Unfit (B : Crates) (q : Core.Quad) : Prop
  | subjectIri {n} (hq : q.subject = .named n) (h : B.validIri n.iri = false)
  | subjectBlank {b} (hq : q.subject = .blank b) (h : B.validBlankNode b.id = false)
  | predicateIri (h : B.validIri q.predicate.iri = false)
  | objectIri {n} (hq : q.object = .named n) (h : B.validIri n.iri = false)
  | objectBlank {b} (hq : q.object = .blank b) (h : B.validBlankNode b.id = false)
  | languageTag {l tag} (hq : q.object = .literal l) (hl : l.language = some tag) (h : B.validLanguageTag tag = false)
  | datatypeIri {l} (hq : q.object = .literal l) (hl : l.language = none) (h : B.validIri l.datatype.iri = false)
  | untagged {l} (hq : q.object = .literal l) (h : Untagged l)
  | changed {l} (hq : q.object = .literal l) (h : Changed B l)
  | graphIri {n} (hq : q.graph = .named n) (h : B.validIri n.iri = false)

theorem literalToOx_error {l : Core.Literal} {u : Unrepresentable} (h : literalToOx B l = .error u) :
    (∃ tag, l.language = some tag ∧ B.validLanguageTag tag = false) ∨ Untagged l ∨ Changed B l ∨
      (l.language = none ∧ B.validIri l.datatype.iri = false) := by
  by_contra hfit
  simp only [not_or, not_exists, not_and, Bool.not_eq_false] at hfit
  obtain ⟨htag, huntagged, hchanged, hiri⟩ := hfit
  cases hlanguage : l.language with
  | some tag => cases h.symm.trans (literalToOx_ok.mpr (Or.inl ⟨tag, hlanguage, htag tag hlanguage, rfl⟩))
  | none =>
      cases h.symm.trans
        (literalToOx_ok.mpr (Or.inr ⟨hlanguage, huntagged, hchanged, hiri hlanguage, rfl⟩))

theorem namedToOx_error {n : Core.NamedNode} {u : Unrepresentable} (h : namedToOx B n = .error u) :
    B.validIri n.iri = false := by
  by_contra hvalid
  cases h.symm.trans (namedToOx_ok.mpr ⟨Bool.not_eq_false _ ▸ hvalid, rfl⟩)

theorem blankToOx_error {b : Core.BlankNode} {u : Unrepresentable} (h : blankToOx B b = .error u) :
    B.validBlankNode b.id = false := by
  by_contra hvalid
  cases h.symm.trans (blankToOx_ok.mpr ⟨Bool.not_eq_false _ ▸ hvalid, rfl⟩)

theorem quadToOx_error {q : Core.Quad} {u : Unrepresentable} (h : quadToOx B q = .error u) :
    subjectToOx B q.subject = .error u ∨ namedToOx B q.predicate = .error u ∨ termToOx B q.object = .error u ∨
      graphToOx B q.graph = .error u := by
  unfold quadToOx at h
  simp only [bind, Except.bind, pure, Except.pure] at h
  cases hs : subjectToOx B q.subject with
  | error e => simp_all
  | ok s =>
      cases hp : namedToOx B q.predicate with
      | error e => simp_all
      | ok p =>
          cases ho : termToOx B q.object with
          | error e => simp_all
          | ok o =>
              cases hg : graphToOx B q.graph with
              | error e => simp_all
              | ok g => simp_all

/-- Nothing is refused needlessly. -/
theorem unfit_of_refused {q : Core.Quad} {u : Unrepresentable} (h : quadToOx B q = .error u) : Unfit B q := by
  obtain ⟨s, p, o, g⟩ := q
  rcases quadToOx_error h with hs | hp | ho | hg
  · cases s with
    | named n => exact .subjectIri rfl (namedToOx_error (map_eq_error.mp hs))
    | blank b => exact .subjectBlank rfl (blankToOx_error (map_eq_error.mp hs))
  · exact .predicateIri (namedToOx_error hp)
  · cases o with
    | named n => exact .objectIri rfl (namedToOx_error (map_eq_error.mp ho))
    | blank b => exact .objectBlank rfl (blankToOx_error (map_eq_error.mp ho))
    | literal l =>
        rcases literalToOx_error (map_eq_error.mp ho) with ⟨tag, htag, hinvalid⟩ | huntagged | hchanged | ⟨hnone, hiri⟩
        · exact .languageTag rfl htag hinvalid
        · exact .untagged rfl huntagged
        · exact .changed rfl hchanged
        · exact .datatypeIri rfl hnone hiri
  · cases g with
    | named n => exact .graphIri rfl (namedToOx_error (map_eq_error.mp hg))
    | default => cases hg

/-- Nothing unfit is accepted. -/
theorem not_unfit {q : Core.Quad} {o : Ox.Quad} (hok : quadToOx B q = .ok o) : ¬ Unfit B q := by
  intro h
  obtain ⟨s, p, t, g⟩ := q
  obtain ⟨hs, hp, ht, hg⟩ := quadToOx_ok.mp hok
  cases h with
  | subjectIri hq h =>
      cases hq
      obtain ⟨a, ha, -⟩ := map_eq_ok.mp hs
      exact Bool.false_ne_true (h.symm.trans (namedToOx_ok.mp ha).1)
  | subjectBlank hq h =>
      cases hq
      obtain ⟨a, ha, -⟩ := map_eq_ok.mp hs
      exact Bool.false_ne_true (h.symm.trans (blankToOx_ok.mp ha).1)
  | predicateIri h => exact Bool.false_ne_true (h.symm.trans (namedToOx_ok.mp hp).1)
  | objectIri hq h =>
      cases hq
      obtain ⟨a, ha, -⟩ := map_eq_ok.mp ht
      exact Bool.false_ne_true (h.symm.trans (namedToOx_ok.mp ha).1)
  | objectBlank hq h =>
      cases hq
      obtain ⟨a, ha, -⟩ := map_eq_ok.mp ht
      exact Bool.false_ne_true (h.symm.trans (blankToOx_ok.mp ha).1)
  | graphIri hq h =>
      cases hq
      obtain ⟨a, ha, -⟩ := map_eq_ok.mp hg
      exact Bool.false_ne_true (h.symm.trans (namedToOx_ok.mp ha).1)
  | languageTag hq hl h =>
      cases hq
      obtain ⟨a, ha, -⟩ := map_eq_ok.mp ht
      rcases literalToOx_ok.mp ha with ⟨tag, htag, hvalid, -⟩ | ⟨hnone, -⟩
      · cases hl.symm.trans htag
        exact Bool.false_ne_true (h.symm.trans hvalid)
      · cases hl.symm.trans hnone
  | datatypeIri hq hl h =>
      cases hq
      obtain ⟨a, ha, -⟩ := map_eq_ok.mp ht
      rcases literalToOx_ok.mp ha with ⟨tag, htag, -⟩ | ⟨-, -, -, hvalid, -⟩
      · cases hl.symm.trans htag
      · exact Bool.false_ne_true (h.symm.trans hvalid)
  | untagged hq h =>
      cases hq
      obtain ⟨a, ha, -⟩ := map_eq_ok.mp ht
      rcases literalToOx_ok.mp ha with ⟨tag, htag, -⟩ | ⟨-, hfit, -⟩
      · cases h.1.symm.trans htag
      · exact hfit h
  | changed hq h =>
      cases hq
      obtain ⟨a, ha, -⟩ := map_eq_ok.mp ht
      rcases literalToOx_ok.mp ha with ⟨tag, htag, -⟩ | ⟨-, -, hfit, -⟩
      · cases h.1.symm.trans htag
      · exact hfit h

theorem refused_iff {q : Core.Quad} : (∃ u, quadToOx B q = .error u) ↔ Unfit B q := by
  constructor
  · rintro ⟨u, h⟩
    exact unfit_of_refused h
  · intro h
    cases hok : quadToOx B q with
    | error u => exact ⟨u, rfl⟩
    | ok o => exact (not_unfit hok h).elim

/-! ## The contract -/

/-- Quads are stored verbatim or refused: what is accepted reads back, no two accepted quads are stored alike, and a
quad is refused exactly when it cannot be stored. -/
theorem quad_verbatim_or_refused (B : Crates) :
    (∀ q o, q.Built → quadToOx B q = .ok o → quadFromOx (o.encode B).decode = .ok q) ∧
      (∀ q₁ q₂ o₁ o₂, q₁.Built → q₂.Built → quadToOx B q₁ = .ok o₁ → quadToOx B q₂ = .ok o₂ → q₁ ≠ q₂ →
        o₁.encode B ≠ o₂.encode B) ∧
      ∀ q, (∃ u, quadToOx B q = .error u) ↔ Unfit B q := by
  refine ⟨fun q o hbuilt h => quadFromOx_toOx hbuilt h, ?_, fun q => refused_iff⟩
  intro q₁ q₂ o₁ o₂ hbuilt₁ hbuilt₂ h₁ h₂ hne heq
  exact hne (eq_of_encode_eq hbuilt₁ hbuilt₂ h₁ h₂ heq)

/-- Unsigned integers in decimal notation; the other types parse nothing. -/
def integerCrates : Crates where
  validIri iri := iri ≠ ""
  validBlankNode id := id ≠ ""
  validLanguageTag tag := tag ≠ ""
  Value := ℕ
  parse t value := if t = .integer ∧ value ≠ "" ∧ value.toList.all Char.isDigit
    then some (Nat.ofDigits 10 (value.toList.reverse.map fun c => c.toNat - '0'.toNat)) else none
  display _ v := String.ofList (Nat.toDigits 10 v)

/-- A quad whose object is a literal of the datatype. -/
def measured (value datatype : String) : Core.Quad where
  subject := .named ⟨"urn:s"⟩
  predicate := ⟨"urn:p"⟩
  object := .literal (.newTyped value ⟨datatype⟩)
  graph := .default

theorem quad_verbatim_or_refused_integers :
    quadFromOx ((⟨.namedNode ⟨"urn:s"⟩, ⟨"urn:p"⟩, .literal (.typed "1" ⟨xsd ++ "integer"⟩), .defaultGraph⟩ :
        Ox.Quad).encode integerCrates).decode = .ok (measured "1" (xsd ++ "integer")) ∧
      Unfit integerCrates (measured "01" (xsd ++ "integer")) := by
  obtain ⟨hread, -, hrefused⟩ := quad_verbatim_or_refused integerCrates
  exact ⟨hread (measured "1" (xsd ++ "integer")) _ (fun l hl => by cases hl; exact .typed _ _) (by decide +kernel),
    (hrefused (measured "01" (xsd ++ "integer"))).mp
      ⟨.nonCanonicalLiteral "01" (xsd ++ "integer"), by decide +kernel⟩⟩

end Semanticore.Oxigraph
