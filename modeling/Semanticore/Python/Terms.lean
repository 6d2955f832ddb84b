import Semanticore.Context.Query
import Semanticore.Lib.Except

/-!
# RDF terms and JSON values as Python objects

`semanticore-context-py/src/terms.rs`. A triple is a tuple of three objects, an event body a nested structure of plain
Python values.
-/

namespace Semanticore.Python
open Semanticore.Core Semanticore.Context Semanticore.Lib

/-! ## Objects -/

/-- A code point of a Python `str`. -/
inductive CodePoint
  | scalar (c : Char)
  | surrogate (n : Fin 0x800)
deriving DecidableEq

abbrev PyStr := List CodePoint

/-- The objects that callers pass, as far as the binding tells them apart. -/
inductive PyObj
  | none
  | bool (b : Bool)
  | int (n : Int)
  | float (bits : UInt64)
  | str (s : PyStr)
  | list (items : List PyObj)
  | tuple (items : List PyObj)
  | dict (entries : List (PyObj × PyObj))
  | blankNode (b : BlankNode)
  | literal (l : Literal)
  | itemId (id : ItemId)
  | scope (s : ContextScope)
  | provenance (p : Provenance)
  | iterable (cls : String) (items : List PyObj)
  | other (cls : String)

def PyObj.typeName : PyObj → String
  | .none => "NoneType"
  | .bool _ => "bool"
  | .int _ => "int"
  | .float _ => "float"
  | .str _ => "str"
  | .list _ => "list"
  | .tuple _ => "tuple"
  | .dict _ => "dict"
  | .blankNode _ => "BlankNode"
  | .literal _ => "Literal"
  | .itemId _ => "ItemId"
  | .scope _ => "ContextScope"
  | .provenance _ => "Provenance"
  | .iterable cls _ => cls
  | .other cls => cls

inductive PyErr
  | typeError (message : String)
  | valueError (message : String)
  | unicodeEncodeError
deriving DecidableEq, Repr

abbrev PyResult := Except PyErr

/-! ## Strings -/

def CodePoint.char : CodePoint → PyResult Char
  | .scalar c => .ok c
  | .surrogate _ => .error .unicodeEncodeError

/-- `PyString::to_str`. UTF-8 has no surrogates. -/
def PyStr.toStr (s : PyStr) : PyResult String := do return String.ofList (← s.mapM CodePoint.char)

/-- `PyString::new`. -/
def PyStr.ofString (s : String) : PyStr := s.toList.map .scalar

theorem toStr_eq_ok {s : PyStr} {t : String} : s.toStr = .ok t ↔ s = PyStr.ofString t := by
  have hchar : ∀ (p : CodePoint) (c : Char), p.char = .ok c ↔ p = .scalar c := by
    intro p c
    cases p <;> simp [CodePoint.char]
  have hchars : ∀ cs : List Char, s.mapM CodePoint.char = .ok cs ↔ s = cs.map .scalar :=
    fun cs => mapM_eq_ok_map CodePoint.scalar hchar
  unfold PyStr.toStr PyStr.ofString
  cases hs : s.mapM CodePoint.char with
  | error e =>
      refine ⟨fun h => (by cases h), fun h => ?_⟩
      rw [(hchars _).mpr h] at hs
      cases hs
  | ok cs =>
      rw [(hchars cs).mp hs]
      constructor
      · intro h
        cases h
        simp
      · intro h
        have hcs : cs = t.toList := List.map_injective_iff.mpr (fun a b h => by cases h; rfl) h
        rw [hcs]
        exact congrArg Except.ok String.ofList_toList

@[simp] theorem toStr_ofString (s : String) : (PyStr.ofString s).toStr = .ok s := toStr_eq_ok.mpr rfl

theorem ofString_injective : Function.Injective PyStr.ofString := by
  intro s t h
  have hs := toStr_ofString s
  rw [h, toStr_ofString] at hs
  cases hs
  rfl

/-! ## Terms -/

def subjectFromPy : PyObj → PyResult NamedOrBlankNode
  | .str s => do return .named ⟨← s.toStr⟩
  | .blankNode b => .ok (.blank b)
  | o => .error (.typeError ("subject must be an IRI str or a BlankNode, not " ++ o.typeName))

def predicateFromPy : PyObj → PyResult NamedNode
  | .str s => do return ⟨← s.toStr⟩
  | o => .error (.typeError ("predicate must be an IRI str, not " ++ o.typeName))

def objectFromPy : PyObj → PyResult Term
  | .str s => do return .named ⟨← s.toStr⟩
  | .blankNode b => .ok (.blank b)
  | .literal l => .ok (.literal l)
  | o => .error (.typeError ("object must be an IRI str, a BlankNode or a Literal, not " ++ o.typeName))

def subjectToPy : NamedOrBlankNode → PyObj
  | .named n => .str (.ofString n.iri)
  | .blank b => .blankNode b

def objectToPy : Term → PyObj
  | .named n => .str (.ofString n.iri)
  | .blank b => .blankNode b
  | .literal l => .literal l

def tripleFromPy : PyObj → PyResult Quad
  | .tuple [s, p, o] => do return Quad.triple (← subjectFromPy s) (← predicateFromPy p) (← objectFromPy o)
  | .tuple items => .error (.valueError ("a triple has 3 terms, not " ++ toString items.length))
  | o => .error (.typeError ("a triple is a (subject, predicate, object) tuple, not " ++ o.typeName))

/-- `triple_to_py`. The graph is not exposed. -/
def tripleToPy (q : Quad) : PyObj :=
  .tuple [subjectToPy q.subject, .str (.ofString q.predicate.iri), objectToPy q.object]

theorem subjectFromPy_eq_ok {o : PyObj} {s : NamedOrBlankNode} : subjectFromPy o = .ok s ↔ o = subjectToPy s := by
  rcases s with ⟨⟨iri⟩⟩ | b <;> cases o <;> simp [subjectFromPy, subjectToPy, map_eq_ok, toStr_eq_ok]

theorem predicateFromPy_eq_ok {o : PyObj} {p : NamedNode} :
    predicateFromPy o = .ok p ↔ o = .str (.ofString p.iri) := by
  obtain ⟨iri⟩ := p
  cases o <;> simp [predicateFromPy, map_eq_ok, toStr_eq_ok]

theorem objectFromPy_eq_ok {o : PyObj} {t : Term} : objectFromPy o = .ok t ↔ o = objectToPy t := by
  rcases t with ⟨⟨iri⟩⟩ | b | l <;> cases o <;> simp [objectFromPy, objectToPy, map_eq_ok, toStr_eq_ok]

/-- A tuple is read as a triple exactly if it is what the triple is shown as. -/
theorem tripleFromPy_eq_ok {o : PyObj} {q : Quad} :
    tripleFromPy o = .ok q ↔ o = tripleToPy q ∧ q.graph = .default := by
  obtain ⟨s, p, t, g⟩ := q
  have hread : ∀ a b c, tripleFromPy (.tuple [a, b, c]) = .ok ⟨s, p, t, g⟩ ↔
      (a = subjectToPy s ∧ b = .str (.ofString p.iri) ∧ c = objectToPy t) ∧ g = .default := by
    intro a b c
    simp only [tripleFromPy, bind_eq_ok, subjectFromPy_eq_ok, predicateFromPy_eq_ok, objectFromPy_eq_ok]
    constructor
    · rintro ⟨s', rfl, p', rfl, t', rfl, h⟩
      cases h
      exact ⟨⟨rfl, rfl, rfl⟩, rfl⟩
    · rintro ⟨⟨rfl, rfl, rfl⟩, rfl⟩
      exact ⟨s, rfl, p, rfl, t, rfl, rfl⟩
  constructor
  · intro h
    cases o with
    | tuple items =>
        match items, h with
        | [a, b, c], h =>
            obtain ⟨⟨rfl, rfl, rfl⟩, hg⟩ := (hread a b c).mp h
            exact ⟨rfl, hg⟩
    | _ => cases h
  · rintro ⟨rfl, hg⟩
    exact (hread _ _ _).mpr ⟨⟨rfl, rfl, rfl⟩, hg⟩

end Semanticore.Python
