/-
Expansion: the contents of a table with what macros hold in place of their names.

Content that names a macro becomes the content of the macro, and a group in a particle that
is the ident of a macro becomes the particle of the macro.  What is left without a part
disappears, and a model of which nothing is left is empty.  The expanded content of a macro
is kept, so that each macro is expanded once.

A chain of macros being expanded never holds a macro twice: the macros that are not on the
chain are taken along as fresh, and the expansion ends because opening one uses it up.

* `Table.expand`: the table with all contents expanded.
-/
import EditorSchema.Fresh
import EditorSchema.Spec.Table

namespace EditorSchema

namespace Expansion

/-- The expanded contents of macros so far. -/
abbrev Known := Dictionary Content

/-- The place that is named when content names a macro that the table does not hold. -/
def tablePlace : String := "spec table"

/-- A sequence or choice of what is left, where something is. -/
def wrapAll (wrap : List Particle → Particle) (parts : List Particle) : Option Particle :=
  if parts.isEmpty then none else some (wrap parts)

mutual

/-- Expanded content, where the macros of `chain` are being expanded and those of `fresh` are
not. -/
def ofContent (t : Table) (fresh chain : List String) (k : Known) :
    Content → Except SpecFault (Content × Known)
  | .empty => .ok (.empty, k)
  | .ofMacro ident => ofMacro t fresh chain k ident
  | .model p => do
    let (p, k) ← ofParticle t fresh chain k p
    return (.ofParticle? p, k)
termination_by c => (fresh.length, sizeOf c)

/-- The expanded content of a macro. -/
def ofMacro (t : Table) (fresh chain : List String) (k : Known) (ident : String) :
    Except SpecFault (Content × Known) :=
  match k.get? ident with
  | some c => .ok (c, k)
  | none =>
    match t.macro? ident with
    | none => .error (.notFound ident tablePlace)
    | some m =>
      if _h : ident ∈ fresh then do
        let (c, k) ← ofContent t (without ident fresh) (chain ++ [ident]) k m.content
        return (c, k.insert ident c)
      else .error (.circularReference chain ident)
termination_by (fresh.length, 0)
decreasing_by exact Prod.Lex.left _ _ (length_without_lt _h)

/-- What is left of an expanded particle. -/
def ofParticle (t : Table) (fresh chain : List String) (k : Known) :
    Particle → Except SpecFault (Option Particle × Known)
  | .group ident =>
    if (t.macro? ident).isSome then do
      let (c, k) ← ofMacro t fresh chain k ident
      return (c.particle?, k)
    else .ok (some (.group ident), k)
  | .sequence parts => do
    let (parts, k) ← ofParticles t fresh chain k parts
    return (wrapAll .sequence parts, k)
  | .alternate branches => do
    let (branches, k) ← ofParticles t fresh chain k branches
    return (wrapAll .alternate branches, k)
termination_by p => (fresh.length, sizeOf p)

/-- What is left of expanded particles, one after the other. -/
def ofParticles (t : Table) (fresh chain : List String) (k : Known) :
    List Particle → Except SpecFault (List Particle × Known)
  | [] => .ok ([], k)
  | p :: ps => do
    let (kept, k) ← ofParticle t fresh chain k p
    let (others, k) ← ofParticles t fresh chain k ps
    return (kept.toList ++ others, k)
termination_by ps => (fresh.length, sizeOf ps)

end

/-- The expanded contents of specs by ident, one spec after the other. -/
def ofSpecs (t : Table) : List Spec → Known → Except SpecFault (Dictionary Content)
  | [], _ => .ok .empty
  | s :: specs, k =>
    match s.content? with
    | none => ofSpecs t specs k
    | some content => do
      let (expanded, k) ← ofContent t t.idents [] k content
      let others ← ofSpecs t specs k
      return others.insert s.ident expanded

end Expansion

/-- The table with all contents expanded. -/
def Table.expand (t : Table) : Except SpecFault Table := do
  let contents ← Expansion.ofSpecs t t.toList .empty
  return t.mapContent fun s => (contents.get? s.ident).getD .empty

end EditorSchema
