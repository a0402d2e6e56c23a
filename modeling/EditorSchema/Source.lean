/-
Sources: where the texts come from that describe specs.

A source answers an ident with a text or says why there is none.  It holds finitely many
texts, however many idents it answers, which is why loading from it comes to an end.

* `Source.ofTexts`: texts at hand, by ident.
-/
import EditorSchema.Dictionary
import EditorSchema.Spec.Fault

namespace EditorSchema

/-- A supply of texts that describe specs. -/
structure Source where
  /-- The text for an ident. -/
  read : String → Except SpecFault String
  /-- All texts of the source. -/
  texts : List String
  /-- What is read is one of the texts. -/
  mem_texts : ∀ {ident text}, read ident = .ok text → text ∈ texts

namespace Source

/-- The place that is named when texts at hand hold none for an ident. -/
def memoryPlace : String := "<memory>"

/-- The source of texts at hand, by ident. -/
def ofTexts (d : Dictionary String) : Source where
  read ident :=
    match d.get? ident with
    | some text => .ok text
    | none => .error (.notFound ident memoryPlace)
  texts := d.values
  mem_texts {ident text} h := by
    split at h
    · next t ht =>
      cases h
      exact List.mem_map.2 ⟨(ident, text), Dictionary.get?_eq_some_iff.1 ht, rfl⟩
    · cases h

end Source

end EditorSchema
