/-
Tables of specs, by ident.

A table holds every spec under its own ident.  The first spec that is registered under an
ident stays.

* `Table.get?_register`: what a table answers after a registration;
* `Table.get?_mapContent`: what it answers after its contents were replaced.
-/
import EditorSchema.Dictionary
import EditorSchema.Spec.Basic

namespace EditorSchema

/-- Specs by ident. -/
structure Table where
  specs : Dictionary Spec
  /-- A spec stands under its own ident. -/
  keyed : ∀ {ident spec}, specs.get? ident = some spec → spec.ident = ident

namespace Table

instance : DecidableEq Table := fun t u =>
  if h : t.specs = u.specs then .isTrue (by cases t; cases u; cases h; rfl)
  else .isFalse (fun e => h (e ▸ rfl))

instance : Repr Table := ⟨fun t n => reprPrec t.specs n⟩

/-- The table without specs. -/
def empty : Table := ⟨.empty, fun h => nomatch h⟩

instance : Inhabited Table := ⟨empty⟩

/-! ### Asking -/

/-- The spec of an ident. -/
def get? (t : Table) (ident : String) : Option Spec := t.specs.get? ident

/-- Whether there is a spec of an ident. -/
def contains (t : Table) (ident : String) : Bool := t.specs.contains ident

/-- The class of an ident. -/
def class? (t : Table) (ident : String) : Option ClassSpec :=
  match t.get? ident with
  | some (.ofClass s) => some s
  | _ => none

/-- The element of an ident. -/
def element? (t : Table) (ident : String) : Option ElementSpec :=
  match t.get? ident with
  | some (.ofElement s) => some s
  | _ => none

/-- The macro of an ident. -/
def macro? (t : Table) (ident : String) : Option MacroSpec :=
  match t.get? ident with
  | some (.ofMacro s) => some s
  | _ => none

/-- The idents of the specs, in order. -/
def idents (t : Table) : List String := t.specs.keys

/-- The specs, by ident. -/
def toList (t : Table) : List Spec := t.specs.values

/-- The number of specs. -/
def size (t : Table) : Nat := t.specs.size

/-! ### Changing -/

/-- The table with a spec under its ident, in place of what was there. -/
def put (t : Table) (spec : Spec) : Table where
  specs := t.specs.insert spec.ident spec
  keyed {ident other} h := by
    rw [Dictionary.get?_insert] at h
    split at h
    · next heq => cases h; exact heq
    · exact t.keyed h

/-- The table with a spec under its ident, where nothing was; otherwise itself. -/
def register (t : Table) (spec : Spec) : Table :=
  if t.contains spec.ident then t else t.put spec

/-- The specs of a list, the first of those with one ident. -/
def ofList (specs : List Spec) : Table := specs.foldl register empty

/-- The table with the content of every spec that has one replaced by what `f` makes of the
spec. -/
def mapContent (t : Table) (f : Spec → Content) : Table where
  specs := t.specs.map fun _ s => s.withContent (f s)
  keyed {ident spec} h := by
    rw [Dictionary.get?_map] at h
    obtain ⟨s, hs, rfl⟩ := Option.map_eq_some_iff.1 h
    rw [Spec.ident_withContent, t.keyed hs]

/-! ### Laws -/

/-- Registering a spec changes what is found under its own ident, where nothing was, and nothing
else. -/
theorem get?_register (t : Table) (spec : Spec) (ident : String) :
    (t.register spec).get? ident =
      if spec.ident = ident then t.get? ident <|> some spec else t.get? ident := by
  rw [register]
  split
  · next h =>
    split
    · next heq =>
      subst heq
      obtain ⟨s, hs⟩ := Option.isSome_iff_exists.1 h
      have : t.get? spec.ident = some s := hs
      simp [this]
    · rfl
  · next h =>
    have hn : t.get? spec.ident = none := by
      simpa [contains, Dictionary.contains, get?] using h
    rw [put, get?, Dictionary.get?_insert]
    split
    · next heq =>
      subst heq
      rw [hn]
      rfl
    · rfl

/-- Each spec is found under its ident with its content replaced. -/
theorem get?_mapContent (t : Table) (f : Spec → Content) (ident : String) :
    (t.mapContent f).get? ident = (t.get? ident).map fun s => s.withContent (f s) :=
  Dictionary.get?_map t.specs _ ident

/-- A table is determined by what it answers. -/
theorem ext_get? {t u : Table} (h : ∀ ident, t.get? ident = u.get? ident) : t = u := by
  have : t.specs = u.specs := Dictionary.ext_get? h
  cases t; cases u; cases this; rfl

end Table

end EditorSchema
