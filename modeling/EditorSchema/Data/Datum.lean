/-
Data as it is read: what settings are made of, from whatever format.

All that settings hold is text, lists and tables, so other data is not told apart.  A datum
may stand for one that the document holds elsewhere.

* `Document.text?`, `Document.list?`, `Document.table?`: a datum taken for one of a kind.
-/
import EditorSchema.Dictionary

namespace EditorSchema

/-- A piece of data. -/
inductive Datum where
  | text (s : String)
  | list (items : List Datum)
  | table (entries : List (Datum × Datum))
  /-- Nothing at all, which is an empty datum of any kind. -/
  | blank
  /-- What the document holds under a number. -/
  | elsewhere (number : Nat)
  /-- Data that is neither text nor a list nor a table. -/
  | other
deriving Repr, Inhabited

/-- A document: its data, and what it holds under numbers. -/
structure Document where
  root : Datum
  numbered : List (Nat × Datum)
  /-- Whether a table of known keys may be a list of its values. -/
  positional : Bool

namespace Document

/-- What a datum stands for. -/
def resolve (d : Document) : Datum → Datum
  | .elsewhere number => (d.numbered.lookup number).getD .other
  | datum => datum

/-- A datum as a text. -/
def text? (d : Document) (datum : Datum) : Option String :=
  match d.resolve datum with
  | .text s => some s
  | .blank => some ""
  | _ => none

/-- A datum as a list. -/
def list? {α : Type} (d : Document) (item? : Datum → Option α) (datum : Datum) :
    Option (List α) :=
  match d.resolve datum with
  | .list items => items.mapM item?
  | .blank => some []
  | _ => none

/-- A datum as a list of texts. -/
def texts? (d : Document) (datum : Datum) : Option (List String) := d.list? d.text? datum

/-- A datum as a dictionary, in which the last value of a key wins. -/
def dictionary? {α : Type} (d : Document) (value? : Datum → Option α) (datum : Datum) :
    Option (Dictionary α) :=
  match d.resolve datum with
  | .table entries => do
    return .ofList (← entries.mapM fun (key, v) => do return (← d.text? key, ← value? v))
  | .blank => some .empty
  | _ => none

/-- The entries of a table whose keys are among the known ones.  Every key is a text, and no
known one comes twice. -/
def knownEntries (d : Document) (known : List String) :
    List (Datum × Datum) → List (String × Datum) → Option (List (String × Datum))
  | [], found => some found
  | (key, v) :: rest, found => do
    let key ← d.text? key
    if !known.contains key then knownEntries d known rest found
    else if found.any (·.1 == key) then none
    else knownEntries d known rest (found ++ [(key, v)])

/-- A datum as a table of known keys, each of which may be missing.  Other keys do not
matter. -/
def fields? (d : Document) (known : List String) (datum : Datum) :
    Option (List (String × Datum)) :=
  match d.resolve datum with
  | .table entries => d.knownEntries known entries []
  | .blank => some []
  | .list items =>
    if d.positional && items.length ≤ known.length then some (known.zip items) else none
  | _ => none

/-- The value of a field, or what stands for it where it is missing. -/
def fieldOr {α : Type} (value? : Datum → Option α) (default : α) (key : String)
    (fields : List (String × Datum)) : Option α :=
  match fields.lookup key with
  | some v => value? v
  | none => some default

end Document

end EditorSchema
