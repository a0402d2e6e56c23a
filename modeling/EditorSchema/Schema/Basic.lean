/-
Schemas: all that an editor needs to know about the elements of its documents.

* `Schema.describe`: records with their attributes, indexed by their groups;
* `Schema.ofTable`: the schema of a classification, where its specs are loaded;
* `Schema.compile`: the schema of a classification, where its specs are still to be loaded.
-/
import EditorSchema.Corpus.Basic
import EditorSchema.Schema.Attributes
import EditorSchema.Schema.Elaboration

namespace EditorSchema

/-- A description of the node and mark types of an editor. -/
structure Schema where
  records : List Record
  attributes : AttributeDictionary
  /-- The names of the records of each group, in the order of the records. -/
  elementGroups : Dictionary (List String)
  /-- The idents of the elements of each module, in order. -/
  modules : Dictionary (List String)
deriving DecidableEq

namespace Schema

/-- Names under keys, those of one key in the order of the list. -/
def gather (pairs : List (String × String)) : Dictionary (List String) :=
  pairs.foldl (fun d (key, name) => d.insert key (((d.get? key).getD []) ++ [name])) .empty

/-- The groups of records, each with the name of its record. -/
def groupPairs (records : List Record) : List (String × String) :=
  records.flatMap fun r => r.groups.map (·, r.name)

/-- The modules of elements, each with the ident of its element. -/
def modulePairs (t : Table) : List (String × String) :=
  t.toList.filterMap fun
    | .ofElement e => e.module?.map (·, e.ident)
    | _ => none

/-- The schema of records and a dictionary of attributes. -/
def describe (records : List Record) (attributes : AttributeDictionary) (t : Table) : Schema where
  records
  attributes
  elementGroups := gather (groupPairs records)
  modules := gather (modulePairs t)

/-- The first record of a name. -/
def record? (s : Schema) (name : String) : Option Record := s.records.find? (·.name == name)

/-- The schema of a classification, where its specs are loaded. -/
def ofTable (settings : Settings) (c : Classification) (d : Decoration) (t : Table) :
    Except SchemaFault Schema := do
  let records ← c.elaborate t d
  let (attributes, resolved) ← Attributes.resolve t settings.hidden records
  return describe resolved attributes t

/-- A classification classifies no ident twice. -/
def validate (c : Classification) : Except SchemaFault Unit :=
  match c.repetition? with
  | some (ident, first, second) => .error (.classifiedTwice ident first second)
  | none => .ok ()

/-- The schema of a classification, with what was loaded for it from a source. -/
def compile (settings : Settings) (source : Source) (c : Classification) (d : Decoration) :
    Corpus × Except SchemaFault Schema :=
  match validate c with
  | .error fault => (.empty, .error fault)
  | .ok () =>
    match Corpus.loadExpanded settings.language source c.seeds with
    | (corpus, .error fault) => (corpus, .error (.spec fault))
    | (corpus, .ok t) => (corpus, ofTable settings c d t)

end Schema

end EditorSchema
