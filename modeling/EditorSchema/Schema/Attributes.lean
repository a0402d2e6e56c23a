/-
Attributes: which attributes the records of a schema may and must have.

An element has the attributes of the classes that it belongs to, class by class and depth
first, and then its own.  The first definition of an attribute among them is the one that
all elements share.  A later one that changes or replaces it holds for the element alone,
under a key of its own, so that the shared definition stays as it is; it needs an earlier
definition in the same element's ancestry to start from.

* `Ancestry.definitions`: the definitions that an element meets, in order;
* `AttributeLists`: the attributes of one record;
* `Attributes.resolve`: the attributes of all records, and the dictionary of definitions.
-/
import EditorSchema.Fresh
import EditorSchema.Record
import EditorSchema.Schema.Fault
import EditorSchema.Spec.Table

namespace EditorSchema

/-! ### Ancestry -/

namespace Ancestry

/-- The definitions that memberships lead to, class by class and depth first.  The path holds
the idents from the element, which comes first, to the spec that states the memberships,
and `fresh` the idents that are not on it. -/
def inherited (t : Table) (fresh path : List String) (referrer : String) :
    List String → Except SchemaFault (List AttributeDef)
  | [] => .ok []
  | ident :: rest =>
    match t.get? ident with
    | none => .error (.notLoaded ident referrer)
    | some s =>
      if _h : ident ∈ fresh then do
        let above ← inherited t (without ident fresh) (path ++ [ident]) ident s.memberships
        let others ← inherited t fresh path referrer rest
        return above ++ s.ownDefinitions ++ others
      else .error (.circularMembership (path ++ [ident]))
termination_by memberships => (fresh.length, memberships.length)
decreasing_by
  · exact Prod.Lex.left _ _ (length_without_lt _h)
  · exact Prod.Lex.right _ (Nat.lt_succ_self _)

/-- The definitions that a spec meets: those of its classes, then its own. -/
def definitions (t : Table) (s : Spec) : Except SchemaFault (List AttributeDef) := do
  let above ← inherited t (without s.ident t.idents) [s.ident] s.ident s.memberships
  return above ++ s.ownDefinitions

end Ancestry

/-! ### The attributes of one record -/

/-- The keys of the attributes that a record may and must have. -/
structure AttributeLists where
  valid : List String := []
  required : List String := []
deriving DecidableEq, Repr

namespace AttributeLists

/-- The lists with one more key. -/
def add (l : AttributeLists) (key : String) (required : Bool) : AttributeLists where
  valid := l.valid ++ [key]
  required := if required then l.required ++ [key] else l.required

/-- The lists without a key. -/
def remove (l : AttributeLists) (key : String) : AttributeLists where
  valid := without key l.valid
  required := without key l.required

end AttributeLists

/-- Definitions of attributes by key: the ident of the attribute, or its ident together with
the name of the record that redefines it. -/
abbrev AttributeDictionary := Dictionary AttributeDef

namespace Attributes

/-- The key of the definition of an attribute that holds for one record alone. -/
def ownKey (ident recordName : String) : String := ident ++ "-" ++ recordName

/-- What is known while the definitions of a record are gone through. -/
structure Progress where
  dictionary : AttributeDictionary
  lists : AttributeLists := {}
  /-- The attributes that the record has met. -/
  met : List String := []
deriving DecidableEq

/-- Go on with the first definition of an attribute that a record meets. -/
def meet (recordName : String) (p : Progress) (d : AttributeDef) : Except SchemaFault Progress :=
  match d.effectiveMode with
  | .change | .replace => .error (.changeWithoutBase d.ident recordName)
  | .add | .delete =>
    .ok {
      dictionary := p.dictionary.insertNew d.ident d
      lists := p.lists.add d.ident d.isRequired
      met := d.ident :: p.met }

/-- Go on with a later definition of an attribute that a record has met. -/
def meetAgain (recordName : String) (p : Progress) (d : AttributeDef) :
    Except SchemaFault Progress :=
  let key := ownKey d.ident recordName
  match d.effectiveMode with
  | .change =>
    match p.dictionary.get? d.ident with
    | none => .error (.changeWithoutBase d.ident recordName)
    | some base =>
      let changed := base.overlay d
      .ok { p with
        dictionary := p.dictionary.insert key changed
        lists := (p.lists.remove d.ident).add key (changed.isRequired || base.isRequired) }
  | .replace =>
    .ok { p with
      dictionary := p.dictionary.insert key d
      lists := (p.lists.remove d.ident).add key d.isRequired }
  | .delete => .ok { p with lists := (p.lists.remove d.ident).remove key }
  | .add => .ok { p with lists := p.lists.add d.ident d.isRequired }

/-- Go on with a definition. -/
def step (recordName : String) (p : Progress) (d : AttributeDef) : Except SchemaFault Progress :=
  if p.met.contains d.ident then meetAgain recordName p d else meet recordName p d

/-- The keys of a list in order, each once. -/
def ordered (keys : List String) : List String := (IdentSet.ofIdents keys).toList

/-- A record with its attributes, where the dictionary so far is given, and the dictionary
after it.  A record without a source keeps its attributes. -/
def resolveOne (t : Table) (dictionary : AttributeDictionary) (r : Record) :
    Except SchemaFault (AttributeDictionary × Record) :=
  match r.source with
  | none => .ok (dictionary, r)
  | some source =>
    match t.get? source with
    | none => .error (.notLoaded source r.name)
    | some s => do
      let definitions ← Ancestry.definitions t s
      let p ← definitions.foldlM (step r.name) { dictionary }
      return (p.dictionary, { r with
        validAttributes := ordered p.lists.valid
        requiredAttributes := ordered p.lists.required })

/-- Records with their attributes, one after the other, and the dictionary after them. -/
def resolveAll (t : Table) : AttributeDictionary → List Record →
    Except SchemaFault (AttributeDictionary × List Record)
  | dictionary, [] => .ok (dictionary, [])
  | dictionary, r :: rest => do
    let (dictionary, first) ← resolveOne t dictionary r
    let (dictionary, others) ← resolveAll t dictionary rest
    return (dictionary, first :: others)

/-- The dictionary with the attributes of some keys hidden. -/
def hide (keys : List String) (d : AttributeDictionary) : AttributeDictionary :=
  d.map fun key definition =>
    if keys.contains key then { definition with hidden := true } else definition

/-- Records with their attributes and the dictionary of definitions, in which the attributes
of some keys are hidden. -/
def resolve (t : Table) (hidden : List String) (records : List Record) :
    Except SchemaFault (AttributeDictionary × List Record) := do
  let (dictionary, resolved) ← resolveAll t .empty records
  return (hide hidden dictionary, resolved)

end Attributes

end EditorSchema
