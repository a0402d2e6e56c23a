/-
Attribute definitions and how a later definition of an attribute changes an earlier one.

Every part of a definition but its ident may be absent, so that a redefinition states only
what it changes: laid over an earlier definition, it wins wherever it says something.

* `AttributeDef.overlay_ident`: an overlaid definition is still one of the same attribute.
-/

namespace EditorSchema

/-! ### The words of a definition -/

/-- How far an attribute is expected on its element. -/
inductive Usage where
  | required
  | recommended
  | optional
  | mandatoryWhenApplicable
  | recommendedWhenApplicable
deriving DecidableEq, Repr

/-- How a definition relates to an earlier one of the same attribute. -/
inductive Mode where
  | add
  | change
  | delete
  | replace
deriving DecidableEq, Repr

/-- Whether an attribute may have values that its list of values does not name. -/
inductive ValueListKind where
  | openEnded
  | closed
  | semiOpen
deriving DecidableEq, Repr

/-- The word for a usage. -/
def Usage.word : Usage → String
  | .required => "req"
  | .recommended => "rec"
  | .optional => "opt"
  | .mandatoryWhenApplicable => "mwa"
  | .recommendedWhenApplicable => "rwa"

/-- The usage that a word names. -/
def Usage.ofWord? : String → Option Usage
  | "req" => some .required
  | "rec" => some .recommended
  | "opt" => some .optional
  | "mwa" => some .mandatoryWhenApplicable
  | "rwa" => some .recommendedWhenApplicable
  | _ => none

/-- The word for a mode. -/
def Mode.word : Mode → String
  | .add => "add"
  | .change => "change"
  | .delete => "delete"
  | .replace => "replace"

/-- The mode that a word names. -/
def Mode.ofWord? : String → Option Mode
  | "add" => some .add
  | "change" => some .change
  | "delete" => some .delete
  | "replace" => some .replace
  | _ => none

/-- The word for a kind of value list. -/
def ValueListKind.word : ValueListKind → String
  | .openEnded => "open"
  | .closed => "closed"
  | .semiOpen => "semi"

/-- The kind of value list that a word names. -/
def ValueListKind.ofWord? : String → Option ValueListKind
  | "open" => some .openEnded
  | "closed" => some .closed
  | "semi" => some .semiOpen
  | _ => none

/-! ### Definitions -/

/-- One value that an attribute may have. -/
structure ValueItem where
  ident : String
  description : Option String
deriving DecidableEq, Repr

/-- A definition or redefinition of an attribute. -/
structure AttributeDef where
  ident : String
  description : Option String := none
  dataType : Option String := none
  minOccurs : Option String := none
  maxOccurs : Option String := none
  values : Option (List ValueItem) := none
  valuesKind : Option ValueListKind := none
  usage : Option Usage := none
  mode : Option Mode := none
  /-- Whether editors should not show the attribute. -/
  hidden : Bool := false
deriving DecidableEq, Repr

namespace AttributeDef

/-- The mode of a definition, which is to add when none is stated. -/
def effectiveMode (d : AttributeDef) : Mode := d.mode.getD .add

/-- Whether a definition makes its attribute required. -/
def isRequired (d : AttributeDef) : Bool := d.usage == some .required

/-- A definition with what another one states laid over it. -/
def overlay (base change : AttributeDef) : AttributeDef where
  ident := base.ident
  description := change.description <|> base.description
  dataType := change.dataType <|> base.dataType
  minOccurs := change.minOccurs <|> base.minOccurs
  maxOccurs := change.maxOccurs <|> base.maxOccurs
  values := change.values <|> base.values
  valuesKind := change.valuesKind <|> base.valuesKind
  usage := change.usage <|> base.usage
  mode := change.mode <|> base.mode
  hidden := base.hidden

/-- A definition keeps its ident when another one is laid on it. -/
theorem overlay_ident (base change : AttributeDef) : (base.overlay change).ident = base.ident := rfl

end AttributeDef

/-- An entry in the list of attributes of a spec. -/
inductive AttributeEntry where
  /-- A definition. -/
  | own (definition : AttributeDef)
  /-- A mention of an attribute that a class defines, which has no effect of its own. -/
  | mention (className name : Option String)
deriving DecidableEq, Repr

/-- The definition of an entry that has one. -/
def AttributeEntry.definition? : AttributeEntry → Option AttributeDef
  | .own definition => some definition
  | .mention _ _ => none

end EditorSchema
