/-
Markup as a tree: elements with attributes, text, comments and instructions.

Elements are told apart by their local names, in whatever namespace they are.  Attributes of
interest have no namespace, except for the language of a text.

* `Node.descendants`: a node and all that it holds, in document order;
* `Node.content`: the character data of a node.
-/

namespace EditorSchema.Xml

/-- An attribute of an element. -/
structure Attribute where
  /-- The namespace of the name, where it has one. -/
  space : Option String
  name : String
  value : String
deriving DecidableEq, Repr

/-- A part of a document. -/
inductive Node where
  | element (space : Option String) (name : String) (attributes : List Attribute)
    (children : List Node)
  | text (characters : String)
  | comment (text : String)
  | instruction (target text : String)
deriving Repr, Inhabited

/-- What the namespaces that belong to markup itself begin with. -/
def markupSpaces : String := "http://www.w3.org/"

/-- The namespace of names with the prefix `xml`. -/
def xmlSpace : String := markupSpaces ++ "XML/1998/namespace"

namespace Node

/-- Whether a node is an element. -/
def isElement : Node → Bool
  | .element .. => true
  | _ => false

/-- The local name of an element; other nodes have none. -/
def name : Node → String
  | .element _ name _ _ => name
  | _ => ""

/-- The attributes of an element; other nodes have none. -/
def attributes : Node → List Attribute
  | .element _ _ attributes _ => attributes
  | _ => []

/-- The nodes directly in an element. -/
def children : Node → List Node
  | .element _ _ _ children => children
  | _ => []

/-- The elements directly in an element. -/
def elements (n : Node) : List Node := n.children.filter isElement

/-- The elements of a name directly in an element. -/
def elementsNamed (n : Node) (name : String) : List Node :=
  n.elements.filter fun child => child.name == name

/-- The first element of a name directly in an element. -/
def elementNamed? (n : Node) (name : String) : Option Node :=
  n.elements.find? fun child => child.name == name

/-- The value of the attribute of a name in a namespace. -/
def attributeIn? (n : Node) (space : Option String) (name : String) : Option String :=
  (n.attributes.find? fun a => a.space == space && a.name == name).map (·.value)

/-- The value of the attribute of a name without a namespace. -/
def attribute? (n : Node) (name : String) : Option String := n.attributeIn? none name

/-- The language that a node says its text is in. -/
def language? (n : Node) : Option String := n.attributeIn? (some xmlSpace) "lang"

mutual

/-- A node and the nodes in it, in document order. -/
def descendants : Node → List Node
  | .element space name attributes children =>
    .element space name attributes children :: descendantsAll children
  | n => [n]

/-- Nodes and the nodes in them, in document order. -/
def descendantsAll : List Node → List Node
  | [] => []
  | n :: ns => descendants n ++ descendantsAll ns

end

/-- The descendants of several nodes are those of each, one after the other. -/
theorem descendantsAll_eq (ns : List Node) : descendantsAll ns = ns.flatMap descendants := by
  induction ns with
  | nil => rfl
  | cons n ns ih => simp [descendantsAll, ih]

/-- The characters of a text node; other nodes have none of their own. -/
def characters : Node → String
  | .text characters => characters
  | _ => ""

/-- The character data in a node. -/
def content (n : Node) : String := String.join (n.descendants.map characters)

end Node

end EditorSchema.Xml
