/-
The nodes of YAML: what the tokens of a text describe.

A text holds one document, which is one node, perhaps after directives and between marks.

* `Node`: scalars, sequences and mappings, and aliases for nodes that an anchor names;
* `Node.ofTokens?`: the node of a document.
-/
import EditorSchema.Yaml.Token

namespace EditorSchema.Yaml

/-- A node. -/
inductive Node where
  | scalar (anchor : Option String) (plain : Bool) (text : String)
  | sequence (anchor : Option String) (items : List Node)
  | mapping (anchor : Option String) (entries : List (Node × Node))
  /-- The node of an anchor. -/
  | alias (name : String)
deriving Repr, Inhabited

namespace Node

/-- The node where nothing is. -/
def nothing : Node := .scalar none true ""

/-! ### Properties -/

/-- The anchor at the front of tokens. -/
def anchorOf : List Token → Option String × List Token
  | .anchor name :: ts => (some name, ts)
  | ts => (none, ts)

/-- The handle of the tag at the front of tokens. -/
def tagOf : List Token → Option String × List Token
  | .tag handle :: ts => (some handle, ts)
  | ts => (none, ts)

/-- The anchor and the handle of the tag at the front of tokens, in either order. -/
def properties (ts : List Token) : Option String × Option String × List Token :=
  match tagOf ts with
  | (some handle, ts) =>
    let (anchor, ts) := anchorOf ts
    (anchor, some handle, ts)
  | (none, ts) =>
    let (anchor, ts) := anchorOf ts
    let (handle, ts) := tagOf ts
    (anchor, handle, ts)

/-- Whether a handle stands for the beginning of tags: those that are declared, and those that
need not be. -/
def knownHandle (handles : List String) (handle : String) : Bool :=
  handle.isEmpty || handle == "!" || handle == "!!" || handles.contains handle

/-! ### Absence -/

/-- Whether an item of a block is empty. -/
def noItem : List Token → Bool
  | .item :: _ => true
  | .blockEnd :: _ => true
  | _ => false

/-- Whether an item of a block that is not indented is empty. -/
def noLooseItem : List Token → Bool
  | .item :: _ => true
  | .key :: _ => true
  | .value :: _ => true
  | .blockEnd :: _ => true
  | _ => false

/-- Whether a key or a value in a block is empty. -/
def noPart : List Token → Bool
  | .key :: _ => true
  | .value :: _ => true
  | .blockEnd :: _ => true
  | _ => false

/-- Whether a key or a value between braces is empty. -/
def noFlowPart : List Token → Bool
  | .value :: _ => true
  | .comma :: _ => true
  | .closeMapping :: _ => true
  | _ => false

/-- Whether a key or a value between brackets is empty. -/
def noFlowItem : List Token → Bool
  | .value :: _ => true
  | .comma :: _ => true
  | .closeSequence :: _ => true
  | _ => false

/-- Whether the value of a key is empty, between brackets or braces that `close` ends. -/
def noFlowValue (close : Token) : List Token → Bool
  | t :: _ => t == .comma || t == close
  | [] => false

/-- The tokens after a comma. -/
def afterComma : List Token → Option (List Token)
  | .comma :: rest => some rest
  | _ => none

/-! ### Nodes -/

mutual

/-- The node at the front of tokens, with the tokens after it.  In blocks, there may be
blocks, and where `loose` holds the items of a sequence that is not indented. -/
def read (handles : List String) (fuel : Nat) (blocks loose : Bool) (ts : List Token) :
    Option (Node × List Token) :=
  match fuel, ts with
  | 0, _ => none
  | _ + 1, .alias name :: rest => some (.alias name, rest)
  | fuel + 1, ts =>
    let (anchor, handle, ts) := properties ts
    if handle.any fun h => !knownHandle handles h then none
    else
      match ts with
      | .scalar plain text :: rest => some (.scalar anchor plain text, rest)
      | .openSequence :: rest => do
        let (items, rest) ← readFlowItems handles fuel true rest
        return (.sequence anchor items, rest)
      | .openMapping :: rest => do
        let (entries, rest) ← readFlowEntries handles fuel true rest
        return (.mapping anchor entries, rest)
      | .blockSequence :: rest =>
        if blocks then do
          let (items, rest) ← readItems handles fuel rest
          return (.sequence anchor items, rest)
        else empty anchor handle ts
      | .blockMapping :: rest =>
        if blocks then do
          let (entries, rest) ← readEntries handles fuel rest
          return (.mapping anchor entries, rest)
        else empty anchor handle ts
      | .item :: _ =>
        if loose then do
          let (items, rest) ← readLooseItems handles fuel ts
          return (.sequence anchor items, rest)
        else empty anchor handle ts
      | _ => empty anchor handle ts
where
  /-- The node that has properties and nothing else. -/
  empty (anchor handle : Option String) (ts : List Token) : Option (Node × List Token) :=
    if anchor.isSome || handle.isSome then some (.scalar anchor true "", ts) else none

/-- A node of a block, or nothing where it is empty. -/
def readUnless (handles : List String) (fuel : Nat) (absent blocks loose : Bool)
    (ts : List Token) : Option (Node × List Token) :=
  match fuel with
  | 0 => none
  | fuel + 1 => if absent then some (nothing, ts) else read handles fuel blocks loose ts

/-- The items of a block to its end. -/
def readItems (handles : List String) (fuel : Nat) (ts : List Token) :
    Option (List Node × List Token) :=
  match fuel, ts with
  | fuel + 1, .item :: rest => do
    let (item, rest) ← readUnless handles fuel (noItem rest) true false rest
    let (items, rest) ← readItems handles fuel rest
    return (item :: items, rest)
  | _ + 1, .blockEnd :: rest => some ([], rest)
  | _, _ => none

/-- The items of a sequence that is not indented. -/
def readLooseItems (handles : List String) (fuel : Nat) (ts : List Token) :
    Option (List Node × List Token) :=
  match fuel, ts with
  | fuel + 1, .item :: rest => do
    let (item, rest) ← readUnless handles fuel (noLooseItem rest) true false rest
    let (items, rest) ← readLooseItems handles fuel rest
    return (item :: items, rest)
  | _ + 1, ts => some ([], ts)
  | 0, _ => none

/-- The entries of a block to its end. -/
def readEntries (handles : List String) (fuel : Nat) (ts : List Token) :
    Option (List (Node × Node) × List Token) :=
  match fuel, ts with
  | fuel + 1, .key :: rest => do
    let (key, rest) ← readUnless handles fuel (noPart rest) true true rest
    let (value, rest) ←
      match rest with
      | .value :: rest => readUnless handles fuel (noPart rest) true true rest
      | rest => some (nothing, rest)
    let (entries, rest) ← readEntries handles fuel rest
    return ((key, value) :: entries, rest)
  | _ + 1, .blockEnd :: rest => some ([], rest)
  | _, _ => none

/-- The items between brackets to the closing one.  An item with a key is a mapping of one
entry. -/
def readFlowItems (handles : List String) (fuel : Nat) (first : Bool) (ts : List Token) :
    Option (List Node × List Token) :=
  match fuel, ts with
  | _ + 1, .closeSequence :: rest => some ([], rest)
  | fuel + 1, ts => do
    let ts ← if first then some ts else afterComma ts
    match ts with
    | .closeSequence :: rest => some ([], rest)
    | .key :: rest =>
      -- where the key is empty, the token after its mark is passed
      let (key, rest) ← if noFlowItem rest then some (nothing, rest.tail)
        else read handles fuel false false rest
      let (value, rest) ←
        match rest with
        | .value :: rest =>
          readUnless handles fuel (noFlowValue .closeSequence rest) false false rest
        | rest => some (nothing, rest)
      let (items, rest) ← readFlowItems handles fuel false rest
      return (.mapping none [(key, value)] :: items, rest)
    | ts =>
      let (item, rest) ← read handles fuel false false ts
      let (items, rest) ← readFlowItems handles fuel false rest
      return (item :: items, rest)
  | 0, _ => none

/-- The entries between braces to the closing one.  What has no mark of a key has no value. -/
def readFlowEntries (handles : List String) (fuel : Nat) (first : Bool) (ts : List Token) :
    Option (List (Node × Node) × List Token) :=
  match fuel, ts with
  | _ + 1, .closeMapping :: rest => some ([], rest)
  | fuel + 1, ts => do
    let ts ← if first then some ts else afterComma ts
    match ts with
    | .closeMapping :: rest => some ([], rest)
    | .key :: rest =>
      let (key, rest) ← readUnless handles fuel (noFlowPart rest) false false rest
      let (value, rest) ←
        match rest with
        | .value :: rest =>
          readUnless handles fuel (noFlowValue .closeMapping rest) false false rest
        | rest => some (nothing, rest)
      let (entries, rest) ← readFlowEntries handles fuel false rest
      return ((key, value) :: entries, rest)
    | ts =>
      let (key, rest) ← read handles fuel false false ts
      let (entries, rest) ← readFlowEntries handles fuel false rest
      return ((key, nothing) :: entries, rest)
  | 0, _ => none

end

/-! ### Documents -/

/-- The handles that directives declare, with the tokens after them, where the directives go
together. -/
def directives (versioned : Bool) (handles : List String) :
    List Token → Option (List String × List Token)
  | .version major minor :: ts =>
    if versioned || major != 1 || (minor != 1 && minor != 2) then none
    else directives true handles ts
  | .tagHandle handle :: ts =>
    if handles.contains handle then none else directives versioned (handle :: handles) ts
  | ts => some (handles, ts)

/-- Whether the content of a document after its mark is empty. -/
def noContent : List Token → Bool
  | [] => true
  | .documentStart :: _ => true
  | .documentEnd :: _ => true
  | .version _ _ :: _ => true
  | .tagHandle _ :: _ => true
  | _ => false

/-- The node of the only document of a text. -/
def ofTokens? (ts : List Token) : Option Node := do
  if ts.isEmpty then return nothing
  else
    let fuel := 4 * ts.length + 4
    let (node, rest) ←
      match ← directives false [] ts with
      | (handles, .documentStart :: rest) =>
        if noContent rest then some (nothing, rest) else read handles fuel true false rest
      | (_, rest) =>
        if rest.length == ts.length then read [] fuel true false rest else none
    if rest.all (· == .documentEnd) then return node else none

end Node

end EditorSchema.Yaml
