import Covenant.Config.Yaml.Node
import Covenant.Config.Yaml.Token.Lexer

/-!
# Reading documents

The first document of a text, put together from its tokens. What follows it is looked at no further
than its end needs.
-/

namespace Covenant

namespace Yaml

/-- **A document while it is read.** -/
structure Reader where
  lexer : Lexer
  /-- What the handles of tags stand for. -/
  handles : List (String × String) := []
  /-- The names of nodes so far, latest first. -/
  anchors : List (String × Nat) := []
  shared : List (Nat × Node) := []
  /-- The number of references so far. -/
  references : Nat := 0
deriving Inhabited

/-- A step of reading. -/
abbrev Reading := StateT Reader (Except Error)

namespace Reading

/-- The next token. -/
def peek : Reading Token := fun r => do
  let lexer ← r.lexer.fill (r.lexer.cursor.rest.length + 8)
  match lexer.queue with
  | token :: _ => return (token, { r with lexer })
  | [] => return ({ kind := .streamEnd, line := lexer.cursor.line }, { r with lexer })

/-- Passes the next token. -/
def skip : Reading Unit :=
  modify fun r => { r with lexer := r.lexer.take }

/-- A problem at a line, in something that starts at another. -/
def fail {α : Type} (start found : Nat) (p : Problem) : Reading α :=
  throw (Error.structural start found p)

/-! ## Names and tags -/

/-- What is written in front of a node. -/
structure Properties where
  anchor : Option String := none
  /-- The handle and the rest of a tag, and its line. -/
  tag : Option (String × String × Nat) := none

/-- Reads a name and a tag, each at most once, in either order. -/
def properties (p : Properties) : Nat → Reading Properties
  | 0 => return p
  | fuel + 1 => do
    let token ← peek
    match token.kind, p.anchor, p.tag with
    | .anchor name, none, _ =>
      skip
      properties { p with anchor := some name } fuel
    | .tag handle suffix, _, none =>
      skip
      properties { p with tag := some (handle, suffix, token.line) } fuel
    | _, _, _ => return p

/-- The tags of the format itself start with this text. -/
def ownTags : String :=
  "tag:yaml.org,2002:"

/-- The short form of a tag. An exclamation mark alone counts for nothing. -/
def shortTag (tag : String) : String :=
  if tag = "!" then ""
  else if tag.startsWith ownTags then "!!" ++ String.ofList (tag.toList.drop ownTags.length)
  else tag

/-- The tag in front of a node that starts at a line, if there is one. -/
def resolveTag (line : Nat) (p : Properties) : Reading (Option String) := do
  match p.tag with
  | none => return none
  | some ("", suffix, _) => return some (shortTag suffix)
  | some (handle, suffix, tagLine) =>
    match (← get).handles.lookup handle with
    | some expansion => return some (shortTag (expansion ++ suffix))
    | none => fail line tagLine .undefinedHandle

/-- Notes the name of a node that starts here. -/
def noteAnchor (name : String) : Reading Nat :=
  modifyGet fun r =>
    (r.anchors.length, { r with anchors := (name, r.anchors.length) :: r.anchors })

/-- Reads a node, and keeps it if it has a name. -/
def named (p : Properties) (read : Reading Node) : Reading Node := do
  match p.anchor with
  | none => read
  | some name =>
    let number ← noteAnchor name
    let node ← read
    modify fun r => { r with shared := (number, node) :: r.shared }
    return node

/-- A place that refers to a node. -/
def reference (name : String) (line : Nat) : Reading Node := do
  let r ← get
  match r.anchors.lookup name with
  | none => throw { problem := .unknownAnchor name }
  | some target =>
    set { r with references := r.references + 1 }
    return .reference line r.references name target

/-! ## Nodes -/

mutual
/-- **Reads a node.** Only some places take blocks, and only values take the items of a sequence
that is not set in. -/
def node (fuel : Nat) (takesBlocks takesItems : Bool) : Reading Node :=
  match fuel with
  | 0 => fail 0 0 .tooDeep
  | fuel + 1 => do
    let first ← peek
    match first.kind with
    | .reference name =>
      skip
      reference name (first.line + 1)
    | _ =>
      let p ← properties {} 2
      let token ← peek
      let written ← resolveTag first.line p
      let tag := written.getD ""
      let line := first.line + 1
      match token.kind with
      | .scalar text isPlain =>
        skip
        named p (return .scalar line tag isPlain text)
      | .openBracket =>
        skip
        named p (return .sequence line tag (← flowItems fuel token.line true))
      | .openBrace =>
        skip
        named p (return .mapping line tag (← flowEntries fuel token.line true))
      | kind =>
        if takesItems && kind = .dash then
          named p (return .sequence line tag (← plainItems fuel))
        else if takesBlocks && kind = .blockSequence then
          skip
          named p (return .sequence line tag (← blockItems fuel token.line))
        else if takesBlocks && kind = .blockMapping then
          skip
          named p (return .mapping line tag (← blockEntries fuel token.line))
        else if p.anchor.isSome || written.isSome then
          named p (return .scalar line tag true "")
        else fail first.line token.line .noContent

/-- The items of a block sequence. -/
def blockItems (fuel start : Nat) : Reading (List Node) :=
  match fuel with
  | 0 => fail 0 0 .tooDeep
  | fuel + 1 => do
    let token ← peek
    match token.kind with
    | .dash =>
      skip
      let item ←
        match (← peek).kind with
        | .dash | .blockEnd => pure (Node.nothing (token.line + 1))
        | _ => node fuel true false
      return item :: (← blockItems fuel start)
    | .blockEnd =>
      skip
      return []
    | _ => fail start token.line .noDash

/-- The items of a sequence that is not set in further than its key. -/
def plainItems (fuel : Nat) : Reading (List Node) :=
  match fuel with
  | 0 => fail 0 0 .tooDeep
  | fuel + 1 => do
    let token ← peek
    match token.kind with
    | .dash =>
      skip
      let item ←
        match (← peek).kind with
        | .dash | .key | .value | .blockEnd => pure (Node.nothing (token.line + 1))
        | _ => node fuel true false
      return item :: (← plainItems fuel)
    | _ => return []

/-- The entries of a block mapping. -/
def blockEntries (fuel start : Nat) : Reading (List (Node × Node)) :=
  match fuel with
  | 0 => fail 0 0 .tooDeep
  | fuel + 1 => do
    let token ← peek
    match token.kind with
    | .key =>
      skip
      let key ← blockPart fuel token.line
      let token ← peek
      let value ←
        match token.kind with
        | .value =>
          skip
          blockPart fuel token.line
        | _ => pure (Node.nothing (token.line + 1))
      return (key, value) :: (← blockEntries fuel start)
    | .blockEnd =>
      skip
      return []
    | _ => fail start token.line .noKey

/-- A key or a value of a block mapping; it may be missing. -/
def blockPart (fuel line : Nat) : Reading Node :=
  match fuel with
  | 0 => fail 0 0 .tooDeep
  | fuel + 1 => do
    match (← peek).kind with
    | .key | .value | .blockEnd => return Node.nothing (line + 1)
    | _ => node fuel true true

/-- The items of a sequence in brackets. An item may be a single entry of a mapping. -/
def flowItems (fuel start : Nat) (isFirst : Bool) : Reading (List Node) :=
  match fuel with
  | 0 => fail 0 0 .tooDeep
  | fuel + 1 => do
    let token ← peek
    if token.kind = .closeBracket then
      skip
      return []
    else
      if !isFirst then
        if token.kind = .comma then skip
        else fail start token.line .noCommaOrBracket
      let token ← peek
      match token.kind with
      | .closeBracket =>
        skip
        return []
      | .key =>
        skip
        let entry ← flowPair fuel
        return .mapping (token.line + 1) "" [entry] :: (← flowItems fuel start false)
      | _ =>
        let item ← node fuel false false
        return item :: (← flowItems fuel start false)

/-- A single entry in a sequence in brackets. -/
def flowPair (fuel : Nat) : Reading (Node × Node) :=
  match fuel with
  | 0 => fail 0 0 .tooDeep
  | fuel + 1 => do
    let token ← peek
    let key ←
      match token.kind with
      | .value | .comma | .closeBracket =>
        skip
        pure (Node.nothing (token.line + 1))
      | _ => node fuel false false
    let token ← peek
    let isMissing ←
      if token.kind = .value then
        skip
        match (← peek).kind with
        | .comma | .closeBracket => pure true
        | _ => pure false
      else pure true
    let value ← if isMissing then pure (Node.nothing (token.line + 1)) else node fuel false false
    return (key, value)

/-- The entries of a mapping in braces. An entry may lack its value. -/
def flowEntries (fuel start : Nat) (isFirst : Bool) : Reading (List (Node × Node)) :=
  match fuel with
  | 0 => fail 0 0 .tooDeep
  | fuel + 1 => do
    let token ← peek
    if token.kind = .closeBrace then
      skip
      return []
    else
      if !isFirst then
        if token.kind = .comma then skip
        else fail start token.line .noCommaOrBrace
      let token ← peek
      match token.kind with
      | .closeBrace =>
        skip
        return []
      | .key =>
        skip
        let next ← peek
        let key ←
          match next.kind with
          | .value | .comma | .closeBrace => pure (Node.nothing (token.line + 1))
          | _ => node fuel false false
        let value ← flowValue fuel
        return (key, value) :: (← flowEntries fuel start false)
      | _ =>
        let key ← node fuel false false
        return (key, Node.nothing key.line) :: (← flowEntries fuel start false)

/-- The value of an entry in braces; it may be missing. -/
def flowValue (fuel : Nat) : Reading Node :=
  match fuel with
  | 0 => fail 0 0 .tooDeep
  | fuel + 1 => do
    let token ← peek
    if token.kind = .value then
      skip
      match (← peek).kind with
      | .comma | .closeBrace => return Node.nothing (token.line + 1)
      | _ => node fuel false false
    else return Node.nothing (token.line + 1)
end

/-! ## Documents -/

/-- The handles that need no directive. -/
def ownHandles : List (String × String) :=
  [("!", "!"), ("!!", ownTags)]

/-- Reads the directives in front of a document. -/
def directives (hasVersion : Bool) : Nat → Reading Unit
  | 0 => fail 0 0 .tooDeep
  | fuel + 1 => do
    let token ← peek
    match token.kind with
    | .version major minor =>
      if hasVersion then fail 0 token.line .repeatedVersion
      if major ≠ 1 || minor ≠ 1 then fail 0 token.line .otherVersion
      skip
      directives true fuel
    | .handle name expansion =>
      let r ← get
      if (r.handles.lookup name).isSome then fail 0 token.line .repeatedHandle
      set { r with handles := (name, expansion) :: r.handles }
      skip
      directives hasVersion fuel
    | _ => modify fun r => { r with handles := r.handles ++ ownHandles }

/-- Reads the content of a document behind its start. -/
def content (fuel : Nat) : Reading Node := do
  let token ← peek
  match token.kind with
  | .version .. | .handle .. | .documentStart | .documentEnd | .streamEnd =>
    return Node.nothing (token.line + 1)
  | _ => node fuel true false

/-- **Reads the first document of a text**, if there is one. -/
def document (fuel : Nat) : Reading (Option Node) := do
  let token ← peek
  match token.kind with
  | .streamEnd => return none
  | .version .. | .handle .. | .documentStart =>
    directives false fuel
    let token ← peek
    if token.kind ≠ .documentStart then fail 0 token.line .noDocumentStart
    skip
    let root ← content fuel
    let _ ← peek
    return some root
  | _ =>
    modify fun r => { r with handles := ownHandles }
    let root ← node fuel true false
    let _ ← peek
    return some root

end Reading

/-- **The first document of a text.** -/
def Document.parse (text : String) : Except Error (Option Document) := do
  let lexer ← Lexer.ofText text
  let (root, r) ← Reading.document (16 * (text.length + 8)) { lexer }
  return root.map fun root => { root, shared := r.shared }

end Yaml

end Covenant
