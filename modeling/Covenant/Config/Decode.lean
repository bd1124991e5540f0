import Covenant.Config.Basic
import Covenant.Config.Yaml.Node.Grammar
import Covenant.Config.Yaml.Value
import Covenant.Text.Quoted

/-!
# Reading settings

A settings document changes the defaults; keys it does not mention, or leaves empty, keep them. An
entry that does not fit is complained about, and the others are read all the same, so that all
complaints are told together.
-/

namespace Covenant

namespace Config

/-! ## Errors -/

/-- **What does not fit** in a document. -/
inductive Complaint where
  /-- A node is not of the kind that is needed. -/
  | otherKind (line : Nat) (tag text needed : String)
  | repeatedKey (line : Nat) (key : String) (first : Nat)
  | repeatedField (line : Nat) (field record : String)
deriving DecidableEq, Repr, Inhabited

/-- The text of a node in a complaint: a long one is cut, and a collection has none. -/
def shownText (tag text : String) : String :=
  if tag = "!!seq" || tag = "!!map" then ""
  else
    let bytes := Text.bytes text
    if 10 < bytes.length then " \x60" ++ Text.ofBytes (bytes.take 7) ++ "...\x60"
    else " \x60" ++ text ++ "\x60"

/-- The wording of a complaint. -/
def Complaint.message : Complaint → String
  | otherKind line tag text needed =>
    "line " ++ toString line ++ ": cannot unmarshal " ++ tag ++ shownText tag text ++ " into "
      ++ needed
  | repeatedKey line key first =>
    "line " ++ toString line ++ ": mapping key " ++ Text.quote key ++ " already defined at line "
      ++ toString first
  | repeatedField line field record =>
    "line " ++ toString line ++ ": field " ++ field ++ " already set in type " ++ record

/-- **Why settings are refused.** -/
inductive Error where
  /-- The text is no document. -/
  | unreadable (e : Yaml.Error)
  /-- A scalar does not stand for what its tag asks for. -/
  | mismatch (m : Yaml.Mismatch)
  /-- A named node holds a reference to itself where it is needed. -/
  | selfReference (name : String)
  /-- What is to be merged is no mapping. -/
  | noMapping
  /-- A collection is a key of a mapping that merges others. Such keys cannot be compared. -/
  | incomparableKey
  | misfits (complaints : List Complaint)
  | negativeRuns (runs : Int)
  | noOutDir
deriving DecidableEq, Repr, Inhabited

/-- The wording of an error. -/
def Error.message : Error → String
  | unreadable e => e.message
  | mismatch m => m.message
  | selfReference name => "yaml: anchor '" ++ name ++ "' value contains itself"
  | noMapping => "yaml: map merge requires map or sequence of maps as the value"
  | incomparableKey => "key of a merging mapping is a collection"
  | misfits complaints =>
    "yaml: unmarshal errors:\n  " ++ "\n  ".intercalate (complaints.map Complaint.message)
  | negativeRuns runs => "optimizer.runs must not be negative, got " ++ toString runs
  | noOutDir => "outDir must not be empty"

/-- Reading, with the complaints so far. -/
abbrev Decoding := StateT (List Complaint) (Except Error)

/-- **Where a node is read**: the named nodes of its document, and the references on the way to
it. -/
structure Scope where
  shared : List (Nat × Yaml.Node)
  followed : List Nat := []

namespace Decoding

open Yaml (Node Value)

/-- Complains. -/
def complain (c : Complaint) : Decoding Unit :=
  modify (· ++ [c])

/-- Complains about the kind of a node. -/
def refuse {α : Type} (node : Node) (needed : String) : Decoding (Option α) := do
  complain (.otherKind node.line node.tag node.label needed)
  return none

/-- The node that a reference leads to, with the scope to read it in. A reference cannot be followed
on the way to itself. -/
def follow (s : Scope) : Node → Decoding (Scope × Node)
  | .reference _ place name target =>
    if s.followed.contains place then throw (.selfReference name)
    else
      match s.shared.lookup target with
      | some node => return ({ s with followed := place :: s.followed }, node)
      | none => throw (.selfReference name)
  | node => return (s, node)

/-- The pairs of keys that cannot be told apart. -/
def repeated : List Node → List (Node × Node)
  | [] => []
  | key :: keys => (keys.filter key.isSameKey).map (key, ·) ++ repeated keys

/-- Complains about keys that stand twice, and tells whether there are none. -/
def hasDistinctKeys (entries : List (Node × Node)) : Decoding Bool := do
  let pairs := repeated (entries.map Prod.fst)
  pairs.forM fun (first, key) => complain (.repeatedKey key.line key.label first.line)
  return pairs.isEmpty

/-- Complains about a node that cannot be read; the keys of a mapping come first. -/
def reject {α : Type} (node : Node) (needed : String) : Decoding (Option α) := do
  match node with
  | .mapping _ _ entries => if ← hasDistinctKeys entries then refuse node needed else return none
  | node => refuse node needed

/-! ## Scalars -/

/-- What a scalar stands for. -/
def valueOf (tag : String) (isPlain : Bool) (text : String) : Decoding Value :=
  match Value.ofScalar tag isPlain text with
  | .ok value => return value
  | .error m => throw (.mismatch m)

/-- Reads a scalar by what it stands for; nothing and what does not fit give nothing. -/
def scalar {α : Type} (needed : String) (accept : String → Value → Option α) (s : Scope)
    (node : Node) : Decoding (Option α) := do
  let (_, node) ← follow s node
  match node with
  | .scalar _ tag isPlain text =>
    match ← valueOf tag isPlain text with
    | .nothing => return none
    | value =>
      match accept text value with
      | some a => return some a
      | none => refuse node needed
  | node => reject node needed

/-- The truth value of a word for yes or no. -/
def yesNo? (text : String) : Option Bool :=
  if ["y", "Y", "yes", "Yes", "YES", "on", "On", "ON"].contains text then some true
  else if ["n", "N", "no", "No", "NO", "off", "Off", "OFF"].contains text then some false
  else none

/-- Reads a truth value. -/
def truth : Scope → Node → Decoding (Option Bool) :=
  scalar "bool" fun _ value =>
    match value with
    | .truth b => some b
    | .text word => yesNo? word
    | _ => none

/-- Reads an integer. -/
def integer : Scope → Node → Decoding (Option Int) :=
  scalar "int" fun _ value =>
    match value with
    | .whole n => Text.bounded? n
    | .fraction whole => whole
    | _ => none

/-- Reads a text: numbers and truth values are taken as they are written. -/
def text : Scope → Node → Decoding (Option String) :=
  scalar "string" fun written value =>
    match value with
    | .text t => some t
    | _ => some written

/-- Reads a list of texts; items that give nothing are left out. -/
def texts (s : Scope) (node : Node) : Decoding (Option (List String)) := do
  let (s, node) ← follow s node
  match node with
  | .sequence _ _ items => return some ((← items.mapM (text s)).filterMap id)
  | .scalar _ tag isPlain written =>
    match ← valueOf tag isPlain written with
    | .nothing => return some []
    | _ => refuse node "[]string"
  | node => reject node "[]string"

/-! ## Records -/

/-- **What a record does with the entry of a key**, if it knows the key. -/
abbrev Fields (α : Type) := String → Option (Scope → α → Node → Decoding α)

/-- A field of one value; nothing keeps the old one. -/
def field {α β : Type} (read : Scope → Node → Decoding (Option β)) (put : α → β → α) :
    Scope → α → Node → Decoding α :=
  fun s a node => do
    match ← read s node with
    | some b => return put a b
    | none => return a

/-- A record while it is read. -/
structure Progress (α : Type) where
  value : α
  /-- The keys that no longer count, if the entries come from a merged mapping. -/
  settled : Option (List String)
  /-- The fields that were set. -/
  done : List String := []

/-- Reads an entry of a record. Unknown keys count for nothing. -/
def entry {α : Type} (record : String) (fields : Fields α) (s : Scope) (p : Progress α)
    (key value : Node) : Decoding (Progress α) := do
  if key.isMerge then return p
  match ← text s key with
  | none => return p
  | some name =>
    if p.settled.any (·.contains name) then return p
    let p := { p with settled := p.settled.map (name :: ·) }
    match fields name with
    | none => return p
    | some read =>
      if p.done.contains name then
        complain (.repeatedField key.line name record)
        return p
      else return { p with value := ← read s p.value value, done := name :: p.done }

/-- The texts of the keys of a mapping that merges others. -/
def keyTexts (s : Scope) (entries : List (Node × Node)) : Decoding (List String) := do
  let names ← entries.mapM fun (key, _) => do
    match (← follow s key).2 with
    | .scalar .. => text s key
    | _ => throw .incomparableKey
  return names.filterMap id

/-- Whether a node is a mapping or refers to one. -/
def isMapping (s : Scope) : Node → Bool
  | .mapping .. => true
  | .reference _ _ _ target =>
    match s.shared.lookup target with
    | some (.mapping ..) => true
    | _ => false
  | _ => false

/-- What is to be merged into a mapping: one mapping or several. -/
def sources (s : Scope) (node : Node) : Decoding (List Node) :=
  match node with
  | .sequence _ _ items => return items
  | node => if isMapping s node then return [node] else throw .noMapping

/-- **Reads a record.** The entries of merged mappings come last; a key counts where it is written
first. -/
def record {α : Type} (name : String) (fields : Fields α) (s : Scope)
    (settled : Option (List String)) (old : α) (node : Node) :
    Nat → Decoding (α × Option (List String))
  | 0 => throw .noMapping
  | fuel + 1 => do
    let (s, node) ← follow s node
    match node with
    | .scalar _ tag isPlain written =>
      match ← valueOf tag isPlain written with
      | .nothing => return (old, settled)
      | _ =>
        complain (.otherKind node.line node.tag node.label name)
        return (old, settled)
    | .mapping _ _ entries =>
      if !(← hasDistinctKeys entries) then return (old, settled)
      let p ← entries.foldlM (fun p (key, value) => entry name fields s p key value)
        { value := old, settled }
      match entries.find? (·.1.isMerge) with
      | none => return (p.value, p.settled)
      | some (_, merged) =>
        let names ← match p.settled with
          | some names => pure names
          | none => keyTexts s entries
        let (value, names) ← (← sources s merged).foldlM (fun (value, names) source => do
          if isMapping s source then record name fields s names value source fuel
          else throw .noMapping) (p.value, some names)
        return (value, settled.bind fun _ => names)
    | node =>
      complain (.otherKind node.line node.tag node.label name)
      return (old, settled)

/-- A field that is a record of its own. -/
def subrecord {α β : Type} (name : String) (fields : Fields β) (fuel : Nat) (get : α → β)
    (put : α → β → α) : Scope → α → Node → Decoding α :=
  fun s a node => do
    let (b, _) ← record name fields s none (get a) node fuel
    return put a b

/-! ## Settings -/

/-- The choice of outputs. -/
def outputs : Fields Outputs
  | "abi" => some (field truth fun o b => { o with abi := b })
  | "assembly" => some (field truth fun o b => { o with assembly := b })
  | "ir" => some (field truth fun o b => { o with ir := b })
  | "bytecode" => some (field truth fun o b => { o with bytecode := b })
  | _ => none

/-- The steps of the optimizer. -/
def steps : Fields OptimizerSteps
  | "peephole" => some (field truth fun o b => { o with peephole := b })
  | "inliner" => some (field truth fun o b => { o with inliner := b })
  | "jumpdestRemover" => some (field truth fun o b => { o with jumpdestRemover := b })
  | "orderLiterals" => some (field truth fun o b => { o with orderLiterals := b })
  | "deduplicate" => some (field truth fun o b => { o with deduplicate := b })
  | "cse" => some (field truth fun o b => { o with cse := b })
  | "constantOptimizer" => some (field truth fun o b => { o with constantOptimizer := b })
  | "yul" => some (field truth fun o b => { o with yul := b })
  | _ => none

/-- The settings of the optimizer. -/
def optimizer (fuel : Nat) : Fields Optimizer
  | "enabled" => some (field truth fun o b => { o with enabled := b })
  | "runs" => some (field integer fun o n => { o with runs := n })
  | "details" =>
    some (subrecord "config.OptimizerDetails" steps fuel Optimizer.steps
      fun o d => { o with steps := d })
  | _ => none

/-- All settings. -/
def settings (fuel : Nat) : Fields Config
  | "sources" => some (field texts fun c ts => { c with sources := ts })
  | "outDir" => some (field text fun c t => { c with outDir := t })
  | "solc" => some (field text fun c t => { c with solc := t })
  | "emit" =>
    some (subrecord "config.Emit" outputs fuel Config.outputs fun c o => { c with outputs := o })
  | "optimizer" =>
    some (subrecord "config.Optimizer" (optimizer fuel) fuel Config.optimizer
      fun c o => { c with optimizer := o })
  | _ => none

end Decoding

/-- Decodes a document over settings. -/
def ofDocument (old : Config) (fuel : Nat) (d : Yaml.Document) : Except Error Config := do
  let read := Decoding.record "config.Config" (Decoding.settings fuel) { shared := d.shared } none
    old d.root fuel
  let ((config, _), complaints) ← read.run []
  if complaints.isEmpty then return config else throw (.misfits complaints)

/-- Refuses settings that make no sense. -/
def validate (c : Config) : Except Error Config :=
  if c.optimizer.runs < 0 then .error (.negativeRuns c.optimizer.runs)
  else if c.outDir = "" then .error .noOutDir
  else .ok c

/-- **Reads settings** over the defaults. -/
def parse (text : String) : Except Error Config :=
  match Yaml.Document.parse text with
  | .error e => .error (.unreadable e)
  | .ok none => validate {}
  | .ok (some d) => do validate (← ofDocument {} ((text.length + 8) * (text.length + 8)) d)

end Config

end Covenant
