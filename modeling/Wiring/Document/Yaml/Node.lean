import Wiring.Document.Reading
import Wiring.Document.Yaml.Token

/-!
# Documents of YAML

What the tokens of a text say.  Anchored nodes have numbers and aliases give the number of an
anchor.  Two anchors may share a number, and all aliases with it then stand for the node that
starts last, even one behind the alias.
-/

namespace Wiring.Yaml

structure Source where
  tokens : List Token
  names : List (String × Nat)
  nodes : List (Nat × Document)

/-- A part of a document at the front of the tokens. -/
abbrev Reader (α : Type) := StateT Source Option α

namespace Reader

def peek? : Reader (Option Token) := do return (← get).tokens.head?

def next : Reader Unit := modify fun source ↦ { source with tokens := source.tokens.tail }

def fail {α : Type} : Reader α := fun _ ↦ none

/-- Gives an anchor the number of names that were known before it, and its node a place. -/
def openAnchor (name : String) : Reader Nat :=
  modifyGet fun source ↦
    let number := source.names.length
    (source.nodes.length, { source with
      names := (name, number) :: source.names.filter (·.1 ≠ name)
      nodes := (number, .null) :: source.nodes })

/-- Says what the anchored node at a place is. -/
def closeAnchor (place : Nat) (document : Document) : Reader Unit :=
  modify fun source ↦
    let index := source.nodes.length - 1 - place
    { source with nodes := source.nodes.modify index fun node ↦ (node.1, document) }

def anchored (name : Option String) (read : Reader Document) : Reader Document := do
  match name with
  | none => read
  | some name =>
    let place ← openAnchor name
    let document ← read
    closeAnchor place document
    return document

end Reader

def emptyScalar (tag : ScalarTag) : Document := .plain "" tag

abbrev Handles := List (String × Octets)

def octetsOf (text : String) : Octets := text.toList.map Char.toNat

def defaultHandles : Handles := [("!", octetsOf "!"), ("!!", octetsOf "tag:yaml.org,2002:")]

def nullTag : Octets := octetsOf "tag:yaml.org,2002:null"

def booleanTag : Octets := octetsOf "tag:yaml.org,2002:bool"

def scalarTag : Option Octets → ScalarTag
  | none => .absent
  | some tag => if tag = nullTag then .null else .other

/-- A plain scalar; the bare tag is none for it. -/
def plainScalar (tag : Option Octets) (text : String) : Document :=
  .plain text (if tag = some bareTag then .absent else scalarTag tag)

/-- A block scalar with its lines, which is no text only where its tag says so. -/
def literalScalar (tag : Option Octets) (text : String) : Document :=
  if tag = some booleanTag ∧ (Document.truthWord? text).isSome then .plain text .other
  else .text text

/-- Anchor and tag of a node, once they have been read in either order. -/
structure Properties where
  anchor : Option String
  tag : Option Octets

def readTag (handles : Handles) : Reader (Option Octets) := do
  match ← Reader.peek? with
  | some (.tag handle suffix) =>
    let start := match handle with
      | none => some []
      | some handle => handles.lookup handle
    match start with
    | some start =>
      Reader.next
      return some (start ++ suffix)
    | none => Reader.fail
  | _ => return none

def readAnchor : Reader (Option String) := do
  match ← Reader.peek? with
  | some (.anchor name) =>
    Reader.next
    return some name
  | _ => return none

def readProperties (handles : Handles) : Reader Properties := do
  match ← readAnchor with
  | some name => return ⟨some name, ← readTag handles⟩
  | none =>
    match ← readTag handles with
    | none => return ⟨none, none⟩
    | some tag => return ⟨← readAnchor, some tag⟩

/-- Where a node stands decides which blocks may follow it: in a block any, and as the value of a
mapping also a sequence that is not indented further. -/
inductive Place where
  | flow
  | block
  | mappingValue
  deriving DecidableEq

section

variable (node : Place → Reader Document)

def nodeUnless (place : Place) (isEnd : Token → Bool) : Reader Document := do
  match ← Reader.peek? with
  | none => node place
  | some token => if isEnd token then return emptyScalar .absent else node place

def endsBlockEntry : Token → Bool
  | .blockEntry | .blockEnd => true
  | _ => false

def endsIndentlessEntry : Token → Bool
  | .blockEntry | .key | .value | .blockEnd => true
  | _ => false

def endsMappingPart : Token → Bool
  | .key | .value | .blockEnd => true
  | _ => false

def endsFlowSequenceKey : Token → Bool
  | .value | .flowEntry | .flowSequenceEnd => true
  | _ => false

def endsFlowSequenceValue : Token → Bool
  | .flowEntry | .flowSequenceEnd => true
  | _ => false

def endsFlowMappingKey : Token → Bool
  | .value | .flowEntry | .flowMappingEnd => true
  | _ => false

def endsFlowMappingValue : Token → Bool
  | .flowEntry | .flowMappingEnd => true
  | _ => false

def blockSequence : Nat → Reader (List Document)
  | 0 => Reader.fail
  | rounds + 1 => do
    match ← Reader.peek? with
    | some .blockEntry =>
      Reader.next
      let first ← nodeUnless node .block endsBlockEntry
      return first :: (← blockSequence rounds)
    | some .blockEnd =>
      Reader.next
      return []
    | _ => Reader.fail

def indentlessSequence : Nat → Reader (List Document)
  | 0 => Reader.fail
  | rounds + 1 => do
    match ← Reader.peek? with
    | some .blockEntry =>
      Reader.next
      let first ← nodeUnless node .block endsIndentlessEntry
      return first :: (← indentlessSequence rounds)
    | _ => return []

/-- The value of a key, empty when no colon follows. -/
def valueAfter (place : Place) (isEnd : Token → Bool) : Reader Document := do
  match ← Reader.peek? with
  | some .value =>
    Reader.next
    nodeUnless node place isEnd
  | _ => return emptyScalar .absent

def blockMapping : Nat → Reader (List (Document × Document))
  | 0 => Reader.fail
  | rounds + 1 => do
    match ← Reader.peek? with
    | some .key =>
      Reader.next
      let key ← nodeUnless node .mappingValue endsMappingPart
      let value ← valueAfter node .mappingValue endsMappingPart
      return (key, value) :: (← blockMapping rounds)
    | some .blockEnd =>
      Reader.next
      return []
    | _ => Reader.fail

/-- The comma in front of every entry but the first. -/
def separator (isFirst : Bool) : Reader Unit := do
  if isFirst then return ()
  match ← Reader.peek? with
  | some .flowEntry => Reader.next
  | _ => Reader.fail

/-- The key of a single entry in a sequence.  The mark that shows it to be missing is passed, so
that a value must follow on its own. -/
def flowSequenceKey : Reader Document := do
  match ← Reader.peek? with
  | some token =>
    if endsFlowSequenceKey token then
      Reader.next
      return emptyScalar .absent
    else node .flow
  | none => Reader.fail

def flowSequence : Nat → Bool → Reader (List Document)
  | 0, _ => Reader.fail
  | rounds + 1, isFirst => do
    match ← Reader.peek? with
    | some .flowSequenceEnd =>
      Reader.next
      return []
    | _ =>
      separator isFirst
      match ← Reader.peek? with
      | some .flowSequenceEnd =>
        Reader.next
        return []
      | some .key =>
        Reader.next
        let key ← flowSequenceKey node
        let value ← valueAfter node .flow endsFlowSequenceValue
        return .mapping [(key, value)] :: (← flowSequence rounds false)
      | _ =>
        let first ← node .flow
        return first :: (← flowSequence rounds false)

def flowMapping : Nat → Bool → Reader (List (Document × Document))
  | 0, _ => Reader.fail
  | rounds + 1, isFirst => do
    match ← Reader.peek? with
    | some .flowMappingEnd =>
      Reader.next
      return []
    | _ =>
      separator isFirst
      match ← Reader.peek? with
      | some .flowMappingEnd =>
        Reader.next
        return []
      | some .key =>
        Reader.next
        let key ← nodeUnless node .flow endsFlowMappingKey
        let value ← valueAfter node .flow endsFlowMappingValue
        return (key, value) :: (← flowMapping rounds false)
      | _ =>
        let key ← node .flow
        return (key, emptyScalar .absent) :: (← flowMapping rounds false)

def content (tag : Option Octets) (rounds : Nat) (place : Place) (token : Token) :
    Option (Reader Document) :=
  match token, place with
  | .plain text, _ => some (do Reader.next; return plainScalar tag text)
  | .literal text, _ => some (do Reader.next; return literalScalar tag text)
  | .quoted text, _ => some (do Reader.next; return .text text)
  | .flowSequenceStart, _ =>
    some (do Reader.next; return .list (← flowSequence node rounds true))
  | .flowMappingStart, _ =>
    some (do Reader.next; return .mapping (← flowMapping node rounds true))
  | .blockEntry, .mappingValue => some (do return .list (← indentlessSequence node rounds))
  | .blockSequenceStart, .block | .blockSequenceStart, .mappingValue =>
    some (do Reader.next; return .list (← blockSequence node rounds))
  | .blockMappingStart, .block | .blockMappingStart, .mappingValue =>
    some (do Reader.next; return .mapping (← blockMapping node rounds))
  | _, _ => none

end

/-! ## Nodes and documents -/

def readAlias (name : String) : Reader Document := do
  Reader.next
  match (← get).names.lookup name with
  | some number => return .alias number
  | none => Reader.fail

/-- A node; every level of nesting uses up a token. -/
def node (handles : Handles) (tokenCount : Nat) : Nat → Place → Reader Document
  | 0, _ => Reader.fail
  | depth + 1, place => do
    match ← Reader.peek? with
    | some (.alias name) => readAlias name
    | _ =>
      let properties ← readProperties handles
      let body := (← Reader.peek?).bind
        (content (node handles tokenCount depth) properties.tag (tokenCount + 1) place)
      match body with
      | some read => Reader.anchored properties.anchor read
      | none =>
        if properties.tag.isSome || properties.anchor.isSome then
          Reader.anchored properties.anchor (pure (emptyScalar (scalarTag properties.tag)))
        else Reader.fail

/-- Whether there are directives in front of a document, and the handles that they declare.
Neither a version nor a handle is declared twice, and the version is one of 1. -/
def readDirectives : Nat → Bool → Handles → Reader (Bool × Handles)
  | 0, _, declared => return (true, declared)
  | rounds + 1, hasVersion, declared => do
    match ← Reader.peek? with
    | some (.directive (.version major minor)) =>
      if hasVersion || major ≠ 1 || (minor ≠ 1 && minor ≠ 2) then Reader.fail
      Reader.next
      readDirectives rounds true declared
    | some (.directive (.tag handle start)) =>
      if (declared.lookup handle).isSome then Reader.fail
      Reader.next
      readDirectives rounds hasVersion ((handle, start) :: declared)
    | _ => return (hasVersion || !declared.isEmpty, declared)

def endsDocument : Token → Bool
  | .directive _ | .documentStart | .documentEnd => true
  | _ => false

def skipDocumentEnds (tokens : List Token) : List Token :=
  tokens.dropWhile fun
    | .documentEnd => true
    | _ => false

def document : Reader Document := do
  let count := (← get).tokens.length
  let (hasDirectives, declared) ← readDirectives (count + 1) false []
  let handles := declared ++ defaultHandles
  let read ← match ← Reader.peek? with
    | some .documentStart => do
      Reader.next
      match ← Reader.peek? with
      | none => pure (emptyScalar .absent)
      | some token =>
        if endsDocument token then pure (emptyScalar .absent)
        else node handles count (count + 1) .block
    | some token =>
      if endsDocument token || hasDirectives then Reader.fail
      else node handles count (count + 1) .block
    | none => if hasDirectives then Reader.fail else pure (emptyScalar .absent)
  let rest := (← get).tokens
  if (skipDocumentEnds rest).isEmpty then return read else Reader.fail

mutual

/-- How many marks a document takes when it is written out: one for a scalar or an alias, two
around a collection. -/
def markCount : Document → Nat
  | .list items => 2 + markCountAll items
  | .mapping entries => 2 + markCountEntries entries
  | _ => 1

def markCountAll : List Document → Nat
  | [] => 0
  | item :: rest => markCount item + markCountAll rest

def markCountEntries : List (Document × Document) → Nat
  | [] => 0
  | (key, value) :: rest => markCount key + markCount value + markCountEntries rest

end

/-- How often aliases may be followed for every mark of the document. -/
def followsPerMark : Nat := 100

def read (text : String) : Option LinkedDocument := do
  let tokens ← tokens? text.toList
  let (root, source) ← document.run ⟨tokens, [], []⟩
  return ⟨root, ⟨source.nodes, followsPerMark * markCount root⟩⟩

end Wiring.Yaml
