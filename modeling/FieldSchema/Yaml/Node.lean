import FieldSchema.Yaml.Token

/-! The nodes of a YAML document, and how tokens make them. -/
namespace FieldSchema.Yaml

/-- What a node says of itself before its content. An anchor is held as its number. -/
structure Properties where
  anchor : Option Nat
  tag : Option String
  deriving DecidableEq

def Properties.nothing : Properties := ⟨none, none⟩

inductive Node where
  | scalar (properties : Properties) (text : String) (isPlain : Bool)
  | sequence (properties : Properties) (items : List Node)
  | mapping (properties : Properties) (entries : List (Node × Node))
  /-- Stands for the node whose anchor has this number. -/
  | reference (anchor : Nat)

/-- Tokens that are read up to some place. -/
structure Reading where
  tokens : List Token
  /-- What the handles of tags stand for. -/
  handles : List (String × String)
  /-- The numbers of the anchors, latest first; a name may have several. -/
  anchors : List (String × Nat)
  /-- How many names anchors have. -/
  names : Nat

/-- Reading that fails as a whole. -/
abbrev Read := StateT Reading Option

def failed {α : Type} : Read α := fun _ => none

namespace Node

def empty : Node := .scalar .nothing "" true

def next : Read (Option Token) := return (← get).tokens.head?

def pass : Read Unit := modify fun reading => { reading with tokens := reading.tokens.drop 1 }

def atAny (tokens : List Token) : Read Bool := return (← next).any tokens.contains

/-- Passes over a token if it stands here. -/
def passOver (token : Token) : Read Bool := do
  if (← next) = some token then
    pass
    return true
  else return false

/-- An anchor's number is that of the names in front of it. So a name that is given again shares the
number of the next new name. -/
def number (name : String) : Read Nat := do
  let reading ← get
  let isNew := (reading.anchors.lookup name).isNone
  set { reading with
    anchors := (name, reading.names) :: reading.anchors
    names := if isNew then reading.names + 1 else reading.names }
  return reading.names

def referenced (name : String) : Read Node := do
  match (← get).anchors.lookup name with
  | some anchor => return .reference anchor
  | none => failed

def resolved (tag : Shorthand) : Read String := do
  match tag.handle with
  | none => return tag.suffix
  | some handle =>
    match (← get).handles.lookup handle with
    | some meaning => return meaning ++ tag.suffix
    | none => failed

def anchor? : Read (Option String) := do
  match ← next with
  | some (.anchor name) => do
    pass
    return some name
  | _ => return none

def tag? : Read (Option Shorthand) := do
  match ← next with
  | some (.tag tag) => do
    pass
    return some tag
  | _ => return none

/-- At most one anchor and one tag, in any order. -/
def properties : Read Properties := do
  let first ← anchor?
  let tag ← tag?
  let name ← match first, tag with
    | none, some _ => anchor?
    | _, _ => pure first
  let tag ← tag.mapM resolved
  return ⟨← name.mapM number, tag⟩

/-- Without content, a node that has properties is empty. -/
def bare (found : Properties) : Read Node :=
  if found = .nothing then failed else return .scalar found "" true

mutual

/-- A node. Only where `block` allows it may it be a collection without brackets, and only where
`level` does, a sequence that is indented as the mapping around it is. -/
def read : (fuel : Nat) → (block level : Bool) → Read Node
  | 0, _, _ => failed
  | fuel + 1, block, level => do
    if let some (.reference name) ← next then
      pass
      return ← referenced name
    let found ← properties
    match ← next with
    | some (.scalar text isPlain) => do
      pass
      return .scalar found text isPlain
    | some .openList => do
      pass
      return .sequence found (← items fuel true [])
    | some .openMap => do
      pass
      return .mapping found (← entries fuel true [])
    | some .dash => if level then return .sequence found (← levelItems fuel []) else bare found
    | some .sequenceStart =>
      if block then do
        pass
        return .sequence found (← blockItems fuel [])
      else bare found
    | some .mappingStart =>
      if block then do
        pass
        return .mapping found (← blockEntries fuel [])
      else bare found
    | _ => bare found

/-- A node, unless one of some tokens shows that it is empty. -/
def readUnless : (fuel : Nat) → (ends : List Token) → (block level : Bool) → Read Node
  | 0, _, _, _ => failed
  | fuel + 1, ends, block, level => do
    if ← atAny ends then return .empty else read fuel block level

/-- The items behind dashes, up to the end of their block. -/
def blockItems : (fuel : Nat) → (done : List Node) → Read (List Node)
  | 0, _ => failed
  | fuel + 1, done => do
    if ← passOver .dash then
      let item ← readUnless fuel [.dash, .blockEnd] true false
      blockItems fuel (item :: done)
    else if ← passOver .blockEnd then return done.reverse
    else failed

/-- The items behind dashes that are indented as a mapping is. -/
def levelItems : (fuel : Nat) → (done : List Node) → Read (List Node)
  | 0, _ => failed
  | fuel + 1, done => do
    if ← passOver .dash then
      let item ← readUnless fuel [.dash, .key, .value, .blockEnd] true false
      levelItems fuel (item :: done)
    else return done.reverse

/-- Keys, each with a value if a colon follows it, up to the end of their block. -/
def blockEntries : (fuel : Nat) → (done : List (Node × Node)) → Read (List (Node × Node))
  | 0, _ => failed
  | fuel + 1, done => do
    if ← passOver .key then
      let key ← readUnless fuel [.key, .value, .blockEnd] true true
      let value ← if ← passOver .value then readUnless fuel [.key, .value, .blockEnd] true true
        else pure .empty
      blockEntries fuel ((key, value) :: done)
    else if ← passOver .blockEnd then return done.reverse
    else failed

/-- Items with commas between them, up to a bracket. A key makes a mapping of one entry. -/
def items : (fuel : Nat) → (isFirst : Bool) → (done : List Node) → Read (List Node)
  | 0, _, _ => failed
  | fuel + 1, isFirst, done => do
    if ← passOver .closeList then return done.reverse
    unless isFirst do
      unless ← passOver .comma do failed
    if ← passOver .closeList then return done.reverse
    let item ← if ← passOver .key then do pure (.mapping .nothing [← pair fuel])
      else read fuel false false
    items fuel false (item :: done)

/-- The entry behind the mark of a key in a list. What shows that the key is empty is passed over,
so that a colon is no longer there to begin a value. -/
def pair : (fuel : Nat) → Read (Node × Node)
  | 0 => failed
  | fuel + 1 => do
    let key ← if ← atAny [.value, .comma, .closeList] then do
        pass
        pure .empty
      else read fuel false false
    let value ← if ← passOver .value then readUnless fuel [.comma, .closeList] false false
      else pure .empty
    return (key, value)

/-- Entries with commas between them, up to a brace. What is no key has no value. -/
def entries : (fuel : Nat) → (isFirst : Bool) → (done : List (Node × Node)) →
    Read (List (Node × Node))
  | 0, _, _ => failed
  | fuel + 1, isFirst, done => do
    if ← passOver .closeMap then return done.reverse
    unless isFirst do
      unless ← passOver .comma do failed
    if ← passOver .closeMap then return done.reverse
    let entry ← if ← passOver .key then do
        let key ← readUnless fuel [.value, .comma, .closeMap] false false
        let value ← if ← passOver .value then readUnless fuel [.comma, .closeMap] false false
          else pure .empty
        pure (key, value)
      else pure (← read fuel false false, .empty)
    entries fuel false (entry :: done)

end

/-- The handles that every document knows. -/
def commonHandles : List (String × String) := [("!", "!"), ("!!", "tag:yaml.org,2002:")]

/-- Takes in the directives in front of a document: at most one version, and no handle twice. -/
def directives : (versioned : Bool) → (handles : List (String × String)) → List Token →
    Option (List (String × String) × List Token)
  | versioned, handles, .directive (.version major minor) :: rest =>
    if versioned || major ≠ 1 || (minor ≠ 1 && minor ≠ 2) then none
    else directives true handles rest
  | versioned, handles, .directive (.handle name meaning) :: rest =>
    if (handles.lookup name).isSome then none
    else directives versioned ((name, meaning) :: handles) rest
  | _, handles, rest => some (handles ++ commonHandles, rest)

def isDocumentEnd : Token → Bool
  | .documentEnd => true
  | _ => false

/-- Whether the first document is empty, behind the mark of its start. -/
def isMissing : List Token → Bool
  | [] => true
  | .documentStart :: _ => true
  | .documentEnd :: _ => true
  | .directive _ :: _ => true
  | _ => false

/-- The node of a single document, which directives and the mark of its start may precede; none if
there is no document. -/
def ofTokens? (tokens : List Token) : Option (Option Node) := do
  if tokens.isEmpty then return none
  let (handles, rest) ← directives false [] tokens
  let begins : Bool := rest.head? = some .documentStart
  if rest.length < tokens.length && !begins then none
  let rest := if begins then rest.drop 1 else rest
  let (node, reading) ←
    if begins && isMissing rest then some (.empty, ⟨rest, handles, [], 0⟩)
    else (read (3 * tokens.length + 3) true false).run ⟨rest, handles, [], 0⟩
  if reading.tokens.all isDocumentEnd then return node else none

end Node

end FieldSchema.Yaml
