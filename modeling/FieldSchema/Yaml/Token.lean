import FieldSchema.Yaml.Block
import FieldSchema.Yaml.Tag

/-! The tokens of a YAML text. Where a key stands in front of its colon without a mark, the tokens
that mark it, and the mapping that begins with it, are put in front of it once the colon is read. -/
namespace FieldSchema.Yaml

inductive Token where
  | directive (directive : Directive)
  | documentStart | documentEnd
  | sequenceStart | mappingStart | blockEnd
  | openList | closeList | openMap | closeMap | comma
  | dash | key | value
  | anchor (name : String)
  | reference (name : String)
  | tag (tag : Shorthand)
  | scalar (text : String) (isPlain : Bool)
  deriving DecidableEq

/-- A node that is a key if a colon follows it. -/
structure PossibleKey where
  start : Glyph
  /-- How many tokens are in front of it. -/
  place : Nat
  /-- Whether it can be nothing but a key. -/
  isRequired : Bool

/-- A key without a mark is no longer than a line and 1024 characters. -/
def PossibleKey.isPast (key : PossibleKey) (here : Glyph) : Bool :=
  key.start.line < here.line || key.start.index + 1024 < here.index

/-- A text that is read up to some place. -/
structure Lexer where
  rest : List Glyph
  /-- Last one first. -/
  tokens : List Token
  /-- How many tokens there are. -/
  size : Nat
  /-- The columns of the open collections without brackets, innermost first. -/
  indents : List Nat
  /-- What may be a key inside the innermost brackets. -/
  possible : Option PossibleKey
  /-- What may be keys around the brackets that are open, innermost first. -/
  outer : List (Option PossibleKey)
  /-- Whether a node may be a key without a mark, or begin a collection, here. -/
  allowed : Bool

namespace Lexer

def ofGlyphs (text : List Glyph) : Lexer := ⟨text, [], 0, [], none, [], true⟩

/-- Whether brackets are open. -/
def inFlow (lexer : Lexer) : Bool := !lexer.outer.isEmpty

def column (lexer : Lexer) : Nat := columnOf lexer.rest

/-- The least indentation of what belongs to the innermost collection. -/
def inside (lexer : Lexer) : Nat := (lexer.indents.head?.map (· + 1)).getD 0

def push (token : Token) (lexer : Lexer) : Lexer :=
  { lexer with tokens := token :: lexer.tokens, size := lexer.size + 1 }

/-- Puts tokens, in their order, in front of what came after the first `place` ones. -/
def insert (place : Nat) (tokens : List Token) (lexer : Lexer) : Lexer :=
  let later := lexer.size - place
  { lexer with
    tokens := lexer.tokens.take later ++ tokens.reverse ++ lexer.tokens.drop later
    size := lexer.size + tokens.length }

def pass (n : Nat) (lexer : Lexer) : Lexer := { lexer with rest := lexer.rest.drop n }

def allow (allowed : Bool) (lexer : Lexer) : Lexer := { lexer with allowed := allowed }

/-- What follows blanks, comments and line breaks, and whether a key is allowed there. Where one is
allowed, tabulators are no blanks unless brackets are open. -/
def skip (flow : Bool) : (comment allowed : Bool) → List Glyph → List Glyph × Bool
  | _, allowed, [] => ([], allowed)
  | comment, allowed, g :: rest =>
    if isBreak g.char then skip flow false (allowed || !flow) rest
    else if g.char = ending then (g :: rest, allowed)
    else if comment || g.char = '#' then skip flow true allowed rest
    else if g.char = ' ' || (g.char = '\t' && (flow || !allowed)) ||
        (g.column = 0 && isOrderMark g.char) then
      skip flow false allowed rest
    else (g :: rest, allowed)

def skipGap (lexer : Lexer) : Lexer :=
  let (rest, allowed) := skip lexer.inFlow false lexer.allowed lexer.rest
  { lexer with rest := rest, allowed := allowed }

/-- Gives up what can no longer be a key. -/
def fresh? (here : Option Glyph) : Option PossibleKey → Option (Option PossibleKey)
  | none => some none
  | some key =>
    if here.any key.isPast then if key.isRequired then none else some none else some (some key)

def dropPast (lexer : Lexer) : Option Lexer := do
  let here := lexer.rest.head?
  return { lexer with
    possible := ← fresh? here lexer.possible
    outer := ← lexer.outer.mapM (fresh? here) }

/-- What stands here is no key. -/
def dropKey (lexer : Lexer) : Option Lexer :=
  if lexer.possible.any PossibleKey.isRequired then none else some { lexer with possible := none }

/-- A node that begins here may be a key, if keys are allowed. In the column of the innermost
collection it has to be one. -/
def noteKey (lexer : Lexer) : Option Lexer :=
  if lexer.allowed then do
    let start ← lexer.rest.head?
    let lexer ← lexer.dropKey
    let isRequired := !lexer.inFlow && lexer.indents.head? = some lexer.column
    return { lexer with possible := some ⟨start, lexer.size, isRequired⟩ }
  else some lexer

/-- Ends the collections that what stands in a column does not belong to. -/
def closeTo (column : Int) (lexer : Lexer) : Lexer :=
  if lexer.inFlow then lexer
  else
    let closed := lexer.indents.takeWhile fun indent => column < Int.ofNat indent
    { lexer with
      indents := lexer.indents.drop closed.length
      tokens := closed.map (fun _ => Token.blockEnd) ++ lexer.tokens
      size := lexer.size + closed.length }

/-- Whether a collection has to begin for what stands in a column. -/
def opensAt (column : Nat) (lexer : Lexer) : Bool := !lexer.inFlow && lexer.inside ≤ column

/-- Begins a collection for what stands here, if one has to. -/
def openHere (start : Token) (lexer : Lexer) : Lexer :=
  if lexer.opensAt lexer.column then
    { lexer.push start with indents := lexer.column :: lexer.indents }
  else lexer

/-- Ends all collections in front of a line that belongs to no document. -/
def leave (lexer : Lexer) : Option Lexer := do
  let lexer ← (lexer.closeTo (-1)).dropKey
  return lexer.allow false

def directive? (lexer : Lexer) : Option Lexer := do
  let lexer ← lexer.leave
  let (directive, rest) ← Directive.read? lexer.rest
  return { lexer.push (.directive directive) with rest := rest }

def marker? (token : Token) (lexer : Lexer) : Option Lexer := do
  let lexer ← lexer.leave
  return (lexer.push token).pass 3

def opening? (token : Token) (lexer : Lexer) : Option Lexer := do
  let lexer ← lexer.noteKey
  let inner := (lexer.push token).pass 1
  return { inner with possible := none, outer := lexer.possible :: lexer.outer, allowed := true }

def closing? (token : Token) (lexer : Lexer) : Option Lexer := do
  let lexer ← lexer.dropKey
  let next := ((lexer.push token).pass 1).allow false
  match lexer.outer with
  | [] => return next
  | possible :: outer => return { next with possible := possible, outer := outer }

def comma? (lexer : Lexer) : Option Lexer := do
  let lexer ← lexer.dropKey
  return ((lexer.push .comma).pass 1).allow true

def dash? (lexer : Lexer) : Option Lexer := do
  if !lexer.inFlow && !lexer.allowed then none
  let lexer ← (lexer.openHere .sequenceStart).dropKey
  return ((lexer.push .dash).pass 1).allow true

/-- A question mark, which marks a key. -/
def key? (lexer : Lexer) : Option Lexer := do
  if !lexer.inFlow && !lexer.allowed then none
  let lexer ← (lexer.openHere .mappingStart).dropKey
  return ((lexer.push .key).pass 1).allow !lexer.inFlow

/-- A colon. What stands in front of it and may be a key is one. -/
def value? (lexer : Lexer) : Option Lexer :=
  match lexer.possible with
  | some key =>
    let column := key.start.column
    let marked :=
      if lexer.opensAt column then
        { lexer.insert key.place [.mappingStart, .key] with indents := column :: lexer.indents }
      else lexer.insert key.place [.key]
    let settled : Lexer := { marked with possible := none }
    some (((settled.push .value).pass 1).allow false)
  | none =>
    if !lexer.inFlow && !lexer.allowed then none
    else some ((((lexer.openHere .mappingStart).push .value).pass 1).allow !lexer.inFlow)

/-- Anchors, references and tags. -/
def property? (read? : List Glyph → Option (Token × List Glyph)) (lexer : Lexer) :
    Option Lexer := do
  let lexer ← lexer.noteKey
  let (token, rest) ← read? lexer.rest
  return { (lexer.push token).allow false with rest := rest }

def addScalar (scalar : Scalar) (allowed : Bool) (lexer : Lexer) : Lexer :=
  { (lexer.push (.scalar scalar.text scalar.isPlain)).allow allowed with rest := scalar.rest }

def block? (isFolded : Bool) (lexer : Lexer) : Option Lexer := do
  let lexer ← lexer.dropKey
  let scalar ← Block.read? isFolded lexer.inside (lexer.rest.drop 1)
  return lexer.addScalar scalar true

def quoted? (quote : Char) (lexer : Lexer) : Option Lexer := do
  let lexer ← lexer.noteKey
  let scalar ← Yaml.quoted quote lexer.rest.length [] (lexer.rest.drop 1)
  return lexer.addScalar scalar false

/-- A plain scalar; behind one that left its line, a key is allowed. -/
def plain? (lexer : Lexer) : Option Lexer := do
  let lexer ← lexer.noteKey
  let scalar ← plain lexer.inFlow lexer.inside (lexer.rest.length + 1) [] [] lexer.rest
  return lexer.addScalar scalar scalar.broke

/-- Reads the token that stands here. -/
def next? (lexer : Lexer) : Option Lexer :=
  let flow := lexer.inFlow
  let text := lexer.rest
  let c := charAt 0 text
  let isAlone := isGap (charAt 1 text)
  if c = '%' && lexer.column = 0 then lexer.directive?
  else if isMarker '-' text then lexer.marker? .documentStart
  else if isMarker '.' text then lexer.marker? .documentEnd
  else if c = '[' then lexer.opening? .openList
  else if c = '\x7b' then lexer.opening? .openMap
  else if c = ']' then lexer.closing? .closeList
  else if c = '\x7d' then lexer.closing? .closeMap
  else if c = ',' then lexer.comma?
  else if c = '-' && isAlone then lexer.dash?
  else if c = '?' && (flow || isAlone) then lexer.key?
  else if c = ':' && (flow || isAlone) then lexer.value?
  else if c = '*' then
    lexer.property? fun text => (name? text).map fun (name, rest) => (.reference name, rest)
  else if c = '&' then
    lexer.property? fun text => (name? text).map fun (name, rest) => (.anchor name, rest)
  else if c = '!' then
    lexer.property? fun text => (tag? flow text).map fun (tag, rest) => (.tag tag, rest)
  else if c = '|' && !flow then lexer.block? false
  else if c = '>' && !flow then lexer.block? true
  else if c = '\'' || c = '"' then lexer.quoted? c
  else if startsPlain flow text then lexer.plain?
  else none

/-- Reads the text to its end. -/
def finish : (fuel : Nat) → Lexer → Option Lexer
  | 0, _ => none
  | fuel + 1, lexer => do
    let lexer ← lexer.skipGap.dropPast
    let lexer := lexer.closeTo lexer.column
    if charAt 0 lexer.rest = ending then lexer.leave
    else finish fuel (← lexer.next?)

end Lexer

/-- The tokens of a text; none if some part of it is no token. -/
def Token.ofGlyphs? (text : List Glyph) : Option (List Token) :=
  ((Lexer.ofGlyphs text).finish (text.length + 1)).map (·.tokens.reverse)

end FieldSchema.Yaml
