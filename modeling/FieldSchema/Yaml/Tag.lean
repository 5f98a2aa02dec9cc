import FieldSchema.Text.Digit
import FieldSchema.Yaml.Glyph

/-! Tags as they are written, the handles that shorten them, and other names. The octets of a tag
are held as the characters of the same numbers. -/
namespace FieldSchema.Yaml

/-- A tag as it is written: what a handle stands for comes in front of the suffix. -/
structure Shorthand where
  handle : Option String
  suffix : String
  deriving DecidableEq

/-- What may stand in a tag. Only a tag between angle brackets may hold brackets and commas. -/
def isTagCharacter (whole : Bool) (c : Char) : Bool :=
  isNameCharacter c || "%;/?:@&=+$.!~*'()".toList.contains c ||
    (whole && (c = ',' || c = '[' || c = ']'))

/-- How many octets follow the first one of a character. -/
def continuation? (octet : Nat) : Option Nat :=
  if octet < 0x80 then some 0
  else if octet / 32 = 6 then some 1
  else if octet / 16 = 14 then some 2
  else if octet / 8 = 30 then some 3
  else none

/-- How many octets are still due behind an octet, of which `due` were so far. -/
def stillDue? (due octet : Nat) : Option Nat :=
  if due = 0 then continuation? octet else if octet / 64 = 2 then some (due - 1) else none

/-- The octets of a tag in front of `done`, last one first, and what follows it. -/
def tagOctets (whole : Bool) : (fuel due : Nat) → (done : List Char) → List Glyph →
    Option (List Char × List Glyph)
  | 0, _, _, _ => none
  | fuel + 1, due, done, text =>
    let c := charAt 0 text
    if c = '%' then do
      let octet ← Text.inBase? 16 [charAt 1 text, charAt 2 text]
      let due ← stillDue? due octet
      tagOctets whole fuel due (Char.ofNat octet :: done) (text.drop 3)
    else if 0 < due then none
    else if isTagCharacter whole c then tagOctets whole fuel 0 (c :: done) (text.drop 1)
    else some (done, text)

/-- What stands in front of an octet of zero, which ends a tag. -/
def upToZero (octets : List Char) : String := String.ofList (octets.takeWhile (·.toNat ≠ 0))

/-- The text of a tag, which may not be empty unless something stands in front of it. -/
def tagText? (whole lone : Bool) (text : List Glyph) : Option (String × List Glyph) := do
  let (done, rest) ← tagOctets whole (text.length + 1) 0 [] text
  if done.isEmpty && lone then none
  return (upToZero done.reverse, rest)

/-- A name between exclamation marks, or what begins like one. -/
def handle (text : List Glyph) : List Char × List Glyph :=
  let name := (text.drop 1).takeWhile (isNameCharacter ·.char)
  let rest := (text.drop 1).dropWhile (isNameCharacter ·.char)
  if charAt 0 rest = '!' then ('!' :: chars name ++ ['!'], rest.drop 1)
  else ('!' :: chars name, rest)

def isHandle (cs : List Char) : Bool := 1 < cs.length && cs.getLast? = some '!'

/-- A tag without its end: whole between angle brackets, with a handle, or of the document, whose
handle is an exclamation mark. A mark that stands alone is the whole tag. -/
def shorthand? (text : List Glyph) : Option (Shorthand × List Glyph) :=
  if charAt 1 text = '<' then do
    let (suffix, rest) ← tagText? true true (text.drop 2)
    if charAt 0 rest ≠ '>' then none
    return (⟨none, suffix⟩, rest.drop 1)
  else do
    let (found, rest) := handle text
    if isHandle found then
      let (suffix, rest) ← tagText? false true rest
      return (⟨some (String.ofList found), suffix⟩, rest)
    else
      let (more, rest) ← tagText? false false rest
      let suffix := String.ofList (found.drop 1) ++ more
      return (if suffix.isEmpty then ⟨none, "!"⟩ else ⟨some "!", suffix⟩, rest)

/-- A tag; inside brackets, a comma may follow it without a gap. -/
def tag? (flow : Bool) (text : List Glyph) : Option (Shorthand × List Glyph) := do
  let (tag, rest) ← shorthand? text
  let next := charAt 0 rest
  if isGap next || (flow && next = ',') then return (tag, rest) else none

/-- The name behind the mark of an anchor or a reference. -/
def name? (text : List Glyph) : Option (String × List Glyph) :=
  let name := chars ((text.drop 1).takeWhile (isNameCharacter ·.char))
  let rest := (text.drop 1).dropWhile (isNameCharacter ·.char)
  let next := charAt 0 rest
  let closes : Bool := next = Char.ofNat 96 || "?:,]\x7d%@".toList.contains next
  if !name.isEmpty && (isGap next || closes) then some (String.ofList name, rest) else none

/-- What a line says about the document behind it. -/
inductive Directive where
  | version (major minor : Nat)
  | handle (name meaning : String)
  deriving DecidableEq

namespace Directive

/-- A number of at most nine digits. -/
def number? (text : List Glyph) : Option (Nat × List Glyph) :=
  let digits := chars (text.takeWhile (Text.isDigit ·.char))
  if digits.isEmpty || 9 < digits.length then none
  else some (Text.decimal digits, text.drop digits.length)

def version? (text : List Glyph) : Option (Directive × List Glyph) := do
  let (major, rest) ← number? text
  if charAt 0 rest ≠ '.' then none
  let (minor, rest) ← number? (rest.drop 1)
  return (.version major minor, rest)

def handle? (text : List Glyph) : Option (Directive × List Glyph) := do
  if charAt 0 text ≠ '!' then none
  let (name, rest) := Yaml.handle text
  if !(name.length = 1 || isHandle name) || !isBlank (charAt 0 rest) then none
  let (meaning, rest) ← tagText? true true (skipBlanks rest)
  if isGap (charAt 0 rest) then return (.handle (String.ofList name) meaning, rest) else none

/-- A directive and its line. -/
def read? (text : List Glyph) : Option (Directive × List Glyph) := do
  let name := chars ((text.drop 1).takeWhile (isNameCharacter ·.char))
  let rest := text.drop (1 + name.length)
  if !isGap (charAt 0 rest) then none
  let (directive, rest) ←
    if name = "YAML".toList then version? (skipBlanks rest)
    else if name = "TAG".toList then handle? (skipBlanks rest)
    else none
  return (directive, ← endLine? rest)

end Directive

end FieldSchema.Yaml
