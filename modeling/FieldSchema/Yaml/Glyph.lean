/-! The characters of a YAML text, each with the place where it stands. -/
namespace FieldSchema.Yaml

structure Glyph where
  char : Char
  line : Nat
  column : Nat
  /-- How many characters of the text stand in front of it. -/
  index : Nat
  deriving DecidableEq

/-- What a text may hold as it stands. -/
def isAllowed (c : Char) : Bool :=
  let n := c.toNat
  n = 9 || n = 10 || n = 13 || (32 ≤ n && n ≤ 0x7E) || n = 0x85 || (0xA0 ≤ n && n ≤ 0xFFFD) ||
    0x10000 ≤ n

/-- Stands behind the last character; no text may hold it. -/
def ending : Char := Char.ofNat 0

def isBlank (c : Char) : Bool := c = ' ' || c = '\t'

def isBreak (c : Char) : Bool := c = '\n' || c.toNat = 0x2028 || c.toNat = 0x2029

/-- What may stand between two words. -/
def isSpace (c : Char) : Bool := isBlank c || isBreak c

/-- What may stand behind a word. -/
def isGap (c : Char) : Bool := isSpace c || c = ending

/-- Letters, digits, dashes and underscores make names. -/
def isNameCharacter (c : Char) : Bool := c.isAlphanum || c = '-' || c = '_'

/-- Brackets, braces and the comma. -/
def isFlowIndicator (c : Char) : Bool :=
  c = ',' || c = '[' || c = ']' || c = '\x7b' || c = '\x7d'

/-- The mark of a byte order, which may begin a line. -/
def isOrderMark (c : Char) : Bool := c.toNat = 0xFEFF

namespace Glyph

/-- The glyphs of a text that begins at a place, and of its ending. A carriage return, also with a
line feed behind it, and a next-line character are line feeds. -/
def ofChars (line column index : Nat) : List Char → List Glyph
  | [] => [⟨ending, line, column, index⟩]
  | '\r' :: '\n' :: rest => ⟨'\n', line, column, index⟩ :: ofChars (line + 1) 0 (index + 2) rest
  | c :: rest =>
    if c = '\r' || c.toNat = 0x85 then
      ⟨'\n', line, column, index⟩ :: ofChars (line + 1) 0 (index + 1) rest
    else if isBreak c then ⟨c, line, column, index⟩ :: ofChars (line + 1) 0 (index + 1) rest
    else ⟨c, line, column, index⟩ :: ofChars line (column + 1) (index + 1) rest

/-- The glyphs of a text, if it may be YAML. -/
def ofText? (text : String) : Option (List Glyph) :=
  if text.toList.all isAllowed then some (ofChars 0 0 0 text.toList) else none

end Glyph

/-- The character that stands `n` places ahead. -/
def charAt (n : Nat) (text : List Glyph) : Char := (text[n]?.map Glyph.char).getD ending

def columnOf (text : List Glyph) : Nat := (text.head?.map Glyph.column).getD 0

def chars (text : List Glyph) : List Char := text.map Glyph.char

/-- Whether a line begins here with three times a character that stand alone. -/
def isMarker (c : Char) (text : List Glyph) : Bool :=
  columnOf text = 0 && chars (text.take 3) = [c, c, c] && isGap (charAt 3 text)

/-- Whether the line begins with the mark of a document's start or end. -/
def atMarker (text : List Glyph) : Bool := isMarker '-' text || isMarker '.' text

/-- What follows the blanks that stand here. -/
def skipBlanks (text : List Glyph) : List Glyph := text.dropWhile (isBlank ·.char)

/-- What follows the blanks and the comment that may end a line, without its break. -/
def skipComment (text : List Glyph) : List Glyph :=
  let rest := skipBlanks text
  if charAt 0 rest = '#' then rest.dropWhile fun g => !isBreak g.char && g.char ≠ ending else rest

/-- What follows the rest of a line that holds at most a comment. -/
def endLine? (text : List Glyph) : Option (List Glyph) :=
  let rest := skipComment text
  if isBreak (charAt 0 rest) then some (rest.drop 1)
  else if charAt 0 rest = ending then some rest
  else none

end FieldSchema.Yaml
