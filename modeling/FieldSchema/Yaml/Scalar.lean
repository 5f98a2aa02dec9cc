import FieldSchema.Text.Digit
import FieldSchema.Yaml.Glyph

/-! The text of YAML scalars: plain or between quotes. Both are words with gaps between them, and a
gap that breaks the line is folded. -/
namespace FieldSchema.Yaml

/-- What a gap between two words stands for. On one line it is kept. Blanks around line breaks are
left out; a first line feed is left out too, and is a blank if there is no other break. -/
def folded (gap : List Char) : List Char :=
  match gap.filter isBreak with
  | [] => gap
  | '\n' :: [] => [' ']
  | '\n' :: others => others
  | breaks => breaks

def gapOf (text : List Glyph) : List Glyph := text.takeWhile (isSpace ·.char)

def afterGap (text : List Glyph) : List Glyph := text.dropWhile (isSpace ·.char)

/-- Whether a word of a plain scalar ends in front of a character. -/
def endsWord (flow : Bool) (c next : Char) : Bool :=
  isGap c || (c = ':' && isGap next) || (flow && isFlowIndicator c)

/-- Inside brackets, neither a bracket nor a question mark may follow a colon. -/
def isMisplaced (flow : Bool) (c next : Char) : Bool :=
  flow && c = ':' && (next = '?' || isFlowIndicator next)

/-- A word of a plain scalar in front of `done`, last character first, and what follows it. -/
def plainWord (flow : Bool) (done : List Char) : List Glyph → Option (List Char × List Glyph)
  | [] => some (done, [])
  | g :: rest =>
    if isMisplaced flow g.char (charAt 0 rest) then none
    else if endsWord flow g.char (charAt 0 rest) then some (done, g :: rest)
    else plainWord flow (g.char :: done) rest

/-- Whether some line of a gap is indented with a tabulator. -/
def isTabbed (indent : Nat) (gap : List Glyph) : Bool :=
  gap.any fun g =>
    g.char = '\t' && g.column < indent && gap.head?.any fun first => first.line < g.line

/-- A scalar behind which a text goes on. -/
structure Scalar where
  text : String
  isPlain : Bool
  /-- Whether the line was left in search of more. -/
  broke : Bool
  rest : List Glyph

/-- A plain scalar, whose words are indented by `indent` unless brackets are open. The gap in front
of a word belongs to the scalar only if the word does. -/
def plain (flow : Bool) (indent : Nat) :
    (fuel : Nat) → (done : List Char) → (gap : List Glyph) → List Glyph → Option Scalar
  | 0, _, _, _ => none
  | fuel + 1, done, gap, text => do
    let ended : Scalar :=
      ⟨String.ofList done.reverse, true, (chars gap).any isBreak, text⟩
    if atMarker text || charAt 0 text = '#' then return ended
    let (word, rest) ← plainWord flow [] text
    if word.isEmpty then return ended
    let done := word ++ (folded (chars gap)).reverse ++ done
    let gap := gapOf rest
    if isTabbed indent gap then none
    if !flow && columnOf (afterGap rest) < indent then
      return ⟨String.ofList done.reverse, true, (chars gap).any isBreak, afterGap rest⟩
    plain flow indent fuel done gap (afterGap rest)

/-- What begins something else than a plain scalar. -/
def indicators : List Char :=
  ['-', '?', ':', ',', '[', ']', '\x7b', '\x7d', '#', '&', '*', '!', '|', '>', '\'', '"', '%', '@',
    Char.ofNat 96]

/-- Whether a plain scalar may begin here. -/
def startsPlain (flow : Bool) (text : List Glyph) : Bool :=
  let c := charAt 0 text
  let next := charAt 1 text
  (!isGap c && !indicators.contains c) || (c = '-' && !isBlank next) ||
    (!flow && (c = '?' || c = ':') && !isGap next)

def codes : List (Char × Nat) :=
  [('0', 0), ('a', 7), ('b', 8), ('t', 9), ('\t', 9), ('n', 10), ('v', 11), ('f', 12), ('r', 13),
    ('e', 27), (' ', 32), ('"', 34), ('/', 47), ('\\', 92), ('N', 0x85), ('_', 0xA0), ('L', 0x2028),
    ('P', 0x2029)]

def character? (code : Nat) : Option Char :=
  if h : code.isValidChar then some (Char.ofNatAux code h) else none

/-- The number of hexadecimal digits behind the letter of an escape. -/
def codeLength? (c : Char) : Option Nat :=
  if c = 'x' then some 2 else if c = 'u' then some 4 else if c = 'U' then some 8 else none

/-- The character that an escape stands for, and what follows it. -/
def escape? (text : List Glyph) : Option (Char × List Glyph) :=
  match codeLength? (charAt 0 text) with
  | some n => do
    let digits := chars ((text.drop 1).take n)
    if digits.length < n then none
    let c ← (Text.inBase? 16 digits).bind character?
    return (c, text.drop (n + 1))
  | none => (codes.lookup (charAt 0 text)).map fun code => (Char.ofNat code, text.drop 1)

/-- A scalar from behind its quote on. One single quote is written as two; double quotes have
escapes, and an escaped line break leaves itself and the blanks behind it out. No line of a scalar
may look like the mark of a document. -/
def quoted (quote : Char) : (fuel : Nat) → (done : List Char) → List Glyph → Option Scalar
  | 0, _, _ => none
  | fuel + 1, done, text =>
    let c := charAt 0 text
    let next := charAt 1 text
    if c = ending || atMarker text then none
    else if c = '\'' && next = '\'' && quote = '\'' then
      quoted quote fuel ('\'' :: done) (text.drop 2)
    else if c = quote then some ⟨String.ofList done.reverse, false, false, text.drop 1⟩
    else if c = '\\' && quote = '"' then
      if isBreak next then
        let breaks := (chars (gapOf (text.drop 2))).filter isBreak
        quoted quote fuel (breaks.reverse ++ done) (afterGap (text.drop 2))
      else do
        let (c, rest) ← escape? (text.drop 1)
        quoted quote fuel (c :: done) rest
    else if isSpace c then
      quoted quote fuel ((folded (chars (gapOf text))).reverse ++ done) (afterGap text)
    else quoted quote fuel (c :: done) (text.drop 1)

end FieldSchema.Yaml
