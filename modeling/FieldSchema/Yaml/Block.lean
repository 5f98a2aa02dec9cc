import FieldSchema.Yaml.Scalar

/-! YAML scalars in blocks of lines, which are literal or folded. -/
namespace FieldSchema.Yaml

/-- What becomes of the line breaks at the end of a block. -/
inductive Chomping where
  | strip | clip | keep
  deriving DecidableEq

structure BlockHeader where
  chomping : Chomping
  /-- How much deeper than what it belongs to the block is indented; zero if its lines show it. -/
  indent : Nat

namespace BlockHeader

/-- Takes in the sign, if one stands here. -/
def sign (header : BlockHeader) (text : List Glyph) : BlockHeader × List Glyph :=
  if charAt 0 text = '+' then (⟨.keep, header.indent⟩, text.drop 1)
  else if charAt 0 text = '-' then (⟨.strip, header.indent⟩, text.drop 1)
  else (header, text)

/-- Takes in the digit, if one stands here, which may not be zero. -/
def digit? (header : BlockHeader) (text : List Glyph) : Option (BlockHeader × List Glyph) :=
  if charAt 0 text = '0' then none
  else if Text.isDigit (charAt 0 text) then
    some (⟨header.chomping, (charAt 0 text).toNat - 48⟩, text.drop 1)
  else some (header, text)

/-- A sign and a digit, in any order, and the lines behind them. -/
def read? (text : List Glyph) : Option (BlockHeader × List Glyph) := do
  let nothing : BlockHeader := ⟨.clip, 0⟩
  let (header, rest) ←
    if Text.isDigit (charAt 0 text) then do
      let (header, rest) ← nothing.digit? text
      pure (header.sign rest)
    else do
      let (header, rest) := nothing.sign text
      if header.chomping = .clip then pure (header, rest) else header.digit? rest
  return (header, ← endLine? rest)

end BlockHeader

/-- Empty lines, and the indentation of the line behind them: the breaks in front of `breaks`, last
one first, the widest column that indentation reaches, and what follows. Without `indent` all
leading blanks are indentation, and none may be a tabulator. -/
def emptyLines (indent : Option Nat) (breaks : List Char) (widest : Nat) :
    List Glyph → Option (List Char × Nat × List Glyph)
  | [] => some (breaks, widest, [])
  | g :: rest =>
    let indents := indent.all (g.column < ·)
    if indents && g.char = ' ' then emptyLines indent breaks widest rest
    else if indents && g.char = '\t' then none
    else if isBreak g.char then emptyLines indent (g.char :: breaks) (max widest g.column) rest
    else some (breaks, max widest g.column, g :: rest)

/-- A block up to some place: the text so far and the breaks behind it, all last one first. -/
structure Block where
  done : List Char
  /-- The break of the last line. -/
  lineBreak : List Char
  /-- The breaks of empty lines behind it. -/
  empties : List Char
  /-- Whether the last line is indented further than the block. -/
  isDeeper : Bool
  rest : List Glyph

namespace Block

/-- What the break of a line is when another line follows. If the block is folded, and neither line
is indented further, it is a blank, and nothing if empty lines stand between them. -/
def joint (isFolded isDeeper : Bool) (block : Block) : List Char :=
  if isFolded && block.lineBreak = ['\n'] && !block.isDeeper && !isDeeper then
    if block.empties.isEmpty then [' '] else []
  else block.lineBreak

/-- Takes in the lines that begin in the column `indent`. -/
def lines (isFolded : Bool) (indent : Nat) : (fuel : Nat) → Block → Option Block
  | 0, _ => none
  | fuel + 1, block => do
    let first := charAt 0 block.rest
    if columnOf block.rest ≠ indent || first = ending then return block
    let ends (g : Glyph) : Bool := isBreak g.char || g.char = ending
    let line := chars (block.rest.takeWhile (!ends ·))
    let rest := block.rest.dropWhile (!ends ·)
    let lineBreak := (chars (rest.take 1)).filter isBreak
    let (empties, _, rest) ← emptyLines (some indent) [] 0 (rest.drop lineBreak.length)
    let done := line.reverse ++ block.empties ++ block.joint isFolded (isBlank first) ++ block.done
    lines isFolded indent fuel ⟨done, lineBreak, empties, isBlank first, rest⟩

def chomped (block : Block) : Chomping → List Char
  | .strip => block.done
  | .clip => block.lineBreak ++ block.done
  | .keep => block.empties ++ block.lineBreak ++ block.done

/-- A block from behind its mark on, which belongs to what is indented by `parent` less one. Its
indentation is that of its first line that is not empty, or of a wider empty line before it. -/
def read? (isFolded : Bool) (parent : Nat) (text : List Glyph) : Option Scalar := do
  let (header, rest) ← BlockHeader.read? text
  let known := if header.indent = 0 then none else some (parent - 1 + header.indent)
  let (empties, widest, rest) ← emptyLines known [] 0 rest
  let indent := known.getD (max widest (max parent 1))
  let block ← lines isFolded indent (rest.length + 1) ⟨[], [], empties, false, rest⟩
  return ⟨String.ofList (block.chomped header.chomping).reverse, false, false, block.rest⟩

end Block

end FieldSchema.Yaml
