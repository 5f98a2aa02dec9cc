import FieldSchema.Toml.Quoted
import FieldSchema.Toml.Scalar
import FieldSchema.Toml.Table

/-! Reading TOML text. -/
namespace FieldSchema.Toml

def skipBlanks (cs : List Char) : List Char := cs.dropWhile isBlank

/-- What follows a comment, which may hold no control. -/
def afterComment (cs : List Char) : Option (List Char) :=
  let rest := cs.dropWhile isPlain
  if rest.isEmpty || (lineBreak? rest).isSome then some rest else none

/-- Skips blanks, line breaks and comments. -/
def skipLines : (fuel : Nat) → List Char → Option (List Char)
  | 0, _ => none
  | fuel + 1, cs =>
    match skipBlanks cs with
    | '#' :: rest => (afterComment rest).bind (skipLines fuel)
    | rest =>
      match lineBreak? rest with
      | some rest => skipLines fuel rest
      | none => some rest

/-- The end of a line: blanks and a comment at most. -/
def lineEnd (cs : List Char) : Option (List Char) := do
  let rest ← match skipBlanks cs with
    | '#' :: rest => afterComment rest
    | rest => some rest
  if rest.isEmpty then some [] else lineBreak? rest

def isKeyCharacter (c : Char) : Bool :=
  ('a' ≤ c && c ≤ 'z') || ('A' ≤ c && c ≤ 'Z') || Text.isDigit c || c = '_' || c = '-'

def simpleKey (cs : List Char) : Option (String × List Char) :=
  match cs with
  | '"' :: rest => basic (rest.length + 1) [] rest
  | '\'' :: rest => literal [] rest
  | _ =>
    match cs.takeWhile isKeyCharacter with
    | [] => none
    | found => some (String.ofList found, cs.dropWhile isKeyCharacter)

/-- How many keys may be in one, and how many lists and inline tables inside each other. -/
def limit : Nat := 80

/-- Keys with points between them; blanks may surround each. -/
def dottedKeys : (fuel : Nat) → List Char → Option (List String × List Char)
  | 0, _ => none
  | fuel + 1, cs => do
    let (key, rest) ← simpleKey (skipBlanks cs)
    match skipBlanks rest with
    | '.' :: rest => do
      let (keys, rest) ← dottedKeys fuel rest
      return (key :: keys, rest)
    | rest => return ([key], rest)

def dottedKey (cs : List Char) : Option (List String × List Char) := do
  let (keys, rest) ← dottedKeys (cs.length + 1) cs
  if limit < keys.length then none else return (keys, rest)

/-- What an unquoted scalar is made of. -/
def isScalarCharacter (c : Char) : Bool := isKeyCharacter c || c = '+' || c = '.' || c = ':'

/-- A blank belongs to a scalar only between a date and a time. -/
def scalarText (cs : List Char) : List Char × List Char :=
  let found := cs.takeWhile isScalarCharacter
  let rest := cs.dropWhile isScalarCharacter
  match rest with
  | ' ' :: next :: _ =>
    if afterDate? found = some [] && Text.isDigit next then
      let rest := rest.drop 1
      (found ++ ' ' :: rest.takeWhile isScalarCharacter, rest.dropWhile isScalarCharacter)
    else (found, rest)
  | _ => (found, rest)

mutual

/-- A value with at most `room` lists and inline tables inside each other. -/
def value : (fuel room : Nat) → List Char → Option (Value × List Char)
  | 0, _, _ => none
  | fuel + 1, room, cs =>
    match cs with
    | '"' :: rest => (quoted '"' rest).map fun (s, rest) => (.string s, rest)
    | '\'' :: rest => (quoted '\'' rest).map fun (s, rest) => (.string s, rest)
    | '[' :: rest => if room = 0 then none else items fuel (room - 1) [] rest
    | '\x7b' :: rest => if room = 0 then none else entries fuel (room - 1) [] rest
    | _ =>
      let (found, rest) := scalarText cs
      (scalar? found).map (·, rest)

def items : (fuel room : Nat) → (done : List Value) → List Char → Option (Value × List Char)
  | 0, _, _, _ => none
  | fuel + 1, room, done, cs => do
    match ← skipLines (cs.length + 1) cs with
    | ']' :: rest => return (.array done.reverse, rest)
    | rest => do
      let (item, rest) ← value fuel room rest
      match ← skipLines (rest.length + 1) rest with
      | ',' :: rest => items fuel room (item :: done) rest
      | ']' :: rest => return (.array (item :: done).reverse, rest)
      | _ => none

def entries : (fuel room : Nat) → Table → List Char → Option (Value × List Char)
  | 0, _, _, _ => none
  | fuel + 1, room, done, cs => do
    match ← skipLines (cs.length + 1) cs with
    | '\x7d' :: rest => return (.table done .inline, rest)
    | rest => do
      let (keys, rest) ← dottedKey rest
      match rest with
      | '=' :: rest => do
        let (item, rest) ← value fuel room (skipBlanks rest)
        let done ← Table.addKey item false keys done
        match ← skipLines (rest.length + 1) rest with
        | ',' :: rest => entries fuel room done rest
        | '\x7d' :: rest => return (.table done .inline, rest)
        | _ => none
      | _ => none

end

/-- A header, behind its first bracket: its keys, and whether it may be repeated. -/
def header (cs : List Char) : Option (List String × Bool × List Char) := do
  let (repeated, cs) := match cs with
    | '[' :: rest => (true, rest)
    | _ => (false, cs)
  let (keys, rest) ← dottedKey cs
  match repeated, rest with
  | false, ']' :: rest => return (keys, false, ← lineEnd rest)
  | true, ']' :: ']' :: rest => return (keys, true, ← lineEnd rest)
  | _, _ => none

/-- Reads line after line; `current` is the last header. -/
def readLines : (fuel : Nat) → (current : List String) → Table → List Char → Option Table
  | 0, _, _, _ => none
  | fuel + 1, current, table, cs => do
    match ← skipLines (cs.length + 1) cs with
    | [] => return table
    | '[' :: rest => do
      let (keys, repeated, rest) ← header rest
      let last ← keys.getLast?
      let openKey := if repeated then Table.openNext last else Table.openTable last
      readLines fuel keys (← Table.within openKey keys.dropLast table) rest
    | rest => do
      let (keys, rest) ← dottedKey rest
      match rest with
      | '=' :: rest => do
        let (item, rest) ← value (rest.length + 1) limit (skipBlanks rest)
        readLines fuel current (← Table.addUnder current keys item table) (← lineEnd rest)
      | _ => none

/-- The table that a text holds. A byte order mark may lead it. -/
def parse? (text : String) : Option Table :=
  let cs := match text.toList with
    | c :: rest => if c.toNat = 0xFEFF then rest else c :: rest
    | [] => []
  readLines (cs.length + 1) [] [] cs

end FieldSchema.Toml
