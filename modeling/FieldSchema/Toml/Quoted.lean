import FieldSchema.Text.Digit

/-! Quoted TOML strings: on one line or on several, with escapes or as they stand. Each reader
starts behind the opening quotes, and `done` holds what was read, last first. -/
namespace FieldSchema.Toml

def isBlank (c : Char) : Bool := c = ' ' || c = '\t'

/-- Controls are refused, except for the tabulator. -/
def isPlain (c : Char) : Bool := c = '\t' || (32 ≤ c.toNat && c.toNat ≠ 127)

def character? (code : Nat) : Option Char :=
  if h : code.isValidChar then some (Char.ofNatAux code h) else none

/-- The character that an escape stands for, with what follows the escape. -/
def escape? : List Char → Option (Char × List Char)
  | 'b' :: rest => some (Char.ofNat 8, rest)
  | 't' :: rest => some ('\t', rest)
  | 'n' :: rest => some ('\n', rest)
  | 'f' :: rest => some (Char.ofNat 12, rest)
  | 'r' :: rest => some ('\r', rest)
  | 'e' :: rest => some (Char.ofNat 27, rest)
  | '"' :: rest => some ('"', rest)
  | '\\' :: rest => some ('\\', rest)
  | 'x' :: rest => coded 2 rest
  | 'u' :: rest => coded 4 rest
  | 'U' :: rest => coded 8 rest
  | _ => none
where
  coded (n : Nat) (cs : List Char) : Option (Char × List Char) := do
    if (cs.take n).length < n then none
    let c ← (Text.inBase? 16 (cs.take n)).bind character?
    return (c, cs.drop n)

/-- The rest of a line break, if one starts here. -/
def lineBreak? : List Char → Option (List Char)
  | '\n' :: rest => some rest
  | '\r' :: '\n' :: rest => some rest
  | _ => none

def closed (done : List Char) (rest : List Char) : Option (String × List Char) :=
  some (String.ofList done.reverse, rest)

/-- One line, as it stands. -/
def literal (done : List Char) : List Char → Option (String × List Char)
  | '\'' :: rest => closed done rest
  | c :: rest => if isPlain c then literal (c :: done) rest else none
  | [] => none

/-- One line, with escapes. -/
def basic : (fuel : Nat) → (done : List Char) → List Char → Option (String × List Char)
  | 0, _, _ => none
  | _, done, '"' :: rest => closed done rest
  | fuel + 1, done, '\\' :: rest => do
    let (c, rest) ← escape? rest
    basic fuel (c :: done) rest
  | fuel + 1, done, c :: rest => if isPlain c then basic fuel (c :: done) rest else none
  | _, _, [] => none

/-- The quotes that close several lines; up to two more before them belong to the string. -/
def closing? (quote : Char) (cs : List Char) : Option (Nat × List Char) :=
  let n := (cs.takeWhile (· = quote)).length
  if n < 3 then none else some (min (n - 3) 2, cs.drop (min n 5))

def lines (quote : Char) (escapes : Bool) :
    (fuel : Nat) → (done : List Char) → List Char → Option (String × List Char)
  | 0, _, _ => none
  | fuel + 1, done, cs =>
    match closing? quote cs with
    | some (extra, rest) => closed (List.replicate extra quote ++ done) rest
    | none =>
      match lineBreak? cs with
      | some rest => lines quote escapes fuel ('\n' :: done) rest
      | none =>
        match cs with
        | [] => none
        | c :: rest =>
          if c = '\\' && escapes then
            if (lineBreak? (rest.dropWhile isBlank)).isSome then
              lines quote escapes fuel done
                (rest.dropWhile fun c => isBlank c || c = '\n' || c = '\r')
            else
              match escape? rest with
              | some (c, rest) => lines quote escapes fuel (c :: done) rest
              | none => none
          else if isPlain c then lines quote escapes fuel (c :: done) rest
          else none

/-- A line break right behind the opening quotes is left out. -/
def severalLines (quote : Char) (escapes : Bool) (cs : List Char) : Option (String × List Char) :=
  lines quote escapes (cs.length + 1) [] ((lineBreak? cs).getD cs)

/-- A string, behind its first quote. -/
def quoted (quote : Char) (cs : List Char) : Option (String × List Char) :=
  let escapes := quote = '"'
  match cs with
  | a :: b :: rest =>
    if a = quote ∧ b = quote then severalLines quote escapes rest
    else if escapes then basic (cs.length + 1) [] cs
    else literal [] cs
  | _ => if escapes then basic (cs.length + 1) [] cs else literal [] cs

end FieldSchema.Toml
