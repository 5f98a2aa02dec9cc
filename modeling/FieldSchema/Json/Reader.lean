import FieldSchema.Json.Literal

/-! Reading JSON text. A member that is written again keeps its first place and takes its last
value. -/
namespace FieldSchema.Json.Reader

def isBlank (c : Char) : Bool := c = ' ' || c = '\t' || c = '\n' || c = '\r'

def skip (cs : List Char) : List Char := cs.dropWhile isBlank

def escaped? : Char → Option Char
  | '"' => some '"'
  | '\\' => some '\\'
  | '/' => some '/'
  | 'b' => some (Char.ofNat 8)
  | 'f' => some (Char.ofNat 12)
  | 'n' => some '\n'
  | 'r' => some '\r'
  | 't' => some '\t'
  | _ => none

/-- The rest of a string, after its opening quote; `done` holds what was read, last first. A high
surrogate is read together with the low one that has to follow. -/
def stringRest (done : List Char) : List Char → Option (String × List Char)
  | '"' :: rest => some (String.ofList done.reverse, rest)
  | '\\' :: 'u' :: a :: b :: c :: d :: rest =>
    match Text.inBase? 16 [a, b, c, d] with
    | none => none
    | some code =>
      if 0xD800 ≤ code ∧ code < 0xDC00 then
        match rest with
        | '\\' :: 'u' :: a :: b :: c :: d :: rest =>
          match Text.inBase? 16 [a, b, c, d] with
          | none => none
          | some low =>
            if 0xDC00 ≤ low ∧ low < 0xE000 then
              stringRest (Char.ofNat (0x10000 + (code - 0xD800) * 0x400 + (low - 0xDC00)) :: done)
                rest
            else none
        | _ => none
      else if 0xDC00 ≤ code ∧ code < 0xE000 then none
      else stringRest (Char.ofNat code :: done) rest
  | '\\' :: c :: rest =>
    match escaped? c with
    | none => none
    | some c => stringRest (c :: done) rest
  | c :: rest => if c.toNat < 32 then none else stringRest (c :: done) rest
  | [] => none

/-- A run of digits that may not be empty. -/
def digits (cs : List Char) : Option (List Char × List Char) :=
  match cs.takeWhile Text.isDigit with
  | [] => none
  | found => some (found, cs.dropWhile Text.isDigit)

def fraction : List Char → Option (Option (List Char) × List Char)
  | '.' :: rest => (digits rest).map fun (ds, rest) => (some ds, rest)
  | cs => some (none, cs)

def exponent : List Char → Option (Option (Bool × List Char) × List Char)
  | c :: rest =>
    if c = 'e' ∨ c = 'E' then
      let (down, rest) := match rest with
        | '+' :: rest => (false, rest)
        | '-' :: rest => (true, rest)
        | rest => (false, rest)
      (digits rest).map fun (ds, rest) => (some (down, ds), rest)
    else some (none, c :: rest)
  | [] => some (none, [])

/-- No zero stands before another digit. -/
def number (cs : List Char) : Option (Number × List Char) := do
  let (negative, cs) := match cs with
    | '-' :: rest => (true, rest)
    | _ => (false, cs)
  let (whole, cs) ← digits cs
  if 1 < whole.length ∧ whole.head? = some '0' then none
  let (fraction, cs) ← fraction cs
  let (exponent, cs) ← exponent cs
  let n ← Number.Literal.number? ⟨negative, whole, fraction, exponent⟩
  some (n, cs)

mutual

/-- A value and the text behind it; `room` is how many containers may still be opened inside each
other, and `fuel` bounds the number of steps. -/
def value : (fuel room : Nat) → List Char → Option (Json × List Char)
  | 0, _, _ => none
  | fuel + 1, room, cs =>
    match skip cs with
    | 'n' :: 'u' :: 'l' :: 'l' :: rest => some (.null, rest)
    | 't' :: 'r' :: 'u' :: 'e' :: rest => some (.bool true, rest)
    | 'f' :: 'a' :: 'l' :: 's' :: 'e' :: rest => some (.bool false, rest)
    | '"' :: rest => (stringRest [] rest).map fun (s, rest) => (.string s, rest)
    | '[' :: rest =>
      if room = 0 then none
      else
        match skip rest with
        | ']' :: rest => some (.array [], rest)
        | rest => items fuel (room - 1) [] rest
    | '\x7b' :: rest =>
      if room = 0 then none
      else
        match skip rest with
        | '\x7d' :: rest => some (.object [], rest)
        | rest => members fuel (room - 1) [] rest
    | rest => (number rest).map fun (n, rest) => (.number n, rest)

def items : (fuel room : Nat) → List Json → List Char → Option (Json × List Char)
  | 0, _, _, _ => none
  | fuel + 1, room, done, cs => do
    let (item, rest) ← value fuel room cs
    match skip rest with
    | ',' :: rest => items fuel room (item :: done) rest
    | ']' :: rest => some (.array (item :: done).reverse, rest)
    | _ => none

def members : (fuel room : Nat) → Members → List Char → Option (Json × List Char)
  | 0, _, _, _ => none
  | fuel + 1, room, done, cs =>
    match skip cs with
    | '"' :: rest => do
      let (key, rest) ← stringRest [] rest
      match skip rest with
      | ':' :: rest => do
        let (item, rest) ← value fuel room rest
        match skip rest with
        | ',' :: rest => members fuel room (Entries.set key item done) rest
        | '\x7d' :: rest => some (.object (Entries.set key item done), rest)
        | _ => none
      | _ => none
    | _ => none

end

end Reader

/-- The value that a whole text holds, opening at most `room` containers inside each other. -/
def parse? (room : Nat) (text : String) : Option Json :=
  let cs := text.toList
  match Reader.value (2 * cs.length + 2) room cs with
  | some (value, rest) => if (Reader.skip rest).isEmpty then some value else none
  | none => none

end FieldSchema.Json
