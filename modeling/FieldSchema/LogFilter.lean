import FieldSchema.Text.Blank
import FieldSchema.Text.Digit
import FieldSchema.Text.Letter

/-! Which messages are logged. A filter is a list of directives with commas between them: a level, a
target, or a target with a level. The directive with the longest target decides on a message. -/
namespace FieldSchema

/-- How much is logged: all that is at least as severe. -/
inductive LogLevel where
  | off | error | warn | info | debug | trace
  deriving DecidableEq

namespace LogLevel

def rank : LogLevel → Nat
  | .off => 0
  | .error => 1
  | .warn => 2
  | .info => 3
  | .debug => 4
  | .trace => 5

def all : List LogLevel := [.off, .error, .warn, .info, .debug, .trace]

def name : LogLevel → String
  | .off => "off"
  | .error => "error"
  | .warn => "warn"
  | .info => "info"
  | .debug => "debug"
  | .trace => "trace"

/-- A level by its number or by its name in any case; no name at all is that of errors. -/
def parse? (s : String) : Option LogLevel :=
  match (Text.natural? UInt64.size s).bind fun n => all.find? (·.rank = n) with
  | some level => some level
  | none => if s.isEmpty then some .error else all.find? (·.name = s.map Char.toLower)

end LogLevel

/-- What a directive asks of a message besides its target. -/
inductive LogCondition where
  | none
  /-- The message has this field. -/
  | field (name : String)
  /-- Only spans can meet it, and no message is in one. -/
  | span
  deriving DecidableEq

structure LogDirective where
  target : Option String
  condition : LogCondition
  level : LogLevel
  deriving DecidableEq

namespace LogDirective

inductive Refusal where
  | form | level
  deriving DecidableEq

def Refusal.message : Refusal → String
  | .form => "invalid filter directive"
  | .level =>
    "error parsing level filter: expected one of \"off\", \"error\", \"warn\", \"info\", " ++
      "\"debug\", \"trace\", or a number 0-5"

def mayLead (c : Char) : Bool := Text.isLetterOrNumber c || c = '-' || c = ':' || c = '_'

/-- A target without a level has them all. -/
def ofWord (word : String) : LogDirective :=
  match LogLevel.parse? word with
  | some level => ⟨none, .none, level⟩
  | none => ⟨some word, .none, .trace⟩

def readLevel (cs : List Char) : Except Refusal LogLevel :=
  if cs.isEmpty then .ok .trace
  else
    match LogLevel.parse? (String.ofList cs) with
    | some level => .ok level
    | none => .error .level

/-- What a text holds from one place up to another. -/
def between (written : List Char) (start stop : Nat) : List Char := (written.take stop).drop start

/-- The level behind an equals sign, if `rest` begins with one; it stands in `written` from the
place `start` on. -/
def levelBehind (written : List Char) (start : Nat) : List Char → Except Refusal LogLevel
  | [] => .ok .trace
  | '=' :: _ => readLevel (written.drop start)
  | _ => .error .form

/-- A field in braces. One that has to have a value is about spans. -/
def fieldCondition (span field : List Char) : LogCondition :=
  if span.isEmpty && !field.contains '=' then .field (String.ofList field) else .span

/-- The condition in brackets that open in front of the place `start`, and a level. -/
def ofBracket (written : List Char) (target : Option String) (start : Nat) (rest : List Char) :
    Except Refusal LogDirective :=
  let name := rest.takeWhile fun c => c ≠ ']' && c ≠ '\x7b'
  let stop := start + name.length
  match rest.drop name.length with
  | ']' :: rest => (levelBehind written (stop + 2) rest).map fun level => ⟨target, .span, level⟩
  | '\x7b' :: rest =>
    let field := rest.takeWhile (· ≠ '\x7d')
    let fieldStop := stop + 1 + field.length
    match field, rest.drop field.length with
    | _ :: _, '\x7d' :: ']' :: rest =>
      let condition :=
        fieldCondition (between written start stop) (between written (stop + 1) fieldStop)
      (levelBehind written (fieldStop + 3) rest).map fun level => ⟨target, condition, level⟩
    | _, _ => .error .form
  | _ => .error .form

/-- The form of a directive is looked for without the blanks around it. Its parts are taken from
the same places of what is written, so blanks in front shift them, and those behind stay. -/
def parse (s : String) : Except Refusal LogDirective :=
  let written := s.toList
  let trimmed := (Text.trim s).toList
  match trimmed with
  | [] => .error .form
  | '[' :: rest => ofBracket written none 1 rest
  | first :: _ =>
    if mayLead first then
      let stop := (trimmed.takeWhile fun c => c ≠ '=' && c ≠ '[').length
      let target := String.ofList (written.take stop)
      match trimmed.drop stop with
      | '=' :: _ =>
        (readLevel (written.drop (stop + 1))).map fun level => ⟨some target, .none, level⟩
      | '[' :: rest => ofBracket written (some target) (stop + 1) rest
      | _ => .ok (ofWord s)
    else .error .form

/-- How much of a message a directive names: its target counts first, then its field. -/
def reach (directive : LogDirective) : Nat :=
  2 * (directive.target.map (String.length · + 1)).getD 0 +
    match directive.condition with
    | .none => 0
    | _ => 1

/-- Whether a directive decides on the messages of a target that have these fields. -/
def concerns (target : String) (fields : List String) (directive : LogDirective) : Bool :=
  directive.target.all (target.startsWith ·) &&
    match directive.condition with
    | .none => true
    | .field name => fields.contains name
    | .span => false

end LogDirective

abbrev LogFilter := List LogDirective

namespace LogFilter

/-- Of two directives, the one that names more; of equals, the later. -/
def stronger (a b : LogDirective) : LogDirective := if b.reach < a.reach then a else b

/-- Whether a message of this level, with these fields, is logged for this target. -/
def admits (filter : LogFilter) (target : String) (fields : List String) (level : LogLevel) :
    Bool :=
  match List.filter (LogDirective.concerns target fields) filter with
  | [] => false
  | first :: rest => level.rank ≤ (rest.foldl stronger first).level.rank

/-- What is said of a directive that cannot be read. -/
def refusalLine (s : String) (refusal : LogDirective.Refusal) : String :=
  "ignoring " ++ String.singleton (Char.ofNat 96) ++ s ++ String.singleton (Char.ofNat 96) ++
    ": " ++ refusal.message

/-- The filter that a text gives, with a line for each directive that cannot be read. Without any
that can, everything down to the standard level is logged. -/
def parse (standard : LogLevel) (text : String) : LogFilter × List String :=
  let read := (text.splitOn ",").filter (· ≠ "") |>.map fun s => (s, LogDirective.parse s)
  let directives := read.filterMap fun (_, directive) => directive.toOption
  let refusals := read.filterMap fun (s, directive) =>
    match directive with
    | .error refusal => some (refusalLine s refusal)
    | .ok _ => none
  (if directives.isEmpty then [⟨none, .none, standard⟩] else directives, refusals)

end LogFilter

end FieldSchema
