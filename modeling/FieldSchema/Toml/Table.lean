import FieldSchema.Entries
import FieldSchema.Toml.Value

/-! What a line of TOML adds to a table. A table is named by one header at most, a dotted key adds
only to tables that dotted keys have made, and a key is written once. -/
namespace FieldSchema.Toml.Table

/-- Adds a value under a dotted key. `shut` tells that the key has led here into a table that no
dotted key has made; only a longer key may go on from it. -/
def addKey (value : Value) (shut : Bool) : List String → Table → Option Table
  | [], _ => none
  | [key], table => if shut || Entries.has key table then none else some (table ++ [(key, value)])
  | key :: rest, table =>
    match table.lookup key with
    | none => do
      let made ← addKey value false rest []
      return table ++ [(key, .table made .dotted)]
    | some (.table entries origin) =>
      if origin = .passed || origin = .dotted then do
        let grown ← addKey value (origin = .passed) rest entries
        return Entries.set key (.table grown origin) table
      else none
    | some (.tables (entries :: others)) => do
      let grown ← addKey value true rest entries
      return Entries.set key (.tables (grown :: others)) table
    | some _ => none

/-- Applies `f` to the table that a header names, which headers before it have made or pass
through. -/
def within (f : Table → Option Table) : List String → Table → Option Table
  | [], table => f table
  | key :: rest, table =>
    match table.lookup key with
    | none => do
      let made ← within f rest []
      return table ++ [(key, .table made .passed)]
    | some (.table entries origin) =>
      if origin = .inline then none
      else do
        let grown ← within f rest entries
        return Entries.set key (.table grown origin) table
    | some (.tables (entries :: others)) => do
      let grown ← within f rest entries
      return Entries.set key (.tables (grown :: others)) table
    | some _ => none

/-- The header of a table: it may have been passed through before, but not named. -/
def openTable (key : String) (table : Table) : Option Table :=
  match table.lookup key with
  | none => some (table ++ [(key, .table [] .header)])
  | some (.table entries .passed) => some (Entries.set key (.table entries .header) table)
  | some _ => none

/-- The header of one more table under the same key. -/
def openNext (key : String) (table : Table) : Option Table :=
  match table.lookup key with
  | none => some (table ++ [(key, .tables [[]])])
  | some (.tables others) => some (Entries.set key (.tables ([] :: others)) table)
  | some _ => none

/-- Adds a value under a dotted key of the table that the last header named. -/
def addUnder (header keys : List String) (value : Value) (table : Table) : Option Table :=
  within (addKey value false keys) header table

end FieldSchema.Toml.Table
