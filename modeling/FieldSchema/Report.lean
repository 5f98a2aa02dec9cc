import FieldSchema.Fault

/-! The outcome of checking a document: its faults in the order in which they were found. -/
namespace FieldSchema

structure Report where
  valid : Bool
  faults : List Fault
  deriving DecidableEq

namespace Report

def success : Report := ⟨true, []⟩

def single (fault : Fault) : Report := ⟨false, [fault]⟩

def add (fault : Fault) (report : Report) : Report := ⟨false, report.faults ++ [fault]⟩

/-- Adds the fault of a check that fails. -/
def note (outcome : Except Fault Unit) (report : Report) : Report :=
  match outcome with
  | .ok () => report
  | .error fault => report.add fault

/-- Valid if both are. -/
def merge (a b : Report) : Report := ⟨a.valid && b.valid, a.faults ++ b.faults⟩

/-- The first fault, if there is one, whatever the report says of validity. -/
def result (report : Report) : Except Fault Unit :=
  match report.faults with
  | [] => .ok ()
  | fault :: _ => .error fault

end Report

end FieldSchema
