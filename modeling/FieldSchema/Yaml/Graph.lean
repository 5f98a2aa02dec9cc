import FieldSchema.Yaml.Node
import FieldSchema.Yaml.Value

/-! The nodes of a YAML document with their references, and the JSON value that they make. -/
namespace FieldSchema.Yaml

namespace Node

def properties? : Node → Option Properties
  | .scalar properties _ _ => some properties
  | .sequence properties _ => some properties
  | .mapping properties _ => some properties
  | .reference _ => none

/-- How many marks tell of a node besides its content: a collection has a start and an end. -/
def marks : Node → Nat
  | .scalar _ _ _ => 1
  | .reference _ => 1
  | .sequence _ _ => 2
  | .mapping _ _ => 2

mutual

/-- The nodes of a tree, in the order in which they begin, last one first and in front of `done`. -/
def gather (done : List Node) : Node → List Node
  | .scalar properties text isPlain => .scalar properties text isPlain :: done
  | .reference anchor => .reference anchor :: done
  | .sequence properties items => gatherItems (.sequence properties items :: done) items
  | .mapping properties entries => gatherEntries (.mapping properties entries :: done) entries

def gatherItems (done : List Node) : List Node → List Node
  | [] => done
  | item :: rest => gatherItems (gather done item) rest

def gatherEntries (done : List Node) : List (Node × Node) → List Node
  | [] => done
  | (key, value) :: rest => gatherEntries (gather (gather done key) value) rest

end

end Node

/-- Evaluation that fails as a whole. The state counts the references that may still be followed. -/
abbrev Evaluation := StateT Nat Option

def noValue {α : Type} : Evaluation α := fun _ => none

/-- All nodes of a document, last one first. -/
structure Graph where
  nodes : List Node

namespace Graph

def ofNode (root : Node) : Graph := ⟨root.gather []⟩

/-- A reference stands for the last node whose anchor has its number. -/
def find? (graph : Graph) (anchor : Nat) : Option Node :=
  graph.nodes.find? fun node => (node.properties?.bind (·.anchor)) = some anchor

/-- A hundred references may be followed for each mark of the document. -/
def patience (graph : Graph) : Nat := graph.nodes.foldl (fun n node => n + 100 * node.marks) 0

def follow (graph : Graph) : Node → Evaluation Node
  | .reference anchor => do
    let left ← get
    if left = 0 then noValue
    set (left - 1)
    StateT.lift (graph.find? anchor)
  | node => return node

/-- A key is the text of its scalar, whatever its tag is. -/
def key (graph : Graph) (node : Node) : Evaluation String := do
  match ← graph.follow node with
  | .scalar _ text _ => return text
  | _ => noValue

/-- The value of a node, with at most `room` containers inside each other. A key that is written
again keeps its first place and takes its last value. -/
def value (graph : Graph) (room : Nat) (node : Node) : Evaluation Json := do
  match ← graph.follow node with
  | .scalar found text isPlain => StateT.lift (Value.scalar? found.tag text isPlain)
  | .sequence found items =>
    if found.tag.any Value.isForeign then noValue
    match room with
    | 0 => noValue
    | room + 1 => return .array (← items.mapM (graph.value room))
  | .mapping found entries =>
    if found.tag.any Value.isForeign then noValue
    match room with
    | 0 => noValue
    | room + 1 => do
      let add (members : Members) (entry : Node × Node) : Evaluation Members := do
        let name ← graph.key entry.1
        return Entries.set name (← graph.value room entry.2) members
      return .object (← entries.foldlM add [])
  | .reference _ => noValue

end Graph

/-- The JSON value of a tree of nodes. -/
def Node.toJson? (room : Nat) (root : Node) : Option Json :=
  let graph := Graph.ofNode root
  ((graph.value room root).run graph.patience).map Prod.fst

end FieldSchema.Yaml
