import LispFrontEnd.Table.Error
import LispFrontEnd.Table.CanonicalOrder
import LispFrontEnd.Text.Quoted

/-! # The text of values

A list stands in parentheses, a sequence in brackets, a table in braces with its entries in
canonical order. A container met again while it is itself being printed is shown as a mark, so
printing ends on any heap.
-/

namespace LispFrontEnd

namespace Printing

/-- Printing carries the identities of the containers that are being printed. -/
abbrev Printer := StateM (List Nat)

/-- Prints the inside of a container, unless the container is being printed already. -/
def enclosed (id : Nat) (inside : Printer String) : Printer String := do
  if id ∈ (← get) then return "<cycle>"
  modify fun printing => id :: printing
  let text ← inside
  modify fun printing => printing.erase id
  return text

def value (node : Node → Printer String) : Value → Printer String
  | .nil => return "nil"
  | .bool b => return if b then "true" else "false"
  | .number n => return n.text
  | .str s => return Text.Quoted.literal s
  | .node n => node n

/-- A string key stands without quotes. -/
def key (node : Node → Printer String) : Key → Printer String
  | .bool b => return if b then "true" else "false"
  | .int n => return toString n.toInt
  | .str s => return s
  | .node n => node n

def entry (node : Node → Printer String) (e : Key × Value) : Printer String := do
  let k ← key node e.1
  let v ← value node e.2
  return k ++ " " ++ v

/-- Prints a node, where each container entered uses up one unit of fuel. -/
def node (h : Heap) : Nat → Node → Printer String
  | _, .symbol s => return h.symbolName s
  | _, .varg _ => return "..."
  | _, .comment c => return c.text
  | _, .expr e => return e.code
  | 0, _ => return ""
  | fuel + 1, .list e => enclosed e.id do
    let texts ← (h.items e).mapM (value (node h fuel))
    return "(" ++ " ".intercalate texts ++ ")"
  | fuel + 1, .sequence e => enclosed e.id do
    let texts ← (h.items e).mapM (value (node h fuel))
    return "[" ++ " ".intercalate texts ++ "]"
  | fuel + 1, .table t => enclosed t.id do
    let texts ← (h.canonicalEntries t).mapM (entry (node h fuel))
    return "\x7b" ++ ", ".intercalate texts ++ "\x7d"

end Printing

namespace Heap

/-- Prints a node while nothing else is being printed. -/
def printNode (h : Heap) : Node → Printing.Printer String :=
  -- Each container of the heap is entered at most once, and at most one that is not in the heap.
  Printing.node h (h.cells.size + 1)

def text (h : Heap) (v : Value) : String := (Printing.value h.printNode v []).1

def keyText (h : Heap) (k : Key) : String := (Printing.key h.printNode k []).1

end Heap

/-- The text of an error, given the heap of the value that caused it. -/
def TableError.message (h : Heap) : TableError → String
  | .notATable found => "allpairs expects a table, got " ++ found.typeName
  | .invalidKey found => h.text found ++ " cannot be used as a table key"

end LispFrontEnd
