import LispFrontEnd.Syntax.Node
import LispFrontEnd.Syntax.Number

/-! # Values and keys

A value is what a list, sequence or table holds. A key is what a table is indexed by: booleans,
integers, strings and nodes, but neither nil nor a fraction. A float without fractional part becomes
the nearest 64-bit integer when it is used as a key.
-/

namespace LispFrontEnd

inductive Value where
  | nil
  | bool (b : Bool)
  | number (n : Number)
  | str (text : String)
  | node (node : Node)

inductive Key where
  | bool (b : Bool)
  | int (n : Int64)
  | str (text : String)
  | node (node : Node)

namespace Value

def beq : Value → Value → Bool
  | .nil, .nil => true
  | .bool a, .bool b => a == b
  | .number a, .number b => a == b
  | .str a, .str b => a == b
  | .node a, .node b => a == b
  | _, _ => false

instance : BEq Value := ⟨beq⟩

def isNil : Value → Bool
  | .nil => true
  | _ => false

/-- Only nil and false are not truthy. -/
def isTruthy : Value → Bool
  | .nil => false
  | .bool b => b
  | _ => true

def asNode? : Value → Option Node
  | .node n => some n
  | _ => none

def asStr? : Value → Option String
  | .str s => some s
  | _ => none

def asSymbol? (v : Value) : Option Symbol := v.asNode?.bind Node.asSymbol?

def asTable? (v : Value) : Option Table := v.asNode?.bind Node.asTable?

def typeName : Value → String
  | .nil => "nil"
  | .bool _ => "boolean"
  | .number _ => "number"
  | .str _ => "string"
  | .node n => n.kind.name

/-- The span of a node, and the empty span for everything else. -/
def source (v : Value) : SourceSpan := (v.asNode?.bind Node.span).getD {}

end Value

namespace Key

def beq : Key → Key → Bool
  | .bool a, .bool b => a == b
  | .int a, .int b => a == b
  | .str a, .str b => a == b
  | .node a, .node b => a == b
  | _, _ => false

instance : BEq Key := ⟨beq⟩

def toValue : Key → Value
  | .bool b => .bool b
  | .int n => .number (.int n)
  | .str s => .str s
  | .node n => .node n

def ofValue? : Value → Option Key
  | .nil => none
  | .bool b => some (.bool b)
  | .number (.int n) => some (.int n)
  | .number (.float x) => (Number.integer? x).map (fun n => .int (Number.saturate n))
  | .str s => some (.str s)
  | .node n => some (.node n)

end Key

end LispFrontEnd
