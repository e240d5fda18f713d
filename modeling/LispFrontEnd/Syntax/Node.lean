import LispFrontEnd.Syntax.Name
import LispFrontEnd.Syntax.SourceSpan

/-! # Syntax nodes

A node is a handle: the identity of the node, which is its creation number, together with
everything about it that never changes. What can change (the items of a list or sequence, the
entries of a table, the quoted flag of a symbol) is kept in the heap under the identity. Symbols and
comments are compared by their text, every other kind by identity.
-/

namespace LispFrontEnd

inductive NodeKind where
  | symbol
  | list
  | sequence
  | varg
  | comment
  | expr
  | table
deriving DecidableEq

def NodeKind.name : NodeKind → String
  | .symbol => "symbol"
  | .list => "list"
  | .sequence => "sequence"
  | .varg => "varg"
  | .comment => "comment"
  | .expr => "expr"
  | .table => "table"

/-- How a fragment of generated code may be used. -/
inductive ExprCategory where
  | literal
  | expression
  | statement
  | vargs
  | symRef
deriving DecidableEq

/-- A name that identifies a binding or a reference. -/
structure Symbol where
  id : Nat
  name : Name
  span : Option SourceSpan := none

/-- The handle of a list or of a sequence. -/
structure Elements where
  id : Nat
  span : Option SourceSpan := none

/-- The place of the variadic arguments. -/
structure Varg where
  id : Nat
  span : Option SourceSpan := none

structure Comment where
  id : Nat
  text : String
  span : Option SourceSpan := none

/-- A fragment of generated code, which has no span. -/
structure Expr where
  id : Nat
  code : String
  category : ExprCategory

structure Table where
  id : Nat
  span : Option SourceSpan := none

inductive Node where
  | symbol (symbol : Symbol)
  | list (elements : Elements)
  | sequence (elements : Elements)
  | varg (varg : Varg)
  | comment (comment : Comment)
  | expr (expr : Expr)
  | table (table : Table)

instance : BEq Symbol := ⟨fun a b => a.name == b.name⟩
instance : BEq Comment := ⟨fun a b => a.text == b.text⟩
instance : BEq Table := ⟨fun a b => a.id == b.id⟩

namespace Node

def kind : Node → NodeKind
  | .symbol _ => .symbol
  | .list _ => .list
  | .sequence _ => .sequence
  | .varg _ => .varg
  | .comment _ => .comment
  | .expr _ => .expr
  | .table _ => .table

def id : Node → Nat
  | .symbol s => s.id
  | .list e => e.id
  | .sequence e => e.id
  | .varg v => v.id
  | .comment c => c.id
  | .expr e => e.id
  | .table t => t.id

def span : Node → Option SourceSpan
  | .symbol s => s.span
  | .list e => e.span
  | .sequence e => e.span
  | .varg v => v.span
  | .comment c => c.span
  | .expr _ => none
  | .table t => t.span

def asSymbol? : Node → Option Symbol
  | .symbol s => some s
  | _ => none

def asList? : Node → Option Elements
  | .list e => some e
  | _ => none

def asSequence? : Node → Option Elements
  | .sequence e => some e
  | _ => none

def asVarg? : Node → Option Varg
  | .varg v => some v
  | _ => none

def asComment? : Node → Option Comment
  | .comment c => some c
  | _ => none

def asExpr? : Node → Option Expr
  | .expr e => some e
  | _ => none

def asTable? : Node → Option Table
  | .table t => some t
  | _ => none

/-- Whether two handles are handles of one node. -/
def same (a b : Node) : Bool := a.kind == b.kind && a.id == b.id

/-- The place in the order of creation among the nodes compared by identity. -/
def serial : Node → Nat
  | .symbol _ => 0
  | .comment _ => 0
  | node => node.id

def beq : Node → Node → Bool
  | .symbol a, .symbol b => a == b
  | .comment a, .comment b => a == b
  | a, b => a.same b

instance : BEq Node := ⟨beq⟩

/-- Symbols are ordered by name and comments by text, and any other node is comparable with itself
alone. -/
def partialCompare (names : NamePool) : Node → Node → Option Ordering
  | .symbol a, .symbol b => some (names.compareText a.name b.name)
  | .comment a, .comment b => some (compare a.text b.text)
  | a, b => if a == b then some .eq else none

/-- Whether the first node may stand before the second in a sorted list. -/
def le (names : NamePool) (a b : Node) : Bool := a.partialCompare names b != some .gt

end Node

end LispFrontEnd
