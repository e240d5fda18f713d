import LispFrontEnd.Table.Contents

/-! # The heap

The heap holds what can change about a node, under the identity of the node, together with the pool
of symbol names. Identities count upwards from one, so the order of identities is the order of
creation. Reading a node that the heap does not hold finds it empty, and writing one has no effect.
-/

namespace LispFrontEnd

/-- The changing part of one node. -/
inductive Cell where
  | fixed
  | flag (quoted : Bool)
  | items (values : List Value)
  | table (contents : Contents)

structure Heap where
  names : NamePool := {}
  cells : Array Cell := #[.fixed]

namespace Heap

def alloc (h : Heap) (cell : Cell) : Nat × Heap :=
  (h.cells.size, { h with cells := h.cells.push cell })

def newSymbol (h : Heap) (name : String) (span : Option SourceSpan) : Symbol × Heap :=
  let (name, names) := h.names.intern name
  let (id, h) := { h with names }.alloc (.flag false)
  (⟨id, name, span⟩, h)

/-- The node of a new list or sequence. -/
def newElements (h : Heap) (values : List Value) (span : Option SourceSpan) : Elements × Heap :=
  let (id, h) := h.alloc (.items values)
  (⟨id, span⟩, h)

def newVarg (h : Heap) (span : Option SourceSpan) : Varg × Heap :=
  let (id, h) := h.alloc .fixed
  (⟨id, span⟩, h)

def newComment (h : Heap) (text : String) (span : Option SourceSpan) : Comment × Heap :=
  let (id, h) := h.alloc .fixed
  (⟨id, text, span⟩, h)

def newExpr (h : Heap) (code : String) (category : ExprCategory) : Expr × Heap :=
  let (id, h) := h.alloc .fixed
  (⟨id, code, category⟩, h)

def newTable (h : Heap) (contents : Contents) (span : Option SourceSpan) : Table × Heap :=
  let (id, h) := h.alloc (.table contents)
  (⟨id, span⟩, h)

def symbolName (h : Heap) (s : Symbol) : String := h.names.text s.name

/-- Whether the quote macro has produced the symbol. -/
def isQuoted (h : Heap) (s : Symbol) : Bool :=
  match h.cells[s.id]? with
  | some (.flag quoted) => quoted
  | _ => false

def setQuoted (h : Heap) (s : Symbol) (quoted : Bool) : Heap :=
  { h with cells := h.cells.setIfInBounds s.id (.flag quoted) }

def items (h : Heap) (e : Elements) : List Value :=
  match h.cells[e.id]? with
  | some (.items values) => values
  | _ => []

def setItems (h : Heap) (e : Elements) (values : List Value) : Heap :=
  { h with cells := h.cells.setIfInBounds e.id (.items values) }

def pushItem (h : Heap) (e : Elements) (value : Value) : Heap :=
  h.setItems e (h.items e ++ [value])

/-- Puts a value in front of the item at a position, and at the end when there is none. -/
def insertItem (h : Heap) (e : Elements) (index : Nat) (value : Value) : Heap :=
  let values := h.items e
  h.setItems e (values.take index ++ value :: values.drop index)

/-- Replaces the item at a position, and answers the old one. -/
def setItem (h : Heap) (e : Elements) (index : Nat) (value : Value) : Option Value × Heap :=
  let values := h.items e
  (values[index]?, h.setItems e (values.set index value))

/-- Takes the item at a position out, and answers it. -/
def removeItem (h : Heap) (e : Elements) (index : Nat) : Option Value × Heap :=
  let values := h.items e
  (values[index]?, h.setItems e (values.eraseIdx index))

/-- Replaces all items, and answers the old ones. -/
def replaceItems (h : Heap) (e : Elements) (values : List Value) : List Value × Heap :=
  (h.items e, h.setItems e values)

/-- The symbol in front of a call form. -/
def headSymbol? (h : Heap) (e : Elements) : Option Symbol :=
  (h.items e).head?.bind Value.asSymbol?

end Heap

end LispFrontEnd
