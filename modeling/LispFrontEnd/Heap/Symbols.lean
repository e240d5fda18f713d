import LispFrontEnd.Heap.Basic
import LispFrontEnd.Syntax.SymbolPath

/-! # Symbols that are paths

The questions about a symbol that only its name answers.
-/

namespace LispFrontEnd.Heap

def path? (h : Heap) (s : Symbol) : Option SymbolPath := SymbolPath.ofName? (h.symbolName s)

def isNamed (h : Heap) (s : Symbol) (name : String) : Bool := h.symbolName s == name

/-- Whether a value may be written twice in generated code without changing the meaning: literals
may, and symbols that are no paths. -/
def isIdempotent (h : Heap) : Value → Bool
  | .bool _ => true
  | .number _ => true
  | .str _ => true
  | .node (.symbol s) => (h.path? s).isNone
  | _ => false

end LispFrontEnd.Heap
