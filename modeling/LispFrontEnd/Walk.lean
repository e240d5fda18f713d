import LispFrontEnd.Table.CanonicalOrder

/-! # Walking trees of nodes

A walk visits a value before its children and goes down only where the visitor answers true. The
visitor may change the heap; the children of a node are listed once, right after its visit. Walks of
cyclic heaps need not end, so a walk carries fuel for its depth and answers nothing when that is
used up.
-/

namespace LispFrontEnd

namespace Heap

/-- Items with their positions, counted from one. -/
def positional (values : List Value) : List (Key × Value) :=
  values.zipIdx.map fun (value, i) => (.int (Int64.ofNat (i + 1)), value)

/-- The children of a node, those of a table in no promised order. -/
def children (h : Heap) : Node → List (Key × Value)
  | .list e => positional (h.items e)
  | .sequence e => positional (h.items e)
  | .table t => h.entries t
  | _ => []

/-- The children of a node, those of a table in canonical order. -/
def canonicalChildren (h : Heap) : Node → List (Key × Value)
  | .table t => h.canonicalEntries t
  | node => h.children node

end Heap

/-- A value reached by a walk, without index and parent at the root alone. -/
structure Visit where
  index : Option Key
  value : Value
  parent : Option Node

namespace Walk

/-- A visitor answers whether to go down, and carries a state of its own beside the heap. -/
abbrev Visitor (σ : Type) := Visit → Heap × σ → Bool × (Heap × σ)

variable {σ : Type}

def from? (children : Heap → Node → List (Key × Value)) (visitor : Visitor σ) :
    Nat → Visit → Heap × σ → Option (Heap × σ)
  | 0, _, _ => none
  | fuel + 1, visit, state =>
    let (descend, state) := visitor visit state
    match descend, visit.value with
    | true, .node node =>
      (children state.1 node).foldlM
        (fun state (key, child) => from? children visitor fuel ⟨some key, child, some node⟩ state)
        state
    | _, _ => some state

/-- Walks the tree under a root and answers the root. -/
def run? (children : Heap → Node → List (Key × Value)) (visitor : Visitor σ) (fuel : Nat)
    (root : Value) (state : Heap × σ) : Option (Value × (Heap × σ)) :=
  (from? children visitor fuel ⟨none, root, none⟩ state).map (root, ·)

/-- Walks with the children of tables in no promised order. -/
def plain? (visitor : Visitor σ) (fuel : Nat) (root : Value) (state : Heap × σ) :
    Option (Value × (Heap × σ)) :=
  run? Heap.children visitor fuel root state

/-- Walks with the children of tables in canonical order. -/
def canonical? (visitor : Visitor σ) (fuel : Nat) (root : Value) (state : Heap × σ) :
    Option (Value × (Heap × σ)) :=
  run? Heap.canonicalChildren visitor fuel root state

end Walk

end LispFrontEnd
