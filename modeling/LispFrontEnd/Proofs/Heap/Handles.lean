import LispFrontEnd.Proofs.Heap.NodeOrder

/-! # Handles

What is kept about a node stands in the cell under its number, and a handle shows nothing else that
could change (`Heap.state_eq_of_same`). An operation makes one node or writes one cell
(`makes_or_rewrites`), so it is seen through every handle of its own node and through no others
(`Coherent.state_perform`).
-/

namespace LispFrontEnd

/-- Whether a cell can be what is kept about a node. -/
def Node.Keeps : Node → Cell → Prop
  | .symbol _, .flag _ => True
  | .list _, .items _ => True
  | .sequence _, .items _ => True
  | .table _, .table _ => True
  | .varg _, .fixed => True
  | .comment _, .fixed => True
  | .expr _, .fixed => True
  | _, _ => False

/-- Whether a node is compared by identity. -/
def Node.isNumbered : Node → Bool
  | .symbol _ => false
  | .comment _ => false
  | _ => true

theorem Node.serial_of_isNumbered {node : Node} (numbered : node.isNumbered) :
    node.serial = node.id := by
  cases node <;> first | rfl | cases numbered

/-- What is the same about a node as long as it exists. -/
structure Description where
  kind : NodeKind
  serial : Nat
  span : Option SourceSpan
  name : Option String
  text : Option String
  code : Option String
  category : Option ExprCategory
deriving DecidableEq

namespace Heap

variable {h : Heap} {node : Node}

/-- What can change about a node, as it is read through a handle. -/
def state (h : Heap) : Node → Cell
  | .symbol s => .flag (h.isQuoted s)
  | .list e => .items (h.items e)
  | .sequence e => .items (h.items e)
  | .table t => .table (h.contents t)
  | _ => .fixed

def describe (h : Heap) (node : Node) : Description where
  kind := node.kind
  serial := node.serial
  span := node.span
  name := node.asSymbol?.map h.symbolName
  text := node.asComment?.map (·.text)
  code := node.asExpr?.map (·.code)
  category := node.asExpr?.map (·.category)

/-- Only the cell under the number of a node matters. -/
theorem state_congr {h later : Heap} (same : later.cells[node.id]? = h.cells[node.id]?) :
    later.state node = h.state node := by
  cases node <;> simp only [state, isQuoted, items, contents, Node.id] at same ⊢ <;> rw [same]

theorem state_of_cell {cell : Cell} (there : h.cells[node.id]? = some cell)
    (fits : node.Keeps cell) : h.state node = cell := by
  cases node <;> cases cell <;> simp only [Node.Keeps] at fits <;>
    simp only [state, isQuoted, items, contents, Node.id] at there ⊢ <;> rw [there]

def write (h : Heap) (id : Nat) (cell : Cell) : Heap :=
  { h with cells := h.cells.setIfInBounds id cell }

theorem state_eq_of_same {a b : Node} (same : a.same b) : h.state a = h.state b := by
  obtain ⟨kind, id⟩ := Node.same_iff.mp same
  cases a <;> cases b <;> simp only [Node.kind, reduceCtorEq] at kind <;>
    simp only [Node.id] at id <;> simp only [state, isQuoted, items, contents, id]

end Heap

namespace Operation

/-- The number of the node that an operation changes, unless it makes one. -/
def target? : Operation → Option Nat
  | .setQuoted s _ => some s.id
  | .pushItem e _ => some e.id
  | .insertItem e _ _ => some e.id
  | .setItem e _ _ => some e.id
  | .removeItem e _ => some e.id
  | .replaceItems e _ => some e.id
  | .insert t _ _ => some t.id
  | .erase t _ => some t.id
  | .push t _ => some t.id
  | .setKeyOrder t _ => some t.id
  | .setDelegate t _ => some t.id
  | _ => none

/-- What an operation makes of what is kept about its node. -/
def rewrite : Operation → Cell → Cell
  | .setQuoted _ quoted, .flag _ => .flag quoted
  | .pushItem _ value, .items values => .items (values ++ [value])
  | .insertItem _ index value, .items values =>
    .items (values.take index ++ value :: values.drop index)
  | .setItem _ index value, .items values => .items (values.set index value)
  | .removeItem _ index, .items values => .items (values.eraseIdx index)
  | .replaceItems _ values, .items _ => .items values
  | .insert _ key value, .table contents => .table (contents.insert key value)
  | .erase _ key, .table contents => .table (contents.erase key)
  | .push _ value, .table contents => .table (contents.push value)
  | .setKeyOrder _ order, .table contents => .table { contents with order }
  | .setDelegate _ delegate, .table contents => .table { contents with delegate }
  | _, cell => cell

end Operation

namespace Image

variable {m : Image} {operation : Operation} {node : Node}

/-- An operation puts another cell in place of what is kept about one node and does nothing else. -/
structure Rewrites (m : Image) (operation : Operation) (node : Node) : Prop where
  made : node ∈ m.nodes
  target : operation.target? = some node.id
  keeps : node.Keeps (operation.rewrite (m.heap.state node))
  result : m.perform operation =
    { m with heap := m.heap.write node.id (operation.rewrite (m.heap.state node)) }

theorem rewrites_items {e : Elements} (known : m.KnowsElements e)
    (target : operation.target? = some e.id) {values : List Value}
    (rewrite : operation.rewrite (.items (m.heap.items e)) = .items values)
    (result : m.perform operation = { m with heap := m.heap.setItems e values }) :
    ∃ node, m.Rewrites operation node := by
  rcases known with list | sequence
  · exact ⟨.list e, list, target, rewrite ▸ trivial, rewrite ▸ result⟩
  · exact ⟨.sequence e, sequence, target, rewrite ▸ trivial, rewrite ▸ result⟩

/-- An operation makes one node or rewrites one that has been made. -/
theorem makes_or_rewrites (admits : m.Admits operation) :
    (operation.target? = none ∧ ∃ names cell node,
      m.perform operation = ⟨⟨names, m.heap.cells.push cell⟩, node :: m.nodes⟩) ∨
    ∃ node, m.Rewrites operation node := by
  cases operation with
  | setQuoted s quoted => exact .inr ⟨.symbol s, admits, rfl, trivial, rfl⟩
  | pushItem e value => exact .inr (rewrites_items admits.1 rfl rfl rfl)
  | insertItem e index value => exact .inr (rewrites_items admits.1 rfl rfl rfl)
  | setItem e index value => exact .inr (rewrites_items admits.1 rfl rfl rfl)
  | removeItem e index => exact .inr (rewrites_items admits rfl rfl rfl)
  | replaceItems e values => exact .inr (rewrites_items admits.1 rfl rfl rfl)
  | insert t key value => exact .inr ⟨.table t, admits.1, rfl, trivial, rfl⟩
  | erase t key => exact .inr ⟨.table t, admits.1, rfl, trivial, rfl⟩
  | push t value => exact .inr ⟨.table t, admits.1, rfl, trivial, rfl⟩
  | setKeyOrder t order => exact .inr ⟨.table t, admits.1, rfl, trivial, rfl⟩
  | setDelegate t delegate => exact .inr ⟨.table t, admits.1, rfl, trivial, rfl⟩
  | _ => exact .inl ⟨rfl, _, _, _, rfl⟩

/-- What is kept about a node changes by the operations on it alone. -/
theorem Coherent.state_perform (coherent : m.Coherent) (admits : m.Admits operation)
    (made : node ∈ m.nodes) :
    (m.perform operation).heap.state node =
      if operation.target? = some node.id then operation.rewrite (m.heap.state node)
      else m.heap.state node := by
  have bound := (coherent.bounded node made).2
  rcases makes_or_rewrites admits with ⟨makes, names, cell, new, result⟩ | ⟨target, rewrites⟩
  · rw [makes, if_neg (by simp), result]
    refine Heap.state_congr ?_
    rw [Array.getElem?_push_lt bound, Array.getElem?_eq_getElem bound]
  · rw [rewrites.target, rewrites.result]
    by_cases here : target.id = node.id
    · obtain rfl := coherent.eq_of_id_eq rewrites.made made here
      rw [if_pos rfl]
      exact Heap.state_of_cell (Array.getElem?_setIfInBounds_self_of_lt bound) rewrites.keeps
    · rw [if_neg (by simpa using here)]
      exact Heap.state_congr (Array.getElem?_setIfInBounds_ne here)

end Image

end LispFrontEnd
