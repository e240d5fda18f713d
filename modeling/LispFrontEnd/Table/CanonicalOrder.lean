import LispFrontEnd.Table.Basic

/-! # The canonical order of keys

The entries of a table have no order of their own. `canonicalKeys` lists the keys that are in the
recorded order first, each at its first place there, and then all others by their sort keys: by
label, then by kind of key, then by creation. The label of a node never looks inside the node. The
order depends on the contents of the table alone, unless a symbol and a comment with one text are
both keys outside the recorded order.
-/

namespace LispFrontEnd

/-- Symbols, comments and fragments of code are labelled by their texts, other nodes by kind. -/
def Node.label (names : NamePool) : Node → String
  | .symbol s => names.text s.name
  | .comment c => c.text
  | .expr e => e.code
  | node => node.kind.name

namespace Key

def label (names : NamePool) : Key → String
  | .bool b => if b then "true" else "false"
  | .int n => toString n.toInt
  | .str s => s
  | .node n => n.label names

/-- The order of the kinds of keys with equal labels. -/
def rank : Key → Nat
  | .int _ => 0
  | .bool _ => 1
  | .str _ => 2
  | .node _ => 3

def serial : Key → Nat
  | .node n => n.serial
  | _ => 0

end Key

structure SortKey where
  label : String
  rank : Nat
  serial : Nat
deriving DecidableEq

def Key.sortKey (names : NamePool) (key : Key) : SortKey :=
  ⟨key.label names, key.rank, key.serial⟩

/-- Labels are compared code point by code point. -/
def SortKey.le (a b : SortKey) : Bool :=
  if a.label = b.label then
    if a.rank = b.rank then a.serial ≤ b.serial else a.rank < b.rank
  else a.label < b.label

namespace Contents

/-- The keys of the recorded order that are there, each once. -/
def recordedKeys (c : Contents) : List Key :=
  ((c.order.getD []).filter c.containsKey).eraseDups

/-- The keys that are not in the recorded order. -/
def unrecordedKeys (c : Contents) : List Key :=
  let recorded := c.recordedKeys
  c.keys.filter fun key => !recorded.contains key

def canonicalKeys (names : NamePool) (c : Contents) : List Key :=
  c.recordedKeys ++
    c.unrecordedKeys.mergeSort fun a b => (a.sortKey names).le (b.sortKey names)

end Contents

namespace Heap

def canonicalKeys (h : Heap) (t : Table) : List Key := (h.contents t).canonicalKeys h.names

/-- All entries of a table in canonical order. -/
def canonicalEntries (h : Heap) (t : Table) : List (Key × Value) :=
  (h.canonicalKeys t).filterMap fun key => (h.get? t key).map (key, ·)

end Heap

end LispFrontEnd
