import LispFrontEnd.Table.SpanFields
import Mathlib.Data.List.Nodup

/-! # Images

An image is a heap together with the nodes that have been made in it. The images that a program can
come to are those that operations reach from the empty one, each operation mentioning nodes that
have been made before. `Reachable.coherent` says what they have in common: every node has a positive
number of its own, every name is a name of the pool, and all that is stored has been made.
-/

namespace LispFrontEnd

/-- A heap and the nodes made in it, the last one first. -/
structure Image where
  heap : Heap := {}
  nodes : List Node := []

/-- The ways to make a node and to change one. -/
inductive Operation where
  | symbol (name : String) (span : Option SourceSpan)
  | symbolFrom (name : String) (source : Table)
  | list (values : List Value) (span : Option SourceSpan)
  | sequence (values : List Value) (span : Option SourceSpan)
  | varg (span : Option SourceSpan)
  | vargFrom (source : Table)
  | comment (text : String) (span : Option SourceSpan)
  | expr (code : String) (category : ExprCategory)
  | table (span : Option SourceSpan)
  | orderedTable (entries : List (Key × Value)) (span : Option SourceSpan)
  | spanTable (span : SourceSpan)
  | setQuoted (s : Symbol) (quoted : Bool)
  | pushItem (e : Elements) (value : Value)
  | insertItem (e : Elements) (index : Nat) (value : Value)
  | setItem (e : Elements) (index : Nat) (value : Value)
  | removeItem (e : Elements) (index : Nat)
  | replaceItems (e : Elements) (values : List Value)
  | insert (t : Table) (key : Key) (value : Value)
  | erase (t : Table) (key : Key)
  | push (t : Table) (value : Value)
  | setKeyOrder (t : Table) (order : Option (List Key))
  | setDelegate (t : Table) (delegate : Option Table)

namespace Image

/-- A node in a value is a node that has been made. -/
def Knows (m : Image) (value : Value) : Prop := ∀ node ∈ value.asNode?, node ∈ m.nodes

def KnowsKey (m : Image) (key : Key) : Prop := m.Knows key.toValue

def KnowsElements (m : Image) (e : Elements) : Prop := .list e ∈ m.nodes ∨ .sequence e ∈ m.nodes

/-- All that the contents of a table mention has been made. -/
structure Covers (m : Image) (c : Contents) : Prop where
  entries : ∀ entry ∈ c.entries, m.KnowsKey entry.1 ∧ m.Knows entry.2
  order : ∀ key ∈ c.order.getD [], m.KnowsKey key
  delegate : ∀ d ∈ c.delegate, Node.table d ∈ m.nodes

def Holds (m : Image) : Cell → Prop
  | .fixed => True
  | .flag _ => True
  | .items values => ∀ value ∈ values, m.Knows value
  | .table contents => m.Covers contents

/-- The image after a node has been made. -/
def after {α : Type} (m : Image) (node : α → Node) (made : α × Heap) : Image :=
  ⟨made.2, node made.1 :: m.nodes⟩

def perform (m : Image) : Operation → Image
  | .symbol name span => m.after .symbol (m.heap.newSymbol name span)
  | .symbolFrom name source => m.after .symbol (m.heap.newSymbolFrom name source)
  | .list values span => m.after .list (m.heap.newElements values span)
  | .sequence values span => m.after .sequence (m.heap.newElements values span)
  | .varg span => m.after .varg (m.heap.newVarg span)
  | .vargFrom source => m.after .varg (m.heap.newVargFrom source)
  | .comment text span => m.after .comment (m.heap.newComment text span)
  | .expr code category => m.after .expr (m.heap.newExpr code category)
  | .table span => m.after .table (m.heap.newTable {} span)
  | .orderedTable entries span => m.after .table (m.heap.newOrderedTable entries span)
  | .spanTable span => m.after .table (span.toTable m.heap)
  | .setQuoted s quoted => { m with heap := m.heap.setQuoted s quoted }
  | .pushItem e value => { m with heap := m.heap.pushItem e value }
  | .insertItem e index value => { m with heap := m.heap.insertItem e index value }
  | .setItem e index value => { m with heap := (m.heap.setItem e index value).2 }
  | .removeItem e index => { m with heap := (m.heap.removeItem e index).2 }
  | .replaceItems e values => { m with heap := (m.heap.replaceItems e values).2 }
  | .insert t key value => { m with heap := (m.heap.insert t key value).2 }
  | .erase t key => { m with heap := (m.heap.erase t key).2 }
  | .push t value => { m with heap := m.heap.push t value }
  | .setKeyOrder t order => { m with heap := m.heap.setKeyOrder t order }
  | .setDelegate t delegate => { m with heap := m.heap.setDelegate t delegate }

/-- An operation is given nodes that have been made. -/
def Admits (m : Image) : Operation → Prop
  | .symbolFrom _ source => .table source ∈ m.nodes
  | .list values _ => ∀ value ∈ values, m.Knows value
  | .sequence values _ => ∀ value ∈ values, m.Knows value
  | .vargFrom source => .table source ∈ m.nodes
  | .orderedTable entries _ => ∀ entry ∈ entries, m.KnowsKey entry.1 ∧ m.Knows entry.2
  | .setQuoted s _ => .symbol s ∈ m.nodes
  | .pushItem e value => m.KnowsElements e ∧ m.Knows value
  | .insertItem e _ value => m.KnowsElements e ∧ m.Knows value
  | .setItem e _ value => m.KnowsElements e ∧ m.Knows value
  | .removeItem e _ => m.KnowsElements e
  | .replaceItems e values => m.KnowsElements e ∧ ∀ value ∈ values, m.Knows value
  | .insert t key value => .table t ∈ m.nodes ∧ m.KnowsKey key ∧ m.Knows value
  | .erase t key => .table t ∈ m.nodes ∧ m.KnowsKey key
  | .push t value => .table t ∈ m.nodes ∧ m.Knows value
  | .setKeyOrder t order => .table t ∈ m.nodes ∧ ∀ key ∈ order.getD [], m.KnowsKey key
  | .setDelegate t delegate => .table t ∈ m.nodes ∧ ∀ d ∈ delegate, .table d ∈ m.nodes
  | _ => True

inductive Reachable : Image → Prop where
  | empty : Reachable {}
  | perform {m : Image} (operation : Operation) (reachable : Reachable m)
      (admits : m.Admits operation) : Reachable (m.perform operation)

/-- What all reachable images have in common. -/
structure Coherent (m : Image) : Prop where
  /-- The nodes are numbered in the order in which they were made. -/
  numbered : m.nodes.Pairwise fun later earlier => earlier.id < later.id
  bounded : ∀ node ∈ m.nodes, 0 < node.id ∧ node.id < m.heap.cells.size
  named : ∀ s, .symbol s ∈ m.nodes → s.name.index < m.heap.names.texts.size
  closed : ∀ cell ∈ m.heap.cells, m.Holds cell
  started : 0 < m.heap.cells.size

section Knows
variable {m later : Image}

theorem knows_of_plain {value : Value} (plain : value.asNode? = none) : m.Knows value := by
  intro node found
  rw [plain] at found
  cases found

theorem knowsKey_node {node : Node} (made : node ∈ m.nodes) : m.KnowsKey (.node node) := by
  intro other found
  cases found
  exact made

theorem Knows.mono (grown : m.nodes ⊆ later.nodes) {value : Value} (known : m.Knows value) :
    later.Knows value :=
  fun node member => grown (known node member)

theorem Covers.mono (grown : m.nodes ⊆ later.nodes) {c : Contents} (covers : m.Covers c) :
    later.Covers c where
  entries entry member :=
    ⟨(covers.entries entry member).1.mono grown, (covers.entries entry member).2.mono grown⟩
  order key member := (covers.order key member).mono grown
  delegate d member := grown (covers.delegate d member)

theorem Holds.mono (grown : m.nodes ⊆ later.nodes) {cell : Cell} (holds : m.Holds cell) :
    later.Holds cell := by
  cases cell with
  | fixed => trivial
  | flag => trivial
  | items values => exact fun value member => (holds value member).mono grown
  | table contents => exact Covers.mono grown holds

theorem covers_empty (m : Image) : m.Covers {} where
  entries entry member := by cases member
  order key member := by cases member
  delegate d member := by cases member

theorem Covers.erase {c : Contents} (covers : m.Covers c) (key : Key) : m.Covers (c.erase key) where
  entries entry member := covers.entries entry (List.mem_filter.mp member).1
  order := covers.order
  delegate := covers.delegate

/-- Storing an entry keeps an old key or brings in the new one. -/
theorem known_insert {entries : Assoc Key Value} {key : Key} {value : Value}
    (known : ∀ entry ∈ entries, m.KnowsKey entry.1 ∧ m.Knows entry.2) (knownKey : m.KnowsKey key)
    (knownValue : m.Knows value) :
    ∀ entry ∈ Assoc.insert entries key value, m.KnowsKey entry.1 ∧ m.Knows entry.2 := by
  intro entry member
  rcases Assoc.mem_insert member with there | ⟨rfl, rfl | ⟨old, there, same⟩⟩
  · exact known entry there
  · exact ⟨knownKey, knownValue⟩
  · exact ⟨same ▸ (known old there).1, knownValue⟩

theorem Covers.insert {c : Contents} (covers : m.Covers c) {key : Key} {value : Value}
    (knownKey : m.KnowsKey key) (knownValue : m.Knows value) : m.Covers (c.insert key value) := by
  rw [Contents.insert]
  split
  · exact covers.erase key
  · exact ⟨known_insert covers.entries knownKey knownValue, covers.order, covers.delegate⟩

theorem covers_ofOrdered {entries : List (Key × Value)}
    (known : ∀ entry ∈ entries, m.KnowsKey entry.1 ∧ m.Knows entry.2) :
    m.Covers (.ofOrdered entries) where
  entries := by
    refine List.foldlRecOn (motive := fun kept : Assoc Key Value =>
      ∀ entry ∈ kept, m.KnowsKey entry.1 ∧ m.Knows entry.2) _ _ (by simp) ?_
    intro kept knownKept pair member
    have knownPair := known pair (List.mem_filter.mp member).1
    exact known_insert knownKept knownPair.1 knownPair.2
  order key member := by
    obtain ⟨entry, there, rfl⟩ := List.mem_map.mp member
    exact (known entry there).1
  delegate d member := by cases member

theorem covers_spanContents (m : Image) (span : SourceSpan) : m.Covers span.contents where
  entries entry member := by
    change entry ∈ span.fields at member
    simp only [SourceSpan.fields, List.mem_append, List.mem_map] at member
    rcases member with ((⟨_, _, rfl⟩ | ⟨_, _, rfl⟩) | ⟨_, _, rfl⟩) | ⟨_, _, rfl⟩ <;>
      exact ⟨knows_of_plain rfl, knows_of_plain rfl⟩
  order key member := by cases member
  delegate d member := by cases member

end Knows

namespace Coherent

variable {m : Image}

theorem knows_items (coherent : m.Coherent) (e : Elements) :
    ∀ value ∈ m.heap.items e, m.Knows value := by
  rw [Heap.items]
  split
  · rename_i values found
    exact coherent.closed _ (Array.mem_of_getElem? found)
  · intro value member
    cases member

theorem covers_contents (coherent : m.Coherent) (t : Table) : m.Covers (m.heap.contents t) := by
  rw [Heap.contents]
  split
  · rename_i contents found
    exact coherent.closed _ (Array.mem_of_getElem? found)
  · exact m.covers_empty

/-- Nodes with one number are one node. -/
theorem eq_of_id_eq (coherent : m.Coherent) {a b : Node} (madeA : a ∈ m.nodes) (madeB : b ∈ m.nodes)
    (same : a.id = b.id) : a = b := by
  have different := coherent.numbered.imp fun less => Nat.ne_of_gt less
  exact List.inj_on_of_nodup_map (List.pairwise_map.mpr different) madeA madeB same

/-- Making a node: it takes the next number, and its cell holds nodes made before. -/
theorem make (coherent : m.Coherent) {names : NamePool} {cell : Cell} {node : Node}
    (number : node.id = m.heap.cells.size) (holds : m.Holds cell)
    (grown : m.heap.names.texts.size ≤ names.texts.size)
    (named : ∀ s, node = .symbol s → s.name.index < names.texts.size) :
    Coherent ⟨⟨names, m.heap.cells.push cell⟩, node :: m.nodes⟩ where
  numbered := by
    refine List.pairwise_cons.mpr ⟨fun earlier made => ?_, coherent.numbered⟩
    have bound := (coherent.bounded earlier made).2
    omega
  bounded other made := by
    have started := coherent.started
    rw [Array.size_push]
    rcases List.mem_cons.mp made with rfl | old
    · omega
    · have bound := coherent.bounded other old
      omega
  named s made := by
    rcases List.mem_cons.mp made with same | old
    · exact named s same.symm
    · exact Nat.lt_of_lt_of_le (coherent.named s old) grown
  closed other member := by
    have wider : m.nodes ⊆ node :: m.nodes := List.subset_cons_self node m.nodes
    rcases Array.mem_push.mp member with old | rfl
    · exact (coherent.closed other old).mono wider
    · exact holds.mono wider
  started := by
    rw [Array.size_push]
    omega

/-- Changing a node: its new cell holds nodes made before. -/
theorem change (coherent : m.Coherent) (id : Nat) {cell : Cell} (holds : m.Holds cell) :
    Coherent ⟨{ m.heap with cells := m.heap.cells.setIfInBounds id cell }, m.nodes⟩ where
  numbered := coherent.numbered
  bounded node made := by
    rw [Array.size_setIfInBounds]
    exact coherent.bounded node made
  named := coherent.named
  closed other member := by
    have held : m.Holds other := by
      rcases Array.mem_or_eq_of_mem_setIfInBounds member with old | rfl
      · exact coherent.closed other old
      · exact holds
    refine held.mono ?_
    exact List.Subset.refl m.nodes
  started := by
    rw [Array.size_setIfInBounds]
    exact coherent.started

/-- Making a node that is no symbol. -/
theorem makePlain (coherent : m.Coherent) {cell : Cell} {node : Node}
    (number : node.id = m.heap.cells.size) (holds : m.Holds cell) (plain : node.asSymbol? = none) :
    Coherent ⟨{ m.heap with cells := m.heap.cells.push cell }, node :: m.nodes⟩ :=
  coherent.make number holds (Nat.le_refl _) fun s same => by simp [same, Node.asSymbol?] at plain

theorem makeSymbol (coherent : m.Coherent) (name : String) (span : Option SourceSpan) :
    Coherent (m.after .symbol (m.heap.newSymbol name span)) := by
  obtain ⟨bound, grown⟩ := m.heap.names.index_intern_lt name
  refine coherent.make rfl trivial grown fun s same => ?_
  cases same
  exact bound

theorem changeItems (coherent : m.Coherent) (e : Elements) {values : List Value}
    (known : ∀ value ∈ values, m.Knows value) :
    Coherent { m with heap := m.heap.setItems e values } :=
  coherent.change e.id known

theorem changeTable (coherent : m.Coherent) (t : Table) {contents : Contents}
    (covers : m.Covers contents) : Coherent { m with heap := m.heap.setContents t contents } :=
  coherent.change t.id covers

theorem perform (coherent : m.Coherent) (operation : Operation) (admits : m.Admits operation) :
    (m.perform operation).Coherent := by
  cases operation with
  | symbol name span => exact coherent.makeSymbol name span
  | symbolFrom name source => exact coherent.makeSymbol name _
  | list values span => exact coherent.makePlain rfl admits rfl
  | sequence values span => exact coherent.makePlain rfl admits rfl
  | varg span => exact coherent.makePlain rfl trivial rfl
  | vargFrom source => exact coherent.makePlain rfl trivial rfl
  | comment text span => exact coherent.makePlain rfl trivial rfl
  | expr code category => exact coherent.makePlain rfl trivial rfl
  | table span => exact coherent.makePlain rfl m.covers_empty rfl
  | orderedTable entries span => exact coherent.makePlain rfl (covers_ofOrdered admits) rfl
  | spanTable span => exact coherent.makePlain rfl (m.covers_spanContents span) rfl
  | setQuoted s quoted => exact coherent.change s.id trivial
  | pushItem e value =>
    refine coherent.changeItems e fun item member => ?_
    rcases List.mem_append.mp member with old | new
    · exact coherent.knows_items e item old
    · exact List.mem_singleton.mp new ▸ admits.2
  | insertItem e index value =>
    refine coherent.changeItems e fun item member => ?_
    rcases List.mem_append.mp member with before | new
    · exact coherent.knows_items e item (List.mem_of_mem_take before)
    · rcases List.mem_cons.mp new with rfl | behind
      · exact admits.2
      · exact coherent.knows_items e item (List.mem_of_mem_drop behind)
  | setItem e index value =>
    refine coherent.changeItems e fun item member => ?_
    rcases List.mem_or_eq_of_mem_set member with old | rfl
    · exact coherent.knows_items e item old
    · exact admits.2
  | removeItem e index =>
    refine coherent.changeItems e fun item member => ?_
    exact coherent.knows_items e item (List.mem_of_mem_eraseIdx member)
  | replaceItems e values => exact coherent.changeItems e admits.2
  | insert t key value =>
    exact coherent.changeTable t ((coherent.covers_contents t).insert admits.2.1 admits.2.2)
  | erase t key => exact coherent.changeTable t ((coherent.covers_contents t).erase key)
  | push t value =>
    exact coherent.changeTable t
      ((coherent.covers_contents t).insert (knows_of_plain rfl) admits.2)
  | setKeyOrder t order =>
    have covers := coherent.covers_contents t
    exact coherent.changeTable t ⟨covers.entries, admits.2, covers.delegate⟩
  | setDelegate t delegate =>
    have covers := coherent.covers_contents t
    exact coherent.changeTable t ⟨covers.entries, covers.order, admits.2⟩

theorem empty : Coherent {} where
  numbered := List.Pairwise.nil
  bounded node made := by cases made
  named s made := by cases made
  closed cell member := by
    obtain rfl : cell = .fixed := by simpa using member
    trivial
  started := Nat.zero_lt_one

end Coherent

theorem Reachable.coherent {m : Image} (reachable : m.Reachable) : m.Coherent := by
  induction reachable with
  | empty => exact .empty
  | perform operation _ admits ih => exact ih.perform operation admits

end Image

end LispFrontEnd
