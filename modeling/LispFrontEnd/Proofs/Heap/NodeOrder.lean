import LispFrontEnd.Proofs.Heap.Image
import LispFrontEnd.Proofs.Syntax.Identity
import LispFrontEnd.Proofs.Syntax.NamePool
import LispFrontEnd.Proofs.Text.ByteOrder
import LispFrontEnd.Table.CanonicalOrder

/-! # The laws of equality and order of nodes and keys

The order of nodes is a union of chains: all symbols form one, all comments another, and any other
node forms one alone. Within a chain nodes are ordered by a text, and nodes of different chains are
not compared (`partialCompare_eq`). In a reachable image this order and equality agree, because
symbols of one name are equal and handles of one node are alike.
-/

namespace LispFrontEnd

/-- Nodes that can be compared with each other. -/
inductive Chain where
  | symbols
  | comments
  | alone (kind : NodeKind) (id : Nat)
deriving DecidableEq

namespace Node

def chain : Node → Chain
  | .symbol _ => .symbols
  | .comment _ => .comments
  | node => .alone node.kind node.id

/-- What a node is ordered by in its chain. -/
def orderText (names : NamePool) : Node → String
  | .symbol s => names.text s.name
  | .comment c => c.text
  | _ => ""

theorem partialCompare_eq (names : NamePool) (a b : Node) :
    a.partialCompare names b =
      if a.chain = b.chain then some (compare (a.orderText names) (b.orderText names))
      else none := by
  cases a <;> cases b <;>
    simp [partialCompare, beq_iff, identity, chain, orderText, kind,
      NamePool.compareText_eq_compare]

theorem kind_eq_of_beq {a b : Node} (same : (a == b) = true) : a.kind = b.kind := by
  rw [beq_iff] at same
  cases a <;> cases b <;> simp_all [identity, kind]

theorem same_of_beq {a b : Node} (noSymbol : a.kind ≠ .symbol) (noComment : a.kind ≠ .comment)
    (equal : (a == b) = true) : a.same b = true := by
  rw [beq_iff] at equal
  cases a with
  | symbol => exact absurd rfl noSymbol
  | comment => exact absurd rfl noComment
  | _ =>
    cases b with
    | symbol => cases equal
    | comment => cases equal
    | _ => exact same_iff.mpr (NodeIdentity.made.inj equal)

theorem chain_eq_iff {a b : Node} :
    a.chain = b.chain ↔ (a.kind = .symbol ∧ b.kind = .symbol) ∨
      (a.kind = .comment ∧ b.kind = .comment) ∨ (a == b) = true := by
  rw [beq_iff]
  cases a <;> cases b <;> simp [chain, kind, identity]

theorem chain_eq_of_beq {a b : Node} (same : (a == b) = true) : a.chain = b.chain :=
  chain_eq_iff.mpr (.inr (.inr same))

theorem orderText_eq_of_beq (names : NamePool) {a b : Node} (same : (a == b) = true) :
    a.orderText names = b.orderText names := by
  rw [beq_iff] at same
  cases a <;> cases b <;> simp_all [identity, orderText]

variable {names : NamePool}

theorem partialCompare_eq_some_iff {a b : Node} {o : Ordering} :
    a.partialCompare names b = some o ↔
      a.chain = b.chain ∧ compare (a.orderText names) (b.orderText names) = o := by
  rw [partialCompare_eq]
  split <;> simp_all

theorem isSome_partialCompare {a b : Node} :
    (a.partialCompare names b).isSome = true ↔ a.chain = b.chain := by
  rw [partialCompare_eq]
  split <;> simp_all

theorem partialCompare_swap (a b : Node) :
    b.partialCompare names a = (a.partialCompare names b).map Ordering.swap := by
  rw [partialCompare_eq, partialCompare_eq]
  by_cases same : a.chain = b.chain
  · rw [if_pos same, if_pos same.symm, Option.map_some]
    exact congrArg some Std.OrientedCmp.eq_swap
  · rw [if_neg same, if_neg (Ne.symm same), Option.map_none]

theorem partialCompare_trans {a b c : Node} {o : Ordering}
    (first : a.partialCompare names b = some o) (second : b.partialCompare names c = some o) :
    a.partialCompare names c = some o := by
  rw [partialCompare_eq_some_iff] at first second ⊢
  refine ⟨first.1.trans second.1, ?_⟩
  cases o with
  | lt => exact Std.TransCmp.lt_trans first.2 second.2
  | eq => exact Std.TransCmp.eq_trans first.2 second.2
  | gt => exact Std.TransCmp.gt_trans first.2 second.2

theorem partialCompare_congr {a b : Node} (same : (a == b) = true) (c : Node) :
    a.partialCompare names c = b.partialCompare names c := by
  rw [partialCompare_eq, partialCompare_eq, chain_eq_of_beq same, orderText_eq_of_beq names same]

end Node

theorem Key.rank_eq_of_beq {a b : Key} (same : (a == b) = true) : a.rank = b.rank := by
  rw [beq_iff] at same
  cases a <;> cases b <;> simp_all [identity, rank]

namespace Image

variable {m : Image}

theorem names_perform (m : Image) (operation : Operation) :
    (m.perform operation).heap.names = m.heap.names ∨
      ∃ name, (m.perform operation).heap.names = (m.heap.names.intern name).2 := by
  cases operation with
  | symbol name => exact .inr ⟨name, rfl⟩
  | symbolFrom name => exact .inr ⟨name, rfl⟩
  | _ => exact .inl rfl

namespace Coherent

theorem symbolName_perform (coherent : m.Coherent) (operation : Operation) {s : Symbol}
    (made : .symbol s ∈ m.nodes) :
    (m.perform operation).heap.symbolName s = m.heap.symbolName s := by
  simp only [Heap.symbolName]
  rcases m.names_perform operation with same | ⟨name, grown⟩
  · rw [same]
  · rw [grown, NamePool.text_after_intern _ (coherent.named s made)]

theorem symbol_beq_iff (coherent : m.Coherent) {s t : Symbol} (madeS : .symbol s ∈ m.nodes)
    (madeT : .symbol t ∈ m.nodes) :
    (Node.symbol s == Node.symbol t) = true ↔ m.heap.symbolName s = m.heap.symbolName t := by
  rw [Node.beq_iff]
  refine ⟨fun same => congrArg m.heap.names.text (NodeIdentity.name.inj same), fun same => ?_⟩
  exact congrArg NodeIdentity.name
    (NamePool.eq_of_text_eq _ (coherent.named s madeS) (coherent.named t madeT) same)

theorem partialCompare_eq_some_eq_iff (coherent : m.Coherent) {a b : Node} (madeA : a ∈ m.nodes)
    (madeB : b ∈ m.nodes) :
    a.partialCompare m.heap.names b = some .eq ↔ (a == b) = true := by
  rw [Node.partialCompare_eq_some_iff, compare_eq_iff_eq, Node.chain_eq_iff]
  constructor
  · -- Only for symbols do equal texts need a pool that tells its names apart.
    rintro ⟨⟨symbolA, symbolB⟩ | ⟨commentA, commentB⟩ | same, text⟩
    · cases a <;> cases symbolA
      cases b <;> cases symbolB
      exact (coherent.symbol_beq_iff madeA madeB).mpr text
    · cases a <;> cases commentA
      cases b <;> cases commentB
      exact Node.beq_iff.mpr (congrArg NodeIdentity.text text)
    · exact same
  · exact fun same => ⟨.inr (.inr same), Node.orderText_eq_of_beq _ same⟩

end Coherent

/-- Equality of the nodes of an image, and of keys. -/
structure LawfulEquality (m : Image) : Prop where
  nodes : Equivalence fun a b : Node => (a == b) = true
  kind : ∀ a b : Node, (a == b) = true → a.kind = b.kind
  beq_of_same : ∀ a ∈ m.nodes, ∀ b ∈ m.nodes, a.same b = true → (a == b) = true
  same_of_beq : ∀ a b : Node, a.kind ≠ .symbol → a.kind ≠ .comment → (a == b) = true →
    a.same b = true
  keys : Equivalence fun a b : Key => (a == b) = true
  /-- Keys of different variants have different ranks. -/
  rank : ∀ a b : Key, (a == b) = true → a.rank = b.rank

/-- The order of the nodes of an image is a partial order, up to equality. -/
structure LawfulOrder (m : Image) : Prop where
  eq_iff : ∀ a ∈ m.nodes, ∀ b ∈ m.nodes,
    a.partialCompare m.heap.names b = some .eq ↔ (a == b) = true
  isSome_iff : ∀ a b : Node, (a.partialCompare m.heap.names b).isSome = true ↔
    (a.kind = .symbol ∧ b.kind = .symbol) ∨ (a.kind = .comment ∧ b.kind = .comment) ∨
      (a == b) = true
  swap : ∀ a b : Node,
    b.partialCompare m.heap.names a = (a.partialCompare m.heap.names b).map Ordering.swap
  trans : ∀ (a b c : Node) (o : Ordering), a.partialCompare m.heap.names b = some o →
    b.partialCompare m.heap.names c = some o → a.partialCompare m.heap.names c = some o
  congr : ∀ a b c : Node, (a == b) = true →
    a.partialCompare m.heap.names c = b.partialCompare m.heap.names c

/-- Symbols are ordered by the bytes of the names they were made with, whatever has been done since,
and comments by the bytes of their texts. -/
structure OrdersByText (m : Image) : Prop where
  total : Std.TransCmp Text.compareBytes ∧ Std.LawfulEqCmp Text.compareBytes
  symbols : ∀ s t : Symbol, (Node.symbol s).partialCompare m.heap.names (.symbol t) =
    some (Text.compareBytes (m.heap.symbolName s) (m.heap.symbolName t))
  equal_symbols : ∀ s t : Symbol, .symbol s ∈ m.nodes → .symbol t ∈ m.nodes →
    ((Node.symbol s == Node.symbol t) = true ↔ m.heap.symbolName s = m.heap.symbolName t)
  comments : ∀ c d : Comment, (Node.comment c).partialCompare m.heap.names (.comment d) =
    some (Text.compareBytes c.text d.text)
  equal_comments : ∀ c d : Comment,
    (Node.comment c == Node.comment d) = true ↔ c.text = d.text
  named : ∀ (name : String) (span : Option SourceSpan),
    let (s, h) := m.heap.newSymbol name span
    h.symbolName s = name
  kept : ∀ (operation : Operation) (s : Symbol), .symbol s ∈ m.nodes →
    (m.perform operation).heap.symbolName s = m.heap.symbolName s

theorem Coherent.lawfulEquality (coherent : m.Coherent) : m.LawfulEquality where
  nodes := ⟨fun _ => BEq.rfl, BEq.symm, BEq.trans⟩
  kind _ _ := Node.kind_eq_of_beq
  beq_of_same a madeA b madeB same := by
    obtain rfl := coherent.eq_of_id_eq madeA madeB (Node.same_iff.mp same).2
    exact BEq.rfl
  same_of_beq _ _ := Node.same_of_beq
  keys := ⟨fun _ => BEq.rfl, BEq.symm, BEq.trans⟩
  rank _ _ := Key.rank_eq_of_beq

theorem Coherent.lawfulOrder (coherent : m.Coherent) : m.LawfulOrder where
  eq_iff _ madeA _ madeB := coherent.partialCompare_eq_some_eq_iff madeA madeB
  isSome_iff _ _ := Node.isSome_partialCompare.trans Node.chain_eq_iff
  swap := Node.partialCompare_swap
  trans _ _ _ _ := Node.partialCompare_trans
  congr _ _ c same := Node.partialCompare_congr same c

theorem Coherent.ordersByText (coherent : m.Coherent) : m.OrdersByText where
  total := by
    rw [Text.compareBytes_eq_compare]
    exact ⟨inferInstance, inferInstance⟩
  symbols s t := by
    rw [Text.compareBytes_eq_compare]
    exact congrArg some (m.heap.names.compareText_eq_compare s.name t.name)
  equal_symbols _ _ := coherent.symbol_beq_iff
  comments _ _ := by
    rw [Text.compareBytes_eq_compare]
    rfl
  equal_comments _ _ := Node.beq_iff.trans (by simp [Node.identity])
  named name _ := m.heap.names.text_intern name
  kept operation _ made := coherent.symbolName_perform operation made

/-- In every reachable image equality is an equivalence, the order of nodes agrees with it, and
symbols and comments are in the order of their texts. -/
theorem Reachable.equality_and_order (reachable : m.Reachable) :
    m.LawfulEquality ∧ m.LawfulOrder ∧ m.OrdersByText :=
  ⟨reachable.coherent.lawfulEquality, reachable.coherent.lawfulOrder,
    reachable.coherent.ordersByText⟩

/-- The name "b" is used before "a", and two symbols have the name "a". -/
def namesakes : Image :=
  [.symbol "b" none, .symbol "a" none, .symbol "a" (some { line := some 7 }), .comment "a" none,
    .list [] none].foldl perform {}

theorem namesakes_reachable : namesakes.Reachable := by
  have later := Reachable.empty.perform (.symbol "b" none) trivial
  have earlier := later.perform (.symbol "a" none) trivial
  have again := earlier.perform (.symbol "a" (some { line := some 7 })) trivial
  have comment := again.perform (.comment "a" none) trivial
  refine comment.perform (.list [] none) fun value member => ?_
  cases member

theorem namesakes_ordered : namesakes.Reachable ∧ namesakes.LawfulEquality ∧
    ∃ (a a' b : Symbol) (c : Comment) (e : Elements),
      namesakes.nodes = [.list e, .comment c, .symbol a', .symbol a, .symbol b] ∧
      (Node.symbol a).same (.symbol a') = false ∧ (Node.symbol a == .symbol a') = true ∧
      (Node.symbol b).partialCompare namesakes.heap.names (.symbol a') = some .gt ∧
      (Node.list e).partialCompare namesakes.heap.names (.list e) = some .eq ∧
      ((Node.symbol a).partialCompare namesakes.heap.names (.comment c)).isSome = false := by
  obtain ⟨equality, order, byText⟩ := namesakes_reachable.equality_and_order
  refine ⟨namesakes_reachable, equality, _, _, _, _, _, rfl, ?_, ?_, ?_, ?_, ?_⟩
  · decide +kernel
  · refine (byText.equal_symbols _ _ ?_ ?_).mpr ?_
    · exact .tail _ (.tail _ (.tail _ (.head _)))
    · exact .tail _ (.tail _ (.head _))
    · decide +kernel
  · rw [byText.symbols]
    decide +kernel
  · exact (order.eq_iff _ (.head _) _ (.head _)).mpr (equality.nodes.refl _)
  · rw [Bool.eq_false_iff, Ne, order.isSome_iff]
    decide +kernel

end Image

end LispFrontEnd
