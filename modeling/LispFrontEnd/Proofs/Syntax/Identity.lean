import LispFrontEnd.Syntax.Value
import Mathlib.Data.List.Forall2

/-! # What nodes and keys are compared by

Two nodes are equal exactly when their identities are, and two keys likewise. So equality of nodes
and of keys is an equivalence, and facts about lists of keys up to equality become facts about the
lists of their identities.
-/

namespace LispFrontEnd

/-- The name of a symbol, the text of a comment, and of any other node its kind and number. -/
inductive NodeIdentity where
  | name (name : Name)
  | text (text : String)
  | made (kind : NodeKind) (id : Nat)
deriving DecidableEq

def Node.identity : Node → NodeIdentity
  | .symbol s => .name s.name
  | .comment c => .text c.text
  | node => .made node.kind node.id

inductive KeyIdentity where
  | bool (b : Bool)
  | int (n : Int64)
  | str (text : String)
  | node (identity : NodeIdentity)
deriving DecidableEq

def Key.identity : Key → KeyIdentity
  | .bool b => .bool b
  | .int n => .int n
  | .str s => .str s
  | .node n => .node n.identity

namespace Node

theorem same_iff {a b : Node} : a.same b = true ↔ a.kind = b.kind ∧ a.id = b.id := by
  simp [same]

theorem beq_iff {a b : Node} : (a == b) = true ↔ a.identity = b.identity := by
  change beq a b = true ↔ _
  cases a <;> cases b <;>
    simp only [beq, identity, same_iff, kind, id, reduceCtorEq, false_and, NodeIdentity.made.injEq,
      NodeIdentity.name.injEq, NodeIdentity.text.injEq]
  case symbol.symbol a b => exact beq_iff_eq (a := a.name)
  case comment.comment a b => exact beq_iff_eq (a := a.text)

instance : EquivBEq Node where
  rfl := beq_iff.mpr rfl
  symm same := beq_iff.mpr (beq_iff.mp same).symm
  trans first second := beq_iff.mpr ((beq_iff.mp first).trans (beq_iff.mp second))

end Node

namespace Key

theorem beq_iff {a b : Key} : (a == b) = true ↔ a.identity = b.identity := by
  change beq a b = true ↔ _
  cases a <;> cases b <;>
    simp only [beq, identity, reduceCtorEq, beq_iff_eq, KeyIdentity.bool.injEq,
      KeyIdentity.int.injEq, KeyIdentity.str.injEq, KeyIdentity.node.injEq]
  case node.node a b => exact Node.beq_iff

theorem beq_eq_false_iff {a b : Key} : (a == b) = false ↔ a.identity ≠ b.identity := by
  rw [← Bool.not_eq_true, beq_iff]

instance : EquivBEq Key where
  rfl := beq_iff.mpr rfl
  symm same := beq_iff.mpr (beq_iff.mp same).symm
  trans first second := beq_iff.mpr ((beq_iff.mp first).trans (beq_iff.mp second))

theorem contains_iff {keys : List Key} {key : Key} :
    keys.contains key = true ↔ key.identity ∈ keys.map identity := by
  simp only [List.contains_iff_exists_mem_beq, beq_iff, List.mem_map]
  exact exists_congr fun other => and_congr_right fun _ => eq_comm

/-- Lists without equal keys are lists without a repeated identity. -/
theorem pairwise_beq_false_iff {keys : List Key} :
    (keys.Pairwise fun a b => (a == b) = false) ↔ (keys.map identity).Nodup := by
  simp only [List.Nodup, List.pairwise_map, beq_eq_false_iff]

/-- Lists of equal keys are lists with the same identities. -/
theorem forall₂_beq_iff {keys others : List Key} :
    List.Forall₂ (fun a b => (a == b) = true) keys others ↔
      keys.map identity = others.map identity := by
  simp only [beq_iff, ← List.forall₂_eq_eq_eq, List.forall₂_map_left_iff,
    List.forall₂_map_right_iff]

end Key

end LispFrontEnd
