import LispFrontEnd.Proofs.Table.Enumeration
import LispFrontEnd.Walk
import Mathlib.Data.Multiset.MapFold
import Mathlib.Data.Set.Finite.Lattice
import Mathlib.Logic.Relation

/-! # Below a root

The children of a node in canonical order are those in any other order, up to equal keys, so the
same values are below a root in both. They are values that the heap holds, and so finitely many;
where no node is below itself there is no endless way down.
-/

namespace LispFrontEnd

/-- Two entries with equal keys and one value. -/
def AlikeEntries (one other : Key × Value) : Prop :=
  (one.1 == other.1) = true ∧ one.2 = other.2

theorem AlikeEntries.symm {one other : Key × Value} (alike : AlikeEntries one other) :
    AlikeEntries other one :=
  ⟨BEq.symm alike.1, alike.2.symm⟩

/-- What an entry is compared by. -/
def entryIdentity (e : Key × Value) : KeyIdentity × Value := (e.1.identity, e.2)

theorem entryIdentity_eq_iff {one other : Key × Value} :
    entryIdentity one = entryIdentity other ↔ AlikeEntries one other := by
  rw [entryIdentity, entryIdentity, Prod.mk.injEq, AlikeEntries, Key.beq_iff]

theorem map_entryIdentity_nodup {entries : List (Key × Value)}
    (distinct : entries.Pairwise fun a b => (a.1 == b.1) = false) :
    (entries.map entryIdentity).Nodup := by
  refine List.pairwise_map.mpr (distinct.imp fun different same => ?_)
  rw [(entryIdentity_eq_iff.mp same).1] at different
  cases different

theorem mem_map_entryIdentity {entries : List (Key × Value)} {identity : KeyIdentity}
    {value : Value} : (identity, value) ∈ entries.map entryIdentity ↔
      ∃ own, own.identity = identity ∧ (own, value) ∈ entries := by
  simp [entryIdentity, and_comm]

/-- The values in a cell that can be children of its node. -/
def Cell.values : Cell → List Value
  | .items values => values
  | .table contents => contents.entries.map (·.2)
  | _ => []

namespace Heap

variable {h : Heap}

theorem map_entryIdentity_perm (h : Heap) (t : Table) :
    ((h.entries t).map entryIdentity).Perm ((h.canonicalEntries t).map entryIdentity) := by
  have distinct := (h.contents t).distinct
  refine (List.perm_ext_iff_of_nodup (map_entryIdentity_nodup distinct)
    (map_entryIdentity_nodup (h.canonicalEntries_pairwise t))).mpr ?_
  rintro ⟨identity, value⟩
  rw [mem_map_entryIdentity, mem_map_entryIdentity]
  constructor
  · rintro ⟨key, rfl, member⟩
    have found : h.get? t key = some value := Assoc.get?_of_mem distinct member
    obtain ⟨own, same, shown⟩ := exists_mem_canonicalEntries.mpr found
    exact ⟨own, Key.beq_iff.mp same, shown⟩
  · rintro ⟨key, rfl, shown⟩
    obtain ⟨own, same, member⟩ := Assoc.mem_of_get? (mem_canonicalEntries.mp shown).2
    exact ⟨own, Key.beq_iff.mp same, member⟩

/-- The children in canonical order are a permutation of all children, up to equal keys. -/
theorem rel_children (h : Heap) (n : Node) :
    Multiset.Rel AlikeEntries (h.children n : Multiset (Key × Value)) (h.canonicalChildren n) := by
  have perm : ((h.children n).map entryIdentity).Perm
      ((h.canonicalChildren n).map entryIdentity) := by
    cases n with
    | table t => exact h.map_entryIdentity_perm t
    | _ => exact .refl _
  have same := Multiset.rel_eq.mpr (Multiset.coe_eq_coe.mpr perm)
  rw [← Multiset.map_coe, ← Multiset.map_coe, Multiset.rel_map] at same
  exact same.mono fun _ _ _ _ => entryIdentity_eq_iff.mp

theorem mem_of_positional {values : List Value} {entry : Key × Value}
    (member : entry ∈ positional values) : entry.2 ∈ values := by
  obtain ⟨⟨value, i⟩, place, rfl⟩ := List.mem_map.mp member
  exact (List.mem_zipIdx' place).2 ▸ List.getElem_mem _

theorem exists_cell_of_items {e : Elements} {value : Value} (member : value ∈ h.items e) :
    ∃ cell, h.cells[e.id]? = some cell ∧ value ∈ cell.values := by
  rw [items] at member
  split at member
  · rename_i values found
    exact ⟨_, found, member⟩
  · cases member

theorem exists_cell_of_entries {t : Table} {entry : Key × Value} (member : entry ∈ h.entries t) :
    ∃ cell, h.cells[t.id]? = some cell ∧ entry.2 ∈ cell.values := by
  rw [entries, contents] at member
  split at member
  · rename_i contents found
    exact ⟨_, found, List.mem_map_of_mem member⟩
  · cases member

/-- The children of a node are held in its own cell. -/
theorem exists_cell_of_children {n : Node} {entry : Key × Value} (member : entry ∈ h.children n) :
    ∃ cell, h.cells[n.id]? = some cell ∧ entry.2 ∈ cell.values := by
  cases n with
  | list e | sequence e => exact exists_cell_of_items (mem_of_positional member)
  | table t => exact exists_cell_of_entries member
  | _ => cases member

/-- The values in all cells. -/
def stored (h : Heap) : List Value := h.cells.toList.flatMap Cell.values

theorem mem_stored_of_children {n : Node} {entry : Key × Value} (member : entry ∈ h.children n) :
    entry.2 ∈ h.stored := by
  obtain ⟨cell, found, held⟩ := exists_cell_of_children member
  exact List.mem_flatMap.mpr ⟨cell, (Array.mem_of_getElem? found).val, held⟩

/-- Every node holds only nodes with smaller numbers. -/
def Descending (h : Heap) : Prop :=
  ∀ id : Fin h.cells.size, ∀ value ∈ h.cells[id].values, ∀ n ∈ value.asNode?, n.id < id

instance : Decidable h.Descending :=
  inferInstanceAs (Decidable (∀ _ : Fin h.cells.size, _))

theorem Descending.id_lt (descends : h.Descending) {n part : Node} {key : Key}
    (member : (key, Value.node part) ∈ h.children n) : part.id < n.id := by
  obtain ⟨cell, found, held⟩ := exists_cell_of_children member
  obtain ⟨bound, rfl⟩ := Array.getElem?_eq_some_iff.mp found
  exact descends ⟨n.id, bound⟩ _ held part rfl

end Heap

namespace Walk

section Below
variable {listed others : Node → List (Key × Value)} {root : Value}

/-- A value is listed among the children of another. -/
def Child (listed : Node → List (Key × Value)) (whole part : Value) : Prop :=
  ∃ node key, whole = .node node ∧ (key, part) ∈ listed node

/-- The nodes at a root and below it. -/
def below (listed : Node → List (Key × Value)) (root : Value) : Set Node :=
  {n | Relation.ReflTransGen (Child listed) root (.node n)}

/-- No node at a root or below it is below itself. -/
def Acyclic (listed : Node → List (Key × Value)) (root : Value) : Prop :=
  ∀ n ∈ below listed root, ¬ Relation.TransGen (Child listed) (.node n) (.node n)

theorem acc_of_not_node (plain : root.asNode? = none) :
    Acc (fun part whole => Child listed whole part) root := by
  refine ⟨root, ?_⟩
  rintro part ⟨node, key, rfl, _⟩
  cases plain

/-- Finitely many nodes without a cycle have no endless way down. -/
theorem acc_of_acyclic (finite : (below listed root).Finite) (acyclic : Acyclic listed root) :
    Acc (fun part whole => Child listed whole part) root := by
  -- Finitely many nodes under a transitive irreflexive relation: being below is well-founded.
  let Inside (part whole : below listed root) : Prop :=
    Relation.TransGen (Child listed) (.node whole.1) (.node part.1)
  have : Finite (below listed root) := finite
  have : IsTrans _ Inside := ⟨fun _ _ _ inner outer => outer.trans inner⟩
  have : Std.Irrefl Inside := ⟨fun n => acyclic n.1 n.2⟩
  have wellFounded : WellFounded Inside := Finite.wellFounded_of_trans_of_irrefl Inside
  have accNode (n : below listed root) :
      Acc (fun part whole => Child listed whole part) (.node n.1) := by
    induction n using wellFounded.induction with
    | _ n ih =>
      refine ⟨_, fun part child => ?_⟩
      cases part with
      | node inner => exact ih ⟨inner, n.2.tail child⟩ (.single child)
      | _ => exact acc_of_not_node rfl
  cases root with
  | node n => exact accNode ⟨n, .refl⟩
  | _ => exact acc_of_not_node rfl

theorem child_of_rel
    (same : ∀ n, Multiset.Rel AlikeEntries (listed n : Multiset (Key × Value)) (others n))
    {whole part : Value} (child : Child listed whole part) : Child others whole part := by
  obtain ⟨node, key, rfl, member⟩ := child
  obtain ⟨⟨own, _⟩, there, _, rfl⟩ := Multiset.exists_mem_of_rel_of_mem (same node) member
  exact ⟨node, own, rfl, there⟩

theorem child_eq_of_rel
    (same : ∀ n, Multiset.Rel AlikeEntries (listed n : Multiset (Key × Value)) (others n)) :
    Child listed = Child others := by
  funext whole part
  refine propext ⟨child_of_rel same, child_of_rel fun n => ?_⟩
  exact (Multiset.rel_flip.mpr (same n)).mono fun _ _ _ _ alike => alike.symm

end Below

variable {h : Heap} {root : Value}

theorem finite_below_children (h : Heap) (root : Value) : (below h.children root).Finite := by
  have held : below h.children root ⊆
      Set.preimage Value.node (insert root {value | value ∈ h.stored}) := by
    intro n reached
    cases reached with
    | refl => exact .inl rfl
    | tail _ last =>
      obtain ⟨node, key, _, member⟩ := last
      exact .inr (Heap.mem_stored_of_children member)
  have injective : Function.Injective Value.node := fun _ _ => Value.node.inj
  exact (((h.stored.finite_toSet).insert root).preimage injective.injOn).subset held

section Rel
variable {listed : Node → List (Key × Value)}
  (same : ∀ n, Multiset.Rel AlikeEntries (h.children n : Multiset (Key × Value)) (listed n))

include same

theorem finite_below_of_rel (root : Value) : (below listed root).Finite := by
  rw [below, ← child_eq_of_rel same]
  exact finite_below_children h root

theorem acyclic_of_rel (acyclic : Acyclic h.children root) : Acyclic listed root := by
  rwa [Acyclic, below, ← child_eq_of_rel same]

end Rel

/-- Where every node holds only nodes with smaller numbers, nothing is below itself. -/
theorem acyclic_of_descending (descends : h.Descending) (root : Value) :
    Acyclic h.children root := by
  intro outer _ around
  have smaller : ∀ v, Relation.TransGen (Child h.children) (.node outer) v →
      ∀ n, v = .node n → n.id < outer.id := by
    intro v under
    induction under with
    | single child =>
      rintro n rfl
      obtain ⟨_, _, same, member⟩ := child
      cases same
      exact descends.id_lt member
    | tail _ child ih =>
      rintro n rfl
      obtain ⟨middle, _, rfl, member⟩ := child
      exact Nat.lt_trans (descends.id_lt member) (ih middle rfl)
  exact Nat.lt_irrefl _ (smaller _ around outer rfl)

end Walk

end LispFrontEnd
