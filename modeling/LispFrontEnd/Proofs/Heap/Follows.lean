import LispFrontEnd.Proofs.Heap.Handles
import LispFrontEnd.Proofs.Table.SourceOrder
import LispFrontEnd.Proofs.Walk.Below
import LispFrontEnd.Table.Collect

/-! # Images that come after one another

`Follows targets first last` says what can become of an image while no other nodes than the targets
are changed: nodes are added, and those that were there keep their numbers and their names. One
operation does no more than that (`Coherent.follows_perform`), and so storing many entries does no
more either. What is read in an image has been made in it and can be given to the next operation.
-/

namespace LispFrontEnd.Image

variable {targets others : Set Nat} {first m last : Image}

def KnowsEntry (m : Image) (entry : Key × Value) : Prop := m.KnowsKey entry.1 ∧ m.Knows entry.2

theorem Coherent.knows_get? (coherent : m.Coherent) {t : Table} {key : Key} {value : Value}
    (found : m.heap.get? t key = some value) : m.Knows value := by
  obtain ⟨own, _, member⟩ := Assoc.mem_of_get? found
  exact ((coherent.covers_contents t).entries _ member).2

theorem Coherent.knowsKey_of_mem_canonicalKeys (coherent : m.Coherent) {t : Table} {key : Key}
    (member : key ∈ m.heap.canonicalKeys t) : m.KnowsKey key := by
  have covers := coherent.covers_contents t
  rcases Contents.mem_of_mem_canonicalKeys member with recorded | own
  · exact covers.order key recorded
  · obtain ⟨entry, there, rfl⟩ := List.mem_map.mp own
    exact (covers.entries entry there).1

/-- A way to list the children of nodes that does not come up with nodes never made. -/
def ListsMade (children : Heap → Node → List (Key × Value)) : Prop :=
  ∀ m : Image, m.Coherent → ∀ node ∈ m.nodes, ∀ entry ∈ children m.heap node, m.KnowsEntry entry

theorem listsMade_children : ListsMade Heap.children := by
  intro m coherent node made entry member
  cases node with
  | list e | sequence e =>
    refine ⟨?_, coherent.knows_items e entry.2 (Heap.mem_of_positional member)⟩
    obtain ⟨_, _, rfl⟩ := List.mem_map.mp member
    exact knows_of_plain rfl
  | table t => exact (coherent.covers_contents t).entries entry member
  | _ => cases member

theorem listsMade_canonicalChildren : ListsMade Heap.canonicalChildren := by
  intro m coherent node made entry member
  cases node with
  | table t =>
    obtain ⟨there, found⟩ := Heap.mem_canonicalEntries.mp member
    exact ⟨coherent.knowsKey_of_mem_canonicalKeys there, coherent.knows_get? found⟩
  | _ => exact listsMade_children m coherent _ made entry member

/-- The later image has all nodes of the earlier one, named as they were, and what is kept about a
node is the same but for the targets. -/
structure Follows (targets : Set Nat) (first last : Image) : Prop where
  coherent : last.Coherent
  older : first.nodes <:+ last.nodes
  counted : last.heap.cells.size + first.nodes.length =
    first.heap.cells.size + last.nodes.length
  named : ∀ s, .symbol s ∈ first.nodes → last.heap.symbolName s = first.heap.symbolName s
  elsewhere : ∀ node ∈ first.nodes, node.id ∉ targets →
    last.heap.state node = first.heap.state node

theorem Coherent.follows (coherent : m.Coherent) : Follows targets m m :=
  ⟨coherent, List.suffix_rfl, rfl, fun _ _ => rfl, fun _ _ _ => rfl⟩

/-- What is changed afterwards counts only if it was there in the first image. -/
theorem Follows.andThen (before : Follows targets first m) (after : Follows others m last)
    (within : ∀ node ∈ first.nodes, node.id ∈ others → node.id ∈ targets) :
    Follows targets first last where
  coherent := after.coherent
  older := before.older.trans after.older
  counted := by
    have before := before.counted
    have after := after.counted
    omega
  named s made := (after.named s (before.older.subset made)).trans (before.named s made)
  elsewhere node made away := by
    have other : node.id ∉ others := fun changed => away (within node made changed)
    exact (after.elsewhere node (before.older.subset made) other).trans
      (before.elsewhere node made away)

theorem Follows.size_le (follows : Follows targets first last) :
    first.heap.cells.size ≤ last.heap.cells.size := by
  have counted := follows.counted
  have longer := follows.older.length_le
  omega

theorem Follows.trans (before : Follows targets first m) (after : Follows targets m last) :
    Follows targets first last :=
  before.andThen after fun _ _ => id

theorem Follows.widen (follows : Follows targets m last) (wider : targets ⊆ others) :
    Follows others m last :=
  { follows with elsewhere := fun node made away =>
      follows.elsewhere node made fun among => away (wider among) }

theorem Coherent.follows_perform (coherent : m.Coherent) (operation : Operation)
    (admits : m.Admits operation)
    (aimed : ∀ node ∈ m.nodes, operation.target? = some node.id → node.id ∈ targets) :
    Follows targets m (m.perform operation) where
  coherent := coherent.perform operation admits
  older := by
    rcases makes_or_rewrites admits with ⟨_, names, cell, node, result⟩ | ⟨node, rewrites⟩
    · rw [result]
      exact List.suffix_cons node m.nodes
    · rw [rewrites.result]
  counted := by
    rcases makes_or_rewrites admits with ⟨_, names, cell, node, result⟩ | ⟨node, rewrites⟩
    · rw [result, Array.size_push, List.length_cons]
      omega
    · rw [rewrites.result, Heap.write, Array.size_setIfInBounds]
  named s made := coherent.symbolName_perform operation made
  elsewhere node made away := by
    rw [coherent.state_perform admits made, if_neg fun target => away (aimed node made target)]

theorem Coherent.follows_insertAll {out : Table} (coherent : m.Coherent)
    (made : .table out ∈ m.nodes) (entries : List (Key × Value))
    (known : ∀ entry ∈ entries, m.KnowsEntry entry) :
    Follows {out.id} m { m with heap := m.heap.insertAll out entries } := by
  induction entries generalizing m with
  | nil => exact coherent.follows
  | cons entry rest ih =>
    obtain ⟨first, others⟩ := List.forall_mem_cons.mp known
    have inserted : Follows {out.id} m (m.perform (.insert out entry.1 entry.2)) :=
      coherent.follows_perform _ ⟨made, first⟩ fun node _ target => (Option.some.inj target).symm
    exact inserted.trans (ih inserted.coherent made others)

theorem Coherent.follows_copyInto (coherent : m.Coherent) (source : Option Table) {out : Table}
    (made : .table out ∈ m.nodes) :
    Follows {out.id} m { m with heap := m.heap.copyInto source out } := by
  cases source with
  | none => exact coherent.follows
  | some source => exact coherent.follows_insertAll made _ (coherent.covers_contents source).entries

theorem Coherent.follows_copy (coherent : m.Coherent) (source : Option Table) :
    Follows {m.heap.cells.size} m (m.after .table (m.heap.copy source)) := by
  have made : Follows {m.heap.cells.size} m (m.perform (.table none)) :=
    coherent.follows_perform (.table none) trivial fun _ _ target => nomatch target
  exact made.trans (made.coherent.follows_copyInto source (List.mem_cons_self ..))

end LispFrontEnd.Image
