import LispFrontEnd.Proofs.Table.DelegateChain
import LispFrontEnd.Proofs.Table.Enumeration
import Mathlib.Data.List.Perm.Subperm

/-! # Looking up in the nearest table

The delegate of a table, the delegate of that, and so on are a sequence that goes on for ever when
the chain is a cycle. A lookup asks the levels only, each once, which are the tables of the sequence
up to the first that comes again, and no more than the heap has and one outside it. Yet it misses
none: every table of the sequence is one of the levels (`IsLevels.mem_of_delegateAt?`). So it
answers what the first table of the whole sequence has that has the key, and storing or removing the
key in a table that is not met up to that one changes no answer.
-/

namespace LispFrontEnd

namespace Heap

/-- The table that is reached in so many steps to a delegate. -/
def delegateAt? (h : Heap) (t : Table) : Nat → Option Table
  | 0 => some t
  | n + 1 => (h.delegateAt? t n).bind h.delegate

/-- The first table of the chain that has a key, and the number of steps to it. -/
structure Nearest (h : Heap) (t : Table) (key : Key) (n : Nat) (d : Table) : Prop where
  reached : h.delegateAt? t n = some d
  has : h.containsKey d key = true
  first : ∀ m < n, ∀ e, h.delegateAt? t m = some e → h.containsKey e key = false

variable {h : Heap} {t u d e : Table} {levels : List Table} {key : Key} {value : Value} {m n : Nat}

theorem delegate_congr (same : d.id = e.id) : h.delegate d = h.delegate e :=
  congrArg Contents.delegate (contents_congr same)

theorem get?_eq_of_id_eq (same : d.id = e.id) : h.get? d key = h.get? e key :=
  congrArg (Contents.get? · key) (contents_congr same)

namespace IsLevels

theorem delegateAt? (are : h.IsLevels t levels) (bound : n < levels.length) :
    h.delegateAt? t n = some levels[n] := by
  induction n with
  | zero =>
    have starts := are.starts
    rw [List.head?_eq_getElem?, List.getElem?_eq_getElem bound] at starts
    exact starts.symm
  | succ n ih =>
    rw [Heap.delegateAt?, ih (Nat.lt_of_succ_lt bound)]
    exact List.isChain_iff_getElem.mp are.follows n bound

/-- No delegate leads out of the levels. -/
theorem mem_of_delegate (are : h.IsLevels t levels) (member : e ∈ levels)
    (delegate : h.delegate e = some d) : d.id ∈ levels.map (·.id) := by
  obtain ⟨n, bound, rfl⟩ := List.getElem_of_mem member
  by_cases further : n + 1 < levels.length
  · have next := List.isChain_iff_getElem.mp are.follows n further
    obtain rfl := Option.some.inj (next.symm.trans delegate)
    exact List.mem_map_of_mem (List.getElem_mem further)
  · refine are.closes levels[n] ?_ d delegate
    rw [List.getLast?_eq_getElem?, Option.mem_def, List.getElem?_eq_some_iff]
    exact ⟨by omega, getElem_congr_idx (by omega)⟩

theorem mem_of_delegateAt? (are : h.IsLevels t levels) (reached : h.delegateAt? t n = some d) :
    d.id ∈ levels.map (·.id) := by
  induction n generalizing d with
  | zero =>
    obtain rfl := Option.some.inj reached
    exact List.mem_map_of_mem (List.mem_of_head? are.starts)
  | succ n ih =>
    obtain ⟨e, before, delegate⟩ := Option.bind_eq_some_iff.mp reached
    obtain ⟨level, member, same⟩ := List.mem_map.mp (ih before)
    exact are.mem_of_delegate member ((delegate_congr same).trans delegate)

/-- Every level but the last has a delegate, so it is a node of the heap. -/
theorem length_le (are : h.IsLevels t levels) : levels.length ≤ h.cells.size + 1 := by
  have inHeap : levels.dropLast.map (·.id) ⊆ List.range h.cells.size := by
    intro id member
    obtain ⟨level, among, rfl⟩ := List.mem_map.mp member
    obtain ⟨n, bound, rfl⟩ := List.getElem_of_mem among
    rw [List.length_dropLast] at bound
    rw [List.getElem_dropLast]
    exact List.mem_range.mpr
      (id_lt_of_delegate (List.isChain_iff_getElem.mp are.follows n (by omega)))
  have distinct := are.distinct.sublist ((List.dropLast_sublist levels).map (·.id))
  have counted := (List.subperm_of_subset distinct inHeap).length_le
  rw [List.length_map, List.length_dropLast, List.length_range] at counted
  omega

end IsLevels

theorem lookup?_eq_none_iff_lacks : h.lookup? t key = none ↔
    ∀ n d, h.delegateAt? t n = some d → h.containsKey d key = false := by
  rw [lookup?_eq_findSome?, List.findSome?_eq_none_iff]
  simp only [containsKey_eq_false_iff]
  constructor
  · intro lack n d reached
    obtain ⟨level, member, same⟩ := List.mem_map.mp ((h.isLevels t).mem_of_delegateAt? reached)
    exact get?_eq_of_id_eq same ▸ lack level member
  · intro lack level member
    obtain ⟨n, bound, rfl⟩ := List.getElem_of_mem member
    exact lack n _ ((h.isLevels t).delegateAt? bound)

theorem exists_nearest (found : h.lookup? t key = some value) :
    ∃ n d, h.Nearest t key n d ∧ h.get? d key = some value := by
  rw [lookup?_eq_findSome?, List.findSome?_eq_some_iff] at found
  obtain ⟨front, d, back, split, here, lack⟩ := found
  have steps {i : Nat} (bound : i < (h.levels t).length) := (h.isLevels t).delegateAt? bound
  simp only [split] at steps
  refine ⟨front.length, d, ⟨?_, ?_, ?_⟩, here⟩
  · rw [steps (by simp)]
    simp
  · rw [containsKey_eq_isSome_get?, here]
    rfl
  · intro m before e reached
    rw [steps (by simp; omega), List.getElem_append_left before] at reached
    obtain rfl := Option.some.inj reached
    exact containsKey_eq_false_iff.mpr (lack _ (List.getElem_mem before))

theorem Nearest.not_lt (near : h.Nearest t key n d) (other : h.Nearest t key m e) : ¬m < n := by
  intro nearer
  have lacks := near.first m nearer e other.reached
  rw [other.has] at lacks
  cases lacks

theorem Nearest.unique (near : h.Nearest t key n d) (other : h.Nearest t key m e) :
    n = m ∧ d = e := by
  have same : n = m := by
    have := near.not_lt other
    have := other.not_lt near
    omega
  subst same
  exact ⟨rfl, Option.some.inj (near.reached.symm.trans other.reached)⟩

theorem Nearest.lookup? (near : h.Nearest t key n d) : h.lookup? t key = h.get? d key := by
  cases found : h.lookup? t key with
  | none =>
    have lacks := lookup?_eq_none_iff_lacks.mp found n d near.reached
    rw [near.has] at lacks
    cases lacks
  | some value =>
    obtain ⟨m, e, other, here⟩ := exists_nearest found
    rw [(near.unique other).2, here]

theorem delegate_setContents {c : Contents} (same : c.delegate = h.delegate u) (t : Table) :
    (h.setContents u c).delegate t = h.delegate t :=
  read_setContents (·.delegate) fun _ => same

theorem delegateAt?_setContents {c : Contents} (same : c.delegate = h.delegate u) (t : Table)
    (n : Nat) : (h.setContents u c).delegateAt? t n = h.delegateAt? t n := by
  have delegates : (h.setContents u c).delegate = h.delegate := funext (delegate_setContents same)
  induction n with
  | zero => rfl
  | succ n ih => rw [delegateAt?, delegateAt?, ih, delegates]

/-- A table that is not met up to the nearest one may change its entries in any way. -/
theorem Nearest.setContents (near : h.Nearest t key n d) {c : Contents}
    (same : c.delegate = h.delegate u)
    (later : ∀ m ≤ n, ∀ e, h.delegateAt? t m = some e → e.id ≠ u.id) :
    (h.setContents u c).Nearest t key n d := by
  have reads (m : Nat) (upTo : m ≤ n) (e : Table) (reached : h.delegateAt? t m = some e) :
      (h.setContents u c).containsKey e key = h.containsKey e key := by
    rw [containsKey, contents_setContents_of_ne (later m upTo e reached), containsKey]
  refine ⟨?_, ?_, fun m nearer e => ?_⟩
  · rw [delegateAt?_setContents same, near.reached]
  · rw [reads n (Nat.le_refl n) d near.reached, near.has]
  · rw [delegateAt?_setContents same]
    intro reached
    rw [reads m (Nat.le_of_lt nearer) e reached, near.first m nearer e reached]

theorem Nearest.lookup?_setContents (near : h.Nearest t key n d) {c : Contents}
    (same : c.delegate = h.delegate u)
    (later : ∀ m ≤ n, ∀ e, h.delegateAt? t m = some e → e.id ≠ u.id) :
    (h.setContents u c).lookup? t key = h.lookup? t key := by
  rw [(near.setContents same later).lookup?, near.lookup?, get?,
    contents_setContents_of_ne (later n (Nat.le_refl n) d near.reached), get?]

/-- A lookup answers the value in the first table of the whole chain of delegates that has the key,
and nothing when none has it. -/
theorem lookup?_nearest_first (h : Heap) (t : Table) (key : Key) :
    (h.lookup? t key = (h.levels t).findSome? (h.get? · key) ∧
      ((h.levels t).map (·.id)).Nodup ∧ (h.levels t).length ≤ h.cells.size + 1) ∧
    (∀ value, h.lookup? t key = some value ↔
      ∃ n d, h.Nearest t key n d ∧ h.get? d key = some value) ∧
    (h.lookup? t key = none ↔
      ∀ n d, h.delegateAt? t n = some d → h.containsKey d key = false) ∧
    ∀ n d, h.Nearest t key n d →
      ∀ u, (∀ m ≤ n, ∀ e, h.delegateAt? t m = some e → e.id ≠ u.id) →
        (∀ value, (h.insert u key value).2.lookup? t key = h.lookup? t key) ∧
          (h.erase u key).2.lookup? t key = h.lookup? t key := by
  have levels := h.isLevels t
  refine ⟨⟨h.lookup?_eq_findSome? t key, levels.distinct, levels.length_le⟩,
    fun value => ⟨exists_nearest, ?_⟩, lookup?_eq_none_iff_lacks, ?_⟩
  · rintro ⟨n, d, near, here⟩
    rw [near.lookup?, here]
  · intro n d near u later
    exact ⟨fun value => near.lookup?_setContents (Contents.insert_keeps _ key value).2 later,
      near.lookup?_setContents rfl later⟩

end Heap

end LispFrontEnd
