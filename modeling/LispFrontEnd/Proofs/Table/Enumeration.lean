import LispFrontEnd.Proofs.Table.CanonicalOrder
import LispFrontEnd.Table.EntryCursor

/-! # Draining the cursor of one table

While the heap does not change, a cursor yields its pending keys that are there, in their order. For
a new cursor these are all keys of the table, each once with its value, and nothing else: first the
keys of the recorded order at their first places, then the others ascending by sort key.
-/

namespace LispFrontEnd

namespace Heap

variable {h : Heap} {t : Table}

/-- A key with its value, if the table has one. -/
def pair? (h : Heap) (t : Table) (key : Key) : Option (Key × Value) :=
  (h.get? t key).map (key, ·)

theorem pair?_eq_some_iff {key own : Key} {value : Value} :
    h.pair? t key = some (own, value) ↔ key = own ∧ h.get? t key = some value := by
  rw [pair?, Option.map_eq_some_iff]
  constructor
  · rintro ⟨stored, found, same⟩
    cases same
    exact ⟨rfl, found⟩
  · rintro ⟨rfl, found⟩
    exact ⟨value, found, rfl⟩

theorem get?_congr (h : Heap) (t : Table) {a b : Key} (same : (a == b) = true) :
    h.get? t a = h.get? t b :=
  Assoc.get?_congr (h.contents t).entries same

theorem containsKey_eq_isSome_get? (h : Heap) (t : Table) (key : Key) :
    h.containsKey t key = (h.get? t key).isSome :=
  (h.contents t).containsKey_eq_isSome_get? key

theorem containsKey_congr (h : Heap) (t : Table) {a b : Key} (same : (a == b) = true) :
    h.containsKey t a = h.containsKey t b :=
  (h.contents t).containsKey_congr same

theorem containsKey_of_get? {t : Table} {key : Key} {value : Value}
    (found : h.get? t key = some value) : h.containsKey t key = true := by
  rw [containsKey_eq_isSome_get?, found]
  rfl

theorem containsKey_eq_false_iff {t : Table} {key : Key} :
    h.containsKey t key = false ↔ h.get? t key = none :=
  Assoc.get?_eq_none_iff.symm

theorem canonicalEntries_eq (h : Heap) (t : Table) :
    h.canonicalEntries t = (h.canonicalKeys t).filterMap (h.pair? t) := rfl

theorem mem_canonicalEntries {key : Key} {value : Value} :
    (key, value) ∈ h.canonicalEntries t ↔ key ∈ h.canonicalKeys t ∧ h.get? t key = some value := by
  rw [canonicalEntries_eq, List.mem_filterMap]
  constructor
  · rintro ⟨own, member, found⟩
    obtain ⟨rfl, stored⟩ := pair?_eq_some_iff.mp found
    exact ⟨member, stored⟩
  · rintro ⟨member, stored⟩
    exact ⟨key, member, pair?_eq_some_iff.mpr ⟨rfl, stored⟩⟩

/-- The canonical entries stand under all the canonical keys, none of which is missing. -/
theorem map_fst_canonicalEntries (h : Heap) (t : Table) :
    (h.canonicalEntries t).map (·.1) = h.canonicalKeys t := by
  have present : ∀ key ∈ h.canonicalKeys t, (h.pair? t key).map (·.1) = some key := by
    intro key member
    have there := Contents.containsKey_of_mem_canonicalKeys member
    rw [Contents.containsKey_eq_isSome_get?, Option.isSome_iff_exists] at there
    obtain ⟨value, found⟩ := there
    rw [pair?, show h.get? t key = some value from found]
    rfl
  rw [canonicalEntries_eq, List.map_filterMap, List.filterMap_congr present, List.filterMap_some]

/-- A key and a value stand together in the table exactly when they do so in the canonical entries,
the key up to equality. -/
theorem exists_mem_canonicalEntries {key : Key} {value : Value} :
    (∃ own, (own == key) = true ∧ (own, value) ∈ h.canonicalEntries t) ↔
      h.get? t key = some value := by
  constructor
  · rintro ⟨own, same, member⟩
    rw [← get?_congr h t same]
    exact (mem_canonicalEntries.mp member).2
  · intro found
    have there : (h.contents t).containsKey key = true := by
      rw [Contents.containsKey_eq_isSome_get?, show (h.contents t).get? key = some value from found]
      rfl
    have canonical : key.identity ∈ (h.canonicalKeys t).map Key.identity :=
      Contents.identity_mem_canonicalKeys.mpr there
    obtain ⟨own, member, same⟩ := List.mem_map.mp canonical
    have equal := Key.beq_iff.mpr same
    exact ⟨own, equal, mem_canonicalEntries.mpr ⟨member, (get?_congr h t equal).trans found⟩⟩

theorem canonicalEntries_pairwise (h : Heap) (t : Table) :
    (h.canonicalEntries t).Pairwise fun a b => (a.1 == b.1) = false := by
  have different := (h.contents t).canonicalKeys_pairwise h.names
  rw [← show (h.canonicalEntries t).map (·.1) = (h.contents t).canonicalKeys h.names from
    h.map_fst_canonicalEntries t] at different
  exact List.pairwise_map.mp different

end Heap

namespace EntryCursor

/-- One step yields the first pending key that is there and leaves those after it. -/
theorem filterMap_pair?_eq (h : Heap) (t : Table) (pending : List Key) :
    pending.filterMap (h.pair? t) = (nextPending h t pending).1.toList ++
      (nextPending h t pending).2.filterMap (h.pair? t) := by
  fun_induction nextPending h t pending with
  | case1 => rfl
  | case2 key rest value found => simp [Heap.pair?, found]
  | case3 key rest absent ih => simpa [Heap.pair?, absent] using ih

theorem nextPending_eq_none {h : Heap} {t : Table} {pending : List Key}
    (used : (nextPending h t pending).1 = none) : (nextPending h t pending).2 = [] := by
  fun_induction nextPending h t pending with
  | case1 => rfl
  | case2 => cases used
  | case3 _ _ _ ih => exact ih used

theorem toList_eq (h : Heap) (cursor : EntryCursor) :
    toList h cursor = cursor.pending.filterMap (h.pair? cursor.table) := by
  fun_induction toList h cursor with
  | case1 cursor rest used =>
    have stopped := congrArg Prod.fst used
    rw [filterMap_pair?_eq, nextPending_eq_none stopped]
    simp [show (nextPending h cursor.table cursor.pending).1 = none from stopped]
  | case2 cursor entry rest yielded shorter ih =>
    obtain ⟨found, rfl⟩ := Prod.mk.inj yielded
    have first : (nextPending h cursor.table cursor.pending).1 = some entry := found
    rw [filterMap_pair?_eq, first, ih]
    rfl

theorem toList_ofTable (h : Heap) (t : Table) : toList h (ofTable h t) = h.canonicalEntries t :=
  toList_eq h (ofTable h t)

/-- Draining a cursor yields every key of its table once: first those of the recorded order, then
the others by label, rank and creation. -/
theorem toList_ofTable_exact (h : Heap) (t : Table) :
    (∀ key value, (∃ own, (own == key) = true ∧ (own, value) ∈ toList h (ofTable h t)) ↔
      h.get? t key = some value) ∧
    ((toList h (ofTable h t)).Pairwise fun a b => (a.1 == b.1) = false) ∧
    ∃ recorded others, (toList h (ofTable h t)).map (·.1) = recorded ++ others ∧
      recorded = (firstOccurrences ((h.keyOrder t).getD [])).filter (h.containsKey t) ∧
      others.Perm ((h.keys t).filter fun key => !((h.keyOrder t).getD []).contains key) ∧
      others.Pairwise fun a b => (a.sortKey h.names).Precedes (b.sortKey h.names) := by
  rw [toList_ofTable]
  refine ⟨fun key value => Heap.exists_mem_canonicalEntries, h.canonicalEntries_pairwise t,
    (h.contents t).recordedKeys, (h.contents t).sortedKeys h.names, ?_, ?_, ?_, ?_⟩
  · exact h.map_fst_canonicalEntries t
  · exact (h.contents t).recordedKeys_eq
  · exact ((h.contents t).sortedKeys_perm h.names).trans (.of_eq (h.contents t).unrecordedKeys_eq)
  · exact ((h.contents t).sortedKeys_ascending h.names).imp SortKey.le_iff_precedes.mp

end EntryCursor

end LispFrontEnd
