import LispFrontEnd.Proofs.Table.Refinement
import LispFrontEnd.Proofs.Table.SourceOrder
import LispFrontEnd.Proofs.Walk.Below

/-! # Copying tables

To copy a table into another, or into itself, is to take the union of two maps in which the copied
one counts first. The order in which its entries are met decides nothing, since no two of its keys
are equal and none of its values is nil, and a second copy adds nothing. A copy is a new table with
the same entries, sorted for want of a recorded order; whatever is inserted or taken out afterwards,
each of the two has what its own changes make of these entries.
-/

namespace LispFrontEnd

namespace Contents

variable {c : Contents} {key : Key} {value : Value} {pairs : List (Key × Value)}

theorem insertAll_keeps (c : Contents) (pairs : List (Key × Value)) :
    (c.insertAll pairs).order = c.order ∧ (c.insertAll pairs).delegate = c.delegate :=
  c.foldl_insert_keeps (fun _ (pair : Key × Value) => pair.1) (fun pair => pair.2) pairs

theorem insert_of_get? (found : c.get? key = some value) : c.insert key value = c := by
  obtain ⟨own, _, member⟩ := Assoc.mem_of_get? found
  have present : value.isNil = false := c.stored _ member
  have same : Assoc.insert c.entries key value = c.entries := Assoc.insert_of_get? found
  rw [insert, dif_neg (by simp [present])]
  simp only [same]

theorem insertAll_of_get? (found : ∀ pair ∈ pairs, c.get? pair.1 = some pair.2) :
    c.insertAll pairs = c := by
  induction pairs with
  | nil => rfl
  | cons pair rest ih =>
    obtain ⟨first, others⟩ := List.forall_mem_cons.mp found
    rw [insertAll, List.foldl_cons, insert_of_get? first]
    exact ih others

/-- The entries of other contents may be inserted in any order. -/
theorem insertAll_perm (c : Contents) {one other : Contents}
    (perm : one.entries.Perm other.entries) :
    (c.insertAll one.entries).entries.Perm (c.insertAll other.entries).entries := by
  rw [entries_insertAll c one.stored, entries_insertAll c other.stored]
  exact Assoc.foldl_insert_perm c.distinct other.distinct perm

/-- New contents into which the entries of others are inserted have just these. -/
theorem entries_insertAll_empty (c : Contents) :
    (insertAll {} c.entries).entries = c.entries := by
  rw [entries_insertAll {} c.stored, Assoc.foldl_insert_eq Assoc.Distinct.nil c.distinct]
  exact List.filter_eq_self.mpr fun _ _ => rfl

/-- Without a recorded order all keys are sorted. -/
theorem recordedKeys_of_order (unordered : c.order = none) : c.recordedKeys = [] := by
  rw [recordedKeys, unordered]
  rfl

end Contents

/-- An insertion into a table or a removal from it. -/
inductive TableEdit where
  | insert (t : Table) (key : Key) (value : Value)
  | push (t : Table) (value : Value)
  | erase (t : Table) (key : Key)

namespace TableEdit

def table : TableEdit → Table
  | insert t _ _ | push t _ | erase t _ => t

def change (c : Contents) : TableEdit → Contents
  | insert _ key value => c.insert key value
  | push _ value => c.push value
  | erase _ key => c.erase key

end TableEdit

namespace Heap

variable {h : Heap} {t source out : Table}

def edit (h : Heap) : TableEdit → Heap
  | .insert t key value => (h.insert t key value).2
  | .push t value => h.push t value
  | .erase t key => (h.erase t key).2

theorem edit_eq (h : Heap) (e : TableEdit) :
    h.edit e = h.setContents e.table (e.change (h.contents e.table)) := by
  cases e <;> rfl

/-- What becomes of a table depends on the changes to itself alone. -/
theorem contents_foldl_edit (bound : t.id < h.cells.size) (edits : List TableEdit) :
    (edits.foldl edit h).contents t =
      (edits.filter (·.table.id == t.id)).foldl TableEdit.change (h.contents t) := by
  induction edits generalizing h with
  | nil => rfl
  | cons e rest ih =>
    have later := ih (h := h.edit e) (by rw [edit_eq, size_setContents]; exact bound)
    rw [List.foldl_cons, later, edit_eq, List.filter_cons]
    by_cases own : e.table.id = t.id
    · rw [contents_congr own.symm, contents_setContents (own ▸ bound), if_pos (by simp [own]),
        List.foldl_cons, contents_congr own]
    · rw [contents_setContents_of_ne (Ne.symm own), if_neg (by simp [own])]

theorem insertAll_eq (holds : h.Holds t) (pairs : List (Key × Value)) :
    h.insertAll t pairs = h.setContents t ((h.contents t).insertAll pairs) := by
  -- From the end: the heap in front of the last pair is then one that has been written once.
  induction pairs using List.reverseRecOn with
  | nil => exact (setContents_contents holds).symm
  | append_singleton pairs pair ih =>
    have last : h.insertAll t (pairs ++ [pair]) =
        ((h.insertAll t pairs).insert t pair.1 pair.2).2 := by
      rw [insertAll, List.foldl_append]
      rfl
    rw [last, ih, insert, contents_setContents holds.id_lt, setContents_setContents,
      Contents.insertAll, Contents.insertAll, List.foldl_append]
    rfl

theorem copyInto_eq (holds : h.Holds out) (source : Table) :
    h.copyInto (some source) out =
      h.setContents out ((h.contents out).insertAll (h.entries source)) :=
  insertAll_eq holds (h.entries source)

theorem contents_copyInto (holds : h.Holds out) (source : Table) :
    (h.copyInto (some source) out).contents out =
      (h.contents out).insertAll (h.entries source) :=
  contents_insertAll holds.id_lt (h.entries source)

theorem get?_copyInto (holds : h.Holds source) (holdsOut : h.Holds out) (key : Key) :
    (h.copyInto (some source) out).get? out key = (h.get? source key).or (h.get? out key) := by
  obtain ⟨origin, held⟩ := holds.exists_view
  obtain ⟨view, heldOut⟩ := holdsOut.exists_view
  have merged : (h.copyInto (some source) out).tables out.id = some (view.merge origin.map) := by
    rw [tables_copyInto held heldOut, Function.update_self]
  rw [get?_eq_lookup merged, get?_eq_lookup held, get?_eq_lookup heldOut, TableView.merge]
  cases found : origin.map.lookup key.identity with
  | none =>
    rw [Finmap.lookup_union_right (Finmap.lookup_eq_none.mp found)]
    rfl
  | some value =>
    rw [Finmap.lookup_union_left (Finmap.mem_of_lookup_eq_some found), found]
    rfl

/-- Copying entries that are there already changes nothing. -/
theorem copyInto_of_get? (holds : h.Holds out)
    (found : ∀ entry ∈ h.entries source, h.get? out entry.1 = some entry.2) :
    h.copyInto (some source) out = h := by
  rw [copyInto_eq holds, Contents.insertAll_of_get? found]
  exact setContents_contents holds

theorem get?_of_mem_entries {entry : Key × Value} (member : entry ∈ h.entries t) :
    h.get? t entry.1 = some entry.2 :=
  Assoc.get?_of_mem (h.contents t).distinct member

theorem copyInto_self (holds : h.Holds out) (same : source.id = out.id) :
    h.copyInto (some source) out = h := by
  refine copyInto_of_get? holds fun entry member => ?_
  rw [entries, contents_congr same] at member
  exact get?_of_mem_entries member

theorem holds_copyInto (holds : h.Holds source) (holdsOut : h.Holds out) (held : h.Holds t) :
    (h.copyInto (some source) out).Holds t := by
  obtain ⟨origin, there⟩ := holds.exists_view
  obtain ⟨view, thereOut⟩ := holdsOut.exists_view
  exact holds_of_update held (tables_copyInto there thereOut)

theorem copyInto_again (holds : h.Holds source) (holdsOut : h.Holds out) :
    (h.copyInto (some source) out).copyInto (some source) out = h.copyInto (some source) out := by
  refine copyInto_of_get? (holds_copyInto holds holdsOut holdsOut) fun entry member => ?_
  -- The entries to be copied again are those from before, also when the source is the target.
  by_cases same : source.id = out.id
  · rw [entries, contents_congr same] at member
    exact get?_of_mem_entries member
  · rw [entries, copyInto_eq holdsOut, contents_setContents_of_ne same] at member
    rw [get?_copyInto holds holdsOut, get?_of_mem_entries member]
    rfl

/-- The entries of the source may stand in any order. -/
theorem entries_copyInto_perm (holds : h.Holds source) (holdsOut : h.Holds out) {c : Contents}
    (perm : c.entries.Perm (h.entries source)) :
    (((h.setContents source c).copyInto (some source) out).entries out).Perm
      ((h.copyInto (some source) out).entries out) := by
  obtain ⟨view, held⟩ := holds.exists_view
  have holdsThen : (h.setContents source c).Holds out :=
    holds_of_update holdsOut (tables_setContents held c)
  by_cases same : source.id = out.id
  · rw [copyInto_self holdsThen same, copyInto_self holdsOut same, entries,
      contents_congr same.symm, contents_setContents holds.id_lt, entries, contents_congr same.symm]
    exact perm
  · rw [entries, contents_copyInto holdsThen, entries, contents_setContents holds.id_lt,
      contents_setContents_of_ne (Ne.symm same), entries, contents_copyInto holdsOut]
    exact (h.contents out).insertAll_perm perm

theorem contents_newTable_of_lt (bound : t.id < h.cells.size) (c : Contents)
    (span : Option SourceSpan) : (h.newTable c span).2.contents t = h.contents t := by
  simp only [newTable, alloc, contents, Array.getElem?_push_lt bound,
    Array.getElem?_eq_getElem bound]

theorem setContents_newTable (h : Heap) (c other : Contents) (span : Option SourceSpan) :
    (h.newTable c span).2.setContents (h.newTable c span).1 other = (h.newTable other span).2 := by
  have replaced : (h.cells.push (.table c)).setIfInBounds h.cells.size (.table other) =
      h.cells.push (.table other) := by
    rw [Array.setIfInBounds, dif_pos (Array.size_push _ ▸ Nat.lt_succ_self _), Array.set_push,
      dif_neg (Nat.lt_irrefl _)]
  simp only [newTable, alloc, setContents, replaced]

theorem holds_newTable (h : Heap) (c : Contents) (span : Option SourceSpan) :
    (h.newTable c span).2.Holds (h.newTable c span).1 := by
  rw [Holds, (h.tables_newTable c span).2, Function.update_self]
  rfl

/-- A copy is made with all its entries at once. -/
theorem copy_eq (holds : h.Holds source) :
    h.copy (some source) = h.newTable (Contents.insertAll {} (h.entries source)) none := by
  have copied := copyInto_eq (h.holds_newTable {} none) source
  rw [contents_newTable, entries, contents_newTable_of_lt holds.id_lt,
    setContents_newTable] at copied
  exact congrArg (Prod.mk _) copied

/-- Without a recorded order a table is gone through in ascending order of the sort keys. -/
theorem canonicalEntries_ascending (unordered : h.keyOrder t = none) :
    (h.canonicalEntries t).Pairwise fun a b =>
      (a.1.sortKey h.names).Precedes (b.1.sortKey h.names) := by
  have sorted : h.canonicalKeys t = (h.contents t).sortedKeys h.names := by
    rw [canonicalKeys, Contents.canonicalKeys_eq, Contents.recordedKeys_of_order unordered]
    rfl
  have ascending := ((h.contents t).sortedKeys_ascending h.names).imp SortKey.le_iff_precedes.mp
  rw [← sorted, ← map_fst_canonicalEntries, List.pairwise_map] at ascending
  exact ascending

/-- A table has taken over the entries of another, and nothing else has changed. -/
structure MergedInto (h : Heap) (source out : Table) (after : Heap) : Prop where
  -- The span of a table belongs to the handle, so it is no part of this.
  get? : ∀ key, after.get? out key = (h.get? source key).or (h.get? out key)
  keyOrder : after.keyOrder out = h.keyOrder out
  delegate : after.delegate out = h.delegate out
  source : source.id ≠ out.id → after.contents source = h.contents source
  rest : after = h.setContents out (after.contents out)

/-- A new table has the entries of another and nothing else of it, and each of the two becomes what
its own changes make of it. -/
structure CopyOf (h : Heap) (source made : Table) (after : Heap) : Prop where
  fresh : ¬h.Holds made
  different : made.id ≠ source.id
  holds : after.Holds made
  span : made.span = none
  keyOrder : after.keyOrder made = none
  delegate : after.delegate made = none
  entries : (after.entries made).Perm (h.entries source)
  ascending : (EntryCursor.toList after (.ofTable after made)).Pairwise fun a b =>
    (a.1.sortKey after.names).Precedes (b.1.sortKey after.names)
  permuted : ((EntryCursor.toList after (.ofTable after made)).map entryIdentity).Perm
    ((EntryCursor.toList h (.ofTable h source)).map entryIdentity)
  others : ∀ t, h.Holds t → after.Holds t ∧ after.contents t = h.contents t
  apart : ∀ (edits : List TableEdit) (t : Table), after.Holds t →
    (edits.foldl edit after).contents t =
      (edits.filter (·.table.id == t.id)).foldl TableEdit.change (after.contents t)

theorem mergedInto_copyInto (holds : h.Holds source) (holdsOut : h.Holds out) :
    h.MergedInto source out (h.copyInto (some source) out) where
  get? := get?_copyInto holds holdsOut
  keyOrder := by
    rw [keyOrder, contents_copyInto holdsOut, (Contents.insertAll_keeps _ _).1, keyOrder]
  delegate := by
    rw [delegate, contents_copyInto holdsOut, (Contents.insertAll_keeps _ _).2, delegate]
  source different := by
    rw [copyInto_eq holdsOut, contents_setContents_of_ne different]
  rest := by
    rw [contents_copyInto holdsOut]
    exact copyInto_eq holdsOut source

theorem copyOf_newTable (holds : h.Holds source) {c : Contents}
    (entries : c.entries = h.entries source) (order : c.order = none)
    (delegate : c.delegate = none) :
    h.CopyOf source (h.newTable c none).1 (h.newTable c none).2 := by
  obtain ⟨free, changed⟩ := h.tables_newTable c none
  have made := h.contents_newTable c none
  have unordered : (h.newTable c none).2.keyOrder (h.newTable c none).1 = none := by
    rw [keyOrder, made, order]
  have same : (h.newTable c none).2.entries (h.newTable c none).1 = h.entries source := by
    rw [Heap.entries, made, entries]
  exact {
    fresh := by
      rw [Holds, free]
      exact Bool.false_ne_true
    different := (Nat.ne_of_lt holds.id_lt).symm
    holds := h.holds_newTable c none
    span := rfl
    keyOrder := unordered
    delegate := by rw [Heap.delegate, made, delegate]
    entries := .of_eq same
    ascending := by
      rw [EntryCursor.toList_ofTable]
      exact canonicalEntries_ascending unordered
    permuted := by
      rw [EntryCursor.toList_ofTable, EntryCursor.toList_ofTable]
      refine ((h.newTable c none).2.map_entryIdentity_perm _).symm.trans ?_
      rw [same]
      exact h.map_entryIdentity_perm source
    others := fun t held =>
      ⟨holds_of_update held changed, contents_newTable_of_lt held.id_lt c none⟩
    apart := fun edits t held => contents_foldl_edit held.id_lt edits }

/-- Copying a table into another is the union of two maps, and a copy is a new table, apart from its
source from then on. -/
theorem copyInto_merges_copy_detaches (holds : h.Holds source) (holdsOut : h.Holds out) :
    let after := h.copyInto (some source) out
    h.MergedInto source out after ∧
      (∀ c : Contents, c.entries.Perm (h.entries source) →
        (((h.setContents source c).copyInto (some source) out).entries out).Perm
          (after.entries out)) ∧
      after.copyInto (some source) out = after ∧ (source.id = out.id → after = h) ∧
      h.CopyOf source (h.copy (some source)).1 (h.copy (some source)).2 := by
  refine ⟨mergedInto_copyInto holds holdsOut, fun c => entries_copyInto_perm holds holdsOut,
    copyInto_again holds holdsOut, copyInto_self holdsOut, ?_⟩
  rw [copy_eq holds]
  obtain ⟨order, delegate⟩ := Contents.insertAll_keeps {} (h.contents source).entries
  exact copyOf_newTable holds (Contents.entries_insertAll_empty (h.contents source)) order delegate

/-- Two tables with one key in common, each with a recorded order. -/
def overlapping : Heap where
  cells := #[.fixed,
    .table (.ofOrdered [(.str "b", .bool true), (.str "a", .bool true)]),
    .table (.ofOrdered [(.str "c", .bool false), (.str "a", .bool false)])]

/-- The entries of the first table with the other one in front. -/
def overlappingTurned : Contents := .ofOrdered [(.str "a", .bool true), (.str "b", .bool true)]

theorem overlapping_copied :
    overlapping.Holds ⟨1, none⟩ ∧ overlapping.Holds ⟨2, none⟩ ∧
      let after := overlapping.copyInto (some ⟨1, none⟩) ⟨2, none⟩
      let turned := overlapping.setContents ⟨1, none⟩ overlappingTurned
      let (made, later) := overlapping.copy (some ⟨1, none⟩)
      after.entries ⟨2, none⟩ =
        [(.str "c", .bool false), (.str "a", .bool true), (.str "b", .bool true)] ∧
      overlapping.MergedInto ⟨1, none⟩ ⟨2, none⟩ after ∧
      after.contents ⟨1, none⟩ = overlapping.contents ⟨1, none⟩ ∧
      ((turned.copyInto (some ⟨1, none⟩) ⟨2, none⟩).entries ⟨2, none⟩).Perm
        (after.entries ⟨2, none⟩) ∧
      after.copyInto (some ⟨1, none⟩) ⟨2, none⟩ = after ∧
      overlapping.copyInto (some ⟨1, none⟩) ⟨1, some {}⟩ = overlapping ∧
      overlapping.keyOrder ⟨1, none⟩ = some [.str "b", .str "a"] ∧
      overlapping.CopyOf ⟨1, none⟩ made later := by
  have holds : overlapping.Holds ⟨1, none⟩ := rfl
  have holdsOut : overlapping.Holds ⟨2, none⟩ := rfl
  have holdsAlias : overlapping.Holds ⟨1, some {}⟩ := rfl
  have turned : overlappingTurned.entries.Perm (overlapping.entries ⟨1, none⟩) := .swap _ _ _
  obtain ⟨merged, anyOrder, again, _, copied⟩ := copyInto_merges_copy_detaches holds holdsOut
  obtain ⟨_, _, _, itself, _⟩ := copyInto_merges_copy_detaches holds holdsAlias
  exact ⟨holds, holdsOut, rfl, merged, merged.source (by decide), anyOrder _ turned, again,
    itself rfl, rfl, copied⟩

end Heap

end LispFrontEnd
