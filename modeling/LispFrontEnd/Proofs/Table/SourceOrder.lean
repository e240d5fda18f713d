import LispFrontEnd.Proofs.Table.PartialMap

/-! # Tables in the order of their source

A table that is made from a list of pairs at once records all their keys in order, and is otherwise
the table into which the pairs that are not nil are inserted one after the other. To insert all
pairs is another matter: there nil takes out what an earlier pair has stored. So the two ways differ
at the withdrawn keys, those whose last pair is nil and that have an earlier pair that is not, and
at no others.
-/

namespace LispFrontEnd

/-- The last pair of a list under a key. -/
def lastUnder? (pairs : List (Key × Value)) (key : Key) : Option (Key × Value) :=
  pairs.reverse.find? (·.1 == key)

/-- The last pair under a key is nil although there is one that is not. -/
def Withdrawn (pairs : List (Key × Value)) (key : Key) : Prop :=
  (∃ last ∈ lastUnder? pairs key, last.2.isNil = true) ∧
    ∃ pair ∈ pairs, (pair.1 == key) = true ∧ pair.2.isNil = false

variable {pairs : List (Key × Value)} {pair : Key × Value} {key : Key}

theorem lastUnder?_eq_none_iff :
    lastUnder? pairs key = none ↔ ∀ pair ∈ pairs, ¬(pair.1 == key) = true := by
  simp only [lastUnder?, List.find?_eq_none, List.mem_reverse]

theorem lastUnder?_present (last : lastUnder? pairs key = some pair)
    (present : pair.2.isNil = false) :
    lastUnder? (pairs.filter (!·.2.isNil)) key = some pair := by
  rw [lastUnder?, List.find?_eq_some_iff_append] at last
  obtain ⟨same, later, earlier, split, others⟩ := last
  rw [lastUnder?, ← List.filter_reverse, split, List.filter_append,
    List.filter_cons_of_pos (by simp [present]), List.find?_append, List.find?_cons, same]
  have none : (later.filter (!·.2.isNil)).find? (·.1 == key) = none := by
    refine List.find?_eq_none.mpr fun entry member => ?_
    simpa using others entry (List.mem_filter.mp member).1
  rw [none]
  rfl

namespace Contents

/-- Inserts pairs one after the other. -/
def insertAll (c : Contents) (pairs : List (Key × Value)) : Contents :=
  pairs.foldl (fun c pair => c.insert pair.1 pair.2) c

/-- Of the pairs under a key the last one counts, and there nil leaves nothing. -/
theorem get?_insertAll (pairs : List (Key × Value)) (key : Key) :
    (insertAll {} pairs).get? key = ((lastUnder? pairs key).map (·.2)).filter (!·.isNil) := by
  induction pairs using List.reverseRecOn with
  | nil => rfl
  | append_singleton pairs pair ih =>
    have last : insertAll {} (pairs ++ [pair]) = (insertAll {} pairs).insert pair.1 pair.2 := by
      rw [insertAll, List.foldl_append]
      rfl
    rw [last, get?_insert, ih, lastUnder?, lastUnder?, List.reverse_append, List.reverse_singleton,
      List.singleton_append, List.find?_cons]
    cases pair.1 == key <;> rfl

theorem entries_insertAll (c : Contents) (present : ∀ pair ∈ pairs, pair.2.isNil = false) :
    (c.insertAll pairs).entries =
      pairs.foldl (fun m pair => Assoc.insert m pair.1 pair.2) c.entries := by
  induction pairs generalizing c with
  | nil => rfl
  | cons pair rest ih =>
    obtain ⟨first, others⟩ := List.forall_mem_cons.mp present
    have stored : (c.insert pair.1 pair.2).entries = Assoc.insert c.entries pair.1 pair.2 := by
      rw [insert, dif_neg (by simp [first])]
    rw [List.foldl_cons, ← stored]
    exact ih (c.insert pair.1 pair.2) others

/-- What is made at once is what the pairs that are not nil make one after the other. -/
theorem entries_ofOrdered (pairs : List (Key × Value)) :
    (ofOrdered pairs).entries = (insertAll {} (pairs.filter (!·.2.isNil))).entries := by
  rw [entries_insertAll {} fun pair member => by simpa using (List.mem_filter.mp member).2]
  rfl

/-- Of the pairs under a key the last one that is not nil counts. -/
theorem get?_ofOrdered (pairs : List (Key × Value)) (key : Key) :
    (ofOrdered pairs).get? key = (lastUnder? (pairs.filter (!·.2.isNil)) key).map (·.2) := by
  rw [get?, entries_ofOrdered]
  refine (get?_insertAll _ key).trans ?_
  cases found : lastUnder? (pairs.filter (!·.2.isNil)) key with
  | none => rfl
  | some pair =>
    have member := List.mem_reverse.mp (List.mem_of_find?_eq_some found)
    rw [Option.map_some, Option.filter_some, (List.mem_filter.mp member).2]
    rfl

theorem get?_ofOrdered_eq_none_iff : (ofOrdered pairs).get? key = none ↔
    ∀ pair ∈ pairs, (pair.1 == key) = true → pair.2.isNil = true := by
  rw [get?_ofOrdered, Option.map_eq_none_iff, lastUnder?_eq_none_iff]
  refine forall_congr' fun pair => ?_
  rw [List.mem_filter, Bool.not_eq_true', ← Bool.not_eq_true]
  tauto

/-- The two ways of making a table differ under the withdrawn keys alone. -/
theorem get?_ofOrdered_eq_iff (pairs : List (Key × Value)) (key : Key) :
    (ofOrdered pairs).get? key = (insertAll {} pairs).get? key ↔ ¬Withdrawn pairs key := by
  rw [get?_insertAll]
  cases last : lastUnder? pairs key with
  | none =>
    have absent := lastUnder?_eq_none_iff.mp last
    have alike : (ofOrdered pairs).get? key = none :=
      get?_ofOrdered_eq_none_iff.mpr fun pair member same => absurd same (absent pair member)
    exact iff_of_true alike fun ⟨⟨_, found, _⟩, _⟩ => by simp [last] at found
  | some pair =>
    rw [Option.map_some, Option.filter_some]
    cases nil : pair.2.isNil with
    | false =>
      refine iff_of_true ?_ fun ⟨⟨_, found, isNil⟩, _⟩ => ?_
      · rw [get?_ofOrdered, lastUnder?_present last nil]
        rfl
      · obtain rfl := Option.some.inj (last.symm.trans found)
        simp [nil] at isNil
    | true =>
      refine get?_ofOrdered_eq_none_iff.trans ?_
      have isLast : ∃ own ∈ lastUnder? pairs key, own.2.isNil = true := ⟨pair, last, nil⟩
      simp only [Withdrawn, isLast, true_and, not_exists, not_and, Bool.not_eq_false]

theorem get?_of_withdrawn (withdrawn : Withdrawn pairs key) :
    (insertAll {} pairs).get? key = none ∧ ((ofOrdered pairs).get? key).isSome = true := by
  obtain ⟨⟨last, found, isNil⟩, pair, member, same, present⟩ := withdrawn
  constructor
  · rw [get?_insertAll, Option.mem_def.mp found, Option.map_some, Option.filter_some, isNil]
    rfl
  · rw [Option.isSome_iff_ne_none, Ne, get?_ofOrdered_eq_none_iff]
    intro allNil
    rw [allNil pair member same] at present
    cases present

end Contents

namespace Heap

/-- Inserts pairs into a table one after the other. -/
def insertAll (h : Heap) (t : Table) (pairs : List (Key × Value)) : Heap :=
  pairs.foldl (fun h pair => (h.insert t pair.1 pair.2).2) h

theorem contents_insertAll {h : Heap} {t : Table} (bound : t.id < h.cells.size)
    (pairs : List (Key × Value)) :
    (h.insertAll t pairs).contents t = (h.contents t).insertAll pairs := by
  induction pairs generalizing h with
  | nil => rfl
  | cons pair rest ih =>
    have stored : (h.insert t pair.1 pair.2).2.contents t =
        (h.contents t).insert pair.1 pair.2 := contents_setContents bound _
    rw [insertAll, List.foldl_cons, Contents.insertAll, List.foldl_cons, ← stored]
    exact ih (lt_of_lt_of_eq bound (h.size_setContents t _).symm)

/-- A table made from pairs at once is one into which those that are not nil are inserted; inserting
all differs at the withdrawn keys alone. -/
theorem newOrderedTable_inserted (h : Heap) (pairs : List (Key × Value))
    (span : Option SourceSpan) :
    let (made, ordered) := h.newOrderedTable pairs span
    let (fresh, empty) := h.newTable {} span
    ordered.keyOrder made = some (pairs.map (·.1)) ∧
      ordered.entries made = (empty.insertAll fresh (pairs.filter (!·.2.isNil))).entries fresh ∧
      ∀ key,
        (ordered.get? made key = (empty.insertAll fresh pairs).get? fresh key ↔
          ¬Withdrawn pairs key) ∧
        (Withdrawn pairs key → (empty.insertAll fresh pairs).get? fresh key = none ∧
          (ordered.get? made key).isSome = true) := by
  have ordered := h.contents_newTable (.ofOrdered pairs) span
  have inserted (pairs : List (Key × Value)) :
      ((h.newTable {} span).2.insertAll (h.newTable {} span).1 pairs).contents
        (h.newTable {} span).1 = Contents.insertAll {} pairs := by
    rw [contents_insertAll (by simp [newTable, alloc]), contents_newTable]
  dsimp only
  simp only [newOrderedTable, keyOrder, entries, get?, ordered, inserted]
  exact ⟨rfl, Contents.entries_ofOrdered pairs, fun key =>
    ⟨Contents.get?_ofOrdered_eq_iff pairs key, Contents.get?_of_withdrawn⟩⟩

/-- The first entry stays, although the second would take it out. -/
def storedThenNil : List (Key × Value) := [(.str "a", .bool true), (.str "a", .nil)]

theorem storedThenNil_stays :
    let (made, ordered) := ({} : Heap).newOrderedTable storedThenNil none
    let (fresh, empty) := ({} : Heap).newTable {} none
    (ordered.get? made (.str "a")).isSome = true ∧
      (empty.insertAll fresh storedThenNil).get? fresh (.str "a") = none := by
  exact ⟨rfl, rfl⟩

end Heap

end LispFrontEnd
