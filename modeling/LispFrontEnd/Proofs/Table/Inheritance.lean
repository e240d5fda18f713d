import LispFrontEnd.Proofs.Table.DelegateChain
import LispFrontEnd.Proofs.Table.Enumeration
import LispFrontEnd.Proofs.Table.Loop

/-! # Draining the cursor of a chain

While the heap does not change, the cursor of a chain yields the entries of all its levels up to the
first table that comes again, each level in canonical order and without the keys of nearer levels.
These are exactly the pairs that a lookup finds: both stop at the same table, and both prefer the
nearest level.
-/

namespace LispFrontEnd

namespace Heap

/-- The entries of the levels in canonical order, without the keys of the tables nearer than their
level. -/
def inherited (h : Heap) (nearer : List Table) : List Table → List (Key × Value)
  | [] => []
  | t :: further =>
    (h.canonicalEntries t).filter (fun entry => !nearer.any (h.containsKey · entry.1)) ++
      h.inherited (nearer ++ [t]) further

section Inherited
variable {h : Heap} {nearer levels : List Table}

theorem lacks_iff {key : Key} : (!nearer.any (h.containsKey · key)) = true ↔
    ∀ d ∈ nearer, h.containsKey d key = false := by
  simp only [Bool.not_eq_true', List.any_eq_false, Bool.not_eq_true]

theorem containsKey_eq_false_of_mem {entry : Key × Value}
    (member : entry ∈ h.inherited nearer levels) :
    ∀ d ∈ nearer, h.containsKey d entry.1 = false := by
  induction levels generalizing nearer with
  | nil => cases member
  | cons t further ih =>
    rcases List.mem_append.mp member with here | later
    · exact lacks_iff.mp (List.mem_filter.mp here).2
    · intro d inNearer
      exact ih later d (List.mem_append_left _ inNearer)

/-- Of the entries of one level those are left that no nearer table has. -/
theorem exists_mem_level {t : Table} {key : Key} {value : Value} :
    (∃ own, (own == key) = true ∧ (own, value) ∈
      (h.canonicalEntries t).filter fun entry => !nearer.any (h.containsKey · entry.1)) ↔
      (∀ d ∈ nearer, h.containsKey d key = false) ∧ h.get? t key = some value := by
  constructor
  · rintro ⟨own, same, member⟩
    obtain ⟨there, lacks⟩ := List.mem_filter.mp member
    refine ⟨fun d inNearer => ?_, exists_mem_canonicalEntries.mp ⟨own, same, there⟩⟩
    rw [← h.containsKey_congr d same]
    exact lacks_iff.mp lacks d inNearer
  · rintro ⟨lacks, found⟩
    obtain ⟨own, same, there⟩ := exists_mem_canonicalEntries.mpr found
    refine ⟨own, same, List.mem_filter.mpr ⟨there, lacks_iff.mpr fun d inNearer => ?_⟩⟩
    rw [h.containsKey_congr d same]
    exact lacks d inNearer

/-- A pair is inherited when its level is the nearest one that has the key. -/
theorem exists_mem_inherited {key : Key} {value : Value} :
    (∃ own, (own == key) = true ∧ (own, value) ∈ h.inherited nearer levels) ↔
      (∀ d ∈ nearer, h.containsKey d key = false) ∧
        levels.findSome? (h.get? · key) = some value := by
  induction levels generalizing nearer with
  | nil => simp [inherited]
  | cons t further ih =>
    rw [List.findSome?_cons]
    constructor
    · rintro ⟨own, same, member⟩
      rcases List.mem_append.mp member with here | later
      · obtain ⟨lacks, found⟩ := exists_mem_level.mp ⟨own, same, here⟩
        exact ⟨lacks, by rw [found]⟩
      · obtain ⟨lacks, found⟩ := ih.mp ⟨own, same, later⟩
        have absent := containsKey_eq_false_iff.mp (lacks t (by simp))
        refine ⟨fun d inNearer => lacks d (List.mem_append_left _ inNearer), ?_⟩
        rw [absent]
        exact found
    · rintro ⟨lacks, found⟩
      cases here : h.get? t key with
      | some stored =>
        rw [here] at found
        obtain ⟨own, same, member⟩ := exists_mem_level.mpr ⟨lacks, here.trans found⟩
        exact ⟨own, same, List.mem_append_left _ member⟩
      | none =>
        rw [here] at found
        have lacking : ∀ d ∈ nearer ++ [t], h.containsKey d key = false := by
          intro d inNearer
          rcases List.mem_append.mp inNearer with old | new
          · exact lacks d old
          · rw [List.mem_singleton.mp new, containsKey_eq_isSome_get?, here]
            rfl
        obtain ⟨own, same, member⟩ := ih.mpr ⟨lacking, found⟩
        exact ⟨own, same, List.mem_append_right _ member⟩

theorem inherited_pairwise (h : Heap) (nearer levels : List Table) :
    (h.inherited nearer levels).Pairwise fun a b => (a.1 == b.1) = false := by
  induction levels generalizing nearer with
  | nil => exact List.Pairwise.nil
  | cons t further ih =>
    refine List.pairwise_append.mpr ⟨(h.canonicalEntries_pairwise t).filter _, ih _, ?_⟩
    rintro ⟨a, value⟩ here b later
    have inT := containsKey_of_get? (mem_canonicalEntries.mp (List.mem_filter.mp here).1).2
    have notInT := containsKey_eq_false_of_mem later t (by simp)
    rw [← Bool.not_eq_true]
    intro same
    rw [h.containsKey_congr t same, notInT] at inT
    cases inT

end Inherited

end Heap

namespace ChainCursor

variable {h : Heap} {t : Table} {key : Key} {value : Value} {pending seenKeys : List Key}
  {seenTables : List Nat}

theorem toList_eq (h : Heap) (cursor : ChainCursor) :
    toList h cursor = (next h cursor).1.elim [] (· :: toList h (next h cursor).2) := by
  rw [toList]
  split
  · rename_i used
    rw [used]
    rfl
  · rename_i entry rest yielded
    change entry :: toList h rest = _
    rw [yielded]
    rfl

theorem next_mk (h : Heap) (t : Table) (pending seenKeys : List Key) (seenTables : List Nat) :
    next h ⟨some t, pending, seenKeys, seenTables⟩ = nextFrom h t pending seenKeys seenTables := rfl

theorem nextFrom_of_some {entry : Key × Value} {rest : List Key}
    (step : nextFresh h t seenKeys pending = (some entry, rest)) :
    nextFrom h t pending seenKeys seenTables =
      (some entry, ⟨some t, rest, entry.1 :: seenKeys, seenTables⟩) := by
  rw [nextFrom]
  split
  · rename_i found
    rw [step] at found
    cases found
    rfl
  · rename_i absent
    rw [step] at absent
    cases absent

theorem nextFrom_of_last {rest : List Key} (step : nextFresh h t seenKeys pending = (none, rest))
    (last : nextLevel? h t seenTables = none) :
    nextFrom h t pending seenKeys seenTables = (none, ⟨none, rest, seenKeys, seenTables⟩) := by
  rw [nextFrom]
  split
  · rename_i found
    rw [step] at found
    cases found
  · rename_i absent
    rw [step] at absent
    cases absent
    split
    · rfl
    · rename_i further
      rw [last] at further
      cases further

theorem nextFrom_of_further {rest : List Key} {d : Table}
    (step : nextFresh h t seenKeys pending = (none, rest))
    (further : nextLevel? h t seenTables = some d) :
    nextFrom h t pending seenKeys seenTables =
      nextFrom h d (h.canonicalKeys d) seenKeys (d.id :: seenTables) := by
  rw [nextFrom]
  split
  · rename_i found
    rw [step] at found
    cases found
  · split
    · rename_i last
      rw [last] at further
      cases further
    · rename_i found
      rw [found] at further
      cases further
      rfl

theorem toList_of_next_eq {a b : ChainCursor} (same : next h a = next h b) :
    toList h a = toList h b := by
  rw [toList_eq, same, ← toList_eq]

theorem toList_seen (found : h.get? t key = some value) (seen : seenKeys.contains key = true) :
    toList h ⟨some t, key :: pending, seenKeys, seenTables⟩ =
      toList h ⟨some t, pending, seenKeys, seenTables⟩ := by
  have step : nextFresh h t seenKeys (key :: pending) = nextFresh h t seenKeys pending := by
    rw [nextFresh, found]
    exact if_pos seen
  refine toList_of_next_eq ?_
  rw [next_mk, next_mk, nextFrom, step, ← nextFrom]

theorem toList_fresh (found : h.get? t key = some value)
    (fresh : seenKeys.contains key = false) :
    toList h ⟨some t, key :: pending, seenKeys, seenTables⟩ =
      (key, value) :: toList h ⟨some t, pending, key :: seenKeys, seenTables⟩ := by
  have step : nextFresh h t seenKeys (key :: pending) = (some (key, value), pending) := by
    rw [nextFresh, found]
    exact if_neg (fresh ▸ Bool.false_ne_true)
  rw [toList_eq, next_mk, nextFrom_of_some step]
  rfl

theorem toList_last (last : nextLevel? h t seenTables = none) :
    toList h ⟨some t, [], seenKeys, seenTables⟩ = [] := by
  rw [toList_eq, next_mk, nextFrom_of_last rfl last]
  rfl

theorem toList_further {d : Table} (further : nextLevel? h t seenTables = some d) :
    toList h ⟨some t, [], seenKeys, seenTables⟩ =
      toList h ⟨some d, h.canonicalKeys d, seenKeys, d.id :: seenTables⟩ :=
  toList_of_next_eq (nextFrom_of_further rfl further)

/-- The keys seen so far are those of the nearer tables and those of the table being walked that are
no longer pending. -/
structure Midway (h : Heap) (nearer : List Table) (t : Table) (pending seen : List Key) : Prop where
  present : ∀ key ∈ pending, h.containsKey t key = true
  distinct : pending.Pairwise fun a b => (a == b) = false
  seen : ∀ key, seen.contains key = true ↔ (∃ d ∈ nearer, h.containsKey d key = true) ∨
    h.containsKey t key = true ∧ ¬ pending.contains key = true

section Level
variable {nearer : List Table}

theorem Midway.start (h : Heap) (t : Table)
    (seen : ∀ key, seenKeys.contains key = true ↔ ∃ d ∈ nearer, h.containsKey d key = true) :
    Midway h nearer t (h.canonicalKeys t) seenKeys where
  present key member := Contents.containsKey_of_mem_canonicalKeys member
  distinct := (h.contents t).canonicalKeys_pairwise h.names
  seen key := by
    have pending : (h.canonicalKeys t).contains key = true ↔ h.containsKey t key = true :=
      Key.contains_iff.trans Contents.identity_mem_canonicalKeys
    rw [seen, pending, and_not_self_iff, or_false]

theorem Midway.skip (midway : Midway h nearer t (key :: pending) seenKeys)
    (seen : ∃ d ∈ nearer, h.containsKey d key = true) : Midway h nearer t pending seenKeys where
  present other member := midway.present other (List.mem_cons_of_mem key member)
  distinct := (List.pairwise_cons.mp midway.distinct).2
  seen other := by
    rw [midway.seen, List.contains_cons]
    by_cases same : (other == key) = true
    · obtain ⟨d, inNearer, there⟩ := seen
      have inOther : ∃ d ∈ nearer, h.containsKey d other = true :=
        ⟨d, inNearer, (h.containsKey_congr d same).trans there⟩
      exact iff_of_true (.inl inOther) (.inl inOther)
    · rw [Bool.eq_false_of_not_eq_true same, Bool.false_or]

theorem Midway.yield (midway : Midway h nearer t (key :: pending) seenKeys) :
    Midway h nearer t pending (key :: seenKeys) where
  present other member := midway.present other (List.mem_cons_of_mem key member)
  distinct := (List.pairwise_cons.mp midway.distinct).2
  seen other := by
    rw [List.contains_cons, Bool.or_eq_true, midway.seen, List.contains_cons]
    by_cases same : (other == key) = true
    · have inOther : h.containsKey t other = true :=
        (h.containsKey_congr t same).trans (midway.present key List.mem_cons_self)
      have passed : ¬ pending.contains other = true := by
        rw [List.contains_congr same, List.contains_iff_exists_mem_beq]
        rintro ⟨later, member, equal⟩
        rw [(List.pairwise_cons.mp midway.distinct).1 later member] at equal
        cases equal
      exact iff_of_true (.inl same) (.inr ⟨inOther, passed⟩)
    · rw [Bool.eq_false_of_not_eq_true same, Bool.false_or]
      simp

/-- Walking the rest of a level yields the entries that no nearer table has, and leaves all keys of
the table seen. -/
theorem toList_level (midway : Midway h nearer t pending seenKeys) (seenTables : List Nat) :
    ∃ seen : List Key,
      (∀ key, seen.contains key = true ↔ ∃ d ∈ nearer ++ [t], h.containsKey d key = true) ∧
      toList h ⟨some t, pending, seenKeys, seenTables⟩ =
        (pending.filterMap (h.pair? t)).filter
            (fun entry => !nearer.any (h.containsKey · entry.1)) ++
          toList h ⟨some t, [], seen, seenTables⟩ := by
  induction pending generalizing seenKeys with
  | nil =>
    refine ⟨seenKeys, fun key => ?_, rfl⟩
    rw [midway.seen]
    simp [or_and_right, exists_or]
  | cons key rest ih =>
    have present := midway.present key List.mem_cons_self
    rw [Heap.containsKey_eq_isSome_get?, Option.isSome_iff_exists] at present
    obtain ⟨value, found⟩ := present
    have entry : h.pair? t key = some (key, value) := Heap.pair?_eq_some_iff.mpr ⟨rfl, found⟩
    have seenKey := midway.seen key
    rw [List.filterMap_cons_some entry, List.filter_cons]
    by_cases inNearer : ∃ d ∈ nearer, h.containsKey d key = true
    · obtain ⟨seen, after, rest⟩ := ih (midway.skip inNearer)
      refine ⟨seen, after, ?_⟩
      rw [toList_seen found (seenKey.mpr (.inl inNearer)), rest, if_neg]
      simpa using inNearer
    · obtain ⟨seen, after, rest⟩ := ih midway.yield
      refine ⟨seen, after, ?_⟩
      have fresh : seenKeys.contains key = false := by
        rw [← Bool.not_eq_true, seenKey]
        simp [inNearer]
      rw [toList_fresh found fresh, rest, if_pos]
      · rfl
      · simpa using inNearer

theorem toList_levels {visited : List Nat}
    (seen : ∀ key, seenKeys.contains key = true ↔ ∃ d ∈ nearer, h.containsKey d key = true) :
    toList h ⟨some t, h.canonicalKeys t, seenKeys, t.id :: visited⟩ =
      h.inherited nearer (h.levelsPast visited t) := by
  fun_induction Heap.levelsPast h visited t generalizing nearer seenKeys with
  | case1 visited t last =>
    obtain ⟨after, _, level⟩ := toList_level (.start h t seen) (t.id :: visited)
    rw [level, toList_last last]
    rfl
  | case2 visited t d further lower ih =>
    obtain ⟨after, seenAfter, level⟩ := toList_level (.start h t seen) (t.id :: visited)
    rw [level, toList_further further, ih seenAfter]
    rfl

end Level

theorem toList_ofTable (h : Heap) (t : Table) :
    toList h (ofTable h t) = h.inherited [] (h.levels t) :=
  toList_levels fun key => by simp

/-- Draining the cursor of a chain ends, and yields, level by level, the pairs that a lookup finds,
each key once. -/
theorem toList_ofTable_lookup (h : Heap) (t : Table) :
    ofValue h (.node (.table t)) = .ok (ofTable h t) ∧
    (∃ levels, h.IsLevels t levels ∧ toList h (ofTable h t) = h.inherited [] levels) ∧
    (∀ key value, (∃ own, (own == key) = true ∧ (own, value) ∈ toList h (ofTable h t)) ↔
      h.lookup? t key = some value) ∧
    ((toList h (ofTable h t)).Pairwise fun a b => (a.1 == b.1) = false) ∧
    (calls next h (ofTable h t)
        (List.replicate ((toList h (ofTable h t)).length + 1) .next)).map (·.answer) =
      (toList h (ofTable h t)).map some ++ [none] := by
  refine ⟨rfl, ⟨h.levels t, h.isLevels t, toList_ofTable h t⟩, fun key value => ?_, ?_, ?_⟩
  · rw [toList_ofTable, Heap.exists_mem_inherited, Heap.lookup?_eq_findSome?]
    exact and_iff_right fun d member => absurd member List.not_mem_nil
  · rw [toList_ofTable]
    exact h.inherited_pairwise [] (h.levels t)
  · exact calls_replicate_next (toList_eq h) (ofTable h t)

end ChainCursor

end LispFrontEnd
