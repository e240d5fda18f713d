import LispFrontEnd.Table.CanonicalOrder
import LispFrontEnd.Table.Error

/-! # Stepping along a chain of delegates

A chain cursor goes through the entries of a table and then through those of its delegates, level by
level, while the heap may change between its steps. It yields a key once, from the nearest table
that has it, and never starts a table twice; so a chain that comes back to itself ends.
-/

namespace LispFrontEnd

/-- The table being walked (none when the cursor is used up), its pending keys, and the keys
yielded and tables started so far. -/
structure ChainCursor where
  current : Option Table
  pending : List Key
  seenKeys : List Key
  seenTables : List Nat

namespace ChainCursor

def ofTable (h : Heap) (t : Table) : ChainCursor := ⟨some t, h.canonicalKeys t, [], [t.id]⟩

def ofValue (h : Heap) (v : Value) : Except TableError ChainCursor :=
  match v.asTable? with
  | some t => .ok (ofTable h t)
  | none => .error (.notATable v)

/-- The next pending key that is still there and has not been yielded, and the keys after it. -/
def nextFresh (h : Heap) (t : Table) (seen : List Key) :
    List Key → Option (Key × Value) × List Key
  | [] => (none, [])
  | key :: rest =>
    match h.get? t key with
    | some value =>
      if seen.contains key then nextFresh h t seen rest else (some (key, value), rest)
    | none => nextFresh h t seen rest

/-- The next delegate, unless the chain ends or comes back to a table already started. -/
def nextLevel? (h : Heap) (t : Table) (seenTables : List Nat) : Option Table :=
  (h.delegate t).filter fun d => d.id ∉ seenTables

/-- Bounds the levels that are left: the tables not yet started, and one for a delegate outside the
heap, which has no delegate itself. -/
def levelsLeft (h : Heap) (t : Table) (seenTables : List Nat) : Nat :=
  h.unvisited seenTables + if (h.delegate t).isSome then 1 else 0

theorem levelsLeft_lt {h : Heap} {t d : Table} {seenTables : List Nat}
    (next : nextLevel? h t seenTables = some d) :
    levelsLeft h d (d.id :: seenTables) < levelsLeft h t seenTables := by
  obtain ⟨found, fresh⟩ := Option.filter_eq_some_iff.mp next
  replace fresh : d.id ∉ seenTables := by simpa using fresh
  simp only [levelsLeft, found, Option.isSome_some, ↓reduceIte]
  by_cases bound : d.id < h.cells.size
  · have := Heap.unvisited_cons_lt bound fresh
    split <;> omega
  · have same : h.unvisited (d.id :: seenTables) = h.unvisited seenTables := by
      refine congrArg List.length (List.filter_congr fun i member => ?_)
      have other : i ≠ d.id := fun same => bound (same ▸ List.mem_range.mp member)
      simp [other]
    have last : (h.delegate d).isSome = false := by
      cases beyond : h.delegate d with
      | none => rfl
      | some e => exact absurd (Heap.id_lt_of_delegate beyond) bound
    simp [same, last]

/-- One step inside the table `t` or in the tables after it. -/
def nextFrom (h : Heap) (t : Table) (pending seenKeys : List Key) (seenTables : List Nat) :
    Option (Key × Value) × ChainCursor :=
  match nextFresh h t seenKeys pending with
  | (some entry, pending) => (some entry, ⟨some t, pending, entry.1 :: seenKeys, seenTables⟩)
  | (none, pending) =>
    match next : nextLevel? h t seenTables with
    | none => (none, ⟨none, pending, seenKeys, seenTables⟩)
    | some d =>
      have := levelsLeft_lt next
      nextFrom h d (h.canonicalKeys d) seenKeys (d.id :: seenTables)
termination_by levelsLeft h t seenTables

def next (h : Heap) (cursor : ChainCursor) : Option (Key × Value) × ChainCursor :=
  match cursor.current with
  | none => (none, cursor)
  | some t => nextFrom h t cursor.pending cursor.seenKeys cursor.seenTables

/-- Bounds the entries that are left by the levels and by the keys of the level being walked. -/
def extent (h : Heap) (cursor : ChainCursor) : Nat × Nat :=
  match cursor.current with
  | none => (0, 0)
  | some t => (levelsLeft h t cursor.seenTables, cursor.pending.length)

theorem nextFresh_length_lt {h : Heap} {t : Table} {seen pending rest : List Key}
    {e : Key × Value} (yielded : nextFresh h t seen pending = (some e, rest)) :
    rest.length < pending.length := by
  fun_induction nextFresh h t seen pending with
  | case1 => cases yielded
  | case2 key pending value found repeated ih =>
    have := ih yielded
    simp only [List.length_cons]
    omega
  | case3 key pending value found fresh =>
    cases yielded
    simp
  | case4 key pending absent ih =>
    have := ih yielded
    simp only [List.length_cons]
    omega

theorem extent_nextFrom_lt {h : Heap} {t : Table} {pending seenKeys : List Key}
    {seenTables : List Nat} {e : Key × Value} {cursor : ChainCursor}
    (yielded : nextFrom h t pending seenKeys seenTables = (some e, cursor)) :
    Prod.Lex (· < ·) (· < ·) (extent h cursor) (levelsLeft h t seenTables, pending.length) := by
  fun_induction nextFrom h t pending seenKeys seenTables with
  | case1 t pending seenTables entry rest fresh =>
    cases yielded
    exact Prod.Lex.right _ (nextFresh_length_lt fresh)
  | case2 => cases yielded
  | case3 t pending seenTables rest used d next lower ih =>
    rcases Prod.lex_def.mp (ih yielded) with less | ⟨same, _⟩
    · exact Prod.lex_def.mpr (.inl (Nat.lt_trans less lower))
    · exact Prod.lex_def.mpr (.inl (same ▸ lower))

theorem extent_next_lt {h : Heap} {cursor rest : ChainCursor} {e : Key × Value}
    (yielded : next h cursor = (some e, rest)) :
    Prod.Lex (· < ·) (· < ·) (extent h rest) (extent h cursor) := by
  unfold next at yielded
  split at yielded
  · cases yielded
  · rename_i t current
    simpa only [extent, current] using extent_nextFrom_lt yielded

/-- Everything that the cursor yields while the heap does not change. -/
def toList (h : Heap) (cursor : ChainCursor) : List (Key × Value) :=
  match yielded : next h cursor with
  | (none, _) => []
  | (some e, rest) =>
    have := extent_next_lt yielded
    e :: toList h rest
termination_by extent h cursor
decreasing_by exact this

end ChainCursor

end LispFrontEnd
