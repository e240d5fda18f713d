import LispFrontEnd.Table.CanonicalOrder

/-! # Stepping through one table

An entry cursor goes through the entries of a table in canonical order while the heap may change
between its steps. The keys are fixed when the cursor is made; each value is read when the cursor
comes to its key, so keys that are gone by then are skipped and keys that are new are not seen.
-/

namespace LispFrontEnd

structure EntryCursor where
  table : Table
  pending : List Key

namespace EntryCursor

def ofTable (h : Heap) (t : Table) : EntryCursor := ⟨t, h.canonicalKeys t⟩

/-- The next pending key that is still there, and the keys after it. -/
def nextPending (h : Heap) (t : Table) : List Key → Option (Key × Value) × List Key
  | [] => (none, [])
  | key :: rest =>
    match h.get? t key with
    | some value => (some (key, value), rest)
    | none => nextPending h t rest

def next (h : Heap) (cursor : EntryCursor) : Option (Key × Value) × EntryCursor :=
  let (entry, pending) := nextPending h cursor.table cursor.pending
  (entry, { cursor with pending })

theorem nextPending_length_lt {h : Heap} {t : Table} {pending rest : List Key} {e : Key × Value}
    (yielded : nextPending h t pending = (some e, rest)) : rest.length < pending.length := by
  fun_induction nextPending h t pending with
  | case1 => cases yielded
  | case2 key pending value found =>
    cases yielded
    simp
  | case3 key pending absent ih =>
    have := ih yielded
    simp only [List.length_cons]
    omega

theorem next_length_lt {h : Heap} {cursor rest : EntryCursor} {e : Key × Value}
    (yielded : next h cursor = (some e, rest)) : rest.pending.length < cursor.pending.length := by
  obtain ⟨found, same⟩ := Prod.mk.inj yielded
  subst same
  exact nextPending_length_lt (Prod.ext found rfl)

/-- Everything that the cursor yields while the heap does not change. -/
def toList (h : Heap) (cursor : EntryCursor) : List (Key × Value) :=
  match yielded : next h cursor with
  | (none, _) => []
  | (some e, rest) =>
    have := next_length_lt yielded
    e :: toList h rest
termination_by cursor.pending.length

end EntryCursor

end LispFrontEnd
