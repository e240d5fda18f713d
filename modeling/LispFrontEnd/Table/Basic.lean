import LispFrontEnd.Heap.Basic

/-! # Tables

The operations on the tables of a heap. `get?` reads one table; `lookup?` also asks the chain of
delegates, nearest first, and gives up at the first table that it meets again.
-/

namespace LispFrontEnd.Heap

def contents (h : Heap) (t : Table) : Contents :=
  match h.cells[t.id]? with
  | some (.table contents) => contents
  | _ => {}

def setContents (h : Heap) (t : Table) (contents : Contents) : Heap :=
  { h with cells := h.cells.setIfInBounds t.id (.table contents) }

def entries (h : Heap) (t : Table) : List (Key × Value) := (h.contents t).entries

def keys (h : Heap) (t : Table) : List Key := (h.contents t).keys

def get? (h : Heap) (t : Table) (key : Key) : Option Value := (h.contents t).get? key

def containsKey (h : Heap) (t : Table) (key : Key) : Bool := (h.contents t).containsKey key

def entryCount (h : Heap) (t : Table) : Nat := (h.contents t).entries.length

def isEmpty (h : Heap) (t : Table) : Bool := (h.contents t).entries.isEmpty

def border (h : Heap) (t : Table) : Nat := (h.contents t).border

def keyOrder (h : Heap) (t : Table) : Option (List Key) := (h.contents t).order

def delegate (h : Heap) (t : Table) : Option Table := (h.contents t).delegate

/-- Answers the value that was under the key before. -/
def insert (h : Heap) (t : Table) (key : Key) (value : Value) : Option Value × Heap :=
  (h.get? t key, h.setContents t ((h.contents t).insert key value))

/-- Answers the value that was under the key before. -/
def erase (h : Heap) (t : Table) (key : Key) : Option Value × Heap :=
  (h.get? t key, h.setContents t ((h.contents t).erase key))

def push (h : Heap) (t : Table) (value : Value) : Heap :=
  h.setContents t ((h.contents t).push value)

def setKeyOrder (h : Heap) (t : Table) (order : Option (List Key)) : Heap :=
  h.setContents t { h.contents t with order }

def setDelegate (h : Heap) (t : Table) (delegate : Option Table) : Heap :=
  h.setContents t { h.contents t with delegate }

/-- A table as a reader makes it: in the order of its source. -/
def newOrderedTable (h : Heap) (entries : List (Key × Value)) (span : Option SourceSpan) :
    Table × Heap :=
  h.newTable (.ofOrdered entries) span

theorem contents_newTable (h : Heap) (c : Contents) (span : Option SourceSpan) :
    (h.newTable c span).2.contents (h.newTable c span).1 = c := by
  simp [newTable, alloc, contents]

theorem contents_congr {h : Heap} {t u : Table} (same : t.id = u.id) :
    h.contents t = h.contents u := by
  rw [contents, contents, same]

theorem contents_setContents {h : Heap} {t : Table} (bound : t.id < h.cells.size) (c : Contents) :
    (h.setContents t c).contents t = c := by
  simp only [contents, setContents, Array.getElem?_setIfInBounds_self_of_lt bound]

theorem contents_setContents_of_ne {h : Heap} {t u : Table} (other : t.id ≠ u.id) (c : Contents) :
    (h.setContents u c).contents t = h.contents t := by
  simp only [contents, setContents, Array.getElem?_setIfInBounds_ne (Ne.symm other)]

/-- What is read of a table stays as it was when the new contents agree with the old ones in it. -/
theorem read_setContents {α : Type} {h : Heap} {t u : Table} {c : Contents} (read : Contents → α)
    (same : t.id = u.id → read c = read (h.contents u)) :
    read ((h.setContents u c).contents t) = read (h.contents t) := by
  by_cases here : t.id = u.id
  · rw [contents_congr here, contents_congr here]
    by_cases bound : u.id < h.cells.size
    · rw [contents_setContents bound, same here]
    · rw [setContents, Array.setIfInBounds_eq_of_size_le (Nat.le_of_not_lt bound)]
  · rw [contents_setContents_of_ne here]

theorem size_setContents (h : Heap) (t : Table) (c : Contents) :
    (h.setContents t c).cells.size = h.cells.size :=
  Array.size_setIfInBounds

theorem setContents_setContents (h : Heap) (t : Table) (first second : Contents) :
    (h.setContents t first).setContents t second = h.setContents t second := by
  simp only [setContents, Array.setIfInBounds_setIfInBounds]

/-- How many nodes of the heap are not in a list. -/
def unvisited (h : Heap) (visited : List Nat) : Nat :=
  ((List.range h.cells.size).filter (· ∉ visited)).length

theorem id_lt_of_delegate {h : Heap} {t d : Table} (next : h.delegate t = some d) :
    t.id < h.cells.size := by
  by_cases bound : t.id < h.cells.size
  · exact bound
  · simp [delegate, contents, Array.getElem?_eq_none (Nat.le_of_not_lt bound)] at next

theorem unvisited_cons_lt {h : Heap} {visited : List Nat} {id : Nat}
    (bound : id < h.cells.size) (fresh : id ∉ visited) :
    h.unvisited (id :: visited) < h.unvisited visited := by
  have split : (List.range h.cells.size).filter (· ∉ id :: visited) =
      ((List.range h.cells.size).filter (· ∉ visited)).filter (· ≠ id) := by
    rw [List.filter_filter]
    exact List.filter_congr (fun i _ => by simp [not_or])
  have member : id ∈ (List.range h.cells.size).filter (· ∉ visited) := by
    simp [bound, fresh]
  rw [unvisited, split]
  exact List.length_filter_lt_length_iff_exists.mpr ⟨id, member, by simp⟩

/-- The value under a key in the nearest table of the chain that has the key. -/
def lookupPast? (h : Heap) (key : Key) (visited : List Nat) (t : Table) : Option Value :=
  if seen : t.id ∈ visited then none
  else
    match h.get? t key with
    | some value => some value
    | none =>
      match next : h.delegate t with
      | none => none
      | some d =>
        have := unvisited_cons_lt (id_lt_of_delegate next) seen
        lookupPast? h key (t.id :: visited) d
termination_by h.unvisited visited

def lookup? (h : Heap) (t : Table) (key : Key) : Option Value := h.lookupPast? key [] t

end LispFrontEnd.Heap
