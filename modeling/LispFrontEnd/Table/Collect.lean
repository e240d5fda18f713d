import LispFrontEnd.Table.CanonicalOrder

/-! # Making tables from tables

`collectInto` passes the entries of a table, in canonical order, to a callback and stores what comes
back in another table, which may be the same one. The keys are fixed at the start, and an entry that
is gone when its turn comes is left out. `copyInto` stores all entries of a table in another.
-/

namespace LispFrontEnd

/-- What a callback makes of one entry: a value for the next free position, or a new entry. -/
inductive Collected where
  | value (value : Value)
  | entry (key : Key) (value : Value)

namespace Heap

variable {σ : Type}

/-- A callback on entries that may change the heap and carries a state of its own. -/
abbrev EntryCallback (σ : Type) := Key → Value → Heap × σ → Option Collected × (Heap × σ)

def store (h : Heap) (out : Table) : Option Collected → Heap
  | none => h
  | some (.value v) => h.push out v
  | some (.entry k v) => (h.insert out k v).2

/-- Passes one entry on, if it is still there. -/
def collectEntry (source out : Table) (f : EntryCallback σ) (state : Heap × σ) (key : Key) :
    Heap × σ :=
  match state.1.get? source key with
  | none => state
  | some value =>
    let (collected, h, s) := f key value state
    (h.store out collected, s)

def collectInto (source out : Table) (f : EntryCallback σ) (state : Heap × σ) : Heap × σ :=
  (state.1.canonicalKeys source).foldl (collectEntry source out f) state

/-- Collects into a new table. -/
def collect (source : Table) (f : EntryCallback σ) (state : Heap × σ) : Table × (Heap × σ) :=
  let (out, h) := state.1.newTable {} none
  (out, collectInto source out f (h, state.2))

/-- Copies nothing when there is no table to copy from. -/
def copyInto (h : Heap) (source : Option Table) (out : Table) : Heap :=
  match source with
  | none => h
  | some source => (h.entries source).foldl (fun h entry => (h.insert out entry.1 entry.2).2) h

/-- A new table with the entries of another, but not its recorded order, delegate or span. -/
def copy (h : Heap) (source : Option Table) : Table × Heap :=
  let (out, h) := h.newTable {} none
  (out, h.copyInto source out)

end Heap

end LispFrontEnd
