import LispFrontEnd.Assoc
import LispFrontEnd.Syntax.Value

/-! # The contents of tables

A table maps keys to values other than nil; storing nil takes the key out. Beside its entries, which
stand in no promised order, it may have an order of keys that its reader has recorded, and a
delegate: the table that is asked for keys this one lacks. No two of its keys are equal and none of
its values is nil: every operation has to prove this of the contents that it makes.
-/

namespace LispFrontEnd

theorem stored_nil : ∀ entry ∈ ([] : Assoc Key Value), entry.2.isNil = false :=
  List.forall_mem_nil _

structure Contents where
  entries : Assoc Key Value := []
  order : Option (List Key) := none
  delegate : Option Table := none
  distinct : Assoc.Distinct entries := by exact Assoc.Distinct.nil
  stored : ∀ entry ∈ entries, entry.2.isNil = false := by exact stored_nil

namespace Contents

def get? (c : Contents) (key : Key) : Option Value := Assoc.get? c.entries key

def containsKey (c : Contents) (key : Key) : Bool := Assoc.contains c.entries key

def keys (c : Contents) : List Key := Assoc.keys c.entries

def erase (c : Contents) (key : Key) : Contents :=
  { c with
    entries := Assoc.erase c.entries key
    distinct := c.distinct.erase key
    stored := fun entry member => c.stored entry (List.mem_filter.mp member).1 }

theorem stored_insert {entries : Assoc Key Value} {key : Key} {value : Value}
    (stored : ∀ entry ∈ entries, entry.2.isNil = false) (present : value.isNil = false) :
    ∀ entry ∈ Assoc.insert entries key value, entry.2.isNil = false := by
  intro entry member
  rcases Assoc.mem_insert member with old | ⟨rfl, _⟩
  · exact stored entry old
  · exact present

def insert (c : Contents) (key : Key) (value : Value) : Contents :=
  if nil : value.isNil then c.erase key
  else
    { c with
      entries := Assoc.insert c.entries key value
      distinct := c.distinct.insert key value
      stored := stored_insert c.stored (by simpa using nil) }

theorem insert_keeps (c : Contents) (key : Key) (value : Value) :
    (c.insert key value).order = c.order ∧ (c.insert key value).delegate = c.delegate := by
  rw [insert]
  split <;> exact ⟨rfl, rfl⟩

/-- Any number of entries may be inserted, each under a key that may depend on those before. -/
theorem foldl_insert_keeps {α : Type} (key : Contents → α → Key) (value : α → Value)
    (c : Contents) (items : List α) :
    let made := items.foldl (fun c item => c.insert (key c item) (value item)) c
    made.order = c.order ∧ made.delegate = c.delegate := by
  induction items generalizing c with
  | nil => exact ⟨rfl, rfl⟩
  | cons item rest ih =>
    obtain ⟨order, delegate⟩ := c.insert_keeps (key c item) (value item)
    obtain ⟨orderLast, delegateLast⟩ := ih (c.insert (key c item) (value item))
    exact ⟨orderLast.trans order, delegateLast.trans delegate⟩

/-- The greatest `n` such that all of `1, …, n` are keys. -/
def border (c : Contents) : Nat :=
  ((List.range c.entries.length).takeWhile fun i =>
    c.containsKey (.int (Int64.ofNat (i + 1)))).length

/-- Stores a value under the first positive integer that is not a key. -/
def push (c : Contents) (value : Value) : Contents :=
  c.insert (.int (Int64.ofNat (c.border + 1))) value

/-- The entries that are not nil, a later one overriding an earlier with its key, and the order of
all keys recorded. -/
def ofOrdered (entries : List (Key × Value)) : Contents where
  entries := Assoc.ofList (entries.filter fun entry => !entry.2.isNil)
  order := some (entries.map (·.1))
  distinct := Assoc.distinct_ofList _
  stored := List.foldlRecOn
    (motive := fun m : Assoc Key Value => ∀ entry ∈ m, entry.2.isNil = false) _ _ stored_nil
    fun _ stored pair member => stored_insert stored (by simpa using (List.mem_filter.mp member).2)

end Contents

end LispFrontEnd
