import LispFrontEnd.Table.Basic

/-! # Spans written as tables

A span is read from the four string keys of a table that name its fields; other keys, and values of
the wrong type, do not count. Writing casts byte offsets to signed integers, so one from `2 ^ 63` on
becomes negative and is not read back.
-/

namespace LispFrontEnd

/-- The integer under a string key. -/
def Heap.intField? (h : Heap) (t : Table) (name : String) : Option Int :=
  match h.get? t (.str name) with
  | some (.number (.int n)) => some n.toInt
  | _ => none

namespace SourceSpan

def line? (n : Int) : Option UInt32 :=
  if 0 ≤ n ∧ n.toNat < UInt32.size then some (UInt32.ofNat n.toNat) else none

def offset? (n : Int) : Option UInt64 :=
  if 0 ≤ n then some (UInt64.ofNat n.toNat) else none

def ofTable (h : Heap) (t : Table) : SourceSpan where
  filename := (h.get? t (.str "filename")).bind Value.asStr?
  line := (h.intField? t "line").bind line?
  byteStart := (h.intField? t "bytestart").bind offset?
  byteEnd := (h.intField? t "byteend").bind offset?

/-- The fields that are present, as entries of a table. -/
def fields (span : SourceSpan) : List (Key × Value) :=
  (span.filename.toList.map fun file => (.str "filename", .str file)) ++
  (span.line.toList.map fun n => (.str "line", .number (.int n.toUInt64.toInt64))) ++
  (span.byteStart.toList.map fun n => (.str "bytestart", .number (.int n.toInt64))) ++
  (span.byteEnd.toList.map fun n => (.str "byteend", .number (.int n.toInt64)))

private theorem field_keys {α : Type} (field : Option α) (name : String) (value : α → Value) :
    ((field.toList.map fun x => (Key.str name, value x)).map (·.1)).Sublist [Key.str name] := by
  cases field with
  | none => exact List.nil_sublist _
  | some => exact List.Sublist.refl _

theorem fields_distinct (span : SourceSpan) : Assoc.Distinct span.fields := by
  have names : (span.fields.map (·.1)).Sublist
      ([.str "filename"] ++ [.str "line"] ++ [.str "bytestart"] ++ [.str "byteend"]) := by
    simp only [fields, List.map_append]
    exact (((field_keys ..).append (field_keys ..)).append (field_keys ..)).append (field_keys ..)
  have different : (span.fields.map (·.1)).Pairwise fun a b => (a == b) = false :=
    List.Pairwise.sublist names (by decide)
  exact List.pairwise_map.mp different

theorem fields_stored (span : SourceSpan) : ∀ entry ∈ span.fields, entry.2.isNil = false := by
  rcases span with ⟨_ | _, _ | _, _ | _, _ | _⟩ <;> simp [fields, Value.isNil]

def contents (span : SourceSpan) : Contents where
  entries := span.fields
  distinct := span.fields_distinct
  stored := span.fields_stored

def toTable (h : Heap) (span : SourceSpan) : Table × Heap :=
  h.newTable span.contents none

end SourceSpan

namespace Heap

/-- A symbol whose span is read from a table. -/
def newSymbolFrom (h : Heap) (name : String) (source : Table) : Symbol × Heap :=
  h.newSymbol name (some (SourceSpan.ofTable h source))

/-- A place of variadic arguments whose span is read from a table. -/
def newVargFrom (h : Heap) (source : Table) : Varg × Heap :=
  h.newVarg (some (SourceSpan.ofTable h source))

end Heap

end LispFrontEnd
