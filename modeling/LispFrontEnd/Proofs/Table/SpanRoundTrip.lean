import LispFrontEnd.Proofs.Assoc
import LispFrontEnd.Proofs.Syntax.Identity
import LispFrontEnd.Table.SpanFields
import Mathlib.Data.UInt

/-! # Spans read back

A span that is written as a table and read from it again has lost its byte offsets from `2 ^ 63` on
and nothing else: as a signed integer such an offset is negative, and negative offsets are not read.
So reading undoes writing exactly for the spans whose offsets are all below `2 ^ 63`.
-/

namespace LispFrontEnd

variable {α : Type}

namespace SourceSpan

theorem toInt_toInt64 (n : UInt64) :
    n.toInt64.toInt = if n.toNat < 2 ^ 63 then (n.toNat : Int) else n.toNat - 2 ^ 64 := by
  change n.toBitVec.toInt = _
  rw [BitVec.toInt_eq_toNat_cond]
  change (if 2 * n.toNat < 2 ^ 64 then (n.toNat : Int) else n.toNat - (2 ^ 64 : Nat)) = _
  split <;> split <;> omega

theorem offset?_toInt64 (n : UInt64) :
    offset? n.toInt64.toInt = if n.toNat < 2 ^ 63 then some n else none := by
  have bound : n.toNat < 2 ^ 64 := n.toNat_lt
  rw [toInt_toInt64]
  split
  · rw [offset?, if_pos (Int.natCast_nonneg _), Int.toNat_natCast, UInt64.ofNat_toNat]
  · exact if_neg (by omega)

theorem line?_toInt64 (n : UInt32) : line? n.toUInt64.toInt64.toInt = some n := by
  have bound : n.toNat < 2 ^ 32 := n.toNat_lt
  have wide : n.toUInt64.toNat = n.toNat := rfl
  rw [toInt_toInt64, if_pos (by omega), wide, line?, if_pos ⟨Int.natCast_nonneg _, bound⟩,
    Int.toNat_natCast, UInt32.ofNat_toNat]

theorem get?_field (field : Option α) (name key : String) (value : α → Value) :
    Assoc.get? (field.toList.map fun x => (Key.str name, value x)) (.str key) =
      if key = name then field.map value else none := by
  have sameKey : (Key.str name == Key.str key) = decide (key = name) := by
    rw [Bool.eq_iff_iff, Key.beq_iff, decide_eq_true_iff, Key.identity, Key.identity,
      KeyIdentity.str.injEq, eq_comm]
  cases field with
  | none => simp [Assoc.get?]
  | some x => by_cases same : key = name <;> simp [Assoc.get?, sameKey, same]

/-- What is written under each string. -/
def written (span : SourceSpan) : String → Option Value
  | "filename" => span.filename.map .str
  | "line" => span.line.map fun n => .number (.int n.toUInt64.toInt64)
  | "bytestart" => span.byteStart.map fun n => .number (.int n.toInt64)
  | "byteend" => span.byteEnd.map fun n => .number (.int n.toInt64)
  | _ => none

theorem get?_toTable (h : Heap) (span : SourceSpan) (name : String) :
    (span.toTable h).2.get? (span.toTable h).1 (.str name) = span.written name := by
  rw [Heap.get?, toTable, Heap.contents_newTable]
  change Assoc.get? span.fields _ = _
  simp only [fields, Assoc.get?_append, get?_field]
  fun_cases written span name <;> simp_all

theorem intField?_toTable (h : Heap) (span : SourceSpan) {name : String} {field : Option α}
    {cast : α → Int64} (under : span.written name = field.map fun n => .number (.int (cast n))) :
    (span.toTable h).2.intField? (span.toTable h).1 name = field.map fun n => (cast n).toInt := by
  rw [Heap.intField?, get?_toTable, under]
  cases field <;> rfl

/-- A span without the byte offsets that no signed integer of 64 bits holds. -/
def withinInt64 (span : SourceSpan) : SourceSpan :=
  { span with
    byteStart := span.byteStart.filter (·.toNat < 2 ^ 63)
    byteEnd := span.byteEnd.filter (·.toNat < 2 ^ 63) }

theorem bind_offset? (field : Option UInt64) :
    (field.map fun n => n.toInt64.toInt).bind offset? = field.filter (·.toNat < 2 ^ 63) := by
  cases field with
  | none => rfl
  | some n =>
    rw [Option.map_some, Option.bind_some, offset?_toInt64, Option.filter_some]
    simp only [decide_eq_true_eq]

theorem bind_line? (field : Option UInt32) :
    (field.map fun n => n.toUInt64.toInt64.toInt).bind line? = field := by
  cases field with
  | none => rfl
  | some n => exact line?_toInt64 n

theorem bind_asStr? (field : Option String) : (field.map Value.str).bind Value.asStr? = field := by
  cases field <;> rfl

theorem ofTable_written (h : Heap) (span : SourceSpan) :
    ofTable (span.toTable h).2 (span.toTable h).1 = span.withinInt64 := by
  have line : (span.toTable h).2.intField? (span.toTable h).1 "line" = _ :=
    intField?_toTable h span rfl
  have byteStart : (span.toTable h).2.intField? (span.toTable h).1 "bytestart" = _ :=
    intField?_toTable h span rfl
  have byteEnd : (span.toTable h).2.intField? (span.toTable h).1 "byteend" = _ :=
    intField?_toTable h span rfl
  simp only [ofTable, withinInt64, get?_toTable, written, line, byteStart, byteEnd, bind_asStr?,
    bind_line?, bind_offset?]

theorem filter_eq_self_iff {p : α → Bool} {field : Option α} :
    field.filter p = field ↔ ∀ x ∈ field, p x = true := by
  cases field with
  | none => simp
  | some x => simp [Option.filter_some]

theorem withinInt64_eq_self_iff {span : SourceSpan} :
    span.withinInt64 = span ↔
      (∀ n ∈ span.byteStart, n.toNat < 2 ^ 63) ∧ ∀ n ∈ span.byteEnd, n.toNat < 2 ^ 63 := by
  cases span
  simp only [withinInt64, mk.injEq, true_and, filter_eq_self_iff, decide_eq_true_eq]

/-- Reading a written span loses its byte offsets from `2 ^ 63` on, and gives the span again exactly
when there are none. -/
theorem ofTable_toTable (h : Heap) (span : SourceSpan) :
    let (t, later) := span.toTable h
    ofTable later t = span.withinInt64 ∧
      (ofTable later t = span ↔
        (∀ n ∈ span.byteStart, n.toNat < 2 ^ 63) ∧ ∀ n ∈ span.byteEnd, n.toNat < 2 ^ 63) := by
  have back := ofTable_written h span
  exact ⟨back, back ▸ withinInt64_eq_self_iff⟩

/-- The first byte offset that is lost. -/
def farStart : SourceSpan := { byteStart := some (2 ^ 63) }

theorem farStart_not_read_back :
    let (t, later) := farStart.toTable {}
    ofTable later t = {} ∧ ofTable later t ≠ farStart := by
  decide +kernel

end SourceSpan

end LispFrontEnd
