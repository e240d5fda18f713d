import LispFrontEnd.Proofs.Text.ByteOrder
import LispFrontEnd.Table.CanonicalOrder
import Mathlib.Data.Prod.Lex

/-! # The order of sort keys

Sort keys are linearly ordered: by the bytes of their labels, then by rank, then by serial number.
-/

namespace LispFrontEnd.SortKey

/-- Ascending, or equal: by the bytes of the label first. -/
def Precedes (a b : SortKey) : Prop :=
  Text.utf8 a.label < Text.utf8 b.label ∨
    Text.utf8 a.label = Text.utf8 b.label ∧
      (a.rank < b.rank ∨ a.rank = b.rank ∧ a.serial ≤ b.serial)

/-- A sort key in the lexicographic product of the orders of its parts. -/
def parts (k : SortKey) : String ×ₗ ℕ ×ₗ ℕ := toLex (k.label, toLex (k.rank, k.serial))

theorem parts_injective {a b : SortKey} (same : a.parts = b.parts) : a = b := by
  obtain ⟨label, numbers⟩ := Prod.mk.inj same
  obtain ⟨rank, serial⟩ := Prod.mk.inj numbers
  cases a
  cases b
  exact SortKey.mk.injEq .. ▸ ⟨label, rank, serial⟩

theorem le_iff_parts {a b : SortKey} : a.le b = true ↔ a.parts ≤ b.parts := by
  rw [le, parts, parts, Prod.Lex.toLex_le_toLex, Prod.Lex.toLex_le_toLex]
  by_cases label : a.label = b.label
  · by_cases rank : a.rank = b.rank <;> simp [label, rank]
  · simp [label]

theorem le_iff_precedes {a b : SortKey} : a.le b = true ↔ a.Precedes b := by
  rw [le_iff_parts, parts, parts, Prod.Lex.toLex_le_toLex, Prod.Lex.toLex_le_toLex, Precedes,
    ← Text.lt_iff_utf8_lt, Text.utf8_inj]

theorem le_total (a b : SortKey) : (a.le b || b.le a) = true := by
  rw [Bool.or_eq_true, le_iff_parts, le_iff_parts]
  exact LinearOrder.le_total a.parts b.parts

theorem le_trans {a b c : SortKey} (first : a.le b = true) (second : b.le c = true) :
    a.le c = true := by
  rw [le_iff_parts] at first second ⊢
  exact first.trans second

theorem le_antisymm {a b : SortKey} (forth : a.le b = true) (back : b.le a = true) : a = b := by
  rw [le_iff_parts] at forth back
  exact parts_injective (forth.antisymm back)

end LispFrontEnd.SortKey
