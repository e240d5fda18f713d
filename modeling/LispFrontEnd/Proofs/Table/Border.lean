import LispFrontEnd.Proofs.Table.CanonicalOrder
import Mathlib.Data.UInt
import Mathlib.Order.Bounds.Defs

/-! # The border of a table

All positions up to the border are keys, and as long as a table has fewer entries than there are
positive integers the next position is not: one more key than entries would be too many. So what is
pushed comes to the least free position, and nothing is overwritten.
-/

namespace LispFrontEnd

theorem exists_ofNat {p : Int64} (positive : 0 < p) :
    ∃ i, p = Int64.ofNat (i + 1) ∧ i + 1 < 2 ^ 63 := by
  have above : 0 < p.toInt := Int64.lt_iff_toInt_lt.mp positive
  have below := p.toInt_lt
  refine ⟨p.toInt.toNat - 1, ?_, by omega⟩
  rw [← Int64.toInt_inj, Int64.toInt_ofNat_of_lt (by omega)]
  omega

/-- The positions up to a number are different keys. -/
theorem nodup_positions {n : Nat} (small : n < 2 ^ 63) :
    ((List.range n).map fun i => (Key.int (Int64.ofNat (i + 1))).identity).Nodup := by
  refine List.nodup_range.map_on fun i inRange j inRange' same => ?_
  rw [List.mem_range] at inRange inRange'
  have equal := congrArg Int64.toInt (KeyIdentity.int.inj same)
  rw [Int64.toInt_ofNat_of_lt (by omega), Int64.toInt_ofNat_of_lt (by omega)] at equal
  omega

namespace Contents

variable {c : Contents} {value : Value}

theorem border_eq_findIdx (c : Contents) :
    c.border = (List.range c.entries.length).findIdx fun i =>
      !c.containsKey (.int (Int64.ofNat (i + 1))) := by
  rw [border, List.takeWhile_eq_take_findIdx_not, List.length_take]
  exact Nat.min_eq_left List.findIdx_le_length

theorem border_le_length (c : Contents) : c.border ≤ c.entries.length := by
  have bound := (List.takeWhile_prefix (l := List.range c.entries.length)
    fun i => c.containsKey (.int (Int64.ofNat (i + 1)))).length_le
  rwa [List.length_range] at bound

theorem containsKey_of_lt_border {i : Nat} (below : i < c.border) :
    c.containsKey (.int (Int64.ofNat (i + 1))) = true := by
  rw [border_eq_findIdx] at below
  simpa using List.not_of_lt_findIdx below

theorem containsKey_of_border_lt (stopped : c.border < c.entries.length) :
    c.containsKey (.int (Int64.ofNat (c.border + 1))) = false := by
  have inRange : c.border < (List.range c.entries.length).length := by
    rwa [List.length_range]
  rw [border_eq_findIdx] at inRange
  have absent := List.findIdx_getElem (w := inRange)
  rw [List.getElem_range, ← border_eq_findIdx] at absent
  simpa using absent

/-- There are no more positions that are keys than entries. -/
theorem le_length_of_containsKey {n : Nat} (small : n < 2 ^ 63)
    (present : ∀ i < n, c.containsKey (.int (Int64.ofNat (i + 1))) = true) :
    n ≤ c.entries.length := by
  have among : (List.range n).map (fun i => (Key.int (Int64.ofNat (i + 1))).identity) ⊆
      c.keys.map Key.identity := by
    intro identity member
    obtain ⟨i, inRange, rfl⟩ := List.mem_map.mp member
    rw [← containsKey_iff]
    exact present i (List.mem_range.mp inRange)
  have counted := (List.subperm_of_subset (nodup_positions small) among).length_le
  simpa only [List.length_map, List.length_range, keys, Assoc.keys] using counted

/-- If the position behind the border were a key, there would be more keys than entries. -/
theorem containsKey_border (room : c.entries.length < 2 ^ 63 - 1) :
    c.containsKey (.int (Int64.ofNat (c.border + 1))) = false := by
  rcases Nat.lt_or_eq_of_le c.border_le_length with stopped | full
  · exact containsKey_of_border_lt stopped
  · rw [← Bool.not_eq_true]
    intro present
    have tooMany : c.border + 1 ≤ c.entries.length := by
      refine le_length_of_containsKey (by omega) fun i inRange => ?_
      rcases Nat.lt_or_eq_of_le (Nat.lt_succ_iff.mp inRange) with below | rfl
      · exact containsKey_of_lt_border below
      · exact present
    omega

/-- A positive integer that is not a key. -/
def FreeAt (c : Contents) (p : Int64) : Prop := 0 < p ∧ c.containsKey (.int p) = false

/-- The position that a pushed value comes to. -/
def nextPosition (c : Contents) : Int64 := Int64.ofNat (c.border + 1)

theorem toInt_nextPosition (room : c.entries.length < 2 ^ 63 - 1) :
    c.nextPosition.toInt = c.border + 1 := by
  have bound := c.border_le_length
  rw [nextPosition, Int64.toInt_ofNat_of_lt (by omega)]
  rfl

theorem isLeast_nextPosition (room : c.entries.length < 2 ^ 63 - 1) :
    IsLeast {p | c.FreeAt p} c.nextPosition := by
  have position := toInt_nextPosition room
  refine ⟨⟨?_, containsKey_border room⟩, ?_⟩
  · rw [Int64.lt_iff_toInt_lt, position]
    exact Int.natCast_succ_pos c.border
  · rintro p ⟨positive, free⟩
    obtain ⟨i, rfl, small⟩ := exists_ofNat positive
    rw [Int64.le_iff_toInt_le, position, Int64.toInt_ofNat_of_lt small]
    by_contra before
    have below : i < c.border := by omega
    rw [containsKey_of_lt_border below] at free
    cases free

theorem push_eq (c : Contents) (value : Value) :
    c.push value = c.insert (.int c.nextPosition) value :=
  rfl

/-- Pushing nil takes nothing out. -/
theorem push_nil (room : c.entries.length < 2 ^ 63 - 1) (nil : value.isNil = true) :
    c.push value = c := by
  obtain ⟨entries, order, delegate, distinct, stored⟩ := c
  have same : Assoc.erase entries (.int (Int64.ofNat _)) = entries :=
    Assoc.erase_of_not_contains (containsKey_border room)
  rw [push, insert, dif_pos nil, erase]
  simp only [same]

theorem entries_push (room : c.entries.length < 2 ^ 63 - 1) (present : value.isNil = false) :
    (c.push value).entries = c.entries ++ [(.int c.nextPosition, value)] := by
  rw [push_eq, insert, dif_neg (by simp [present])]
  exact Assoc.insert_of_not_contains (containsKey_border room) value

theorem freeAt_push (room : c.entries.length < 2 ^ 63 - 1) (present : value.isNil = false)
    {p : Int64} : (c.push value).FreeAt p ↔ c.FreeAt p ∧ p ≠ c.nextPosition := by
  rw [FreeAt, FreeAt, containsKey, entries_push room present, Assoc.contains, List.any_append,
    Bool.or_eq_false_iff, and_assoc]
  refine and_congr_right fun _ => and_congr_right fun _ => ?_
  rw [List.any_cons, List.any_nil, Bool.or_false, Key.beq_eq_false_iff, ne_comm]
  exact not_congr ⟨fun same => KeyIdentity.int.inj same, congrArg KeyIdentity.int⟩

end Contents

end LispFrontEnd
