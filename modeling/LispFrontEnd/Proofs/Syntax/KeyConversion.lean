import LispFrontEnd.Proofs.Syntax.ValueEquality
import LispFrontEnd.Table.Error

/-! # Values as keys

The key that a value becomes stands for an equal value, but for a float beyond the range of the
64-bit integers: its key is the last integer on its side. So two values within that range are stored
under one key only if both equal it. A key read as a value becomes itself.
-/

namespace LispFrontEnd

namespace Number

open Binary64

theorem toInt_saturate (n : Int) : (saturate n).toInt = max (-2 ^ 63) (min n (2 ^ 63 - 1)) := by
  have least : Int64.minValue.toInt = -2 ^ 63 := by decide
  have greatest : Int64.maxValue.toInt = 2 ^ 63 - 1 := by decide
  rw [saturate]
  split
  · omega
  · split
    · omega
    · rw [Int64.toInt_ofInt_of_le (by omega) (by omega)]
      omega

theorem integer?_last : integer? (Float.ofInt (2 ^ 63 - 1)) = some (2 ^ 63) := by
  decide +kernel

/-- One more than the last 64-bit integer is kept, because the last one is rounded to it. -/
theorem integer?_nearest_saturate {n : Int} (fits : Fits n.natAbs) :
    integer? (nearest (.int (saturate n))) = some (max (-2 ^ 63) (min n (2 ^ 63))) := by
  rw [nearest, toInt_saturate]
  obtain below | inside | above : n ≤ -2 ^ 63 ∨ (-2 ^ 63 < n ∧ n < 2 ^ 63) ∨ 2 ^ 63 ≤ n := by omega
  · have least : max (-2 ^ 63) (min n (2 ^ 63 - 1)) = -2 ^ 63 := by omega
    have clamped : max (-2 ^ 63) (min n (2 ^ 63)) = -2 ^ 63 := by omega
    rw [least, clamped]
    exact integer?_ofInt (by decide) rfl
  · have kept : max (-2 ^ 63) (min n (2 ^ 63 - 1)) = n := by omega
    have clamped : max (-2 ^ 63) (min n (2 ^ 63)) = n := by omega
    rw [kept, clamped]
    exact integer?_ofInt (by omega) fits
  · have greatest : max (-2 ^ 63) (min n (2 ^ 63 - 1)) = 2 ^ 63 - 1 := by omega
    have clamped : max (-2 ^ 63) (min n (2 ^ 63)) = 2 ^ 63 := by omega
    rw [greatest, clamped]
    exact integer?_last

end Number

/-- The value is not a float that stands for an integer beyond `2 ^ 63`. -/
def Value.WithinKeys : Value → Prop
  | .number (.float x) => ∀ n, Number.integer? x = some n → n.natAbs ≤ 2 ^ 63
  | _ => True

namespace Key

theorem ofValue_toValue (k : Key) : Key.ofValue k.toValue = .ok k := by
  cases k <;> rfl

theorem ofValue_eq_ok_iff {v : Value} {k : Key} :
    Key.ofValue v = .ok k ↔ Key.ofValue? v = some k := by
  rw [ofValue]
  cases Key.ofValue? v <;> simp

theorem beq_toValue (k l : Key) : (k.toValue == l.toValue) = (k == l) := by
  cases k <;> cases l <;> rfl

theorem toValue_beq_self (k : Key) : (k.toValue == k.toValue) = true :=
  (beq_toValue k k).trans BEq.rfl

/-- A value equals the key it becomes exactly when it is within the range of the keys. -/
theorem toValue_beq_iff {v : Value} {k : Key} (converted : Key.ofValue v = .ok k) :
    (k.toValue == v) = true ↔ v.WithinKeys := by
  rw [ofValue_eq_ok_iff] at converted
  cases v with
  | nil => cases converted
  | bool b => cases converted; exact iff_of_true (toValue_beq_self (.bool b)) trivial
  | str s => cases converted; exact iff_of_true (toValue_beq_self (.str s)) trivial
  | node n => cases converted; exact iff_of_true (toValue_beq_self (.node n)) trivial
  | number number =>
    cases number with
    | int n => cases converted; exact iff_of_true (toValue_beq_self (.int n)) trivial
    | float x =>
      obtain ⟨n, stands, rfl⟩ := Option.map_eq_some_iff.mp converted
      have clamped := Number.integer?_nearest_saturate (Number.fits_of_integer? stands)
      change (Number.nearest (.int (Number.saturate n)) == x) = true ↔
        ∀ m, Number.integer? x = some m → m.natAbs ≤ 2 ^ 63
      rw [Number.beq_iff_of_integer? clamped stands]
      simp only [stands, Option.some.injEq, forall_eq']
      omega

/-- No key stands for a float, so none parts two integers. -/
theorem not_parted_toValue {a c : Value} {k : Key} : ¬ Value.Parted a k.toValue c := by
  cases k <;> rintro ⟨⟩

theorem toValue_beq_congr {k key : Key} {v : Value} (same : (k == key) = true) :
    (key.toValue == v) = true ↔ (k.toValue == v) = true := by
  have forth : (k.toValue == key.toValue) = true := (beq_toValue k key).trans same
  have back : (key.toValue == k.toValue) = true := (Value.beq_comm _ _).trans forth
  exact ⟨fun equal => (Value.beq_trans_iff forth equal).mpr not_parted_toValue,
    fun equal => (Value.beq_trans_iff back equal).mpr not_parted_toValue⟩

/-- A value equals the key it is stored under exactly when it is within the range of the keys, and
every key becomes itself. -/
theorem conversion_lossless_iff (v : Value) (k key : Key) :
    (Key.ofValue v = .ok k → (k == key) = true → ((key.toValue == v) = true ↔ v.WithinKeys)) ∧
      Key.ofValue key.toValue = .ok key := by
  refine ⟨fun converted same => ?_, ofValue_toValue key⟩
  rw [toValue_beq_congr same, toValue_beq_iff converted]

/-- The float `1e300`. -/
def farOut : Value := .number (.float (Float.ofBits 0x7E37E43C8800759C))

theorem farOut_saturates :
    Key.ofValue farOut = .ok (.int Int64.maxValue) ∧
      ((Key.int Int64.maxValue).toValue == farOut) = false ∧
      Key.ofValue (.number (.int Int64.maxValue)) = .ok (.int Int64.maxValue) := by
  refine ⟨?_, by decide +kernel, rfl⟩
  rw [ofValue_eq_ok_iff]
  rfl

end Key

end LispFrontEnd
