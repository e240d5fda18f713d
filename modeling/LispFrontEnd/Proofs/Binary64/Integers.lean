import LispFrontEnd.Syntax.Number
import Mathlib.Algebra.Ring.Int.Defs
import Mathlib.Data.Nat.Cast.Basic
import Mathlib.Order.Basic

/-! # Floats that stand for integers

Two floats are equal when they are the same or both zero (`Alike`); what is no number equals
nothing. The mantissa of a float is full or its exponent is the least, so no two finite floats have
the same value. A float that stands for an integer is thus equal to exactly the floats that stand
for the same integer.
-/

namespace LispFrontEnd

namespace Binary64

open Float.Model Float.Model.UnpackedFloat

variable {s t : Sign} {m m' : Nat} {e e' : Int} {pos : 0 < m} {pos' : 0 < m'}

/-- The mantissa is full, or the exponent is the least there is. -/
structure Canonical (m : Nat) (e : Int) : Prop where
  bound : m < 2 ^ 53
  least : -1074 ≤ e
  full : 2 ^ 52 ≤ m ∨ e = -1074

theorem exponentBias_binary64 : Format.binary64.exponentBias = 1023 := rfl

theorem toNat_implicit_append (fraction : BitVec 52) :
    (1#1 ++ fraction).toNat = 2 ^ 52 + fraction.toNat := by
  rw [BitVec.toNat_append, ← Nat.shiftLeft_add_eq_or_of_lt fraction.isLt]
  rfl

theorem finite_congr (mantissa : m = m') (exponent : e = e') :
    (.finite s m e pos : UnpackedFloat) = .finite s m' e' pos' := by
  subst mantissa exponent
  rfl

section Unpack
variable {bits : BitVec Format.binary64.numBits}

theorem unpack_of_normal (notTop : unpackExponent bits ≠ -1#11)
    (notBottom : unpackExponent bits ≠ 0#11) :
    UnpackedFloat.unpack Format.binary64 bits = .finite (Sign.ofBitVec (unpackSign bits))
      (2 ^ 52 + (unpackMantissa bits).toNat) ((unpackExponent bits).toNat - 1075)
      (Nat.add_pos_left (Nat.two_pow_pos 52) _) := by
  refine (if_neg notTop).trans ((if_neg notBottom).trans (finite_congr ?_ ?_))
  · exact toNat_implicit_append _
  · rw [exponentBias_binary64]
    change (_ : Int) - ((1023 : Nat) + (52 : Nat)) = _
    omega

theorem unpack_of_subnormal (bottom : unpackExponent bits = 0#11) :
    UnpackedFloat.unpack Format.binary64 bits = .zero (Sign.ofBitVec (unpackSign bits)) ∨
      ∃ pos, UnpackedFloat.unpack Format.binary64 bits =
        .finite (Sign.ofBitVec (unpackSign bits)) (unpackMantissa bits).toNat (-1074) pos := by
  have notTop : unpackExponent bits ≠ -1#11 := by
    rw [bottom]
    decide
  by_cases fraction : unpackMantissa bits = 0#52
  · exact .inl ((if_neg notTop).trans ((if_pos bottom).trans (dif_pos fraction)))
  · refine .inr ⟨?_, (if_neg notTop).trans ((if_pos bottom).trans
      ((dif_neg fraction).trans (finite_congr rfl ?_)))⟩
    · exact Nat.pos_of_ne_zero fun zero => fraction (BitVec.eq_of_toNat_eq zero)
    · rw [bottom]
      rfl

theorem unpack_of_top (top : unpackExponent bits = -1#11) :
    UnpackedFloat.unpack Format.binary64 bits = .infinity (Sign.ofBitVec (unpackSign bits)) ∨
      UnpackedFloat.unpack Format.binary64 bits = .notANumber := by
  by_cases fraction : unpackMantissa bits = 0#52
  · exact .inl ((if_pos top).trans (if_pos fraction))
  · exact .inr ((if_pos top).trans (if_neg fraction))

end Unpack

theorem canonical_of_unpack {x : Float.Model} (unpacked : x.unpack = .finite s m e pos) :
    Canonical m e := by
  let bits : BitVec Format.binary64.numBits := x.toBits.toBitVec
  have bound : (unpackMantissa bits).toNat < 2 ^ 52 := (unpackMantissa bits).isLt
  obtain top | notTop := Decidable.em (unpackExponent bits = -1#11)
  · rcases unpack_of_top top with infinite | none
    · cases infinite.symm.trans unpacked
    · cases none.symm.trans unpacked
  obtain bottom | notBottom := Decidable.em (unpackExponent bits = 0#11)
  · rcases unpack_of_subnormal bottom with zero | ⟨pos, finite⟩
    · cases zero.symm.trans unpacked
    · cases finite.symm.trans unpacked
      exact ⟨bound.trans (by decide), by decide, .inr rfl⟩
  · cases (unpack_of_normal notTop notBottom).symm.trans unpacked
    have biased : 0 < (unpackExponent bits).toNat :=
      Nat.pos_of_ne_zero fun zero => notBottom (BitVec.eq_of_toNat_eq zero)
    exact ⟨by omega, by omega, .inl (Nat.le_add_right _ _)⟩

/-- The number `m * 2 ^ e` is the natural number `n`. -/
def Denotes (m : Nat) (e : Int) (n : Nat) : Prop := m * 2 ^ e.toNat = n * 2 ^ (-e).toNat

theorem denotes_iff_shift {n k : Nat} (above : -k ≤ e) :
    Denotes m e n ↔ m * 2 ^ (e + k).toNat = n * 2 ^ k := by
  obtain ⟨r, total⟩ : ∃ r, k = (-e).toNat + r := ⟨k - (-e).toNat, by omega⟩
  have shifted : (e + k).toNat = e.toNat + r := by omega
  rw [shifted, total, Nat.pow_add, Nat.pow_add, ← Nat.mul_assoc, ← Nat.mul_assoc,
    Nat.mul_left_inj (Nat.two_pow_pos r).ne', Denotes]

theorem denotes_iff_div {n : Nat} :
    Denotes m e n ↔ m % 2 ^ (-e).toNat = 0 ∧ n = m / 2 ^ (-e).toNat * 2 ^ e.toNat := by
  obtain nonneg | negative := Int.le_total 0 e
  · have : (-e).toNat = 0 := by omega
    simp [Denotes, this, Nat.mod_one, eq_comm]
  · have : e.toNat = 0 := by omega
    rw [Denotes, this, Nat.pow_zero, Nat.mul_one, Nat.mul_one, ← Nat.dvd_iff_mod_eq_zero]
    constructor
    · rintro rfl
      exact ⟨Nat.dvd_mul_left _ _, (Nat.mul_div_cancel _ (Nat.two_pow_pos _)).symm⟩
    · rintro ⟨divides, rfl⟩
      exact (Nat.div_mul_cancel divides).symm

theorem Denotes.unique {n n' : Nat} (first : Denotes m e n) (second : Denotes m e n') : n = n' :=
  Nat.eq_of_mul_eq_mul_right (Nat.two_pow_pos _) (first.symm.trans second)

theorem Denotes.ne_zero {n : Nat} (denotes : Denotes m e n) (positive : 0 < m) : n ≠ 0 := by
  rintro rfl
  exact (Nat.mul_pos positive (Nat.two_pow_pos _)).ne' (denotes.trans (Nat.zero_mul _))

/-- The larger exponent is not the least, so its mantissa is full and the other one overflows. -/
theorem Canonical.exponent_le {n : Nat} (first : Canonical m e) (second : Canonical m' e')
    (denotes : Denotes m e n) (denotes' : Denotes m' e' n) : e' ≤ e := by
  by_contra less
  rw [denotes_iff_shift (k := (-e).toNat) (by omega)] at denotes denotes'
  obtain ⟨d, gap⟩ : ∃ d, (e' + (-e).toNat).toNat = (e + (-e).toNat).toNat + d + 1 :=
    ⟨(e' - e).toNat - 1, by omega⟩
  have scaled : m = m' * 2 ^ d * 2 := by
    refine Nat.eq_of_mul_eq_mul_right (Nat.two_pow_pos (e + (-e).toNat).toNat) ?_
    rw [denotes, ← denotes', gap, Nat.pow_succ, Nat.pow_add]
    ac_rfl
  have full : 2 ^ 52 ≤ m' := second.full.resolve_right (by have := first.least; omega)
  have : m' ≤ m' * 2 ^ d := Nat.le_mul_of_pos_right _ (Nat.two_pow_pos d)
  have := first.bound
  omega

theorem Canonical.unique {n : Nat} (first : Canonical m e) (second : Canonical m' e')
    (denotes : Denotes m e n) (denotes' : Denotes m' e' n) : m = m' ∧ e = e' := by
  obtain rfl : e = e' := Int.le_antisymm (second.exponent_le first denotes' denotes)
    (first.exponent_le second denotes denotes')
  exact ⟨Nat.eq_of_mul_eq_mul_right (Nat.two_pow_pos _) (denotes.trans denotes'.symm), rfl⟩

theorem natAbs_apply {n : Nat} : (s.apply n).natAbs = n := by
  cases s
  · exact Int.natAbs_neg n
  · rfl

theorem apply_ne_zero {n : Nat} (nonzero : n ≠ 0) : s.apply n ≠ 0 := by
  cases s <;> simp only [Sign.apply] <;> omega

theorem apply_inj {n n' : Nat} (nonzero : n ≠ 0) : s.apply n = t.apply n' ↔ s = t ∧ n = n' := by
  cases s <;> cases t <;>
    simp only [Sign.apply, true_and, reduceCtorEq, false_and, iff_false] <;> omega

theorem compare_finite_iff : UnpackedFloat.compare (.finite s m e pos) (.finite t m' e' pos') =
    some .eq ↔ s = t ∧ m = m' ∧ e = e' := by
  have parts : (compare e e').then (compare m m') = .eq ↔ m = m' ∧ e = e' := by
    rw [Ordering.then_eq_eq, Int.compare_eq_eq, Nat.compare_eq_eq, And.comm]
  cases s <;> cases t
  · change some (Ordering.swap _) = some Ordering.eq ↔ _
    rw [Option.some_inj, Ordering.swap_eq_eq, parts]
    simp only [true_and]
  · exact ⟨nofun, nofun⟩
  · exact ⟨nofun, nofun⟩
  · change some (Ordering.then _ _) = some Ordering.eq ↔ _
    rw [Option.some_inj, parts]
    simp only [true_and]

/-- Floats that are one and the same, but for the sign of a zero. -/
inductive Alike : UnpackedFloat → UnpackedFloat → Prop where
  | zeros (s t : Sign) : Alike (.zero s) (.zero t)
  | infinity (s : Sign) : Alike (.infinity s) (.infinity s)
  | finite (s : Sign) (m : Nat) (e : Int) (pos : 0 < m) :
    Alike (.finite s m e pos) (.finite s m e pos)

theorem Alike.symm {a b : UnpackedFloat} (alike : Alike a b) : Alike b a := by
  cases alike with
  | zeros s t => exact .zeros t s
  | infinity s => exact .infinity s
  | finite s m e pos => exact .finite s m e pos

theorem Alike.trans {a b c : UnpackedFloat} (first : Alike a b) (second : Alike b c) :
    Alike a c := by
  cases first with
  | zeros s t =>
    cases second with
    | zeros _ u => exact .zeros s u
  | infinity | finite => exact second

theorem compare_eq_iff_alike {a b : UnpackedFloat} :
    UnpackedFloat.compare a b = some .eq ↔ Alike a b := by
  constructor
  · intro equal
    cases a with
    | notANumber => cases equal
    | infinity s =>
      cases b with
      | infinity t => cases s <;> cases t <;> first | exact .infinity _ | cases equal
      | notANumber => cases equal
      | zero | finite => cases s <;> cases equal
    | zero s =>
      cases b with
      | zero t => exact .zeros s t
      | notANumber => cases equal
      | infinity t | finite t => cases t <;> cases equal
    | finite s m e pos =>
      cases b with
      | finite =>
        obtain ⟨rfl, rfl, rfl⟩ := compare_finite_iff.mp equal
        exact .finite s m e pos
      | notANumber => cases equal
      | zero => cases s <;> cases equal
      | infinity t => cases s <;> cases t <;> cases equal
  · intro alike
    cases alike with
    | zeros => rfl
    | infinity s => cases s <;> rfl
    | finite => exact compare_finite_iff.mpr ⟨rfl, rfl, rfl⟩

theorem beq_iff_alike {x y : Float} :
    (x == y) = true ↔ Alike x.toModel.unpack y.toModel.unpack := by
  change (UnpackedFloat.compare x.toModel.unpack y.toModel.unpack == some .eq) = true ↔ _
  rw [beq_iff_eq, compare_eq_iff_alike]

theorem beq_symm {x y : Float} (same : (x == y) = true) : (y == x) = true :=
  beq_iff_alike.mpr (beq_iff_alike.mp same).symm

theorem beq_trans {x y z : Float} (first : (x == y) = true) (second : (y == z) = true) :
    (x == z) = true :=
  beq_iff_alike.mpr ((beq_iff_alike.mp first).trans (beq_iff_alike.mp second))

end Binary64

namespace Number

open Float.Model Float.Model.UnpackedFloat Binary64

variable {s : Sign} {m : Nat} {e : Int} {pos : 0 < m}

theorem integer?_eq_of_finite {x : Float} (unpacked : x.toModel.unpack = .finite s m e pos) :
    integer? x = if m % 2 ^ (-e).toNat = 0 then
      some (s.apply (m / 2 ^ (-e).toNat * 2 ^ e.toNat : Nat)) else none := by
  have unit : 1 <<< (-e).toNat = 2 ^ (-e).toNat := by
    rw [Nat.shiftLeft_eq, Nat.one_mul]
  rw [integer?, unpacked]
  change (if m % 1 <<< (-e).toNat = 0 then some (if isNegative s then
    -(((m / 1 <<< (-e).toNat) <<< e.toNat : Nat) : Int) else _) else none) = _
  rw [unit, Nat.shiftLeft_eq]
  cases s <;> rfl

theorem integer?_of_finite {x : Float} (unpacked : x.toModel.unpack = .finite s m e pos) {a : Int} :
    integer? x = some a ↔ ∃ n, Denotes m e n ∧ a = s.apply n := by
  rw [integer?_eq_of_finite unpacked]
  constructor
  · intro stands
    obtain ⟨whole, value⟩ := Option.ite_none_right_eq_some.mp stands
    exact ⟨_, denotes_iff_div.mpr ⟨whole, rfl⟩, (Option.some.inj value).symm⟩
  · rintro ⟨n, denotes, rfl⟩
    obtain ⟨whole, rfl⟩ := denotes_iff_div.mp denotes
    exact if_pos whole

theorem integer?_congr {x y : Float} (same : (x == y) = true) : integer? x = integer? y := by
  have alike := beq_iff_alike.mp same
  rw [integer?, integer?]
  generalize x.toModel.unpack = a, y.toModel.unpack = b at alike ⊢
  cases alike <;> rfl

theorem unpack_of_integer? {x : Float} {a : Int} (stands : integer? x = some a) :
    (∃ s, x.toModel.unpack = .zero s ∧ a = 0) ∨
      ∃ s m e pos n, x.toModel.unpack = .finite s m e pos ∧ Denotes m e n ∧ a = s.apply n := by
  cases unpacked : x.toModel.unpack with
  | finite s m e pos =>
    obtain ⟨n, denotes, value⟩ := (integer?_of_finite unpacked).mp stands
    exact .inr ⟨s, m, e, pos, n, rfl, denotes, value⟩
  | zero s =>
    rw [integer?, unpacked] at stands
    exact .inl ⟨s, rfl, (Option.some.inj stands).symm⟩
  | infinity s => rw [integer?, unpacked] at stands; cases stands
  | notANumber => rw [integer?, unpacked] at stands; cases stands

/-- Floats that stand for the same integer are equal. -/
theorem beq_of_integer? {x y : Float} {a : Int} (first : integer? x = some a)
    (second : integer? y = some a) : (x == y) = true := by
  rw [beq_iff_alike]
  obtain ⟨s, left, rfl⟩ | ⟨s, m, e, pos, n, left, denotes, rfl⟩ := unpack_of_integer? first
  · obtain ⟨t, right, -⟩ | ⟨t, m', e', pos', n', -, denotes', zero⟩ := unpack_of_integer? second
    · rw [left, right]
      exact .zeros s t
    · exact absurd zero.symm (apply_ne_zero (denotes'.ne_zero pos'))
  · obtain ⟨t, -, zero⟩ | ⟨t, m', e', pos', n', right, denotes', same⟩ := unpack_of_integer? second
    · exact absurd zero (apply_ne_zero (denotes.ne_zero pos))
    · obtain ⟨rfl, rfl⟩ := (apply_inj (denotes.ne_zero pos)).mp same
      obtain ⟨rfl, rfl⟩ :=
        (canonical_of_unpack left).unique (canonical_of_unpack right) denotes denotes'
      rw [left, right]
      exact .finite s m e pos

theorem beq_iff_of_integer? {x y : Float} {a b : Int} (first : integer? x = some a)
    (second : integer? y = some b) : (x == y) = true ↔ a = b := by
  constructor
  · intro same
    exact Option.some.inj (first.symm.trans ((integer?_congr same).trans second))
  · rintro rfl
    exact beq_of_integer? first second

end Number

end LispFrontEnd
