import LispFrontEnd.Mapping
import LispFrontEnd.Proofs.Binary64.Nearest
import LispFrontEnd.Proofs.Syntax.Identity

/-! # Equality of values

An integer equals a float when the float nearest to it does. So equality is symmetric, and it is
transitive but for two unequal integers that are rounded to one float. Both have a magnitude of
`2 ^ 53` or more. Of two equal values both or none are members of a list, unless all items that
equal one of them are parted so from the other.
-/

namespace LispFrontEnd

namespace Number

open Binary64

/-- The number as a float. -/
def nearest : Number → Float
  | .int n => Float.ofInt n.toInt
  | .float x => x

/-- The numbers are not two unequal integers. -/
def Agree : Number → Number → Prop
  | .int m, .int n => m = n
  | _, _ => True

theorem natAbs_toInt_lt (n : Int64) : n.toInt.natAbs < 2 ^ 64 := by
  have := n.toInt_lt
  have := n.le_toInt
  omega

theorem exists_integer?_nearest (n : Int64) : ∃ a, integer? (nearest (.int n)) = some a := by
  obtain small | large := Nat.lt_or_ge n.toInt.natAbs (2 ^ 53)
  · exact ⟨_, integer?_ofInt (natAbs_toInt_lt n) (fits_of_lt small)⟩
  · obtain ⟨a, stands, -⟩ := exists_integer?_ofInt large (natAbs_toInt_lt n)
    exact ⟨a, stands⟩

/-- Numbers are compared as floats, but for two integers. -/
theorem beq_iff {a b : Number} :
    (a == b) = true ↔ (a.nearest == b.nearest) = true ∧ Agree a b := by
  change beq a b = true ↔ _
  cases a with
  | int m =>
    cases b with
    | int n =>
      obtain ⟨_, stands⟩ := exists_integer?_nearest m
      simp only [beq, Agree, beq_iff_eq]
      refine ⟨?_, And.right⟩
      rintro rfl
      exact ⟨beq_of_integer? stands stands, rfl⟩
    | float y => simp only [beq, nearest, Agree, and_true]
  | float x =>
    cases b with
    | int n =>
      simp only [beq, nearest, Agree, and_true]
      exact ⟨beq_symm, beq_symm⟩
    | float y => simp only [beq, nearest, Agree, and_true]

theorem Agree.symm {a b : Number} (agree : Agree a b) : Agree b a := by
  cases a <;> cases b <;> first | exact Eq.symm agree | trivial

theorem beq_comm (a b : Number) : (a == b) = (b == a) := by
  rw [Bool.eq_iff_iff, beq_iff, beq_iff]
  exact ⟨fun same => ⟨beq_symm same.1, same.2.symm⟩, fun same => ⟨beq_symm same.1, same.2.symm⟩⟩

theorem beq_trans_iff {a b c : Number} (first : (a == b) = true) (second : (b == c) = true) :
    (a == c) = true ↔ Agree a c := by
  rw [beq_iff] at first second ⊢
  exact and_iff_right (beq_trans first.1 second.1)

/-- A smaller integer is the only one that is converted to its float. -/
theorem large_of_nearest_beq {m n : Int64} (unequal : m ≠ n)
    (same : (nearest (.int m) == nearest (.int n)) = true) : 2 ^ 53 ≤ m.toInt.natAbs := by
  by_contra small
  have stands := integer?_ofInt (natAbs_toInt_lt m) (fits_of_lt (Nat.not_le.mp small))
  have other := (integer?_congr same).symm.trans stands
  obtain small' | large := Nat.lt_or_ge n.toInt.natAbs (2 ^ 53)
  · have stands' := integer?_ofInt (natAbs_toInt_lt n) (fits_of_lt small')
    exact unequal (Int64.toInt_inj.mp (Option.some.inj (other.symm.trans stands')))
  · obtain ⟨a, stands', above⟩ := exists_integer?_ofInt large (natAbs_toInt_lt n)
    cases other.symm.trans stands'
    exact small above

end Number

namespace Value

/-- The first and the third value are unequal integers, and the second is a float that equals
both. -/
inductive Parted : Value → Value → Value → Prop where
  | rounded {m n : Int64} {x : Float} (unequal : m ≠ n)
      (left : (Number.int m == .float x) = true) (right : (Number.float x == .int n) = true) :
      Parted (.number (.int m)) (.number (.float x)) (.number (.int n))

theorem beq_comm (a b : Value) : (a == b) = (b == a) := by
  change beq a b = beq b a
  cases a <;> cases b <;> try rfl
  case bool.bool a b => exact BEq.comm
  case number.number a b => exact Number.beq_comm a b
  case str.str a b => exact BEq.comm
  case node.node a b => exact BEq.comm

theorem agree_iff_not_parted {i j k : Number} (first : (i == j) = true)
    (second : (j == k) = true) :
    Number.Agree i k ↔ ¬ Parted (.number i) (.number j) (.number k) := by
  constructor
  · rintro agree ⟨unequal, -, -⟩
    exact unequal agree
  · intro whole
    cases i with
    | float x => trivial
    | int m =>
      cases k with
      | float z => trivial
      | int n =>
        cases j with
        | int l => exact (Number.beq_iff.mp first).2.trans (Number.beq_iff.mp second).2
        | float y =>
          by_contra unequal
          exact whole ⟨unequal, first, second⟩

theorem beq_trans_iff {a b c : Value} (first : (a == b) = true) (second : (b == c) = true) :
    (a == c) = true ↔ ¬ Parted a b c := by
  cases a <;> cases b <;> first | contradiction | skip
  all_goals cases c <;> first | contradiction | skip
  case number.number.number i j k =>
    exact (Number.beq_trans_iff first second).trans (agree_iff_not_parted first second)
  all_goals refine iff_of_true ?_ nofun
  case nil.nil.nil => rfl
  case bool.bool.bool a b c => exact BEq.trans (α := Bool) first second
  case str.str.str a b c => exact BEq.trans (α := String) first second
  case node.node.node a b c => exact BEq.trans (α := Node) first second

theorem Parted.left_beq {a b c : Value} (parted : Parted a b c) : (a == b) = true := by
  obtain ⟨-, left, -⟩ := parted
  exact left

theorem Parted.large {a b c : Value} (parted : Parted a b c) :
    ∃ m n : Int64, a = .number (.int m) ∧ c = .number (.int n) ∧
      2 ^ 53 ≤ m.toInt.natAbs ∧ 2 ^ 53 ≤ n.toInt.natAbs := by
  obtain @⟨m, n, x, unequal, left, right⟩ := parted
  have same := Binary64.beq_trans (Number.beq_iff.mp left).1 (Number.beq_iff.mp right).1
  exact ⟨m, n, rfl, rfl, Number.large_of_nearest_beq unequal same,
    Number.large_of_nearest_beq unequal.symm (Binary64.beq_symm same)⟩

end Value

namespace Mapping

theorem member_iff {x : Value} {items : List Value} :
    member x items = true ↔ ∃ item ∈ items, (item == x) = true :=
  List.any_eq_true

/-- An equal value is found where the first one is, except through an item parted from it. -/
theorem member_imp_iff {x y : Value} {items : List Value} (same : (x == y) = true) :
    (member x items = true → member y items = true) ↔
      ((∃ item ∈ items, Value.Parted item x y) → member y items = true) := by
  constructor
  · rintro moves ⟨item, among, parted⟩
    exact moves (member_iff.mpr ⟨item, among, parted.left_beq⟩)
  · intro covered found
    obtain ⟨item, among, equal⟩ := member_iff.mp found
    by_cases parted : Value.Parted item x y
    · exact covered ⟨item, among, parted⟩
    · exact member_iff.mpr ⟨item, among, (Value.beq_trans_iff equal same).mpr parted⟩

end Mapping

namespace Value

/-- Equality of values is symmetric, and but for two large integers that are rounded to one float it
is transitive and respects membership. -/
theorem equality_laws (a b c : Value) (items : List Value) :
    ((a == b) = true → (b == a) = true) ∧
    ((a == b) = true → (b == c) = true → ((a == c) = true ↔ ¬ Parted a b c)) ∧
    ((a == b) = true → (Mapping.member a items = Mapping.member b items ↔
      ((∃ item ∈ items, Parted item a b) → Mapping.member b items = true) ∧
      ((∃ item ∈ items, Parted item b a) → Mapping.member a items = true))) ∧
    (Parted a b c → ∃ m n : Int64, a = .number (.int m) ∧ c = .number (.int n) ∧
      2 ^ 53 ≤ m.toInt.natAbs ∧ 2 ^ 53 ≤ n.toInt.natAbs) := by
  refine ⟨fun same => ?symmetric, beq_trans_iff, fun same => ?member, Parted.large⟩
  case symmetric => rwa [beq_comm]
  case member =>
    rw [← Mapping.member_imp_iff same, ← Mapping.member_imp_iff (beq_comm a b ▸ same),
      Bool.eq_iff_iff]
    exact iff_iff_implies_and_implies

/-- The float `2 ^ 53`. -/
def lastExact : Value := .number (.float (Float.ofBits 0x4340000000000000))

/-- The integer `2 ^ 53 + 1`, which is rounded to that float. -/
def firstRounded : Value := .number (.int 9007199254740993)

theorem firstRounded_parted :
    (firstRounded == lastExact) = true ∧ (lastExact == .number (.int 9007199254740992)) = true ∧
      (firstRounded == .number (.int 9007199254740992)) = false ∧
      Mapping.member lastExact [.number (.int 9007199254740992)] = true ∧
      Mapping.member firstRounded [.number (.int 9007199254740992)] = false := by
  decide +kernel

end Value

end LispFrontEnd
