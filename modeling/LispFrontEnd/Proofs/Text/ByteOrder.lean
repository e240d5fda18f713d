import Mathlib.Data.String.Basic
import Mathlib.Tactic.SplitIfs

/-! # The order of texts is the order of their bytes

Texts are compared code point by code point. `lt_iff_utf8_lt` says that comparing the bytes of their
UTF-8 forms gives the same answer: the bytes of a smaller character are smaller at the first place
where the bytes of two characters differ, and no form of a character begins that of another.
-/

namespace LispFrontEnd.Text

/-- The bytes of a text. -/
def utf8 (text : String) : List UInt8 := text.toUTF8.data.toList

theorem utf8_eq_flatMap (text : String) :
    utf8 text = text.toList.flatMap String.utf8EncodeChar := by
  have encoded := String.utf8Encode_toList (b := text)
  simp only [utf8, String.toUTF8_eq_toByteArray, ← encoded, List.utf8Encode]
  simp

private theorem ofNat_lt_iff {a b : Nat} : UInt8.ofNat a < UInt8.ofNat b ↔ a % 256 < b % 256 := by
  rw [UInt8.lt_iff_toNat_lt, UInt8.toNat_ofNat', UInt8.toNat_ofNat']

private theorem ofNat_eq_iff {a b : Nat} : UInt8.ofNat a = UInt8.ofNat b ↔ a % 256 = b % 256 := by
  rw [← UInt8.toNat_inj, UInt8.toNat_ofNat', UInt8.toNat_ofNat']

/-- The forms of two characters are decided before whatever comes after them. -/
theorem utf8EncodeChar_append_lt {c d : Char} (less : c < d) (u v : List UInt8) :
    String.utf8EncodeChar c ++ u < String.utf8EncodeChar d ++ v := by
  have order : c.val.toNat < d.val.toNat := less
  have bound : d.val.toNat < 0x110000 := by
    rcases d.valid with low | high <;> omega
  unfold String.utf8EncodeChar
  generalize c.val.toNat = m at *
  generalize d.val.toNat = n at *
  -- Written as digits to base 64, the bytes of one code point are related for `omega`.
  have digits (k : Nat) : k / 262144 = k / 64 / 64 / 64 ∧ k / 4096 = k / 64 / 64 := by omega
  obtain ⟨m3, m2⟩ := digits m
  obtain ⟨n3, n2⟩ := digits n
  dsimp only
  rw [m3, m2, n3, n2]
  clear m3 m2 n3 n2
  split_ifs <;>
    simp only [List.cons_append, List.nil_append, List.cons_lt_cons_iff, ofNat_lt_iff,
      ofNat_eq_iff] <;>
    omega

theorem flatMap_utf8EncodeChar_lt {a b : List Char} (less : a < b) :
    a.flatMap String.utf8EncodeChar < b.flatMap String.utf8EncodeChar := by
  induction less with
  | @nil c rest =>
    rw [List.flatMap_nil, List.flatMap_cons]
    cases form : String.utf8EncodeChar c with
    | nil => exact absurd form String.utf8EncodeChar_ne_nil
    | cons byte bytes => exact .nil
  | rel less => exact utf8EncodeChar_append_lt less _ _
  | cons _ ih => exact List.append_left_lt ih

private theorem utf8_lt_irrefl (text : String) : ¬ utf8 text < utf8 text :=
  List.lex_irrefl UInt8.lt_irrefl _

private theorem utf8_lt_asymm {a b : String} (less : utf8 a < utf8 b) : ¬ utf8 b < utf8 a :=
  List.lex_asymm UInt8.lt_asymm less

theorem utf8_lt_utf8 {a b : String} (less : a < b) : utf8 a < utf8 b := by
  rw [utf8_eq_flatMap, utf8_eq_flatMap]
  exact flatMap_utf8EncodeChar_lt (String.lt_iff_toList_lt.mp less)

theorem lt_iff_utf8_lt {a b : String} : a < b ↔ utf8 a < utf8 b := by
  refine ⟨utf8_lt_utf8, fun less => ?_⟩
  rcases lt_trichotomy a b with before | rfl | after
  · exact before
  · exact absurd less (utf8_lt_irrefl a)
  · exact absurd less (utf8_lt_asymm (utf8_lt_utf8 after))

theorem utf8_inj {a b : String} : utf8 a = utf8 b ↔ a = b := by
  refine ⟨fun same => ?_, congrArg utf8⟩
  rcases lt_trichotomy a b with before | equal | after
  · have less := utf8_lt_utf8 before
    exact absurd less (same ▸ utf8_lt_irrefl a)
  · exact equal
  · have less := utf8_lt_utf8 after
    exact absurd less (same ▸ utf8_lt_irrefl b)

/-- The order of two texts by their bytes. -/
def compareBytes (a b : String) : Ordering := compareOfLessAndEq (utf8 a) (utf8 b)

theorem compareBytes_eq_compare : compareBytes = compare := by
  funext a b
  change _ = compareOfLessAndEq a b
  simp only [compareBytes, compareOfLessAndEq, lt_iff_utf8_lt, utf8_inj]

end LispFrontEnd.Text
