import LispFrontEnd.Proofs.Table.Border
import LispFrontEnd.Proofs.Table.Refinement

/-! # The positional part of a table

Counting up while the next integer is a key ends at the border, within as many rounds as there are
entries and below the last 64-bit integer. The border is where the run of keys from one on ends, and
only the keys of that run and the position behind it decide where that is. To push nil changes
nothing. What else is pushed is a new entry at that position, the least positive one that is no key,
and all that changes; it joins the run that begins behind it.
-/

namespace LispFrontEnd

theorem toInt_position {n : Nat} (small : n < 2 ^ 63) : (Int64.ofNat n).toInt = n :=
  Int64.toInt_ofNat_of_lt small

theorem position_le_iff {m n : Nat} (smallM : m < 2 ^ 63) (smallN : n < 2 ^ 63) :
    Int64.ofNat m ≤ Int64.ofNat n ↔ m ≤ n := by
  rw [Int64.le_iff_toInt_le, toInt_position smallM, toInt_position smallN, Int.ofNat_le]

theorem position_succ (n : Nat) : Int64.ofNat n + 1 = Int64.ofNat (n + 1) :=
  (Int64.ofNat_add n 1).symm

theorem position_lt_maxValue {n : Nat} (small : n < 2 ^ 63 - 1) :
    Int64.ofNat n < Int64.maxValue := by
  rw [Int64.lt_iff_toInt_lt, toInt_position (by omega), Int64.toInt_maxValue]
  omega

/-- What is not negative is a number of positions. -/
theorem exists_position {n : Int64} (natural : 0 ≤ n) :
    ∃ k, n = Int64.ofNat k ∧ k < 2 ^ 63 := by
  rcases Int64.le_iff_lt_or_eq.mp natural with positive | rfl
  · obtain ⟨i, same, small⟩ := exists_ofNat positive
    exact ⟨i + 1, same, small⟩
  · exact ⟨0, rfl, by omega⟩

namespace Contents

variable {c d : Contents} {value : Value}

/-- Counts up from an integer as long as the next one is a key, within so many rounds and the 64-bit
integers. -/
def countUp? (c : Contents) (rounds : Nat) (n : Int64) : Option Int64 :=
  if n < Int64.maxValue then
    if c.containsKey (.int (n + 1)) then
      match rounds with
      | 0 => none
      | rounds + 1 => c.countUp? rounds (n + 1)
    else some n
  else none

/-- Wherever below the border counting starts, it ends there. -/
theorem countUp?_position (room : c.entries.length < 2 ^ 63 - 1) {i rounds : Nat}
    (below : i ≤ c.border) (enough : c.border ≤ i + rounds) :
    c.countUp? rounds (Int64.ofNat i) = some (Int64.ofNat c.border) := by
  have bound := c.border_le_length
  induction rounds generalizing i with
  | zero =>
    obtain rfl : i = c.border := by omega
    rw [countUp?, if_pos (position_lt_maxValue (by omega)), position_succ,
      containsKey_border room]
    rfl
  | succ rounds ih =>
    rw [countUp?, if_pos (position_lt_maxValue (by omega)), position_succ]
    rcases Nat.lt_or_eq_of_le below with before | rfl
    · rw [containsKey_of_lt_border before]
      exact ih before (by omega)
    · rw [containsKey_border room]
      rfl

/-- Every integer behind the first one, up to the second, is a key. -/
def HasRun (c : Contents) (first last : Int64) : Prop :=
  ∀ p, first < p → p ≤ last → c.containsKey (.int p) = true

theorem hasRun_position_iff {k : Nat} (small : k < 2 ^ 63) :
    c.HasRun 0 (Int64.ofNat k) ↔ ∀ i < k, c.containsKey (.int (Int64.ofNat (i + 1))) = true := by
  constructor
  · intro run i below
    refine run _ ?_ ((position_le_iff (by omega) small).mpr below)
    rw [Int64.lt_iff_toInt_lt, toInt_position (by omega)]
    exact Int.natCast_succ_pos i
  · intro present p positive upTo
    obtain ⟨i, rfl, inRange⟩ := exists_ofNat positive
    exact present i ((position_le_iff inRange small).mp upTo)

theorem isGreatest_border (room : c.entries.length < 2 ^ 63) :
    IsGreatest {n | 0 ≤ n ∧ c.HasRun 0 n} (Int64.ofNat c.border) := by
  have bound := c.border_le_length
  have natural : (0 : Int64) ≤ Int64.ofNat c.border :=
    (position_le_iff (m := 0) (by omega) (by omega)).mpr (Nat.zero_le _)
  refine ⟨⟨natural, (hasRun_position_iff (by omega)).mpr fun i => containsKey_of_lt_border⟩, ?_⟩
  rintro n ⟨positive, run⟩
  obtain ⟨k, rfl, small⟩ := exists_position positive
  have present := (hasRun_position_iff small).mp run
  rw [position_le_iff small (by omega)]
  by_contra further
  have counted := le_length_of_containsKey small present
  have absent := containsKey_of_border_lt (c := c) (by omega)
  rw [present c.border (by omega)] at absent
  cases absent

/-- Other keys than the positions up to the one behind the border do not matter. -/
theorem border_eq_of_agree (room : c.entries.length < 2 ^ 63 - 1)
    (agree : ∀ i ≤ c.border, d.containsKey (.int (Int64.ofNat (i + 1))) =
      c.containsKey (.int (Int64.ofNat (i + 1)))) : d.border = c.border := by
  have bound := c.border_le_length
  have present (i : Nat) (below : i < c.border) :
      d.containsKey (.int (Int64.ofNat (i + 1))) = true :=
    (agree i (Nat.le_of_lt below)).trans (containsKey_of_lt_border below)
  have counted := le_length_of_containsKey (by omega) present
  rcases Nat.lt_trichotomy d.border c.border with less | same | more
  · have absent := containsKey_of_border_lt (c := d) (by omega)
    rw [present d.border less] at absent
    cases absent
  · exact same
  · have absent := (agree c.border (Nat.le_refl _)).trans (containsKey_border room)
    rw [containsKey_of_lt_border more] at absent
    cases absent

theorem containsKey_push (room : c.entries.length < 2 ^ 63 - 1) (present : value.isNil = false)
    (key : Key) :
    (c.push value).containsKey key = (c.containsKey key || .int c.nextPosition == key) := by
  rw [containsKey, entries_push room present, Assoc.contains, List.any_append, List.any_cons,
    List.any_nil, Bool.or_false]
  rfl

/-- The position behind the border links the run in front of it to the one behind it. -/
theorem hasRun_push_iff (room : c.entries.length < 2 ^ 63 - 1) (present : value.isNil = false)
    {n : Int64} :
    (c.push value).HasRun 0 n ↔ c.HasRun c.nextPosition n := by
  obtain ⟨⟨positive, _⟩, least⟩ := isLeast_nextPosition room
  constructor
  · intro run p behind upTo
    have other : (Key.int c.nextPosition == Key.int p) = false := by
      rw [Key.beq_eq_false_iff]
      exact fun same => Int64.ne_of_lt behind (KeyIdentity.int.inj same)
    have found := run p (Int64.lt_trans positive behind) upTo
    rwa [containsKey_push room present, other, Bool.or_false] at found
  · intro run p above upTo
    rw [containsKey_push room present, Bool.or_eq_true]
    rcases Int64.lt_or_le c.nextPosition p with behind | before
    · exact .inl (run p behind upTo)
    · rcases Int64.le_iff_lt_or_eq.mp before with inFront | rfl
      · refine .inl (Bool.eq_true_of_not_eq_false fun free => ?_)
        exact Int64.not_le.mpr inFront (least ⟨above, free⟩)
      · exact .inr BEq.rfl

theorem isGreatest_border_push (room : c.entries.length < 2 ^ 63 - 1)
    (present : value.isNil = false) :
    IsGreatest {n | c.nextPosition ≤ n ∧ c.HasRun c.nextPosition n}
      (Int64.ofNat (c.push value).border) := by
  have longer : (c.push value).entries.length < 2 ^ 63 := by
    rw [entries_push room present, List.length_append, List.length_singleton]
    omega
  obtain ⟨⟨natural, run⟩, greatest⟩ := isGreatest_border longer
  have positive : (0 : Int64) ≤ c.nextPosition :=
    Int64.le_of_lt (isLeast_nextPosition room).1.1
  have joined : c.nextPosition ≤ Int64.ofNat (c.push value).border := by
    refine greatest ⟨positive, (hasRun_push_iff room present).mpr ?_⟩
    exact fun p behind upTo => absurd upTo (Int64.not_le.mpr behind)
  refine ⟨⟨joined, (hasRun_push_iff room present).mp run⟩, ?_⟩
  rintro n ⟨further, more⟩
  exact greatest ⟨Int64.le_trans positive further, (hasRun_push_iff room present).mpr more⟩

/-- A position that is free is another key than all that are there. -/
theorem get?_nextPosition (room : c.entries.length < 2 ^ 63 - 1) :
    c.get? (.int c.nextPosition) = none := by
  have free := containsKey_border room
  rwa [containsKey_eq_isSome_get?, Option.isSome_eq_false_iff, Option.isNone_iff_eq_none] at free

end Contents

namespace Heap

variable {h : Heap} {t : Table}

theorem contents_push (holds : h.Holds t) (value : Value) :
    (h.push t value).contents t = (h.contents t).push value :=
  contents_setContents holds.id_lt _

theorem entries_push (holds : h.Holds t) (room : h.entryCount t < 2 ^ 63 - 1) {value : Value}
    (present : value.isNil = false) :
    (h.push t value).entries t =
      h.entries t ++ [(.int (Int64.ofNat (h.border t + 1)), value)] := by
  rw [Heap.entries, contents_push holds, Contents.entries_push room present]
  rfl

/-- Counting up ends at the border, where the run of keys from one on ends, and a push joins that
run right behind it. -/
theorem border_and_push (holds : h.Holds t) (room : h.entryCount t < 2 ^ 63 - 1) :
    let border := Int64.ofNat (h.border t)
    let behind := Int64.ofNat (h.border t + 1)
    (border.toInt = h.border t ∧ behind.toInt = h.border t + 1) ∧
      (∀ rounds, h.entryCount t ≤ rounds → (h.contents t).countUp? rounds 0 = some border) ∧
      IsGreatest {n | 0 ≤ n ∧ (h.contents t).HasRun 0 n} border ∧
      IsLeast {p | 0 < p ∧ h.containsKey t (.int p) = false} behind ∧
      (∀ (other : Heap) (u : Table), (∀ p, 0 < p → p ≤ behind →
        other.containsKey u (.int p) = h.containsKey t (.int p)) →
          other.border u = h.border t) ∧
      ∀ value, (value.isNil = true → h.push t value = h) ∧
        (value.isNil = false →
          let after := h.push t value
          h.get? t (.int behind) = none ∧
            (after.entries t).Perm ((.int behind, value) :: h.entries t) ∧
            after.keyOrder t = h.keyOrder t ∧ after.delegate t = h.delegate t ∧
            after = h.setContents t (after.contents t) ∧
            (Int64.ofNat (after.border t)).toInt = after.border t ∧
            IsGreatest {n | behind ≤ n ∧ (h.contents t).HasRun behind n}
              (Int64.ofNat (after.border t))) := by
  intro border behind
  have few : (h.contents t).entries.length < 2 ^ 63 - 1 := room
  have bound : h.border t ≤ h.entryCount t := (h.contents t).border_le_length
  refine ⟨⟨toInt_position (by omega), toInt_position (by omega)⟩, ?_, ?_, ?_, ?_, ?_⟩
  · intro rounds enough
    refine Contents.countUp?_position (i := 0) few (Nat.zero_le _) ?_
    exact (Nat.zero_add rounds).symm ▸ Nat.le_trans bound enough
  · exact Contents.isGreatest_border (by omega)
  · exact Contents.isLeast_nextPosition few
  · intro other u agree
    refine Contents.border_eq_of_agree few fun i upTo => ?_
    have inFront : i ≤ h.border t := upTo
    refine agree _ ?_ ((position_le_iff (by omega) (by omega)).mpr (by omega))
    rw [Int64.lt_iff_toInt_lt, toInt_position (by omega)]
    exact Int.natCast_succ_pos i
  · intro value
    refine ⟨fun nil => ?_, fun present => ?_⟩
    · rw [push, Contents.push_nil few nil, setContents_contents holds]
    · intro after
      have pushed : after.contents t = (h.contents t).push value := contents_push holds value
      have entries : after.entries t = h.entries t ++ [(.int behind, value)] :=
        entries_push holds room present
      have counted : after.border t ≤ (after.entries t).length :=
        (after.contents t).border_le_length
      have oneMore : (after.entries t).length = h.entryCount t + 1 := by
        rw [entries, List.length_append]
        rfl
      refine ⟨Contents.get?_nextPosition few, ?_, ?_, ?_, ?_, toInt_position (by omega), ?_⟩
      · rw [entries]
        exact List.perm_append_singleton _ _
      · rw [keyOrder, pushed, Contents.push, (Contents.insert_keeps _ _ _).1, keyOrder]
      · rw [Heap.delegate, pushed, Contents.push, (Contents.insert_keeps _ _ _).2, Heap.delegate]
      · rw [pushed]
        rfl
      · rw [Heap.border, pushed]
        exact Contents.isGreatest_border_push few present

/-- A table with the positions one, two and four, and with keys that are no positions. -/
def interrupted : Heap where
  cells := #[.fixed, .table ((((((Contents.insert {} (.int 4) (.bool true)).insert (.int 1)
    (.bool true)).insert (.int 0) (.bool true)).insert (.str "3") (.bool true)).insert (.int 2)
      (.bool true)).insert (.int (-1)) (.bool true))]

/-- The value that is pushed between two and four links them; neither the string nor zero count. -/
theorem interrupted_linked :
    interrupted.Holds ⟨1, none⟩ ∧ interrupted.entryCount ⟨1, none⟩ = 6 ∧
      interrupted.border ⟨1, none⟩ = 2 ∧
      (interrupted.contents ⟨1, none⟩).countUp? 6 0 = some 2 ∧
      interrupted.get? ⟨1, none⟩ (.int 3) = none ∧
      (interrupted.push ⟨1, none⟩ (.bool false)).border ⟨1, none⟩ = 4 ∧
      IsGreatest {n | 3 ≤ n ∧ (interrupted.contents ⟨1, none⟩).HasRun 3 n} 4 := by
  have holds : interrupted.Holds ⟨1, none⟩ := rfl
  have six : interrupted.entryCount ⟨1, none⟩ = 6 := by decide +kernel
  have two : interrupted.border ⟨1, none⟩ = 2 := by decide +kernel
  have four : (interrupted.push ⟨1, none⟩ (.bool false)).border ⟨1, none⟩ = 4 := by
    decide +kernel
  obtain ⟨_, counts, _, _, _, pushes⟩ := border_and_push holds (by rw [six]; decide)
  obtain ⟨free, _, _, _, _, _, greatest⟩ := (pushes (.bool false)).2 rfl
  rw [two] at counts free greatest
  rw [four] at greatest
  exact ⟨holds, six, two, counts 6 (Nat.le_of_eq six), free, four, greatest⟩

end Heap

end LispFrontEnd
