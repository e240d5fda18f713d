import LispFrontEnd.Proofs.Assoc
import LispFrontEnd.Proofs.Syntax.Identity
import LispFrontEnd.Proofs.Table.SortKey
import Mathlib.Data.List.Nodup

/-! # The canonical keys of a table

The canonical keys of a table are its keys up to equality, each once: those of the recorded order at
their first places there, and after them all others, ascending by sort key. Nothing here depends on
how the table came to its contents.
-/

namespace LispFrontEnd

/-- The items of a list that equal none before them. -/
def firstOccurrences {α : Type} [BEq α] (items : List α) : List α :=
  (items.zipIdx.filter fun place => !(items.take place.2).contains place.1).map (·.1)

section FirstOccurrences
variable {α : Type} [BEq α]

/-- Counts the items of `seen` as if they stood in front of the list. -/
private theorem eraseDups_filter_eq [EquivBEq α] (seen items : List α) :
    (items.filter fun item => !seen.contains item).eraseDups =
      (items.zipIdx.filter fun place =>
        !(seen ++ items.take place.2).contains place.1).map (·.1) := by
  induction items generalizing seen with
  | nil => rfl
  | cons head rest ih =>
    have later : ((rest.zipIdx 1).filter fun place =>
          !(seen ++ (head :: rest).take place.2).contains place.1).map (·.1) =
        (rest.filter fun item => !(seen ++ [head]).contains item).eraseDups := by
      rw [ih, List.zipIdx_succ, List.filter_map, List.map_map]
      congr 1
      exact List.filter_congr fun place _ => by simp [List.take_succ_cons]
    have extended (item : α) : (seen ++ [head]).contains item =
        (seen.contains item || item == head) := by
      simp [Bool.or_comm]
    rw [List.zipIdx_cons, List.filter_cons, List.filter_cons]
    dsimp only
    rw [List.take_zero, List.append_nil]
    by_cases known : seen.contains head = true
    · simp only [known, Bool.not_true, Bool.false_eq_true, ↓reduceIte]
      rw [later]
      congr 1
      refine List.filter_congr fun item _ => ?_
      by_cases same : (item == head) = true
      · rw [extended, List.contains_congr same, known, Bool.true_or]
      · rw [extended, Bool.eq_false_of_not_eq_true same, Bool.or_false]
    · simp only [known, Bool.not_false, ↓reduceIte, List.map_cons]
      rw [later, List.eraseDups_cons, List.filter_filter]
      congr 2
      refine List.filter_congr fun item _ => ?_
      rw [extended, Bool.not_or, Bool.and_comm]

theorem eraseDups_eq_firstOccurrences [EquivBEq α] (items : List α) :
    items.eraseDups = firstOccurrences items := by
  have unseen := eraseDups_filter_eq [] items
  simpa [firstOccurrences] using unseen

/-- Which items come first does not depend on items that are left out with all their equals. -/
theorem eraseDups_filter {keep : α → Bool}
    (respects : ∀ a b, (a == b) = true → keep a = keep b) (items : List α) :
    (items.filter keep).eraseDups = items.eraseDups.filter keep := by
  match items with
  | [] => rfl
  | head :: rest =>
    have later := eraseDups_filter respects (rest.filter fun item => !item == head)
    rw [List.filter_filter] at later
    rw [List.eraseDups_cons, List.filter_cons, List.filter_cons, ← later]
    by_cases kept : keep head = true
    · simp only [kept, ↓reduceIte, List.eraseDups_cons, List.filter_filter, Bool.and_comm]
    · simp only [kept, Bool.false_eq_true, ↓reduceIte]
      congr 1
      refine List.filter_congr fun item _ => ?_
      by_cases same : (item == head) = true
      · simp [respects item head same, kept]
      · simp [same]
termination_by items.length
decreasing_by exact Nat.lt_succ_of_le (List.length_filter_le _ _)

end FirstOccurrences

/-- Keys are dropped as repeated exactly when their identities are. -/
theorem Key.map_identity_eraseDups (keys : List Key) :
    keys.eraseDups.map identity = (keys.map identity).eraseDups := by
  match keys with
  | [] => rfl
  | head :: rest =>
    rw [List.eraseDups_cons, List.map_cons, List.map_cons, List.eraseDups_cons,
      map_identity_eraseDups (rest.filter fun key => !key == head), List.filter_map]
    congr 3
    refine List.filter_congr fun key _ => ?_
    rw [Function.comp_apply, Bool.eq_iff_iff, Bool.not_eq_true', Bool.not_eq_true',
      Key.beq_eq_false_iff, beq_eq_false_iff_ne]
termination_by keys.length
decreasing_by exact Nat.lt_succ_of_le (List.length_filter_le _ _)

private theorem eraseDups_nodup {α : Type} [BEq α] [LawfulBEq α] (items : List α) :
    items.eraseDups.Nodup := by
  match items with
  | [] => exact List.nodup_nil
  | head :: rest =>
    rw [List.eraseDups_cons, List.nodup_cons]
    refine ⟨fun repeated => ?_, eraseDups_nodup (rest.filter fun item => !item == head)⟩
    simpa using (List.mem_filter.mp (List.mem_eraseDups.mp repeated)).2
termination_by items.length
decreasing_by exact Nat.lt_succ_of_le (List.length_filter_le _ _)

namespace Contents

variable {c : Contents} {key : Key}

theorem containsKey_congr (c : Contents) {a b : Key} (same : (a == b) = true) :
    c.containsKey a = c.containsKey b :=
  Assoc.contains_congr c.entries same

theorem containsKey_eq_isSome_get? (c : Contents) (key : Key) :
    c.containsKey key = (c.get? key).isSome :=
  Assoc.contains_eq_isSome_get? c.entries key

theorem containsKey_iff : c.containsKey key = true ↔ key.identity ∈ c.keys.map Key.identity := by
  rw [containsKey, Assoc.contains_iff_exists, List.mem_map]
  simp only [Key.beq_iff]
  rfl

theorem keys_nodup (c : Contents) : (c.keys.map Key.identity).Nodup :=
  Key.pairwise_beq_false_iff.mp (List.pairwise_map.mpr c.distinct)

theorem recordedKeys_eq (c : Contents) :
    c.recordedKeys = (firstOccurrences (c.order.getD [])).filter c.containsKey := by
  rw [recordedKeys, eraseDups_filter fun _ _ => c.containsKey_congr, eraseDups_eq_firstOccurrences]

theorem recordedKeys_nodup (c : Contents) : (c.recordedKeys.map Key.identity).Nodup := by
  rw [recordedKeys, Key.map_identity_eraseDups]
  exact eraseDups_nodup _

theorem identity_mem_recordedKeys : key.identity ∈ c.recordedKeys.map Key.identity ↔
    c.containsKey key = true ∧ (c.order.getD []).contains key = true := by
  rw [recordedKeys, Key.map_identity_eraseDups, List.mem_eraseDups, List.mem_map, Key.contains_iff,
    List.mem_map]
  constructor
  · rintro ⟨own, member, same⟩
    obtain ⟨listed, present⟩ := List.mem_filter.mp member
    exact ⟨c.containsKey_congr (Key.beq_iff.mpr same) ▸ present, own, listed, same⟩
  · rintro ⟨present, own, listed, same⟩
    refine ⟨own, List.mem_filter.mpr ⟨listed, ?_⟩, same⟩
    rw [c.containsKey_congr (Key.beq_iff.mpr same), present]

theorem unrecordedKeys_eq (c : Contents) :
    c.unrecordedKeys = c.keys.filter fun key => !(c.order.getD []).contains key := by
  refine List.filter_congr fun key member => ?_
  have present : c.containsKey key = true := containsKey_iff.mpr (List.mem_map_of_mem member)
  congr 1
  rw [Bool.eq_iff_iff, Key.contains_iff, identity_mem_recordedKeys, and_iff_right present]

theorem unrecordedKeys_nodup (c : Contents) : (c.unrecordedKeys.map Key.identity).Nodup :=
  (List.filter_sublist.map Key.identity).nodup c.keys_nodup

theorem identity_mem_unrecordedKeys : key.identity ∈ c.unrecordedKeys.map Key.identity ↔
    c.containsKey key = true ∧ ¬ (c.order.getD []).contains key = true := by
  rw [unrecordedKeys_eq, List.mem_map, containsKey_iff, List.mem_map]
  constructor
  · rintro ⟨own, member, same⟩
    obtain ⟨there, outside⟩ := List.mem_filter.mp member
    rw [Bool.not_eq_true', ← Bool.not_eq_true,
      List.contains_congr (Key.beq_iff.mpr same)] at outside
    exact ⟨⟨own, there, same⟩, outside⟩
  · rintro ⟨⟨own, there, same⟩, outside⟩
    refine ⟨own, List.mem_filter.mpr ⟨there, ?_⟩, same⟩
    rw [Bool.not_eq_true', ← Bool.not_eq_true, List.contains_congr (Key.beq_iff.mpr same)]
    exact outside

/-- The keys outside the recorded order, ascending by sort key. -/
def sortedKeys (names : NamePool) (c : Contents) : List Key :=
  c.unrecordedKeys.mergeSort fun a b => (a.sortKey names).le (b.sortKey names)

theorem canonicalKeys_eq (names : NamePool) (c : Contents) :
    c.canonicalKeys names = c.recordedKeys ++ c.sortedKeys names := rfl

theorem sortedKeys_perm (names : NamePool) (c : Contents) :
    (c.sortedKeys names).Perm c.unrecordedKeys :=
  List.mergeSort_perm _ _

theorem sortedKeys_ascending (names : NamePool) (c : Contents) :
    (c.sortedKeys names).Pairwise fun a b => (a.sortKey names).le (b.sortKey names) = true := by
  refine List.pairwise_mergeSort ?_ ?_ _
  · intro a b d first second
    exact SortKey.le_trans first second
  · intro a b
    exact SortKey.le_total _ _

theorem canonicalKeys_nodup (names : NamePool) (c : Contents) :
    ((c.canonicalKeys names).map Key.identity).Nodup := by
  have sorted := (c.sortedKeys_perm names).map Key.identity
  rw [canonicalKeys_eq, List.map_append, List.nodup_append]
  refine ⟨c.recordedKeys_nodup, sorted.nodup_iff.mpr c.unrecordedKeys_nodup, ?_⟩
  intro identity recorded other unrecorded same
  obtain ⟨key, _, rfl⟩ := List.mem_map.mp recorded
  have outside := identity_mem_unrecordedKeys.mp (sorted.mem_iff.mp (same ▸ unrecorded))
  exact outside.2 (identity_mem_recordedKeys.mp recorded).2

/-- No two canonical keys are equal. -/
theorem canonicalKeys_pairwise (names : NamePool) (c : Contents) :
    (c.canonicalKeys names).Pairwise fun a b => (a == b) = false :=
  Key.pairwise_beq_false_iff.mpr (c.canonicalKeys_nodup names)

theorem identity_mem_canonicalKeys {names : NamePool} :
    key.identity ∈ (c.canonicalKeys names).map Key.identity ↔ c.containsKey key = true := by
  rw [canonicalKeys_eq, List.map_append, List.mem_append,
    ((c.sortedKeys_perm names).map Key.identity).mem_iff, identity_mem_recordedKeys,
    identity_mem_unrecordedKeys, ← and_or_left]
  exact and_iff_left (Classical.em _)

theorem containsKey_of_mem_canonicalKeys {names : NamePool} (member : key ∈ c.canonicalKeys names) :
    c.containsKey key = true :=
  identity_mem_canonicalKeys.mp (List.mem_map_of_mem member)

/-- The key objects are those of the recorded order and those of the table. -/
theorem mem_of_mem_canonicalKeys {names : NamePool} (member : key ∈ c.canonicalKeys names) :
    key ∈ c.order.getD [] ∨ key ∈ c.keys := by
  rw [canonicalKeys_eq, List.mem_append, (c.sortedKeys_perm names).mem_iff] at member
  rcases member with recorded | unrecorded
  · rw [recordedKeys_eq, List.mem_filter] at recorded
    obtain ⟨place, first, rfl⟩ := List.mem_map.mp recorded.1
    exact .inl (List.fst_mem_of_mem_zipIdx (List.mem_filter.mp first).1)
  · exact .inr (List.mem_filter.mp unrecorded).1

end Contents

end LispFrontEnd
