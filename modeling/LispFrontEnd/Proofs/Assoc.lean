import LispFrontEnd.Assoc

/-! # Reading association lists

A key is in a map when an equal key stands in its list. When keys are different the value under a
key is that of the one pair with an equal key. When pairs with different keys are set one after the
other, their order decides no more than the order of the new pairs.
-/

namespace LispFrontEnd.Assoc

variable {α β : Type} [BEq α]

theorem contains_eq_isSome_get? (m : Assoc α β) (key : α) :
    contains m key = (get? m key).isSome := by
  rw [contains, get?, Option.isSome_map, Bool.eq_iff_iff, List.any_eq_true, List.find?_isSome]

theorem get?_eq_none_iff {m : Assoc α β} {key : α} :
    get? m key = none ↔ contains m key = false := by
  rw [contains_eq_isSome_get?, Option.isSome_eq_false_iff, Option.isNone_iff_eq_none]

theorem contains_iff_exists {m : Assoc α β} {key : α} :
    contains m key = true ↔ ∃ own ∈ keys m, (own == key) = true := by
  simp [contains, keys, List.any_eq_true]

theorem get?_cons (pair : α × β) (rest : Assoc α β) (key : α) :
    get? (pair :: rest) key = if pair.1 == key then some pair.2 else get? rest key := by
  rw [get?, List.find?_cons, get?]
  cases pair.1 == key <;> rfl

theorem mem_of_get? {m : Assoc α β} {key : α} {value : β} (found : get? m key = some value) :
    ∃ own, (own == key) = true ∧ (own, value) ∈ m := by
  obtain ⟨⟨own, _⟩, first, rfl⟩ := Option.map_eq_some_iff.mp found
  have same := List.find?_some first
  exact ⟨own, same, List.mem_of_find?_eq_some first⟩

theorem get?_append (m others : Assoc α β) (key : α) :
    get? (m ++ others) key = (get? m key).or (get? others key) := by
  simp only [get?, List.find?_append]
  exact Option.map_or

/-- A key that is not in a map is added at the end. -/
theorem insert_of_not_contains {m : Assoc α β} {key : α} (absent : contains m key = false)
    (value : β) : insert m key value = m ++ [(key, value)] := by
  induction m with
  | nil => rfl
  | cons head rest ih =>
    rw [contains, List.any_cons, Bool.or_eq_false_iff] at absent
    rw [insert, absent.1, List.cons_append, ← ih absent.2]
    rfl

theorem erase_of_not_contains {m : Assoc α β} {key : α} (absent : contains m key = false) :
    erase m key = m := by
  refine List.filter_eq_self.mpr fun entry member => ?_
  simpa using List.any_eq_false.mp absent entry member

/-- Setting a key to the value that it has changes nothing. -/
theorem insert_of_get? {m : Assoc α β} {key : α} {value : β} (found : get? m key = some value) :
    insert m key value = m := by
  induction m with
  | nil => cases found
  | cons head rest ih =>
    rw [get?_cons] at found
    rw [insert]
    split at found
    · rename_i same
      cases found
      exact if_pos same
    · rename_i different
      rw [if_neg different, ih found]

theorem ofList_concat (pairs : List (α × β)) (pair : α × β) :
    ofList (pairs ++ [pair]) = insert (ofList pairs) pair.1 pair.2 := by
  rw [ofList, List.foldl_append]
  rfl

section Equivalence
variable [EquivBEq α]

theorem get?_congr (m : Assoc α β) {a b : α} (same : (a == b) = true) : get? m a = get? m b := by
  rw [get?, get?]
  congr 2
  funext entry
  exact BEq.congr_right same

theorem contains_congr (m : Assoc α β) {a b : α} (same : (a == b) = true) :
    contains m a = contains m b := by
  rw [contains_eq_isSome_get?, contains_eq_isSome_get?, get?_congr m same]

theorem get?_of_mem {m : Assoc α β} (distinct : Distinct m) {key : α} {value : β}
    (member : (key, value) ∈ m) : get? m key = some value := by
  induction m with
  | nil => cases member
  | cons head rest ih =>
    obtain ⟨first, others⟩ := List.pairwise_cons.mp distinct
    rw [get?, List.find?_cons]
    rcases List.mem_cons.mp member with rfl | later
    · simp
    · rw [first _ later]
      exact ih others later

theorem get?_eq_some_iff {m : Assoc α β} (distinct : Distinct m) {key : α} {value : β} :
    get? m key = some value ↔ ∃ own, (own == key) = true ∧ (own, value) ∈ m := by
  refine ⟨mem_of_get?, ?_⟩
  rintro ⟨own, same, member⟩
  rw [← get?_congr m same]
  exact get?_of_mem distinct member

theorem distinct_of_perm {m other : Assoc α β} (distinct : Distinct m) (perm : other.Perm m) :
    Distinct other :=
  distinct.perm perm.symm BEq.symm_false

theorem get?_perm {m other : Assoc α β} (distinct : Distinct m) (perm : other.Perm m) (key : α) :
    get? other key = get? m key := by
  have distinctOther := distinct_of_perm distinct perm
  refine Option.ext fun value => ?_
  rw [get?_eq_some_iff distinct, get?_eq_some_iff distinctOther]
  simp only [perm.mem_iff]

theorem get?_insert (m : Assoc α β) (own key : α) (value : β) :
    get? (insert m own value) key = if own == key then some value else get? m key := by
  induction m with
  | nil => exact get?_cons (own, value) [] key
  | cons head rest ih =>
    rw [insert]
    split
    · rename_i same
      rw [get?_cons, get?_cons, BEq.congr_left same]
      split <;> rfl
    · rename_i different
      rw [get?_cons, get?_cons, ih]
      by_cases here : (head.1 == key) = true
      · have apart : (own == key) = false :=
          (BEq.congr_right here).symm.trans (BEq.symm_false (eq_false_of_ne_true different))
        rw [apart, here]
        rfl
      · rw [if_neg here, if_neg here]

/-- Of the pairs under a key that are set one after the other the last one counts. -/
theorem get?_foldl_insert (m : Assoc α β) (pairs : List (α × β)) (key : α) :
    get? (pairs.foldl (fun m pair => insert m pair.1 pair.2) m) key =
      (get? pairs.reverse key).or (get? m key) := by
  induction pairs generalizing m with
  | nil => rfl
  | cons pair rest ih =>
    rw [List.foldl_cons, ih, get?_insert, List.reverse_cons, get?_append, Option.or_assoc,
      get?_cons]
    split <;> rfl

theorem contains_eq_false_of_cons {pair : α × β} {rest : Assoc α β}
    (distinct : Distinct (pair :: rest)) : contains rest pair.1 = false := by
  refine List.any_eq_false.mpr fun entry member => ?_
  rw [BEq.symm_false ((List.pairwise_cons.mp distinct).1 entry member)]
  exact Bool.false_ne_true

/-- A key that is in a map takes the value over, and keeps its place and its key object. -/
theorem insert_of_contains {m : Assoc α β} (distinct : Distinct m) {key : α}
    (present : contains m key = true) (value : β) :
    insert m key value =
      m.map fun entry => (entry.1, if entry.1 == key then value else entry.2) := by
  induction m with
  | nil => cases present
  | cons head rest ih =>
    rw [insert, List.map_cons]
    split
    · rename_i same
      have absent : contains rest key = false :=
        contains_congr rest same ▸ contains_eq_false_of_cons distinct
      have untouched (entry : α × β) (member : entry ∈ rest) :
          (entry.1, if entry.1 == key then value else entry.2) = entry :=
        congrArg (entry.1, ·) (if_neg (List.any_eq_false.mp absent entry member))
      rw [List.map_congr_left untouched, List.map_id']
    · rename_i different
      rw [contains, List.any_cons, eq_false_of_ne_true different, Bool.false_or] at present
      rw [ih (List.pairwise_cons.mp distinct).2 present]

theorem contains_insert (m : Assoc α β) (own key : α) (value : β) :
    contains (insert m own value) key = (contains m key || own == key) := by
  induction m with
  | nil => exact Bool.or_comm _ _
  | cons head rest ih =>
    rw [insert]
    split
    · rename_i same
      rw [contains, contains, List.any_cons, List.any_cons, ← BEq.congr_left same,
        Bool.or_right_comm, Bool.or_self]
    · rw [contains, contains, List.any_cons, List.any_cons, Bool.or_assoc]
      exact congrArg (head.1 == key || ·) ih

/-- Pairs with different keys that are set one after the other: the keys that were there take the
values over, and the other pairs come behind them. -/
theorem foldl_insert_eq {m pairs : Assoc α β} (distinct : Distinct m) (pairwise : Distinct pairs) :
    pairs.foldl (fun m pair => insert m pair.1 pair.2) m =
      m.map (fun entry => (entry.1, (get? pairs entry.1).getD entry.2)) ++
        pairs.filter (fun pair => !contains m pair.1) := by
  induction pairs generalizing m with
  | nil => exact ((List.append_nil _).trans (List.map_id' m)).symm
  | cons pair rest ih =>
    have once : get? rest pair.1 = none :=
      get?_eq_none_iff.mpr (contains_eq_false_of_cons pairwise)
    -- Keys of later pairs are different from this one, so it does not make them present.
    have others : rest.filter (fun other => !contains (insert m pair.1 pair.2) other.1) =
        rest.filter (fun other => !contains m other.1) := by
      refine List.filter_congr fun other member => ?_
      rw [contains_insert, (List.pairwise_cons.mp pairwise).1 other member, Bool.or_false]
    rw [List.foldl_cons, ih (distinct.insert pair.1 pair.2) (List.pairwise_cons.mp pairwise).2,
      others, List.filter_cons]
    cases present : contains m pair.1 with
    | true =>
      have last (entry : α × β) :
          (get? rest entry.1).getD (if entry.1 == pair.1 then pair.2 else entry.2) =
            (get? (pair :: rest) entry.1).getD entry.2 := by
        rw [get?_cons, BEq.comm (a := pair.1)]
        split
        · rename_i same
          rw [get?_congr rest same, once]
          rfl
        · rfl
      rw [insert_of_contains distinct present, List.map_map]
      refine congrArg (· ++ _) (List.map_congr_left fun entry _ => ?_)
      exact congrArg (entry.1, ·) (last entry)
    | false =>
      rw [insert_of_not_contains present, List.map_append, List.append_assoc]
      have kept (entry : α × β) (member : entry ∈ m) :
          get? rest entry.1 = get? (pair :: rest) entry.1 := by
        have different := eq_false_of_ne_true (List.any_eq_false.mp present entry member)
        rw [get?_cons, BEq.symm_false different]
        rfl
      rw [List.map_congr_left fun entry member => by rw [kept entry member]]
      rw [List.map_singleton, once]
      rfl

/-- The order in which pairs with different keys are set decides no more than the order of the new
pairs. -/
theorem foldl_insert_perm {m pairs others : Assoc α β} (distinct : Distinct m)
    (pairwise : Distinct pairs) (perm : others.Perm pairs) :
    (others.foldl (fun m pair => insert m pair.1 pair.2) m).Perm
      (pairs.foldl (fun m pair => insert m pair.1 pair.2) m) := by
  have pairwiseOthers := distinct_of_perm pairwise perm
  rw [foldl_insert_eq distinct pairwise, foldl_insert_eq distinct pairwiseOthers,
    funext (get?_perm pairwise perm)]
  exact (perm.filter _).append_left _

end Equivalence

section Lawful
variable [LawfulBEq α] {pairs : List (α × β)} {key : α} {value : β}

/-- A map of a list of pairs has under a key the last value that stands under it there. -/
theorem get?_ofList_eq_some_iff :
    get? (ofList pairs) key = some value ↔
      ∃ earlier later, pairs = earlier ++ (key, value) :: later ∧
        ∀ pair ∈ later, pair.1 ≠ key := by
  rw [ofList, get?_foldl_insert, get?, get?, List.find?_nil, Option.map_none, Option.or_none,
    Option.map_eq_some_iff]
  -- The first pair under the key from behind is the last one.
  constructor
  · rintro ⟨⟨own, _⟩, found, rfl⟩
    obtain ⟨same, later, earlier, split, others⟩ := List.find?_eq_some_iff_append.mp found
    obtain rfl := eq_of_beq same
    refine ⟨earlier.reverse, later.reverse, ?_, fun pair member => ?_⟩
    · rw [← List.reverse_reverse pairs, split]
      simp
    · simpa using others pair (List.mem_reverse.mp member)
  · rintro ⟨earlier, later, rfl, others⟩
    refine ⟨(key, value), List.find?_eq_some_iff_append.mpr ⟨beq_self_eq_true key, ?_⟩, rfl⟩
    exact ⟨later.reverse, earlier.reverse, by simp, fun pair member => by
      simpa using others pair (List.mem_reverse.mp member)⟩

theorem get?_ofList_eq_none_iff :
    get? (ofList pairs) key = none ↔ ∀ pair ∈ pairs, pair.1 ≠ key := by
  rw [ofList, get?_foldl_insert, get?, get?, List.find?_nil, Option.map_none, Option.or_none,
    Option.map_eq_none_iff, List.find?_eq_none]
  simp only [List.mem_reverse, beq_iff_eq, ne_eq]

end Lawful

end LispFrontEnd.Assoc
