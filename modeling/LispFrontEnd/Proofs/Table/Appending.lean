import LispFrontEnd.Proofs.Table.Border
import LispFrontEnd.Proofs.Table.Refinement

/-! # Collecting values

A callback that leaves the heap alone and answers with values only is passed every entry that the
source has at the start, once and in canonical order, although the values are pushed to a table that
may be the source itself: what is pushed comes to free positions, so no entry of the source is
changed or taken out. The values that are not nil end up at the least free positions of the target,
in ascending order, as long as there are so many. They are all that is new there, and nothing else
in the heap has changed.
-/

namespace LispFrontEnd

namespace Contents

variable {c : Contents}

/-- These positions are free, and every free position below one of them is another of them. -/
structure LeastFree (c : Contents) (positions : List Int64) : Prop where
  free : ∀ p ∈ positions, c.FreeAt p
  ascending : positions.Pairwise (· < ·)
  least : ∀ p ∈ positions, ∀ q, c.FreeAt q → q < p → q ∈ positions

def pushAll (c : Contents) (values : List Value) : Contents := values.foldl push c

theorem pushAll_concat (c : Contents) (values : List Value) (value : Value) :
    c.pushAll (values ++ [value]) = (c.pushAll values).push value := by
  rw [pushAll, List.foldl_append]
  rfl

theorem leastFree_cons {value : Value} {positions : List Int64}
    (room : c.entries.length < 2 ^ 63 - 1) (present : value.isNil = false)
    (others : (c.push value).LeastFree positions) : c.LeastFree (c.nextPosition :: positions) := by
  obtain ⟨first, below⟩ := isLeast_nextPosition room
  have free (p : Int64) (member : p ∈ positions) : c.FreeAt p ∧ p ≠ c.nextPosition :=
    (freeAt_push room present).mp (others.free p member)
  refine ⟨?_, ?_, ?_⟩
  · exact List.forall_mem_cons.mpr ⟨first, fun p member => (free p member).1⟩
  · refine List.pairwise_cons.mpr ⟨fun p member => ?_, others.ascending⟩
    exact Int64.lt_of_le_of_ne (below (free p member).1) (free p member).2.symm
  · intro p member q freeQ before
    by_cases here : q = c.nextPosition
    · exact here ▸ List.mem_cons_self
    · rcases List.mem_cons.mp member with rfl | later
      · exact absurd (below freeQ) (Int64.not_le.mpr before)
      · have freeThen := (freeAt_push room present).mpr ⟨freeQ, here⟩
        exact List.mem_cons_of_mem _ (others.least p later q freeThen before)

/-- Values are pushed to the least free positions in turn, and nil leaves no trace. -/
theorem exists_leastFree (values : List Value)
    (room : c.entries.length + (values.filter (!·.isNil)).length < 2 ^ 63 - 1) :
    ∃ positions, c.LeastFree positions ∧
      positions.length = (values.filter (!·.isNil)).length ∧
      (c.pushAll values).entries =
        c.entries ++ (positions.map Key.int).zip (values.filter (!·.isNil)) := by
  induction values generalizing c with
  | nil => exact ⟨[], ⟨by simp, .nil, by simp⟩, rfl, (List.append_nil _).symm⟩
  | cons value rest ih =>
    cases nil : value.isNil with
    | true =>
      rw [List.filter_cons_of_neg (by simp [nil])] at room ⊢
      have same : c.pushAll (value :: rest) = c.pushAll rest := by
        rw [pushAll, List.foldl_cons, push_nil (by omega) nil]
        rfl
      rw [same]
      exact ih room
    | false =>
      rw [List.filter_cons_of_pos (by simp [nil]), List.length_cons] at room
      have here : c.entries.length < 2 ^ 63 - 1 := by omega
      have pushed := entries_push here nil
      obtain ⟨positions, leastFree, length, entries⟩ := ih (c := c.push value) (by
        rw [pushed, List.length_append, List.length_singleton]
        omega)
      refine ⟨c.nextPosition :: positions, leastFree_cons here nil leastFree, ?_, ?_⟩
      · rw [List.filter_cons_of_pos (by simp [nil]), List.length_cons, List.length_cons, length]
      · rw [List.filter_cons_of_pos (by simp [nil]), List.map_cons, List.zip_cons_cons]
        rw [pushed, List.append_assoc] at entries
        exact entries

/-- What is there stays as it is. -/
theorem get?_pushAll {key : Key} {value : Value} {values : List Value}
    (room : c.entries.length + (values.filter (!·.isNil)).length < 2 ^ 63 - 1)
    (found : c.get? key = some value) : (c.pushAll values).get? key = some value := by
  obtain ⟨positions, _, _, entries⟩ := c.exists_leastFree values room
  rw [get?, entries, Assoc.get?_append, show Assoc.get? c.entries key = some value from found]
  rfl

end Contents

namespace Heap

variable {σ : Type} {h : Heap} {source out : Table}

namespace EntryCallback

/-- A callback that only looks. -/
def LeavesHeap (f : EntryCallback σ) : Prop :=
  ∀ key value state, (f key value state).2.1 = state.1

/-- A callback that never makes a new entry. -/
def OnlyValues (f : EntryCallback σ) : Prop :=
  ∀ key value state, ∀ collected ∈ (f key value state).1, ∃ v, collected = .value v

end EntryCallback

/-- An entry that a callback has been passed, and what it has made of it. -/
structure EntryCall where
  entry : Key × Value
  answer : Option Collected

def EntryCall.value? (call : EntryCall) : Option Value :=
  match call.answer with
  | some (.value v) => some v
  | _ => none

/-- The values that calls have answered. -/
def answered (calls : List EntryCall) : List Value := calls.filterMap EntryCall.value?

/-- The same callback with a record of its calls. -/
def EntryCallback.recording (f : EntryCallback σ) : EntryCallback (σ × List EntryCall) :=
  fun key value state =>
    let (collected, h, s) := f key value (state.1, state.2.1)
    (collected, h, s, state.2.2 ++ [⟨(key, value), collected⟩])

variable {f : EntryCallback σ}

/-- Keeping a record changes nothing else. -/
theorem collectInto_recording (source out : Table) (f : EntryCallback σ)
    (state : Heap × (σ × List EntryCall)) :
    collectInto source out f (state.1, state.2.1) =
      ((collectInto source out f.recording state).1,
        (collectInto source out f.recording state).2.1) := by
  refine List.foldl_hom (fun state : Heap × (σ × List EntryCall) => (state.1, state.2.1)) ?_
  intro state key
  rw [collectEntry, collectEntry]
  cases state.1.get? source key with
  | none => rfl
  | some value => rfl

theorem get?_setContents_pushAll (holds : h.Holds out) {key : Key} {value : Value}
    {values : List Value}
    (room : h.entryCount out + (values.filter (!·.isNil)).length < 2 ^ 63 - 1)
    (found : h.get? source key = some value) :
    (h.setContents out ((h.contents out).pushAll values)).get? source key = some value := by
  by_cases same : source.id = out.id
  · rw [get?, contents_congr same] at found
    rw [get?, contents_congr same, contents_setContents holds.id_lt]
    exact Contents.get?_pushAll room found
  · rw [get?, contents_setContents_of_ne same]
    exact found

theorem store_setContents (holds : h.Holds out) (values : List Value) (call : EntryCall)
    (onlyValue : ∀ collected ∈ call.answer, ∃ v, collected = .value v) :
    (h.setContents out ((h.contents out).pushAll values)).store out call.answer =
      h.setContents out ((h.contents out).pushAll (values ++ answered [call])) := by
  obtain ⟨entry, answer⟩ := call
  cases answer with
  | none => rw [answered, List.filterMap_cons_none rfl, List.filterMap_nil, List.append_nil, store]
  | some collected =>
    obtain ⟨v, rfl⟩ := onlyValue collected rfl
    rw [store, push, contents_setContents holds.id_lt, setContents_setContents,
      ← Contents.pushAll_concat]
    rfl

/-- The table can take the values of some calls at positive integers. -/
def HasRoom (h : Heap) (out : Table) (calls : List EntryCall) : Prop :=
  h.entryCount out + ((answered calls).filter (!·.isNil)).length < 2 ^ 63 - 1

theorem HasRoom.of_prefix {calls more : List EntryCall} (room : h.HasRoom out more)
    (before : calls <+: more) : h.HasRoom out calls := by
  have fewer := ((before.filterMap EntryCall.value?).filter (!·.isNil)).length_le
  rw [HasRoom, answered] at room ⊢
  omega

/-- The calls so far have been passed these entries, and pushing their answers is all that has
happened to the heap. -/
structure Appended (h : Heap) (out : Table) (passed : List (Key × Value))
    (state : Heap × (σ × List EntryCall)) : Prop where
  heap : state.1 = h.setContents out ((h.contents out).pushAll (answered state.2.2))
  calls : state.2.2.map (·.entry) = passed

theorem calls_prefix_collectEntry (source out : Table) (f : EntryCallback σ)
    (state : Heap × (σ × List EntryCall)) (key : Key) :
    state.2.2 <+: (collectEntry source out f.recording state key).2.2 := by
  rw [collectEntry]
  cases state.1.get? source key with
  | none => exact List.prefix_rfl
  | some value => exact List.prefix_append _ _

/-- An entry of the source is still as it was at the start when its turn comes. -/
theorem Appended.collectEntry {passed : List (Key × Value)} {state : Heap × (σ × List EntryCall)}
    (appended : Appended h out passed state) (holds : h.Holds out) (leaves : f.LeavesHeap)
    (onlyValues : f.OnlyValues) (room : h.HasRoom out state.2.2) {key : Key} {value : Value}
    (found : h.get? source key = some value) :
    Appended h out (passed ++ [(key, value)])
      (Heap.collectEntry source out f.recording state key) := by
  obtain ⟨now, s, calls⟩ := state
  have heap : now = h.setContents out ((h.contents out).pushAll (answered calls)) := appended.heap
  have kept : now.get? source key = some value :=
    heap ▸ get?_setContents_pushAll holds room found
  rcases asked : f key value (now, s) with ⟨collected, later, last⟩
  have untouched : later = now := by
    have looks := leaves key value (now, s)
    rwa [asked] at looks
  have onlyValue : ∀ made ∈ collected, ∃ v, made = .value v := by
    have values := onlyValues key value (now, s)
    rwa [asked] at values
  have next : Heap.collectEntry source out f.recording (now, s, calls) key =
      (now.store out collected, last, calls ++ [⟨(key, value), collected⟩]) := by
    simp only [Heap.collectEntry, kept, EntryCallback.recording, asked, untouched]
  rw [next]
  refine ⟨?_, ?_⟩
  · have stored :=
      store_setContents holds (answered calls) ⟨(key, value), collected⟩ onlyValue
    rw [← heap] at stored
    rw [stored, answered, answered, answered, List.filterMap_append]
  · rw [List.map_append, appended.calls]
    rfl

theorem appended_foldl (holds : h.Holds out) (leaves : f.LeavesHeap) (onlyValues : f.OnlyValues)
    (s : σ) (keys : List Key) (there : ∀ key ∈ keys, ∃ value, h.get? source key = some value)
    (room : h.HasRoom out (keys.foldl (collectEntry source out f.recording) (h, s, [])).2.2) :
    Appended h out (keys.filterMap (h.pair? source))
      (keys.foldl (collectEntry source out f.recording) (h, s, [])) := by
  induction keys using List.reverseRecOn with
  | nil => exact ⟨(setContents_contents holds).symm, rfl⟩
  | append_singleton keys key ih =>
    rw [List.foldl_append, List.foldl_cons, List.foldl_nil] at room ⊢
    obtain ⟨before, last⟩ := List.forall_mem_append.mp there
    obtain ⟨value, found⟩ := last key (List.mem_singleton_self key)
    have roomBefore := room.of_prefix (calls_prefix_collectEntry source out f _ key)
    have pair : h.pair? source key = some (key, value) := pair?_eq_some_iff.mpr ⟨rfl, found⟩
    rw [List.filterMap_append, List.filterMap_cons_some pair, List.filterMap_nil]
    exact (ih before roomBefore).collectEntry holds leaves onlyValues roomBefore found

/-- The values that a callback answers for the entries of the source, in canonical order, come to
the least free positions of the target. -/
theorem collectInto_positional (source : Table) (holds : h.Holds out) (leaves : f.LeavesHeap)
    (onlyValues : f.OnlyValues) (s : σ) :
    let (after, last, calls) := collectInto source out f.recording (h, s, [])
    let values := (answered calls).filter (!·.isNil)
    h.entryCount out + values.length < 2 ^ 63 - 1 →
      collectInto source out f (h, s) = (after, last) ∧
      calls.map (·.entry) = EntryCursor.toList h (.ofTable h source) ∧
      ∃ positions, (h.contents out).LeastFree positions ∧ positions.length = values.length ∧
        (after.entries out).Perm (h.entries out ++ (positions.map Key.int).zip values) ∧
        after.keyOrder out = h.keyOrder out ∧ after.delegate out = h.delegate out ∧
        after = h.setContents out (after.contents out) := by
  rcases ran : collectInto source out f.recording (h, s, []) with ⟨after, last, calls⟩
  intro room
  have plain := collectInto_recording source out f (h, s, [])
  rw [ran] at plain
  have there (key : Key) (member : key ∈ h.canonicalKeys source) :
      ∃ value, h.get? source key = some value := by
    rw [← Option.isSome_iff_exists, ← containsKey_eq_isSome_get?]
    exact Contents.containsKey_of_mem_canonicalKeys member
  have roomThen : h.HasRoom out (collectInto source out f.recording (h, s, [])).2.2 := by
    rw [ran]
    exact room
  have appended : Appended h out (h.canonicalEntries source) (after, last, calls) :=
    ran ▸ appended_foldl holds leaves onlyValues s (h.canonicalKeys source) there roomThen
  have heap : after = h.setContents out ((h.contents out).pushAll (answered calls)) :=
    appended.heap
  have written : after.contents out = (h.contents out).pushAll (answered calls) := by
    rw [heap, contents_setContents holds.id_lt]
  obtain ⟨positions, leastFree, length, entries⟩ :=
    (h.contents out).exists_leastFree (answered calls) room
  obtain ⟨order, delegate⟩ := (h.contents out).foldl_insert_keeps
    (fun c _ => .int c.nextPosition) id (answered calls)
  refine ⟨plain, ?_, positions, leastFree, length, ?_, ?_, ?_, ?_⟩
  · rw [EntryCursor.toList_ofTable]
    exact appended.calls
  · rw [Heap.entries, written, entries]
    exact .refl _
  · rw [keyOrder, written]
    exact order
  · rw [Heap.delegate, written]
    exact delegate
  · rw [written, heap]

/-- A table with the positions one and three. -/
def gapped : Heap where
  cells := #[.fixed, .table (.insert (.insert (.insert (.insert {} (.int 1) (.bool true))
    (.int 3) (.bool false)) (.str "a") (.bool true)) (.str "b") (.bool false))]

/-- Answers nil under the first position and else the false values, and counts the calls. -/
def falseValues : EntryCallback Nat :=
  fun key value state =>
    match key, value with
    | .int 1, _ => (some (.value .nil), state.1, state.2 + 1)
    | _, .bool false => (some (.value (.bool false)), state.1, state.2 + 1)
    | _, _ => (none, state.1, state.2 + 1)

theorem canonicalKeys_gapped :
    gapped.canonicalKeys ⟨1, none⟩ = [.int 1, .int 3, .str "a", .str "b"] := by
  have all : (gapped.contents ⟨1, none⟩).unrecordedKeys =
    [.int 1, .int 3, .str "a", .str "b"] := rfl
  rw [canonicalKeys, Contents.canonicalKeys, all, List.mergeSort_of_pairwise (by decide)]
  rfl

theorem falseValues_leavesHeap : falseValues.LeavesHeap := by
  intro key value state
  unfold falseValues
  split <;> rfl

theorem falseValues_onlyValues : falseValues.OnlyValues := by
  intro key value state collected answered
  unfold falseValues at answered
  split at answered <;> cases answered <;> exact ⟨_, rfl⟩

/-- The table is its own target: of the two positions that it lacks, one is between its own. -/
theorem gapped_takes_falseValues :
    gapped.Holds ⟨1, none⟩ ∧ falseValues.LeavesHeap ∧ falseValues.OnlyValues ∧
      ∃ after calls, collectInto ⟨1, none⟩ ⟨1, none⟩ falseValues (gapped, 0) = (after, 4) ∧
        calls.map (·.entry) = EntryCursor.toList gapped (.ofTable gapped ⟨1, none⟩) ∧
        (answered calls).map (·.isNil) = [true, false, false] ∧
        after.get? ⟨1, none⟩ (.int 2) = some (.bool false) ∧
        after.get? ⟨1, none⟩ (.int 4) = some (.bool false) ∧
        ∃ positions, (gapped.contents ⟨1, none⟩).LeastFree positions ∧ positions.length = 2 ∧
          (after.entries ⟨1, none⟩).Perm (gapped.entries ⟨1, none⟩ ++
            (positions.map Key.int).zip ((answered calls).filter (!·.isNil))) := by
  rcases ran : collectInto ⟨1, none⟩ ⟨1, none⟩ falseValues.recording (gapped, 0, []) with
    ⟨after, last, calls⟩
  have computed := ran
  rw [collectInto, canonicalKeys_gapped] at computed
  have four : last = 4 := (congrArg (·.2.1) computed).symm
  have nils : (answered calls).map (·.isNil) = [true, false, false] :=
    (congrArg (fun state => (answered state.2.2).map (·.isNil)) computed).symm
  have two : ((answered calls).filter (!·.isNil)).length = 2 :=
    (congrArg (fun state => ((answered state.2.2).filter (!·.isNil)).length) computed).symm
  have between : after.get? ⟨1, none⟩ (.int 2) = some (.bool false) :=
    (congrArg (·.1.get? ⟨1, none⟩ (.int 2)) computed).symm
  have behind : after.get? ⟨1, none⟩ (.int 4) = some (.bool false) :=
    (congrArg (·.1.get? ⟨1, none⟩ (.int 4)) computed).symm
  have holds : gapped.Holds ⟨1, none⟩ := rfl
  have result :=
    collectInto_positional ⟨1, none⟩ holds falseValues_leavesHeap falseValues_onlyValues 0
  rw [ran] at result
  obtain ⟨same, passed, positions, leastFree, length, entries, _⟩ := result (by
    rw [two]
    decide +kernel)
  exact ⟨holds, falseValues_leavesHeap, falseValues_onlyValues, after, calls,
    four ▸ same, passed, nils, between, behind, positions, leastFree, length.trans two, entries⟩

end Heap

end LispFrontEnd
