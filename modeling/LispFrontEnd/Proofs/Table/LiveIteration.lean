import LispFrontEnd.Proofs.Table.Enumeration
import LispFrontEnd.Proofs.Table.Loop

/-! # Walking a table that changes

The keys that the cursor of a table goes through are fixed when it is made. Each call passes some of
them, in their order: those that are not in the table at that time, up to the first one that is,
which it yields with the value of that time, or all that are left. What the loop does to the heap
between its calls decides which keys are skipped and with which values the others come, and nothing
else. After the first empty answer all answers are empty.
-/

namespace LispFrontEnd.EntryCursor

/-- All calls of a loop over the entries of a table. -/
def loop (h : Heap) (t : Table) (actions : List Action) : List (Call EntryCursor (Key × Value)) :=
  calls next h (ofTable h t) actions

/-- The keys that a call goes past, the yielded one included. -/
def passed (call : Call EntryCursor (Key × Value)) : List Key :=
  call.before.pending.take (call.before.pending.length - call.after.pending.length)

/-- How a call treats the keys that it passes. -/
structure Treats (h : Heap) (t : Table) (answer : Option (Key × Value)) (keys : List Key) :
    Prop where
  yields : ∀ key ∈ keys, ∀ value, answer = some (key, value) ↔ h.get? t key = some value
  last : ∀ entry, answer = some entry → keys.getLast? = some entry.1

/-- A key that is absent is passed without an answer. -/
theorem Treats.skip {h : Heap} {t : Table} {answer : Option (Key × Value)} {keys : List Key}
    (treats : Treats h t answer keys) {key : Key} (absent : h.get? t key = none) :
    Treats h t answer (key :: keys) where
  yields other member value := by
    rcases List.mem_cons.mp member with rfl | behind
    · constructor
      · intro found
        have inKeys := List.mem_of_getLast? (treats.last _ found)
        exact (treats.yields other inKeys value).mp found
      · intro found
        rw [absent] at found
        cases found
    · exact treats.yields other behind value
  last entry found := by
    rw [List.getLast?_cons, treats.last entry found]
    rfl

theorem nextPending_treats (h : Heap) (t : Table) (pending : List Key) :
    ∃ keys, pending = keys ++ (nextPending h t pending).2 ∧
      Treats h t (nextPending h t pending).1 keys := by
  fun_induction nextPending h t pending with
  | case1 =>
    refine ⟨[], rfl, ?_, ?_⟩
    · intro key member
      cases member
    · intro entry found
      cases found
  | case2 key rest value found =>
    refine ⟨[key], rfl, ?_, ?_⟩
    · intro own member other
      obtain rfl := List.mem_singleton.mp member
      rw [found]
      simp
    · intro entry yields
      cases yields
      rfl
  | case3 key rest absent ih =>
    obtain ⟨keys, split, treats⟩ := ih
    exact ⟨key :: keys, congrArg (key :: ·) split, treats.skip absent⟩

theorem passed_treats (h : Heap) (cursor : EntryCursor) :
    cursor.pending = passed (.of next h cursor) ++ (next h cursor).2.pending ∧
      Treats h cursor.table (next h cursor).1 (passed (.of next h cursor)) := by
  obtain ⟨keys, split, treats⟩ := nextPending_treats h cursor.table cursor.pending
  have same : passed (.of next h cursor) = keys := by
    change cursor.pending.take (cursor.pending.length -
      (nextPending h cursor.table cursor.pending).2.length) = keys
    have length := congrArg List.length split
    rw [List.length_append] at length
    rw [length, Nat.add_sub_cancel]
    exact split ▸ List.take_left
  rw [same]
  exact ⟨split, treats⟩

variable {h : Heap} {t : Table} {actions : List Action} {call : Call EntryCursor (Key × Value)}

theorem loop_treats (member : call ∈ loop h t actions) :
    Treats call.heap t call.answer (passed call) := by
  have table := calls_keep (fun cursor : EntryCursor => cursor.table = t) (fun _ _ same => same) rfl
    call member
  have treats := (passed_treats call.heap call.before).2
  rw [table] at treats
  rw [eq_of_mem_calls member]
  exact treats

theorem mem_yielded_loop {key : Key} {value : Value} :
    (key, value) ∈ yielded (loop h t actions) ↔
      ∃ call ∈ loop h t actions, key ∈ passed call ∧ call.heap.get? t key = some value := by
  rw [mem_yielded]
  constructor
  · rintro ⟨call, member, found⟩
    have treats := loop_treats member
    have inKeys := List.mem_of_getLast? (treats.last _ found)
    exact ⟨call, member, inKeys, (treats.yields key inKeys value).mp found⟩
  · rintro ⟨call, member, inKeys, found⟩
    exact ⟨call, member, ((loop_treats member).yields key inKeys value).mpr found⟩

theorem yielded_loop_sublist (h : Heap) (t : Table) (actions : List Action) :
    ((yielded (loop h t actions)).map (·.1)).Sublist (h.canonicalKeys t) := by
  have parts : ∀ run : List (Call EntryCursor (Key × Value)),
      (∀ call ∈ run, call ∈ loop h t actions) →
        ((yielded run).map (·.1)).Sublist (run.flatMap passed) := by
    intro run inLoop
    induction run with
    | nil => exact List.Sublist.slnil
    | cons call rest ih =>
      have later := ih fun other member => inLoop other (List.mem_cons_of_mem call member)
      rw [List.flatMap_cons]
      cases found : call.answer with
      | none =>
        rw [yielded, List.filterMap_cons_none found]
        exact later.trans (List.sublist_append_right _ _)
      | some entry =>
        have last := (loop_treats (inLoop call List.mem_cons_self)).last entry found
        rw [yielded, List.filterMap_cons_some found, List.map_cons]
        exact (List.singleton_sublist.mpr (List.mem_of_getLast? last)).append later
  have order := calls_flatMap_prefix (fun h cursor => (passed_treats h cursor).1) h (ofTable h t)
    actions
  exact (parts (loop h t actions) fun _ member => member).trans order.sublist

theorem next_of_pending_nil (h : Heap) {cursor : EntryCursor} (used : cursor.pending = []) :
    next h cursor = (none, cursor) := by
  obtain ⟨table, pending⟩ := cursor
  obtain rfl : pending = [] := used
  rfl

/-- Whatever a loop does to the heap, it yields those canonical keys of the start that are in the
table at their turn, in their order. -/
theorem loop_snapshot_live (h : Heap) (t : Table) (actions : List Action) :
    (∀ earlier call later, loop h t actions = earlier ++ call :: later →
      h.canonicalKeys t = earlier.flatMap passed ++ passed call ++ call.after.pending ∧
      (call.answer = none → call.after.pending = [])) ∧
    (∀ call ∈ loop h t actions, Treats call.heap t call.answer (passed call)) ∧
    (∀ key value, (key, value) ∈ yielded (loop h t actions) ↔
      ∃ call ∈ loop h t actions, key ∈ passed call ∧ call.heap.get? t key = some value) ∧
    ((yielded (loop h t actions)).map (·.1)).Sublist (h.canonicalKeys t) ∧
    ((yielded (loop h t actions)).Pairwise fun a b => (a.1 == b.1) = false) ∧
    (yielded (loop h t actions)).length ≤ (h.canonicalKeys t).length ∧
    (∀ entry ∈ yielded (loop h t actions),
      entry.2.isNil = false ∧ h.containsKey t entry.1 = true) ∧
    (loop h t actions).Pairwise fun earlier later =>
      earlier.answer = none → later.answer = none := by
  have sublist := yielded_loop_sublist h t actions
  have stop (h : Heap) (cursor : EntryCursor) (none : (next h cursor).1 = none) :
      (next h cursor).2.pending = [] := nextPending_eq_none none
  refine ⟨?_, fun call => loop_treats, fun key value => mem_yielded_loop, sublist, ?_, ?_, ?_, ?_⟩
  · intro earlier call later split
    refine ⟨calls_account (fun h cursor => (passed_treats h cursor).1) split, fun empty => ?_⟩
    have step := eq_of_mem_calls (split ▸ List.mem_append_cons_self : call ∈ loop h t actions)
    rw [step] at empty ⊢
    exact stop call.heap call.before empty
  · have different := (h.contents t).canonicalKeys_pairwise h.names
    exact List.pairwise_map.mp (different.sublist sublist)
  · simpa using sublist.length_le
  · rintro ⟨key, value⟩ member
    obtain ⟨call, _, _, found⟩ := mem_yielded_loop.mp member
    obtain ⟨own, _, there⟩ := Assoc.mem_of_get? found
    have inKeys := sublist.subset (List.mem_map_of_mem member)
    exact ⟨(call.heap.contents t).stored (own, value) there,
      Contents.containsKey_of_mem_canonicalKeys inKeys⟩
  · exact calls_pairwise_none (fun cursor : EntryCursor => cursor.pending = []) stop
      (fun h cursor => next_of_pending_nil h) h (ofTable h t) actions

end LispFrontEnd.EntryCursor
