import LispFrontEnd.Proofs.Syntax.Identity
import LispFrontEnd.Proofs.Table.DelegateChain
import LispFrontEnd.Proofs.Table.Loop

/-! # Walking a chain that changes

A loop may redirect the delegates of the tables that its cursor walks, and change their entries,
between any two calls. `Advance` spells out how one call runs in the heap of that time, pass by
pass, and with it which tables the call starts to walk. Every call ends; over all calls no key is
yielded twice and no table is started twice. What a call yields is at that time in the table being
walked, which was started last, and after the first empty answer all are empty.
-/

namespace LispFrontEnd.ChainCursor

/-- How a call runs: the tables that it starts to walk, its answer, and the cursor after it. -/
inductive Advance (h : Heap) :
    ChainCursor → List Nat → Option (Key × Value) → ChainCursor → Prop where
  -- Every rule but this one is one pass of the loop over keys and tables.
  | used {pending seenKeys : List Key} {seenTables : List Nat} :
    Advance h ⟨none, pending, seenKeys, seenTables⟩ [] none ⟨none, pending, seenKeys, seenTables⟩
  | yield {t : Table} {key : Key} {value : Value} {pending seenKeys : List Key}
      {seenTables : List Nat} (found : h.get? t key = some value)
      (fresh : seenKeys.contains key = false) :
    Advance h ⟨some t, key :: pending, seenKeys, seenTables⟩ [] (some (key, value))
      ⟨some t, pending, key :: seenKeys, seenTables⟩
  | skip {t : Table} {key : Key} {pending seenKeys : List Key} {seenTables started : List Nat}
      {answer : Option (Key × Value)} {after : ChainCursor}
      (passed : h.get? t key = none ∨ seenKeys.contains key = true)
      (rest : Advance h ⟨some t, pending, seenKeys, seenTables⟩ started answer after) :
    Advance h ⟨some t, key :: pending, seenKeys, seenTables⟩ started answer after
  | stop {t : Table} {seenKeys : List Key} {seenTables : List Nat}
      (closes : ∀ d, h.delegate t = some d → d.id ∈ seenTables) :
    Advance h ⟨some t, [], seenKeys, seenTables⟩ [] none ⟨none, [], seenKeys, seenTables⟩
  | descend {t d : Table} {seenKeys : List Key} {seenTables started : List Nat}
      {answer : Option (Key × Value)} {after : ChainCursor} (next : h.delegate t = some d)
      (fresh : d.id ∉ seenTables)
      (rest : Advance h ⟨some d, h.canonicalKeys d, seenKeys, d.id :: seenTables⟩ started answer
        after) :
    Advance h ⟨some t, [], seenKeys, seenTables⟩ (d.id :: started) answer after

variable {h : Heap} {cursor after : ChainCursor} {started : List Nat}
  {answer : Option (Key × Value)}

section Level
variable {t : Table} {pending rest seenKeys : List Key} (seenTables : List Nat)

theorem advance_of_nextFresh_some {entry : Key × Value}
    (step : nextFresh h t seenKeys pending = (some entry, rest)) :
    Advance h ⟨some t, pending, seenKeys, seenTables⟩ [] (some entry)
      ⟨some t, rest, entry.1 :: seenKeys, seenTables⟩ := by
  fun_induction nextFresh h t seenKeys pending with
  | case1 => cases step
  | case2 key pending value found repeated ih => exact .skip (.inr repeated) (ih step)
  | case3 key pending value found fresh =>
    cases step
    exact .yield found (Bool.eq_false_iff.mpr fresh)
  | case4 key pending absent ih => exact .skip (.inl absent) (ih step)

theorem advance_of_nextFresh_none (step : nextFresh h t seenKeys pending = (none, rest))
    (further : Advance h ⟨some t, [], seenKeys, seenTables⟩ started answer after) :
    rest = [] ∧ Advance h ⟨some t, pending, seenKeys, seenTables⟩ started answer after := by
  fun_induction nextFresh h t seenKeys pending with
  | case1 =>
    cases step
    exact ⟨rfl, further⟩
  | case2 key pending value found repeated ih =>
    obtain ⟨empty, passes⟩ := ih step
    exact ⟨empty, passes.skip (.inr repeated)⟩
  | case3 => cases step
  | case4 key pending absent ih =>
    obtain ⟨empty, passes⟩ := ih step
    exact ⟨empty, passes.skip (.inl absent)⟩

end Level

theorem exists_advance_nextFrom (h : Heap) (t : Table) (pending seenKeys : List Key)
    (seenTables : List Nat) :
    ∃ started, Advance h ⟨some t, pending, seenKeys, seenTables⟩ started
      (nextFrom h t pending seenKeys seenTables).1
      (nextFrom h t pending seenKeys seenTables).2 := by
  fun_induction nextFrom h t pending seenKeys seenTables with
  | case1 t pending seenTables entry rest step =>
    exact ⟨[], advance_of_nextFresh_some seenTables step⟩
  | case2 t pending seenTables rest step last =>
    have closes := Heap.nextLevel?_eq_none_iff.mp last
    obtain ⟨rfl, passes⟩ := advance_of_nextFresh_none seenTables step (.stop closes)
    exact ⟨[], passes⟩
  | case3 t pending seenTables rest step d next lower ih =>
    obtain ⟨started, further⟩ := ih
    obtain ⟨delegate, fresh⟩ := Heap.nextLevel?_eq_some_iff.mp next
    obtain ⟨_, passes⟩ := advance_of_nextFresh_none seenTables step (further.descend delegate fresh)
    exact ⟨d.id :: started, passes⟩

theorem exists_advance_next (h : Heap) (cursor : ChainCursor) :
    ∃ started, Advance h cursor started (next h cursor).1 (next h cursor).2 := by
  obtain ⟨current, pending, seenKeys, seenTables⟩ := cursor
  cases current with
  | none => exact ⟨[], .used⟩
  | some t => exact exists_advance_nextFrom h t pending seenKeys seenTables

theorem Advance.unique {others : List Nat} {other : Option (Key × Value)} {last : ChainCursor}
    (one : Advance h cursor started answer after) (two : Advance h cursor others other last) :
    started = others ∧ answer = other ∧ after = last := by
  induction one generalizing others with
  | used =>
    cases two
    exact ⟨rfl, rfl, rfl⟩
  | yield found fresh =>
    cases two with
    | yield again _ =>
      cases found.symm.trans again
      exact ⟨rfl, rfl, rfl⟩
    | skip passed _ => simp [found, fresh] at passed
  | skip passed _ ih =>
    cases two with
    | yield found fresh => simp [found, fresh] at passed
    | skip _ rest => exact ih rest
  | stop closes =>
    cases two with
    | stop _ => exact ⟨rfl, rfl, rfl⟩
    | descend next fresh _ => exact absurd (closes _ next) fresh
  | descend next fresh _ ih =>
    cases two with
    | stop closes => exact absurd (closes _ next) fresh
    | descend again _ rest =>
      cases next.symm.trans again
      obtain ⟨same, others⟩ := ih rest
      exact ⟨congrArg _ same, others⟩

/-- The keys of an answer. -/
def answeredKeys (answer : Option (Key × Value)) : List Key := (answer.map (·.1)).toList

theorem Advance.seenTables_eq (passes : Advance h cursor started answer after) :
    after.seenTables.reverse = cursor.seenTables.reverse ++ started := by
  induction passes with
  | skip _ _ ih => exact ih
  | descend _ _ _ ih => rw [ih, List.reverse_cons, List.append_assoc, List.singleton_append]
  | _ => exact (List.append_nil _).symm

theorem Advance.seenKeys_eq (passes : Advance h cursor started answer after) :
    after.seenKeys.reverse = cursor.seenKeys.reverse ++ answeredKeys answer := by
  induction passes with
  | yield => exact List.reverse_cons
  | skip _ _ ih => exact ih
  | descend _ _ _ ih => exact ih
  | _ => exact (List.append_nil _).symm

/-- What is true of a cursor at all times. -/
structure Sound (cursor : ChainCursor) : Prop where
  keys : cursor.seenKeys.Pairwise fun a b => (a == b) = false
  tables : cursor.seenTables.Nodup
  /-- The table being walked is the one started last. -/
  current : ∀ t, cursor.current = some t → cursor.seenTables.head? = some t.id

theorem sound_ofTable (h : Heap) (t : Table) : Sound (ofTable h t) where
  keys := List.Pairwise.nil
  tables := List.nodup_singleton t.id
  current d found := by
    cases found
    rfl

theorem Sound.advance (sound : Sound cursor) (passes : Advance h cursor started answer after) :
    Sound after := by
  induction passes with
  | used => exact sound
  | yield found fresh =>
    refine ⟨List.pairwise_cons.mpr ⟨fun other member => ?_, sound.keys⟩, sound.tables,
      sound.current⟩
    rw [← Bool.not_eq_true]
    intro same
    have seen := List.contains_iff_exists_mem_beq.mpr ⟨other, member, same⟩
    rw [fresh] at seen
    cases seen
  | skip _ _ ih => exact ih ⟨sound.keys, sound.tables, sound.current⟩
  | stop => exact ⟨sound.keys, sound.tables, fun t found => by cases found⟩
  | descend _ fresh _ ih =>
    refine ih ⟨sound.keys, List.nodup_cons.mpr ⟨fresh, sound.tables⟩, fun t found => ?_⟩
    cases found
    rfl

/-- A yielded entry is an entry of the table that the cursor then walks. -/
theorem Advance.entry (passes : Advance h cursor started answer after) {key : Key} {value : Value}
    (yields : answer = some (key, value)) :
    ∃ t, after.current = some t ∧ h.get? t key = some value := by
  induction passes with
  | yield found =>
    cases yields
    exact ⟨_, rfl, found⟩
  | skip _ _ ih => exact ih yields
  | descend _ _ _ ih => exact ih yields
  | _ => cases yields

theorem Advance.current_eq_none (passes : Advance h cursor started answer after)
    (empty : answer = none) : after.current = none := by
  induction passes with
  | yield => cases empty
  | skip _ _ ih => exact ih empty
  | descend _ _ _ ih => exact ih empty
  | _ => rfl

/-- All calls of a loop over the entries of a table and of its delegates. -/
def loop (h : Heap) (t : Table) (actions : List Action) : List (Call ChainCursor (Key × Value)) :=
  calls next h (ofTable h t) actions

/-- The tables that a call starts to walk, by identity. -/
def startedBy (call : Call ChainCursor (Key × Value)) : List Nat :=
  call.after.seenTables.reverse.drop call.before.seenTables.length

theorem advance_next (h : Heap) (cursor : ChainCursor) :
    Advance h cursor (startedBy (.of next h cursor)) (next h cursor).1 (next h cursor).2 := by
  obtain ⟨started, passes⟩ := exists_advance_next h cursor
  have same : startedBy (.of next h cursor) = started := by
    change (next h cursor).2.seenTables.reverse.drop cursor.seenTables.length = started
    rw [passes.seenTables_eq, List.drop_left' List.length_reverse]
  rw [same]
  exact passes

theorem sound_next (h : Heap) (cursor : ChainCursor) (sound : Sound cursor) :
    Sound (next h cursor).2 :=
  sound.advance (advance_next h cursor)

variable {t : Table} {actions : List Action} {call : Call ChainCursor (Key × Value)}

theorem loop_advance (member : call ∈ loop h t actions) :
    Advance call.heap call.before (startedBy call) call.answer call.after := by
  rw [eq_of_mem_calls member]
  exact advance_next call.heap call.before

theorem started_loop_nodup (h : Heap) (t : Table) (actions : List Action) :
    (t.id :: (loop h t actions).flatMap startedBy).Nodup := by
  obtain ⟨last, sound, seen⟩ := calls_gain_keep (·.seenTables.reverse) startedBy Sound sound_next
    (fun h cursor => (advance_next h cursor).seenTables_eq) (sound_ofTable h t) actions
  have nodup := List.nodup_reverse.mpr sound.tables
  rw [seen] at nodup
  exact nodup

theorem flatMap_answeredKeys (run : List (Call ChainCursor (Key × Value))) :
    (run.flatMap fun call => answeredKeys call.answer) = (yielded run).map (·.1) := by
  rw [yielded, List.map_filterMap, List.filterMap_eq_flatMap_toList]
  rfl

theorem yielded_loop_pairwise (h : Heap) (t : Table) (actions : List Action) :
    (yielded (loop h t actions)).Pairwise fun a b => (a.1 == b.1) = false := by
  obtain ⟨last, sound, seen⟩ := calls_gain_keep (·.seenKeys.reverse)
    (fun call => answeredKeys call.answer) Sound sound_next
    (fun h cursor => (advance_next h cursor).seenKeys_eq) (sound_ofTable h t) actions
  have different := List.pairwise_reverse.mpr (sound.keys.imp fun apart => BEq.comm.trans apart)
  rw [seen, flatMap_answeredKeys] at different
  exact List.pairwise_map.mp different

/-- The table that a call yields from is the one started last. -/
theorem started_getLast? {earlier later : List (Call ChainCursor (Key × Value))} {d : Table}
    (split : loop h t actions = earlier ++ call :: later) (current : call.after.current = some d) :
    (t.id :: (earlier ++ [call]).flatMap startedBy).getLast? = some d.id := by
  have member : call ∈ loop h t actions := split ▸ List.mem_append_cons_self
  have before := calls_keep Sound sound_next (sound_ofTable h t) call member
  have sound := before.advance (loop_advance member)
  have seen := calls_gain (·.seenTables.reverse) startedBy
    (fun h cursor => (advance_next h cursor).seenTables_eq) split
  have all : call.after.seenTables.reverse = t.id :: (earlier ++ [call]).flatMap startedBy := seen
  rw [← all, List.getLast?_reverse]
  exact sound.current d current

theorem next_of_current_none (h : Heap) {cursor : ChainCursor} (used : cursor.current = none) :
    next h cursor = (none, cursor) := by
  obtain ⟨current, pending, seenKeys, seenTables⟩ := cursor
  obtain rfl : current = none := used
  rfl

/-- Whatever a loop does to the heap, each of its calls runs by `Advance`, and no table is started
and no key yielded twice. -/
theorem loop_chain_once (h : Heap) (t : Table) (actions : List Action) :
    (∀ call ∈ loop h t actions, ∀ started answer after,
      Advance call.heap call.before started answer after ↔
        started = startedBy call ∧ answer = call.answer ∧ after = call.after) ∧
    (t.id :: (loop h t actions).flatMap startedBy).Nodup ∧
    ((yielded (loop h t actions)).Pairwise fun a b => (a.1 == b.1) = false) ∧
    (∀ earlier call later, loop h t actions = earlier ++ call :: later →
      ∀ key value, call.answer = some (key, value) →
        ∃ d, call.after.current = some d ∧ call.heap.get? d key = some value ∧
          (t.id :: (earlier ++ [call]).flatMap startedBy).getLast? = some d.id) ∧
    (loop h t actions).Pairwise fun earlier later =>
      earlier.answer = none → later.answer = none := by
  refine ⟨?_, started_loop_nodup h t actions, yielded_loop_pairwise h t actions, ?_, ?_⟩
  · intro call member started answer after
    constructor
    · exact fun passes => passes.unique (loop_advance member)
    · rintro ⟨rfl, rfl, rfl⟩
      exact loop_advance member
  · intro earlier call later split key value yields
    have member : call ∈ loop h t actions := split ▸ List.mem_append_cons_self
    obtain ⟨d, current, found⟩ := (loop_advance member).entry yields
    exact ⟨d, current, found, started_getLast? split current⟩
  · exact calls_pairwise_none (fun cursor : ChainCursor => cursor.current = none)
      (fun h cursor empty => (advance_next h cursor).current_eq_none empty)
      (fun h cursor => next_of_current_none h) h (ofTable h t) actions

end LispFrontEnd.ChainCursor
