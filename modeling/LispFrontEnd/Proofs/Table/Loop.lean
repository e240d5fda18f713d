import LispFrontEnd.Table.Basic

/-! # Loops over a cursor

A loop asks a cursor for the next entry again and again. Between two calls its body may change the
heap in any way, the table that is walked included. A fact about all calls of all loops is proved
from what one call does to the cursor.
-/

namespace LispFrontEnd

/-- A change of the heap can be any function, so it covers every sequence of operations. -/
inductive Action where
  | next
  | change (f : Heap → Heap)

/-- One call: the heap at that time, the answer, and the cursor before and after. -/
structure Call (γ ε : Type) where
  heap : Heap
  before : γ
  answer : Option ε
  after : γ

section Calls
variable {γ ε : Type}

def Call.of (next : Heap → γ → Option ε × γ) (h : Heap) (cursor : γ) : Call γ ε :=
  ⟨h, cursor, (next h cursor).1, (next h cursor).2⟩

/-- All calls of a loop, in their order. -/
def calls (next : Heap → γ → Option ε × γ) (h : Heap) (cursor : γ) : List Action → List (Call γ ε)
  | [] => []
  | .next :: rest => .of next h cursor :: calls next h (next h cursor).2 rest
  | .change f :: rest => calls next (f h) cursor rest

def yielded (run : List (Call γ ε)) : List ε := run.filterMap (·.answer)

theorem mem_yielded {run : List (Call γ ε)} {entry : ε} :
    entry ∈ yielded run ↔ ∃ call ∈ run, call.answer = some entry :=
  List.mem_filterMap

variable {next : Heap → γ → Option ε × γ}

/-- Every call is a step of the cursor in some heap. -/
theorem eq_of_mem_calls {h : Heap} {cursor : γ} {actions : List Action} {call : Call γ ε}
    (member : call ∈ calls next h cursor actions) : call = .of next call.heap call.before := by
  induction actions generalizing h cursor with
  | nil => cases member
  | cons action rest ih =>
    cases action with
    | next =>
      rcases List.mem_cons.mp member with rfl | later
      · rfl
      · exact ih later
    | change f => exact ih member

/-- What every step keeps holds before every call. -/
theorem calls_keep (Kept : γ → Prop) (step : ∀ h cursor, Kept cursor → Kept (next h cursor).2)
    {h : Heap} {cursor : γ} (start : Kept cursor) {actions : List Action} :
    ∀ call ∈ calls next h cursor actions, Kept call.before := by
  intro call member
  induction actions generalizing h cursor with
  | nil => cases member
  | cons action rest ih =>
    cases action with
    | next =>
      rcases List.mem_cons.mp member with rfl | later
      · exact start
      · exact ih (step h cursor start) later
    | change f => exact ih start member

/-- A cursor that is used up for good after its first empty answer. -/
theorem calls_pairwise_none (Used : γ → Prop)
    (stop : ∀ h cursor, (next h cursor).1 = none → Used (next h cursor).2)
    (used : ∀ h cursor, Used cursor → next h cursor = (none, cursor))
    (h : Heap) (cursor : γ) (actions : List Action) :
    (calls next h cursor actions).Pairwise fun earlier later =>
      earlier.answer = none → later.answer = none := by
  have step (h : Heap) (cursor : γ) (start : Used cursor) : Used (next h cursor).2 := by
    rw [used h cursor start]
    exact start
  induction actions generalizing h cursor with
  | nil => exact List.Pairwise.nil
  | cons action rest ih =>
    cases action with
    | next =>
      refine List.pairwise_cons.mpr ⟨fun later member empty => ?_, ih h (next h cursor).2⟩
      have usedThen := calls_keep Used step (stop h cursor empty) later member
      rw [eq_of_mem_calls member]
      exact congrArg Prod.fst (used later.heap later.before usedThen)
    | change f => exact ih (f h) cursor

section Total
variable {κ : Type} {share : Call γ ε → List κ}

/-- What relates the cursors around each call by its share, and adds up, relates the first cursor to
every later one by the shares so far. -/
theorem calls_total (Total : γ → List κ → γ → Prop)
    (step : ∀ h cursor, Total cursor (share (.of next h cursor)) (next h cursor).2)
    (add : ∀ {first middle last shares others}, Total first shares middle →
      Total middle others last → Total first (shares ++ others) last)
    {h : Heap} {cursor : γ} {actions : List Action} {earlier later : List (Call γ ε)}
    {call : Call γ ε} (split : calls next h cursor actions = earlier ++ call :: later) :
    Total cursor (earlier.flatMap share ++ share call) call.after := by
  induction actions generalizing h cursor earlier with
  | nil => cases List.append_ne_nil_of_right_ne_nil earlier (List.cons_ne_nil call later) split.symm
  | cons action rest ih =>
    cases action with
    | next =>
      cases earlier with
      | nil =>
        obtain ⟨rfl, _⟩ := List.cons.inj split
        exact step h cursor
      | cons first others =>
        obtain ⟨rfl, behind⟩ := List.cons.inj split
        rw [List.flatMap_cons, List.append_assoc]
        exact add (step h cursor) (ih behind)
    | change f => exact ih split

end Total

section Account
variable {κ : Type} {pending : γ → List κ} {passed : Call γ ε → List κ}

/-- When every call passes the first items that are pending, the calls together pass the items in
their order. -/
theorem calls_account
    (step : ∀ h cursor, pending cursor = passed (.of next h cursor) ++ pending (next h cursor).2)
    {h : Heap} {cursor : γ} {actions : List Action} {earlier later : List (Call γ ε)}
    {call : Call γ ε} (split : calls next h cursor actions = earlier ++ call :: later) :
    pending cursor = earlier.flatMap passed ++ passed call ++ pending call.after := by
  refine calls_total (fun first items last => pending first = items ++ pending last) step ?_ split
  intro first middle last items others before after
  rw [before, after, List.append_assoc]

theorem calls_flatMap_prefix
    (step : ∀ h cursor, pending cursor = passed (.of next h cursor) ++ pending (next h cursor).2)
    (h : Heap) (cursor : γ) (actions : List Action) :
    (calls next h cursor actions).flatMap passed <+: pending cursor := by
  rcases List.eq_nil_or_concat (calls next h cursor actions) with none | ⟨earlier, call, split⟩
  · rw [none]
    exact List.nil_prefix
  · rw [List.concat_eq_append] at split
    rw [calls_account step split, split, List.flatMap_append, List.flatMap_singleton]
    exact List.prefix_append _ _

end Account

section Gain
variable {κ : Type} (seen : γ → List κ) (gained : Call γ ε → List κ)

/-- When every call adds to what the cursor has seen, that is what it had seen at first and then all
gains so far. -/
theorem calls_gain
    (step : ∀ h cursor, seen (next h cursor).2 = seen cursor ++ gained (.of next h cursor))
    {h : Heap} {cursor : γ} {actions : List Action} {earlier later : List (Call γ ε)}
    {call : Call γ ε} (split : calls next h cursor actions = earlier ++ call :: later) :
    seen call.after = seen cursor ++ (earlier ++ [call]).flatMap gained := by
  rw [List.flatMap_append, List.flatMap_singleton]
  refine calls_total (fun first items last => seen last = seen first ++ items) step ?_ split
  intro first middle last items others before after
  rw [after, before, List.append_assoc]

/-- What every step keeps is true of everything that has been seen in the end. -/
theorem calls_gain_keep (Kept : γ → Prop)
    (keep : ∀ h cursor, Kept cursor → Kept (next h cursor).2)
    (step : ∀ h cursor, seen (next h cursor).2 = seen cursor ++ gained (.of next h cursor))
    {h : Heap} {cursor : γ} (start : Kept cursor) (actions : List Action) :
    ∃ last, Kept last ∧
      seen last = seen cursor ++ (calls next h cursor actions).flatMap gained := by
  rcases List.eq_nil_or_concat (calls next h cursor actions) with none | ⟨earlier, call, split⟩
  · refine ⟨cursor, start, ?_⟩
    rw [none, List.flatMap_nil, List.append_nil]
  · rw [List.concat_eq_append] at split
    have member : call ∈ calls next h cursor actions := split ▸ List.mem_append_cons_self
    have before := calls_keep Kept keep start call member
    have after : Kept call.after := by
      rw [eq_of_mem_calls member]
      exact keep call.heap call.before before
    refine ⟨call.after, after, ?_⟩
    rw [calls_gain seen gained step split, split]

end Gain

/-- In a heap that does not change, as many calls as there are entries left yield these entries, and
one more call has an empty answer. -/
theorem calls_replicate_next {h : Heap} {drain : γ → List ε}
    (unfolds : ∀ cursor, drain cursor =
      (next h cursor).1.elim [] (· :: drain (next h cursor).2)) (cursor : γ) :
    (calls next h cursor (List.replicate ((drain cursor).length + 1) .next)).map (·.answer) =
      (drain cursor).map some ++ [none] := by
  generalize left : drain cursor = entries
  induction entries generalizing cursor with
  | nil =>
    rw [unfolds] at left
    cases answer : (next h cursor).1 with
    | none => exact congrArg ([·]) answer
    | some entry =>
      rw [answer] at left
      cases left
  | cons entry rest ih =>
    rw [unfolds] at left
    cases answer : (next h cursor).1 with
    | none =>
      rw [answer] at left
      cases left
    | some found =>
      rw [answer] at left
      obtain ⟨rfl, behind⟩ := List.cons.inj left
      have later := ih (next h cursor).2 behind
      have first : (Call.of next h cursor).answer = some found := answer
      rw [List.length_cons, List.replicate_succ, calls, List.map_cons, first, later]
      rfl

end Calls

end LispFrontEnd
