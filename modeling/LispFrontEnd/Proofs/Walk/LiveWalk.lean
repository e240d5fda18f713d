import LispFrontEnd.Proofs.Walk.Worklist
import Mathlib.Algebra.GroupWithZero.Nat

/-! # Walks of a heap that changes

A visitor may change the heap in any way, and nodes may be below themselves. A walk still ends when
its visitor answers true only so often: each true answer brings up finitely many children, and every
other visit leaves one place less. Besides the root, each child that was listed when a visit
returned is then visited once, with the value that it had at that time, and nothing else is:
children that the visit has added are among them, and what later visits add to the node or take out
of it makes no difference. A node has as many children as items or entries, in whatever order they
are listed.
-/

namespace LispFrontEnd

namespace Heap

/-- How many items or entries a node has. -/
def childCount (h : Heap) : Node → Nat
  | .list e => (h.items e).length
  | .sequence e => (h.items e).length
  | .table t => h.entryCount t
  | _ => 0

theorem length_children (h : Heap) (n : Node) : (h.children n).length = h.childCount n := by
  cases n with
  | list e | sequence e => simp only [children, positional, childCount, List.length_map,
      List.length_zipIdx]
  | _ => rfl

theorem length_canonicalChildren (h : Heap) (n : Node) :
    (h.canonicalChildren n).length = h.childCount n := by
  rw [← length_children]
  exact (Multiset.card_eq_card_of_rel (h.rel_children n)).symm

end Heap

/-- A visit, its answer and the heap that it has left. -/
structure Report where
  visit : Visit
  answer : Bool
  heap : Heap

namespace Report

/-- The visits of the children that were there when the visit returned. -/
def listed (children : Heap → Node → List (Key × Value)) (report : Report) : List Visit :=
  report.visit.expand (children report.heap) report.answer

/-- The number of children that a node gone down into had when its visit returned. -/
def childCount (children : Heap → Node → List (Key × Value)) (report : Report) : Nat :=
  match report.answer, report.visit.value with
  | true, .node node => (children report.heap node).length
  | _, _ => 0

theorem length_listed (children : Heap → Node → List (Key × Value)) (report : Report) :
    (report.listed children).length = report.childCount children := by
  obtain ⟨⟨index, value, parent⟩, answer, heap⟩ := report
  cases answer with
  | false => rfl
  | true =>
    cases value with
    | node node => exact List.length_map _
    | _ => rfl

end Report

namespace Walk

variable {σ : Type} {children : Heap → Node → List (Key × Value)} {visitor : Visitor σ}

theorem map_visit_placesFrom (path : List Nat) (visits : List Visit) (start : Nat) :
    (placesFrom path visits start).map (·.visit) = visits := by
  rw [placesFrom, List.map_map]
  exact List.zipIdx_map_fst start visits

/-- However far a walk goes on, its visitor answers true at most so often. -/
def AnswersTrueAtMost (children : Heap → Node → List (Key × Value)) (visitor : Visitor σ)
    (limit : Nat) (start : List Place × (Heap × σ)) : Prop :=
  ∀ stops last, Path (Step children visitor) start stops last → stops.countP (·.answer) ≤ limit

namespace AnswersTrueAtMost
variable {limit : Nat} {place : Place} {pending : List Place} {state next : Heap × σ}

theorem later {start middle : List Place × (Heap × σ)} {stops : List Stop}
    (few : AnswersTrueAtMost children visitor limit start)
    (path : Path (Step children visitor) start stops middle) :
    AnswersTrueAtMost children visitor limit middle := by
  intro others last further
  have all := few _ _ (path.append further)
  rw [List.countP_append] at all
  omega

/-- A true answer is one of those that are left. -/
theorem opened (few : AnswersTrueAtMost children visitor limit (place :: pending, state))
    (asked : visitor place.visit state = (true, next)) :
    ∃ less, limit = less + 1 ∧ AnswersTrueAtMost children visitor less
      (Stop.opened (children next.1) ⟨place, true⟩ ++ pending, next) := by
  have one := few _ _ (.single (.visit asked))
  rw [List.countP_singleton, if_pos rfl] at one
  refine ⟨limit - 1, by omega, fun stops last path => ?_⟩
  have all := few _ _ (.cons (.visit asked) path)
  rw [List.countP_cons, if_pos rfl] at all
  omega

/-- Walks that end, each with true answers left, can be made one after the other. -/
theorem foldlM_ends
    (each : ∀ {place pending state},
      AnswersTrueAtMost children visitor limit (place :: pending, state) →
        ∃ last, Ends children visitor place.visit state last)
    {path : List Nat} {visits : List Visit} {start : Nat}
    (few : AnswersTrueAtMost children visitor limit
      (placesFrom path visits start ++ pending, state)) :
    ∃ last depth, ∀ fuel ≥ depth, visits.foldlM
      (fun state visit => from? children visitor fuel visit state) state = some last := by
  induction visits generalizing state start with
  | nil => exact ⟨state, 0, fun _ _ => rfl⟩
  | cons visit visits ih =>
    obtain ⟨middle, depth, walked⟩ := each few
    obtain ⟨stops, visited⟩ := path_from? (walked depth (Nat.le_refl depth)) (path ++ [start])
      (placesFrom path visits (start + 1) ++ pending)
    obtain ⟨last, depth', rest⟩ := ih (few.later visited)
    refine ⟨last, max depth depth', fun fuel enough => ?_⟩
    rw [List.foldlM_cons, walked fuel (by omega)]
    exact rest fuel (by omega)

/-- The walk of the first place ends. -/
theorem ends (few : AnswersTrueAtMost children visitor limit (place :: pending, state)) :
    ∃ last, Ends children visitor place.visit state last := by
  -- The induction is on the true answers that are left: a true answer leaves one less for all that
  -- comes up.
  induction limit using Nat.strong_induction_on generalizing place pending state with
  | _ limit ih =>
    rcases asked : visitor place.visit state with ⟨answer, next⟩
    have walk (fuel : Nat) : from? children visitor (fuel + 1) place.visit state =
        (place.visit.expand (children next.1) answer).foldlM
          (fun state below => from? children visitor fuel below state) next := by
      rw [from?_succ, asked]
    have below : ∃ last depth, ∀ fuel ≥ depth,
        (place.visit.expand (children next.1) answer).foldlM
          (fun state below => from? children visitor fuel below state) next = some last := by
      cases answer with
      | false => exact ⟨next, 0, fun _ _ => rfl⟩
      | true =>
        obtain ⟨less, rfl, fewer⟩ := few.opened asked
        exact foldlM_ends (fun few => ih less (Nat.lt_succ_self less) few) fewer
    obtain ⟨last, depth, walked⟩ := below
    refine ⟨last, depth + 1, fun fuel enough => ?_⟩
    obtain ⟨less, rfl⟩ : ∃ less, fuel = less + 1 := ⟨fuel - 1, by omega⟩
    rw [walk, walked less (by omega)]

end AnswersTrueAtMost

/-- The same visitor with a report of every visit. -/
def Visitor.reporting (visitor : Visitor σ) : Visitor (σ × List Report) := visitor.noting .mk

theorem path_noting {α : Type} {note : Visit → Bool → Heap → α}
    {start last : List Place × (Heap × (σ × List α))} {stops : List Stop}
    (path : Path (Step children (visitor.noting note)) start stops last) :
    Path (Step children visitor) (start.1, withoutNotes start.2) stops
      (last.1, withoutNotes last.2) := by
  induction path with
  | nil => exact .nil _
  | cons step rest ih =>
    cases step with
    | visit asked =>
      cases asked
      exact .cons (.visit rfl) ih

theorem AnswersTrueAtMost.noting {α : Type} {note : Visit → Bool → Heap → α} {limit : Nat}
    {places : List Place} {state : Heap × (σ × List α)}
    (few : AnswersTrueAtMost children visitor limit (places, withoutNotes state)) :
    AnswersTrueAtMost children (visitor.noting note) limit (places, state) :=
  fun stops _ path => few stops _ (path_noting path)

/-- What has been visited or is pending is what was pending at first and what has been listed. -/
theorem reports_of_path {start last : List Place × (Heap × (σ × List Report))} {stops : List Stop}
    (path : Path (Step children visitor.reporting) start stops last) :
    ∃ reports, last.2.2.2 = start.2.2.2 ++ reports ∧
      (reports.map (·.visit) ++ last.1.map (·.visit)).Perm
        (start.1.map (·.visit) ++ reports.flatMap (·.listed children)) := by
  induction path with
  | nil => exact ⟨[], (List.append_nil _).symm, by simp⟩
  | cons step rest ih =>
    cases step with
    | @visit place pending answer state next asked =>
      obtain ⟨reports, recorded, perm⟩ := ih
      let report : Report := ⟨place.visit, answer, next.1⟩
      have first : next.2.2 = state.2.2 ++ [report] := by
        cases asked
        rfl
      refine ⟨report :: reports, ?_, ?_⟩
      · rw [recorded, first, List.append_assoc, List.singleton_append]
      · have up : (Stop.opened (children next.1) ⟨place, answer⟩).map (·.visit) =
            report.listed children := map_visit_placesFrom _ _ _
        rw [List.map_append, up] at perm
        refine (perm.cons place.visit).trans ?_
        rw [List.flatMap_cons, List.map_cons, List.cons_append, List.append_assoc]
        exact (List.perm_append_comm_assoc _ _ _).cons place.visit

/-- A walk whose visitor answers true only so often ends, and has visited the root and each child
that was listed, once each time. -/
theorem run?_visits_each_listed :
    (∀ (h : Heap) (n : Node),
      (h.children n).length = h.childCount n ∧ (h.canonicalChildren n).length = h.childCount n) ∧
    ∀ {σ : Type} (children : Heap → Node → List (Key × Value)) (visitor : Visitor σ) (root : Value)
      (h : Heap) (s : σ) (limit : Nat),
      AnswersTrueAtMost children visitor limit ([⟨[], none, root, none⟩], h, s) →
      ∃ last reports depth,
        (∀ fuel ≥ depth,
          run? children visitor fuel root (h, s) = some (root, last) ∧
          run? children visitor.reporting fuel root (h, s, []) =
            some (root, last.1, last.2, reports)) ∧
        (reports.map (·.visit)).Perm
          (⟨none, root, none⟩ :: reports.flatMap (·.listed children)) ∧
        reports.length = 1 + (reports.map (·.childCount children)).sum := by
  refine ⟨fun h n => ⟨h.length_children n, h.length_canonicalChildren n⟩, ?_⟩
  intro σ children visitor root h s limit few
  have fewNoted : AnswersTrueAtMost children visitor.reporting limit
    ([⟨[], none, root, none⟩], h, s, []) := few.noting
  obtain ⟨⟨h', s', reports⟩, depth, ends⟩ := fewNoted.ends
  obtain ⟨stops, path⟩ := path_from? (ends depth (Nat.le_refl depth)) [] []
  obtain ⟨all, recorded, perm⟩ := reports_of_path path
  obtain rfl : reports = all := recorded
  have visits : (reports.map (·.visit)).Perm
      (⟨none, root, none⟩ :: reports.flatMap (·.listed children)) := by
    simpa using perm
  refine ⟨(h', s'), reports, depth, fun fuel enough => ?_, visits, ?_⟩
  · have noted := ends fuel enough
    have plain : from? children visitor fuel ⟨none, root, none⟩ (h, s) = some (h', s') := by
      exact (from?_noting Report.mk fuel _ (h, s, [])).symm.trans
        (congrArg (Option.map withoutNotes) noted)
    exact ⟨congrArg (Option.map (root, ·)) plain, congrArg (Option.map (root, ·)) noted⟩
  · have lengths := visits.length_eq
    rw [List.length_map, List.length_cons, List.length_flatMap] at lengths
    simpa only [Report.length_listed, Nat.add_comm] using lengths

/-- A list that holds itself. -/
def selfHolding : Heap where
  cells := #[.fixed, .items [.node (.list ⟨1, none⟩)]]

/-- Goes down twice, puts an item on the list at the first visit and clears it at the second. -/
def pushesThenClears : Visitor Nat :=
  fun _ state =>
    match state.2 with
    | 0 => (true, state.1.pushItem ⟨1, none⟩ (.bool true), 1)
    | 1 => (true, (state.1.replaceItems ⟨1, none⟩ []).2, 2)
    | n => (false, state.1, n)

theorem countP_pushesThenClears {start last : List Place × (Heap × Nat)} {stops : List Stop}
    (path : Path (Step Heap.children pushesThenClears) start stops last) :
    stops.countP (·.answer) ≤ 2 - start.2.2 := by
  induction path with
  | nil => exact Nat.zero_le _
  | cons step rest ih =>
    cases step with
    | @visit place pending answer state next asked =>
      obtain ⟨h, n⟩ := state
      rw [List.countP_cons]
      match n with
      | 0 | 1 | n + 2 =>
        cases asked
        simp only at ih ⊢
        grind

/-- The item that the second visit takes out was listed after the first, so it is visited. -/
theorem selfHolding_walk_ends :
    AnswersTrueAtMost Heap.children pushesThenClears 2
      ([⟨[], none, .node (.list ⟨1, none⟩), none⟩], selfHolding, 0) ∧
    ∃ (last : Heap × Nat) (reports : List Report) (depth : Nat),
      (∀ fuel ≥ depth, run? Heap.children pushesThenClears.reporting fuel (.node (.list ⟨1, none⟩))
        (selfHolding, 0, []) = some (.node (.list ⟨1, none⟩), last.1, last.2, reports)) ∧
      (reports.map (·.visit)).Perm (⟨none, .node (.list ⟨1, none⟩), none⟩ ::
        reports.flatMap (·.listed Heap.children)) ∧
      reports.length = 1 + (reports.map (·.childCount Heap.children)).sum := by
  have few : AnswersTrueAtMost Heap.children pushesThenClears 2
      ([⟨[], none, .node (.list ⟨1, none⟩), none⟩], selfHolding, 0) :=
    fun _ _ path => countP_pushesThenClears path
  obtain ⟨last, reports, depth, ends, visits, count⟩ :=
    run?_visits_each_listed.2 Heap.children pushesThenClears _ selfHolding 0 2 few
  exact ⟨few, last, reports, depth, fun fuel enough => (ends fuel enough).2, visits, count⟩

example : (run? Heap.children pushesThenClears.reporting 3 (.node (.list ⟨1, none⟩))
    (selfHolding, 0, [])).map (fun walked => walked.2.2.2.map fun report =>
      (report.answer, report.childCount Heap.children, report.heap.items ⟨1, none⟩ |>.length)) =
      some [(true, 2, 2), (true, 0, 0), (false, 0, 0)] := by
  cbv

end Walk

end LispFrontEnd
