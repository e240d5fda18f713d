import LispFrontEnd.Proofs.Path
import LispFrontEnd.Proofs.Walk.Below

/-! # Walks as worklists

A walk works off a list of pending places. Each step visits the first of them; where the visitor
wants to go down, the children that are listed then come in front of all that is pending.
`path_from?` says that every walk that ends has taken such steps, whatever the visitor does to the
heap. A visitor with a record of its calls shows which visits a walk has made.
-/

namespace LispFrontEnd

/-- The visits of the children that are listed after a visit has been answered. -/
def Visit.expand (children : Node → List (Key × Value)) (visit : Visit) (answer : Bool) :
    List Visit :=
  match answer, visit.value with
  | true, .node node => (children node).map fun entry => ⟨some entry.1, entry.2, some node⟩
  | _, _ => []

/-- They are the children of a node that is gone down into, at their positions. -/
theorem Visit.getElem?_expand {children : Node → List (Key × Value)} {visit below : Visit}
    {answer : Bool} {i : Nat} : (visit.expand children answer)[i]? = some below ↔
      answer = true ∧ ∃ node key child, visit.value = .node node ∧
        (children node)[i]? = some (key, child) ∧ below = ⟨some key, child, some node⟩ := by
  obtain ⟨index, value, parent⟩ := visit
  cases answer with
  | false => simp [expand]
  | true =>
    cases value with
    | node node => simp [expand, eq_comm (b := below)]
    | _ => simp [expand]

namespace Walk

variable {σ : Type} {children : Heap → Node → List (Key × Value)} {visitor : Visitor σ}

/-- The children of a visit are walked one after the other. -/
theorem from?_succ (fuel : Nat) (visit : Visit) (state : Heap × σ) :
    from? children visitor (fuel + 1) visit state =
      (visit.expand (children (visitor visit state).2.1) (visitor visit state).1).foldlM
        (fun state below => from? children visitor fuel below state) (visitor visit state).2 := by
  obtain ⟨index, value, parent⟩ := visit
  rw [from?]
  obtain ⟨answer, next⟩ := visitor ⟨index, value, parent⟩ state
  cases answer with
  | false => rfl
  | true =>
    cases value with
    | node node => simp only [Visit.expand, List.foldlM_map]
    | _ => rfl

/-- A visit with the positions, from the root downwards, of the child that it is made to. -/
structure Place where
  path : List Nat
  visit : Visit

/-- A place that has been visited, and what the visitor has answered. -/
structure Stop extends Place where
  answer : Bool

/-- The places of visits to children that stand from a position on. -/
def placesFrom (path : List Nat) (visits : List Visit) (start : Nat) : List Place :=
  (visits.zipIdx start).map fun below => ⟨path ++ [below.2], below.1⟩

/-- The places that come up when a place has been visited. -/
def Stop.opened (children : Node → List (Key × Value)) (stop : Stop) : List Place :=
  placesFrom stop.path (stop.visit.expand children stop.answer) 0

theorem Stop.mem_opened {children : Node → List (Key × Value)} {stop : Stop} {place : Place} :
    place ∈ stop.opened children ↔ stop.answer = true ∧ ∃ node i key child,
      stop.visit.value = .node node ∧ (children node)[i]? = some (key, child) ∧
        place = ⟨stop.path ++ [i], some key, child, some node⟩ := by
  rw [opened, placesFrom, List.mem_map]
  constructor
  · rintro ⟨⟨below, i⟩, listed, rfl⟩
    rw [List.mem_zipIdx_iff_getElem?, Visit.getElem?_expand] at listed
    obtain ⟨wanted, node, key, child, value, position, rfl⟩ := listed
    exact ⟨wanted, node, i, key, child, value, position, rfl⟩
  · rintro ⟨wanted, node, i, key, child, value, position, rfl⟩
    refine ⟨(⟨some key, child, some node⟩, i), ?_, rfl⟩
    rw [List.mem_zipIdx_iff_getElem?, Visit.getElem?_expand]
    exact ⟨wanted, node, key, child, value, position, rfl⟩

/-- The first pending place is visited, and its children come up as they are listed in the heap
after the visit. -/
inductive Step (children : Heap → Node → List (Key × Value)) (visitor : Visitor σ) :
    List Place × (Heap × σ) → Stop → List Place × (Heap × σ) → Prop where
  | visit {place : Place} {pending : List Place} {answer : Bool} {state next : Heap × σ}
      (asked : visitor place.visit state = (answer, next)) :
      Step children visitor (place :: pending, state) ⟨place, answer⟩
        (Stop.opened (children next.1) ⟨place, answer⟩ ++ pending, next)

theorem path_foldlM {walk : Visit → Heap × σ → Option (Heap × σ)}
    (each : ∀ {visit state last}, walk visit state = some last → ∀ path pending, ∃ stops,
      Path (Step children visitor) (⟨path, visit⟩ :: pending, state) stops (pending, last))
    {visits : List Visit} {state last : Heap × σ}
    (walked : visits.foldlM (fun state visit => walk visit state) state = some last)
    (path : List Nat) (start : Nat) (pending : List Place) : ∃ stops,
      Path (Step children visitor) (placesFrom path visits start ++ pending, state) stops
        (pending, last) := by
  induction visits generalizing state start with
  | nil =>
    cases walked
    exact ⟨[], .nil _⟩
  | cons visit visits ih =>
    rw [List.foldlM_cons] at walked
    obtain ⟨middle, first, others⟩ := Option.bind_eq_some_iff.mp walked
    obtain ⟨front, visited⟩ :=
      each first (path ++ [start]) (placesFrom path visits (start + 1) ++ pending)
    obtain ⟨back, rest⟩ := ih others (start + 1)
    exact ⟨front ++ back, visited.append rest⟩

/-- A walk that ends has visited its first place and all that came up below it. -/
theorem path_from? {fuel : Nat} {visit : Visit} {state last : Heap × σ}
    (walked : from? children visitor fuel visit state = some last) (path : List Nat)
    (pending : List Place) : ∃ stops,
      Path (Step children visitor) (⟨path, visit⟩ :: pending, state) stops (pending, last) := by
  induction fuel generalizing visit state last path pending with
  | zero => cases walked
  | succ fuel ih =>
    rw [from?_succ] at walked
    obtain ⟨stops, below⟩ := path_foldlM ih walked path 0 pending
    exact ⟨_, .cons (.visit rfl) below⟩

/-- The same visitor with notes of its visits, their answers and the heaps that they leave. -/
def Visitor.noting {α : Type} (note : Visit → Bool → Heap → α) (visitor : Visitor σ) :
    Visitor (σ × List α) :=
  fun visit state =>
    let (answer, h, s) := visitor visit (state.1, state.2.1)
    (answer, h, s, state.2.2 ++ [note visit answer h])

def withoutNotes {α : Type} (state : Heap × (σ × List α)) : Heap × σ := (state.1, state.2.1)

theorem map_withoutNotes_foldlM {α : Type} {walk : Visit → Heap × (σ × List α) → Option _}
    {plain : Visit → Heap × σ → Option (Heap × σ)}
    (each : ∀ visit state, (walk visit state).map withoutNotes = plain visit (withoutNotes state))
    (visits : List Visit) (state : Heap × (σ × List α)) :
    (visits.foldlM (fun state visit => walk visit state) state).map withoutNotes =
      visits.foldlM (fun state visit => plain visit state) (withoutNotes state) := by
  induction visits generalizing state with
  | nil => rfl
  | cons visit visits ih =>
    rw [List.foldlM_cons, List.foldlM_cons, ← each visit state]
    cases walk visit state with
    | none => rfl
    | some next => exact ih next

/-- Taking notes changes nothing else. -/
theorem from?_noting {α : Type} (note : Visit → Bool → Heap → α) (fuel : Nat) (visit : Visit)
    (state : Heap × (σ × List α)) :
    (from? children (visitor.noting note) fuel visit state).map withoutNotes =
      from? children visitor fuel visit (withoutNotes state) := by
  induction fuel generalizing visit state with
  | zero => rfl
  | succ fuel ih =>
    rw [from?_succ, from?_succ]
    exact map_withoutNotes_foldlM ih _ _

/-- The same visitor with a record of its visits and their answers. -/
def Visitor.recording (visitor : Visitor σ) : Visitor (σ × List (Visit × Bool)) :=
  visitor.noting fun visit answer _ => (visit, answer)

def Stop.call (stop : Stop) : Visit × Bool := (stop.visit, stop.answer)

/-- The record grows by the stops of a path. -/
theorem record_of_path {start last : List Place × (Heap × (σ × List (Visit × Bool)))}
    {stops : List Stop} (path : Path (Step children visitor.recording) start stops last) :
    last.2.2.2 = start.2.2.2 ++ stops.map Stop.call := by
  induction path with
  | nil => simp
  | cons step rest ih =>
    cases step with
    | visit asked =>
      cases asked
      rw [ih]
      simp [Stop.call]

/-- A visitor that only looks. -/
def Visitor.LeavesHeap (visitor : Visitor σ) : Prop :=
  ∀ visit state, (visitor visit state).2.1 = state.1

theorem Visitor.LeavesHeap.recording (leaves : visitor.LeavesHeap) : visitor.recording.LeavesHeap :=
  fun visit state => leaves visit (state.1, state.2.1)

/-- With enough fuel the walk from a visit ends, and in this state. -/
def Ends (children : Heap → Node → List (Key × Value)) (visitor : Visitor σ) (visit : Visit)
    (state last : Heap × σ) : Prop :=
  ∃ depth, ∀ fuel ≥ depth, from? children visitor fuel visit state = some last

/-- Walks that end can be made one after the other. -/
theorem foldlM_ends {h : Heap} {visits : List Visit}
    (each : ∀ visit ∈ visits, ∀ s, ∃ last, Ends children visitor visit (h, s) (h, last)) (s : σ) :
    ∃ last depth, ∀ fuel ≥ depth, visits.foldlM
      (fun state visit => from? children visitor fuel visit state) (h, s) = some (h, last) := by
  induction visits generalizing s with
  | nil => exact ⟨s, 0, fun _ _ => rfl⟩
  | cons visit visits ih =>
    obtain ⟨first, others⟩ := List.forall_mem_cons.mp each
    obtain ⟨middle, depth, walked⟩ := first s
    obtain ⟨last, depth', rest⟩ := ih others middle
    refine ⟨last, max depth depth', fun fuel enough => ?_⟩
    rw [List.foldlM_cons, walked fuel (by omega)]
    exact rest fuel (by omega)

/-- Where there is no endless way down, a visitor that only looks comes to an end. -/
theorem exists_ends {h : Heap} (leaves : visitor.LeavesHeap) {root : Value}
    (descends : Acc (fun part whole => Child (children h) whole part) root) (visit : Visit)
    (same : visit.value = root) (s : σ) :
    ∃ last, Ends children visitor visit (h, s) (h, last) := by
  induction descends generalizing visit s with
  | intro root _ ih =>
    have untouched : (visitor visit (h, s)).2.1 = h := leaves visit (h, s)
    have each : ∀ below ∈ visit.expand (children h) (visitor visit (h, s)).1, ∀ s,
        ∃ last, Ends children visitor below (h, s) (h, last) := by
      intro below member s
      obtain ⟨i, position⟩ := List.mem_iff_getElem?.mp member
      obtain ⟨_, node, key, child, value, place, rfl⟩ := Visit.getElem?_expand.mp position
      apply ih child _ _ rfl
      exact ⟨node, key, same.symm.trans value, List.mem_of_getElem? place⟩
    obtain ⟨last, depth, walked⟩ := foldlM_ends each (visitor visit (h, s)).2.2
    refine ⟨last, depth + 1, fun fuel enough => ?_⟩
    obtain ⟨less, rfl⟩ : ∃ less, fuel = less + 1 := ⟨fuel - 1, by omega⟩
    have state : (visitor visit (h, s)).2 = (h, (visitor visit (h, s)).2.2) :=
      Prod.ext untouched rfl
    rw [from?_succ, untouched, state]
    exact walked less (by omega)

end Walk

end LispFrontEnd
