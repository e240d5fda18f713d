import LispFrontEnd.Proofs.Walk.Preorder
import Mathlib.Data.Multiset.Bind

/-! # Walks with siblings in any order

A visitor that only looks, and whose answer depends on the visit alone, visits the same values as
often in whatever order the children of tables are listed and whatever order of keys is recorded.
Visits are compared with their indices up to equality: a table yields its own keys when they stand
in no promised order, and the equal keys of its recorded order when they stand in canonical order.
So the answer must be the same under equal keys, too: a visitor that tells them apart may go down in
one of the two orders only (`spanless_visits_differ`).
-/

namespace LispFrontEnd

/-- Visits of one value below one parent, under equal keys. -/
structure Visit.Alike (one other : Visit) : Prop where
  index : Option.Rel (fun a b : Key => (a == b) = true) one.index other.index
  value : one.value = other.value
  parent : one.parent = other.parent

theorem Visit.Alike.map_identity {one other : Visit} (alike : one.Alike other) :
    one.index.map Key.identity = other.index.map Key.identity := by
  obtain ⟨index, _, _⟩ := alike
  generalize one.index = first at index ⊢
  generalize other.index = second at index ⊢
  cases index with
  | none => rfl
  | some same => exact congrArg some (Key.beq_iff.mp same)

theorem rel_alikeEntries_self (entries : Multiset (Key × Value)) :
    Multiset.Rel AlikeEntries entries entries :=
  Multiset.rel_refl_of_refl_on fun _ _ => ⟨BEq.rfl, rfl⟩

namespace Walk

variable {σ : Type} {children : Heap → Node → List (Key × Value)} {visitor : Visitor σ}

/-- The visits at and below a visit, when the visit alone decides whether to go down. -/
def visitsBelow (listed : Node → List (Key × Value)) (descend : Visit → Bool) :
    Nat → Visit → List Visit
  | 0, _ => []
  | fuel + 1, visit =>
    visit :: (visit.expand listed (descend visit)).flatMap (visitsBelow listed descend fuel)

/-- From one state to the next the heap is as it was, and these visits have been recorded. -/
def Records (visits : List Visit) (h : Heap) (state last : Heap × (σ × List (Visit × Bool))) :
    Prop :=
  state.1 = h → last.1 = h ∧ last.2.2.map (·.1) = state.2.2.map (·.1) ++ visits

theorem records_foldlM {h : Heap} {below : Visit → List Visit}
    (walk : Visit → Heap × (σ × List (Visit × Bool)) → Option _)
    (each : ∀ {visit state last}, walk visit state = some last →
      Records (below visit) h state last)
    {visits : List Visit} {state last : Heap × (σ × List (Visit × Bool))}
    (walked : visits.foldlM (fun state visit => walk visit state) state = some last) :
    Records (visits.flatMap below) h state last := by
  intro still
  induction visits generalizing state with
  | nil =>
    cases walked
    exact ⟨still, (List.append_nil _).symm⟩
  | cons visit visits ih =>
    rw [List.foldlM_cons] at walked
    obtain ⟨middle, first, others⟩ := Option.bind_eq_some_iff.mp walked
    obtain ⟨here, front⟩ := each first still
    obtain ⟨there, back⟩ := ih others here
    refine ⟨there, ?_⟩
    rw [back, front, List.append_assoc, List.flatMap_cons]

theorem records_from? {h : Heap} {descend : Visit → Bool} (leaves : visitor.LeavesHeap)
    (decides : ∀ visit state, (visitor visit state).1 = descend visit) {fuel : Nat} {visit : Visit}
    {state last : Heap × (σ × List (Visit × Bool))}
    (walked : from? children visitor.recording fuel visit state = some last) :
    Records (visitsBelow (children h) descend fuel visit) h state last := by
  induction fuel generalizing visit state last with
  | zero => cases walked
  | succ fuel ih =>
    intro still
    have untouched : (visitor.recording visit state).2.1 = h :=
      (leaves.recording visit state).trans still
    have answer : (visitor.recording visit state).1 = descend visit :=
      decides visit (state.1, state.2.1)
    rw [from?_succ, untouched, answer] at walked
    obtain ⟨there, recorded⟩ :=
      records_foldlM (from? children visitor.recording fuel) ih walked untouched
    refine ⟨there, recorded.trans ?_⟩
    simp [Visitor.recording, Visitor.noting, visitsBelow]

/-- All that a walk with such a visitor has visited. -/
theorem visits_of_run? {h : Heap} {descend : Visit → Bool} (leaves : visitor.LeavesHeap)
    (decides : ∀ visit state, (visitor visit state).1 = descend visit) {fuel : Nat} {root : Value}
    {s : σ} {last : Heap × (σ × List (Visit × Bool))}
    (walked : run? children visitor.recording fuel root (h, s, []) = some (root, last)) :
    last.2.2.map (·.1) = visitsBelow (children h) descend fuel ⟨none, root, none⟩ := by
  obtain ⟨ended, ends, same⟩ := Option.map_eq_some_iff.mp walked
  obtain rfl : ended = last := (Prod.mk.inj same).2
  simpa using (records_from? leaves decides ends rfl).2

/-- A walk of an acyclic heap ends, in whatever order the children are listed. -/
theorem exists_visits {h : Heap} {descend : Visit → Bool} {root : Value}
    (leaves : visitor.LeavesHeap) (decides : ∀ visit state, (visitor visit state).1 = descend visit)
    (same : ∀ n, Multiset.Rel AlikeEntries (h.children n : Multiset (Key × Value)) (children h n))
    (acyclic : Acyclic h.children root) (s : σ) :
    ∃ last calls depth, ∀ fuel ≥ depth,
      run? children visitor.recording fuel root (h, s, []) = some (root, h, last, calls) ∧
      calls.map (·.1) = visitsBelow (children h) descend fuel ⟨none, root, none⟩ := by
  obtain ⟨stops, last, depth, _, ends⟩ :=
    exists_sweeps leaves (finite_below_of_rel same root) (acyclic_of_rel same acyclic) s
  refine ⟨last, stops.map Stop.call, depth, fun fuel enough => ?_⟩
  have walked := (ends fuel enough).2
  exact ⟨walked, visits_of_run? leaves decides walked⟩

section Orders
variable {listed others : Node → List (Key × Value)} {descend : Visit → Bool}
  (same : ∀ n, Multiset.Rel AlikeEntries (listed n : Multiset (Key × Value)) (others n))
  (respects : ∀ one other : Visit, one.Alike other → descend one = descend other)

include same

theorem rel_expand {one other : Visit} (alike : one.Alike other) (answer : Bool) :
    Multiset.Rel Visit.Alike (one.expand listed answer : Multiset Visit)
      (other.expand others answer) := by
  obtain ⟨index, value, parent⟩ := one
  obtain ⟨index', value', parent'⟩ := other
  obtain rfl : value = value' := alike.value
  cases answer with
  | false => exact .zero
  | true =>
    cases value with
    | node n =>
      -- The node is one and the same on both sides, only its children are listed differently.
      simp only [Visit.expand, ← Multiset.map_coe]
      refine Multiset.rel_map.mpr ((same n).mono fun a _ b _ entries => ?_)
      exact ⟨.some entries.1, entries.2, rfl⟩
    | _ => exact .zero

include respects in
theorem rel_visitsBelow (fuel : Nat) {one other : Visit} (alike : one.Alike other) :
    Multiset.Rel Visit.Alike (visitsBelow listed descend fuel one : Multiset Visit)
      (visitsBelow others descend fuel other) := by
  induction fuel generalizing one other with
  | zero => exact .zero
  | succ fuel ih =>
    simp only [visitsBelow, ← Multiset.cons_coe, ← Multiset.coe_bind]
    refine .cons alike (Multiset.rel_bind (fun a b alike => ih alike) ?_)
    rw [respects one other alike]
    exact rel_expand same alike _

end Orders

/-- A visitor whose answer depends on the visit alone, its index up to equality, makes the same
visits in any order of siblings. -/
theorem plain?_canonical?_same_visits (h : Heap) :
    (∀ n, Multiset.Rel AlikeEntries (h.children n : Multiset (Key × Value))
      (h.canonicalChildren n)) ∧
    ∀ {σ : Type} (anyOrder : Heap → Node → List (Key × Value)) (visitor : Visitor σ)
      (descend : Visit → Bool) (root : Value) (s : σ),
      (∀ n, (anyOrder h n).Perm (h.children n)) → visitor.LeavesHeap →
      (∀ visit state, (visitor visit state).1 = descend visit) →
      (∀ one other : Visit, one.Alike other → descend one = descend other) →
      Acyclic h.children root →
      ∃ last last' calls calls' depth, ∀ fuel ≥ depth,
        run? anyOrder visitor.recording fuel root (h, s, []) = some (root, h, last, calls) ∧
        canonical? visitor.recording fuel root (h, s, []) = some (root, h, last', calls') ∧
        Multiset.Rel Visit.Alike (calls.map (·.1) : Multiset Visit) (calls'.map (·.1)) := by
  refine ⟨h.rel_children, ?_⟩
  intro σ anyOrder visitor descend root s perm leaves decides respects acyclic
  have ordered (n : Node) : (h.children n : Multiset (Key × Value)) = anyOrder h n :=
    Multiset.coe_eq_coe.mpr (perm n).symm
  have ownOrder (n : Node) :
      Multiset.Rel AlikeEntries (h.children n : Multiset (Key × Value)) (anyOrder h n) := by
    rw [ordered n]
    exact rel_alikeEntries_self _
  have sameChildren (n : Node) : Multiset.Rel AlikeEntries
      (anyOrder h n : Multiset (Key × Value)) (h.canonicalChildren n) :=
    ordered n ▸ h.rel_children n
  obtain ⟨last, calls, depth, ends⟩ := exists_visits leaves decides ownOrder acyclic s
  obtain ⟨last', calls', depth', ends'⟩ := exists_visits leaves decides h.rel_children acyclic s
  refine ⟨last, last', calls, calls', max depth depth', fun fuel enough => ?_⟩
  obtain ⟨walked, visits⟩ := ends fuel (by omega)
  obtain ⟨walked', visits'⟩ := ends' fuel (by omega)
  refine ⟨walked, walked', ?_⟩
  rw [visits, visits']
  exact rel_visitsBelow sameChildren respects fuel ⟨.none, rfl, rfl⟩

/-- A table that holds a list under a symbol, with an equal symbol that has a span in its recorded
order. -/
def respelled : Heap where
  names := (({} : NamePool).intern "a").2
  cells := #[.fixed, .items [.bool true],
    .table { (({} : Contents).insert (.str "b") (.bool true)).insert
        (.node (.symbol ⟨3, ⟨0⟩, none⟩)) (.node (.list ⟨1, none⟩)) with
      order := some [.str "gone", .node (.symbol ⟨4, ⟨0⟩, some { line := some 7 }⟩)] }]

/-- Goes down everywhere but under one key. -/
def avoids (key : Key) : Visitor Unit :=
  fun visit state => (visit.index.map Key.identity != some key.identity, state)

theorem respelled_same_visits : Acyclic respelled.children (.node (.table ⟨2, none⟩)) ∧
    ∃ last last' calls calls' depth, ∀ fuel ≥ depth,
      run? (fun h n => (h.children n).reverse) (avoids (.str "b")).recording fuel
        (.node (.table ⟨2, none⟩)) (respelled, (), []) =
          some (.node (.table ⟨2, none⟩), respelled, last, calls) ∧
      canonical? (avoids (.str "b")).recording fuel (.node (.table ⟨2, none⟩))
        (respelled, (), []) = some (.node (.table ⟨2, none⟩), respelled, last', calls') ∧
      Multiset.Rel Visit.Alike (calls.map (·.1) : Multiset Visit) (calls'.map (·.1)) := by
  have acyclic : Acyclic respelled.children (.node (.table ⟨2, none⟩)) :=
    acyclic_of_descending (by decide) _
  refine ⟨acyclic, (plain?_canonical?_same_visits respelled).2 (fun h n => (h.children n).reverse)
    (avoids (.str "b")) (fun visit => visit.index.map Key.identity != some (.str "b")) _ ()
    (fun n => List.reverse_perm _) (fun _ _ => rfl) (fun _ _ => rfl) ?_ acyclic⟩
  intro one other alike
  rw [alike.map_identity]

/-- Whether no span is seen of the key of a visit. -/
def showsNoSpan (visit : Visit) : Bool :=
  visit.index.all fun key => key.toValue.source.isEmpty

/-- Goes down under keys without a span only. -/
def spanless : Visitor Unit := fun visit state => (showsNoSpan visit, state)

theorem canonicalChildren_respelled : respelled.canonicalChildren (.table ⟨2, none⟩) =
    [(.node (.symbol ⟨4, ⟨0⟩, some { line := some 7 }⟩), .node (.list ⟨1, none⟩)),
      (.str "b", .bool true)] := by
  have others : (respelled.contents ⟨2, none⟩).unrecordedKeys = [.str "b"] := rfl
  have keys : respelled.canonicalKeys ⟨2, none⟩ =
      [.node (.symbol ⟨4, ⟨0⟩, some { line := some 7 }⟩), .str "b"] := by
    rw [Heap.canonicalKeys, Contents.canonicalKeys, others, List.mergeSort_singleton]
    rfl
  rw [Heap.canonicalChildren, Heap.canonicalEntries, keys]
  rfl

theorem length_spanless_plain (fuel : Nat) : (visitsBelow respelled.children showsNoSpan (fuel + 3)
    ⟨none, .node (.table ⟨2, none⟩), none⟩).length = 4 := rfl

theorem length_spanless_canonical (fuel : Nat) :
    (visitsBelow respelled.canonicalChildren showsNoSpan (fuel + 3)
      ⟨none, .node (.table ⟨2, none⟩), none⟩).length = 3 := by
  have spanned (below : Value) (parent : Option Node) : showsNoSpan
      ⟨some (.node (.symbol ⟨4, ⟨0⟩, some { line := some 7 }⟩)), below, parent⟩ = false := rfl
  have root : showsNoSpan ⟨none, .node (.table ⟨2, none⟩), none⟩ = true := rfl
  simp [visitsBelow, Visit.expand, canonicalChildren_respelled, spanned, root]

/-- A visitor that tells equal keys apart goes down under the stored symbol only. -/
theorem spanless_visits_differ : Acyclic respelled.children (.node (.table ⟨2, none⟩)) ∧
    spanless.LeavesHeap ∧ (∀ visit state, (spanless visit state).1 = showsNoSpan visit) ∧
    ∃ last last' calls calls' depth,
      (∀ fuel ≥ depth,
        plain? spanless.recording fuel (.node (.table ⟨2, none⟩)) (respelled, (), []) =
          some (.node (.table ⟨2, none⟩), respelled, last, calls) ∧
        canonical? spanless.recording fuel (.node (.table ⟨2, none⟩)) (respelled, (), []) =
          some (.node (.table ⟨2, none⟩), respelled, last', calls')) ∧
      ¬ Multiset.Rel Visit.Alike (calls.map (·.1) : Multiset Visit) (calls'.map (·.1)) := by
  have acyclic : Acyclic respelled.children (.node (.table ⟨2, none⟩)) :=
    acyclic_of_descending (by decide) _
  have leaves : spanless.LeavesHeap := fun _ _ => rfl
  have decides (visit : Visit) (state : Heap × Unit) :
      (spanless visit state).1 = showsNoSpan visit := rfl
  obtain ⟨last, calls, depth, ends⟩ :=
    exists_visits leaves decides (fun n => rel_alikeEntries_self (respelled.children n)) acyclic ()
  obtain ⟨last', calls', depth', ends'⟩ :=
    exists_visits leaves decides respelled.rel_children acyclic ()
  refine ⟨acyclic, leaves, decides, last, last', calls, calls', max depth depth',
    fun fuel enough => ⟨(ends fuel (by omega)).1, (ends' fuel (by omega)).1⟩, fun same => ?_⟩
  have visits := (ends (depth + depth' + 3) (by omega)).2
  have visits' := (ends' (depth + depth' + 3) (by omega)).2
  have counted := Multiset.card_eq_card_of_rel same
  rw [visits, visits', Multiset.coe_card, Multiset.coe_card, length_spanless_plain,
    length_spanless_canonical] at counted
  omega

end Walk

end LispFrontEnd
