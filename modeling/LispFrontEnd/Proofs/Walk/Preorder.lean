import LispFrontEnd.Proofs.Walk.Worklist

/-! # Walks in pre-order

A walk whose visitor only looks visits the places under its root that the visitor lets it come to,
each once and by ascending paths: a place before those below it, and those below one child before
those below the next. `VisitsInPreorder` says what this means without the walk. Each visit has the
index of the last step of its path and the node above it. Under a root of a heap there are only
finitely many nodes, by its children in either order.
-/

namespace LispFrontEnd.Walk

section Places
variable {listed : Node → List (Key × Value)} {root : Value}

/-- The visit of the value at a path, without index and parent at the root alone. -/
inductive At (listed : Node → List (Key × Value)) (root : Value) : List Nat → Visit → Prop where
  | root : At listed root [] ⟨none, root, none⟩
  | child {path : List Nat} {above : Visit} {node : Node} {i : Nat} {key : Key} {value : Value}
      (parent : At listed root path above) (container : above.value = .node node)
      (position : (listed node)[i]? = some (key, value)) :
      At listed root (path ++ [i]) ⟨some key, value, some node⟩

theorem At.unique {path : List Nat} {visit other : Visit} (one : At listed root path visit)
    (two : At listed root path other) : visit = other := by
  induction one generalizing other with
  | root =>
    generalize start : ([] : List Nat) = path at two
    cases two with
    | root => rfl
    | child => simp at start
  | @child path above node i key value parent container position ih =>
    generalize same : path ++ [i] = whole at two
    cases two with
    | root => simp at same
    | child parent' container' position' =>
      obtain ⟨rfl, rfl⟩ := List.append_singleton_inj.mp same
      obtain rfl := ih parent'
      obtain rfl := Value.node.inj (container.symm.trans container')
      rw [position] at position'
      cases position'
      rfl

theorem At.index_eq_none_iff {path : List Nat} {visit : Visit} (place : At listed root path visit) :
    visit.index = none ↔ path = [] := by
  cases place <;> simp

theorem At.parent_eq_none_iff {path : List Nat} {visit : Visit}
    (place : At listed root path visit) : visit.parent = none ↔ path = [] := by
  cases place <;> simp

end Places

/-- At the first position where two paths differ, the first path takes an earlier child. -/
def TurnsBefore (p q : List Nat) : Prop :=
  ∃ front i j restP restQ, i < j ∧ p = front ++ i :: restP ∧ q = front ++ j :: restQ

/-- So do all paths that go on from them. -/
theorem TurnsBefore.append {p q : List Nat} (before : TurnsBefore p q) (moreP moreQ : List Nat) :
    TurnsBefore (p ++ moreP) (q ++ moreQ) := by
  obtain ⟨front, i, j, restP, restQ, less, rfl, rfl⟩ := before
  exact ⟨front, i, j, restP ++ moreP, restQ ++ moreQ, less, by simp, by simp⟩

theorem TurnsBefore.lt {p q : List Nat} (before : TurnsBefore p q) : p < q := by
  obtain ⟨front, i, j, restP, restQ, less, rfl, rfl⟩ := before
  exact List.append_left_lt (.rel less)

/-- The places of children turn off one before the other. -/
theorem placesFrom_turn (path : List Nat) (visits : List Visit) (start : Nat) :
    (placesFrom path visits start).Pairwise fun p q => TurnsBefore p.path q.path := by
  have positions : ((visits.zipIdx start).map (·.2)).Pairwise (· < ·) := by
    rw [List.zipIdx_map_snd]
    exact List.pairwise_lt_range'
  refine List.pairwise_map.mpr ((List.pairwise_map.mp positions).imp fun {a b} less => ?_)
  exact ⟨path, a.2, b.2, [], [], less, rfl, rfl⟩

theorem lt_of_concat_prefix {path whole : List Nat} {i : Nat} (goesOn : path ++ [i] <+: whole) :
    path < whole := by
  obtain ⟨more, rfl⟩ := goesOn
  have longer : path ++ [] < path ++ i :: more := List.append_left_lt (List.nil_lt_cons i more)
  simpa using longer

/-- All places above a path have been answered true. -/
def OpenAbove (stops : List Stop) (path : List Nat) : Prop :=
  ∀ above, above <+: path → above ≠ path → ∃ stop ∈ stops, stop.path = above ∧ stop.answer = true

theorem openAbove_nil (stops : List Stop) : OpenAbove stops [] :=
  fun _ before proper => absurd (List.prefix_nil.mp before) proper

theorem openAbove_concat_iff {stops : List Stop} {path : List Nat} {i : Nat} :
    OpenAbove stops (path ++ [i]) ↔
      OpenAbove stops path ∧ ∃ stop ∈ stops, stop.path = path ∧ stop.answer = true := by
  constructor
  · intro opened
    refine ⟨fun above before _ => ?_, ?_⟩
    · apply opened above (before.trans (List.prefix_append path [i]))
      rintro rfl
      simpa using before.length_le
    · apply opened path (List.prefix_append path [i])
      simp
  · rintro ⟨opened, last⟩ above before proper
    rcases List.prefix_concat_iff.mp before with same | earlier
    · exact absurd same proper
    · by_cases same : above = path
      · exact same ▸ last
      · exact opened above earlier same

theorem OpenAbove.mono {stops more : List Stop} {path : List Nat} (opened : OpenAbove stops path)
    (grown : stops ⊆ more) : OpenAbove more path := by
  intro above before proper
  obtain ⟨stop, member, answered⟩ := opened above before proper
  exact ⟨stop, grown member, answered⟩

/-- Every stop is at the value of its path, and the paths ascend and are those above which all stops
answered true. -/
structure VisitsInPreorder (listed : Node → List (Key × Value)) (root : Value)
    (stops : List Stop) : Prop where
  placed : ∀ stop ∈ stops, At listed root stop.path stop.visit
  ascending : stops.Pairwise fun earlier later => earlier.path < later.path
  reached : ∀ path, (∃ stop ∈ stops, stop.path = path) ↔
    (∃ visit, At listed root path visit) ∧ OpenAbove stops path

/-- All pending places are visited in turn, and those that come up before those that are left. -/
inductive Sweeps (listed : Node → List (Key × Value)) : List Place → List Stop → Prop where
  | done : Sweeps listed [] []
  | visit {place : Place} {answer : Bool} {pending : List Place} {stops : List Stop}
      (rest : Sweeps listed (Stop.opened listed ⟨place, answer⟩ ++ pending) stops) :
      Sweeps listed (place :: pending) (⟨place, answer⟩ :: stops)

namespace Sweeps
variable {listed : Node → List (Key × Value)} {root : Value} {pending : List Place}
  {stops : List Stop}

theorem visited (sweeps : Sweeps listed pending stops) {place : Place} (member : place ∈ pending) :
    ∃ stop ∈ stops, stop.toPlace = place := by
  induction sweeps with
  | done => cases member
  | @visit first answer pending stops rest ih =>
    rcases List.mem_cons.mp member with rfl | later
    · exact ⟨_, List.mem_cons_self, rfl⟩
    · obtain ⟨stop, there, same⟩ := ih (List.mem_append_right _ later)
      exact ⟨stop, List.mem_cons_of_mem _ there, same⟩

theorem visited_opened (sweeps : Sweeps listed pending stops) {stop : Stop} (member : stop ∈ stops)
    {place : Place} (opened : place ∈ stop.opened listed) :
    ∃ below ∈ stops, below.toPlace = place := by
  induction sweeps with
  | done => cases member
  | @visit first answer pending stops rest ih =>
    rcases List.mem_cons.mp member with rfl | later
    · obtain ⟨below, there, same⟩ := rest.visited (List.mem_append_left pending opened)
      exact ⟨below, List.mem_cons_of_mem _ there, same⟩
    · obtain ⟨below, there, same⟩ := ih later
      exact ⟨below, List.mem_cons_of_mem _ there, same⟩

theorem placed (sweeps : Sweeps listed pending stops)
    (start : ∀ place ∈ pending, At listed root place.path place.visit) :
    ∀ stop ∈ stops, At listed root stop.path stop.visit := by
  induction sweeps with
  | done => simp
  | @visit first answer pending stops rest ih =>
    obtain ⟨here, others⟩ := List.forall_mem_cons.mp start
    refine List.forall_mem_cons.mpr ⟨here, ih fun place member => ?_⟩
    rcases List.mem_append.mp member with opened | later
    · obtain ⟨_, node, i, key, child, value, position, rfl⟩ := Stop.mem_opened.mp opened
      exact .child here value position
    · exact others place later

/-- The stops made earlier open the way to what is pending, and all stops together the way to each
other. -/
theorem openAbove (sweeps : Sweeps listed pending stops) {earlier : List Stop}
    (start : ∀ place ∈ pending, OpenAbove earlier place.path) :
    ∀ stop ∈ stops, OpenAbove (earlier ++ stops) stop.path := by
  induction sweeps generalizing earlier with
  | done => simp
  | @visit first answer pending stops rest ih =>
    obtain ⟨here, others⟩ := List.forall_mem_cons.mp start
    have later := ih fun place member => show OpenAbove (earlier ++ [⟨first, answer⟩]) place.path by
      rcases List.mem_append.mp member with opened | later
      · obtain ⟨wanted, node, i, key, child, _, _, rfl⟩ := Stop.mem_opened.mp opened
        exact openAbove_concat_iff.mpr ⟨here.mono (List.subset_append_left _ _),
          _, List.mem_concat_self, rfl, wanted⟩
      · exact (others place later).mono (List.subset_append_left _ _)
    rw [List.append_assoc] at later
    exact List.forall_mem_cons.mpr ⟨here.mono (List.subset_append_left _ _), later⟩

/-- All paths go on from those that were pending. -/
theorem goesOn (sweeps : Sweeps listed pending stops) :
    ∀ stop ∈ stops, ∃ place ∈ pending, place.path <+: stop.path := by
  induction sweeps with
  | done => simp
  | @visit first answer pending stops rest ih =>
    refine List.forall_mem_cons.mpr ⟨⟨first, List.mem_cons_self, List.prefix_rfl⟩, ?_⟩
    intro stop member
    obtain ⟨place, there, before⟩ := ih stop member
    rcases List.mem_append.mp there with opened | later
    · obtain ⟨_, node, i, key, child, _, _, rfl⟩ := Stop.mem_opened.mp opened
      exact ⟨first, List.mem_cons_self, (List.prefix_append _ [i]).trans before⟩
    · exact ⟨place, List.mem_cons_of_mem _ later, before⟩

theorem ascending (sweeps : Sweeps listed pending stops)
    (turn : pending.Pairwise fun p q => TurnsBefore p.path q.path) :
    stops.Pairwise fun earlier later => earlier.path < later.path := by
  induction sweeps with
  | done => exact .nil
  | @visit first answer pending stops rest ih =>
    obtain ⟨before, others⟩ := List.pairwise_cons.mp turn
    refine List.pairwise_cons.mpr
      ⟨fun stop member => ?_, ih (List.pairwise_append.mpr ⟨?_, others, ?_⟩)⟩
    · obtain ⟨place, there, goesOn⟩ := rest.goesOn stop member
      rcases List.mem_append.mp there with opened | later
      · obtain ⟨_, node, i, key, child, _, _, rfl⟩ := Stop.mem_opened.mp opened
        exact lt_of_concat_prefix goesOn
      · obtain ⟨more, same⟩ := goesOn
        have less := ((before place later).append [] more).lt
        rwa [List.append_nil, same] at less
    · exact placesFrom_turn _ _ _
    · -- What comes up goes on from the first place, which turns off before the other ones.
      intro place opened other later
      obtain ⟨_, node, i, key, child, _, _, rfl⟩ := Stop.mem_opened.mp opened
      simpa using (before other later).append [i] []

/-- A sweep that starts at a root visits what is under it in pre-order. -/
theorem visitsInPreorder (sweeps : Sweeps listed [⟨[], none, root, none⟩] stops) :
    VisitsInPreorder listed root stops := by
  have placed := sweeps.placed (List.forall_mem_singleton.mpr .root)
  refine ⟨placed, sweeps.ascending (List.pairwise_singleton _ _), fun path => ⟨?_, ?_⟩⟩
  · rintro ⟨stop, member, rfl⟩
    refine ⟨⟨stop.visit, placed stop member⟩, ?_⟩
    have start : ∀ place ∈ [(⟨[], none, root, none⟩ : Place)], OpenAbove [] place.path :=
      List.forall_mem_singleton.mpr (openAbove_nil [])
    simpa using sweeps.openAbove start stop member
  · rintro ⟨⟨visit, place⟩, opened⟩
    cases place with
    | root =>
      obtain ⟨stop, member, same⟩ := sweeps.visited (List.mem_singleton_self _)
      exact ⟨stop, member, congrArg Place.path same⟩
    | child parent container position =>
      obtain ⟨_, stop, member, rfl, answered⟩ := openAbove_concat_iff.mp opened
      obtain rfl := (placed stop member).unique parent
      obtain ⟨below, there, same⟩ := sweeps.visited_opened member
        (Stop.mem_opened.mpr ⟨answered, _, _, _, _, container, position, rfl⟩)
      exact ⟨below, there, congrArg Place.path same⟩

end Sweeps

variable {σ : Type} {children : Heap → Node → List (Key × Value)} {visitor : Visitor σ}

theorem sweeps_of_path {h : Heap} (leaves : visitor.LeavesHeap)
    {start last : List Place × (Heap × σ)} {stops : List Stop}
    (path : Path (Step children visitor) start stops last) (still : start.2.1 = h)
    (finished : last.1 = []) : Sweeps (children h) start.1 stops := by
  induction path with
  | nil =>
    rw [finished]
    exact .done
  | cons step rest ih =>
    cases step with
    | @visit place pending answer state next asked =>
      have untouched : next.1 = h := by
        rw [← still, ← leaves place.visit state, asked]
      exact .visit (untouched ▸ ih untouched finished)

/-- With enough fuel, what a walk with a visitor that only looks has visited is what a sweep from
its root visits. -/
theorem exists_sweeps {h : Heap} {root : Value} (leaves : visitor.LeavesHeap)
    (finite : (below (children h) root).Finite) (acyclic : Acyclic (children h) root) (s : σ) :
    ∃ stops last depth, Sweeps (children h) [⟨[], none, root, none⟩] stops ∧ ∀ fuel ≥ depth,
      run? children visitor fuel root (h, s) = some (root, h, last) ∧
      run? children visitor.recording fuel root (h, s, []) =
        some (root, h, last, stops.map Stop.call) := by
  have descends := acc_of_acyclic finite acyclic
  obtain ⟨⟨last, calls⟩, depth, ends⟩ :=
    exists_ends leaves.recording descends ⟨none, root, none⟩ rfl (s, [])
  obtain ⟨stops, path⟩ := path_from? (ends depth (Nat.le_refl depth)) [] []
  obtain rfl : calls = stops.map Stop.call := record_of_path path
  refine ⟨stops, last, depth, sweeps_of_path leaves.recording path rfl rfl, fun fuel enough => ?_⟩
  have recorded := ends fuel enough
  have plain : from? children visitor fuel ⟨none, root, none⟩ (h, s) = some (h, last) := by
    refine (from?_noting (fun visit answer _ => (visit, answer)) fuel _ (h, s, [])).symm.trans ?_
    exact congrArg (Option.map withoutNotes) recorded
  exact ⟨congrArg (Option.map (root, ·)) plain, congrArg (Option.map (root, ·)) recorded⟩

/-- Where finitely many nodes are below a root, and none below itself, a visitor that only looks
walks to the end, in pre-order. -/
theorem run?_preorder (h : Heap) (root : Value) :
    ((below h.children root).Finite ∧ (below h.canonicalChildren root).Finite) ∧
    ∀ {σ : Type} (children : Heap → Node → List (Key × Value)) (visitor : Visitor σ) (s : σ),
      visitor.LeavesHeap → (below (children h) root).Finite → Acyclic (children h) root →
      ∃ stops last depth,
        (∀ fuel ≥ depth,
          run? children visitor fuel root (h, s) = some (root, h, last) ∧
          run? children visitor.recording fuel root (h, s, []) =
            some (root, h, last, stops.map Stop.call)) ∧
        VisitsInPreorder (children h) root stops ∧
        ∀ stop ∈ stops, (stop.visit.index = none ↔ stop.path = []) ∧
          (stop.visit.parent = none ↔ stop.path = []) := by
  refine ⟨⟨finite_below_children h root, finite_below_of_rel h.rel_children root⟩, ?_⟩
  intro σ children visitor s leaves finite acyclic
  obtain ⟨stops, last, depth, sweeps, ends⟩ := exists_sweeps leaves finite acyclic s
  have preorder := sweeps.visitsInPreorder
  refine ⟨stops, last, depth, ends, preorder, fun stop member => ?_⟩
  have place := preorder.placed stop member
  exact ⟨place.index_eq_none_iff, place.parent_eq_none_iff⟩

/-- A sequence of a table and of a list that the table holds as well, under two keys. -/
def diamond : Heap where
  cells := #[.fixed, .items [.bool true],
    .table ((({} : Contents).insert (.str "b") (.node (.list ⟨1, none⟩))).insert
      (.str "a") (.node (.list ⟨1, none⟩))),
    .items [.node (.table ⟨2, none⟩), .node (.list ⟨1, none⟩)]]

/-- Goes down at its first three visits. -/
def opensThree : Visitor Nat := fun _ state => (state.2 < 3, state.1, state.2 + 1)

theorem acyclic_diamond (root : Value) : Acyclic diamond.children root :=
  acyclic_of_descending (by decide) root

theorem diamond_walked_in_preorder :
    Acyclic diamond.canonicalChildren (.node (.sequence ⟨3, none⟩)) ∧
      ∃ stops last depth, VisitsInPreorder diamond.canonicalChildren
          (.node (.sequence ⟨3, none⟩)) stops ∧
        ∀ fuel ≥ depth, canonical? opensThree.recording fuel (.node (.sequence ⟨3, none⟩))
          (diamond, 0, []) =
            some (.node (.sequence ⟨3, none⟩), diamond, last, stops.map Stop.call) := by
  have acyclic := acyclic_of_rel diamond.rel_children
    (acyclic_diamond (.node (.sequence ⟨3, none⟩)))
  obtain ⟨⟨_, finite⟩, walks⟩ := run?_preorder diamond (.node (.sequence ⟨3, none⟩))
  obtain ⟨stops, last, depth, ends, preorder, _⟩ :=
    walks Heap.canonicalChildren opensThree 0 (fun _ _ => rfl) finite acyclic
  exact ⟨acyclic, stops, last, depth, preorder, fun fuel enough => (ends fuel enough).2⟩

/-- The list is visited under both keys of the table and behind it, but gone down into at the first
of these visits only. -/
example : (canonical? opensThree.recording 5 (.node (.sequence ⟨3, none⟩)) (diamond, 0, [])).map
    (fun walked => walked.2.2.2.map fun call => (call.1.index.map (·.label {}), call.2)) =
      some [(none, true), (some "1", true), (some "a", true), (some "1", false),
        (some "b", false), (some "2", false)] := by
  cbv

end LispFrontEnd.Walk
