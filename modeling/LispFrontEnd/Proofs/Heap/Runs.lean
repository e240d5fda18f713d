import LispFrontEnd.Mapping
import LispFrontEnd.Proofs.Heap.Follows
import LispFrontEnd.Proofs.Walk.Worklist

/-! # Runs of operations and iterations

A run makes and changes nodes by operations and by iterations: entries are copied or collected into
tables, callbacks are called on lists, and trees are walked. What a callback does is a run again.
However long a run is and however deep its callbacks go, each call leaves an image that follows on
the one before, and so does the run (`Runs.follows`).

What stays the same is read off that. The nodes compared by identity have different serials, which
are positive, ascend in the order in which the nodes were made and are no more than the nodes, so
that a counter that can count these never turns over. No node is gone, and nothing else can be read
than nodes that have been made. By whatever handle, a node is described as it was at first; what can
be read of it is as it was unless it is one of the targets, and one more operation changes that by
every handle of its own node and by no handle of any other (`Runs.identity_and_frame`).
-/

namespace LispFrontEnd

variable {σ α β : Type}

/-- What a callback is called in and leaves behind: the heap, the nodes made so far, and what the
callback keeps for itself. -/
abbrev CallState (σ : Type) := Heap × (List Node × σ)

abbrev Callback (σ α β : Type) := α → CallState σ → β × CallState σ

namespace CallState

def image (state : CallState σ) : Image := ⟨state.1, state.2.1⟩

/-- The nodes that the callback has kept have been made. -/
def KnowsKept (mentions : σ → Set Node) (state : CallState σ) : Prop :=
  ∀ node ∈ mentions state.2.2, node ∈ state.2.1

structure Ready (mentions : σ → Set Node) (state : CallState σ) : Prop where
  coherent : state.image.Coherent
  kept : state.KnowsKept mentions

/-- The state to collect into a new table in: this table will be the next node. -/
def awaitingTable (state : CallState σ) : CallState σ :=
  (state.1, (state.image.perform (.table none)).nodes, state.2.2)

end CallState

/-- A callback that is asked about nodes that have been made answers with such nodes and keeps no
others. -/
structure Callback.Discreet (call : Callback σ α β) (mentions : σ → Set Node)
    (asks : Image → α → Prop) (answers : Image → β → Prop) : Prop where
  keeps : ∀ a state, state.Ready mentions → asks state.image a →
    (call a state).2.KnowsKept mentions
  answers : ∀ a state, state.Ready mentions → asks state.image a →
    answers (call a state).2.image (call a state).1

namespace Image

def KnowsCollected (m : Image) : Option Collected → Prop
  | none => True
  | some (.value v) => m.Knows v
  | some (.entry k v) => m.KnowsEntry (k, v)

structure KnowsVisit (m : Image) (visit : Visit) : Prop where
  index : ∀ key ∈ visit.index, m.KnowsKey key
  value : m.Knows visit.value
  parent : ∀ node ∈ visit.parent, node ∈ m.nodes

variable {m : Image}

theorem KnowsVisit.mono {m later : Image} (grown : m.nodes ⊆ later.nodes) {visit : Visit}
    (known : m.KnowsVisit visit) : later.KnowsVisit visit where
  index key own := (known.index key own).mono grown
  value := known.value.mono grown
  parent node own := grown (known.parent node own)

theorem ListsMade.knowsVisit {children : Heap → Node → List (Key × Value)}
    (lists : ListsMade children) (coherent : m.Coherent) {visit below : Visit} {answer : Bool}
    (known : m.KnowsVisit visit) (member : below ∈ visit.expand (children m.heap) answer) :
    m.KnowsVisit below := by
  obtain ⟨i, listed⟩ := List.mem_iff_getElem?.mp member
  obtain ⟨_, node, key, child, whole, entry, rfl⟩ := Visit.getElem?_expand.mp listed
  have made : node ∈ m.nodes := known.value node (whole ▸ rfl)
  have parts := lists m coherent node made (key, child) (List.mem_of_getElem? entry)
  refine ⟨?_, parts.2, ?_⟩
  · rintro _ ⟨⟩
    exact parts.1
  · rintro _ ⟨⟩
    exact made

/-- The number is among the given ones, or no node has it yet. -/
def MayChange (targets : Set Nat) (m : Image) (id : Nat) : Prop :=
  id ∈ targets ∨ m.heap.cells.size ≤ id

/-- Operations and iterations one after the other, callbacks included, which change only nodes with
the given numbers and those made meanwhile. -/
inductive Runs (targets : Set Nat) : Image → Image → Prop where
  | stay (m : Image) : Runs targets m m
  | operation {first m : Image} (earlier : Runs targets first m) (operation : Operation)
      (admits : m.Admits operation)
      (aimed : ∀ id ∈ operation.target?, first.MayChange targets id) :
      Runs targets first (m.perform operation)
  | copyInto {first m : Image} (earlier : Runs targets first m) (source : Option Table)
      {out : Table} (made : ∀ t ∈ source, .table t ∈ m.nodes) (madeOut : .table out ∈ m.nodes)
      (aimed : first.MayChange targets out.id) :
      Runs targets first { m with heap := m.heap.copyInto source out }
  | copy {first m : Image} (earlier : Runs targets first m) (source : Option Table)
      (made : ∀ t ∈ source, .table t ∈ m.nodes) :
      Runs targets first (m.after .table (m.heap.copy source))
  | collectInto {σ : Type} {first : Image} {state : CallState σ} {mentions : σ → Set Node}
      (earlier : Runs targets first state.image) (kept : state.KnowsKept mentions)
      {source out : Table} (made : .table source ∈ state.2.1) (madeOut : .table out ∈ state.2.1)
      (aimed : first.MayChange targets out.id)
      {call : Callback σ (Key × Value) (Option Collected)}
      (discreet : call.Discreet mentions KnowsEntry KnowsCollected)
      (calls : ∀ entry now, now.Ready mentions → now.image.KnowsEntry entry →
        Runs targets now.image (call entry now).2.image) :
      Runs targets first
        (CallState.image (Heap.collectInto source out (fun key value => call (key, value)) state))
  | collect {σ : Type} {first : Image} {state : CallState σ} {mentions : σ → Set Node}
      (earlier : Runs targets first state.image) (kept : state.KnowsKept mentions)
      {source : Table} (made : .table source ∈ state.2.1)
      {call : Callback σ (Key × Value) (Option Collected)}
      (discreet : call.Discreet mentions KnowsEntry KnowsCollected)
      (calls : ∀ entry now, now.Ready mentions → now.image.KnowsEntry entry →
        Runs targets now.image (call entry now).2.image) :
      Runs targets first (CallState.image
        (Heap.collect source (fun key value => call (key, value)) state.awaitingTable).2)
  | mapInto {σ : Type} {first : Image} {state : CallState σ} {mentions : σ → Set Node}
      (earlier : Runs targets first state.image) (kept : state.KnowsKept mentions)
      {items : List Value} (out : List Value) (made : ∀ item ∈ items, state.image.Knows item)
      {call : Callback σ Value (Option Value)}
      (discreet : call.Discreet mentions Knows fun _ _ => True)
      (calls : ∀ item now, now.Ready mentions → now.image.Knows item →
        Runs targets now.image (call item now).2.image) :
      Runs targets first
        (CallState.image ((Mapping.mapInto (m := StateM (CallState σ)) call items out).run state).2)
  | every {σ : Type} {first : Image} {state : CallState σ} {mentions : σ → Set Node}
      (earlier : Runs targets first state.image) (kept : state.KnowsKept mentions)
      {items : List Value} (made : ∀ item ∈ items, state.image.Knows item)
      {call : Callback σ Value Bool} (discreet : call.Discreet mentions Knows fun _ _ => True)
      (calls : ∀ item now, now.Ready mentions → now.image.Knows item →
        Runs targets now.image (call item now).2.image) :
      Runs targets first
        (CallState.image ((Mapping.every (m := StateM (CallState σ)) call items).run state).2)
  | walk {σ : Type} {first : Image} {state last : CallState σ} {mentions : σ → Set Node}
      (earlier : Runs targets first state.image) (kept : state.KnowsKept mentions)
      {children : Heap → Node → List (Key × Value)} (lists : ListsMade children) {root : Value}
      (made : state.image.Knows root) {call : Callback σ Visit Bool}
      (discreet : call.Discreet mentions KnowsVisit fun _ _ => True)
      (calls : ∀ visit now, now.Ready mentions → now.image.KnowsVisit visit →
        Runs targets now.image (call visit now).2.image)
      {fuel : Nat} (walked : Walk.run? children call fuel root state = some (root, last)) :
      Runs targets first last.image

end Image

namespace CallState

variable {targets others : Set Nat} {mentions : σ → Set Node} {first : Image}
  {state later : CallState σ} {source out : Table}

/-- The state comes after an image, and the callback has kept no other nodes than those made. -/
structure Reached (targets : Set Nat) (mentions : σ → Set Node) (first : Image)
    (state : CallState σ) : Prop where
  follows : Image.Follows targets first state.image
  kept : state.KnowsKept mentions

theorem Ready.reached (ready : state.Ready mentions) :
    Reached targets mentions state.image state :=
  ⟨ready.coherent.follows, ready.kept⟩

theorem Reached.ready (reached : Reached targets mentions first state) : state.Ready mentions :=
  ⟨reached.follows.coherent, reached.kept⟩

theorem Reached.trans (before : Reached targets mentions first state)
    (after : Reached targets mentions state.image later) : Reached targets mentions first later :=
  ⟨before.follows.trans after.follows, after.kept⟩

theorem Reached.widen (reached : Reached targets mentions first state) (wider : targets ⊆ others) :
    Reached others mentions first state :=
  ⟨reached.follows.widen wider, reached.kept⟩

end CallState

open CallState

/-- However it is called, a callback changes nothing but the targets. -/
def Callback.Steady (call : Callback σ α β) (targets : Set Nat) (mentions : σ → Set Node)
    (asks : Image → α → Prop) : Prop :=
  ∀ a state, state.Ready mentions → asks state.image a →
    Reached targets mentions state.image (call a state).2

namespace Callback

variable {targets others : Set Nat} {mentions : σ → Set Node} {asks : Image → α → Prop}
  {answers : Image → β → Prop} {call : Callback σ α β}

theorem Discreet.steady (discreet : call.Discreet mentions asks answers)
    (calls : ∀ a now, now.Ready mentions → asks now.image a →
      Image.Follows targets now.image (call a now).2.image) : call.Steady targets mentions asks :=
  fun a state ready asked => ⟨calls a state ready asked, discreet.keeps a state ready asked⟩

theorem Steady.widen (steady : call.Steady targets mentions asks) (wider : targets ⊆ others) :
    call.Steady others mentions asks :=
  fun a state ready asked => (steady a state ready asked).widen wider

end Callback

namespace CallState

variable {targets : Set Nat} {mentions : σ → Set Node} {first : Image} {state last : CallState σ}
  {source out : Table}

theorem run_mapInto_cons (call : Callback σ Value (Option Value)) (item : Value)
    (rest out : List Value) (state : CallState σ) :
    (Mapping.mapInto (m := StateM (CallState σ)) call (item :: rest) out).run state =
      (Mapping.mapInto (m := StateM (CallState σ)) call rest
        (out ++ (call item state).1.toList)).run (call item state).2 := by
  rw [Mapping.mapInto, StateT.run_bind, StateT.run]
  rcases call item state with ⟨_ | value, next⟩
  · rw [Option.toList_none, List.append_nil]
    rfl
  · rfl

/-- Every item is given to the callback, one after the other. -/
theorem run_mapInto (call : Callback σ Value (Option Value)) (items out : List Value)
    (state : CallState σ) :
    ((Mapping.mapInto (m := StateM (CallState σ)) call items out).run state).2 =
      items.foldl (fun now item => (call item now).2) state := by
  induction items generalizing state out with
  | nil => rfl
  | cons item rest ih =>
    rw [run_mapInto_cons]
    exact ih _ _

/-- The first items are given to the callback, one after the other. -/
theorem run_every (call : Callback σ Value Bool) (items : List Value) (state : CallState σ) :
    ∃ asked, asked <+: items ∧
      ((Mapping.every (m := StateM (CallState σ)) call items).run state).2 =
        asked.foldl (fun now item => (call item now).2) state := by
  induction items generalizing state with
  | nil => exact ⟨[], List.prefix_rfl, rfl⟩
  | cons item rest ih =>
    change ∃ asked, asked <+: item :: rest ∧
      (StateT.run (if (call item state).1 then
        Mapping.every (m := StateM (CallState σ)) call rest else pure false)
        (call item state).2).2 = _
    split
    · obtain ⟨asked, begins, same⟩ := ih (call item state).2
      exact ⟨item :: asked, List.cons_prefix_cons.mpr ⟨rfl, begins⟩, same⟩
    · exact ⟨[item], List.cons_prefix_cons.mpr ⟨rfl, List.nil_prefix⟩, rfl⟩

theorem Ready.reached_foldl (ready : state.Ready mentions) {call : Callback σ Value β}
    (steady : call.Steady targets mentions Image.Knows) {items : List Value}
    (known : ∀ item ∈ items, state.image.Knows item) :
    Reached targets mentions state.image
      (items.foldl (fun now item => (call item now).2) state) := by
  refine List.foldlRecOn (motive := Reached targets mentions state.image) _ _ ready.reached ?_
  intro now reached item member
  have asked := (known item member).mono reached.follows.older.subset
  exact reached.trans (steady item now reached.ready asked)

/-- Walks one after the other, each with what is known to those before it. -/
theorem Ready.reached_foldlM {walk : Visit → CallState σ → Option (CallState σ)}
    (each : ∀ {visit now last}, now.Ready mentions → now.image.KnowsVisit visit →
      walk visit now = some last → Reached targets mentions now.image last)
    {visits : List Visit} (ready : state.Ready mentions)
    (known : ∀ visit ∈ visits, state.image.KnowsVisit visit)
    (walked : visits.foldlM (fun now visit => walk visit now) state = some last) :
    Reached targets mentions state.image last := by
  induction visits generalizing state with
  | nil =>
    cases walked
    exact ready.reached
  | cons visit rest ih =>
    obtain ⟨here, others⟩ := List.forall_mem_cons.mp known
    rw [List.foldlM_cons] at walked
    obtain ⟨next, walkedFirst, walkedRest⟩ := Option.bind_eq_some_iff.mp walked
    have reached := each ready here walkedFirst
    have grown := reached.follows.older.subset
    have known := fun visit member => (others visit member).mono grown
    exact reached.trans (ih reached.ready known walkedRest)

theorem Ready.reached_walk {children : Heap → Node → List (Key × Value)}
    (lists : Image.ListsMade children) {call : Callback σ Visit Bool}
    (steady : call.Steady targets mentions Image.KnowsVisit) {fuel : Nat} {visit : Visit}
    (ready : state.Ready mentions) (known : state.image.KnowsVisit visit)
    (walked : Walk.from? children call fuel visit state = some last) :
    Reached targets mentions state.image last := by
  induction fuel generalizing visit state last with
  | zero => cases walked
  | succ fuel ih =>
    -- The children are listed in the heap that the visit has left.
    rw [Walk.from?_succ] at walked
    have called := steady visit state ready known
    have still := known.mono called.follows.older.subset
    exact called.trans (called.ready.reached_foldlM ih
      (fun below member => lists.knowsVisit called.follows.coherent still member) walked)

theorem Reached.store (reached : Reached targets mentions first state)
    (made : .table out ∈ first.nodes) (aimed : out.id ∈ targets) {collected : Option Collected}
    (known : state.image.KnowsCollected collected) :
    Reached targets mentions first (state.1.store out collected, state.2) := by
  have there : .table out ∈ state.image.nodes := reached.follows.older.subset made
  have own {node : Node} (target : some out.id = some node.id) : node.id ∈ targets :=
    Option.some.inj target ▸ aimed
  refine ⟨reached.follows.trans ?_, reached.kept⟩
  match collected with
  | none => exact reached.follows.coherent.follows
  | some (.value v) =>
    exact reached.follows.coherent.follows_perform (.push out v) ⟨there, known⟩
      fun _ _ => own
  | some (.entry k v) =>
    exact reached.follows.coherent.follows_perform (.insert out k v) ⟨there, known⟩
      fun _ _ => own

theorem Reached.collectEntry (reached : Reached targets mentions first state)
    {call : Callback σ (Key × Value) (Option Collected)}
    (steady : call.Steady targets mentions Image.KnowsEntry)
    (discreet : call.Discreet mentions Image.KnowsEntry Image.KnowsCollected)
    (made : .table out ∈ first.nodes) (aimed : out.id ∈ targets) {key : Key}
    (known : first.KnowsKey key) :
    Reached targets mentions first
      (Heap.collectEntry source out (fun key value => call (key, value)) state key) := by
  rw [Heap.collectEntry]
  split
  · exact reached
  · rename_i value found
    have asked : state.image.KnowsEntry (key, value) :=
      ⟨known.mono reached.follows.older.subset, reached.follows.coherent.knows_get? found⟩
    exact (reached.trans (steady _ state reached.ready asked)).store made aimed
      (discreet.answers _ state reached.ready asked)

theorem Ready.follows_collectInto (ready : state.Ready mentions) (source : Table)
    (made : .table out ∈ state.2.1) {call : Callback σ (Key × Value) (Option Collected)}
    (steady : call.Steady targets mentions Image.KnowsEntry)
    (discreet : call.Discreet mentions Image.KnowsEntry Image.KnowsCollected) :
    Image.Follows (insert out.id targets) state.image
      (image (Heap.collectInto source out (fun key value => call (key, value)) state)) := by
  refine Reached.follows (List.foldlRecOn
    (motive := Reached (insert out.id targets) mentions state.image) _ _
    ready.reached fun now reached key member => ?_)
  exact reached.collectEntry (steady.widen (Set.subset_insert _ _)) discreet made
    (Set.mem_insert _ _) (ready.coherent.knowsKey_of_mem_canonicalKeys member)

/-- The new table is the first node that is made. -/
theorem Ready.follows_collect (ready : state.Ready mentions) (source : Table)
    {call : Callback σ (Key × Value) (Option Collected)}
    (steady : call.Steady targets mentions Image.KnowsEntry)
    (discreet : call.Discreet mentions Image.KnowsEntry Image.KnowsCollected) :
    Image.Follows (insert state.1.cells.size targets) state.image (image
      (Heap.collect source (fun key value => call (key, value)) state.awaitingTable).2) := by
  let started : CallState σ :=
    ((state.1.newTable {} none).2, state.awaitingTable.2.1, state.2.2)
  have made : Image.Follows (insert state.1.cells.size targets) state.image started.image :=
    ready.coherent.follows_perform (.table none) trivial fun _ _ target => nomatch target
  have readyThen : started.Ready mentions :=
    ⟨made.coherent, fun node member => List.mem_cons_of_mem _ (ready.kept node member)⟩
  have newest : Node.table (state.1.newTable {} none).1 ∈ started.2.1 := List.mem_cons_self ..
  exact made.trans (readyThen.follows_collectInto source newest steady discreet)

end CallState

namespace Image

variable {targets others : Set Nat} {first m last : Image}

/-- What a run is aimed at is among the targets if it was there before the run. -/
theorem Coherent.mem_of_mayChange (coherent : first.Coherent) {node : Node}
    (made : node ∈ first.nodes) (aimed : first.MayChange targets node.id) : node.id ∈ targets := by
  rcases aimed with among | new
  · exact among
  · exact absurd (coherent.bounded node made).2 (Nat.not_lt.mpr new)

/-- A run that goes on with a change of one node. -/
theorem Follows.change (before : Follows targets first m) (coherent : first.Coherent) {id : Nat}
    (aimed : first.MayChange targets id) (after : Follows (insert id targets) m last) :
    Follows targets first last := by
  refine before.andThen after fun node made changed => ?_
  rcases Set.mem_insert_iff.mp changed with rfl | among
  · exact coherent.mem_of_mayChange made aimed
  · exact among

/-- What a run leaves follows on the image in which it began. -/
theorem Runs.follows (runs : Runs targets first last) (coherent : first.Coherent) :
    Follows targets first last := by
  -- The induction is on the run and on the runs of its callbacks: a callback may be called in many
  -- states, all of them coherent, and its runs follow on each of those.
  induction runs with
  | stay m => exact coherent.follows
  | operation earlier operation admits aimed ih =>
    have before := ih coherent
    have own : Follows {id | operation.target? = some id} _ _ :=
      before.coherent.follows_perform operation admits fun _ _ target => target
    refine before.andThen own fun node made target => ?_
    exact coherent.mem_of_mayChange made (aimed node.id target)
  | copyInto earlier source made madeOut aimed ih =>
    have before := ih coherent
    have copied := before.coherent.follows_copyInto source madeOut
    exact before.change coherent aimed (copied.widen (by simp))
  | copy earlier source made ih =>
    have before := ih coherent
    have copied := before.coherent.follows_copy source
    exact before.change coherent (.inr before.size_le) (copied.widen (by simp))
  | collectInto earlier kept made madeOut aimed discreet calls ih ihCalls =>
    have before := ih coherent
    have steady := discreet.steady fun a now ready asked => ihCalls a now ready asked ready.coherent
    have ready : Ready _ _ := ⟨before.coherent, kept⟩
    exact before.change coherent aimed (ready.follows_collectInto _ madeOut steady discreet)
  | collect earlier kept made discreet calls ih ihCalls =>
    have before := ih coherent
    have steady := discreet.steady fun a now ready asked => ihCalls a now ready asked ready.coherent
    have ready : Ready _ _ := ⟨before.coherent, kept⟩
    exact before.change coherent (.inr before.size_le) (ready.follows_collect _ steady discreet)
  | mapInto earlier kept out made discreet calls ih ihCalls =>
    have before := ih coherent
    have steady := discreet.steady fun a now ready asked => ihCalls a now ready asked ready.coherent
    have ready : Ready _ _ := ⟨before.coherent, kept⟩
    rw [run_mapInto]
    exact before.trans (ready.reached_foldl steady made).follows
  | @every _ _ state _ earlier kept items made call discreet calls ih ihCalls =>
    have before := ih coherent
    have steady := discreet.steady fun a now ready asked => ihCalls a now ready asked ready.coherent
    have ready : Ready _ _ := ⟨before.coherent, kept⟩
    obtain ⟨asked, begins, same⟩ := run_every call items state
    rw [same]
    -- The items behind the first one that fails are never asked about.
    have known (item : Value) (member : item ∈ asked) := made item (begins.subset member)
    exact before.trans (ready.reached_foldl steady known).follows
  | walk earlier kept lists made discreet calls walked ih ihCalls =>
    have before := ih coherent
    have steady := discreet.steady fun a now ready asked => ihCalls a now ready asked ready.coherent
    have ready : Ready _ _ := ⟨before.coherent, kept⟩
    obtain ⟨_, walked, same⟩ := Option.map_eq_some_iff.mp walked
    cases same
    have root : KnowsVisit _ ⟨none, _, none⟩ :=
      ⟨fun _ own => (nomatch own), made, fun _ own => (nomatch own)⟩
    exact before.trans (ready.reached_walk lists steady root walked).follows

section OwnWalks
variable {state : CallState σ} {mentions : σ → Set Node} {root : Value}
  {call : Callback σ Visit Bool} {fuel : Nat} {ended : CallState σ}
  (earlier : Runs targets first state.image) (kept : state.KnowsKept mentions)
  (made : state.image.Knows root) (discreet : call.Discreet mentions KnowsVisit fun _ _ => True)
  (calls : ∀ visit now, now.Ready mentions → now.image.KnowsVisit visit →
    Runs targets now.image (call visit now).2.image)

include earlier kept made discreet calls

theorem Runs.plainWalk (walked : Walk.plain? call fuel root state = some (root, ended)) :
    Runs targets first ended.image :=
  .walk earlier kept listsMade_children made discreet calls walked

theorem Runs.canonicalWalk (walked : Walk.canonical? call fuel root state = some (root, ended)) :
    Runs targets first ended.image :=
  .walk earlier kept listsMade_canonicalChildren made discreet calls walked

end OwnWalks

theorem Reachable.runs (reachable : m.Reachable) : Runs Set.univ {} m := by
  induction reachable with
  | empty => exact .stay _
  | perform operation _ admits ih => exact ih.operation operation admits fun _ _ => .inl trivial

theorem Coherent.serials_pairwise (coherent : m.Coherent) :
    (m.nodes.filter Node.isNumbered).Pairwise fun later earlier =>
      earlier.serial < later.serial := by
  refine List.Pairwise.imp_of_mem ?_ (coherent.numbered.sublist List.filter_sublist)
  intro later earlier madeLater madeEarlier less
  rwa [Node.serial_of_isNumbered (List.mem_filter.mp madeLater).2,
    Node.serial_of_isNumbered (List.mem_filter.mp madeEarlier).2]

/-- Two handles of a node that has been made are one handle, whenever they have been come by. -/
theorem Follows.describe_eq (follows : Follows targets m last) {a b : Node} (madeA : a ∈ m.nodes)
    (madeB : b ∈ last.nodes) (same : b.same a) : last.heap.describe b = m.heap.describe a := by
  have there := follows.older.subset madeA
  obtain rfl := follows.coherent.eq_of_id_eq madeB there (Node.same_iff.mp same).2
  cases b with
  | symbol s =>
    have name := follows.named s madeA
    simp only [Heap.describe, Node.asSymbol?, Option.map_some, name]
  | _ => rfl

theorem Coherent.holds_state (coherent : m.Coherent) (node : Node) :
    m.Holds (m.heap.state node) := by
  cases node with
  | list e => exact coherent.knows_items e
  | sequence e => exact coherent.knows_items e
  | table t => exact coherent.covers_contents t
  | _ => trivial

/-- In every run nodes have ascending serials and lasting descriptions, and a change is seen by the
handles of its own node alone. -/
theorem Runs.identity_and_frame (made : Runs Set.univ {} m) (runs : Runs targets m last) :
    ((last.nodes.filter Node.isNumbered).Pairwise fun later earlier =>
        earlier.serial < later.serial) ∧
      (∀ node ∈ last.nodes, node.isNumbered →
        1 ≤ node.serial ∧ node.serial ≤ last.nodes.length) ∧
      m.nodes <:+ last.nodes ∧
      (∀ node ∈ last.nodes, last.Holds (last.heap.state node)) ∧
      (∀ a ∈ m.nodes, ∀ b ∈ last.nodes, b.same a →
        last.heap.describe b = m.heap.describe a) ∧
      (∀ a ∈ m.nodes, a.id ∉ targets → ∀ b : Node, b.same a →
        last.heap.state b = m.heap.state a) ∧
      ∀ operation, last.Admits operation → ∀ a ∈ last.nodes, ∀ b : Node, b.same a →
        (last.perform operation).heap.state b =
          if operation.target? = some a.id then operation.rewrite (last.heap.state a)
          else last.heap.state a := by
  have before := made.follows .empty
  have after := runs.follows before.coherent
  have coherent := after.coherent
  have counted : last.heap.cells.size = last.nodes.length + 1 := by
    have first : m.heap.cells.size + 0 = 1 + m.nodes.length := before.counted
    have second := after.counted
    omega
  refine ⟨coherent.serials_pairwise, ?_, after.older, ?_, ?_, ?_, ?_⟩
  · intro node there numbered
    rw [Node.serial_of_isNumbered numbered]
    have bounds := coherent.bounded node there
    omega
  · exact fun node _ => coherent.holds_state node
  · exact fun a madeA b madeB same => after.describe_eq madeA madeB same
  · intro a madeA away b same
    rw [Heap.state_eq_of_same same, after.elsewhere a madeA away]
  · intro operation admits a madeA b same
    rw [Heap.state_eq_of_same same, coherent.state_perform admits madeA]

/-- A list, a symbol, and a table with the list in it. -/
def holding : Image :=
  [.list [] none, .symbol "x" none, .table none,
    .insert ⟨3, none⟩ (.int 1) (.node (.list ⟨1, none⟩))].foldl perform {}

/-- Puts the value of each entry into a new list. -/
def boxing : Callback Unit (Key × Value) (Option Collected) := fun entry state =>
  let (e, h) := state.1.newElements [entry.2] none
  (some (.value (.node (.list e))), h, .list e :: state.2.1, ())

/-- A new table with the boxed values of the table in `holding`. -/
def boxed : Image :=
  CallState.image (Heap.collect ⟨3, none⟩ (fun key value => boxing (key, value))
    (CallState.awaitingTable (holding.heap, holding.nodes, ()))).2

theorem holding_reachable : holding.Reachable := by
  have list := Reachable.empty.perform (.list [] none) fun value member => (nomatch member)
  have symbol := list.perform (.symbol "x" none) trivial
  have table := symbol.perform (.table none) trivial
  refine table.perform (.insert ⟨3, none⟩ (.int 1) (.node (.list ⟨1, none⟩))) ⟨.head _, ?_, ?_⟩
  · exact knows_of_plain rfl
  · rintro _ ⟨⟩
    exact .tail _ (.tail _ (.head _))

theorem boxing_discreet :
    boxing.Discreet (fun _ => ∅) KnowsEntry KnowsCollected where
  keeps _ _ _ _ _ kept := absurd kept (Set.notMem_empty _)
  answers _ _ _ _ := by
    rintro _ ⟨⟩
    exact .head _

theorem runs_boxed : Runs ∅ holding boxed := by
  refine .collect (.stay (CallState.image (holding.heap, holding.nodes, ())))
    (fun _ kept => absurd kept (Set.notMem_empty _)) (.head _) boxing_discreet ?_
  intro entry now ready asked
  refine .operation (.stay now.image) (.list [entry.2] none) ?_ fun _ target => (nomatch target)
  exact List.forall_mem_singleton.mpr asked.2

theorem holding_kept_boxed : Runs Set.univ {} holding ∧ Runs ∅ holding boxed ∧
    boxed.heap.state (.table ⟨3, none⟩) = holding.heap.state (.table ⟨3, none⟩) ∧
    (boxed.perform (.pushItem ⟨1, none⟩ (.str "a"))).heap.state (.list ⟨1, none⟩) =
      .items [.str "a"] := by
  have list : .list ⟨1, none⟩ ∈ holding.nodes := .tail _ (.tail _ (.head _))
  obtain ⟨_, _, older, _, _, elsewhere, seen⟩ :=
    Runs.identity_and_frame holding_reachable.runs runs_boxed
  refine ⟨holding_reachable.runs, runs_boxed, ?_, ?_⟩
  · exact elsewhere _ (.head _) (Set.notMem_empty _) _ rfl
  · have made := older.subset list
    rw [seen (.pushItem ⟨1, none⟩ (.str "a")) ⟨.inl made, knows_of_plain rfl⟩ _ made _ rfl,
      elsewhere _ list (Set.notMem_empty _) _ rfl]
    rfl

end Image

end LispFrontEnd
