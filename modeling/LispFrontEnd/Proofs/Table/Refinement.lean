import LispFrontEnd.Proofs.Path
import LispFrontEnd.Proofs.Table.Enumeration
import LispFrontEnd.Proofs.Table.PartialMap
import Mathlib.Logic.Function.Basic

/-! # The tables of a heap refine finite maps

The tables of a heap are seen as one finite map under each identity of a table, whatever handle it
is reached by. Every call that makes or changes tables means a change to these maps, and every way
of reading a table reads its map. So after any calls no value of a table is nil, no two of its keys
are equal, a key is there exactly when it has a value, as many entries as keys are counted, and each
way of enumerating gives every key once.
-/

namespace LispFrontEnd

variable {σ : Type}

/-- The views of tables, under the identities of the tables. -/
abbrev TableViews := Nat → Option TableView

/-- The view of the table in a cell. -/
def Cell.view? : Cell → Option TableView
  | .table contents => some contents.view
  | _ => none

namespace Heap

variable {h : Heap} {t : Table} {view : TableView}

def tables (h : Heap) : TableViews := fun id => h.cells[id]?.bind Cell.view?

/-- The heap has the table that the handle is of. -/
def Holds (h : Heap) (t : Table) : Prop := (h.tables t.id).isSome = true

theorem Holds.exists_view (holds : h.Holds t) : ∃ view, h.tables t.id = some view :=
  Option.isSome_iff_exists.mp holds

theorem cell_of_tables (held : h.tables t.id = some view) :
    h.cells[t.id]? = some (.table (h.contents t)) ∧ (h.contents t).view = view := by
  obtain ⟨cell, there, seen⟩ := Option.bind_eq_some_iff.mp held
  cases cell with
  | table contents =>
    rw [Heap.contents, there]
    exact ⟨rfl, Option.some.inj seen⟩
  | _ => cases seen

theorem Holds.id_lt (holds : h.Holds t) : t.id < h.cells.size := by
  obtain ⟨view, held⟩ := holds.exists_view
  exact (Array.getElem?_eq_some_iff.mp (cell_of_tables held).1).1

theorem setContents_contents (holds : h.Holds t) : h.setContents t (h.contents t) = h := by
  obtain ⟨view, held⟩ := holds.exists_view
  obtain ⟨bound, same⟩ := Array.getElem?_eq_some_iff.mp (cell_of_tables held).1
  rw [setContents, ← same, Array.setIfInBounds, dif_pos bound, Array.set_getElem_self]

theorem view_contents (held : h.tables t.id = some view) : (h.contents t).view = view :=
  (cell_of_tables held).2

theorem get?_eq_lookup (held : h.tables t.id = some view) (key : Key) :
    h.get? t key = view.map.lookup key.identity := by
  rw [← view_contents held, Contents.lookup_view]
  rfl

/-- Writing one table leaves all others as they are. -/
theorem tables_setContents (held : h.tables t.id = some view) (c : Contents) :
    (h.setContents t c).tables = Function.update h.tables t.id (some c.view) := by
  obtain ⟨bound, _⟩ := Array.getElem?_eq_some_iff.mp (cell_of_tables held).1
  funext id
  by_cases here : id = t.id
  · rw [here, Function.update_self, tables, setContents,
      Array.getElem?_setIfInBounds_self_of_lt bound]
    rfl
  · rw [Function.update_of_ne here, tables, tables, setContents,
      Array.getElem?_setIfInBounds_ne (Ne.symm here)]

/-- A new table is at an identity that was free, and all others stay as they are. -/
theorem tables_newTable (h : Heap) (c : Contents) (span : Option SourceSpan) :
    h.tables (h.newTable c span).1.id = none ∧
      (h.newTable c span).2.tables =
        Function.update h.tables (h.newTable c span).1.id (some c.view) := by
  have free : h.cells[h.cells.size]? = none := Array.getElem?_eq_none (Nat.le_refl _)
  refine ⟨congrArg (Option.bind · Cell.view?) free, funext fun id => ?_⟩
  change (h.cells.push (.table c))[id]?.bind Cell.view? = Function.update h.tables h.cells.size _ id
  rw [Array.getElem?_push]
  by_cases here : id = h.cells.size
  · rw [if_pos here, here, Function.update_self]
    rfl
  · rw [if_neg here, Function.update_of_ne here]
    rfl

/-- Every way of reading a table reads its view. -/
structure ReadsAs (h : Heap) (t : Table) (view : TableView) : Prop where
  lookup : ∀ key, h.get? t key = view.map.lookup key.identity
  containsKey : ∀ key, h.containsKey t key = (h.get? t key).isSome
  stored : ∀ identity value, view.map.lookup identity = some value → value.isNil = false
  entryCount : h.entryCount t = view.map.keys.card
  isEmpty : h.isEmpty t = true ↔ h.entryCount t = 0
  keys : view.map.IndexedBy (h.keys t)
  entries : view.map.ListedBy (h.entries t)
  cursor : view.map.ListedBy (EntryCursor.toList h (.ofTable h t))
  keyOrder : h.keyOrder t = view.order
  delegate : h.delegate t = view.delegate

theorem listedBy_entries (held : h.tables t.id = some view) : view.map.ListedBy (h.entries t) :=
  view_contents held ▸ (h.contents t).listedBy_view

theorem listedBy_canonicalEntries (held : h.tables t.id = some view) :
    view.map.ListedBy (h.canonicalEntries t) where
  distinct := h.canonicalEntries_pairwise t
  exact identity value := by
    constructor
    · intro found
      obtain ⟨own, rfl, _⟩ := ((listedBy_entries held).exact identity value).mp found
      rw [← get?_eq_lookup held] at found
      obtain ⟨shown, same, member⟩ := exists_mem_canonicalEntries.mpr found
      exact ⟨shown, Key.beq_iff.mp same, member⟩
    · rintro ⟨own, rfl, member⟩
      rw [← get?_eq_lookup held]
      exact (mem_canonicalEntries.mp member).2

theorem indexedBy_canonicalKeys (held : h.tables t.id = some view) :
    view.map.IndexedBy (h.canonicalKeys t) :=
  h.map_fst_canonicalEntries t ▸ (listedBy_canonicalEntries held).indexedBy

theorem readsAs_of_tables (held : h.tables t.id = some view) : h.ReadsAs t view := by
  have same := view_contents held
  exact {
    lookup := get?_eq_lookup held
    containsKey := h.containsKey_eq_isSome_get? t
    stored := fun _ _ found => (h.contents t).isNil_of_lookup_view (same ▸ found)
    entryCount := same ▸ (h.contents t).card_keys_view.symm
    isEmpty := List.isEmpty_iff_length_eq_zero
    keys := (listedBy_entries held).indexedBy
    entries := listedBy_entries held
    cursor := EntryCursor.toList_ofTable h t ▸ listedBy_canonicalEntries held
    keyOrder := same ▸ rfl
    delegate := same ▸ rfl }

variable {out : Table}

theorem tables_insert (held : h.tables t.id = some view) (key : Key) (value : Value) :
    (h.insert t key value).2.tables =
      Function.update h.tables t.id (some (view.store key value)) := by
  rw [insert, tables_setContents held, Contents.view_insert, view_contents held]

theorem tables_push (held : h.tables t.id = some view) (value : Value) :
    (h.push t value).tables = Function.update h.tables t.id (some (view.push value)) := by
  rw [push, tables_setContents held, Contents.view_push, view_contents held]

theorem tables_store (held : h.tables out.id = some view) (collected : Option Collected) :
    (h.store out collected).tables =
      Function.update h.tables out.id (some (view.collect collected)) := by
  match collected with
  | none => exact (Function.update_eq_self_iff.mpr held.symm).symm
  | some (.value v) => exact tables_push held v
  | some (.entry k v) => exact tables_insert held k v

/-- Changing one table takes none away. -/
theorem holds_of_update {after : Heap} {u : Table} {view : TableView} (held : h.Holds t)
    (changed : after.tables = Function.update h.tables u.id (some view)) : after.Holds t := by
  rw [Holds, changed]
  by_cases here : t.id = u.id
  · rw [here, Function.update_self]
    rfl
  · rw [Function.update_of_ne here]
    exact held

theorem holds_store (holds : h.Holds out) (held : h.Holds t) (collected : Option Collected) :
    (h.store out collected).Holds t := by
  obtain ⟨view, there⟩ := holds.exists_view
  exact holds_of_update held (tables_store there collected)

/-- Pairs that are inserted one after the other are all stored in the one table. -/
theorem tables_foldl_insert (held : h.tables out.id = some view) (pairs : List (Key × Value)) :
    (pairs.foldl (fun h pair => (h.insert out pair.1 pair.2).2) h).tables =
      Function.update h.tables out.id
        (some (pairs.foldl (fun view pair => view.store pair.1 pair.2) view)) := by
  induction pairs generalizing h view with
  | nil => exact (Function.update_eq_self_iff.mpr held.symm).symm
  | cons pair rest ih =>
    have stored := tables_insert held pair.1 pair.2
    have next : (h.insert out pair.1 pair.2).2.tables out.id =
        some (view.store pair.1 pair.2) := by rw [stored, Function.update_self]
    rw [List.foldl_cons, ih next, stored, Function.update_idem]
    rfl

theorem tables_copyInto {source : Table} {origin : TableView}
    (held : h.tables source.id = some origin) (heldOut : h.tables out.id = some view) :
    (h.copyInto (some source) out).tables =
      Function.update h.tables out.id (some (view.merge origin.map)) := by
  rw [copyInto, tables_foldl_insert heldOut, entries,
    TableView.foldl_store view _ (h.contents source).stored,
    KeyMap.ofPairs_reverse (h.contents source).distinct, ← view_contents held]
  rfl

end Heap

/-- A call that makes or changes tables, with its answer, or all else that happens. -/
inductive TableCall (σ : Type) where
  | make (span : Option SourceSpan) (made : Table)
  | makeOrdered (entries : List (Key × Value)) (span : Option SourceSpan) (made : Table)
  | insert (t : Table) (key : Key) (value : Value) (previous : Option Value)
  | erase (t : Table) (key : Key) (previous : Option Value)
  | push (t : Table) (value : Value)
  | setKeyOrder (t : Table) (order : Option (List Key))
  | setDelegate (t : Table) (delegate : Option Table)
  | copyInto (source : Option Table) (out : Table)
  | collectInto (source out : Table) (f : Heap.EntryCallback σ)
  | elsewhere

/-- A callback may do anything to tables other than destroy them. -/
def Heap.EntryCallback.Keeps (f : Heap.EntryCallback σ) : Prop :=
  ∀ key value state t, state.1.Holds t → (f key value state).2.1.Holds t

namespace TableCall

/-- What a call on tables that are there does to the heap, and what it answers. -/
inductive Performs : Heap × σ → TableCall σ → Heap × σ → Prop where
  | make {h after : Heap} {s : σ} {span : Option SourceSpan} {made : Table}
      (result : h.newTable {} span = (made, after)) : Performs (h, s) (.make span made) (after, s)
  | makeOrdered {h after : Heap} {s : σ} {entries : List (Key × Value)} {span : Option SourceSpan}
      {made : Table} (result : h.newOrderedTable entries span = (made, after)) :
      Performs (h, s) (.makeOrdered entries span made) (after, s)
  | insert {h after : Heap} {s : σ} {t : Table} {key : Key} {value : Value}
      {previous : Option Value} (holds : h.Holds t)
      (result : h.insert t key value = (previous, after)) :
      Performs (h, s) (.insert t key value previous) (after, s)
  | erase {h after : Heap} {s : σ} {t : Table} {key : Key} {previous : Option Value}
      (holds : h.Holds t) (result : h.erase t key = (previous, after)) :
      Performs (h, s) (.erase t key previous) (after, s)
  | push {h : Heap} {s : σ} {t : Table} {value : Value} (holds : h.Holds t) :
      Performs (h, s) (.push t value) (h.push t value, s)
  | setKeyOrder {h : Heap} {s : σ} {t : Table} {order : Option (List Key)} (holds : h.Holds t) :
      Performs (h, s) (.setKeyOrder t order) (h.setKeyOrder t order, s)
  | setDelegate {h : Heap} {s : σ} {t : Table} {delegate : Option Table} (holds : h.Holds t) :
      Performs (h, s) (.setDelegate t delegate) (h.setDelegate t delegate, s)
  | copyInto {h : Heap} {s : σ} {source : Option Table} {out : Table}
      (holds : ∀ t ∈ source, h.Holds t) (holdsOut : h.Holds out) :
      Performs (h, s) (.copyInto source out) (h.copyInto source out, s)
  | collectInto {state : Heap × σ} {source out : Table} {f : Heap.EntryCallback σ}
      (holds : state.1.Holds source) (holdsOut : state.1.Holds out) (keeps : f.Keeps) :
      Performs state (.collectInto source out f) (Heap.collectInto source out f state)
  | elsewhere {before after : Heap × σ} (same : after.1.tables = before.1.tables) :
      Performs before .elsewhere after

/-- The entries of a source under some keys are passed to a callback in turn, if they are still
there, and its answers are stored. -/
inductive Passes (source out : Table) (f : Heap.EntryCallback σ) :
    List Key → TableViews → TableViews → Prop where
  | done {tables : TableViews} : Passes source out f [] tables tables
  | gone {tables last : TableViews} {view : TableView} {key : Key} {rest : List Key}
      (held : tables source.id = some view) (absent : view.map.lookup key.identity = none)
      (later : Passes source out f rest tables last) :
      Passes source out f (key :: rest) tables last
  | passed {state changed : Heap × σ} {last : TableViews} {view target : TableView} {key : Key}
      {value : Value} {rest : List Key} {collected : Option Collected}
      (held : state.1.tables source.id = some view)
      (present : view.map.lookup key.identity = some value)
      (answer : f key value state = (collected, changed))
      (heldOut : changed.1.tables out.id = some target)
      (later : Passes source out f rest
        (Function.update changed.1.tables out.id (some (target.collect collected))) last) :
      Passes source out f (key :: rest) state.1.tables last

/-- What a call does to finite maps, and what it answers: the value from before, for those that
store or erase one. -/
inductive Means : TableViews → TableCall σ → TableViews → Prop where
  | make {tables : TableViews} {span : Option SourceSpan} {made : Table}
      (fresh : tables made.id = none) :
      Means tables (.make span made) (Function.update tables made.id (some {}))
  | makeOrdered {tables : TableViews} {entries : List (Key × Value)} {span : Option SourceSpan}
      {made : Table} (fresh : tables made.id = none) :
      Means tables (.makeOrdered entries span made)
        (Function.update tables made.id (some (.ofOrdered entries)))
  | insert {tables : TableViews} {view : TableView} {t : Table} {key : Key} {value : Value}
      (held : tables t.id = some view) :
      Means tables (.insert t key value (view.map.lookup key.identity))
        (Function.update tables t.id (some (view.store key value)))
  | erase {tables : TableViews} {view : TableView} {t : Table} {key : Key}
      (held : tables t.id = some view) :
      Means tables (.erase t key (view.map.lookup key.identity))
        (Function.update tables t.id (some (view.erase key)))
  | push {tables : TableViews} {view : TableView} {t : Table} {value : Value}
      (held : tables t.id = some view) :
      Means tables (.push t value) (Function.update tables t.id (some (view.push value)))
  | setKeyOrder {tables : TableViews} {view : TableView} {t : Table} {order : Option (List Key)}
      (held : tables t.id = some view) :
      Means tables (.setKeyOrder t order) (Function.update tables t.id (some { view with order }))
  | setDelegate {tables : TableViews} {view : TableView} {t : Table} {delegate : Option Table}
      (held : tables t.id = some view) :
      Means tables (.setDelegate t delegate)
        (Function.update tables t.id (some { view with delegate }))
  | copyNothing {tables : TableViews} {out : Table} : Means tables (.copyInto none out) tables
  | copyInto {tables : TableViews} {origin view : TableView} {source out : Table}
      (held : tables source.id = some origin) (heldOut : tables out.id = some view) :
      Means tables (.copyInto (some source) out)
        (Function.update tables out.id (some (view.merge origin.map)))
  | collectInto {tables last : TableViews} {view : TableView} {source out : Table}
      {f : Heap.EntryCallback σ} {keys : List Key} (held : tables source.id = some view)
      (once : view.map.IndexedBy keys) (passes : Passes source out f keys tables last) :
      Means tables (.collectInto source out f) last
  | elsewhere {tables : TableViews} : Means tables .elsewhere tables

theorem passes_collectEntries {source out : Table} {f : Heap.EntryCallback σ} (keeps : f.Keeps)
    (keys : List Key) (state : Heap × σ) (holds : state.1.Holds source)
    (holdsOut : state.1.Holds out) :
    Passes source out f keys state.1.tables
      (keys.foldl (Heap.collectEntry source out f) state).1.tables := by
  induction keys generalizing state with
  | nil => exact .done
  | cons key rest ih =>
    obtain ⟨view, held⟩ := holds.exists_view
    have read := Heap.get?_eq_lookup held key
    rw [List.foldl_cons]
    cases found : state.1.get? source key with
    | none =>
      have skipped : Heap.collectEntry source out f state key = state := by
        rw [Heap.collectEntry, found]
      rw [skipped]
      exact .gone held (read.symm.trans found) (ih state holds holdsOut)
    | some value =>
      rcases answer : f key value state with ⟨collected, changed⟩
      have kept (t : Table) (there : state.1.Holds t) : changed.1.Holds t := by
        simpa only [answer] using keeps key value state t there
      obtain ⟨target, heldOut⟩ := (kept out holdsOut).exists_view
      have next : Heap.collectEntry source out f state key =
          (changed.1.store out collected, changed.2) := by
        simp only [Heap.collectEntry, found, answer]
      rw [next]
      refine .passed held (read.symm.trans found) answer heldOut ?_
      rw [← Heap.tables_store heldOut]
      exact ih (changed.1.store out collected, changed.2)
        (Heap.holds_store (kept out holdsOut) (kept source holds) collected)
        (Heap.holds_store (kept out holdsOut) (kept out holdsOut) collected)

/-- Every call means what it does to the views. -/
theorem Performs.means {state next : Heap × σ} {call : TableCall σ}
    (performs : Performs state call next) : Means state.1.tables call next.1.tables := by
  cases performs with
  | make result =>
    obtain ⟨rfl, rfl⟩ := Prod.mk.inj result
    obtain ⟨fresh, changed⟩ := Heap.tables_newTable _ {} _
    exact changed ▸ .make fresh
  | makeOrdered result =>
    obtain ⟨rfl, rfl⟩ := Prod.mk.inj result
    obtain ⟨fresh, changed⟩ := Heap.tables_newTable _ (.ofOrdered _) _
    rw [Contents.view_ofOrdered] at changed
    exact changed ▸ .makeOrdered fresh
  | insert holds result =>
    obtain ⟨rfl, rfl⟩ := Prod.mk.inj result
    obtain ⟨view, held⟩ := holds.exists_view
    rw [Heap.get?_eq_lookup held]
    exact Heap.tables_insert held _ _ ▸ .insert held
  | erase holds result =>
    obtain ⟨rfl, rfl⟩ := Prod.mk.inj result
    obtain ⟨view, held⟩ := holds.exists_view
    rw [Heap.get?_eq_lookup held, Heap.tables_setContents held, Contents.view_erase,
      Heap.view_contents held]
    exact .erase held
  | push holds =>
    obtain ⟨view, held⟩ := holds.exists_view
    exact Heap.tables_push held _ ▸ .push held
  | setKeyOrder holds =>
    obtain ⟨view, held⟩ := holds.exists_view
    have same := Heap.view_contents held
    subst same
    exact Heap.tables_setContents held _ ▸ .setKeyOrder held
  | setDelegate holds =>
    obtain ⟨view, held⟩ := holds.exists_view
    have same := Heap.view_contents held
    subst same
    exact Heap.tables_setContents held _ ▸ .setDelegate held
  | @copyInto h s source out holds holdsOut =>
    cases source with
    | none => exact .copyNothing
    | some source =>
      obtain ⟨origin, held⟩ := (holds source rfl).exists_view
      obtain ⟨view, heldOut⟩ := holdsOut.exists_view
      exact Heap.tables_copyInto held heldOut ▸ .copyInto held heldOut
  | collectInto holds holdsOut keeps =>
    obtain ⟨view, held⟩ := holds.exists_view
    exact .collectInto held (Heap.indexedBy_canonicalKeys held)
      (passes_collectEntries keeps _ _ holds holdsOut)
  | elsewhere same => exact same ▸ .elsewhere

/-- Call by call, what happens to the tables of a heap is what the calls mean for finite maps, and
all ways of reading agree. -/
theorem performs_refines {state last : Heap × σ} {calls : List (TableCall σ)}
    (path : Path Performs state calls last) :
    Path Means state.1.tables calls last.1.tables ∧
      ∀ t view, last.1.tables t.id = some view → last.1.ReadsAs t view := by
  refine ⟨?_, fun t view => Heap.readsAs_of_tables⟩
  induction path with
  | nil => exact .nil _
  | cons first _ ih => exact .cons first.means ih

/-- Takes the entries under integers out, counts all, and pushes the values of the others. -/
def turnOver : Heap.EntryCallback Nat
  | key@(.int _), _, (h, n) => (some (.entry key .nil), (h, n + 1))
  | _, value, (h, n) => (some (.value value), (h, n + 1))

theorem turnOver_keeps : turnOver.Keeps := by
  intro key value state t there
  cases key <;> exact there

def repeatedEntries : List (Key × Value) :=
  [(.str "a", .bool true), (.str "b", .nil), (.str "a", .bool false)]

/-- All calls are on one table, by two handles; it is also copied and collected into itself. -/
def aliasedCalls : List (TableCall Nat) :=
  [.makeOrdered repeatedEntries none ⟨1, none⟩,
    .push ⟨1, none⟩ (.bool true),
    .insert ⟨1, none⟩ (.str "c") (.bool true) none,
    .copyInto (some ⟨1, none⟩) ⟨1, none⟩,
    .insert ⟨1, some {}⟩ (.str "a") .nil (some (.bool false)),
    .collectInto ⟨1, none⟩ ⟨1, some {}⟩ turnOver]

/-- The heap before the last of these calls. -/
def aliasedHeap : Heap :=
  let made := (({} : Heap).newOrderedTable repeatedEntries none).2
  let inserted := ((made.push ⟨1, none⟩ (.bool true)).insert ⟨1, none⟩ (.str "c") (.bool true)).2
  ((inserted.copyInto (some ⟨1, none⟩) ⟨1, none⟩).insert ⟨1, some {}⟩ (.str "a") .nil).2

theorem canonicalKeys_aliasedHeap : aliasedHeap.canonicalKeys ⟨1, none⟩ = [.int 1, .str "c"] := by
  have others : (aliasedHeap.contents ⟨1, none⟩).unrecordedKeys = [.int 1, .str "c"] := rfl
  rw [Heap.canonicalKeys, Contents.canonicalKeys, others, List.mergeSort_of_pairwise (by decide)]
  rfl

theorem aliasedCalls_performed : Path Performs (({} : Heap), 0) aliasedCalls
    (Heap.collectInto ⟨1, none⟩ ⟨1, some {}⟩ turnOver (aliasedHeap, 0)) :=
  have copied : ∀ t ∈ some (⟨1, none⟩ : Table), Heap.Holds _ t := by
    rintro _ ⟨⟩
    rfl
  .cons (.makeOrdered rfl) <| .cons (.push rfl) <| .cons (.insert rfl rfl) <|
    .cons (.copyInto copied rfl) <| .cons (.insert rfl rfl) <|
      .cons (.collectInto rfl rfl turnOver_keeps) <| .nil _

/-- Nil and repeated keys leave no entry that one way of reading sees and another does not. -/
theorem aliasedCalls_refine : ∃ last : Heap × Nat,
    Path Performs (({} : Heap), 0) aliasedCalls last ∧
      Path Means ({} : Heap).tables aliasedCalls last.1.tables ∧ last.2 = 2 ∧
      (last.1.keys ⟨1, none⟩).map Key.identity = [.str "c", .int 1] ∧
      ∃ view, last.1.tables 1 = some view ∧ last.1.ReadsAs ⟨1, none⟩ view := by
  have path := aliasedCalls_performed
  rw [Heap.collectInto, canonicalKeys_aliasedHeap] at path
  obtain ⟨means, reads⟩ := performs_refines path
  exact ⟨_, path, means, by decide +kernel, by decide +kernel, _, rfl, reads ⟨1, none⟩ _ rfl⟩

end TableCall

end LispFrontEnd
