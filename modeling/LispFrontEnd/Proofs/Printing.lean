import LispFrontEnd.Printing
import Mathlib.Logic.Relation

/-! # Printing with the path of enclosing containers

`Shows` gives the text of a value by rules: a node that is marked is shown as a mark, any other in
full. When the containers of the path are marked this is how values are printed, whatever is being
printed already and however the heap is tangled, and the same containers are being printed
afterwards. A container is shown as a mark exactly when it is one of them. When nothing is marked
the text is the plain text of a value, and values that are not inside themselves are printed so.
-/

namespace LispFrontEnd

namespace Node

def isContainer (n : Node) : Bool :=
  match n.kind with
  | .list | .sequence | .table => true
  | _ => false

/-- The container is one of those on a path. -/
def IsMetOn (path : List Nat) (n : Node) : Prop := n.isContainer = true ∧ n.id ∈ path

end Node

/-- The text of a value that is no node. -/
def Value.literal : Value → String
  | .nil => "nil"
  | .bool b => if b then "true" else "false"
  | .number n => n.text
  | .str s => Text.Quoted.literal s
  | .node _ => ""

/-- A string stands as a key without its quotes. -/
def Key.textBy (write : Value → String) : Key → String
  | .str s => s
  | key => write key.toValue

def entryTextBy (write : Value → String) (e : Key × Value) : String :=
  e.1.textBy write ++ " " ++ write e.2

namespace Heap

/-- The text of a node in full, given the texts of the values inside. -/
def nodeTextBy (h : Heap) (write : Value → String) : Node → String
  | .symbol s => h.symbolName s
  | .list e => "(" ++ " ".intercalate ((h.items e).map write) ++ ")"
  | .sequence e => "[" ++ " ".intercalate ((h.items e).map write) ++ "]"
  | .varg _ => "..."
  | .comment c => c.text
  | .expr e => e.code
  | .table t =>
    "\x7b" ++ ", ".intercalate ((h.canonicalEntries t).map (entryTextBy write)) ++ "\x7d"

/-- The values directly inside a node. -/
def inside (h : Heap) : Node → List Value
  | .list e => h.items e
  | .sequence e => h.items e
  | .table t => (h.canonicalEntries t).flatMap fun e => [e.1.toValue, e.2]
  | _ => []

theorem nodeTextBy_congr {h : Heap} {n : Node} {write other : Value → String}
    (same : ∀ part ∈ h.inside n, write part = other part) :
    h.nodeTextBy write n = h.nodeTextBy other n := by
  cases n with
  | list e | sequence e =>
    have items : (h.items e).map write = (h.items e).map other := List.map_congr_left same
    rw [nodeTextBy, nodeTextBy, items]
  | table t =>
    have entries : ∀ e ∈ h.canonicalEntries t, entryTextBy write e = entryTextBy other e := by
      intro e member
      have parts : ∀ part ∈ [e.1.toValue, e.2], write part = other part := fun part inner =>
        same part (List.mem_flatMap.mpr ⟨e, member, inner⟩)
      have key : e.1.textBy write = e.1.textBy other := by
        rw [Key.textBy.eq_def, Key.textBy.eq_def]
        split
        · rfl
        · exact parts _ (by simp)
      rw [entryTextBy, entryTextBy, key, parts e.2 (by simp)]
    rw [nodeTextBy, nodeTextBy, List.map_congr_left entries]
  | _ => rfl

/-- The text of a value inside the containers of a path, where some nodes are marked. -/
inductive Shows (h : Heap) (marked : List Nat → Node → Prop) :
    List Nat → Value → String → Prop where
  | literal {path : List Nat} {v : Value} (plain : v.asNode? = none) :
    Shows h marked path v v.literal
  | cycle {path : List Nat} {n : Node} (mark : marked path n) :
    Shows h marked path (.node n) "<cycle>"
  | full {path : List Nat} {n : Node} (unmarked : ¬ marked path n) (write : Value → String)
      (parts : ∀ part ∈ h.inside n, Shows h marked (n.id :: path) part (write part)) :
    Shows h marked path (.node n) (h.nodeTextBy write n)

/-- How a value is printed while the containers of a path are being printed. -/
abbrev Prints (h : Heap) : List Nat → Value → String → Prop := h.Shows Node.IsMetOn

/-- The text of a value in which all is written in full. -/
abbrev PlainText (h : Heap) : Value → String → Prop := h.Shows (fun _ _ => False) []

theorem Shows.unique {h : Heap} {marked : List Nat → Node → Prop} {path : List Nat} {v : Value}
    {text other : String} (one : h.Shows marked path v text) (two : h.Shows marked path v other) :
    text = other := by
  induction one generalizing other with
  | literal plain =>
    cases two with
    | literal => rfl
    | cycle | full => cases plain
  | cycle mark =>
    cases two with
    | literal plain => cases plain
    | cycle => rfl
    | full unmarked => exact absurd mark unmarked
  | full unmarked write parts ih =>
    cases two with
    | literal plain => cases plain
    | cycle mark => exact absurd mark unmarked
    | full _ write' parts' =>
      exact nodeTextBy_congr fun part inner => ih part inner (parts' part inner)

end Heap

namespace Printing

/-- Printing the parts of a container one by one, when each leaves the path as it was. -/
theorem mapM_of_forall {α : Type} {print : α → Printer String} {text : α → String}
    {path : List Nat} {parts : List α}
    (each : ∀ part ∈ parts, print part path = (text part, path)) :
    parts.mapM print path = (parts.map text, path) := by
  induction parts with
  | nil => rfl
  | cons part parts ih =>
    obtain ⟨first, later⟩ := List.forall_mem_cons.mp each
    rw [List.mapM_cons]
    simp only [bind, StateT.bind, first, ih later]
    rfl

end Printing

namespace Heap

variable {h : Heap} {n : Node} {path : List Nat}

theorem inside_table_of_empty {t : Table} (empty : h.contents t = {}) :
    h.inside (.table t) = [] := by
  simp [inside, canonicalEntries, canonicalKeys, empty, Contents.canonicalKeys,
    Contents.recordedKeys, Contents.unrecordedKeys, Contents.keys, Assoc.keys]

theorem id_lt_of_inside {part : Value} (inner : part ∈ h.inside n) : n.id < h.cells.size := by
  refine Nat.lt_of_not_le fun outside => ?_
  have absent : h.cells[n.id]? = none := Array.getElem?_eq_none outside
  cases n with
  | list e | sequence e => simp_all [inside, items, Node.id]
  | table t =>
    have empty : h.contents t = {} := by simp_all [contents, Node.id]
    rw [inside_table_of_empty empty] at inner
    cases inner
  | _ => cases inner

end Heap

namespace Printing

variable {h : Heap} {n : Node} {path : List Nat} {write : Value → String}

theorem map_apply {α : Type} {print : Printer α} {result : α} (runs : print path = (result, path))
    (f : α → String) : (print >>= fun result => pure (f result)) path = (f result, path) := by
  simp only [bind, StateT.bind, runs]
  rfl

/-- Entries are printed by their parts. -/
theorem mapM_entry {print : Node → Printer String} {entries : List (Key × Value)}
    (each : ∀ part ∈ entries.flatMap fun e => [e.1.toValue, e.2],
      value print part path = (write part, path)) :
    entries.mapM (entry print) path = (entries.map (entryTextBy write), path) := by
  refine mapM_of_forall fun e member => ?_
  have parts : ∀ part ∈ [e.1.toValue, e.2], value print part path = (write part, path) :=
    fun part inner => each part (List.mem_flatMap.mpr ⟨e, member, inner⟩)
  have keyText : key print e.1 path = (e.1.textBy write, path) := by
    have written := parts e.1.toValue (by simp)
    obtain ⟨k, v⟩ := e
    cases k with
    | str s => rfl
    | _ => exact written
  simp only [entry, bind, StateT.bind, keyText, parts e.2 (by simp)]
  rfl

theorem enclosed_apply (id : Nat) (inside : Printer String) (path : List Nat) :
    enclosed id inside path =
      if id ∈ path then ("<cycle>", path)
      else ((inside (id :: path)).1, (inside (id :: path)).2.erase id) := by
  by_cases met : id ∈ path
  · rw [if_pos met]
    exact congrFun (if_pos met) path
  · rw [if_neg met]
    exact congrFun (if_neg met) path

/-- A container prints as a mark when it is being printed already, and otherwise by its inside, with
itself on the path meanwhile. -/
theorem enclosed_prints {inside : Printer String} (container : n.isContainer = true)
    (runs : n.id ∉ path → inside (n.id :: path) = (h.nodeTextBy write n, n.id :: path))
    (parts : n.id ∉ path → ∀ part ∈ h.inside n, h.Prints (n.id :: path) part (write part)) :
    ∃ text, enclosed n.id inside path = (text, path) ∧ h.Prints path (.node n) text := by
  rw [enclosed_apply]
  by_cases met : n.id ∈ path
  · rw [if_pos met]
    exact ⟨"<cycle>", rfl, .cycle ⟨container, met⟩⟩
  · rw [if_neg met, runs met, List.erase_cons_head]
    exact ⟨_, rfl, .full (fun mark => met mark.2) write (parts met)⟩

theorem value_prints {print : Node → Printer String} {v : Value}
    (node : ∀ n ∈ v.asNode?, ∃ text, print n path = (text, path) ∧ h.Prints path (.node n) text) :
    ∃ text, value print v path = (text, path) ∧ h.Prints path v text := by
  cases v with
  | node n => exact node n rfl
  | _ => exact ⟨_, rfl, .literal rfl⟩

/-- With more fuel than there are nodes off the path, a node prints by the rules. -/
theorem node_prints {fuel : Nat} (enough : h.unvisited path < fuel) (n : Node) :
    ∃ text, node h fuel n path = (text, path) ∧ h.Prints path (.node n) text := by
  induction fuel generalizing path n with
  | zero => omega
  | succ fuel ih =>
    let write (part : Value) : String := (value (node h fuel) part (n.id :: path)).1
    have printed (fresh : n.id ∉ path) : ∀ part ∈ h.inside n,
        value (node h fuel) part (n.id :: path) = (write part, n.id :: path) ∧
          h.Prints (n.id :: path) part (write part) := by
      intro part inner
      have fewer := Heap.unvisited_cons_lt (Heap.id_lt_of_inside inner) fresh
      have covered : h.unvisited (n.id :: path) < fuel := by omega
      obtain ⟨text, runs, prints⟩ := value_prints (v := part) fun inner _ => ih covered inner
      have written : write part = text := congrArg Prod.fst runs
      exact ⟨written ▸ runs, written ▸ prints⟩
    have runs (fresh : n.id ∉ path) := fun part inner => (printed fresh part inner).1
    have parts (fresh : n.id ∉ path) := fun part inner => (printed fresh part inner).2
    cases n with
    | list e | sequence e =>
      exact enclosed_prints rfl (fun fresh => map_apply (mapM_of_forall (runs fresh)) _) parts
    | table t =>
      exact enclosed_prints rfl (fun fresh => map_apply (mapM_entry (runs fresh)) _) parts
    | _ =>
      exact ⟨_, rfl, .full (fun mark => by cases mark.1) (fun _ => "") (List.forall_mem_nil _)⟩

end Printing

namespace Heap

variable {h : Heap}

/-- A value is directly inside another. -/
def Part (h : Heap) (whole part : Value) : Prop := ∃ n, whole = .node n ∧ part ∈ h.inside n

/-- No container of a value, the value among them, is inside itself at any depth. -/
def Acyclic (h : Heap) (root : Value) : Prop :=
  ∀ outer inner : Node, Relation.ReflTransGen h.Part root (.node outer) →
    Relation.TransGen h.Part (.node outer) (.node inner) →
    outer.isContainer = true → inner.isContainer = true → inner.id ≠ outer.id

theorem isContainer_of_inside {n : Node} {part : Value} (inner : part ∈ h.inside n) :
    n.isContainer = true := by
  cases n with
  | list | sequence | table => rfl
  | _ => cases inner

/-- On the path to a part of an acyclic value no container is met again. -/
theorem Prints.plainText {root : Value} (acyclic : h.Acyclic root) {path : List Nat} {v : Value}
    {text : String} (prints : h.Prints path v text)
    (reached : Relation.ReflTransGen h.Part root v)
    (enclosing : ∀ id ∈ path, ∃ outer : Node, outer.id = id ∧ outer.isContainer = true ∧
      Relation.ReflTransGen h.Part root (.node outer) ∧ Relation.TransGen h.Part (.node outer) v)
    (others : List Nat) : h.Shows (fun _ _ => False) others v text := by
  induction prints generalizing others with
  | literal plain => exact .literal plain
  | cycle mark =>
    obtain ⟨container, met⟩ := mark
    obtain ⟨outer, same, outerContainer, there, within⟩ := enclosing _ met
    exact absurd same.symm (acyclic outer _ there within outerContainer container)
  | @full path n _ write parts ih =>
    refine .full id write fun part inner => ?_
    have step : h.Part (.node n) part := ⟨n, rfl, inner⟩
    refine ih part inner (reached.tail step) (fun id member => ?_) _
    rcases List.mem_cons.mp member with rfl | above
    · exact ⟨n, rfl, isContainer_of_inside inner, reached, .single step⟩
    · obtain ⟨outer, same, container, there, within⟩ := enclosing id above
      exact ⟨outer, same, container, there, within.tail step⟩

/-- Where every node holds only nodes with smaller numbers, nothing is inside itself. -/
theorem acyclic_of_descending (descends : ∀ n inner, .node inner ∈ h.inside n → inner.id < n.id)
    (root : Value) : h.Acyclic root := by
  intro outer inner _ within _ _
  have smaller : ∀ v, Relation.TransGen h.Part (.node outer) v →
      ∀ n, v = .node n → n.id < outer.id := by
    intro v within
    induction within with
    | single part =>
      rintro n rfl
      obtain ⟨_, same, member⟩ := part
      cases same
      exact descends outer n member
    | tail _ part ih =>
      rintro n rfl
      obtain ⟨middle, rfl, member⟩ := part
      exact Nat.lt_trans (descends middle n member) (ih middle rfl)
  exact Nat.ne_of_lt (smaller _ within inner rfl)

theorem unvisited_le (h : Heap) (visited : List Nat) : h.unvisited visited ≤ h.cells.size := by
  rw [unvisited]
  exact Nat.le_trans (List.length_filter_le _ _) (Nat.le_of_eq List.length_range)

theorem nodeTextBy_ne_cycle {n : Node} (container : n.isContainer = true) (write : Value → String) :
    h.nodeTextBy write n ≠ "<cycle>" := by
  intro same
  have first := congrArg (fun text => text.toList.head?) same
  cases n with
  | list | sequence | table => simp [nodeTextBy] at first
  | _ => cases container

/-- A container is shown as a mark exactly inside itself. -/
theorem prints_cycle_iff {path : List Nat} {n : Node} (container : n.isContainer = true) :
    h.Prints path (.node n) "<cycle>" ↔ n.id ∈ path := by
  constructor
  · generalize shown : "<cycle>" = text
    intro prints
    cases prints with
    | literal plain => cases plain
    | cycle mark => exact mark.2
    | full _ write => exact absurd shown.symm (nodeTextBy_ne_cycle container write)
  · exact fun met => .cycle ⟨container, met⟩

/-- A value prints as the rules give it for the containers being printed, and as its plain text when
no container is inside itself. -/
theorem prints_exact (h : Heap) :
    (∀ path v text rest, Printing.value h.printNode v path = (text, rest) ↔
      h.Prints path v text ∧ rest = path) ∧
    (∀ path n, n.isContainer = true → (h.Prints path (.node n) "<cycle>" ↔ n.id ∈ path)) ∧
    ∀ v, h.Acyclic v → ∀ text, h.PlainText v text ↔ h.text v = text := by
  have printed (path : List Nat) (v : Value) :
      ∃ text, Printing.value h.printNode v path = (text, path) ∧ h.Prints path v text := by
    refine Printing.value_prints fun n _ => Printing.node_prints ?_ n
    exact Nat.lt_succ_of_le (h.unvisited_le path)
  refine ⟨fun path v text rest => ?_, fun path n => prints_cycle_iff, fun v acyclic text => ?_⟩
  · obtain ⟨found, runs, prints⟩ := printed path v
    rw [runs, Prod.mk.injEq]
    constructor
    · rintro ⟨rfl, rfl⟩
      exact ⟨prints, rfl⟩
    · rintro ⟨other, rfl⟩
      exact ⟨prints.unique other, rfl⟩
  · obtain ⟨found, runs, prints⟩ := printed [] v
    have plain : h.PlainText v found := prints.plainText acyclic .refl (List.forall_mem_nil _) []
    have same : h.text v = found := congrArg Prod.fst runs
    rw [same]
    constructor
    · exact plain.unique
    · rintro rfl
      exact plain

/-- A list that holds one sequence twice. -/
def sharing : Heap where
  cells := #[.fixed, .items [.bool true], .items (List.replicate 2 (.node (.sequence ⟨1, none⟩)))]

theorem sharing_prints_in_full :
    sharing.Acyclic (.node (.list ⟨2, none⟩)) ∧
      sharing.PlainText (.node (.list ⟨2, none⟩)) "([true] [true])" := by
  have acyclic : sharing.Acyclic (.node (.list ⟨2, none⟩)) := by
    refine acyclic_of_descending (fun n inner member => ?_) _
    have items : ∀ e : Elements, .node inner ∈ sharing.items e → inner.id < e.id := by
      rintro ⟨id, span⟩ member
      match id with
      | 0 | 1 => simp [Heap.items, sharing] at member
      | 2 =>
        obtain ⟨_, same⟩ := List.mem_replicate.mp member
        cases same
        exact Nat.one_lt_two
      | id + 3 => simp [Heap.items, sharing] at member
    cases n with
    | list e | sequence e => exact items e member
    | table t =>
      have empty : sharing.contents t = {} := by
        obtain ⟨id, span⟩ := t
        match id with
        | 0 | 1 | 2 => rfl
        | id + 3 => simp [Heap.contents, sharing]
      simp [inside_table_of_empty empty] at member
    | _ => cases member
  exact ⟨acyclic, (sharing.prints_exact.2.2 _ acyclic _).mpr rfl⟩

/-- A list inside itself, behind a sequence that it also holds in the open. -/
example :
    let h : Heap := { cells := #[.fixed, .items (List.replicate 2 (.node (.sequence ⟨2, none⟩))),
      .items [.node (.list ⟨1, none⟩)]] }
    h.text (.node (.list ⟨1, none⟩)) = "([<cycle>] [<cycle>])" ∧
      h.text (.node (.sequence ⟨2, none⟩)) = "[(<cycle> <cycle>)]" := by
  decide +kernel

end Heap

end LispFrontEnd
