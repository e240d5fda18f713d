import LispFrontEnd.Compile.Scope
import LispFrontEnd.Proofs.Assoc

/-! # Scopes by their history

A scope comes about by binding names in a new scope, which stands at the top or inside another. So
what it says of a name is settled by its history: the last bind in the nearest scope that has one,
and nothing exactly when no scope around has one. The depth of a scope is the number of scopes
around it. Programs with several scopes may bind in them in any order; all scopes come about so,
each keeps its place among the others, and no bind is seen outside its own scope. The way back from
mangled names keeps every bind there has been, and leads back from each as long as no mangled name
stands for two names, also when a name has been bound anew.
-/

namespace LispFrontEnd

/-- How a scope has come about. -/
inductive ScopeHistory where
  | root
  | child (parent : ScopeHistory)
  | bind (before : ScopeHistory) (name mangled : String)

namespace ScopeHistory

/-- The scope with a history. -/
def scope : ScopeHistory → Scope
  | root => .root
  | child parent => parent.scope.child
  | bind before name mangled => before.scope.bind name mangled

/-- What has been bound in the scope itself, first to last. -/
def binds : ScopeHistory → List (String × String)
  | root => []
  | child _ => []
  | bind before name mangled => before.binds ++ [(name, mangled)]

/-- The scopes around the scope, nearest first. -/
def ancestors : ScopeHistory → List ScopeHistory
  | root => []
  | child parent => parent :: parent.ancestors
  | bind before _ _ => before.ancestors

def Binds (history : ScopeHistory) (name : String) : Prop :=
  ∃ bind ∈ history.binds, bind.1 = name

def LastBinds (history : ScopeHistory) (name mangled : String) : Prop :=
  ∃ earlier later, history.binds = earlier ++ (name, mangled) :: later ∧
    ∀ bind ∈ later, bind.1 ≠ name

variable {history : ScopeHistory} {name mangled : String}

theorem manglings_eq (history : ScopeHistory) :
    history.scope.frame.manglings = Assoc.ofList history.binds := by
  induction history with
  | root | child => rfl
  | bind before name mangled ih =>
    rw [binds, Assoc.ofList_concat, ← ih]
    rfl

theorem unmanglings_eq (history : ScopeHistory) :
    history.scope.frame.unmanglings = Assoc.ofList (history.binds.map Prod.swap) := by
  induction history with
  | root | child => rfl
  | bind before name mangled ih =>
    rw [binds, List.map_append, List.map_singleton, Assoc.ofList_concat, ← ih]
    rfl

theorem outer_eq (history : ScopeHistory) :
    history.scope.outer = history.ancestors.map (·.scope.frame) := by
  induction history with
  | root => rfl
  | child parent ih => exact congrArg (parent.scope.frame :: ·) ih
  | bind before name mangled ih => exact ih

theorem depth_eq (history : ScopeHistory) :
    history.scope.frame.depth = history.ancestors.length := by
  induction history with
  | root => rfl
  | child parent ih => exact congrArg (· + 1) ih
  | bind before name mangled ih => exact ih

theorem parent?_eq (history : ScopeHistory) :
    history.scope.parent? = history.ancestors.head?.map scope := by
  induction history with
  | root | child => rfl
  | bind before name mangled ih => exact ih

theorem get?_manglings_eq_some_iff :
    Assoc.get? history.scope.frame.manglings name = some mangled ↔
      history.LastBinds name mangled := by
  rw [manglings_eq, Assoc.get?_ofList_eq_some_iff]
  rfl

theorem get?_manglings_eq_none_iff :
    Assoc.get? history.scope.frame.manglings name = none ↔ ¬history.Binds name := by
  rw [manglings_eq, Assoc.get?_ofList_eq_none_iff, Binds]
  simp only [not_exists, not_and, ne_eq]

theorem mangling?_eq (history : ScopeHistory) (name : String) :
    history.scope.mangling? name =
      (history :: history.ancestors).findSome? fun own =>
        Assoc.get? own.scope.frame.manglings name := by
  rw [Scope.mangling?, outer_eq, List.findSome?_cons, List.findSome?_cons, List.findSome?_map]
  rfl

theorem mangling?_eq_some_iff :
    history.scope.mangling? name = some mangled ↔
      ∃ nearer owner farther, history :: history.ancestors = nearer ++ owner :: farther ∧
        (∀ own ∈ nearer, ¬own.Binds name) ∧ owner.LastBinds name mangled := by
  rw [mangling?_eq, List.findSome?_eq_some_iff]
  simp only [get?_manglings_eq_some_iff, get?_manglings_eq_none_iff]
  refine exists_congr fun nearer => exists_congr fun owner => exists_congr fun farther => ?_
  exact and_congr_right fun _ => and_comm

theorem mangling?_eq_none_iff :
    history.scope.mangling? name = none ↔
      ∀ own ∈ history :: history.ancestors, ¬own.Binds name := by
  rw [mangling?_eq, List.findSome?_eq_none_iff]
  simp only [get?_manglings_eq_none_iff]

/-- What a mangled name leads back to is a name that has been bound to it. -/
theorem mem_binds_of_get?_unmanglings
    (found : Assoc.get? history.scope.frame.unmanglings mangled = some name) :
    (name, mangled) ∈ history.binds := by
  rw [unmanglings_eq, Assoc.get?_ofList_eq_some_iff] at found
  obtain ⟨earlier, later, split, _⟩ := found
  have member : (mangled, name) ∈ history.binds.map Prod.swap := split ▸ by simp
  obtain ⟨⟨_, _⟩, bound, swapped⟩ := List.mem_map.mp member
  cases swapped
  exact bound

/-- A mangled name leads back somewhere once it has been bound. -/
theorem exists_get?_unmanglings (bound : (name, mangled) ∈ history.binds) :
    ∃ back, Assoc.get? history.scope.frame.unmanglings mangled = some back := by
  refine Option.ne_none_iff_exists'.mp fun none => ?_
  rw [unmanglings_eq, Assoc.get?_ofList_eq_none_iff] at none
  exact none (mangled, name) (List.mem_map.mpr ⟨(name, mangled), bound, rfl⟩) rfl

theorem LastBinds.mem (last : history.LastBinds name mangled) :
    (name, mangled) ∈ history.binds := by
  obtain ⟨earlier, later, split, _⟩ := last
  simp [split]

/-- As long as no mangled name stands for two names, each leads back from its first bind on, and no
two names share one. -/
theorem unmangling_inverts (history : ScopeHistory)
    (single : ∀ one ∈ history.binds, ∀ other ∈ history.binds,
      one.2 = other.2 → one.1 = other.1) :
    let frame := history.scope.frame
    (∀ name mangled, Assoc.get? frame.manglings name = some mangled →
      Assoc.get? frame.unmanglings mangled = some name) ∧
    (∀ bind ∈ history.binds, Assoc.get? frame.unmanglings bind.2 = some bind.1) ∧
    ∀ name other mangled, Assoc.get? frame.manglings name = some mangled →
      Assoc.get? frame.manglings other = some mangled → name = other := by
  have current {name mangled : String}
      (found : Assoc.get? history.scope.frame.manglings name = some mangled) :
      (name, mangled) ∈ history.binds := (get?_manglings_eq_some_iff.mp found).mem
  have back (bind : String × String) (bound : bind ∈ history.binds) :
      Assoc.get? history.scope.frame.unmanglings bind.2 = some bind.1 := by
    -- The name it leads back to has been bound to it as well, so the two names are one.
    obtain ⟨name, found⟩ := exists_get?_unmanglings bound
    have same := single _ (mem_binds_of_get?_unmanglings found) bind bound rfl
    exact found.trans (congrArg some same)
  refine ⟨fun name mangled found => back _ (current found), back, ?_⟩
  intro name other mangled found foundOther
  exact single _ (current found) _ (current foundOther) rfl

/-- A scope in which one name is bound three times, twice to the same mangled name. -/
def rebound : ScopeHistory :=
  .bind (.bind (.bind (.bind (.child .root) "x" "x_0") "y" "y_0") "x" "x_1") "x" "x_0"

theorem rebound_leads_back :
    (∀ one ∈ rebound.binds, ∀ other ∈ rebound.binds, one.2 = other.2 → one.1 = other.1) ∧
    let frame := rebound.scope.frame
    Assoc.get? frame.manglings "x" = some "x_0" ∧ Assoc.get? frame.manglings "y" = some "y_0" ∧
    Assoc.get? frame.unmanglings "x_0" = some "x" ∧
    Assoc.get? frame.unmanglings "x_1" = some "x" ∧
    Assoc.get? frame.unmanglings "y_0" = some "y" ∧
    ∀ name, Assoc.get? frame.manglings name = some "x_0" → name = "x" := by
  have single : ∀ one ∈ rebound.binds, ∀ other ∈ rebound.binds,
      one.2 = other.2 → one.1 = other.1 := by decide
  obtain ⟨back, backAll, injective⟩ := unmangling_inverts rebound single
  exact ⟨single, by decide, by decide, back "x" "x_0" (by decide),
    backAll ("x", "x_1") (by decide), back "y" "y_0" (by decide),
    fun name found => injective name "x" "x_0" found (by decide)⟩

end ScopeHistory

namespace Scope

variable {scope : Scope} {name : String}

theorem mangling?_bind (scope : Scope) (own mangled name : String) :
    (scope.bind own mangled).mangling? name =
      if own == name then some mangled else scope.mangling? name := by
  simp only [mangling?, bind, List.findSome?_cons, Assoc.get?_insert]
  cases own == name <;> rfl

/-- Binds names one after the other. -/
def bindAll (scope : Scope) (binds : List (String × String)) : Scope :=
  binds.foldl (fun scope bind => scope.bind bind.1 bind.2) scope

theorem mangling?_bindAll_of_forall_ne {binds : List (String × String)}
    (others : ∀ bind ∈ binds, bind.1 ≠ name) :
    (scope.bindAll binds).mangling? name = scope.mangling? name := by
  induction binds generalizing scope with
  | nil => rfl
  | cons bind rest ih =>
    obtain ⟨first, later⟩ := List.forall_mem_cons.mp others
    rw [bindAll, List.foldl_cons, ← bindAll, ih later, mangling?_bind,
      if_neg (by simpa using first)]

/-- Binding in a scope changes neither its depth nor a scope around it. -/
theorem bindAll_eq (scope : Scope) (binds : List (String × String)) :
    (scope.bindAll binds).frame.depth = scope.frame.depth ∧
      (scope.bindAll binds).outer = scope.outer :=
  List.foldlRecOn (motive := fun made : Scope =>
      made.frame.depth = scope.frame.depth ∧ made.outer = scope.outer)
    binds _ ⟨rfl, rfl⟩ fun _ same _ _ => same

end Scope

/-- A step in a program with several scopes, which are numbered in the order of their making. -/
inductive ScopeStep where
  | root
  | child (parent : Nat)
  | bind (scope : Nat) (name mangled : String)
deriving DecidableEq

namespace ScopeStep

/-- The scopes after a step. -/
def perform (scopes : List Scope) : ScopeStep → List Scope
  | root => scopes ++ [.root]
  | child parent => scopes ++ (scopes[parent]?.map .child).toList
  | bind scope name mangled => scopes.modify scope (·.bind name mangled)

/-- What a step binds in one scope. -/
def bindIn? (i : Nat) : ScopeStep → Option (String × String)
  | bind scope name mangled => if scope = i then some (name, mangled) else none
  | _ => none

variable {scopes : List Scope} {steps : List ScopeStep} {i : Nat} {s : Scope}

theorem bindIn?_eq_some_iff {step : ScopeStep} {own : String × String} :
    bindIn? i step = some own ↔ step = .bind i own.1 own.2 := by
  obtain ⟨name, mangled⟩ := own
  fun_cases bindIn? i step <;> simp_all

/-- A scope takes part in the steps that bind in it, and in no others. -/
theorem getElem?_perform (there : scopes[i]? = some s) (step : ScopeStep) :
    (perform scopes step)[i]? = some (s.bindAll (bindIn? i step).toList) := by
  have bound : i < scopes.length := (List.getElem?_eq_some_iff.mp there).1
  cases step with
  | root | child parent => exact (List.getElem?_append_left bound).trans there
  | bind scope name mangled =>
    rw [perform, List.getElem?_modify, there, bindIn?]
    split <;> rfl

theorem getElem?_foldl_perform (there : scopes[i]? = some s) (steps : List ScopeStep) :
    (steps.foldl perform scopes)[i]? = some (s.bindAll (steps.filterMap (bindIn? i))) := by
  induction steps generalizing scopes s with
  | nil => exact there
  | cons step rest ih =>
    rw [List.foldl_cons, ih (getElem?_perform there step), List.filterMap_cons]
    cases bindIn? i step <;> rfl

/-- The scopes of a program have come about by its steps. -/
theorem exists_history (steps : List ScopeStep) :
    ∀ s ∈ steps.foldl perform [], ∃ history : ScopeHistory, history.scope = s := by
  refine List.foldlRecOn
    (motive := fun made : List Scope => ∀ s ∈ made, ∃ history : ScopeHistory, history.scope = s)
    steps _ (List.forall_mem_nil _) fun made histories step _ s member => ?_
  cases step with
  | root =>
    rcases List.mem_append.mp member with old | new
    · exact histories s old
    · exact ⟨.root, (List.mem_singleton.mp new).symm⟩
  | child parent =>
    rcases List.mem_append.mp member with old | new
    · exact histories s old
    · obtain ⟨around, there, rfl⟩ := Option.map_eq_some_iff.mp (Option.mem_toList.mp new)
      obtain ⟨history, rfl⟩ := histories around (List.mem_of_getElem? there)
      exact ⟨.child history, rfl⟩
  | bind i name mangled =>
    obtain ⟨j, found⟩ := List.getElem?_of_mem member
    rw [perform, List.getElem?_modify] at found
    obtain ⟨before, there, rfl⟩ := Option.map_eq_some_iff.mp found
    -- The scope stood in its place before, and it is the one that is bound in or stays as it was.
    obtain ⟨history, rfl⟩ := histories before (List.mem_of_getElem? there)
    split
    · exact ⟨.bind history name mangled, rfl⟩
    · exact ⟨history, rfl⟩

end ScopeStep

namespace ScopeHistory

/-- A name is looked up in the nearest scope that binds it, where its last bind counts, and binds of
other scopes or names change nothing. -/
theorem mangling?_nearest_last (history : ScopeHistory) (scopes : List Scope)
    (steps : List ScopeStep) :
    (∀ name,
      (∀ mangled, history.scope.mangling? name = some mangled ↔
        ∃ nearer owner farther, history :: history.ancestors = nearer ++ owner :: farther ∧
          (∀ own ∈ nearer, ¬own.Binds name) ∧ owner.LastBinds name mangled) ∧
      (history.scope.mangling? name = none ↔
        ∀ own ∈ history :: history.ancestors, ¬own.Binds name)) ∧
    (history.scope.frame.depth = history.ancestors.length ∧
      history.scope.parent? = history.ancestors.head?.map scope) ∧
    (∀ s ∈ steps.foldl ScopeStep.perform [], ∃ origin : ScopeHistory, origin.scope = s) ∧
    ∀ i s, scopes[i]? = some s →
      ∃ after, (steps.foldl ScopeStep.perform scopes)[i]? = some after ∧
        after.frame.depth = s.frame.depth ∧ after.parent? = s.parent? ∧
        ∀ name, (∀ mangled, .bind i name mangled ∉ steps) →
          after.mangling? name = s.mangling? name := by
  refine ⟨fun name => ⟨fun mangled => mangling?_eq_some_iff, mangling?_eq_none_iff⟩,
    ⟨history.depth_eq, history.parent?_eq⟩, ScopeStep.exists_history steps, fun i s there => ?_⟩
  obtain ⟨depth, outer⟩ := s.bindAll_eq (steps.filterMap (ScopeStep.bindIn? i))
  refine ⟨_, ScopeStep.getElem?_foldl_perform there steps, depth, ?_, fun name unbound => ?_⟩
  · rw [Scope.parent?, outer, Scope.parent?]
  · refine Scope.mangling?_bindAll_of_forall_ne fun own member same => ?_
    obtain ⟨step, taken, binds⟩ := List.mem_filterMap.mp member
    obtain rfl := ScopeStep.bindIn?_eq_some_iff.mp binds
    exact unbound own.2 (same ▸ taken)

end ScopeHistory

end LispFrontEnd
