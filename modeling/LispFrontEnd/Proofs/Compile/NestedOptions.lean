import LispFrontEnd.Compile.Options
import Mathlib.Data.List.Induction

/-! # Options through nested compiles

The options of a compile that is nested in others are its own, but for the six inherited ones: each
of these is as the outermost compile has it that sets it. To propagate options twice is to propagate
them once, and a compile without options of its own is given those that are set by default. Copying
by name goes through the same six: a name copies something exactly when it is one of theirs, and
copying by all of them in turn is propagation.
-/

namespace LispFrontEnd

namespace InheritedOption

theorem ofName?_eq_some_iff {name : String} {option : InheritedOption} :
    ofName? name = some option ↔ name = option.name := by
  constructor
  · intro found
    unfold ofName? at found
    split at found <;> cases found <;> rfl
  · rintro rfl
    cases option <;> rfl

theorem mem_all (option : InheritedOption) : option ∈ all := by
  cases option <;> decide

end InheritedOption

namespace CompileOptions

variable {H : Type}

/-- The options in force in the last of several compiles, each of which is nested in the one before
and has options of its own. -/
def nested (first : CompileOptions H) (others : List (CompileOptions H)) : CompileOptions H :=
  others.foldl (fun parent own => parent.propagate (some own)) first

theorem propagate_some (parent child : CompileOptions H) :
    parent.propagate (some child) =
      { child with
        allowedGlobals := parent.allowedGlobals.or child.allowedGlobals
        indent := parent.indent.or child.indent
        correlate := parent.correlate.or child.correlate
        useMetadata := parent.useMetadata.or child.useMetadata
        env := parent.env.or child.env
        compilerEnv := parent.compilerEnv.or child.compilerEnv } := rfl

/-- One more compile decides only what none around it has set. -/
theorem findSome?_concat {α : Type} (field : CompileOptions H → Option α)
    (around : List (CompileOptions H)) (own : CompileOptions H) :
    (around ++ [own]).findSome? field = (around.findSome? field).or (field own) := by
  rw [List.findSome?_append, List.findSome?_singleton]

theorem nested_concat (first : CompileOptions H) (others : List (CompileOptions H))
    (own : CompileOptions H) :
    nested first (others ++ [own]) = (nested first others).propagate (some own) := by
  rw [nested, List.foldl_append]
  rfl

theorem propagate_propagate (parent child : CompileOptions H) :
    parent.propagate (some (parent.propagate (some child))) = parent.propagate (some child) := by
  simp only [propagate_some, ← Option.or_assoc, Option.or_self]

theorem passNamed?_name (parent child : CompileOptions H) (option : InheritedOption) :
    parent.passNamed? child option.name = some (option.pass parent child) := by
  rw [passNamed?, InheritedOption.ofName?_eq_some_iff.mpr rfl]
  rfl

theorem isSome_passNamed? {parent child : CompileOptions H} {name : String} :
    (parent.passNamed? child name).isSome = true ↔ name ∈ InheritedOption.all.map (·.name) := by
  rw [passNamed?, Option.isSome_map, Option.isSome_iff_exists, List.mem_map]
  refine exists_congr fun option => ?_
  rw [InheritedOption.ofName?_eq_some_iff, and_iff_right option.mem_all, eq_comm]

theorem foldlM_passNamed? (parent child : CompileOptions H) (options : List InheritedOption) :
    (options.map (·.name)).foldlM parent.passNamed? child =
      some (options.foldl (fun child option => option.pass parent child) child) := by
  induction options generalizing child with
  | nil => rfl
  | cons option rest ih =>
    rw [List.map_cons, List.foldlM_cons, passNamed?_name]
    exact ih (option.pass parent child)

/-- The last of nested compiles has each inherited option as the outermost compile sets it that sets
it, and all other options as its own. -/
theorem nested_inherits :
    (∀ (first : CompileOptions H) (others : List (CompileOptions H)),
      nested first others =
        { (first :: others).getLast (List.cons_ne_nil first others) with
          allowedGlobals := (first :: others).findSome? (·.allowedGlobals)
          indent := (first :: others).findSome? (·.indent)
          correlate := (first :: others).findSome? (·.correlate)
          useMetadata := (first :: others).findSome? (·.useMetadata)
          env := (first :: others).findSome? (·.env)
          compilerEnv := (first :: others).findSome? (·.compilerEnv) }) ∧
    (∀ parent child : CompileOptions H,
      parent.propagate (some (parent.propagate (some child))) = parent.propagate (some child)) ∧
    (∀ parent : CompileOptions H, parent.propagate none = parent.propagate (some {})) ∧
    (∀ (parent child : CompileOptions H) (name : String),
      (parent.passNamed? child name).isSome = true ↔
        name ∈ InheritedOption.all.map (·.name)) ∧
    ∀ parent child : CompileOptions H,
      (InheritedOption.all.map (·.name)).foldlM parent.passNamed? child =
        some (parent.propagate (some child)) := by
  refine ⟨fun first others => ?_, propagate_propagate, fun _ => rfl,
    fun _ _ _ => isSome_passNamed?, fun parent child => foldlM_passNamed? parent child _⟩
  induction others using List.reverseRecOn with
  | nil => simp only [nested, List.foldl_nil, List.getLast_singleton, List.findSome?_singleton]
  | append_singleton others own ih =>
    rw [nested_concat, propagate_some, ih]
    simp only [← List.cons_append, findSome?_concat, List.getLast_concat]

end CompileOptions

end LispFrontEnd
