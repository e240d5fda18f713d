import LispFrontEnd.Proofs.Compile.Brackets
import Mathlib.Logic.Function.Basic

/-! # One warning for each plugin and session

The first check that finds a plugin without support for the version of that time gives a warning
with that version, and no later check of the same plugin gives another: not in a nested body, not
after a reset, not in a handler that is called meanwhile. A session without such a check, or with an
earlier warning about the plugin, does not warn. Plugins are told apart by identity alone, and
sessions that run side by side have nothing to do with the warnings of each other.
-/

namespace LispFrontEnd

open Session

variable {H W α ι : Type}

/-- A release is its own version, unless that ends in the mark of a development version; the
development version of a release has one such mark behind it. -/
def IsReleaseOf (release version : String) : Prop :=
  version = release ++ "-dev" ∨ version = release ∧ ∀ base, version ≠ base ++ "-dev"

theorem releaseOf_append_dev (base : String) : releaseOf (base ++ "-dev") = base := by
  simp [releaseOf]

theorem releaseOf_of_unmarked {version : String} (unmarked : ∀ base, version ≠ base ++ "-dev") :
    releaseOf version = version := by
  rw [releaseOf]
  refine if_neg fun marked => ?_
  obtain ⟨front, joined⟩ := List.isSuffixOf_iff_suffix.mp marked
  refine unmarked (String.ofList front) (String.toList_inj.mp ?_)
  rw [String.toList_append, String.toList_ofList, ← joined]
  rfl

theorem releaseOf_eq_iff {version release : String} :
    releaseOf version = release ↔ IsReleaseOf release version := by
  by_cases marked : ∃ base, version = base ++ "-dev"
  · obtain ⟨base, rfl⟩ := marked
    rw [releaseOf_append_dev, IsReleaseOf]
    constructor
    · rintro rfl
      exact .inl rfl
    · rintro (same | ⟨_, unmarked⟩)
      · simpa using same
      · exact absurd rfl (unmarked base)
  · have unmarked : ∀ base, version ≠ base ++ "-dev" := fun base same => marked ⟨base, same⟩
    rw [releaseOf_of_unmarked unmarked, IsReleaseOf]
    simp [unmarked]

/-- The plugin declares support for the release of a version. -/
def Plugin.Declares (p : Plugin H) (version : String) : Prop :=
  ∃ release ∈ p.versions.getD [], IsReleaseOf release version

theorem Plugin.supports_iff {p : Plugin H} {version : String} :
    p.supports version = true ↔ p.Declares version := by
  simp only [supports, Declares, ← releaseOf_eq_iff]
  simp

namespace Event

/-- A check of the plugin with an identity against a version that it does not declare. -/
def Fails (plugin : Nat) : Event H → Prop
  | .checked p version => p.id = plugin ∧ ¬ p.Declares version
  | _ => False

/-- The warning that a failing check asks for. -/
def complaint? (plugin : Nat) : Event H → Option Warning
  | .checked p version =>
    if p.id = plugin ∧ p.supports version = false then
      some (.unsupported p.id p.displayName version)
    else none
  | _ => none

theorem complaint?_of_fails {plugin : Nat} {p : Plugin H} {version : String}
    (fails : Fails plugin (.checked p version)) :
    complaint? plugin (.checked p version) = some (.unsupported plugin p.displayName version) := by
  obtain ⟨rfl, undeclared⟩ := fails
  rw [← Plugin.supports_iff, Bool.not_eq_true] at undeclared
  simp [complaint?, undeclared]

theorem complaint?_eq_none_iff {plugin : Nat} {event : Event H} :
    event.complaint? plugin = none ↔ ¬ event.Fails plugin := by
  cases event with
  | checked p version => simp [complaint?, Fails, ← Plugin.supports_iff]
  | _ => simp [complaint?, Fails]

theorem Fails.exists_check {plugin : Nat} {event : Event H} (fails : event.Fails plugin) :
    ∃ p version, event = .checked p version := by
  cases event with
  | checked p version => exact ⟨p, version, rfl⟩
  | _ => exact fails.elim

end Event

def Warning.concerns (plugin : Nat) : Warning → Bool
  | .message _ => false
  | .unsupported id _ _ => id == plugin

namespace Session

variable {s next last : Session H} {plugin : Nat}

def warningsAbout (s : Session H) (plugin : Nat) : List Warning :=
  s.warnings.filter (·.concerns plugin)

/-- The warning that comes with an event, if the plugin has had none before. -/
def newWarning? (s : Session H) (plugin : Nat) (event : Event H) : Option Warning :=
  if plugin ∈ s.warned then none else event.complaint? plugin

/-- Nothing but checks and messages concerns the warnings. -/
theorem reset_records (s : Session H) :
    s.reset.2.warned = s.warned ∧ s.reset.2.warnings = s.warnings := by
  rw [reset]
  cases s.saved <;> exact ⟨rfl, rfl⟩

theorem check_records (s : Session H) (p : Plugin H) (plugin : Nat) :
    (s.check p).2.warningsAbout plugin =
        s.warningsAbout plugin ++ (s.newWarning? plugin (.checked p s.version)).toList ∧
      (plugin ∈ (s.check p).2.warned ↔
        plugin ∈ s.warned ∨ (s.newWarning? plugin (.checked p s.version)).isSome = true) := by
  rw [check, newWarning?, Event.complaint?]
  by_cases supported : p.supports s.version = true
  · simp [supported]
  · by_cases warned : p.id ∈ s.warned
    · by_cases same : p.id = plugin
      · subst same
        simp [supported, warned]
      · simp [supported, warned, same]
    · by_cases same : p.id = plugin
      · subst same
        simp [supported, warned, warningsAbout, warn, Warning.concerns]
      · simp [supported, warned, same, warningsAbout, warn, Warning.concerns, Ne.symm same]

theorem records_of_silent {event : Event H} (silent : event.complaint? plugin = none)
    (warnings : next.warningsAbout plugin = s.warningsAbout plugin)
    (warned : next.warned = s.warned) :
    next.warningsAbout plugin = s.warningsAbout plugin ++ (s.newWarning? plugin event).toList ∧
      (plugin ∈ next.warned ↔
        plugin ∈ s.warned ∨ (s.newWarning? plugin event).isSome = true) := by
  simp [newWarning?, silent, warnings, warned]

theorem Step.records {event : Event H} (step : Step s event next) (plugin : Nat) :
    next.warningsAbout plugin = s.warningsAbout plugin ++ (s.newWarning? plugin event).toList ∧
      (plugin ∈ next.warned ↔
        plugin ∈ s.warned ∨ (s.newWarning? plugin event).isSome = true) := by
  cases step with
  | check p now =>
    subst now
    exact s.check_records p plugin
  | reset leaves =>
    obtain ⟨warned, warnings⟩ := s.reset_records
    rw [leaves] at warned warnings
    exact records_of_silent rfl (congrArg (List.filter _) warnings) warned
  | enter | modify => exact records_of_silent rfl rfl rfl
  | warn text =>
    refine records_of_silent rfl ?_ rfl
    simp [warningsAbout, Session.warn, Warning.concerns]

end Session

/-- A run adds the warning of the first failing check alone, and that only when the plugin has had
none before. -/
theorem Path.warningsAbout_eq {s last : Session H} {events : List (Event H)}
    (path : Path Step s events last) (plugin : Nat) :
    last.warningsAbout plugin = s.warningsAbout plugin ++
      (if plugin ∈ s.warned then none else events.findSome? (·.complaint? plugin)).toList := by
  induction path with
  | nil => simp
  | @cons s next last event events step _ ih =>
    obtain ⟨warnings, warned⟩ := step.records plugin
    rw [ih, warnings, List.append_assoc, List.findSome?_cons]
    congr 1
    by_cases before : plugin ∈ s.warned
    · simp [newWarning?, warned, before]
    · cases complaint : event.complaint? plugin with
      | none => simp [newWarning?, warned, before, complaint]
      | some warning => simp [newWarning?, warned, before, complaint]

namespace Session

/-- A run of events makes one new warning about a plugin, at the first check that fails, unless the
plugin has had one before. -/
def ReportsOnce (plugin : Nat) (s : Session H) (events : List (Event H)) (last : Session H) :
    Prop :=
  (plugin ∈ s.warned ∨ ∀ event ∈ events, ¬ event.Fails plugin) ∧
      last.warningsAbout plugin = s.warningsAbout plugin ∨
    plugin ∉ s.warned ∧ ∃ front p version rest, events = front ++ .checked p version :: rest ∧
      (Event.checked p version).Fails plugin ∧ (∀ event ∈ front, ¬ event.Fails plugin) ∧
      last.warningsAbout plugin =
        s.warningsAbout plugin ++ [.unsupported plugin p.displayName version]

theorem reportsOnce {s last : Session H} {events : List (Event H)} (path : Path Step s events last)
    (plugin : Nat) : ReportsOnce plugin s events last := by
  have warnings := path.warningsAbout_eq plugin
  by_cases before : plugin ∈ s.warned
  · rw [if_pos before] at warnings
    exact .inl ⟨.inl before, by simpa using warnings⟩
  · rw [if_neg before] at warnings
    cases found : events.findSome? (·.complaint? plugin) with
    | none =>
      rw [found] at warnings
      simp only [List.findSome?_eq_none_iff, Event.complaint?_eq_none_iff] at found
      exact .inl ⟨.inr found, by simpa using warnings⟩
    | some warning =>
      rw [found] at warnings
      obtain ⟨front, event, rest, rfl, complains, silent⟩ := List.findSome?_eq_some_iff.mp found
      have fails : event.Fails plugin := by
        by_contra passes
        rw [Event.complaint?_eq_none_iff.mpr passes] at complains
        cases complains
      obtain ⟨p, version, rfl⟩ := fails.exists_check
      rw [Event.complaint?_of_fails fails] at complains
      cases complains
      refine .inr ⟨before, front, p, version, rest, rfl, fails, fun event member => ?_, warnings⟩
      exact Event.complaint?_eq_none_iff.mp (silent event member)

/-- One of several sessions in a world runs a program, labelled with what it does, and the others
stay as they are. -/
inductive RunsAmong [DecidableEq ι] (code : H → List Value → Program H W (Option Value)) :
    (ι → Session H) × W → ι × List (Event H) → (ι → Session H) × W → Prop where
  | run {sessions : ι → Session H} {w world : W} {i : ι} {fuel : Nat} {α : Type} {p : Program H W α}
      {answer : α} {last : Session H} {events : List (Event H)}
      (ran : p.trace? code fuel (sessions i, w) = some ⟨answer, (last, world), events⟩) :
    RunsAmong code (sessions, w) (i, events) (Function.update sessions i last, world)

variable [DecidableEq ι]

/-- All that one of the sessions does, in order. -/
def eventsOf (i : ι) (runs : List (ι × List (Event H))) : List (Event H) :=
  (runs.filter fun run => run.1 = i).flatMap (·.2)

theorem RunsAmong.path {code : H → List Value → Program H W (Option Value)}
    {state next : (ι → Session H) × W} {run : ι × List (Event H)}
    (runs : RunsAmong code state run next) (i : ι) :
    Path Step (state.1 i) (eventsOf i [run]) (next.1 i) := by
  cases runs with
  | @run sessions w world j fuel α p answer last events ran =>
    by_cases own : j = i
    · subst own
      have path : Path Step (sessions j) events last := Program.path_trace? ran
      simpa [eventsOf] using path
    · simpa [eventsOf, own, Function.update_of_ne (Ne.symm own)] using Path.nil (sessions i)

theorem path_eventsOf {code : H → List Value → Program H W (Option Value)}
    {state last : (ι → Session H) × W} {runs : List (ι × List (Event H))}
    (path : Path (RunsAmong code) state runs last) (i : ι) :
    Path Step (state.1 i) (eventsOf i runs) (last.1 i) := by
  induction path with
  | nil state => exact .nil (state.1 i)
  | @cons state next last run runs first _ ih =>
    have split : eventsOf i (run :: runs) = eventsOf i [run] ++ eventsOf i runs := by
      rw [eventsOf, eventsOf, eventsOf, ← List.flatMap_append, ← List.filter_append]
      rfl
    rw [split]
    exact (first.path i).append ih

/-- However sessions take turns at running programs, each warns about a plugin once, at the first
check of its own that fails. -/
theorem runsAmong_reportsOnce {code : H → List Value → Program H W (Option Value)}
    {sessions lasts : ι → Session H} {w world : W} {runs : List (ι × List (Event H))}
    (path : Path (RunsAmong code) (sessions, w) runs (lasts, world)) (i : ι) (plugin : Nat) :
    Path Step (sessions i) (eventsOf i runs) (lasts i) ∧
      ReportsOnce plugin (sessions i) (eventsOf i runs) (lasts i) :=
  have own : Path Step (sessions i) (eventsOf i runs) (lasts i) := path_eventsOf path i
  ⟨own, reportsOnce own plugin⟩

def firstTwin : Plugin Unit where
  id := 1
  name := some "twin"
  versions := some ["1.0"]
  handlers := [("start", ())]

/-- A plugin that looks like the first one, but is another. -/
def secondTwin : Plugin Unit := { firstTwin with id := 2, handlers := [] }

/-- Moves on to a later version, and checks the first twin against a still later one. -/
def onStart (_ : Unit) (_ : List Value) : Program Unit Unit (Option Value) := do
  .modifyRoot fun root => { root with options := { root.options with version := some "2.0" } }
  .nested { options := { version := some "3.0" } } do
    let _ ← .check firstTwin
  return none

def withTwins : Root Unit where
  options := { plugins := [firstTwin, secondTwin], version := some "1.0-dev" }

def twinSessions (main : Bool) : Session Unit := if main then { root := withTwins } else {}

theorem twins_warned_separately : ∃ runs lasts,
    Path (RunsAmong onStart) (twinSessions, ()) runs (lasts, ()) ∧
      runs.map (·.1) = [true, false, true] ∧
      (lasts true).warnings = [.unsupported 1 "twin" "3.0", .unsupported 2 "twin" "2.0"] ∧
      (lasts false).warnings = [.unsupported 1 "twin" compilerVersion] ∧
      ∀ main plugin, ReportsOnce plugin (twinSessions main) (eventsOf main runs) (lasts main) := by
  have ran : (Program.hook "start" []).trace? onStart 1 (twinSessions true, ()) = some _ := rfl
  have first : RunsAmong onStart (twinSessions, ()) (true, _) (_, ()) := .run ran
  have checked (i : Bool) (sessions : Bool → Session Unit) :
      RunsAmong onStart (sessions, ()) (i, _)
        (Function.update sessions i ((sessions i).check firstTwin).2, ()) :=
    .run (show (Program.check firstTwin).trace? onStart 0 (sessions i, ()) = some _ from rfl)
  have path := Path.cons first (.cons (checked false _) (.single (checked true _)))
  exact ⟨_, _, path, rfl, rfl, rfl, fun main plugin => (runsAmong_reportsOnce path main plugin).2⟩

end Session

end LispFrontEnd
