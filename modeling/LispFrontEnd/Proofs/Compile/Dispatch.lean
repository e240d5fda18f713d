import LispFrontEnd.Proofs.Compile.Trace
import Mathlib.Data.List.Infix

/-! # The turns of a dispatch

An event goes to the plugins that the live root has at the start, whatever the handlers do to that
list meanwhile. In its turn a plugin is checked against the version of that time, and its handler
for the event runs in the state that the turns before it have left. The first truthy answer ends the
dispatch; without one, every plugin has its turn. Nothing else is done, and there is no answer only
when a handler has none in its turn.
-/

namespace LispFrontEnd

open Session

variable {H W : Type}

/-- What a dispatch does with one plugin. -/
structure Turn (H : Type) where
  plugin : Plugin H
  /-- The version that the plugin is checked against. -/
  version : String
  answer : Option Value
  /-- What the handler does. -/
  handling : List (Event H)

namespace Turn

/-- The check comes first. -/
def events (turn : Turn H) : List (Event H) := .checked turn.plugin turn.version :: turn.handling

/-- There is no handler, or its answer lets the dispatch go on. -/
def Declines (turn : Turn H) : Prop :=
  turn.answer = none ∨ turn.answer = some .nil ∨ turn.answer = some (.bool false)

def Ends (turn : Turn H) (value : Value) : Prop :=
  turn.answer = some value ∧ value.isTruthy = true

/-- The turn that a plugin has in a state, and the state that it leaves. -/
inductive Takes (invoke : TracedInvoke H W) (event : String) (args : List Value) :
    Session H × W → Turn H → Session H × W → Prop where
  | unhandled {p : Plugin H} {s : Session H} {w : W} (absent : p.handler? event = none) :
    Takes invoke event args (s, w) ⟨p, s.version, none, []⟩ ((s.check p).2, w)
  | handled {p : Plugin H} {s : Session H} {w : W} {handler : H} {run : Run H W (Option Value)}
      (found : p.handler? event = some handler)
      (ran : invoke handler args ((s.check p).2, w) = some run) :
    Takes invoke event args (s, w) ⟨p, s.version, run.answer, run.events⟩ run.state

theorem declines_iff {turn : Turn H} :
    turn.Declines ↔ turn.answer.filter Value.isTruthy = none := by
  rw [Declines]
  cases turn.answer with
  | none => simp
  | some value =>
    cases value with
    | bool b => cases b <;> simp [Option.filter, Value.isTruthy]
    | _ => simp [Option.filter, Value.isTruthy]

theorem ends_iff {turn : Turn H} {value : Value} :
    turn.Ends value ↔ turn.answer.filter Value.isTruthy = some value :=
  Option.filter_eq_some_iff.symm

theorem Ends.not_declines {turn : Turn H} {value : Value} (ends : turn.Ends value) :
    ¬ turn.Declines := by
  rw [declines_iff, ends_iff.mp ends]
  exact Option.some_ne_none value

end Turn

/-- The turns that plugins have had, and the result of their dispatch. -/
structure Settles (plugins : List (Plugin H)) (turns : List (Turn H)) (result : Option Value) :
    Prop where
  order : turns.map (·.plugin) <+: plugins
  ended : ∀ value, result = some value ↔
    ∃ earlier last, turns = earlier ++ [last] ∧ last.Ends value ∧ ∀ turn ∈ earlier, turn.Declines
  exhausted : result = none ↔ turns.map (·.plugin) = plugins ∧ ∀ turn ∈ turns, turn.Declines

theorem Settles.of_declines {turns : List (Turn H)} (decline : ∀ turn ∈ turns, turn.Declines) :
    Settles (turns.map (·.plugin)) turns none where
  order := List.prefix_refl _
  ended value := by
    constructor
    · intro impossible
      cases impossible
    · rintro ⟨earlier, last, rfl, ends, _⟩
      exact absurd (decline last (by simp)) ends.not_declines
  exhausted := ⟨fun _ => ⟨rfl, decline⟩, fun _ => rfl⟩

theorem Settles.of_ends {plugins : List (Plugin H)} {earlier : List (Turn H)} {last : Turn H}
    {value : Value} (decline : ∀ turn ∈ earlier, turn.Declines) (ends : last.Ends value)
    (order : (earlier ++ [last]).map (·.plugin) <+: plugins) :
    Settles plugins (earlier ++ [last]) (some value) where
  order := order
  ended other := by
    constructor
    · intro same
      cases same
      exact ⟨earlier, last, rfl, ends, decline⟩
    · rintro ⟨front, final, same, finalEnds, _⟩
      obtain ⟨_, sameLast⟩ := List.append_inj' same rfl
      cases sameLast
      rw [← ends.1, finalEnds.1]
  exhausted := by
    constructor
    · intro impossible
      cases impossible
    · rintro ⟨_, allDecline⟩
      exact absurd (allDecline last (by simp)) ends.not_declines

namespace Session

variable {invoke : TracedInvoke H W} {event : String} {args : List Value} {p : Plugin H}
  {state middle last : Session H × W} {turn : Turn H} {earlier : List (Turn H)}

theorem offer_eq_some_iff_takes {run : Run H W (Option Value)} :
    offer invoke event args p state = some run ↔
      ∃ turn : Turn H, turn.Takes invoke event args state run.state ∧ turn.plugin = p ∧
        run = ⟨turn.answer, run.state, turn.events⟩ := by
  obtain ⟨s, w⟩ := state
  rw [offer_eq_some_iff]
  constructor
  · rintro (⟨absent, rfl⟩ | ⟨handler, handling, found, ran, rfl⟩)
    · exact ⟨_, .unhandled absent, rfl, rfl⟩
    · have takes := Turn.Takes.handled found ran
      exact ⟨_, takes, rfl, rfl⟩
  · obtain ⟨answer, last, events⟩ := run
    rintro ⟨turn, takes, rfl, same⟩
    cases same
    cases takes with
    | unhandled absent => exact .inl ⟨absent, rfl⟩
    | handled found ran => exact .inr ⟨_, _, found, ran, rfl⟩

theorem offer_eq_none_iff : offer invoke event args p state = none ↔
    ∃ handler, p.handler? event = some handler ∧
      invoke handler args ((state.1.check p).2, state.2) = none := by
  rw [offer]
  cases p.handler? event with
  | none => simp
  | some handler => simp

theorem offer_of_takes (takes : turn.Takes invoke event args state last) :
    offer invoke event args turn.plugin state = some ⟨turn.answer, last, turn.events⟩ :=
  offer_eq_some_iff_takes.mpr ⟨turn, takes, rfl, rfl⟩

/-- A dispatch goes on behind the turns that decline. -/
theorem traceDispatch_declined (path : Path (Turn.Takes invoke event args) state earlier middle)
    (decline : ∀ turn ∈ earlier, turn.Declines) (rest : List (Plugin H)) :
    traceDispatch invoke event args (earlier.map (·.plugin) ++ rest) state =
      (traceDispatch invoke event args rest middle).map
        (·.following (earlier.flatMap Turn.events)) := by
  induction path with
  | nil state => exact Option.map_id'.symm
  | @cons state next middle turn turns takes _ ih =>
    obtain ⟨declines, decline⟩ := List.forall_mem_cons.mp decline
    rw [List.map_cons, List.cons_append, traceDispatch, offer_of_takes takes, Option.bind_some]
    simp only [Turn.declines_iff.mp declines, ih decline, Option.map_map]
    congr 1
    funext run
    simp [Run.following]

theorem traceDispatch_all (path : Path (Turn.Takes invoke event args) state earlier middle)
    (decline : ∀ turn ∈ earlier, turn.Declines) :
    traceDispatch invoke event args (earlier.map (·.plugin)) state =
      some ⟨none, middle, earlier.flatMap Turn.events⟩ := by
  have goesOn := traceDispatch_declined path decline []
  simpa [traceDispatch, Run.following] using goesOn

theorem traceDispatch_until (path : Path (Turn.Takes invoke event args) state earlier middle)
    (decline : ∀ turn ∈ earlier, turn.Declines) (takes : turn.Takes invoke event args middle last)
    {value : Value} (ends : turn.Ends value) (rest : List (Plugin H)) :
    traceDispatch invoke event args (earlier.map (·.plugin) ++ turn.plugin :: rest) state =
      some ⟨some value, last, (earlier ++ [turn]).flatMap Turn.events⟩ := by
  rw [traceDispatch_declined path decline, traceDispatch, offer_of_takes takes, Option.bind_some]
  simp [Turn.ends_iff.mp ends, Run.following]

theorem traceDispatch_stalled (path : Path (Turn.Takes invoke event args) state earlier middle)
    (decline : ∀ turn ∈ earlier, turn.Declines) (stalls : offer invoke event args p middle = none)
    (rest : List (Plugin H)) :
    traceDispatch invoke event args (earlier.map (·.plugin) ++ p :: rest) state = none := by
  rw [traceDispatch_declined path decline, traceDispatch, stalls]
  rfl

/-- Behind the turns that decline a dispatch is at its end, or a plugin ends it, or a handler gives
no answer. -/
theorem exists_declined (invoke : TracedInvoke H W) (event : String) (args : List Value)
    (plugins : List (Plugin H)) (state : Session H × W) :
    ∃ (earlier : List (Turn H)) (middle : Session H × W),
      Path (Turn.Takes invoke event args) state earlier middle ∧
      (∀ turn ∈ earlier, turn.Declines) ∧
      (plugins = earlier.map (·.plugin) ∨
        ∃ p rest, plugins = earlier.map (·.plugin) ++ p :: rest ∧
          (offer invoke event args p middle = none ∨
            ∃ (turn : Turn H) (last : Session H × W) (value : Value),
              turn.Takes invoke event args middle last ∧ turn.plugin = p ∧ turn.Ends value)) := by
  induction plugins generalizing state with
  | nil => exact ⟨[], state, .nil state, List.forall_mem_nil _, .inl rfl⟩
  | cons p rest ih =>
    cases offered : offer invoke event args p state with
    | none =>
      refine ⟨[], state, .nil state, List.forall_mem_nil _, .inr ⟨p, rest, rfl, ?_⟩⟩
      exact .inl offered
    | some run =>
      obtain ⟨turn, takes, rfl, _⟩ := offer_eq_some_iff_takes.mp offered
      cases truthy : turn.answer.filter Value.isTruthy with
      | some value =>
        refine ⟨[], state, .nil state, List.forall_mem_nil _, .inr ⟨_, rest, rfl, ?_⟩⟩
        exact .inr ⟨turn, run.state, value, takes, rfl, Turn.ends_iff.mpr truthy⟩
      | none =>
        obtain ⟨earlier, middle, path, decline, ending⟩ := ih run.state
        refine ⟨turn :: earlier, middle, .cons takes path, ?_, ?_⟩
        · exact List.forall_mem_cons.mpr ⟨Turn.declines_iff.mpr truthy, decline⟩
        · rcases ending with rfl | ⟨next, more, rfl, ending⟩
          · exact .inl rfl
          · exact .inr ⟨next, more, rfl, ending⟩

theorem traceDispatch_eq_some_iff {plugins : List (Plugin H)} {run : Run H W (Option Value)} :
    traceDispatch invoke event args plugins state = some run ↔
      ∃ turns, Path (Turn.Takes invoke event args) state turns run.state ∧
        Settles plugins turns run.answer ∧ run.events = turns.flatMap Turn.events := by
  constructor
  · intro ran
    obtain ⟨earlier, middle, path, decline, ending⟩ :=
      exists_declined invoke event args plugins state
    rcases ending with rfl | ⟨p, rest, rfl, stalls | ⟨turn, last, value, takes, rfl, ends⟩⟩
    · rw [traceDispatch_all path decline] at ran
      cases ran
      exact ⟨earlier, path, .of_declines decline, rfl⟩
    · rw [traceDispatch_stalled path decline stalls] at ran
      cases ran
    · rw [traceDispatch_until path decline takes ends] at ran
      cases ran
      have order : (earlier ++ [turn]).map (·.plugin) <+:
          earlier.map (·.plugin) ++ turn.plugin :: rest := by simp
      exact ⟨earlier ++ [turn], path.append (.single takes), .of_ends decline ends order, rfl⟩
  · obtain ⟨answer, last, events⟩ := run
    rintro ⟨turns, path, settles, rfl⟩
    cases answer with
    | none =>
      obtain ⟨rfl, decline⟩ := settles.exhausted.mp rfl
      exact traceDispatch_all path decline
    | some value =>
      obtain ⟨earlier, turn, rfl, ends, decline⟩ := (settles.ended value).mp rfl
      obtain ⟨rest, rfl⟩ := settles.order
      obtain ⟨middle, front, back⟩ := Path.append_iff.mp path
      cases back with
      | cons takes back =>
        cases back
        rw [List.map_append, List.append_assoc]
        exact traceDispatch_until front decline takes ends rest

theorem traceDispatch_eq_none_iff {plugins : List (Plugin H)} :
    traceDispatch invoke event args plugins state = none ↔
      ∃ (earlier : List (Turn H)) (middle : Session H × W) (p : Plugin H) (rest : List (Plugin H))
          (handler : H), plugins = earlier.map (·.plugin) ++ p :: rest ∧
        Path (Turn.Takes invoke event args) state earlier middle ∧
        (∀ turn ∈ earlier, turn.Declines) ∧ p.handler? event = some handler ∧
        invoke handler args ((middle.1.check p).2, middle.2) = none := by
  constructor
  · intro ran
    obtain ⟨earlier, middle, path, decline, ending⟩ :=
      exists_declined invoke event args plugins state
    rcases ending with rfl | ⟨p, rest, rfl, stalls | ⟨turn, last, value, takes, rfl, ends⟩⟩
    · rw [traceDispatch_all path decline] at ran
      cases ran
    · obtain ⟨handler, found, unanswered⟩ := offer_eq_none_iff.mp stalls
      exact ⟨earlier, middle, p, rest, handler, rfl, path, decline, found, unanswered⟩
    · rw [traceDispatch_until path decline takes ends] at ran
      cases ran
  · rintro ⟨earlier, middle, p, rest, handler, rfl, path, decline, found, unanswered⟩
    apply traceDispatch_stalled path decline
    exact offer_eq_none_iff.mpr ⟨handler, found, unanswered⟩

end Session

/-- A hook comes to a result exactly by turns of the plugins that the live root has at the start, up
to one that settles it. -/
theorem Program.run?_hook_iff (code : H → List Value → Program H W (Option Value)) (fuel : Nat)
    (event : String) (args : List Value) (s : Session H) (w : W) :
    (∀ result last, run? code fuel (.hook event args) (s, w) = some (result, last) ↔
      ∃ turns, Path (Turn.Takes (traceInvoke code fuel) event args) (s, w) turns last ∧
        Settles s.root.options.plugins turns result) ∧
    (∀ result last events,
      trace? code fuel (.hook event args) (s, w) = some ⟨result, last, events⟩ ↔
      ∃ turns, Path (Turn.Takes (traceInvoke code fuel) event args) (s, w) turns last ∧
        Settles s.root.options.plugins turns result ∧ events = turns.flatMap Turn.events) ∧
    (run? code fuel (.hook event args) (s, w) = none ↔
      ∃ (earlier : List (Turn H)) (middle : Session H × W) (p : Plugin H) (rest : List (Plugin H))
          (handler : H), s.root.options.plugins = earlier.map (·.plugin) ++ p :: rest ∧
        Path (Turn.Takes (traceInvoke code fuel) event args) (s, w) earlier middle ∧
        (∀ turn ∈ earlier, turn.Declines) ∧ p.handler? event = some handler ∧
        Program.invoke code fuel handler args ((middle.1.check p).2, middle.2) = none) := by
  have traced (result : Option Value) (last : Session H × W) (events : List (Event H)) :
      trace? code fuel (.hook event args) (s, w) = some ⟨result, last, events⟩ ↔
        ∃ turns, Path (Turn.Takes (traceInvoke code fuel) event args) (s, w) turns last ∧
          Settles s.root.options.plugins turns result ∧ events = turns.flatMap Turn.events :=
    traceDispatch_eq_some_iff
  refine ⟨fun result last => ?_, traced, ?_⟩
  · rw [run?_eq_some_iff]
    constructor
    · rintro ⟨events, ran⟩
      obtain ⟨turns, path, settles, _⟩ := (traced result last events).mp ran
      exact ⟨turns, path, settles⟩
    · rintro ⟨turns, path, settles⟩
      exact ⟨_, (traced result last _).mpr ⟨turns, path, settles, rfl⟩⟩
  · have unanswered (handler : H) (state : Session H × W) :
        Program.invoke code fuel handler args state = none ↔
          traceInvoke code fuel handler args state = none := by
      rw [← traceInvoke_forgets code fuel, Option.map_eq_none_iff]
    rw [← trace?_plain, Option.map_eq_none_iff]
    simp only [unanswered]
    exact traceDispatch_eq_none_iff

/-- The first plugin takes the second one off the list and changes the version; the second one still
has its turn, and is checked against the new version. -/
example :
    let code (_ : Unit) (_ : List Value) : Program Unit Unit (Option Value) := do
      .modifyRoot fun root => { root with options := { version := some "2.0" } }
      return some .nil
    let first : Plugin Unit := { id := 1, versions := some ["1.0"], handlers := [("start", ())] }
    let second : Plugin Unit := { id := 2, versions := some ["1.0"] }
    let options : CompileOptions Unit := { plugins := [first, second], version := some "1.0" }
    (Program.run? code 1 (.hook "start" []) ({ root := { options } }, ())).map
        (fun (_, last, _) => last.warnings) =
      some [.unsupported 2 "unknown" "2.0"] := by
  decide

end LispFrontEnd
