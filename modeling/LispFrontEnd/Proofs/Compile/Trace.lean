import LispFrontEnd.Compile.Program
import LispFrontEnd.Proofs.Path

/-! # Traces of programs

A trace lists what a program does to its session, in order: in its own steps, in the handlers that
it calls, and in the resets that end a nested body. `Program.trace?` runs a program and keeps its
trace; without the trace it is `Program.run?`. Every trace is a path of the transition system
`Session.Step`, so a fact about all programs is proved for its five kinds of steps.
-/

namespace LispFrontEnd

inductive Event (H : Type) where
  | entered (root : Root H)
  /-- A reset, with the root that it answers: none when no root waited. -/
  | reset (left : Option (Root H))
  | modified (f : Root H → Root H)
  | warned (text : String)
  /-- A plugin is checked against the version of that time. -/
  | checked (p : Plugin H) (version : String)

variable {H W α β : Type}

namespace Session

inductive Step : Session H → Event H → Session H → Prop where
  | enter (s : Session H) (root : Root H) : Step s (.entered root) (s.enter root)
  | reset {s next : Session H} {left : Option (Root H)} (leaves : s.reset = (left, next)) :
    Step s (.reset left) next
  | modify (s : Session H) (f : Root H → Root H) : Step s (.modified f) (s.modifyRoot f)
  | warn (s : Session H) (text : String) : Step s (.warned text) (s.warn (.message text))
  | check {s : Session H} {version : String} (p : Plugin H) (now : s.version = version) :
    Step s (.checked p version) (s.check p).2

/-- The events of a number of resets. -/
def resets : Nat → Session H → List (Event H)
  | 0, _ => []
  | n + 1, s => .reset s.reset.1 :: resets n s.reset.2

/-- The events of going back to a depth. -/
def unwinding (s : Session H) (depth : Nat) : List (Event H) := resets (s.depth - depth) s

theorem repeat_succ_eq {σ : Type} (f : σ → σ) (n : Nat) (a : σ) :
    Nat.repeat f (n + 1) a = Nat.repeat f n (f a) := by
  induction n with
  | zero => rfl
  | succ n ih => exact congrArg f ih

theorem path_resets (n : Nat) (s : Session H) :
    Path Step s (resets n s) (Nat.repeat (fun s => s.reset.2) n s) := by
  induction n generalizing s with
  | zero => exact .nil s
  | succ n ih =>
    rw [repeat_succ_eq]
    exact .cons (.reset rfl) (ih s.reset.2)

theorem path_unwinding (s : Session H) (depth : Nat) :
    Path Step s (s.unwinding depth) (s.unwind depth) :=
  path_resets (s.depth - depth) s

end Session

/-- A run that has come to its end. -/
structure Run (H W α : Type) where
  answer : α
  state : Session H × W
  events : List (Event H)

namespace Run

def plain (run : Run H W α) : α × (Session H × W) := (run.answer, run.state)

/-- The run as the second part of one that has begun with other events. -/
def following (run : Run H W α) (earlier : List (Event H)) : Run H W α :=
  { run with events := earlier ++ run.events }

end Run

/-- How a handler is run and traced. -/
abbrev TracedInvoke (H W : Type) :=
  H → List Value → Session H × W → Option (Run H W (Option Value))

namespace Session

/-- The turn of one plugin: it is checked, and its handler runs if it has one for the event. -/
def offer (invoke : TracedInvoke H W) (event : String) (args : List Value) (p : Plugin H)
    (state : Session H × W) : Option (Run H W (Option Value)) :=
  let checked := [Event.checked p state.1.version]
  let state := ((state.1.check p).2, state.2)
  match p.handler? event with
  | none => some ⟨none, state, checked⟩
  | some handler => (invoke handler args state).map (·.following checked)

theorem offer_eq_some_iff {invoke : TracedInvoke H W} {event : String} {args : List Value}
    {p : Plugin H} {state : Session H × W} {turn : Run H W (Option Value)} :
    offer invoke event args p state = some turn ↔
      (p.handler? event = none ∧
        turn = ⟨none, ((state.1.check p).2, state.2), [.checked p state.1.version]⟩) ∨
      ∃ handler run, p.handler? event = some handler ∧
        invoke handler args ((state.1.check p).2, state.2) = some run ∧
        turn = run.following [.checked p state.1.version] := by
  rw [offer]
  cases p.handler? event with
  | none =>
    constructor
    · intro offered
      cases offered
      exact .inl ⟨rfl, rfl⟩
    · rintro (⟨_, rfl⟩ | ⟨handler, run, found, _⟩)
      · rfl
      · cases found
  | some handler =>
    constructor
    · intro offered
      obtain ⟨run, ran, rfl⟩ := Option.map_eq_some_iff.mp offered
      exact .inr ⟨handler, run, rfl, ran, rfl⟩
    · rintro (⟨absent, _⟩ | ⟨handler, run, found, ran, rfl⟩)
      · cases absent
      · cases found
        exact Option.map_eq_some_iff.mpr ⟨run, ran, rfl⟩

def traceDispatch (invoke : TracedInvoke H W) (event : String) (args : List Value) :
    List (Plugin H) → Session H × W → Option (Run H W (Option Value))
  | [], state => some ⟨none, state, []⟩
  | p :: rest, state =>
    (offer invoke event args p state).bind fun turn =>
      match turn.answer.filter Value.isTruthy with
      | some value => some { turn with answer := some value }
      | none => (traceDispatch invoke event args rest turn.state).map (·.following turn.events)

end Session

namespace Program

def trace (invoke : TracedInvoke H W) {α : Type} :
    Program H W α → Session H × W → Option (Run H W α)
  | .done answer, state => some ⟨answer, state, []⟩
  | .andThen first rest, state =>
    (trace invoke first state).bind fun run =>
      (trace invoke (rest run.answer) run.state).map (·.following run.events)
  | .world step, (s, w) => some ⟨(step w).1, (s, (step w).2), []⟩
  | .session, (s, w) => some ⟨s, (s, w), []⟩
  | .enter root, (s, w) => some ⟨(), (s.enter root, w), [.entered root]⟩
  | .reset, (s, w) => some ⟨s.reset.1, (s.reset.2, w), [.reset s.reset.1]⟩
  | .modifyRoot f, (s, w) => some ⟨(), (s.modifyRoot f, w), [.modified f]⟩
  | .warn text, (s, w) => some ⟨(), (s.warn (.message text), w), [.warned text]⟩
  | .check p, (s, w) => some ⟨(s.check p).1, ((s.check p).2, w), [.checked p s.version]⟩
  | .hook event args, state =>
    Session.traceDispatch invoke event args state.1.root.options.plugins state
  | .nested root body, (s, w) =>
    (trace invoke body (s.enter root, w)).map fun run =>
      ⟨run.answer, (run.state.1.unwind s.depth, run.state.2),
        .entered root :: run.events ++ run.state.1.unwinding s.depth⟩

def traceInvoke (code : H → List Value → Program H W (Option Value)) : Nat → TracedInvoke H W
  | 0 => fun _ _ _ => none
  | fuel + 1 => fun handler args state => trace (traceInvoke code fuel) (code handler args) state

/-- Runs a program whose handlers call handlers at most `fuel` deep, and traces it. -/
def trace? (code : H → List Value → Program H W (Option Value)) (fuel : Nat) (p : Program H W α)
    (state : Session H × W) : Option (Run H W α) :=
  trace (traceInvoke code fuel) p state

end Program

/-- One handler run, with its trace and without. -/
def TracedInvoke.Forgets (traced : TracedInvoke H W) (invoke : Invoke H W) : Prop :=
  ∀ handler args state, (traced handler args state).map Run.plain = invoke handler args state

section Forget
variable {traced : TracedInvoke H W} {invoke : Invoke H W}

theorem Run.map_plain_following (run? : Option (Run H W α)) (earlier : List (Event H)) :
    (run?.map (·.following earlier)).map Run.plain = run?.map Run.plain := by
  rw [Option.map_map]
  rfl

theorem Session.traceDispatch_plain (forgets : traced.Forgets invoke) (event : String)
    (args : List Value) (plugins : List (Plugin H)) (state : Session H × W) :
    (traceDispatch traced event args plugins state).map Run.plain =
      dispatch invoke event args plugins state := by
  induction plugins generalizing state with
  | nil => rfl
  | cons p rest ih =>
    obtain ⟨s, w⟩ := state
    rw [traceDispatch, dispatch, offer]
    cases p.handler? event with
    | none => exact (Run.map_plain_following _ _).trans (ih _)
    | some handler =>
      simp only
      rw [← forgets handler args ((s.check p).2, w)]
      cases traced handler args ((s.check p).2, w) with
      | none => rfl
      | some run =>
        simp only [Option.map_some, Option.bind_some, Run.following, Run.plain]
        cases run.answer.filter Value.isTruthy with
        | none => exact (Run.map_plain_following _ _).trans (ih _)
        | some value => rfl

theorem Program.trace_plain (forgets : traced.Forgets invoke) (p : Program H W α)
    (state : Session H × W) : (trace traced p state).map Run.plain = eval invoke p state := by
  induction p generalizing state with
  | andThen first rest ihFirst ihRest =>
    rw [trace, eval, ← ihFirst]
    cases trace traced first state with
    | none => rfl
    | some run => exact (Run.map_plain_following _ _).trans (ihRest run.answer run.state)
  | hook event args => exact Session.traceDispatch_plain forgets event args _ state
  | nested root body ih =>
    obtain ⟨s, w⟩ := state
    rw [trace, eval, ← ih]
    cases trace traced body (s.enter root, w) with
    | none => rfl
    | some run => rfl
  | _ => rfl

theorem Program.traceInvoke_forgets (code : H → List Value → Program H W (Option Value))
    (fuel : Nat) : (traceInvoke code fuel).Forgets (Program.invoke code fuel) := by
  induction fuel with
  | zero => exact fun _ _ _ => rfl
  | succ fuel ih => exact fun handler args state => trace_plain ih (code handler args) state

/-- Tracing a program does not change what it does. -/
theorem Program.trace?_plain (code : H → List Value → Program H W (Option Value)) (fuel : Nat)
    (p : Program H W α) (state : Session H × W) :
    (trace? code fuel p state).map Run.plain = run? code fuel p state :=
  trace_plain (traceInvoke_forgets code fuel) p state

theorem Program.run?_eq_some_iff {code : H → List Value → Program H W (Option Value)} {fuel : Nat}
    {p : Program H W α} {state last : Session H × W} {answer : α} :
    run? code fuel p state = some (answer, last) ↔
      ∃ events, trace? code fuel p state = some ⟨answer, last, events⟩ := by
  rw [← trace?_plain, Option.map_eq_some_iff]
  constructor
  · rintro ⟨run, traced, same⟩
    cases same
    exact ⟨run.events, traced⟩
  · rintro ⟨events, traced⟩
    exact ⟨_, traced, rfl⟩

end Forget

/-- Programs that call no hook, and so come to an end whatever the handlers do. -/
def Program.HookFree : {α : Type} → Program H W α → Prop
  | _, .hook _ _ => False
  | _, .andThen first rest => first.HookFree ∧ ∀ answer, (rest answer).HookFree
  | _, .nested _ body => body.HookFree
  | _, _ => True

theorem Program.HookFree.exists_trace {p : Program H W α} (free : p.HookFree)
    (invoke : TracedInvoke H W) (state : Session H × W) :
    ∃ run, trace invoke p state = some run := by
  induction p generalizing state with
  | hook event args => exact free.elim
  | andThen first rest ihFirst ihRest =>
    obtain ⟨early, ranFirst⟩ := ihFirst free.1 state
    obtain ⟨late, ranRest⟩ := ihRest early.answer (free.2 early.answer) early.state
    refine ⟨late.following early.events, Option.bind_eq_some_iff.mpr ⟨early, ranFirst, ?_⟩⟩
    exact Option.map_eq_some_iff.mpr ⟨late, ranRest, rfl⟩
  | nested root body ih =>
    obtain ⟨inner, ranBody⟩ := ih free (state.1.enter root, state.2)
    exact ⟨_, Option.map_eq_some_iff.mpr ⟨inner, ranBody, rfl⟩⟩
  | _ => exact ⟨_, rfl⟩

/-- Every finished run of a handler is a path. -/
def TracedInvoke.Walks (traced : TracedInvoke H W) : Prop :=
  ∀ handler args state run, traced handler args state = some run →
    Path Session.Step state.1 run.events run.state.1

section Path
variable {traced : TracedInvoke H W}

theorem Session.path_offer (walks : traced.Walks) {event : String} {args : List Value}
    {p : Plugin H} {state : Session H × W} {turn : Run H W (Option Value)}
    (offered : offer traced event args p state = some turn) :
    Path Step state.1 turn.events turn.state.1 := by
  have checked : Step state.1 (.checked p state.1.version) (state.1.check p).2 := .check p rfl
  rcases offer_eq_some_iff.mp offered with ⟨_, rfl⟩ | ⟨handler, run, _, ran, rfl⟩
  · exact .single checked
  · exact .cons checked (walks handler args _ run ran)

theorem Session.path_traceDispatch (walks : traced.Walks) {event : String} {args : List Value}
    {plugins : List (Plugin H)} {state : Session H × W} {run : Run H W (Option Value)}
    (ran : traceDispatch traced event args plugins state = some run) :
    Path Step state.1 run.events run.state.1 := by
  induction plugins generalizing state run with
  | nil =>
    cases ran
    exact .nil state.1
  | cons p rest ih =>
    obtain ⟨turn, offered, goesOn⟩ := Option.bind_eq_some_iff.mp ran
    have first := path_offer walks offered
    cases truthy : turn.answer.filter Value.isTruthy with
    | some value =>
      simp only [truthy] at goesOn
      cases goesOn
      exact first
    | none =>
      simp only [truthy] at goesOn
      obtain ⟨later, ranLater, rfl⟩ := Option.map_eq_some_iff.mp goesOn
      exact first.append (ih ranLater)

theorem Program.path_trace (walks : traced.Walks) {p : Program H W α} {state : Session H × W}
    {run : Run H W α} (ran : trace traced p state = some run) :
    Path Session.Step state.1 run.events run.state.1 := by
  induction p generalizing state with
  | done =>
    cases ran
    exact .nil _
  | andThen first rest ihFirst ihRest =>
    obtain ⟨early, ranFirst, goesOn⟩ := Option.bind_eq_some_iff.mp ran
    obtain ⟨late, ranRest, rfl⟩ := Option.map_eq_some_iff.mp goesOn
    exact (ihFirst ranFirst).append (ihRest early.answer ranRest)
  | world | session =>
    cases ran
    exact .nil _
  | enter root =>
    cases ran
    exact .single (.enter _ root)
  | reset =>
    cases ran
    exact .single (.reset rfl)
  | modifyRoot f =>
    cases ran
    exact .single (.modify _ f)
  | warn text =>
    cases ran
    exact .single (.warn _ text)
  | check p =>
    cases ran
    exact .single (.check p rfl)
  | hook event args => exact Session.path_traceDispatch walks ran
  | nested root body ih =>
    obtain ⟨inner, ranBody, rfl⟩ := Option.map_eq_some_iff.mp ran
    have inside := ih ranBody
    exact .cons (.enter _ root) (inside.append (Session.path_unwinding _ _))

theorem Program.traceInvoke_walks (code : H → List Value → Program H W (Option Value))
    (fuel : Nat) : (traceInvoke code fuel).Walks := by
  induction fuel with
  | zero =>
    intro handler args state run ran
    cases ran
  | succ fuel ih => exact fun handler args state run ran => path_trace ih ran

/-- Whatever a program does to its session, it does in the steps of its trace. -/
theorem Program.path_trace? {code : H → List Value → Program H W (Option Value)} {fuel : Nat}
    {p : Program H W α} {state : Session H × W} {run : Run H W α}
    (ran : trace? code fuel p state = some run) :
    Path Session.Step state.1 run.events run.state.1 :=
  path_trace (traceInvoke_walks code fuel) ran

end Path

end LispFrontEnd
