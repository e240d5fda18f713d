import LispFrontEnd.Compile.Session

/-! # Programs on a session

Event handlers and the bodies of nested compiles are programs: they are built from the operations
of a session, from steps in the world around it, and from sequencing. A program may announce events
whose handlers are programs again; running one takes fuel for the depth of such calls, and has no
answer when that is used up.
-/

namespace LispFrontEnd

/-- A program on a session with handlers `H` and a world `W`, which answers an `α`. -/
inductive Program (H W : Type) : Type → Type 1 where
  | done {α : Type} (answer : α) : Program H W α
  | andThen {α β : Type} (first : Program H W α) (rest : α → Program H W β) : Program H W β
  | world {α : Type} (step : W → α × W) : Program H W α
  | session : Program H W (Session H)
  | enter (root : Root H) : Program H W Unit
  | reset : Program H W (Option (Root H))
  | modifyRoot (f : Root H → Root H) : Program H W Unit
  | warn (text : String) : Program H W Unit
  | check (p : Plugin H) : Program H W Bool
  | hook (event : String) (args : List Value) : Program H W (Option Value)
  /-- Runs a body with a root of its own, and goes back to the roots from before. -/
  | nested {α : Type} (root : Root H) (body : Program H W α) : Program H W α

namespace Program

variable {H W : Type}

instance : Monad (Program H W) where
  pure := .done
  bind := .andThen

/-- Runs a program, given a way to run handlers. -/
def eval (invoke : Invoke H W) {α : Type} :
    Program H W α → Session H × W → Option (α × (Session H × W))
  | .done answer, state => some (answer, state)
  | .andThen first rest, state =>
    match eval invoke first state with
    | none => none
    | some (answer, state) => eval invoke (rest answer) state
  | .world step, (s, w) =>
    let (answer, w) := step w
    some (answer, s, w)
  | .session, (s, w) => some (s, s, w)
  | .enter root, (s, w) => some ((), s.enter root, w)
  | .reset, (s, w) =>
    let (left, s) := s.reset
    some (left, s, w)
  | .modifyRoot f, (s, w) => some ((), s.modifyRoot f, w)
  | .warn text, (s, w) => some ((), s.warn (.message text), w)
  | .check p, (s, w) =>
    let (compatible, s) := s.check p
    some (compatible, s, w)
  | .hook event args, state => Session.hook invoke event args state
  | .nested root body, (s, w) =>
    match eval invoke body (s.enter root, w) with
    | none => none
    | some (answer, after, w) => some (answer, after.unwind s.depth, w)

/-- Runs a handler as the program that it stands for. -/
def invoke (code : H → List Value → Program H W (Option Value)) : Nat → Invoke H W
  | 0 => fun _ _ _ => none
  | fuel + 1 => fun handler args state => eval (invoke code fuel) (code handler args) state

/-- Runs a program whose handlers call handlers at most `fuel` deep. -/
def run? {α : Type} (code : H → List Value → Program H W (Option Value)) (fuel : Nat)
    (p : Program H W α) (state : Session H × W) : Option (α × (Session H × W)) :=
  eval (invoke code fuel) p state

end Program

end LispFrontEnd
