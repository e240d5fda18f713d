import LispFrontEnd.Proofs.Compile.Trace
import Mathlib.Data.List.Infix

/-! # Entering and leaving roots as brackets

In a trace that never leaves more roots than it has entered, and ends as deep as it began, every
reset has the enter that it matches: `Balanced` reads the trace so, and lists the changes made to
the root that is live outside all brackets. A session that goes through such a trace ends with its
waiting roots as they were, and with its live root changed by these changes alone, in their order.

The reset of a bracket answers the root of its enter with the changes made while that root was live.
Only at the bottom does any other reset stand outside of all brackets; it answers none, and changes
nothing.
-/

namespace LispFrontEnd

variable {H W α : Type}

def Root.changed (root : Root H) (changes : List (Root H → Root H)) : Root H :=
  changes.foldl (fun root f => f root) root

namespace Event

/-- Events that do not concern the roots of a session. -/
def IsQuiet : Event H → Prop
  | .warned _ => True
  | .checked _ _ => True
  | _ => False

/-- The height after an event, counted from a fixed depth; none when the event goes below it. -/
def climb? (n : Nat) : Event H → Option Nat
  | .entered _ => some (n + 1)
  | .reset (some _) => match n with
    | 0 => none
    | m + 1 => some m
  | _ => some n

def climbAll? (n : Nat) (events : List (Event H)) : Option Nat := events.foldlM climb? n

theorem climbAll?_cons (n : Nat) (event : Event H) (events : List (Event H)) :
    climbAll? n (event :: events) = (event.climb? n).bind (climbAll? · events) := rfl

theorem climbAll?_append (n : Nat) (first second : List (Event H)) :
    climbAll? n (first ++ second) = (climbAll? n first).bind (climbAll? · second) :=
  List.foldlM_append

theorem climb?_of_isQuiet {event : Event H} (quiet : event.IsQuiet) (n : Nat) :
    event.climb? n = some n := by
  cases event with
  | warned | checked => rfl
  | _ => exact quiet.elim

/-- A trace with matching brackets and `depth` roots waiting at both ends, and the changes it makes
outside of the brackets. -/
inductive Balanced : Nat → List (Event H) → List (Root H → Root H) → Prop where
  | nil {depth : Nat} : Balanced depth [] []
  | modified {depth : Nat} {f : Root H → Root H} {events : List (Event H)}
      {changes : List (Root H → Root H)} (rest : Balanced depth events changes) :
    Balanced depth (.modified f :: events) (f :: changes)
  | quiet {depth : Nat} {event : Event H} {events : List (Event H)}
      {changes : List (Root H → Root H)} (quiet : event.IsQuiet)
      (rest : Balanced depth events changes) :
    Balanced depth (event :: events) changes
  | bottom {events : List (Event H)} {changes : List (Root H → Root H)}
      (rest : Balanced 0 events changes) :
    Balanced 0 (.reset none :: events) changes
  | bracket {depth : Nat} {root : Root H} {inner events : List (Event H)}
      {own changes : List (Root H → Root H)} (inside : Balanced (depth + 1) inner own)
      (rest : Balanced depth events changes) :
    Balanced depth (.entered root :: inner ++ .reset (some (root.changed own)) :: events) changes

theorem Balanced.climbAll? {depth : Nat} {events : List (Event H)}
    {changes : List (Root H → Root H)} (balanced : Balanced depth events changes) (n : Nat) :
    climbAll? n events = some n := by
  induction balanced generalizing n with
  | nil => rfl
  | modified _ ih => exact ih n
  | quiet quiet _ ih =>
    rw [climbAll?_cons, climb?_of_isQuiet quiet]
    exact ih n
  | bottom _ ih => exact ih n
  | bracket _ _ ihInside ihRest =>
    rw [climbAll?_append, climbAll?_cons]
    simp only [climb?, Option.bind_some, ihInside]
    exact ihRest n

/-- A trace that goes below its height has a first reset that does so. -/
theorem exists_below {n : Nat} {events : List (Event H)} (falls : climbAll? n events = none) :
    ∃ front root rest, events = front ++ .reset (some root) :: rest ∧
      climbAll? n front = some 0 := by
  induction events generalizing n with
  | nil => cases falls
  | cons event rest ih =>
    rw [climbAll?_cons] at falls
    cases up : event.climb? n with
    | none =>
      cases event with
      | reset left =>
        cases left with
        | none => cases up
        | some root =>
          cases n with
          | zero => exact ⟨[], root, rest, rfl, rfl⟩
          | succ m => cases up
      | _ => cases up
    | some m =>
      rw [up, Option.bind_some] at falls
      obtain ⟨front, root, behind, rfl, closes⟩ := ih falls
      refine ⟨event :: front, root, behind, rfl, ?_⟩
      rw [climbAll?_cons, up]
      exact closes

/-- A trace that ends below the height where it began has a first reset that brings it there. -/
theorem exists_return {n k m : Nat} {events : List (Event H)}
    (climbs : climbAll? (n + 1 + k) events = some m) (ends : m ≤ n) :
    ∃ front root rest, events = front ++ .reset (some root) :: rest ∧
      climbAll? k front = some 0 ∧ climbAll? n rest = some m := by
  induction events generalizing k with
  | nil =>
    cases climbs
    omega
  | cons event rest ih =>
    have further (k' : Nat) (up : event.climb? k = some k')
        (climbs : climbAll? (n + 1 + k') rest = some m) :
        ∃ front root behind, event :: rest = front ++ .reset (some root) :: behind ∧
          climbAll? k front = some 0 ∧ climbAll? n behind = some m := by
      obtain ⟨front, root, behind, rfl, closes, after⟩ := ih climbs
      refine ⟨event :: front, root, behind, rfl, ?_, after⟩
      rw [climbAll?_cons, up]
      exact closes
    cases event with
    | entered root => exact further (k + 1) rfl climbs
    | reset left =>
      cases left with
      | none => exact further k rfl climbs
      | some root =>
        cases k with
        | zero => exact ⟨[], root, rest, rfl, rfl, climbs⟩
        | succ k => exact further k rfl climbs
    | _ => exact further k rfl climbs

end Event

namespace Session

open Event

variable {s next last : Session H} {events : List (Event H)}

theorem reset_eq_some {root : Root H} (leaves : s.reset = (some root, next)) :
    root = s.root ∧ s.saved = next.root :: next.saved := by
  rw [reset] at leaves
  cases saved : s.saved with
  | nil =>
    rw [saved] at leaves
    cases leaves
  | cons below waiting =>
    rw [saved] at leaves
    cases leaves
    exact ⟨rfl, rfl⟩

theorem reset_eq_none (stays : s.reset = (none, next)) : s.saved = [] ∧ next = s := by
  rw [reset] at stays
  cases saved : s.saved with
  | nil =>
    rw [saved] at stays
    cases stays
    exact ⟨rfl, rfl⟩
  | cons below waiting =>
    rw [saved] at stays
    cases stays

theorem check_root (s : Session H) (p : Plugin H) :
    (s.check p).2.root = s.root ∧ (s.check p).2.saved = s.saved := by
  rw [check]
  split
  · exact ⟨rfl, rfl⟩
  · split <;> exact ⟨rfl, rfl⟩

theorem Step.quiet {event : Event H} (step : Step s event next) (quiet : event.IsQuiet) :
    next.root = s.root ∧ next.saved = s.saved := by
  cases event with
  | warned text =>
    cases step
    exact ⟨rfl, rfl⟩
  | checked p version =>
    cases step
    exact s.check_root p
  | _ => exact quiet.elim

/-- The height of a trace is the difference of the depths. -/
theorem Step.depth {event : Event H} (step : Step s event next) {n m : Nat}
    (climbs : event.climb? n = some m) : next.depth + n = s.depth + m := by
  have kept (quiet : event.IsQuiet) : next.depth + n = s.depth + m := by
    rw [climb?_of_isQuiet quiet] at climbs
    rw [Session.depth, (step.quiet quiet).2, Option.some.inj climbs]
    rfl
  cases event with
  | entered root =>
    cases step
    cases climbs
    simp only [Session.depth, Session.enter, List.length_cons]
    omega
  | modified f =>
    cases step
    cases climbs
    rfl
  | warned | checked => exact kept trivial
  | reset left =>
    cases step with
    | reset leaves =>
      cases left with
      | none =>
        cases climbs
        rw [(reset_eq_none leaves).2]
      | some root =>
        cases n with
        | zero => cases climbs
        | succ n =>
          cases climbs
          simp only [Session.depth, (reset_eq_some leaves).2, List.length_cons]
          omega

end Session

namespace Path

open Session Event

variable {s last : Session H} {events : List (Event H)}

theorem depth (path : Path Step s events last) {n m : Nat}
    (climbs : climbAll? n events = some m) : last.depth + n = s.depth + m := by
  induction path generalizing n with
  | nil =>
    cases climbs
    rfl
  | cons step _ ih =>
    obtain ⟨k, up, climbs⟩ := Option.bind_eq_some_iff.mp climbs
    have first := step.depth up
    have later := ih climbs
    omega

/-- A session goes through matching brackets with only the changes outside of them. -/
theorem restores {depth : Nat} {changes : List (Root H → Root H)}
    (path : Path Step s events last) (balanced : Balanced depth events changes) :
    last.root = s.root.changed changes ∧ last.saved = s.saved := by
  induction balanced generalizing s last with
  | nil =>
    cases path
    exact ⟨rfl, rfl⟩
  | modified _ ih =>
    cases path with
    | cons step path =>
      cases step
      exact ih path
  | quiet quiet _ ih =>
    cases path with
    | cons step path =>
      obtain ⟨sameRoot, sameSaved⟩ := step.quiet quiet
      obtain ⟨root, saved⟩ := ih path
      exact ⟨sameRoot ▸ root, saved.trans sameSaved⟩
  | bottom _ ih =>
    cases path with
    | cons step path =>
      cases step with
      | reset stays =>
        obtain ⟨_, rfl⟩ := reset_eq_none stays
        exact ih path
  | bracket _ _ ihInside ihRest =>
    obtain ⟨before, pathInside, pathRest⟩ := Path.append_iff.mp path
    cases pathInside with
    | cons enter pathInside =>
      cases enter
      cases pathRest with
      | cons leave pathRest =>
        cases leave with
        | reset leaves =>
          obtain ⟨_, waiting⟩ := ihInside pathInside
          obtain ⟨sameRoot, sameSaved⟩ :=
            List.cons.inj (waiting.symm.trans (reset_eq_some leaves).2)
          obtain ⟨root, saved⟩ := ihRest pathRest
          exact ⟨sameRoot ▸ root, saved.trans sameSaved.symm⟩

/-- A session that goes through a trace without going below its depth, and ends at that depth, has
gone through matching brackets. -/
theorem exists_balanced (path : Path Step s events last)
    (closed : climbAll? 0 events = some 0) : ∃ changes, Balanced s.depth events changes := by
  induction length : events.length using Nat.strongRecOn generalizing s events last with
  | ind n ih =>
    cases path with
    | nil => exact ⟨[], .nil⟩
    | @cons _ middle _ event rest step path =>
      have shorter : rest.length < n := by
        rw [← length, List.length_cons]
        omega
      have pass (quiet : event.IsQuiet) :
          ∃ changes, Balanced s.depth (event :: rest) changes := by
        rw [climbAll?_cons, climb?_of_isQuiet quiet] at closed
        obtain ⟨changes, balanced⟩ := ih _ shorter path closed rfl
        have sameDepth : middle.depth = s.depth := congrArg List.length (step.quiet quiet).2
        exact ⟨changes, (sameDepth ▸ balanced).quiet quiet⟩
      cases event with
      | warned | checked => exact pass trivial
      | modified f =>
        cases step
        obtain ⟨changes, balanced⟩ := ih _ shorter path closed rfl
        exact ⟨f :: changes, balanced.modified⟩
      | reset left =>
        cases left with
        | some root => cases closed
        | none =>
          cases step with
          | reset stays =>
            obtain ⟨empty, rfl⟩ := reset_eq_none stays
            obtain ⟨changes, balanced⟩ := ih _ shorter path closed rfl
            have atBottom : middle.depth = 0 := congrArg List.length empty
            rw [atBottom] at balanced ⊢
            exact ⟨changes, balanced.bottom⟩
      | entered root =>
        -- The enter is matched by the first reset that comes back to the depth of the start.
        have climbs : climbAll? (0 + 1 + 0) rest = some 0 := closed
        obtain ⟨inner, left, behind, rfl, inside, outside⟩ := exists_return climbs (Nat.le_refl 0)
        obtain ⟨before, pathInside, path⟩ := Path.append_iff.mp path
        rw [List.length_append, List.length_cons] at shorter
        cases path with
        | @cons _ after _ _ _ leave pathRest =>
          cases step
          cases leave with
          | reset leaves =>
            obtain ⟨own, balancedInside⟩ := ih _ (by omega) pathInside inside rfl
            obtain ⟨changes, balanced⟩ := ih _ (by omega) pathRest outside rfl
            obtain ⟨live, waiting⟩ := pathInside.restores balancedInside
            obtain ⟨rfl, back⟩ := reset_eq_some leaves
            have sameSaved := (List.cons.inj (waiting.symm.trans back)).2
            have sameDepth : after.depth = s.depth := congrArg List.length sameSaved.symm
            rw [live]
            exact ⟨changes, .bracket balancedInside (sameDepth ▸ balanced)⟩

end Path

namespace Session

open Event

variable {s last : Session H} {events : List (Event H)}

/-- On the way through a trace no fewer than `depth` roots are waiting. -/
def KeepsDepth (s : Session H) (depth : Nat) (events : List (Event H)) : Prop :=
  ∀ front middle, front <+: events → Path Step s front middle → depth ≤ middle.depth

theorem keepsDepth_iff (path : Path Step s events last) {depth n : Nat}
    (height : depth + n = s.depth) :
    s.KeepsDepth depth events ↔ (climbAll? n events).isSome = true := by
  constructor
  · intro keeps
    rw [Option.isSome_iff_ne_none]
    intro falls
    obtain ⟨front, root, rest, rfl, closes⟩ := exists_below falls
    obtain ⟨middle, pathFront, path⟩ := Path.append_iff.mp path
    cases path with
    | @cons _ below _ _ _ leave _ =>
      have prefixed :
          front ++ [.reset (some root)] <+: front ++ .reset (some root) :: rest := by simp
      have least := keeps _ below prefixed (pathFront.append (.single leave))
      have atDepth := pathFront.depth closes
      cases leave with
      | reset leaves =>
        have length := congrArg List.length (reset_eq_some leaves).2
        rw [List.length_cons] at length
        simp only [Session.depth] at *
        omega
  · intro climbs front middle isFront walked
    obtain ⟨rest, rfl⟩ := isFront
    obtain ⟨m, climbsAll⟩ := Option.isSome_iff_exists.mp climbs
    rw [climbAll?_append] at climbsAll
    obtain ⟨k, climbsFront, _⟩ := Option.bind_eq_some_iff.mp climbsAll
    have atDepth := walked.depth climbsFront
    omega

end Session

namespace Program

open Session Event

/-- A program that ends at its first depth and never goes below it leaves the waiting roots as they
were and the live root with its own changes. -/
theorem run?_balanced {code : H → List Value → Program H W (Option Value)} {fuel : Nat}
    {p : Program H W α} {s : Session H} {w : W}
    (ends : p.HookFree ∨ (run? code fuel p (s, w)).isSome)
    (level : ∀ run, trace? code fuel p (s, w) = some run →
      s.KeepsDepth s.depth run.events ∧ run.state.1.depth = s.depth) :
    (∃ answer last world events changes, run? code fuel p (s, w) = some (answer, last, world) ∧
      trace? code fuel p (s, w) = some ⟨answer, (last, world), events⟩ ∧
      Balanced s.depth events changes ∧ last.root = s.root.changed changes ∧
      last.saved = s.saved) ∧
    ∀ bottom : Session H, bottom.depth = 0 → bottom.reset = (none, bottom) := by
  have traced : ∃ run, trace? code fuel p (s, w) = some run := by
    rcases ends with free | finished
    · exact free.exists_trace (traceInvoke code fuel) (s, w)
    · obtain ⟨⟨answer, last⟩, ran⟩ := Option.isSome_iff_exists.mp finished
      obtain ⟨events, traced⟩ := run?_eq_some_iff.mp ran
      exact ⟨_, traced⟩
  constructor
  · obtain ⟨⟨answer, ⟨last, world⟩, events⟩, traced⟩ := traced
    have path : Path Step s events last := path_trace? traced
    obtain ⟨keeps, back⟩ : s.KeepsDepth s.depth events ∧ last.depth = s.depth := level _ traced
    obtain ⟨n, climbs⟩ := Option.isSome_iff_exists.mp
      ((keepsDepth_iff path (Nat.add_zero _)).mp keeps)
    have height := path.depth climbs
    obtain rfl : n = 0 := by omega
    obtain ⟨changes, balanced⟩ := path.exists_balanced climbs
    obtain ⟨root, saved⟩ := path.restores balanced
    have ran := run?_eq_some_iff.mpr ⟨events, traced⟩
    exact ⟨answer, last, world, events, changes, ran, traced, balanced, root, saved⟩
  · intro bottom empty
    rw [Session.reset, List.eq_nil_of_length_eq_zero empty]

def noHandlers (handler : Empty) (_ : List Value) : Program Empty Unit (Option Value) :=
  nomatch handler

def emit (line : String) : Program Empty Unit Unit :=
  .modifyRoot fun root => { root with chunk := root.chunk.emit line }

/-- Leaves one root by a reset and two at the end of a nested body. -/
def twoBrackets : Program Empty Unit (Option (Root Empty)) := do
  emit "a"
  .enter {}
  emit "b"
  .nested {} do
    emit "c"
    .enter {}
    emit "d"
  let left ← .reset
  emit "e"
  return left

def aboveBottom : Session Empty where
  root := { chunk := ⟨["outer"]⟩ }
  saved := [{ chunk := ⟨["bottom"]⟩ }]

theorem twoBrackets_balanced :
    (run? noHandlers 0 twoBrackets (aboveBottom, ())).map
        (fun (left, last, _) => (left.map (·.chunk.lines), last.root.chunk.lines)) =
      some (some ["b"], ["outer", "a", "e"]) ∧
    ∃ answer last world events changes,
      run? noHandlers 0 twoBrackets (aboveBottom, ()) = some (answer, last, world) ∧
      trace? noHandlers 0 twoBrackets (aboveBottom, ()) = some ⟨answer, (last, world), events⟩ ∧
      Balanced 1 events changes ∧ last.root = aboveBottom.root.changed changes ∧
      last.saved = aboveBottom.saved := by
  refine ⟨rfl, (run?_balanced (.inr rfl) ?_).1⟩
  intro run traced
  have height : 1 + 0 = aboveBottom.depth := rfl
  have path := path_trace? traced
  cases traced
  exact ⟨(keepsDepth_iff path height).mpr rfl, rfl⟩

end Program

end LispFrontEnd
