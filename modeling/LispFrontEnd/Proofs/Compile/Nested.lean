import LispFrontEnd.Proofs.Compile.Brackets

/-! # What a nested body leaves behind

A nested body that never takes the root of its caller off the stack gives the session back with the
stack of its caller, however many roots it has entered, and with that root changed only while it was
live: its trace, with the resets that follow it, has matching brackets. A body that does take it off
has it for good: a reset of the body has answered that root, and going back to a depth puts no root
on the stack, which may be shorter than before.
-/

namespace LispFrontEnd

open Event

variable {H W α : Type}

namespace Session

theorem depth_reset (s : Session H) : s.reset.2.depth = s.depth - 1 := by
  rw [reset, depth, depth]
  cases saved : s.saved with
  | nil => simp only [saved, List.length_nil]
  | cons below waiting => simp only [List.length_cons, Nat.add_sub_cancel]

theorem depth_unwind (s : Session H) (depth : Nat) :
    (s.unwind depth).depth = min s.depth depth := by
  have steps (n : Nat) : (Nat.repeat (fun s : Session H => s.reset.2) n s).depth = s.depth - n := by
    induction n with
    | zero => rfl
    | succ n ih =>
      rw [Nat.repeat, depth_reset, ih]
      omega
  rw [unwind, steps]
  omega

/-- As many resets as roots are waiting all go down. -/
theorem climbAll?_resets {n : Nat} {s : Session H} (waiting : n ≤ s.depth) :
    climbAll? n (resets n s) = some 0 := by
  induction n generalizing s with
  | zero => rfl
  | succ n ih =>
    have below : n ≤ s.reset.2.depth := by
      rw [depth_reset]
      omega
    rw [resets, climbAll?_cons]
    cases left : s.reset.1 with
    | none =>
      have empty := (reset_eq_none (Prod.ext left rfl)).1
      rw [depth, empty] at waiting
      cases waiting
    | some root => exact ih below

end Session

namespace Program

open Session

variable {code : H → List Value → Program H W (Option Value)} {fuel : Nat} {root : Root H}
  {body : Program H W α} {s after : Session H} {w world : W} {answer : α} {events : List (Event H)}

theorem trace?_nested (ran : trace? code fuel body (s.enter root, w) =
      some ⟨answer, (after, world), events⟩) :
    trace? code fuel (.nested root body) (s, w) =
      some ⟨answer, (after.unwind s.depth, world),
        .entered root :: events ++ after.unwinding s.depth⟩ := by
  change (trace? code fuel body (s.enter root, w)).map _ = _
  rw [ran]
  rfl

/-- The trace of a nested body comes back to its start unless the body goes below it. -/
theorem climbAll?_nested (path : Path Step (s.enter root) events after) {n : Nat}
    (climbs : climbAll? 1 events = some n) :
    climbAll? 0 (.entered root :: events ++ after.unwinding s.depth) = some 0 := by
  have level := path.depth climbs
  have entered : (s.enter root).depth = s.depth + 1 := rfl
  have height : after.depth - s.depth = n := by omega
  rw [climbAll?_append, climbAll?_cons]
  simp only [climb?, Option.bind_some, climbs, Nat.zero_add]
  rw [unwinding, height]
  exact climbAll?_resets (by omega)

/-- A nested body leaves the stack of its caller, with the changes made to its live root, unless it
takes that root off the stack. -/
theorem run?_nested_restores (ran : trace? code fuel body (s.enter root, w) =
      some ⟨answer, (after, world), events⟩) :
    ∃ last, run? code fuel (.nested root body) (s, w) = some (answer, last, world) ∧
      ((s.enter root).KeepsDepth s.depth events ↔
        ∃ changes, Balanced s.depth (.entered root :: events ++ after.unwinding s.depth) changes) ∧
      (∀ changes, Balanced s.depth (.entered root :: events ++ after.unwinding s.depth) changes →
        last.root = s.root.changed changes ∧ last.saved = s.saved) ∧
      (¬ (s.enter root).KeepsDepth s.depth events → last.depth ≤ s.depth ∧
        ∃ front changes rest, events = front ++ .reset (some (s.root.changed changes)) :: rest ∧
          Balanced s.depth (.entered root :: front) changes) := by
  have path : Path Step (s.enter root) events after := path_trace? ran
  have traced := trace?_nested ran
  have outer : Path Step s (.entered root :: events ++ after.unwinding s.depth)
      (after.unwind s.depth) := path_trace? traced
  have keeps_iff : (s.enter root).KeepsDepth s.depth events ↔
      (climbAll? 1 events).isSome = true := keepsDepth_iff path rfl
  refine ⟨after.unwind s.depth, run?_eq_some_iff.mpr ⟨_, traced⟩, ⟨fun keeps => ?_, ?_⟩,
    fun _ => outer.restores, fun falls => ⟨?_, ?_⟩⟩
  · obtain ⟨n, climbs⟩ := Option.isSome_iff_exists.mp (keeps_iff.mp keeps)
    exact outer.exists_balanced (climbAll?_nested path climbs)
  · rintro ⟨changes, balanced⟩
    have closed := balanced.climbAll? 0
    rw [List.cons_append, climbAll?_cons, climb?, Option.bind_some, climbAll?_append] at closed
    obtain ⟨n, climbs, _⟩ := Option.bind_eq_some_iff.mp closed
    exact keeps_iff.mpr (Option.isSome_iff_exists.mpr ⟨n, climbs⟩)
  · rw [depth_unwind]
    exact Nat.min_le_right _ _
  · have below : climbAll? 1 events = none := by
      rw [← Option.not_isSome_iff_eq_none]
      exact fun climbs => falls (keeps_iff.mpr climbs)
    obtain ⟨front, left, rest, rfl, closes⟩ := exists_below below
    obtain ⟨middle, pathFront, pathRest⟩ := Path.append_iff.mp path
    have inside : Path Step s (.entered root :: front) middle := .cons (.enter s root) pathFront
    obtain ⟨changes, balanced⟩ := inside.exists_balanced closes
    refine ⟨front, changes, rest, ?_, balanced⟩
    cases pathRest with
    | cons leave _ =>
      cases leave with
      | reset leaves => rw [(reset_eq_some leaves).1, (inside.restores balanced).1]

/-- Goes back to the root of its caller, writes there and enters two roots. -/
def resetAndEnter : Program Empty Unit (Option (Root Empty)) := do
  emit "inner"
  let own ← .reset
  emit "back"
  .enter {}
  emit "left"
  .enter {}
  return own

theorem nested_resetAndEnter_restores :
    ∃ last, run? noHandlers 0 (.nested {} resetAndEnter) (aboveBottom, ()) =
        some (some { chunk := ⟨["inner"]⟩ }, last, ()) ∧
      last.root.chunk = ⟨["outer", "back"]⟩ ∧ last.saved = aboveBottom.saved := by
  have ran : trace? noHandlers 0 resetAndEnter (aboveBottom.enter {}, ()) = some _ := rfl
  obtain ⟨last, nested, keeps_iff, restores, _⟩ := run?_nested_restores ran
  have height : 1 + 1 = (aboveBottom.enter {}).depth := rfl
  obtain ⟨changes, balanced⟩ :=
    keeps_iff.mp ((keepsDepth_iff (path_trace? ran) height).mpr rfl)
  refine ⟨last, nested, ?_, (restores changes balanced).2⟩
  cases nested
  rfl

/-- Takes the root of its caller off the stack. -/
def resetTwice : Program Empty Unit Unit := do
  let _ ← .reset
  let _ ← .reset

/-- A nested body that resets twice leaves the root below that of its caller live. -/
theorem nested_resetTwice_loses :
    ∃ last, run? noHandlers 0 (.nested {} resetTwice) (aboveBottom, ()) = some ((), last, ()) ∧
      last.root.chunk = ⟨["bottom"]⟩ ∧ aboveBottom.root.chunk = ⟨["outer"]⟩ ∧
      last.saved ≠ aboveBottom.saved :=
  ⟨_, rfl, rfl, rfl, List.cons_ne_nil _ _ ∘ Eq.symm⟩

end Program

end LispFrontEnd
