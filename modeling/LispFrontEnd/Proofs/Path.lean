/-! # Labelled steps

Steps of any relation one after the other, with their labels.
-/

namespace LispFrontEnd

/-- Steps one after the other, with their labels. -/
inductive Path {σ ℓ : Type} (step : σ → ℓ → σ → Prop) : σ → List ℓ → σ → Prop where
  | nil (s : σ) : Path step s [] s
  | cons {s next last : σ} {label : ℓ} {labels : List ℓ} (first : step s label next)
      (rest : Path step next labels last) : Path step s (label :: labels) last

namespace Path
variable {σ ℓ : Type} {step : σ → ℓ → σ → Prop} {s next last : σ}

theorem single {label : ℓ} (only : step s label next) : Path step s [label] next :=
  .cons only (.nil next)

theorem append_iff {first second : List ℓ} :
    Path step s (first ++ second) last ↔
      ∃ middle, Path step s first middle ∧ Path step middle second last := by
  constructor
  · intro path
    induction first generalizing s with
    | nil => exact ⟨s, .nil s, path⟩
    | cons label rest ih =>
      cases path with
      | cons first path =>
        obtain ⟨middle, front, back⟩ := ih path
        exact ⟨middle, .cons first front, back⟩
  · rintro ⟨middle, front, back⟩
    induction front with
    | nil => exact back
    | cons first _ ih => exact .cons first (ih back)

theorem append {middle : σ} {first second : List ℓ} (front : Path step s first middle)
    (back : Path step middle second last) : Path step s (first ++ second) last :=
  append_iff.mpr ⟨middle, front, back⟩

end Path

end LispFrontEnd
