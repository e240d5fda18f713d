/-! # Interned names

A pool hands out one number per distinct text, in order of first use; it holds no text twice. A name
is that number, so two names of one pool are equal exactly when their texts are; their order is the
order of the texts and not of the numbers.
-/

namespace LispFrontEnd

/-- A text of a pool, known by its position there. -/
structure Name where
  index : Nat
deriving DecidableEq

structure NamePool where
  texts : Array String := #[]
  distinct : texts.toList.Nodup := by exact List.nodup_nil

namespace NamePool

theorem distinct_push (pool : NamePool) {text : String} (fresh : pool.texts.idxOf? text = none) :
    (pool.texts.push text).toList.Nodup := by
  have absent : text ∉ pool.texts.toList := by
    simpa using Array.idxOf?_eq_none_iff.mp fresh
  rw [Array.toList_push]
  exact List.nodup_append.mpr ⟨pool.distinct, by simp, by grind⟩

/-- The name of a text: the old one if the pool has the text already. -/
def intern (pool : NamePool) (text : String) : Name × NamePool :=
  match fresh : pool.texts.idxOf? text with
  | some index => (⟨index⟩, pool)
  | none => (⟨pool.texts.size⟩, ⟨pool.texts.push text, pool.distinct_push fresh⟩)

/-- A name is a place in the pool that hands it out, and pools only grow. -/
theorem index_intern_lt (pool : NamePool) (text : String) :
    (pool.intern text).1.index < (pool.intern text).2.texts.size ∧
      pool.texts.size ≤ (pool.intern text).2.texts.size := by
  unfold intern
  split
  · rename_i index found
    rw [Array.idxOf?_eq_map_finIdxOf?_val] at found
    obtain ⟨place, _, rfl⟩ := Option.map_eq_some_iff.mp found
    exact ⟨place.isLt, Nat.le_refl _⟩
  · simp

def text (pool : NamePool) (name : Name) : String :=
  pool.texts[name.index]?.getD ""

/-- Names are ordered by their texts, code point by code point. -/
def compareText (pool : NamePool) (a b : Name) : Ordering :=
  if a = b then .eq else compare (pool.text a) (pool.text b)

end NamePool

end LispFrontEnd
