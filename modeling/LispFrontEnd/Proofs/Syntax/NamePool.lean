import LispFrontEnd.Syntax.Name
import Mathlib.Data.List.Nodup
import Mathlib.Data.String.Basic

/-! # Names and their texts

A name that a pool has handed out has the text it was asked for, now and in every later pool. Names
of one pool are told apart by their texts, and comparing them is comparing the texts.
-/

namespace LispFrontEnd.NamePool

variable (pool : NamePool)

theorem eq_of_text_eq {a b : Name} (placeA : a.index < pool.texts.size)
    (placeB : b.index < pool.texts.size) (same : pool.text a = pool.text b) : a = b := by
  simp only [text, Array.getElem?_eq_getElem placeA, Array.getElem?_eq_getElem placeB,
    Option.getD_some] at same
  have inA : a.index < pool.texts.toList.length := placeA
  have inB : b.index < pool.texts.toList.length := placeB
  have texts : pool.texts.toList[a.index] = pool.texts.toList[b.index] := same
  have index : a.index = b.index := pool.distinct.getElem_inj_iff.mp texts
  cases a
  cases b
  exact congrArg Name.mk index

theorem text_intern (text : String) :
    (pool.intern text).2.text (pool.intern text).1 = text := by
  unfold intern
  split
  · rename_i index found
    rw [Array.idxOf?_eq_map_finIdxOf?_val] at found
    obtain ⟨place, first, rfl⟩ := Option.map_eq_some_iff.mp found
    have there : pool.texts[place] = text := (Array.finIdxOf?_eq_some_iff.mp first).1
    simpa [NamePool.text] using there
  · simp [NamePool.text]

theorem text_after_intern {name : Name} (old : name.index < pool.texts.size) (text : String) :
    (pool.intern text).2.text name = pool.text name := by
  unfold intern
  split
  · rfl
  · simp [NamePool.text, Array.getElem?_push, Nat.ne_of_lt old]

theorem compareText_eq_compare (a b : Name) :
    pool.compareText a b = compare (pool.text a) (pool.text b) := by
  rw [compareText]
  split
  · rename_i same
    rw [same, Std.compare_self]
  · rfl

end LispFrontEnd.NamePool
