import LispFrontEnd.Table.ChainCursor
import Mathlib.Data.List.Chain
import Mathlib.Data.List.Nodup

/-! # The levels of a chain of delegates

The levels of a table are the table, its delegate, the delegate of that, and so on, up to the end of
the chain or to the first table that comes a second time. A lookup asks exactly these tables, the
nearest first.
-/

namespace LispFrontEnd.Heap

/-- The levels from a table on when others have been visited before. -/
def levelsPast (h : Heap) (visited : List Nat) (t : Table) : List Table :=
  match next : ChainCursor.nextLevel? h t (t.id :: visited) with
  | none => [t]
  | some d =>
    have := ChainCursor.levelsLeft_lt next
    t :: levelsPast h (t.id :: visited) d
termination_by ChainCursor.levelsLeft h t (t.id :: visited)

def levels (h : Heap) (t : Table) : List Table := h.levelsPast [] t

/-- What makes a list of tables the levels of its first one. -/
structure IsLevels (h : Heap) (t : Table) (levels : List Table) : Prop where
  starts : levels.head? = some t
  follows : levels.IsChain fun a b => h.delegate a = some b
  distinct : (levels.map (·.id)).Nodup
  /-- The delegate of the last level, if there is one, is a level. -/
  closes : ∀ last ∈ levels.getLast?, ∀ d ∈ h.delegate last, d.id ∈ levels.map (·.id)

variable {h : Heap} {t d : Table} {visited : List Nat}

theorem nextLevel?_eq_some_iff : ChainCursor.nextLevel? h t visited = some d ↔
    h.delegate t = some d ∧ d.id ∉ visited := by
  rw [ChainCursor.nextLevel?, Option.filter_eq_some_iff, decide_eq_true_eq]

/-- A chain ends without a delegate or before a table that has been visited. -/
theorem nextLevel?_eq_none_iff : ChainCursor.nextLevel? h t visited = none ↔
    ∀ d, h.delegate t = some d → d.id ∈ visited := by
  rw [Option.eq_none_iff_forall_ne_some]
  constructor
  · intro none d found
    by_contra fresh
    exact none d (nextLevel?_eq_some_iff.mpr ⟨found, fresh⟩)
  · intro closes d next
    obtain ⟨found, fresh⟩ := nextLevel?_eq_some_iff.mp next
    exact fresh (closes d found)

theorem levelsPast_of_none (last : ChainCursor.nextLevel? h t (t.id :: visited) = none) :
    h.levelsPast visited t = [t] := by
  rw [levelsPast]
  split
  · rfl
  · rename_i d next
    rw [last] at next
    cases next

theorem levelsPast_of_some (next : ChainCursor.nextLevel? h t (t.id :: visited) = some d) :
    h.levelsPast visited t = t :: h.levelsPast (t.id :: visited) d := by
  rw [levelsPast]
  split
  · rename_i last
    rw [last] at next
    cases next
  · rename_i e other
    rw [next] at other
    cases other
    rfl

theorem head?_levelsPast (h : Heap) (visited : List Nat) (t : Table) :
    (h.levelsPast visited t).head? = some t := by
  rw [levelsPast]
  split <;> rfl

theorem levelsPast_follows (h : Heap) (visited : List Nat) (t : Table) :
    (h.levelsPast visited t).IsChain fun a b => h.delegate a = some b := by
  fun_induction levelsPast h visited t with
  | case1 visited t last => exact List.isChain_singleton t
  | case2 visited t d next lower ih =>
    refine List.isChain_cons.mpr ⟨fun first found => ?_, ih⟩
    rw [head?_levelsPast] at found
    cases found
    exact (nextLevel?_eq_some_iff.mp next).1

theorem levelsPast_distinct (fresh : t.id ∉ visited) :
    ((h.levelsPast visited t).map (·.id)).Nodup ∧
      ∀ level ∈ h.levelsPast visited t, level.id ∉ visited := by
  fun_induction levelsPast h visited t with
  | case1 visited t last => exact ⟨List.nodup_singleton _, by simpa using fresh⟩
  | case2 visited t d next lower ih =>
    obtain ⟨nodup, apart⟩ := ih (nextLevel?_eq_some_iff.mp next).2
    constructor
    · refine List.nodup_cons.mpr ⟨fun again => ?_, nodup⟩
      obtain ⟨level, member, same⟩ := List.mem_map.mp again
      exact apart level member (same ▸ List.mem_cons_self)
    · intro level member
      rcases List.mem_cons.mp member with rfl | behind
      · exact fresh
      · exact fun old => apart level behind (List.mem_cons_of_mem _ old)

theorem levelsPast_closes (h : Heap) (visited : List Nat) (t : Table) :
    ∀ last ∈ (h.levelsPast visited t).getLast?, ∀ d ∈ h.delegate last,
      d.id ∈ visited ∨ d.id ∈ (h.levelsPast visited t).map (·.id) := by
  fun_induction levelsPast h visited t with
  | case1 visited t last =>
    intro level found d delegate
    cases found
    have member := nextLevel?_eq_none_iff.mp last d delegate
    rw [List.map_singleton, List.mem_singleton]
    exact (List.mem_cons.mp member).symm
  | case2 visited t e next lower ih =>
    intro level found d delegate
    have nonempty : h.levelsPast (t.id :: visited) e ≠ [] := by
      intro empty
      have head := h.head?_levelsPast (t.id :: visited) e
      rw [empty] at head
      cases head
    rw [List.getLast?_cons_of_ne_nil nonempty] at found
    rw [List.map_cons]
    rcases ih level found d delegate with old | level
    · rcases List.mem_cons.mp old with same | old
      · exact .inr (same ▸ List.mem_cons_self)
      · exact .inl old
    · exact .inr (List.mem_cons_of_mem _ level)

theorem isLevels (h : Heap) (t : Table) : h.IsLevels t (h.levels t) where
  starts := h.head?_levelsPast [] t
  follows := h.levelsPast_follows [] t
  distinct := (levelsPast_distinct List.not_mem_nil).1
  closes last found d delegate :=
    (h.levelsPast_closes [] t last found d delegate).resolve_left List.not_mem_nil

theorem lookupPast?_of_mem (key : Key) (seen : t.id ∈ visited) :
    h.lookupPast? key visited t = none := by
  rw [lookupPast?, dif_pos seen]

theorem lookupPast?_eq_findSome? (key : Key) (fresh : t.id ∉ visited) :
    h.lookupPast? key visited t = (h.levelsPast visited t).findSome? (h.get? · key) := by
  fun_induction lookupPast? h key visited t with
  | case1 visited t seen => exact absurd seen fresh
  | case2 visited t _ value found =>
    rw [levelsPast]
    split <;> rw [List.findSome?_cons, found]
  | case3 visited t _ absent last =>
    have none : ChainCursor.nextLevel? h t (t.id :: visited) = none :=
      nextLevel?_eq_none_iff.mpr fun d found => by
        rw [last] at found
        cases found
    rw [levelsPast_of_none none, List.findSome?_cons, absent]
    rfl
  | case4 visited t _ absent d next lower ih =>
    by_cases seen : d.id ∈ t.id :: visited
    · have none : ChainCursor.nextLevel? h t (t.id :: visited) = none :=
        nextLevel?_eq_none_iff.mpr fun e found => by
          rw [next] at found
          cases found
          exact seen
      rw [levelsPast_of_none none, List.findSome?_cons, absent, lookupPast?_of_mem key seen]
      rfl
    · rw [levelsPast_of_some (nextLevel?_eq_some_iff.mpr ⟨next, seen⟩), List.findSome?_cons, absent]
      exact ih seen

/-- A lookup finds the value of the nearest level that has the key. -/
theorem lookup?_eq_findSome? (h : Heap) (t : Table) (key : Key) :
    h.lookup? t key = (h.levels t).findSome? (h.get? · key) :=
  lookupPast?_eq_findSome? key List.not_mem_nil

end LispFrontEnd.Heap
