/-! # Association lists

A finite map as a list of pairs with pairwise different keys, oldest first. Setting a key that is
there keeps its place and the key object of the list. `Distinct` says that the keys are different;
every operation keeps it.
-/

namespace LispFrontEnd

abbrev Assoc (α β : Type) := List (α × β)

namespace Assoc

variable {α β : Type} [BEq α]

def get? (m : Assoc α β) (key : α) : Option β :=
  (m.find? (fun entry => entry.1 == key)).map (·.2)

def contains (m : Assoc α β) (key : α) : Bool :=
  m.any (fun entry => entry.1 == key)

def insert (m : Assoc α β) (key : α) (value : β) : Assoc α β :=
  match m with
  | [] => [(key, value)]
  | entry :: rest =>
    if entry.1 == key then (entry.1, value) :: rest else entry :: insert rest key value

def erase (m : Assoc α β) (key : α) : Assoc α β :=
  m.filter (fun entry => !(entry.1 == key))

def keys {α β : Type} (m : Assoc α β) : List α := m.map (·.1)

/-- The map that holds the pairs of a list, where a later pair overrides an earlier one. -/
def ofList (pairs : List (α × β)) : Assoc α β :=
  pairs.foldl (fun m pair => insert m pair.1 pair.2) []

def Distinct (m : Assoc α β) : Prop :=
  m.Pairwise fun a b => (a.1 == b.1) = false

theorem Distinct.nil : Distinct ([] : Assoc α β) := List.Pairwise.nil

theorem Distinct.erase {m : Assoc α β} (distinct : Distinct m) (key : α) :
    Distinct (Assoc.erase m key) :=
  List.Pairwise.filter _ distinct

/-- A pair of an extended map was there, up to its value, or is the new one. -/
theorem mem_insert {m : Assoc α β} {key : α} {value : β} {entry : α × β}
    (member : entry ∈ insert m key value) :
    entry ∈ m ∨ entry.2 = value ∧ (entry.1 = key ∨ ∃ old ∈ m, old.1 = entry.1) := by
  induction m with
  | nil =>
    obtain rfl := List.mem_singleton.mp member
    exact .inr ⟨rfl, .inl rfl⟩
  | cons head rest ih =>
    rw [insert] at member
    split at member
    · rcases List.mem_cons.mp member with rfl | later
      · exact .inr ⟨rfl, .inr ⟨head, List.mem_cons_self, rfl⟩⟩
      · exact .inl (List.mem_cons_of_mem _ later)
    · rcases List.mem_cons.mp member with rfl | later
      · exact .inl List.mem_cons_self
      · rcases ih later with old | ⟨same, fresh | ⟨old, there, key⟩⟩
        · exact .inl (List.mem_cons_of_mem _ old)
        · exact .inr ⟨same, .inl fresh⟩
        · exact .inr ⟨same, .inr ⟨old, List.mem_cons_of_mem _ there, key⟩⟩

theorem Distinct.insert {m : Assoc α β} (distinct : Distinct m) (key : α) (value : β) :
    Distinct (Assoc.insert m key value) := by
  induction m with
  | nil => exact List.pairwise_singleton _ _
  | cons head rest ih =>
    obtain ⟨first, others⟩ := List.pairwise_cons.mp distinct
    rw [Assoc.insert]
    split
    · exact List.pairwise_cons.mpr ⟨first, others⟩
    · rename_i other
      refine List.pairwise_cons.mpr ⟨fun entry member => ?_, ih others⟩
      rcases mem_insert member with old | ⟨_, fresh | ⟨old, there, same⟩⟩
      · exact first entry old
      · simpa [fresh] using other
      · exact same ▸ first old there

theorem distinct_ofList (pairs : List (α × β)) : Distinct (ofList pairs) :=
  List.foldlRecOn pairs _ .nil fun _ distinct pair _ => distinct.insert pair.1 pair.2

end Assoc

end LispFrontEnd
