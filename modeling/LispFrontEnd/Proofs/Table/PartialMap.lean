import LispFrontEnd.Proofs.Table.CanonicalOrder
import LispFrontEnd.Table.Collect
import Mathlib.Data.Finmap

/-! # Tables as finite maps

Without the list that holds its entries, a table is a finite map from keys up to equality to values,
with a recorded order and a delegate. Every change to the contents of a table is a change to this
view, in which equal keys are one key and no order of entries is left.
-/

namespace LispFrontEnd

/-- A finite map from keys, up to equality, to values. -/
abbrev KeyMap := Finmap fun _ : KeyIdentity => Value

namespace KeyMap

variable {map : KeyMap} {pairs : List (Key × Value)} {key : Key} {value : Value}
  {identity : KeyIdentity}

theorem erase_insert_self (map : KeyMap) (identity : KeyIdentity) (value : Value) :
    (map.insert identity value).erase identity = map.erase identity := by
  refine Finmap.ext_lookup fun other => ?_
  by_cases same : other = identity
  · rw [same, Finmap.lookup_erase, Finmap.lookup_erase]
  · rw [Finmap.lookup_erase_ne same, Finmap.lookup_erase_ne same,
      Finmap.lookup_insert_of_ne _ same]

theorem erase_insert_of_ne {other : KeyIdentity} (different : other ≠ identity) :
    (map.insert other value).erase identity = (map.erase identity).insert other value := by
  refine Finmap.ext_lookup fun third => ?_
  by_cases here : third = identity
  · subst here
    rw [Finmap.lookup_insert_of_ne _ different.symm, Finmap.lookup_erase, Finmap.lookup_erase]
  · rw [Finmap.lookup_erase_ne here]
    by_cases there : third = other
    · rw [there, Finmap.lookup_insert, Finmap.lookup_insert]
    · rw [Finmap.lookup_insert_of_ne _ there, Finmap.lookup_insert_of_ne _ there,
        Finmap.lookup_erase_ne here]

/-- The map of a list of pairs, of which the first with a key counts. -/
def ofPairs : List (Key × Value) → KeyMap
  | [] => ∅
  | pair :: rest => (ofPairs rest).insert pair.1.identity pair.2

theorem ofPairs_cons (pair : Key × Value) (rest : List (Key × Value)) :
    ofPairs (pair :: rest) = (ofPairs rest).insert pair.1.identity pair.2 := rfl

theorem lookup_ofPairs (pairs : List (Key × Value)) (key : Key) :
    (ofPairs pairs).lookup key.identity = Assoc.get? pairs key := by
  induction pairs with
  | nil => rfl
  | cons pair rest ih =>
    rw [ofPairs_cons, Assoc.get?, List.find?_cons]
    by_cases same : (pair.1 == key) = true
    · rw [same, Key.beq_iff.mp same, Finmap.lookup_insert]
      rfl
    · rw [Bool.eq_false_of_not_eq_true same,
        Finmap.lookup_insert_of_ne _ fun equal => same (Key.beq_iff.mpr equal.symm)]
      exact ih

theorem ofPairs_append (front back : List (Key × Value)) :
    ofPairs (front ++ back) = ofPairs front ∪ ofPairs back := by
  induction front with
  | nil => exact Finmap.empty_union.symm
  | cons pair rest ih => rw [List.cons_append, ofPairs_cons, ofPairs_cons, ih, Finmap.insert_union]

theorem insert_eq_union (map : KeyMap) (pair : Key × Value) :
    map.insert pair.1.identity pair.2 = ofPairs [pair] ∪ map := by
  rw [ofPairs_cons, ← Finmap.insert_union]
  exact congrArg _ Finmap.empty_union.symm

theorem ofPairs_insert (pairs : List (Key × Value)) (key : Key) (value : Value) :
    ofPairs (Assoc.insert pairs key value) = (ofPairs pairs).insert key.identity value := by
  induction pairs with
  | nil => rfl
  | cons pair rest ih =>
    rw [Assoc.insert]
    split
    · rename_i same
      rw [ofPairs_cons, ofPairs_cons, Key.beq_iff.mp same, Finmap.insert_insert]
    · rename_i different
      rw [ofPairs_cons, ofPairs_cons, ih]
      exact Finmap.insert_insert_of_ne _ fun same => different (Key.beq_iff.mpr same.symm)

theorem ofPairs_erase (pairs : List (Key × Value)) (key : Key) :
    ofPairs (Assoc.erase pairs key) = (ofPairs pairs).erase key.identity := by
  induction pairs with
  | nil => rfl
  | cons pair rest ih =>
    rw [Assoc.erase, List.filter_cons]
    by_cases same : (pair.1 == key) = true
    · rw [same, ofPairs_cons, Key.beq_iff.mp same, erase_insert_self]
      exact ih
    · rw [Bool.eq_false_of_not_eq_true same, ofPairs_cons,
        erase_insert_of_ne fun equal => same (Key.beq_iff.mpr equal)]
      exact congrArg _ ih

/-- Pairs that are inserted one after the other override what was there, the last ones first. -/
theorem ofPairs_foldl_insert (pairs entries : List (Key × Value)) :
    ofPairs (pairs.foldl (fun m pair => Assoc.insert m pair.1 pair.2) entries) =
      ofPairs pairs.reverse ∪ ofPairs entries := by
  induction pairs generalizing entries with
  | nil => exact Finmap.empty_union.symm
  | cons pair rest ih =>
    rw [List.foldl_cons, ih, ofPairs_insert, insert_eq_union, ← Finmap.union_assoc,
      ← ofPairs_append, List.reverse_cons]

theorem lookup_ofPairs_eq_some_iff (distinct : Assoc.Distinct pairs) :
    (ofPairs pairs).lookup identity = some value ↔
      ∃ own, own.identity = identity ∧ (own, value) ∈ pairs := by
  induction pairs with
  | nil => simp [ofPairs]
  | cons pair rest ih =>
    obtain ⟨first, others⟩ := List.pairwise_cons.mp distinct
    rw [ofPairs_cons]
    by_cases same : identity = pair.1.identity
    · subst same
      rw [Finmap.lookup_insert]
      constructor
      · intro found
        obtain rfl := Option.some.inj found
        exact ⟨pair.1, rfl, List.mem_cons_self⟩
      · rintro ⟨own, same, member⟩
        rcases List.mem_cons.mp member with rfl | later
        · rfl
        · exact absurd same.symm (Key.beq_eq_false_iff.mp (first _ later))
    · rw [Finmap.lookup_insert_of_ne _ same, ih others]
      refine exists_congr fun own => and_congr_right fun here => ?_
      refine ⟨List.mem_cons_of_mem _, fun member => ?_⟩
      rcases List.mem_cons.mp member with rfl | later
      · exact absurd here.symm same
      · exact later

theorem ofPairs_reverse (distinct : Assoc.Distinct pairs) :
    ofPairs pairs.reverse = ofPairs pairs := by
  have turned : Assoc.Distinct pairs.reverse :=
    List.pairwise_reverse.mpr (distinct.imp BEq.symm_false)
  refine Finmap.ext_lookup fun identity => Option.ext fun value => ?_
  rw [lookup_ofPairs_eq_some_iff turned, lookup_ofPairs_eq_some_iff distinct]
  simp only [List.mem_reverse]

theorem mem_ofPairs : identity ∈ ofPairs pairs ↔ identity ∈ pairs.map (·.1.identity) := by
  induction pairs with
  | nil => simp [ofPairs, Finmap.notMem_empty]
  | cons pair rest ih => rw [ofPairs_cons, Finmap.mem_insert, List.map_cons, List.mem_cons, ih]

theorem card_keys_ofPairs (distinct : Assoc.Distinct pairs) :
    (ofPairs pairs).keys.card = pairs.length := by
  have keys : (ofPairs pairs).keys = (pairs.map (·.1.identity)).toFinset := by
    ext identity
    rw [Finmap.mem_keys, mem_ofPairs, List.mem_toFinset]
  have nodup : (pairs.map (·.1.identity)).Nodup :=
    List.pairwise_map.mpr (distinct.imp Key.beq_eq_false_iff.mp)
  rw [keys, List.toFinset_card_of_nodup nodup, List.length_map]

/-- The pairs of a list are the entries of a map, each once. -/
structure ListedBy (map : KeyMap) (pairs : List (Key × Value)) : Prop where
  distinct : pairs.Pairwise fun a b => (a.1 == b.1) = false
  exact : ∀ identity value, map.lookup identity = some value ↔
    ∃ own, own.identity = identity ∧ (own, value) ∈ pairs

/-- The items of a list are the keys of a map, each once. -/
structure IndexedBy (map : KeyMap) (keys : List Key) : Prop where
  distinct : keys.Pairwise fun a b => (a == b) = false
  exact : ∀ identity, identity ∈ map ↔ ∃ own ∈ keys, own.identity = identity

theorem ListedBy.indexedBy (listed : map.ListedBy pairs) : map.IndexedBy (pairs.map (·.1)) where
  distinct := List.pairwise_map.mpr listed.distinct
  exact identity := by
    rw [Finmap.mem_iff]
    constructor
    · rintro ⟨value, found⟩
      obtain ⟨own, same, member⟩ := (listed.exact identity value).mp found
      exact ⟨own, List.mem_map_of_mem member, same⟩
    · rintro ⟨own, member, same⟩
      obtain ⟨⟨_, value⟩, there, rfl⟩ := List.mem_map.mp member
      exact ⟨value, (listed.exact identity value).mpr ⟨_, same, there⟩⟩

theorem listedBy_ofPairs (distinct : Assoc.Distinct pairs) : (ofPairs pairs).ListedBy pairs where
  distinct := distinct
  exact _ _ := lookup_ofPairs_eq_some_iff distinct

end KeyMap

/-- What a table is apart from how its entries are held. -/
structure TableView where
  map : KeyMap := ∅
  order : Option (List Key) := none
  delegate : Option Table := none

namespace TableView

variable {view : TableView} {key : Key} {value : Value}

def erase (view : TableView) (key : Key) : TableView :=
  { view with map := view.map.erase key.identity }

/-- Storing nil takes the key out. -/
def store (view : TableView) (key : Key) (value : Value) : TableView :=
  if value.isNil then view.erase key
  else { view with map := view.map.insert key.identity value }

/-- The greatest `n` such that all of `1, …, n` are keys. -/
def border (view : TableView) : Nat :=
  ((List.range view.map.keys.card).takeWhile fun i =>
    (view.map.lookup (.int (Int64.ofNat (i + 1)))).isSome).length

/-- Stores a value under the first positive integer that is not a key. -/
def push (view : TableView) (value : Value) : TableView :=
  view.store (.int (Int64.ofNat (view.border + 1))) value

/-- The last entry of each key that is not nil, and all keys in order. -/
def ofOrdered (entries : List (Key × Value)) : TableView where
  map := .ofPairs (entries.filter fun entry => !entry.2.isNil).reverse
  order := some (entries.map (·.1))

/-- The entries of a map override those that are there. -/
def merge (view : TableView) (map : KeyMap) : TableView := { view with map := map ∪ view.map }

/-- Stores what a callback has made of an entry. -/
def collect (view : TableView) : Option Collected → TableView
  | none => view
  | some (.value v) => view.push v
  | some (.entry k v) => view.store k v

theorem store_eq_merge (view : TableView) {pair : Key × Value} (present : pair.2.isNil = false) :
    view.store pair.1 pair.2 = view.merge (.ofPairs [pair]) := by
  rw [store, present, merge, KeyMap.insert_eq_union]
  rfl

/-- Pairs that are stored one after the other override what was there, the last ones first. -/
theorem foldl_store (view : TableView) (pairs : List (Key × Value))
    (present : ∀ pair ∈ pairs, pair.2.isNil = false) :
    pairs.foldl (fun view pair => view.store pair.1 pair.2) view =
      view.merge (.ofPairs pairs.reverse) := by
  induction pairs generalizing view with
  | nil => exact congrArg (TableView.mk · _ _) Finmap.empty_union.symm
  | cons pair rest ih =>
    obtain ⟨first, others⟩ := List.forall_mem_cons.mp present
    rw [List.foldl_cons, ih _ others, store_eq_merge view first, List.reverse_cons,
      KeyMap.ofPairs_append]
    exact congrArg (TableView.mk · _ _) Finmap.union_assoc.symm

end TableView

namespace Contents

variable {key : Key} {value : Value}

def view (c : Contents) : TableView := ⟨.ofPairs c.entries, c.order, c.delegate⟩

theorem lookup_view (c : Contents) (key : Key) : c.view.map.lookup key.identity = c.get? key :=
  KeyMap.lookup_ofPairs c.entries key

theorem card_keys_view (c : Contents) : c.view.map.keys.card = c.entries.length :=
  KeyMap.card_keys_ofPairs c.distinct

theorem listedBy_view (c : Contents) : c.view.map.ListedBy c.entries :=
  KeyMap.listedBy_ofPairs c.distinct

theorem isNil_of_lookup_view (c : Contents) {identity : KeyIdentity}
    (found : c.view.map.lookup identity = some value) : value.isNil = false := by
  obtain ⟨own, _, member⟩ := (c.listedBy_view.exact identity value).mp found
  exact c.stored _ member

theorem view_erase (c : Contents) (key : Key) : (c.erase key).view = c.view.erase key :=
  congrArg (TableView.mk · _ _) (KeyMap.ofPairs_erase c.entries key)

theorem view_insert (c : Contents) (key : Key) (value : Value) :
    (c.insert key value).view = c.view.store key value := by
  rw [insert, TableView.store]
  split
  · exact c.view_erase key
  · exact congrArg (TableView.mk · _ _) (KeyMap.ofPairs_insert c.entries key value)

theorem get?_insert (c : Contents) (own key : Key) (value : Value) :
    (c.insert own value).get? key =
      if own == key then (some value).filter (!·.isNil) else c.get? key := by
  rw [← lookup_view, view_insert, TableView.store, Option.filter_some]
  by_cases same : (own == key) = true
  · rw [if_pos same, ← Key.beq_iff.mp same]
    cases value.isNil with
    | true => exact Finmap.lookup_erase _ _
    | false => exact Finmap.lookup_insert _
  · have other : key.identity ≠ own.identity := fun equal => same (Key.beq_iff.mpr equal.symm)
    rw [if_neg same, ← lookup_view]
    cases value.isNil with
    | true => exact Finmap.lookup_erase_ne other
    | false => exact Finmap.lookup_insert_of_ne _ other

theorem get?_erase (c : Contents) (own key : Key) :
    (c.erase own).get? key = if own == key then none else c.get? key :=
  c.get?_insert own key .nil

theorem border_view (c : Contents) : c.view.border = c.border := by
  rw [TableView.border, border, card_keys_view]
  congr 2
  funext i
  rw [containsKey_eq_isSome_get?, ← lookup_view]
  rfl

theorem view_push (c : Contents) (value : Value) : (c.push value).view = c.view.push value := by
  rw [push, view_insert, TableView.push, border_view]

theorem view_ofOrdered (entries : List (Key × Value)) :
    (ofOrdered entries).view = .ofOrdered entries := by
  refine congrArg (TableView.mk · _ _) ?_
  exact (KeyMap.ofPairs_foldl_insert _ []).trans Finmap.union_empty

end Contents

end LispFrontEnd
