import LispFrontEnd.Proofs.Heap.Image
import LispFrontEnd.Proofs.Syntax.NamePool
import LispFrontEnd.Proofs.Table.CanonicalOrder
import Mathlib.Algebra.Ring.Nat

/-! # Independence of the order of entries

The entries of a table stand in no promised order. In a reachable image two keys have one sort key
exactly when they are equal or are a symbol and a comment with one text. So the canonical keys of a
table depend on its keys, up to equality, and its recorded order alone, unless such a symbol and
such a comment are both keys outside the recorded order; and then they do depend on the order of its
entries.
-/

namespace LispFrontEnd

namespace Key

theorem eq_of_label_bool_eq {names : NamePool} {a b : Bool}
    (same : (Key.bool a).label names = (Key.bool b).label names) : a = b := by
  revert same
  cases a <;> cases b <;> simp [label]

theorem eq_of_digits_eq {m n : Nat} (same : m.repr = n.repr) : m = n := by
  have read := congrArg (fun digits => Nat.ofDigitChars 10 digits.toList 0) same
  simpa only [Nat.toList_repr, Nat.ofDigitChars_ten_toDigits] using read

theorem digits_ne_minus {m n : Nat} : m.repr ≠ "-" ++ n.repr := by
  intro same
  have minus : '-' ∈ Nat.toDigits 10 m := by
    rw [← Nat.toList_repr, same, String.toList_append]
    exact List.mem_append_left _ List.mem_cons_self
  exact absurd (Nat.isDigit_of_mem_toDigits (by decide) (by decide) minus) (by decide)

theorem eq_of_label_int_eq {names : NamePool} {a b : Int64}
    (same : (Key.int a).label names = (Key.int b).label names) : a = b := by
  have texts : a.toInt.repr = b.toInt.repr := same
  rw [Int.repr_eq_if, Int.repr_eq_if] at texts
  refine Int64.toInt_inj.mp ?_
  split at texts <;> split at texts
  · have := eq_of_digits_eq texts
    omega
  · exact absurd texts digits_ne_minus
  · exact absurd texts.symm digits_ne_minus
  · have := eq_of_digits_eq ((String.append_right_inj _).mp texts)
    omega

end Key

/-- Only symbols and comments are without a serial number. -/
theorem Node.eq_symbol_or_comment {n : Node} (numbered : 0 < n.id) (unnumbered : n.serial = 0) :
    (∃ s, n = .symbol s) ∨ ∃ c, n = .comment c := by
  cases n with
  | symbol s => exact .inl ⟨s, rfl⟩
  | comment c => exact .inr ⟨c, rfl⟩
  | _ => exact absurd unnumbered (Nat.ne_of_gt numbered)

theorem Node.serial_eq_id {n : Node} (numbered : n.serial ≠ 0) : n.serial = n.id := by
  cases n with
  | symbol => exact absurd rfl numbered
  | comment => exact absurd rfl numbered
  | _ => rfl

theorem Node.identity_eq_cases {a b : Node} (same : a.identity = b.identity) :
    (∃ s t, a = .symbol s ∧ b = .symbol t ∧ s.name = t.name) ∨
      (∃ c d, a = .comment c ∧ b = .comment d ∧ c.text = d.text) ∨ a.id = b.id := by
  cases a with
  | symbol s =>
    cases b with
    | symbol t => exact .inl ⟨s, t, rfl, rfl, NodeIdentity.name.inj same⟩
    | _ => cases same
  | comment c =>
    cases b with
    | comment d => exact .inr (.inl ⟨c, d, rfl, rfl, NodeIdentity.text.inj same⟩)
    | _ => cases same
  | _ =>
    cases b with
    | symbol => cases same
    | comment => cases same
    | _ => exact .inr (.inr (NodeIdentity.made.inj same).2)

/-- All keys of a table are of nodes that have been made. -/
def Image.KnowsKeys (m : Image) (c : Contents) : Prop := ∀ key ∈ c.keys, m.KnowsKey key

/-- A symbol and a comment with one text. -/
def Key.Homonyms (names : NamePool) (a b : Key) : Prop :=
  ∃ s c, names.text s.name = c.text ∧
    (a = .node (.symbol s) ∧ b = .node (.comment c) ∨
      a = .node (.comment c) ∧ b = .node (.symbol s))

namespace Image.Coherent

variable {m : Image}

theorem identity_eq_or_homonyms (coherent : m.Coherent) {a b : Node} (madeA : a ∈ m.nodes)
    (madeB : b ∈ m.nodes) (label : a.label m.heap.names = b.label m.heap.names)
    (serial : a.serial = b.serial) :
    a.identity = b.identity ∨ Key.Homonyms m.heap.names (.node a) (.node b) := by
  by_cases unnumbered : a.serial = 0
  · have positiveA := (coherent.bounded a madeA).1
    have positiveB := (coherent.bounded b madeB).1
    rcases Node.eq_symbol_or_comment positiveA unnumbered with ⟨s, rfl⟩ | ⟨c, rfl⟩ <;>
      rcases Node.eq_symbol_or_comment positiveB (serial ▸ unnumbered) with ⟨t, rfl⟩ | ⟨d, rfl⟩
    · have name : s.name = t.name :=
        NamePool.eq_of_text_eq _ (coherent.named s madeA) (coherent.named t madeB) label
      exact .inl (congrArg NodeIdentity.name name)
    · exact .inr ⟨s, d, label, .inl ⟨rfl, rfl⟩⟩
    · exact .inr ⟨t, c, label.symm, .inr ⟨rfl, rfl⟩⟩
    · exact .inl (congrArg NodeIdentity.text label)
  · have id : a.id = b.id := by
      rw [← Node.serial_eq_id unnumbered, ← Node.serial_eq_id (serial ▸ unnumbered), serial]
    rw [coherent.eq_of_id_eq madeA madeB id]
    exact .inl rfl

theorem sortKey_eq_of_beq (coherent : m.Coherent) {a b : Key} (knownA : m.KnowsKey a)
    (knownB : m.KnowsKey b) (same : (a == b) = true) :
    a.sortKey m.heap.names = b.sortKey m.heap.names := by
  have identity := Key.beq_iff.mp same
  cases a with
  | node n =>
    cases b with
    | node other =>
      rcases Node.identity_eq_cases (KeyIdentity.node.inj identity) with
        ⟨s, t, rfl, rfl, name⟩ | ⟨c, d, rfl, rfl, text⟩ | id
      · simp only [Key.sortKey, Key.label, Node.label, Key.rank, Key.serial, Node.serial, name]
      · simp only [Key.sortKey, Key.label, Node.label, Key.rank, Key.serial, Node.serial, text]
      · rw [coherent.eq_of_id_eq (knownA n rfl) (knownB other rfl) id]
    | _ => cases identity
  | _ =>
    cases b with
    | node => cases identity
    | _ => cases identity <;> rfl

/-- Of the nodes of a reachable image only a symbol and a comment can tie. -/
theorem sortKey_eq_iff (coherent : m.Coherent) {a b : Key} (knownA : m.KnowsKey a)
    (knownB : m.KnowsKey b) :
    a.sortKey m.heap.names = b.sortKey m.heap.names ↔
      (a == b) = true ∨ Key.Homonyms m.heap.names a b := by
  constructor
  · intro same
    obtain ⟨label, rank, serial⟩ := SortKey.mk.inj same
    rw [Key.beq_iff]
    cases a with
    | bool x =>
      cases b with
      | bool y => exact .inl (congrArg KeyIdentity.bool (Key.eq_of_label_bool_eq label))
      | _ => simp [Key.rank] at rank
    | int x =>
      cases b with
      | int y => exact .inl (congrArg KeyIdentity.int (Key.eq_of_label_int_eq label))
      | _ => simp [Key.rank] at rank
    | str x =>
      cases b with
      | str y => exact .inl (congrArg KeyIdentity.str label)
      | _ => simp [Key.rank] at rank
    | node x =>
      cases b with
      | node y =>
        have tie := coherent.identity_eq_or_homonyms (knownA x rfl) (knownB y rfl) label serial
        exact tie.imp_left (congrArg KeyIdentity.node)
      | _ => simp [Key.rank] at rank
  · rintro (same | ⟨s, c, text, ⟨rfl, rfl⟩ | ⟨rfl, rfl⟩⟩)
    · exact coherent.sortKey_eq_of_beq knownA knownB same
    · exact congrArg (SortKey.mk · 3 0) text
    · exact congrArg (SortKey.mk · 3 0) text.symm

end Image.Coherent

section Lists
variable {α β γ : Type} {f : α → β} {g : α → γ}

private theorem map_eq_map_of_reflects {items others : List α} (same : items.map f = others.map f)
    (reflects : ∀ a ∈ items, ∀ b ∈ others, f a = f b → g a = g b) : items.map g = others.map g := by
  induction items generalizing others with
  | nil =>
    rw [List.map_nil, eq_comm, List.map_eq_nil_iff] at same
    rw [same]
  | cons a rest ih =>
    obtain ⟨b, later, rfl, head, tail⟩ := List.map_eq_cons_iff.mp same.symm
    rw [List.map_cons, List.map_cons,
      reflects a List.mem_cons_self b List.mem_cons_self head.symm,
      ih tail.symm fun x inRest y inLater =>
        reflects x (List.mem_cons_of_mem a inRest) y (List.mem_cons_of_mem b inLater)]

private theorem nodup_map_of_reflects {items : List α} (nodup : (items.map g).Nodup)
    (reflects : ∀ a ∈ items, ∀ b ∈ items, f a = f b → g a = g b) : (items.map f).Nodup := by
  refine nodup.of_map.map_on fun a inA b inB same => ?_
  exact List.inj_on_of_nodup_map nodup inA inB (reflects a inA b inB same)

private theorem pair_sublist_or {items : List α} {a b : α} (inA : a ∈ items) (inB : b ∈ items)
    (different : a ≠ b) : [a, b].Sublist items ∨ [b, a].Sublist items := by
  obtain ⟨before, after, rfl⟩ := List.append_of_mem inA
  rcases List.mem_append.mp inB with earlier | later
  · exact .inr (List.Sublist.append (List.singleton_sublist.mpr earlier)
      (List.singleton_sublist.mpr List.mem_cons_self))
  · have behind : b ∈ after := List.mem_of_ne_of_mem different.symm later
    have pair : [a, b].Sublist (a :: after) := (List.singleton_sublist.mpr behind).cons_cons a
    exact .inl (pair.trans (List.sublist_append_right _ _))

/-- In a list without repetition two items stand in one order only. -/
private theorem not_pair_sublist_swap {items : List α} (nodup : items.Nodup) {a b : α}
    (forth : [a, b].Sublist items) (back : [b, a].Sublist items) : False := by
  induction items with
  | nil => cases forth
  | cons head rest ih =>
    obtain ⟨fresh, others⟩ := List.nodup_cons.mp nodup
    cases forth with
    | cons _ forth =>
      cases back with
      | cons _ back => exact ih others forth back
      | cons_cons _ back => exact fresh (forth.subset (by simp))
    | cons_cons _ forth =>
      cases back with
      | cons _ back => exact fresh (back.subset (by simp))
      | cons_cons _ back => exact fresh (forth.subset (by simp))

end Lists

namespace Contents

variable {names : NamePool} {c other : Contents} {key : Key}

/-- A key of the table that is not in the recorded order. -/
def Outside (c : Contents) (key : Key) : Prop :=
  c.containsKey key = true ∧ ¬ (c.order.getD []).contains key = true

/-- A symbol and a comment with one text are both keys outside the recorded order. -/
def Tied (names : NamePool) (c : Contents) : Prop :=
  ∃ s comment, names.text s.name = comment.text ∧
    c.Outside (.node (.symbol s)) ∧ c.Outside (.node (.comment comment))

/-- Contents with one set of keys and one recorded order, and with any values. -/
structure Agrees (c other : Contents) : Prop where
  order : c.order = other.order
  keys : ∀ key, c.containsKey key = other.containsKey key

theorem Agrees.symm (agrees : c.Agrees other) : other.Agrees c :=
  ⟨agrees.order.symm, fun key => (agrees.keys key).symm⟩

theorem Agrees.recordedKeys (agrees : c.Agrees other) : c.recordedKeys = other.recordedKeys := by
  rw [Contents.recordedKeys, Contents.recordedKeys, agrees.order, funext agrees.keys]

theorem Agrees.outside (agrees : c.Agrees other) (outside : c.Outside key) : other.Outside key := by
  rw [Outside, ← agrees.order, ← agrees.keys]
  exact outside

theorem Agrees.tied (agrees : c.Agrees other) (tied : c.Tied names) : other.Tied names := by
  obtain ⟨s, comment, text, outsideS, outsideC⟩ := tied
  exact ⟨s, comment, text, agrees.outside outsideS, agrees.outside outsideC⟩

theorem outside_of_mem (member : key ∈ c.unrecordedKeys) : c.Outside key :=
  identity_mem_unrecordedKeys.mp (List.mem_map_of_mem member)

theorem agrees_of_perm (perm : other.entries.Perm c.entries) (order : other.order = c.order) :
    other.Agrees c where
  order := order
  keys key := by
    rw [Bool.eq_iff_iff, containsKey_iff, containsKey_iff]
    exact ((perm.map (·.1)).map Key.identity).mem_iff

theorem knowsKey_of_mem {m : Image} (known : m.KnowsKeys c) (member : key ∈ c.unrecordedKeys) :
    m.KnowsKey key :=
  known key (List.mem_filter.mp member).1

section Untied
variable {m : Image} (coherent : m.Coherent) (known : m.KnowsKeys c)
  (knownOther : m.KnowsKeys other) (agrees : c.Agrees other)

include coherent known knownOther agrees

theorem identity_eq_of_sortKey_eq (untied : ¬ c.Tied m.heap.names)
    {a b : Key} (inA : a ∈ c.unrecordedKeys) (inB : b ∈ other.unrecordedKeys)
    (same : a.sortKey m.heap.names = b.sortKey m.heap.names) : a.identity = b.identity := by
  have outsideA := outside_of_mem inA
  have outsideB := agrees.symm.outside (outside_of_mem inB)
  rcases (coherent.sortKey_eq_iff (knowsKey_of_mem known inA)
    (knowsKey_of_mem knownOther inB)).mp same with equal | ⟨s, d, text, ⟨rfl, rfl⟩ | ⟨rfl, rfl⟩⟩
  · exact Key.beq_iff.mp equal
  · exact absurd ⟨s, d, text, outsideA, outsideB⟩ untied
  · exact absurd ⟨s, d, text, outsideB, outsideA⟩ untied

theorem sortKey_mem_of_agrees (member : key ∈ c.unrecordedKeys) :
    key.sortKey m.heap.names ∈ other.unrecordedKeys.map (Key.sortKey m.heap.names) := by
  obtain ⟨own, there, same⟩ := List.mem_map.mp
    (identity_mem_unrecordedKeys.mpr (agrees.outside (outside_of_mem member)))
  refine List.mem_map.mpr ⟨own, there, ?_⟩
  exact coherent.sortKey_eq_of_beq (knowsKey_of_mem knownOther there)
    (knowsKey_of_mem known member) (Key.beq_iff.mpr same)

theorem map_sortKey_perm (untied : ¬ c.Tied m.heap.names) :
    (c.unrecordedKeys.map (Key.sortKey m.heap.names)).Perm
      (other.unrecordedKeys.map (Key.sortKey m.heap.names)) := by
  have untiedOther : ¬ other.Tied m.heap.names := mt agrees.symm.tied untied
  have nodup := nodup_map_of_reflects c.unrecordedKeys_nodup fun a inA b inB =>
    identity_eq_of_sortKey_eq coherent known known ⟨rfl, fun _ => rfl⟩ untied inA inB
  have nodupOther := nodup_map_of_reflects other.unrecordedKeys_nodup fun a inA b inB =>
    identity_eq_of_sortKey_eq coherent knownOther knownOther ⟨rfl, fun _ => rfl⟩ untiedOther inA inB
  refine (List.perm_ext_iff_of_nodup nodup nodupOther).mpr fun sortKey => ⟨?_, ?_⟩
  · intro member
    obtain ⟨key, there, rfl⟩ := List.mem_map.mp member
    exact sortKey_mem_of_agrees coherent known knownOther agrees there
  · intro member
    obtain ⟨key, there, rfl⟩ := List.mem_map.mp member
    exact sortKey_mem_of_agrees coherent knownOther known agrees.symm there

theorem map_sortKey_sortedKeys_eq (untied : ¬ c.Tied m.heap.names) :
    (c.sortedKeys m.heap.names).map (Key.sortKey m.heap.names) =
      (other.sortedKeys m.heap.names).map (Key.sortKey m.heap.names) := by
  have perm := ((c.sortedKeys_perm m.heap.names).map (Key.sortKey m.heap.names)).trans
    ((map_sortKey_perm coherent known knownOther agrees untied).trans
      ((other.sortedKeys_perm m.heap.names).map (Key.sortKey m.heap.names)).symm)
  have ascending (c : Contents) : ((c.sortedKeys m.heap.names).map
      (Key.sortKey m.heap.names)).Pairwise fun a b => a.le b = true :=
    List.pairwise_map.mpr (c.sortedKeys_ascending m.heap.names)
  refine perm.eq_of_pairwise ?_ (ascending c) (ascending other)
  intro a b _ _ forth back
  exact SortKey.le_antisymm forth back

theorem map_identity_sortedKeys_eq (untied : ¬ c.Tied m.heap.names) :
    (c.sortedKeys m.heap.names).map Key.identity =
      (other.sortedKeys m.heap.names).map Key.identity := by
  refine map_eq_map_of_reflects
    (map_sortKey_sortedKeys_eq coherent known knownOther agrees untied) ?_
  intro a inA b inB
  exact identity_eq_of_sortKey_eq coherent known knownOther agrees untied
    ((c.sortedKeys_perm _).mem_iff.mp inA) ((other.sortedKeys_perm _).mem_iff.mp inB)

/-- The canonical keys are determined up to equality by which keys there are. -/
theorem canonicalKeys_forall₂ (untied : ¬ c.Tied m.heap.names) :
    List.Forall₂ (fun a b => (a == b) = true) (c.canonicalKeys m.heap.names)
      (other.canonicalKeys m.heap.names) := by
  rw [Key.forall₂_beq_iff, canonicalKeys_eq, canonicalKeys_eq, List.map_append, List.map_append,
    agrees.recordedKeys, map_identity_sortedKeys_eq coherent known knownOther agrees untied]

omit knownOther agrees in
/-- They are the very same keys when the entries are. -/
theorem canonicalKeys_eq_of_perm (perm : other.entries.Perm c.entries)
    (order : other.order = c.order) (untied : ¬ c.Tied m.heap.names) :
    other.canonicalKeys m.heap.names = c.canonicalKeys m.heap.names := by
  have agrees := agrees_of_perm perm order
  have untiedOther : ¬ other.Tied m.heap.names := mt agrees.tied untied
  have knownOther : m.KnowsKeys other := fun key member =>
    known key ((perm.map (·.1)).mem_iff.mp member)
  have sorted : (other.sortedKeys m.heap.names).map id = (c.sortedKeys m.heap.names).map id := by
    refine map_eq_map_of_reflects
      (map_identity_sortedKeys_eq coherent knownOther known agrees untiedOther) ?_
    intro a inA b inB same
    have ownA := (List.mem_filter.mp ((other.sortedKeys_perm _).mem_iff.mp inA)).1
    have ownB := (List.mem_filter.mp ((c.sortedKeys_perm _).mem_iff.mp inB)).1
    exact List.inj_on_of_nodup_map c.keys_nodup ((perm.map (·.1)).mem_iff.mp ownA) ownB same
  rw [List.map_id, List.map_id] at sorted
  rw [canonicalKeys_eq, canonicalKeys_eq, agrees.recordedKeys, sorted]

end Untied

theorem sortKey_of_identity_name {name : Name} (same : key.identity = .node (.name name)) :
    key.sortKey names = ⟨names.text name, 3, 0⟩ := by
  cases key with
  | node n =>
    cases n with
    | symbol s =>
      obtain rfl : s.name = name := NodeIdentity.name.inj (KeyIdentity.node.inj same)
      rfl
    | _ => cases same
  | _ => cases same

theorem sortKey_of_identity_text {text : String} (same : key.identity = .node (.text text)) :
    key.sortKey names = ⟨text, 3, 0⟩ := by
  cases key with
  | node n =>
    cases n with
    | comment d =>
      obtain rfl : d.text = text := NodeIdentity.text.inj (KeyIdentity.node.inj same)
      rfl
    | _ => cases same
  | _ => cases same

/-- The same entries, the last one first. -/
def reversed (c : Contents) : Contents :=
  { c with
    entries := c.entries.reverse
    distinct := List.pairwise_reverse.mpr (c.distinct.imp BEq.symm_false)
    stored := fun entry member => c.stored entry (List.mem_reverse.mp member) }

theorem unrecordedKeys_reversed (c : Contents) :
    c.reversed.unrecordedKeys = c.unrecordedKeys.reverse := by
  have keys : c.reversed.keys = c.keys.reverse := List.map_reverse
  rw [unrecordedKeys_eq, unrecordedKeys_eq, keys, List.filter_reverse]
  rfl

/-- Two keys that tie stand in the order of the entries. -/
theorem pair_sublist_sortedKeys {a b : Key} (same : a.sortKey names = b.sortKey names)
    (pair : [a, b].Sublist c.unrecordedKeys) : [a, b].Sublist (c.sortedKeys names) := by
  refine List.pair_sublist_mergeSort ?_ ?_ ?_ pair
  · intro x y z first second
    exact SortKey.le_trans first second
  · intro x y
    exact SortKey.le_total _ _
  · simpa [same] using SortKey.le_total (b.sortKey names) (b.sortKey names)

theorem not_reversed_of_pair {a b : Key} (same : a.sortKey names = b.sortKey names)
    (pair : [a, b].Sublist c.unrecordedKeys) :
    (c.reversed.canonicalKeys names).map Key.identity ≠
      (c.canonicalKeys names).map Key.identity := by
  intro unchanged
  have forth := (pair_sublist_sortedKeys same pair).map Key.identity
  have back : [b, a].Sublist c.reversed.unrecordedKeys := by
    rw [unrecordedKeys_reversed]
    exact pair.reverse
  replace back := (pair_sublist_sortedKeys same.symm back).map Key.identity
  have inCanonical := forth.trans ((List.sublist_append_right c.recordedKeys _).map Key.identity)
  have inReversed := back.trans
    ((List.sublist_append_right c.reversed.recordedKeys _).map Key.identity)
  rw [← canonicalKeys_eq] at inCanonical inReversed
  exact not_pair_sublist_swap (c.canonicalKeys_nodup names) inCanonical (unchanged ▸ inReversed)

theorem reversed_ne_of_tied (tied : c.Tied names) :
    (c.reversed.canonicalKeys names).map Key.identity ≠
      (c.canonicalKeys names).map Key.identity := by
  obtain ⟨s, d, text, outsideS, outsideD⟩ := tied
  obtain ⟨a, inA, name⟩ := List.mem_map.mp (identity_mem_unrecordedKeys.mpr outsideS)
  obtain ⟨b, inB, comment⟩ := List.mem_map.mp (identity_mem_unrecordedKeys.mpr outsideD)
  have same : a.sortKey names = b.sortKey names := by
    rw [sortKey_of_identity_name name, sortKey_of_identity_text comment, text]
  have different : a ≠ b := by
    rintro rfl
    cases name.symm.trans comment
  rcases pair_sublist_or inA inB different with forth | back
  · exact not_reversed_of_pair same forth
  · exact not_reversed_of_pair same.symm back

end Contents

namespace Image

theorem Coherent.knowsKeys_contents {m : Image} (coherent : m.Coherent) (t : Table) :
    m.KnowsKeys (m.heap.contents t) := by
  intro key member
  obtain ⟨entry, there, rfl⟩ := List.mem_map.mp member
  exact ((coherent.covers_contents t).entries entry there).1

/-- The canonical keys do not depend on the order of entries exactly when no symbol and comment of
one text are both outside the recorded order. -/
theorem Reachable.canonicalKeys_independent_iff {m : Image} (reachable : m.Reachable) :
    (∀ a b, m.KnowsKey a → m.KnowsKey b →
      (a.sortKey m.heap.names = b.sortKey m.heap.names ↔
        (a == b) = true ∨ Key.Homonyms m.heap.names a b)) ∧
    (∀ t, m.KnowsKeys (m.heap.contents t)) ∧
    ∀ c, m.KnowsKeys c →
      ((∀ other : Contents, other.entries.Perm c.entries → other.order = c.order →
          other.canonicalKeys m.heap.names = c.canonicalKeys m.heap.names) ↔
        ¬ c.Tied m.heap.names) ∧
      ((∀ other, m.KnowsKeys other → other.Agrees c →
          List.Forall₂ (fun a b => (a == b) = true) (other.canonicalKeys m.heap.names)
            (c.canonicalKeys m.heap.names)) ↔
        ¬ c.Tied m.heap.names) := by
  have coherent := reachable.coherent
  refine ⟨fun a b => coherent.sortKey_eq_iff, coherent.knowsKeys_contents, fun c known => ?_⟩
  have turned : c.reversed.entries.Perm c.entries := List.reverse_perm _
  refine ⟨⟨?_, ?_⟩, ⟨?_, ?_⟩⟩
  · intro independent tied
    exact Contents.reversed_ne_of_tied tied
      (congrArg (List.map Key.identity) (independent c.reversed turned rfl))
  · intro untied other perm order
    exact Contents.canonicalKeys_eq_of_perm coherent known perm order untied
  · intro independent tied
    have knownTurned : m.KnowsKeys c.reversed := fun key member =>
      known key ((turned.map (·.1)).mem_iff.mp member)
    have same := independent c.reversed knownTurned (Contents.agrees_of_perm turned rfl)
    exact Contents.reversed_ne_of_tied tied (Key.forall₂_beq_iff.mp same)
  · intro untied other knownOther agrees
    exact Contents.canonicalKeys_forall₂ coherent knownOther known agrees (mt agrees.tied untied)

/-- A table is given a symbol and a comment of one text for keys. -/
def homonymKeys : Image :=
  let symbol := (({} : Heap).newSymbol "s" none).1
  [.symbol "s" none, .comment "s" none, .table none,
    .insert ⟨3, none⟩ (.node (.symbol symbol)) (.bool true),
    .insert ⟨3, none⟩ (.node (.comment ⟨2, "s", none⟩)) (.bool true)].foldl perform {}

theorem homonymKeys_reachable : homonymKeys.Reachable := by
  have symbol := Reachable.empty.perform (.symbol "s" none) trivial
  have comment := symbol.perform (.comment "s" none) trivial
  have table := comment.perform (.table none) trivial
  have first := table.perform
    (.insert ⟨3, none⟩ (.node (.symbol (({} : Heap).newSymbol "s" none).1)) (.bool true))
    ⟨List.mem_cons_self, knowsKey_node (.tail _ (.tail _ (.head _))), knows_of_plain rfl⟩
  exact first.perform (.insert ⟨3, none⟩ (.node (.comment ⟨2, "s", none⟩)) (.bool true))
    ⟨List.mem_cons_self, knowsKey_node (.tail _ (.head _)), knows_of_plain rfl⟩

/-- The order of the entries of such a table shows. -/
theorem homonymKeys_depend_on_order : homonymKeys.Reachable ∧ ∃ t : Table, ∃ other : Contents,
    other.entries.Perm (homonymKeys.heap.contents t).entries ∧
      other.order = homonymKeys.heap.keyOrder t ∧
      other.canonicalKeys homonymKeys.heap.names ≠ homonymKeys.heap.canonicalKeys t := by
  refine ⟨homonymKeys_reachable, ⟨3, none⟩, ?_⟩
  obtain ⟨_, knows, independent⟩ := homonymKeys_reachable.canonicalKeys_independent_iff
  have tied : (homonymKeys.heap.contents ⟨3, none⟩).Tied homonymKeys.heap.names := by
    refine ⟨(({} : Heap).newSymbol "s" none).1, ⟨2, "s", none⟩, ?_, ⟨?_, ?_⟩, ⟨?_, ?_⟩⟩ <;>
      decide +kernel
  by_contra same
  push Not at same
  exact (independent _ (knows ⟨3, none⟩)).1.mp same tied

end Image

end LispFrontEnd
