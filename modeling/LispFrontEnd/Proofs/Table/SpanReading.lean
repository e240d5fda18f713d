import LispFrontEnd.Proofs.Table.PartialMap
import LispFrontEnd.Table.SpanFields
import Mathlib.Data.UInt
import Mathlib.Logic.Relation

/-! # What a span is read from

A span is what the entries of its table make when they are taken over one after the other, in any
order: an entry settles no field but the one that its key names, and no two entries have one key.
The file name is read from a string, the line from an integer from 0 below `2 ^ 32`, and the byte
offsets from integers from 0 below `2 ^ 63`; without such a value the field is absent. So each field
depends on the value under one string alone, and whatever else changes about the tables of a heap, a
span that is read afterwards is the same, and so is a symbol or a place of variadic arguments that
is given it.
-/

namespace LispFrontEnd

theorem Key.eq_str_of_beq {key : Key} {name : String} (same : (key == .str name) = true) :
    key = .str name := by
  have identity := Key.beq_iff.mp same
  cases key <;> cases identity
  rfl

namespace SourceSpan

variable {α β : Type}

/-- Takes an entry of a table over into a span. -/
def take (span : SourceSpan) : Key × Value → SourceSpan
  | (.str "filename", .str file) => { span with filename := some file }
  | (.str "line", .number (.int n)) => { span with line := line? n.toInt }
  | (.str "bytestart", .number (.int n)) => { span with byteStart := offset? n.toInt }
  | (.str "byteend", .number (.int n)) => { span with byteEnd := offset? n.toInt }
  | _ => span

/-- The span that entries make one after the other. -/
def ofEntries (entries : List (Key × Value)) : SourceSpan :=
  entries.foldl take {}

def int? : Value → Option Int
  | .number (.int n) => some n.toInt
  | _ => none

/-- A field is settled by the entries under one string, if their value can be read as one of the
field, and by no others. -/
structure Settles (field : SourceSpan → Option α) (name : String)
    (read : Value → Option (Option α)) : Prop where
  own : ∀ span value, field (take span (.str name, value)) = (read value).getD (field span)
  other : ∀ span entry, (entry.1 == .str name) = false → field (take span entry) = field span

theorem settles_filename : Settles (·.filename) "filename" fun value => value.asStr?.map some where
  own span value := by cases value <;> rfl
  other span entry other := by
    fun_cases take span entry with
    | case1 => cases other
    | _ => rfl

theorem settles_line : Settles (·.line) "line" fun value => (int? value).map line? where
  own span value := by rcases value with _ | _ | (_ | _) | _ | _ <;> rfl
  other span entry other := by
    fun_cases take span entry with
    | case2 => cases other
    | _ => rfl

theorem settles_byteStart :
    Settles (·.byteStart) "bytestart" fun value => (int? value).map offset? where
  own span value := by rcases value with _ | _ | (_ | _) | _ | _ <;> rfl
  other span entry other := by
    fun_cases take span entry with
    | case3 => cases other
    | _ => rfl

theorem settles_byteEnd :
    Settles (·.byteEnd) "byteend" fun value => (int? value).map offset? where
  own span value := by rcases value with _ | _ | (_ | _) | _ | _ <;> rfl
  other span entry other := by
    fun_cases take span entry with
    | case4 => cases other
    | _ => rfl

theorem Settles.foldl_take {field : SourceSpan → Option α} {name : String}
    {read : Value → Option (Option α)} (settles : Settles field name read)
    {entries : List (Key × Value)} (distinct : Assoc.Distinct entries) (span : SourceSpan) :
    field (entries.foldl take span) =
      ((Assoc.get? entries (.str name)).bind read).getD (field span) := by
  induction entries generalizing span with
  | nil => rfl
  | cons entry rest ih =>
    obtain ⟨key, value⟩ := entry
    rw [List.foldl_cons, ih (List.pairwise_cons.mp distinct).2, Assoc.get?_cons]
    by_cases same : (key == .str name) = true
    · obtain rfl := Key.eq_str_of_beq same
      -- No later entry has this key, so what it has settled stays.
      have once : Assoc.get? rest (.str name) = none :=
        Assoc.get?_eq_none_iff.mpr (Assoc.contains_eq_false_of_cons distinct)
      rw [once, settles.own, if_pos same]
      rfl
    · rw [settles.other _ _ (eq_false_of_ne_true same), if_neg same]

/-- A new span has in each field what is read from the one value that settles it. -/
theorem Settles.ofEntries {field : SourceSpan → Option α} {name : String} {view : Value → Option β}
    {read : β → Option α} (settles : Settles field name fun value => (view value).map read)
    (blank : field {} = none) {h : Heap} {t : Table} {entries : List (Key × Value)}
    (perm : entries.Perm (h.entries t)) :
    field (ofEntries entries) = ((h.get? t (.str name)).bind view).bind read := by
  have distinct : Assoc.Distinct entries := Assoc.distinct_of_perm (h.contents t).distinct perm
  have there : Assoc.get? entries (.str name) = h.get? t (.str name) :=
    Assoc.get?_perm (h.contents t).distinct perm (.str name)
  rw [SourceSpan.ofEntries, settles.foldl_take distinct, blank, there]
  cases h.get? t (.str name) with
  | none => rfl
  | some value => cases found : view value <;> simp [found]

theorem intField?_eq (h : Heap) (t : Table) (name : String) :
    h.intField? t name = (h.get? t (.str name)).bind int? := by
  rw [Heap.intField?]
  rcases h.get? t (.str name) with _ | _ | _ | (_ | _) | _ | _ <;> rfl

/-- The entries of a table may be taken over in any order. -/
theorem ofEntries_eq_ofTable {h : Heap} {t : Table} {entries : List (Key × Value)}
    (perm : entries.Perm (h.entries t)) : ofEntries entries = ofTable h t := by
  have filename := settles_filename.ofEntries rfl perm
  have line := settles_line.ofEntries rfl perm
  have byteStart := settles_byteStart.ofEntries rfl perm
  have byteEnd := settles_byteEnd.ofEntries rfl perm
  rw [Option.bind_fun_some] at filename
  rw [← intField?_eq] at line byteStart byteEnd
  calc
    ofEntries entries =
        ⟨(ofEntries entries).filename, (ofEntries entries).line, (ofEntries entries).byteStart,
          (ofEntries entries).byteEnd⟩ := rfl
    _ = ofTable h t := by
      rw [filename, line, byteStart, byteEnd]
      rfl

theorem toNat_line? {i : Int} {n : Nat} :
    (line? i).map UInt32.toNat = some n ↔ n < 2 ^ 32 ∧ i = n := by
  rw [line?]
  split
  · rename_i range
    have back : (UInt32.ofNat i.toNat).toNat = i.toNat := UInt32.toNat_ofNat_of_lt range.2
    have bound : i.toNat < 2 ^ 32 := range.2
    rw [Option.map_some, Option.some.injEq, back]
    omega
  · rename_i outside
    have size : UInt32.size = 2 ^ 32 := rfl
    simp only [Option.map_none, reduceCtorEq, false_iff]
    omega

theorem toNat_offset? {m : Int64} {n : Nat} :
    (offset? m.toInt).map UInt64.toNat = some n ↔ n < 2 ^ 63 ∧ m.toInt = n := by
  have bound : m.toInt < 2 ^ 63 := m.toInt_lt
  rw [offset?]
  split
  · have back : (UInt64.ofNat m.toInt.toNat).toNat = m.toInt.toNat :=
      UInt64.toNat_ofNat_of_lt (by change _ < 2 ^ 64; omega)
    rw [Option.map_some, Option.some.injEq, back]
    omega
  · simp only [Option.map_none, reduceCtorEq, false_iff]
    omega

end SourceSpan

namespace Heap

variable {α : Type} {h after : Heap} {t u : Table} {name : String}

/-- The value under a string key is an integer. -/
def HasInt (h : Heap) (t : Table) (name : String) (i : Int) : Prop :=
  ∃ m : Int64, h.get? t (.str name) = some (.number (.int m)) ∧ m.toInt = i

theorem intField?_eq_some_iff {i : Int} : h.intField? t name = some i ↔ h.HasInt t name i := by
  rw [intField?, HasInt]
  split
  · rename_i m found
    simp [found]
  · rename_i other
    simp only [reduceCtorEq, false_iff, not_exists, not_and]
    exact fun m found => absurd found (other m)

/-- A number is read from an integer field when it is one that the field can have. -/
theorem toNat_intField? {read : Int → Option α} {toNat : α → Nat} {n bound : Nat}
    (range : ∀ m : Int64, (read m.toInt).map toNat = some n ↔ n < bound ∧ m.toInt = n) :
    ((h.intField? t name).bind read).map toNat = some n ↔ n < bound ∧ h.HasInt t name n := by
  constructor
  · intro found
    obtain ⟨x, bound, same⟩ := Option.map_eq_some_iff.mp found
    obtain ⟨i, there, reads⟩ := Option.bind_eq_some_iff.mp bound
    obtain ⟨m, held, rfl⟩ := intField?_eq_some_iff.mp there
    obtain ⟨small, equal⟩ := (range m).mp (Option.map_eq_some_iff.mpr ⟨x, reads, same⟩)
    exact ⟨small, m, held, equal⟩
  · rintro ⟨small, m, held, equal⟩
    rw [intField?_eq_some_iff.mpr ⟨m, held, rfl⟩]
    exact (range m).mpr ⟨small, equal⟩

/-- The strings under which a table has the fields of a span. -/
def spanFieldNames : List String := ["filename", "line", "bytestart", "byteend"]

/-- A change of some table, but not of the fields of a span in the table `t`. -/
inductive BesideSpan (t : Table) : Heap → Heap → Prop where
  | insert {h : Heap} (u : Table) (key : Key) (value : Value)
      (beside : u.id = t.id → ∀ name ∈ spanFieldNames, key ≠ .str name) :
      BesideSpan t h (h.insert u key value).2
  | erase {h : Heap} (u : Table) (key : Key)
      (beside : u.id = t.id → ∀ name ∈ spanFieldNames, key ≠ .str name) :
      BesideSpan t h (h.erase u key).2
  | push {h : Heap} (u : Table) (value : Value) : BesideSpan t h (h.push u value)
  | setKeyOrder {h : Heap} (u : Table) (order : Option (List Key)) :
      BesideSpan t h (h.setKeyOrder u order)
  | setDelegate {h : Heap} (u : Table) (delegate : Option Table) :
      BesideSpan t h (h.setDelegate u delegate)
  | rearrange {h : Heap} (u : Table) (c : Contents) (perm : c.entries.Perm (h.entries u)) :
      BesideSpan t h (h.setContents u c)

/-- All that a span read from the table `t`, and a node that is made with it, depend on. -/
structure KeepsSpan (t : Table) (h after : Heap) : Prop where
  get? : ∀ name ∈ spanFieldNames, after.get? t (.str name) = h.get? t (.str name)
  names : after.names = h.names
  size : after.cells.size = h.cells.size

theorem keepsSpan_setContents {c : Contents}
    (same : u.id = t.id → ∀ name ∈ spanFieldNames, c.get? (.str name) = h.get? u (.str name)) :
    KeepsSpan t h (h.setContents u c) where
  get? name member :=
    read_setContents (Contents.get? · (.str name)) fun own => same own.symm name member
  names := rfl
  size := h.size_setContents u c

theorem BesideSpan.keepsSpan (step : BesideSpan t h after) : KeepsSpan t h after := by
  cases step with
  | insert u key value beside =>
    refine keepsSpan_setContents fun own name member => ?_
    rw [Contents.get?_insert, if_neg fun same => beside own name member (Key.eq_str_of_beq same)]
    rfl
  | erase u key beside =>
    refine keepsSpan_setContents fun own name member => ?_
    rw [Contents.get?_erase, if_neg fun same => beside own name member (Key.eq_str_of_beq same)]
    rfl
  | push u value =>
    exact keepsSpan_setContents fun _ name _ => (h.contents u).get?_insert _ (.str name) value
  | setKeyOrder u order => exact keepsSpan_setContents fun _ _ _ => rfl
  | setDelegate u delegate => exact keepsSpan_setContents fun _ _ _ => rfl
  | rearrange u c perm =>
    exact keepsSpan_setContents fun _ _ _ => Assoc.get?_perm (h.contents u).distinct perm _

theorem keepsSpan_of_path (path : Relation.ReflTransGen (BesideSpan t) h after) :
    KeepsSpan t h after := by
  induction path with
  | refl => exact ⟨fun _ _ => rfl, rfl, rfl⟩
  | tail _ step ih =>
    have last := step.keepsSpan
    exact ⟨fun name member => (last.get? name member).trans (ih.get? name member),
      last.names.trans ih.names, last.size.trans ih.size⟩

theorem KeepsSpan.ofTable (keeps : KeepsSpan t h after) :
    SourceSpan.ofTable after t = SourceSpan.ofTable h t := by
  have same (name : String) (member : name ∈ spanFieldNames) := keeps.get? name member
  simp only [SourceSpan.ofTable, intField?]
  rw [same "filename" (by decide), same "line" (by decide), same "bytestart" (by decide),
    same "byteend" (by decide)]

theorem KeepsSpan.newSymbolFrom (keeps : KeepsSpan t h after) (name : String) :
    (after.newSymbolFrom name t).1 = (h.newSymbolFrom name t).1 := by
  simp only [Heap.newSymbolFrom, newSymbol, alloc, keeps.ofTable, keeps.names, keeps.size]

theorem KeepsSpan.newVargFrom (keeps : KeepsSpan t h after) :
    (after.newVargFrom t).1 = (h.newVargFrom t).1 := by
  simp only [Heap.newVargFrom, newVarg, alloc, keeps.ofTable, keeps.size]

end Heap

namespace SourceSpan

/-- A span depends on the values under the names of its four fields alone, and each is read if it
fits the field. -/
theorem ofTable_four_fields (h : Heap) (t : Table) :
    (∀ entries, entries.Perm (h.entries t) → ofEntries entries = ofTable h t) ∧
    (∀ file, (ofTable h t).filename = some file ↔
      h.get? t (.str "filename") = some (.str file)) ∧
    (∀ n, (ofTable h t).line.map (·.toNat) = some n ↔ n < 2 ^ 32 ∧ h.HasInt t "line" n) ∧
    (∀ n, (ofTable h t).byteStart.map (·.toNat) = some n ↔
      n < 2 ^ 63 ∧ h.HasInt t "bytestart" n) ∧
    (∀ n, (ofTable h t).byteEnd.map (·.toNat) = some n ↔
      n < 2 ^ 63 ∧ h.HasInt t "byteend" n) ∧
    ∀ after, Relation.ReflTransGen (Heap.BesideSpan t) h after →
      ofTable after t = ofTable h t ∧
      (∀ name, (after.newSymbolFrom name t).1 = (h.newSymbolFrom name t).1 ∧
        (after.newSymbolFrom name t).1.span = some (ofTable h t)) ∧
      (after.newVargFrom t).1 = (h.newVargFrom t).1 ∧
      (after.newVargFrom t).1.span = some (ofTable h t) := by
  refine ⟨fun entries => ofEntries_eq_ofTable, fun file => ?_, fun n => ?_, fun n => ?_,
    fun n => ?_, fun after path => ?_⟩
  · rw [ofTable, Option.bind_eq_some_iff]
    constructor
    · rintro ⟨value, there, isFile⟩
      cases value <;> cases isFile
      exact there
    · exact fun there => ⟨_, there, rfl⟩
  · exact Heap.toNat_intField? fun m => toNat_line?
  · exact Heap.toNat_intField? fun m => toNat_offset?
  · exact Heap.toNat_intField? fun m => toNat_offset?
  · have keeps := Heap.keepsSpan_of_path path
    exact ⟨keeps.ofTable, fun name => ⟨keeps.newSymbolFrom name, congrArg some keeps.ofTable⟩,
      keeps.newVargFrom, congrArg some keeps.ofTable⟩

/-- A table with a line, and with entries whose keys only look like those of a span. -/
def lookalikes : Heap where
  names := ⟨#["line"], by decide⟩
  cells := #[.fixed, .flag false, .table (.ofOrdered
    [(.int 1, .str "stray"), (.node (.symbol ⟨1, ⟨0⟩, none⟩), .number (.int 9)),
      (.str "line", .number (.int 3)), (.str "filename", .number (.int 7))])]

theorem lookalikes_not_read :
    let t : Table := ⟨2, none⟩
    let marked := (lookalikes.insert t (.node (.symbol ⟨1, ⟨0⟩, none⟩)) (.number (.int 5))).2
    let after := (marked.erase t (.int 1)).2.setDelegate t (some t)
    ofEntries (lookalikes.entries t).reverse = ofTable lookalikes t ∧
      (ofTable lookalikes t).line.map (·.toNat) = some 3 ∧
      (ofTable lookalikes t).filename = none ∧
      Relation.ReflTransGen (Heap.BesideSpan t) lookalikes after ∧
      ofTable after t = ofTable lookalikes t := by
  intro t marked after
  have path : Relation.ReflTransGen (Heap.BesideSpan t) lookalikes after :=
    .tail (.tail (.single (.insert t _ _ fun _ _ _ => by simp)) (.erase t _ fun _ _ _ => by simp))
      (.setDelegate t _)
  obtain ⟨anyOrder, filename, line, _, _, beside⟩ := ofTable_four_fields lookalikes t
  refine ⟨anyOrder _ (List.reverse_perm _), (line 3).mpr ⟨by decide, 3, rfl, rfl⟩, ?_, path,
    (beside after path).1⟩
  rw [Option.eq_none_iff_forall_ne_some]
  intro file found
  cases (filename file).mp found

end SourceSpan

end LispFrontEnd
