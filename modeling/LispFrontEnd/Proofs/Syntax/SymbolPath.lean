import LispFrontEnd.Syntax.SymbolPath
import Mathlib.Data.List.Basic
import Mathlib.Data.Set.Subsingleton

/-! # Which names are paths

`SymbolPath.Spells` is the grammar of paths: at least two segments, none of them empty or with a
separator in it, one after the other with a dot in between, or a colon before the last one when the
path is a method call. `ofName?` finds the one path that spells a name, and refuses exactly the
names with one of the faults in `Malformed`: no separator, one at an end, two in a row, or a colon
before another separator. A well-formed path spells the name that it writes, and no other.
-/

namespace LispFrontEnd.SymbolPath

/-- A text that can be a segment of a path. -/
structure IsSegment (text : String) : Prop where
  nonempty : text ≠ ""
  plain : ∀ c ∈ text.toList, c ≠ '.' ∧ c ≠ ':'

structure IsWellFormed (path : SymbolPath) : Prop where
  several : 2 ≤ path.segments.length
  segment : ∀ text ∈ path.segments, IsSegment text

structure Spells (path : SymbolPath) (name : String) : Prop where
  segment : ∀ text ∈ path.segments, IsSegment text
  joined : ∃ front last, path.segments = front ++ [last] ∧ front ≠ [] ∧
    name = ".".intercalate front ++ (if path.methodCall then ":" else ".") ++ last

/-- What makes a name no path. -/
inductive Malformed : List Char → Prop where
  | plain {text : List Char} (uncut : ∀ c ∈ text, isSeparator c = false) : Malformed text
  | leading {c : Char} (separator : isSeparator c = true) (rest : List Char) : Malformed (c :: rest)
  | trailing {c : Char} (separator : isSeparator c = true) (front : List Char) :
    Malformed (front ++ [c])
  | doubled {c d : Char} (first : isSeparator c = true) (second : isSeparator d = true)
      (front rest : List Char) :
    Malformed (front ++ c :: d :: rest)
  /-- A colon with another separator somewhere behind it. -/
  | early {c : Char} (separator : isSeparator c = true) (front middle rest : List Char) :
    Malformed (front ++ ':' :: (middle ++ c :: rest))

theorem isSeparator_iff {c : Char} : isSeparator c = true ↔ c = '.' ∨ c = ':' := by
  simp [isSeparator]

theorem isSeparator_eq_false_iff {c : Char} : isSeparator c = false ↔ c ≠ '.' ∧ c ≠ ':' := by
  simp [isSeparator]

theorem isSegment_ofList_iff {text : List Char} :
    IsSegment (String.ofList text) ↔ text ≠ [] ∧ ∀ c ∈ text, isSeparator c = false := by
  simp only [isSeparator_eq_false_iff]
  constructor
  · rintro ⟨nonempty, plain⟩
    rw [String.toList_ofList] at plain
    exact ⟨by simpa using nonempty, plain⟩
  · rintro ⟨nonempty, plain⟩
    exact ⟨by simpa using nonempty, by simpa using plain⟩

/-- A path with a last segment writes its method separator in front of it. -/
theorem name_append_singleton {front : List String} (several : front ≠ []) (last : String)
    (methodCall : Bool) :
    SymbolPath.name ⟨front ++ [last], methodCall⟩ =
      ".".intercalate front ++ (if methodCall then ":" else ".") ++ last := by
  cases methodCall with
  | true => simp [SymbolPath.name]
  | false => simp [SymbolPath.name, String.intercalate_append_of_ne_nil several]

theorem spells_iff {path : SymbolPath} {name : String} :
    path.Spells name ↔ path.IsWellFormed ∧ path.name = name := by
  obtain ⟨segments, methodCall⟩ := path
  constructor
  · rintro ⟨segment, front, last, rfl, several, rfl⟩
    refine ⟨⟨?_, segment⟩, name_append_singleton several last methodCall⟩
    have := List.length_pos_iff.mpr several
    simp only [List.length_append, List.length_singleton]
    omega
  · rintro ⟨⟨several, segment⟩, rfl⟩
    rcases List.eq_nil_or_concat' segments with rfl | ⟨front, last, rfl⟩
    · simp at several
    · have others : front ≠ [] := by
        rintro rfl
        simp at several
      exact ⟨segment, front, last, rfl, others, name_append_singleton others last methodCall⟩

/-- The text that has been cut. -/
def glue (first : List Char) (later : List (Char × List Char)) : List Char :=
  first ++ later.flatMap fun piece => piece.1 :: piece.2

@[simp]
theorem glue_nil (first : List Char) : glue first [] = first := by simp [glue]

@[simp]
theorem glue_cons (first segment : List Char) (c : Char) (later : List (Char × List Char)) :
    glue first ((c, segment) :: later) = first ++ c :: glue segment later := by
  simp [glue]

theorem split_cons_separator {c : Char} (separator : isSeparator c = true) (rest : List Char) :
    split (c :: rest) = ([], (c, (split rest).1) :: (split rest).2) := by
  rw [split]
  simp [separator]

theorem split_cons_plain {c : Char} (plain : isSeparator c = false) (rest : List Char) :
    split (c :: rest) = (c :: (split rest).1, (split rest).2) := by
  rw [split]
  simp [plain]

/-- Cutting loses nothing. -/
theorem glue_split (text : List Char) : glue (split text).1 (split text).2 = text := by
  induction text with
  | nil => rfl
  | cons c rest ih =>
    cases kind : isSeparator c with
    | true => simp [split_cons_separator kind, ih]
    | false =>
      rw [split_cons_plain kind]
      exact congrArg (c :: ·) ih

/-- The cuts are at separators. -/
theorem plain_split (text : List Char) : (∀ c ∈ (split text).1, isSeparator c = false) ∧
    ∀ piece ∈ (split text).2,
      isSeparator piece.1 = true ∧ ∀ c ∈ piece.2, isSeparator c = false := by
  induction text with
  | nil => simp [split]
  | cons c rest ih =>
    cases kind : isSeparator c with
    | true =>
      rw [split_cons_separator kind]
      exact ⟨List.forall_mem_nil _, List.forall_mem_cons.mpr ⟨⟨kind, ih.1⟩, ih.2⟩⟩
    | false =>
      rw [split_cons_plain kind]
      exact ⟨List.forall_mem_cons.mpr ⟨kind, ih.1⟩, ih.2⟩

/-- Every separator is a cut. -/
theorem split_append_separator {c : Char} (separator : isSeparator c = true)
    (front rest : List Char) :
    split (front ++ c :: rest) =
      ((split front).1, (split front).2 ++ (c, (split rest).1) :: (split rest).2) := by
  induction front with
  | nil => exact split_cons_separator separator rest
  | cons d front ih =>
    rw [List.cons_append]
    cases kind : isSeparator d with
    | true => rw [split_cons_separator kind, split_cons_separator kind, ih, List.cons_append]
    | false => rw [split_cons_plain kind, split_cons_plain kind, ih]

theorem split_plain {text : List Char} (plain : ∀ c ∈ text, isSeparator c = false) :
    split text = (text, []) := by
  induction text with
  | nil => rfl
  | cons c rest ih =>
    obtain ⟨head, tail⟩ := List.forall_mem_cons.mp plain
    rw [split_cons_plain head, ih tail]

/-- There is one way to cut a text at all its separators. -/
theorem split_glue {first : List Char} {later : List (Char × List Char)}
    (plain : ∀ c ∈ first, isSeparator c = false)
    (cuts : ∀ piece ∈ later, isSeparator piece.1 = true ∧ ∀ c ∈ piece.2, isSeparator c = false) :
    split (glue first later) = (first, later) := by
  induction later generalizing first with
  | nil =>
    rw [glue_nil]
    exact split_plain plain
  | cons piece later ih =>
    obtain ⟨⟨separator, inside⟩, cuts⟩ := List.forall_mem_cons.mp cuts
    rw [glue_cons, split_append_separator separator, split_plain plain, ih inside cuts,
      List.nil_append]

theorem glue_append (first : List Char) (later more : List (Char × List Char)) :
    glue first (later ++ more) =
      glue first later ++ more.flatMap fun piece => piece.1 :: piece.2 := by
  simp [glue]

/-- A segment with the dot in front of it. -/
def dotted (text : String) : Char × List Char := ('.', text.toList)

def lastSeparator (methodCall : Bool) : Char := if methodCall then ':' else '.'

theorem toList_intercalate_dot (first : String) (front : List String) :
    (".".intercalate (first :: front)).toList = glue first.toList (front.map dotted) := by
  induction front generalizing first with
  | nil => simp
  | cons second front ih =>
    rw [String.intercalate_cons_cons, String.toList_append, String.toList_append, ih]
    simp [dotted]

theorem joined_iff {name first last : String} {front : List String} {methodCall : Bool} :
    name = ".".intercalate (first :: front) ++ (if methodCall then ":" else ".") ++ last ↔
      glue first.toList (front.map dotted ++ [(lastSeparator methodCall, last.toList)]) =
        name.toList := by
  have separator : (if methodCall then ":" else ".").toList = [lastSeparator methodCall] := by
    cases methodCall <;> rfl
  rw [← String.toList_inj, String.toList_append, String.toList_append, toList_intercalate_dot,
    separator, glue_append]
  simp [eq_comm]

section Accept
variable {name : String} {first last : List Char} {middle : List (Char × List Char)} {c : Char}

theorem ofName?_of_uncut (cut : split name.toList = (first, [])) : ofName? name = none := by
  simp [ofName?, cut]

theorem ofName?_of_cut (cut : split name.toList = (first, middle ++ [(c, last)])) :
    ofName? name =
      if (first :: (middle.map (·.2) ++ [last])).any List.isEmpty || middle.any (·.1 == ':') then
        none
      else some ⟨(first :: (middle.map (·.2) ++ [last])).map String.ofList, c == ':'⟩ := by
  simp only [ofName?, cut, List.getLast?_append, List.getLast?_singleton, Option.some_or,
    List.map_append, List.map_singleton, List.dropLast_concat]

/-- Whether a name is refused, told by its cuts. -/
def Faulty (cut : List Char × List (Char × List Char)) : Prop :=
  cut.2 = [] ∨ cut.1 = [] ∨ (∃ piece ∈ cut.2, piece.2 = []) ∨
    ∃ piece ∈ cut.2.dropLast, piece.1 = ':'

theorem ofName?_eq_none_iff_faulty : ofName? name = none ↔ Faulty (split name.toList) := by
  rcases cut : split name.toList with ⟨first, later⟩
  rcases List.eq_nil_or_concat' later with rfl | ⟨middle, ⟨c, last⟩, rfl⟩
  · simp [ofName?_of_uncut cut, Faulty]
  · have faulty : ((first :: (middle.map (·.2) ++ [last])).any List.isEmpty ||
        middle.any (·.1 == ':')) = true ↔ Faulty (first, middle ++ [(c, last)]) := by
      simp [Faulty, or_assoc]
    rw [ofName?_of_cut cut, ← faulty]
    split <;> simp_all

theorem ofName?_of_not_faulty (cut : split name.toList = (first, middle ++ [(c, last)]))
    (sound : ¬ Faulty (split name.toList)) :
    ofName? name = some ⟨(first :: (middle.map (·.2) ++ [last])).map String.ofList, c == ':'⟩ := by
  rw [← ofName?_eq_none_iff_faulty, ofName?_of_cut cut] at sound
  rw [ofName?_of_cut cut]
  split at sound
  · exact absurd rfl sound
  · rename_i accepted
    rw [if_neg accepted]

theorem spells_of_cut (cut : split name.toList = (first, middle ++ [(c, last)]))
    (sound : ¬ Faulty (split name.toList)) :
    Spells ⟨(first :: (middle.map (·.2) ++ [last])).map String.ofList, c == ':'⟩ name := by
  obtain ⟨plain, cuts⟩ := plain_split name.toList
  have glued := glue_split name.toList
  rw [cut] at plain cuts glued sound
  simp only [Faulty, List.dropLast_concat, not_or, not_exists, not_and] at sound
  obtain ⟨_, nonempty, filled, dots⟩ := sound
  have segment : ∀ text ∈ first :: (middle.map (·.2) ++ [last]),
      IsSegment (String.ofList text) := by
    intro text member
    rw [isSegment_ofList_iff]
    rcases List.mem_cons.mp member with rfl | member
    · exact ⟨nonempty, plain⟩
    · have pieces : middle.map (·.2) ++ [last] = (middle ++ [(c, last)]).map (·.2) := by simp
      rw [pieces] at member
      obtain ⟨piece, there, rfl⟩ := List.mem_map.mp member
      exact ⟨filled piece there, (cuts piece there).2⟩
  refine ⟨List.forall_mem_map.mpr segment,
    (first :: middle.map (·.2)).map String.ofList, String.ofList last, by simp, by simp, ?_⟩
  have same : (middle.map (·.2)).map (dotted ∘ String.ofList) = middle := by
    rw [List.map_map]
    refine (List.map_congr_left fun piece member => ?_).trans middle.map_id
    have separator := (cuts piece (List.mem_append_left _ member)).1
    have dot : piece.1 = '.' :=
      (isSeparator_iff.mp separator).resolve_right (dots piece member)
    exact Prod.ext dot.symm (by simp [dotted])
  have separator : lastSeparator (c == ':') = c := by
    have separator := (cuts (c, last) (by simp)).1
    rcases isSeparator_iff.mp separator with rfl | rfl <;> rfl
  rw [List.map_cons, joined_iff, List.map_map, same, separator, String.toList_ofList,
    String.toList_ofList]
  exact glued

/-- The cuts of a name that a path spells. -/
theorem cut_of_spells {path : SymbolPath} (spells : path.Spells name) :
    ∃ first middle c last, split name.toList = (first, middle ++ [(c, last)]) ∧
      ¬ Faulty (split name.toList) ∧
      path = ⟨(first :: (middle.map (·.2) ++ [last])).map String.ofList, c == ':'⟩ := by
  obtain ⟨segments, methodCall⟩ := path
  obtain ⟨segment, front, last, rfl, several, joined⟩ := spells
  obtain ⟨first, front, rfl⟩ := List.exists_cons_of_ne_nil several
  dsimp only at segment joined
  have clean (text : String) (member : text ∈ first :: front ++ [last]) :
      text.toList ≠ [] ∧ ∀ c ∈ text.toList, isSeparator c = false := by
    rw [← isSegment_ofList_iff, String.ofList_toList]
    exact segment text member
  have separator : isSeparator (lastSeparator methodCall) = true := by cases methodCall <;> rfl
  have pieces : ∀ piece ∈ front.map dotted ++ [(lastSeparator methodCall, last.toList)],
      (isSeparator piece.1 = true ∧ ∀ c ∈ piece.2, isSeparator c = false) ∧ piece.2 ≠ [] := by
    intro piece member
    rcases List.mem_append.mp member with member | member
    · obtain ⟨text, there, rfl⟩ := List.mem_map.mp member
      obtain ⟨filled, plain⟩ := clean text (by simp [there])
      exact ⟨⟨rfl, plain⟩, filled⟩
    · rw [List.mem_singleton] at member
      obtain ⟨filled, plain⟩ := clean last (by simp)
      exact member ▸ ⟨⟨separator, plain⟩, filled⟩
  obtain ⟨nonempty, plain⟩ := clean first (by simp)
  have cut := split_glue plain fun piece member => (pieces piece member).1
  rw [joined_iff.mp joined] at cut
  refine ⟨first.toList, front.map dotted, lastSeparator methodCall, last.toList, cut, ?_, ?_⟩
  · rw [cut]
    rintro (uncut | empty | ⟨piece, member, empty⟩ | ⟨piece, member, colon⟩)
    · simp at uncut
    · exact nonempty empty
    · exact (pieces piece member).2 empty
    · rw [List.dropLast_concat] at member
      obtain ⟨text, _, rfl⟩ := List.mem_map.mp member
      cases colon
  · have method : (lastSeparator methodCall == ':') = methodCall := by cases methodCall <;> rfl
    have texts : front.map (String.ofList ∘ Prod.snd ∘ dotted) = front := by
      simp [Function.comp_def, dotted]
    simp [method, texts]

theorem ofName?_eq_some_iff {path : SymbolPath} : ofName? name = some path ↔ path.Spells name := by
  constructor
  · intro accepted
    have sound : ¬ Faulty (split name.toList) := by
      rw [← ofName?_eq_none_iff_faulty, accepted]
      exact Option.some_ne_none path
    rcases cut : split name.toList with ⟨first, later⟩
    rcases List.eq_nil_or_concat' later with rfl | ⟨middle, ⟨c, last⟩, rfl⟩
    · rw [ofName?_of_uncut cut] at accepted
      cases accepted
    · rw [ofName?_of_not_faulty cut sound] at accepted
      cases accepted
      exact spells_of_cut cut sound
  · intro spells
    obtain ⟨first, middle, c, last, cut, sound, rfl⟩ := cut_of_spells spells
    exact ofName?_of_not_faulty cut sound

end Accept

theorem faulty_of_malformed {text : List Char} (malformed : Malformed text) :
    Faulty (split text) := by
  cases malformed with
  | plain uncut =>
    rw [split_plain uncut]
    exact .inl rfl
  | leading separator rest =>
    rw [split_cons_separator separator]
    exact .inr (.inl rfl)
  | @trailing c separator front =>
    rw [split_append_separator separator]
    exact .inr (.inr (.inl ⟨(c, []), by simp [split], rfl⟩))
  | @doubled c d first second front rest =>
    rw [split_append_separator first, split_cons_separator second]
    exact .inr (.inr (.inl ⟨(c, []), by simp, rfl⟩))
  | early separator front middle rest =>
    rw [split_append_separator (c := ':') rfl, split_append_separator separator]
    refine .inr (.inr (.inr ⟨(':', (split middle).1), ?_, rfl⟩))
    rw [List.dropLast_append_of_ne_nil (List.cons_ne_nil _ _),
      List.dropLast_cons_of_ne_nil (by simp)]
    simp

theorem malformed_of_faulty {text : List Char} (faulty : Faulty (split text)) : Malformed text := by
  obtain ⟨plain, cuts⟩ := plain_split text
  have glued := glue_split text
  generalize split text = cut at faulty plain cuts glued
  obtain ⟨first, later⟩ := cut
  subst glued
  rcases faulty with uncut | empty | ⟨⟨c, segment⟩, member, empty⟩ | ⟨⟨c, segment⟩, member, colon⟩
  · obtain rfl : later = [] := uncut
    rw [glue_nil]
    exact .plain plain
  · obtain rfl : first = [] := empty
    cases later with
    | nil => exact .plain plain
    | cons piece later =>
      rw [glue_cons, List.nil_append]
      exact .leading (cuts piece List.mem_cons_self).1 _
  · obtain rfl : segment = [] := empty
    obtain ⟨before, after, rfl⟩ := List.append_of_mem member
    have separator := (cuts (c, []) (by simp)).1
    rw [glue_append]
    cases after with
    | nil => exact .trailing separator _
    | cons piece after =>
      have second := (cuts piece (by simp)).1
      exact .doubled separator second _ _
  · obtain rfl : c = ':' := colon
    rcases List.eq_nil_or_concat' later with rfl | ⟨middle, ⟨d, last⟩, rfl⟩
    · cases member
    · rw [List.dropLast_concat] at member
      obtain ⟨before, after, rfl⟩ := List.append_of_mem member
      have separator := (cuts (d, last) (by simp)).1
      have text_eq : glue first (before ++ (':', segment) :: after ++ [(d, last)]) =
          glue first before ++ ':' ::
            (segment ++ (after.flatMap fun piece => piece.1 :: piece.2) ++ d :: last) := by
        simp [glue]
      rw [text_eq]
      exact .early separator _ _ _

/-- A name is read as a path exactly when that path, and then no other, spells it, and as none
exactly when it is malformed. -/
theorem ofName?_exact (name : String) :
    (∀ path, ofName? name = some path ↔ path.Spells name) ∧
    {path : SymbolPath | path.Spells name}.Subsingleton ∧
    (∀ path : SymbolPath, path.Spells name ↔ path.IsWellFormed ∧ path.name = name) ∧
    (ofName? name = none ↔ Malformed name.toList) := by
  refine ⟨fun path => ofName?_eq_some_iff, ?_, fun path => spells_iff, ?_⟩
  · intro one spellsOne other spellsOther
    have found := ofName?_eq_some_iff.mpr spellsOne
    exact Option.some.inj (found.symm.trans (ofName?_eq_some_iff.mpr spellsOther))
  · rw [ofName?_eq_none_iff_faulty]
    exact ⟨malformed_of_faulty, faulty_of_malformed⟩

example : ofName? "io.λ:write" = some ⟨["io", "λ", "write"], true⟩ := by decide +kernel

end LispFrontEnd.SymbolPath
