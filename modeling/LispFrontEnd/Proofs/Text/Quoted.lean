import LispFrontEnd.Printing

/-! # Reading quoted strings

A quoted string is read back from the front of any text, whatever follows it: so no two strings are
written alike, no written string is the beginning of another, and what stands behind one is settled
with it. It ends at the first quote that no backslash escapes, and it stands on one line, without
tab or carriage return.
-/

namespace LispFrontEnd.Text.Quoted

/-- The character that another stands for behind a backslash. -/
def unescape? : Char → Option Char
  | 'n' => some '\n'
  | 't' => some '\t'
  | 'r' => some '\r'
  | '\\' => some '\\'
  | '"' => some '"'
  | _ => none

/-- Reads on behind the opening quote, and answers the string and the text behind the closing quote.
-/
def readBody? : List Char → Option (List Char × List Char)
  | [] => none
  | '"' :: rest => some ([], rest)
  | '\\' :: c :: rest =>
    (unescape? c).bind fun d => (readBody? rest).map fun (text, after) => (d :: text, after)
  | c :: rest => (readBody? rest).map fun (text, after) => (c :: text, after)

theorem readBody?_escape (c : Char) (rest : List Char) :
    readBody? (escape c ++ rest) =
      (readBody? rest).map fun (text, after) => (c :: text, after) := by
  fun_cases escape c with
  | case6 c notNewline notTab notReturn notBackslash notQuote =>
    rw [List.singleton_append, readBody?]
    · exact notQuote
    · intro d later
      exact fun same => absurd same notBackslash
  | _ => rfl

theorem readBody?_encoded (text rest : List Char) :
    readBody? (text.flatMap escape ++ '"' :: rest) = some (text, rest) := by
  induction text with
  | nil => rfl
  | cons c text ih =>
    rw [List.flatMap_cons, List.append_assoc, readBody?_escape, ih]
    rfl

/-- What is written for a text decides the text, and where it ends. -/
theorem encode_append_inj {text other rest rest' : List Char} :
    encode text ++ rest = encode other ++ rest' ↔ text = other ∧ rest = rest' := by
  refine ⟨fun same => ?_, fun ⟨sameText, sameRest⟩ => sameText ▸ sameRest ▸ rfl⟩
  simp only [encode, List.cons_append, List.append_assoc, List.nil_append, List.cons.injEq,
    true_and] at same
  have read := congrArg readBody? same
  rw [readBody?_encoded, readBody?_encoded] at read
  exact Prod.mk.inj (Option.some.inj read)

/-- A text escapes what comes next when it ends in a backslash that is not escaped itself. -/
def escapesNext (text : List Char) : Bool :=
  text.foldl (fun escaped c => c == '\\' && !escaped) false

/-- What is in front of a text is forgotten when it escapes nothing of it. -/
theorem escapesNext_append {front : List Char} (plain : escapesNext front = false)
    (back : List Char) : escapesNext (front ++ back) = escapesNext back := by
  rw [escapesNext, List.foldl_append, ← escapesNext, plain]
  rfl

theorem escapesNext_escape (c : Char) : escapesNext (escape c) = false := by
  fun_cases escape c with
  | case6 c notNewline notTab notReturn notBackslash notQuote =>
    simpa [escapesNext] using notBackslash
  | _ => rfl

theorem escapesNext_encoded (text : List Char) :
    escapesNext (text.flatMap escape) = false := by
  induction text with
  | nil => rfl
  | cons c text ih => rw [List.flatMap_cons, escapesNext_append (escapesNext_escape c), ih]

/-- The one quote that is written inside a string stands behind a backslash. -/
theorem escapesNext_of_escape {c : Char} {front back : List Char}
    (split : escape c = front ++ '"' :: back) : escapesNext front = true := by
  fun_cases escape c with
  | case5 =>
    obtain ⟨_, rfl, rfl, _⟩ : ∃ later, front = '\\' :: later ∧ later = [] ∧ back = [] := by
      simpa [escape, List.cons_eq_append_iff] using split
    rfl
  | case6 c notNewline notTab notReturn notBackslash notQuote =>
    obtain ⟨_, same, _⟩ : front = [] ∧ '"' = c ∧ back = [] := by
      simpa [escape, List.cons_eq_append_iff] using split
    exact absurd same.symm notQuote
  | _ => simp [escape, List.cons_eq_append_iff] at split

theorem escapesNext_of_encoded {text front back : List Char}
    (split : text.flatMap escape = front ++ '"' :: back) : escapesNext front = true := by
  induction text generalizing front with
  | nil => simp at split
  | cons c text ih =>
    rw [List.flatMap_cons] at split
    -- The quote is written for a later character or for this one.
    rcases List.append_eq_append_iff.mp split with ⟨later, rfl, rest⟩ | ⟨own, whole, rest⟩
    · rw [escapesNext_append (escapesNext_escape c), ih rest]
    · cases own with
      | nil => cases @ih [] rest.symm
      | cons quote own =>
        obtain ⟨rfl, _⟩ := List.cons.inj rest
        exact escapesNext_of_escape whole

theorem encode_on_one_line (text : List Char) : ∀ c ∈ encode text, c ∉ ['\n', '\t', '\r'] := by
  have escaped (d : Char) : ∀ c ∈ escape d, c ∉ ['\n', '\t', '\r'] := by
    fun_cases escape d <;> simp_all
  simp only [encode, List.cons_append, List.forall_mem_cons, List.forall_mem_append,
    List.mem_flatMap]
  refine ⟨by decide, ?_, by decide, List.forall_mem_nil _⟩
  rintro c ⟨d, _, member⟩
  exact escaped d c member

end LispFrontEnd.Text.Quoted

namespace LispFrontEnd.Heap

open Text

theorem toList_text_str (h : Heap) (s : String) :
    (h.text (.str s)).toList = Quoted.encode s.toList :=
  String.toList_ofList

/-- A printed string ends at its first quote that is not escaped, stands on one line, and cannot be
taken for another. -/
theorem text_str_unambiguous (h : Heap) (s : String) :
    (∀ (other : Heap) (t u v : String),
      h.text (.str s) ++ u = other.text (.str t) ++ v ↔ s = t ∧ u = v) ∧
    (∃ body, (h.text (.str s)).toList = '"' :: body ++ ['"'] ∧
      Quoted.escapesNext body = false ∧
      ∀ front back, body = front ++ '"' :: back → Quoted.escapesNext front = true) ∧
    ∀ c ∈ (h.text (.str s)).toList, c ∉ ['\n', '\t', '\r'] := by
  refine ⟨fun other t u v => ?_, ?_, ?_⟩
  · rw [← String.toList_inj, String.toList_append, String.toList_append, toList_text_str,
      toList_text_str, Quoted.encode_append_inj, String.toList_inj, String.toList_inj]
  · rw [toList_text_str]
    exact ⟨_, rfl, Quoted.escapesNext_encoded _, fun _ _ => Quoted.escapesNext_of_encoded⟩
  · rw [toList_text_str]
    exact Quoted.encode_on_one_line _

end LispFrontEnd.Heap
