import LispFrontEnd.Proofs.Syntax.NamePool
import LispFrontEnd.Proofs.Text.ByteOrder

/-! # Names from a store of texts

Names are handed out by a store of texts, of which no more is known than `TextStore.Lawful` says. A
text is looked up first and added only if it is not there; a name without a text would be read as
the empty text, and equal names are compared without a look at their texts. However many texts have
been asked for, the names are in bijection with them, so that neither shows: a name has its text
after any further requests, and names compare as the bytes of their texts
(`mintAll_resolves_and_compares`). A `NamePool` is such a store, and interns, reads and compares as
a store does.
-/

namespace LispFrontEnd

/-- What a store of texts can do: look a text up, look it up or add it, and read the text under a
name. -/
structure TextStore (S I : Type) where
  get? : S → String → Option I
  getOrAdd : S → String → I × S
  resolve? : S → I → Option String

namespace TextStore

variable {S I : Type}

/-- A text is found under the name that it has been given, and a new text gets a name of its own
beside the others. -/
structure Lawful (store : TextStore S I) : Prop where
  get?_eq_some_iff : ∀ s text name,
    store.get? s text = some name ↔ store.resolve? s name = some text
  resolve?_added : ∀ s text, store.get? s text = none →
    store.resolve? (store.getOrAdd s text).2 (store.getOrAdd s text).1 = some text
  resolve?_kept : ∀ s text, store.get? s text = none → ∀ name old,
    store.resolve? s name = some old → store.resolve? (store.getOrAdd s text).2 name = some old

variable (store : TextStore S I)

def mint (s : S) (text : String) : I × S :=
  match store.get? s text with
  | some name => (name, s)
  | none => store.getOrAdd s text

def text (s : S) (name : I) : String := (store.resolve? s name).getD ""

def compareText [DecidableEq I] (s : S) (a b : I) : Ordering :=
  if a = b then .eq else compare (store.text s a) (store.text s b)

/-- Asks for texts one after the other, and answers each with its name and then the last store. -/
def mintAll (s : S) : List String → List (String × I) × S
  | [] => ([], s)
  | text :: rest =>
    let (name, next) := store.mint s text
    let (minted, last) := mintAll next rest
    ((text, name) :: minted, last)

theorem mintAll_cons (s : S) (text : String) (rest : List String) :
    store.mintAll s (text :: rest) =
      ((text, (store.mint s text).1) :: (store.mintAll (store.mint s text).2 rest).1,
        (store.mintAll (store.mint s text).2 rest).2) :=
  rfl

theorem map_fst_mintAll (s : S) (texts : List String) :
    (store.mintAll s texts).1.map (·.1) = texts := by
  induction texts generalizing s with
  | nil => rfl
  | cons text rest ih => rw [mintAll_cons, List.map_cons, ih]

namespace Lawful

variable {store} {s : S} {a b : I} {first second : String}

theorem resolve?_mint (lawful : store.Lawful) (s : S) (text : String) :
    store.resolve? (store.mint s text).2 (store.mint s text).1 = some text := by
  rw [mint]
  split
  · rename_i name found
    exact (lawful.get?_eq_some_iff s text name).mp found
  · rename_i absent
    exact lawful.resolve?_added s text absent

/-- A later request takes no name away and changes no text. -/
theorem resolve?_after_mint (lawful : store.Lawful) (resolves : store.resolve? s a = some first)
    (text : String) : store.resolve? (store.mint s text).2 a = some first := by
  rw [mint]
  split
  · exact resolves
  · rename_i absent
    exact lawful.resolve?_kept s text absent a first resolves

/-- Names are in bijection with the texts under them. -/
theorem name_eq_iff (lawful : store.Lawful) (resolvesA : store.resolve? s a = some first)
    (resolvesB : store.resolve? s b = some second) : a = b ↔ first = second := by
  constructor
  · rintro rfl
    exact Option.some.inj (resolvesA.symm.trans resolvesB)
  · rintro rfl
    have foundA := (lawful.get?_eq_some_iff s first a).mpr resolvesA
    have foundB := (lawful.get?_eq_some_iff s first b).mpr resolvesB
    exact Option.some.inj (foundA.symm.trans foundB)

theorem resolve?_mintAll (lawful : store.Lawful) (resolves : store.resolve? s a = some first)
    (texts : List String) : store.resolve? (store.mintAll s texts).2 a = some first := by
  induction texts generalizing s with
  | nil => exact resolves
  | cons text rest ih => exact ih (lawful.resolve?_after_mint resolves text)

theorem resolve?_of_mem_mintAll (lawful : store.Lawful) {texts : List String}
    {request : String × I} (asked : request ∈ (store.mintAll s texts).1) :
    store.resolve? (store.mintAll s texts).2 request.2 = some request.1 := by
  induction texts generalizing s with
  | nil => cases asked
  | cons text rest ih =>
    rw [mintAll_cons] at asked ⊢
    rcases List.mem_cons.mp asked with rfl | later
    · exact lawful.resolve?_mintAll (lawful.resolve?_mint s text) rest
    · exact ih later

end Lawful

variable {store} {s : S} {a b : I} {first second : String}

theorem text_of_resolve? (resolves : store.resolve? s a = some first) : store.text s a = first := by
  rw [TextStore.text, resolves, Option.getD_some]

theorem compareText_of_resolve? [DecidableEq I] (resolvesA : store.resolve? s a = some first)
    (resolvesB : store.resolve? s b = some second) :
    store.compareText s a b = Text.compareBytes first second := by
  rw [Text.compareBytes_eq_compare, compareText, text_of_resolve? resolvesA,
    text_of_resolve? resolvesB]
  split
  · rename_i same
    subst same
    obtain rfl := Option.some.inj (resolvesA.symm.trans resolvesB)
    exact Std.compare_self.symm
  · rfl

end TextStore

namespace NamePool

def store : TextStore NamePool Name where
  get? pool text := (pool.texts.idxOf? text).map Name.mk
  getOrAdd := intern
  resolve? pool name := pool.texts[name.index]?

theorem resolve?_store_eq_some_iff {pool : NamePool} {name : Name} {text : String} :
    store.resolve? pool name = some text ↔
      name.index < pool.texts.size ∧ pool.text name = text := by
  change pool.texts[name.index]? = some text ↔ _
  rw [NamePool.text, Array.getElem?_eq_some_iff]
  constructor
  · rintro ⟨place, found⟩
    exact ⟨place, by rw [Array.getElem?_eq_getElem place, Option.getD_some, found]⟩
  · rintro ⟨place, found⟩
    rw [Array.getElem?_eq_getElem place, Option.getD_some] at found
    exact ⟨place, found⟩

theorem resolve?_intern (pool : NamePool) (text : String) :
    store.resolve? (pool.intern text).2 (pool.intern text).1 = some text :=
  resolve?_store_eq_some_iff.mpr ⟨(pool.index_intern_lt text).1, pool.text_intern text⟩

theorem intern_of_get? {pool : NamePool} {text : String} {name : Name}
    (found : store.get? pool text = some name) : pool.intern text = (name, pool) := by
  obtain ⟨index, first, rfl⟩ := Option.map_eq_some_iff.mp found
  rw [intern]
  split
  · rename_i there
    cases first.symm.trans there
    rfl
  · rename_i absent
    cases first.symm.trans absent

theorem mint_store (pool : NamePool) (text : String) : store.mint pool text = pool.intern text := by
  rw [TextStore.mint]
  split
  · rename_i found
    exact (intern_of_get? found).symm
  · rfl

theorem resolve?_of_get? {pool : NamePool} {text : String} {name : Name}
    (found : store.get? pool text = some name) : store.resolve? pool name = some text := by
  have resolves := pool.resolve?_intern text
  rwa [intern_of_get? found] at resolves

/-- A text that is there is found, and under its only name. -/
theorem get?_of_resolve? {pool : NamePool} {text : String} {name : Name}
    (resolves : store.resolve? pool name = some text) : store.get? pool text = some name := by
  cases found : store.get? pool text with
  | none =>
    have there : text ∈ pool.texts := Array.mem_of_getElem? resolves
    exact absurd there (Array.idxOf?_eq_none_iff.mp (Option.map_eq_none_iff.mp found))
  | some other =>
    obtain ⟨place, same⟩ := resolve?_store_eq_some_iff.mp (resolve?_of_get? found)
    obtain ⟨placeToo, sameToo⟩ := resolve?_store_eq_some_iff.mp resolves
    exact congrArg some (pool.eq_of_text_eq place placeToo (same.trans sameToo.symm))

theorem store_lawful : store.Lawful where
  get?_eq_some_iff _ _ _ := ⟨resolve?_of_get?, get?_of_resolve?⟩
  resolve?_added pool text _ := pool.resolve?_intern text
  resolve?_kept pool text _ name old resolves := by
    obtain ⟨place, found⟩ := resolve?_store_eq_some_iff.mp resolves
    have grown := (pool.index_intern_lt text).2
    exact resolve?_store_eq_some_iff.mpr
      ⟨Nat.lt_of_lt_of_le place grown, (pool.text_after_intern place text).trans found⟩

end NamePool

namespace TextStore

/-- However often and in whatever order texts are asked for, each keeps its name, and names are
equal and compare as their texts do. -/
theorem mintAll_resolves_and_compares :
    NamePool.store.Lawful ∧
    (∀ (pool : NamePool) (text : String) (a b : Name),
      NamePool.store.mint pool text = pool.intern text ∧
        NamePool.store.text pool a = pool.text a ∧
        NamePool.store.compareText pool a b = pool.compareText a b) ∧
    ∀ {S I : Type} [DecidableEq I] (store : TextStore S I), store.Lawful →
      ∀ (s : S) (texts later : List String),
        let minted := (store.mintAll s texts).1
        let last := (store.mintAll (store.mintAll s texts).2 later).2
        minted.map (·.1) = texts ∧
          ∀ one ∈ minted, store.resolve? last one.2 = some one.1 ∧ store.text last one.2 = one.1 ∧
            ∀ other ∈ minted, (one.2 = other.2 ↔ one.1 = other.1) ∧
              store.compareText last one.2 other.2 = Text.compareBytes one.1 other.1 := by
  refine ⟨NamePool.store_lawful, fun pool text a b => ⟨pool.mint_store text, rfl, rfl⟩, ?_⟩
  intro S I _ store lawful s texts later minted last
  have resolves (request : String × I) (asked : request ∈ minted) :
      store.resolve? last request.2 = some request.1 :=
    lawful.resolve?_mintAll (lawful.resolve?_of_mem_mintAll asked) later
  refine ⟨store.map_fst_mintAll s texts, fun one asked => ?_⟩
  have mine := resolves one asked
  refine ⟨mine, text_of_resolve? mine, fun other askedToo => ?_⟩
  have others := resolves other askedToo
  exact ⟨lawful.name_eq_iff mine others, compareText_of_resolve? mine others⟩

/-- The text that comes first has the smaller name and is the greater one. -/
theorem requested_compares :
    let requested := NamePool.store.mintAll {} ["b", "a", "b"]
    let last := (NamePool.store.mintAll requested.2 ["aa"]).2
    NamePool.store.Lawful ∧
      requested.1 = [("b", ⟨0⟩), ("a", ⟨1⟩), ("b", ⟨0⟩)] ∧
      NamePool.store.text last ⟨0⟩ = "b" ∧
      NamePool.store.compareText last ⟨0⟩ ⟨1⟩ = .gt := by
  intro requested last
  obtain ⟨lawful, _, whole⟩ := mintAll_resolves_and_compares
  have minted : requested.1 = [("b", ⟨0⟩), ("a", ⟨1⟩), ("b", ⟨0⟩)] := by decide +kernel
  have first : ("b", ⟨0⟩) ∈ requested.1 := minted ▸ .head _
  have second : ("a", ⟨1⟩) ∈ requested.1 := minted ▸ .tail _ (.head _)
  obtain ⟨_, all⟩ := whole NamePool.store lawful {} ["b", "a", "b"] ["aa"]
  obtain ⟨_, read, compared⟩ := all _ first
  refine ⟨lawful, minted, read, (compared _ second).2.trans ?_⟩
  decide +kernel

end TextStore

end LispFrontEnd
