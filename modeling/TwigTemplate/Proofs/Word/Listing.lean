import TwigTemplate.Proofs.Word.Ending

/-!
# Lists in a tag

The words of a content that is put together from parts are those of the parts.  In a list with
commas between its items, the items are found again by the commas outside of brackets.
-/

namespace TwigTemplate
namespace Word

/-- The part of a content behind `front` and before `right` has the words, which stand outside of
brackets and close what they open. -/
def Yields (following : Option UInt8) (front part right : List UInt8) (words : List Word) : Prop :=
  among following front.length 0 (part ++ right) =
    words ++ among following (front ++ part).length 0 right

namespace Yields

variable {following : Option UInt8} {front part left right rest : List UInt8}
  {words others : List Word} {spelled phrase : String}

theorem of_among {start : Nat} (offset : front.length = start)
    (read : among following start 0 (part ++ right) =
      words ++ among following (start + part.length) 0 right) :
    Yields following front part right words := by
  rw [Yields, List.length_append, offset, read]

theorem nil : Yields following front [] right [] := of_among rfl rfl

/-- Two parts after each other have the words of both. -/
theorem append (first : Yields following front left (right ++ rest) words)
    (second : Yields following (front ++ left) right rest others) :
    Yields following front (left ++ right) rest (words ++ others) := by
  rw [Yields] at first second ⊢
  rw [List.append_assoc, first, second, List.append_assoc, List.append_assoc]

theorem space : Yields following front [Byte.ofChar ' '] right [] :=
  of_among rfl (among_cons_of_isSpace (by decide))

theorem name (spells : SpellsName spelled.toUTF8.data.toList) (ended : Ended right) :
    Yields following front spelled.toUTF8.data.toList right [named front.length 0 spelled] :=
  of_among rfl (among_name_of_ended spells ended)

/-- A name and a space. -/
theorem keyword
    (written : phrase.toUTF8.data.toList = spelled.toUTF8.data.toList ++ [Byte.ofChar ' '])
    (spells : SpellsName spelled.toUTF8.data.toList) :
    Yields following front phrase.toUTF8.data.toList right [named front.length 0 spelled] := by
  rw [written]
  exact (name spells (ended_cons (by decide))).append space

/-- A name between spaces. -/
theorem link (written : phrase.toUTF8.data.toList =
      Byte.ofChar ' ' :: (spelled.toUTF8.data.toList ++ [Byte.ofChar ' ']))
    (spells : SpellsName spelled.toUTF8.data.toList) :
    Yields following front phrase.toUTF8.data.toList right
      [named (front.length + 1) 0 spelled] := by
  have behind : Yields following (front ++ [Byte.ofChar ' '])
      (spelled.toUTF8.data.toList ++ [Byte.ofChar ' ']) right
      ([named (front ++ [Byte.ofChar ' ']).length 0 spelled] ++ []) :=
    (name spells (ended_cons (by decide))).append space
  rw [List.length_append] at behind
  rw [written]
  exact space.append behind

theorem comma : Yields following front ", ".toUTF8.data.toList right [mark front.length 0 ","] := by
  have marked : Yields following front [Byte.ofChar ','] (Byte.ofChar ' ' :: right)
      [mark front.length 0 ","] := of_among rfl among_comma
  exact marked.append space

theorem assign :
    Yields following front " = ".toUTF8.data.toList right [mark (front.length + 1) 0 "="] := by
  have marked : Yields following (front ++ [Byte.ofChar ' ']) [Byte.ofChar '=', Byte.ofChar ' ']
      right [mark (front.length + 1) 0 "="] :=
    of_among (List.length_append) among_assign
  exact space.append marked

/-- The words of a plain text at the end of a content or before a separator cover the text, and a
name that is only enclosed in the text does not stand outside of brackets among them. -/
theorem exists_plain {text : String} (plain : PlainText text) (ended : Ended right)
    (following : Option UInt8) (front : List UInt8) :
    ∃ words, Yields following front text.toUTF8.data.toList right words ∧
      (∀ {source : Source} {behind : List UInt8},
        source.toList = front ++ (text.toUTF8.data.toList ++ behind) →
          ∃ span, Excerpt.covering? source words = some ⟨text, span⟩) ∧
      ∀ {name : String}, OnlyEnclosed name text →
        ∀ word ∈ words, (word.isTop && word.isName name) = false := by
  obtain ⟨other, words⟩ := plain.exists_among ended following front.length 0
  exact ⟨_, by rw [Yields, words, List.length_append],
    fun split => ⟨_, plain.covering?_among split other 0⟩,
    fun inner => plain.not_isName_of_isTop inner⟩

/-- A plain text that is linked to what follows: the link is the first word that could be one. -/
theorem exists_plain_link {text : String} (plain : PlainText text)
    (inner : OnlyEnclosed spelled text)
    (written : phrase.toUTF8.data.toList =
      Byte.ofChar ' ' :: (spelled.toUTF8.data.toList ++ [Byte.ofChar ' ']))
    (spells : SpellsName spelled.toUTF8.data.toList)
    (further : Yields following (front ++ text.toUTF8.data.toList ++ phrase.toUTF8.data.toList)
      rest right others) :
    ∃ words place,
      Yields following front
        (text.toUTF8.data.toList ++ (phrase.toUTF8.data.toList ++ rest)) right
        (words ++ named place 0 spelled :: others) ∧
      (∀ {source : Source} {behind : List UInt8},
        source.toList = front ++ (text.toUTF8.data.toList ++ behind) →
          ∃ span, Excerpt.covering? source words = some ⟨text, span⟩) ∧
      ∀ word ∈ words, (word.isTop && word.isName spelled) = false := by
  have separated : Ended (phrase.toUTF8.data.toList ++ rest ++ right) := by
    rw [written]
    exact ended_cons (by decide)
  obtain ⟨words, yields, covers, others⟩ := exists_plain plain separated following front
  exact ⟨words, _, yields.append ((link written spells).append further), covers, others inner⟩

end Yields

end Word

open Word

/-- How the items of a list are written, and the words that an item has at an offset. -/
structure Listing (α : Type) where
  /-- The item as it is written. -/
  written : α → String
  /-- Its words. -/
  words : Nat → α → List Word

namespace Listing

variable {α : Type} (listing : Listing α)

/-- The items with commas between them. -/
def text (items : List α) : String := ", ".intercalate (items.map listing.written)

/-- The words of the items and of the commas between them. -/
def wordsFrom (start : Nat) : List α → List Word
  | [] => []
  | [item] => listing.words start item
  | item :: next :: items =>
    let stop := start + (listing.written item).toUTF8.data.toList.length
    listing.words start item ++ mark stop 0 "," :: wordsFrom (stop + 2) (next :: items)

/-- The items have the words that the listing tells. -/
def Holds (items : List α) : Prop :=
  ∀ item ∈ items, ∀ following front right, Ended right →
    Yields following front (listing.written item).toUTF8.data.toList right
      (listing.words front.length item)

variable {listing} {items : List α}

theorem bytes_text (item next : α) (items : List α) :
    (listing.text (item :: next :: items)).toUTF8.data.toList =
      (listing.written item).toUTF8.data.toList ++
        (", ".toUTF8.data.toList ++ (listing.text (next :: items)).toUTF8.data.toList) := by
  rw [text, List.map_cons, List.map_cons, String.intercalate_cons_cons, Source.toUTF8_append,
    Source.toUTF8_append, List.append_assoc]
  rfl

theorem Holds.yields (holds : listing.Holds items) (following : Option UInt8)
    (front : List UInt8) {right : List UInt8} (ended : Ended right) :
    Yields following front (listing.text items).toUTF8.data.toList right
      (listing.wordsFrom front.length items) := by
  induction items generalizing front with
  | nil => exact .nil
  | cons item items ih =>
      rw [Holds, List.forall_mem_cons] at holds
      cases items with
      | nil =>
          have alone : listing.text [item] = listing.written item := String.intercalate_singleton
          rw [alone]
          exact holds.1 following front right ended
      | cons next items =>
          have further := ih holds.2
            (front ++ (listing.written item).toUTF8.data.toList ++ ", ".toUTF8.data.toList)
          have offset :
              (front ++ (listing.written item).toUTF8.data.toList ++
                ", ".toUTF8.data.toList).length =
              front.length + (listing.written item).toUTF8.data.toList.length + 2 := by
            rw [List.length_append, List.length_append]
            rfl
          have behind := Yields.comma.append further
          rw [offset, List.length_append] at behind
          rw [bytes_text]
          exact (holds.1 following front _ (ended_cons (by decide))).append behind

theorem mem_wordsFrom {start : Nat} {word : Word} (member : word ∈ listing.wordsFrom start items) :
    (∃ item ∈ items, ∃ offset, word ∈ listing.words offset item) ∨
      ∃ offset, word = mark offset 0 "," := by
  fun_induction wordsFrom listing start items with
  | case1 start => cases member
  | case2 start item => exact .inl ⟨item, List.mem_singleton_self item, start, member⟩
  | case3 start item next items stop ih =>
      rcases List.mem_append.mp member with first | further
      · exact .inl ⟨item, List.mem_cons_self, start, first⟩
      rcases List.mem_cons.mp further with rfl | further
      · exact .inr ⟨stop, rfl⟩
      · refine (ih further).imp_left ?_
        rintro ⟨other, listed, among⟩
        exact ⟨other, List.mem_cons_of_mem item listed, among⟩

/-- Items without commas of their own are read one by one. -/
theorem map_read_wordsFrom {β : Type} {view : List Word → Option β} {read : β → α}
    (whole : ∀ item offset, ∀ word ∈ listing.words offset item, word.isMark "," = false)
    (nothing : view [] = none)
    (reads : ∀ item offset, (view (listing.words offset item)).map read = some item)
    (start : Nat) (items : List α) :
    ((betweenCommas 0 (listing.wordsFrom start items)).filterMap view).map read = items := by
  have single (item : α) (offset : Nat) :
      ((betweenCommas 0 (listing.words offset item)).filterMap view).map read = [item] := by
    have group : betweenCommas 0 (listing.words offset item) = [listing.words offset item] := by
      refine groupsBetween_of_forall fun word member => ?_
      rw [whole item offset word member, Bool.and_false]
    obtain ⟨found, viewed, same⟩ := Option.map_eq_some_iff.mp (reads item offset)
    rw [group, List.filterMap_cons, viewed, List.filterMap_nil, List.map_singleton, same]
  fun_induction wordsFrom listing start items with
  | case1 start =>
      have group : betweenCommas 0 [] = [[]] := rfl
      rw [group, List.filterMap_cons, nothing]
      rfl
  | case2 start item => exact single item start
  | case3 start item next items stop ih =>
      rw [betweenCommas_append, List.filterMap_append, List.map_append, single, ih]
      rfl

/-- Names in a list. -/
def names : Listing String := ⟨id, fun start name => [named start 0 name]⟩

theorem text_names (items : List String) : names.text items = ", ".intercalate items := by
  rw [text, names, List.map_id]

theorem holds_names {items : List String}
    (spell : ∀ name ∈ items, SpellsName name.toUTF8.data.toList) : names.Holds items :=
  fun name member _ _ _ ended => Yields.name (spell name member) ended

/-- A name that is not in a list is none of its words. -/
theorem not_isName_of_mem_names {items : List String} {name : String} (other : name ∉ items)
    (start : Nat) :
    ∀ word ∈ names.wordsFrom start items, (word.isTop && word.isName name) = false := by
  intro word member
  rcases mem_wordsFrom member with ⟨item, listed, offset, spelled⟩ | ⟨offset, rfl⟩
  · obtain rfl := List.mem_singleton.mp spelled
    have differs : item ≠ name := by
      rintro rfl
      exact other listed
    rw [isName, named, beq_eq_false_iff_ne.mpr differs, Bool.and_false, Bool.and_false]
  · rfl

/-- The only marks in a list of names are its commas. -/
theorem not_isMark_of_mem_names {sign : String} (other : sign ≠ ",") (start : Nat)
    (items : List String) :
    ∀ word ∈ names.wordsFrom start items, (word.isTop && word.isMark sign) = false := by
  intro word member
  rcases mem_wordsFrom member with ⟨item, listed, offset, spelled⟩ | ⟨offset, rfl⟩
  · rw [List.mem_singleton.mp spelled]
    rfl
  · rw [isMark, mark, beq_eq_false_iff_ne.mpr other.symm, Bool.and_false, Bool.and_false]

/-- The names in a list are found again. -/
theorem map_text_topNames (start : Nat) (items : List String) :
    (Tag.topNames (names.wordsFrom start items)).map Excerpt.text = items := by
  have topNames_append (left right : List Word) :
      Tag.topNames (left ++ right) = Tag.topNames left ++ Tag.topNames right := by
    rw [Tag.topNames, List.filter_append, List.filterMap_append]
    rfl
  fun_induction wordsFrom names start items with
  | case1 start => rfl
  | case2 start name => rfl
  | case3 start name next items stop ih =>
      rw [topNames_append, List.map_append, ← List.singleton_append, topNames_append,
        List.map_append, ih]
      rfl

end Listing

end TwigTemplate
