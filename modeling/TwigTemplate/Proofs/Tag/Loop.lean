import TwigTemplate.Proofs.Tag.Written

/-!
# Headers of loops

A loop is written with its variables, an expression for its items and possibly a condition.  A tag
in which this is written opens a loop with just these parts: the word `in` is looked for among the
variables, which are other names, and the word `if` behind it, outside of the brackets of the
expression.
-/

namespace TwigTemplate

/-- What a loop is written with. -/
structure LoopText where
  /-- Its variables in order. -/
  names : List String
  /-- The expression for its items. -/
  iterable : String
  /-- The condition that items have to satisfy. -/
  condition : Option String
  deriving DecidableEq, Repr

namespace LoopText

/-- A loop as far as the expression for its items. -/
def head (names : List String) : String := "for " ++ ", ".intercalate names ++ " in "

/-- The rest of a loop. -/
def rest (iterable : String) : Option String → String
  | none => iterable
  | some condition => iterable ++ " if " ++ condition

/-- The content of a tag with the loop. -/
def written (loop : LoopText) : String := head loop.names ++ rest loop.iterable loop.condition

/-- The variables are names other than `in`, the expressions are plain, and no name `if` in the one
for the items stands outside of its brackets. -/
structure WellFormed (loop : LoopText) : Prop where
  /-- The variables are names. -/
  names : ∀ name ∈ loop.names, Word.SpellsName name.toUTF8.data.toList
  /-- None of them is `in`. -/
  others : "in" ∉ loop.names
  /-- The expression for the items is plain. -/
  iterable : PlainText loop.iterable
  /-- No condition begins in it. -/
  whole : Word.OnlyEnclosed "if" loop.iterable
  /-- The condition is plain. -/
  condition : ∀ condition ∈ loop.condition, PlainText condition

instance (loop : LoopText) : Decidable loop.WellFormed :=
  decidable_of_iff
    ((∀ name ∈ loop.names, Word.SpellsName name.toUTF8.data.toList) ∧ "in" ∉ loop.names ∧
      PlainText loop.iterable ∧ Word.OnlyEnclosed "if" loop.iterable ∧
      ∀ condition ∈ loop.condition, PlainText condition)
    ⟨fun ⟨names, others, iterable, whole, condition⟩ =>
        ⟨names, others, iterable, whole, condition⟩,
      fun formed =>
        ⟨formed.names, formed.others, formed.iterable, formed.whole, formed.condition⟩⟩

end LoopText

/-- The texts of a loop that has an expression for its items. -/
def Tag.loopText? : Tag → Option LoopText
  | .opening (.loop names (some iterable) condition) =>
    some ⟨names.map (·.text), iterable.text, condition.map (·.text)⟩
  | _ => none

open Word

section Cut

variable {source : Source} {names iterable condition : List Word} {place : Nat}
  (others : ∀ word ∈ names, (word.isTop && word.isName "in") = false)
  (whole : ∀ word ∈ iterable, (word.isTop && word.isName "if") = false)
include others whole

theorem Tag.loop_eq :
    Tag.loop source (names ++ named place 0 "in" :: iterable) =
      .loop (topNames names) (Excerpt.covering? source iterable) none := by
  rw [loop, cut?_append others rfl]
  dsimp only
  rw [cut?_eq_none whole]

theorem Tag.loop_eq_of_condition {further : Nat} :
    Tag.loop source
        (names ++ named place 0 "in" :: (iterable ++ named further 0 "if" :: condition)) =
      .loop (topNames names) (Excerpt.covering? source iterable)
        (Excerpt.covering? source condition) := by
  rw [loop, cut?_append others rfl]
  dsimp only
  rw [cut?_append whole rfl]

end Cut

namespace LoopText

variable {loop : LoopText}

theorem bytes_head (names : List String) :
    (head names).toUTF8.data.toList = "for ".toUTF8.data.toList ++
      ((Listing.names.text names).toUTF8.data.toList ++ " in ".toUTF8.data.toList) := by
  rw [head, Listing.text_names, Source.toUTF8_append, Source.toUTF8_append, List.append_assoc]

/-- The words of a loop's variables. -/
theorem exists_yields_head {names : List String}
    (spell : ∀ name ∈ names, SpellsName name.toUTF8.data.toList) (others : "in" ∉ names)
    (following : Option UInt8) (front right : List UInt8) :
    ∃ bound place, Yields following front (head names).toUTF8.data.toList right
        (named front.length 0 "for" :: (bound ++ [named place 0 "in"])) ∧
      (∀ word ∈ bound, (word.isTop && word.isName "in") = false) ∧
      (Tag.topNames bound).map Excerpt.text = names := by
  let opened := front ++ "for ".toUTF8.data.toList
  let listed := opened ++ (Listing.names.text names).toUTF8.data.toList
  have link : Yields following listed " in ".toUTF8.data.toList right
      [named (listed.length + 1) 0 "in"] := .link (by decide) (by decide)
  have listing : Yields following opened (Listing.names.text names).toUTF8.data.toList
      (" in ".toUTF8.data.toList ++ right) (Listing.names.wordsFrom opened.length names) :=
    (Listing.holds_names spell).yields following opened (ended_cons (by decide))
  refine ⟨Listing.names.wordsFrom opened.length names, listed.length + 1, ?_,
    Listing.not_isName_of_mem_names others opened.length,
    Listing.map_text_topNames opened.length names⟩
  rw [bytes_head]
  exact (Yields.keyword (by decide) (by decide)).append (listing.append link)

/-- The words of a loop's expressions, and the loop that they make behind its variables. -/
theorem exists_yields_rest {iterable : String} (items : PlainText iterable)
    (whole : OnlyEnclosed "if" iterable) {condition : Option String}
    (tests : ∀ test ∈ condition, PlainText test)
    {source : Source} {front behind right : List UInt8} (ended : Ended right)
    (following : Option UInt8)
    (split : source.toList = front ++ ((rest iterable condition).toUTF8.data.toList ++ behind)) :
    ∃ words, Yields following front (rest iterable condition).toUTF8.data.toList right words ∧
      ∀ bound place, (∀ word ∈ bound, (word.isTop && word.isName "in") = false) →
        (Tag.opening (Tag.loop source (bound ++ named place 0 "in" :: words))).loopText? =
          some ⟨(Tag.topNames bound).map Excerpt.text, iterable, condition⟩ := by
  cases condition with
  | none =>
      obtain ⟨words, yields, covers, inner⟩ := Yields.exists_plain items ended following front
      obtain ⟨place, covered⟩ := covers split
      refine ⟨words, yields, fun bound place others => ?_⟩
      rw [Tag.loop_eq others (inner whole), covered]
      rfl
  | some test =>
      have bytes : (rest iterable (some test)).toUTF8.data.toList = iterable.toUTF8.data.toList ++
          (" if ".toUTF8.data.toList ++ test.toUTF8.data.toList) := by
        rw [rest, Source.toUTF8_append, Source.toUTF8_append, List.append_assoc]
      rw [bytes, List.append_assoc, List.append_assoc] at split
      obtain ⟨last, ends, covers_last, -⟩ := Yields.exists_plain (tests test rfl) ended following
        (front ++ iterable.toUTF8.data.toList ++ " if ".toUTF8.data.toList)
      obtain ⟨words, link, yields, covers, others_if⟩ :=
        Yields.exists_plain_link items whole (by decide) (by decide) ends
      obtain ⟨place, covered⟩ := covers split
      rw [← List.append_assoc, ← List.append_assoc] at split
      obtain ⟨place_last, covered_last⟩ := covers_last split
      refine ⟨_, by rw [bytes]; exact yields, fun bound place others => ?_⟩
      rw [Tag.loop_eq_of_condition others others_if, covered, covered_last]
      rfl

/-- A tag with a loop between spaces opens the loop. -/
theorem loopText?_of_written (formed : loop.WellFormed) (options : Options) {source : Source}
    {piece : Piece} (kind : piece.kind = .region .tag) {front back : List UInt8}
    (content : source.slice piece.body = front ++ (loop.written.toUTF8.data.toList ++ back))
    (spaces_front : ∀ byte ∈ front, Byte.isSpace byte = true)
    (spaces_back : ∀ byte ∈ back, Byte.isSpace byte = true) :
    (Tag.ofPiece options source piece).loopText? = some loop := by
  have bytes : loop.written.toUTF8.data.toList = (head loop.names).toUTF8.data.toList ++
      (rest loop.iterable loop.condition).toUTF8.data.toList := by
    rw [written, Source.toUTF8_append]
  have filled : loop.written.toUTF8.data.toList ≠ [] := by
    rw [bytes, bytes_head]
    exact List.cons_ne_nil _ _
  obtain ⟨following, ahead, behind, split, means⟩ :=
    Tag.exists_ofPiece_eq options kind filled content spaces_front spaces_back
  rw [bytes, List.append_assoc, ← List.append_assoc] at split
  obtain ⟨bound, place, begins, others, texts⟩ := exists_yields_head formed.names formed.others
    following ahead ((rest loop.iterable loop.condition).toUTF8.data.toList ++ back)
  obtain ⟨words, ends, makes⟩ := exists_yields_rest formed.iterable formed.whole formed.condition
    (ended_of_spaces spaces_back) following split
  have yields : Yields following ahead loop.written.toUTF8.data.toList back
      (named ahead.length 0 "for" :: (bound ++ named place 0 "in" :: words)) := by
    rw [bytes, List.append_cons, ← List.cons_append]
    exact begins.append ends
  have made := makes bound place others
  rw [texts] at made
  rw [means ahead.length "for" _ yields]
  exact made

end LoopText

end TwigTemplate
