import TwigTemplate.Cursor
import TwigTemplate.Proofs.Word.Alone
import TwigTemplate.Proofs.Word.Place

/-!
# Cursors in tags

What a cursor in a tag stands at is told by the first word of the tag: whether the word begins
before the cursor, whether it is a name, and whether it ends before the cursor.  All of that is
known from the bytes before the cursor.
-/

namespace TwigTemplate

namespace Word

variable {following : Option UInt8} {start depth : Nat} {byte : UInt8}
  {tail front back : List UInt8}

/-- The first word of a content that begins with a word. -/
theorem exists_collect_eq_cons (following : Option UInt8) (start depth : Nat)
    (unspaced : Byte.isSpace byte = false) (tail : List UInt8) :
    ∃ word rest, (collect following start depth #[] (byte :: tail)).toList = word :: rest ∧
      word.kind = (shape following byte tail).1 ∧
      word.span = ⟨start, start + (shape following byte tail).2 + 1⟩ ∧
      word.text = (String.fromUTF8?
        ⟨(byte :: tail.take (shape following byte tail).2).toArray⟩).getD "" := by
  rw [collect, if_neg (by simp [unspaced])]
  dsimp only
  rw [collect_eq_append, Array.toList_append]
  exact ⟨_, _, rfl, rfl, rfl, rfl⟩

/-- Only a byte that starts names starts a name. -/
theorem shape_eq_name_iff :
    (shape following byte tail).1 = .name ↔ Byte.startsName byte = true := by
  rw [shape]
  by_cases starts : Byte.startsName byte = true
  · simp [starts]
  · rw [if_neg starts]
    simp only [starts]
    split
    · simp
    split
    · simp
    split <;> simp

/-- A name goes on over all bytes that continue it. -/
theorem shape_of_startsName (starts : Byte.startsName byte = true) :
    shape following byte tail = (.name, (tail.takeWhile Byte.continuesName).length) := by
  rw [shape, if_pos starts]

/-- Words lie behind the white space before them. -/
theorem bounds_of_spaces (spaces : ∀ byte ∈ front, Byte.isSpace byte = true) {word : Word}
    (member : word ∈ collect following start depth #[] (front ++ back)) :
    start + front.length ≤ word.span.start ∧ word.span.start < word.span.stop := by
  rw [collect_append_of_spaces spaces] at member
  rcases bounds_of_mem_collect member with none | ⟨above, filled, -⟩
  · simp at none
  · exact ⟨above, filled⟩

/-- Some beginning of the bytes is all white space, and a word may follow. -/
theorem exists_spaces (bytes : List UInt8) :
    (∀ byte ∈ bytes, Byte.isSpace byte = true) ∨
      ∃ spaces byte rest, bytes = spaces ++ byte :: rest ∧
        (∀ space ∈ spaces, Byte.isSpace space = true) ∧ Byte.isSpace byte = false := by
  induction bytes with
  | nil => exact .inl (by simp)
  | cons byte bytes ih =>
      cases space : Byte.isSpace byte with
      | false => exact .inr ⟨[], byte, bytes, rfl, by simp, space⟩
      | true =>
          rcases ih with all | ⟨spaces, first, rest, rfl, before, unspaced⟩
          · exact .inl (List.forall_mem_cons.mpr ⟨space, all⟩)
          · exact .inr ⟨byte :: spaces, first, rest, rfl,
              List.forall_mem_cons.mpr ⟨space, before⟩, unspaced⟩

end Word

namespace Source

theorem Begins.slice_eq_append {left right : Source} (begins : left.Begins right) {start stop : Nat}
    (ordered : start ≤ left.size) (further : left.size ≤ stop) :
    right.slice ⟨start, stop⟩ = left.slice ⟨start, left.size⟩ ++ right.slice ⟨left.size, stop⟩ := by
  obtain ⟨back, split⟩ := begins
  rw [slice_eq_drop, slice_eq_drop, slice_eq_drop, split]
  simp only [size_eq_length] at ordered further ⊢
  rw [List.take_length, List.take_append, List.take_of_length_le further,
    List.drop_append_of_le_length ordered, List.drop_left]

end Source

namespace Document

section Typed

variable {document : Document} {body : Span} {offset : Nat} {front back : List UInt8}

/-- Before the first word there is a keyword to be typed. -/
theorem cursorInTag_of_spaces (sliced : document.source.slice body = front ++ back)
    (long : body.start + front.length = offset)
    (spaces : ∀ byte ∈ front, Byte.isSpace byte = true) :
    document.cursorInTag body offset = .keyword "" := by
  have late : ∀ word ∈ Word.split document.source body,
      offset ≤ word.span.start ∧ word.span.start < word.span.stop := by
    intro word member
    rw [Word.split, sliced, Array.mem_toList_iff] at member
    rw [← long]
    exact Word.bounds_of_spaces spaces member
  rw [cursorInTag, Header.ofBody]
  cases words : Word.split document.source body with
  | nil => rfl
  | cons first rest =>
      rw [words] at late
      have bounds := late first List.mem_cons_self
      rw [Header.ofWords, Excerpt.ofName?]
      by_cases name : first.kind = .name
      · rw [if_pos name]
        dsimp only [Excerpt.ofWord]
        rw [if_neg (by omega)]
        split
        · rw [Source.read, if_neg (by dsimp only; omega)]
        · rfl
      · rw [if_neg name]
        dsimp only
        rw [if_neg]
        simp only [List.any_eq_true, decide_eq_true_eq, not_exists, not_and, Nat.not_lt]
        exact fun word member => (late word member).1

/-- Behind the beginning of the first word, the bytes of that word up to the cursor tell whether it
is a keyword and whether it is complete. -/
theorem cursorInTag_of_word {spaces rest : List UInt8} {byte : UInt8}
    (sliced : document.source.slice body = spaces ++ byte :: (rest ++ back))
    (long : body.start + (spaces.length + (rest.length + 1)) = offset)
    (blank : ∀ byte ∈ spaces, Byte.isSpace byte = true)
    (unspaced : Byte.isSpace byte = false) :
    document.cursorInTag body offset =
      if Byte.startsName byte = true then
        if (rest.takeWhile Byte.continuesName).length < rest.length then
          .arguments ((String.fromUTF8?
            ⟨(byte :: rest.takeWhile Byte.continuesName).toArray⟩).getD "")
        else .keyword (document.source.read ⟨body.start + spaces.length, offset⟩)
      else .arguments "" := by
  obtain ⟨first, others, words, kind, span, text⟩ :=
    Word.exists_collect_eq_cons (document.source.byte? body.stop) (body.start + spaces.length) 0
      unspaced (rest ++ back)
  rw [← Word.collect_append_of_spaces blank, ← sliced, ← Word.split] at words
  have early : body.start + spaces.length < offset := by omega
  rw [cursorInTag, Header.ofBody, words, Header.ofWords, Excerpt.ofName?]
  by_cases starts : Byte.startsName byte = true
  · rw [Word.shape_of_startsName starts] at kind span text
    rw [if_pos kind, if_pos starts]
    dsimp only [Excerpt.ofWord]
    rw [span, text]
    dsimp only
    have within : rest.takeWhile Byte.continuesName <+: rest := List.takeWhile_prefix _
    have shorter := within.length_le
    rw [List.takeWhile_append]
    by_cases whole : (rest.takeWhile Byte.continuesName).length = rest.length
    · rw [if_pos whole, List.length_append, if_neg (by omega), if_pos (Nat.le_of_lt early),
        if_neg (by omega)]
    · rw [if_neg whole, if_pos (by omega), if_pos (by omega),
        List.take_append_of_le_length (by omega), ← List.prefix_iff_eq_take.mp within]
  · rw [if_neg (kind ▸ mt Word.shape_eq_name_iff.mp starts), if_neg starts]
    simp [span, early]

end Typed

/-- A cursor in a tag stands at the same in a text that is cut off there. -/
theorem cursorInTag_of_begins {typed whole : Document} {start stop : Nat}
    (begins : typed.source.Begins whole.source) (ordered : start ≤ typed.source.size)
    (further : typed.source.size ≤ stop) :
    typed.cursorInTag ⟨start, typed.source.size⟩ typed.source.size =
      whole.cursorInTag ⟨start, stop⟩ typed.source.size := by
  have long : start + (typed.source.slice ⟨start, typed.source.size⟩).length =
      typed.source.size := by
    rw [Source.size_eq_length] at ordered ⊢
    rw [Source.slice_eq_drop, List.take_length, List.length_drop]
    exact Nat.add_sub_cancel' ordered
  have sliced := begins.slice_eq_append ordered further
  generalize content_eq : typed.source.slice ⟨start, typed.source.size⟩ = content at long sliced
  have alone := content_eq.trans (List.append_nil content).symm
  rcases Word.exists_spaces content with blank | ⟨spaces, byte, rest, rfl, blank, unspaced⟩
  · rw [cursorInTag_of_spaces alone long blank, cursorInTag_of_spaces sliced long blank]
  · rw [List.length_append, List.length_cons] at long
    rw [List.append_assoc, List.cons_append] at sliced alone
    rw [cursorInTag_of_word alone long blank unspaced,
      cursorInTag_of_word sliced long blank unspaced, begins.read_eq (Nat.le_refl _)]

end Document
end TwigTemplate
