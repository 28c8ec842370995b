import Mathlib.Data.List.Basic
import TwigTemplate.Proofs.Word.Joint

/-!
# Plain texts

A text without spaces around it, in which literals and brackets are closed, has the same words
wherever it is written before a separator, and the words cover it.
-/

namespace TwigTemplate

namespace Word

open Literal

/-- The words of a text. -/
def ofText (text : String) : List Word :=
  split (Source.ofString text) ⟨0, (Source.ofString text).size⟩

/-- Number of open brackets behind words that begin inside `depth` of them.  There is none if a
bracket is closed that is not open. -/
def nesting? (depth : Nat) : List Word → Option Nat
  | [] => some depth
  | word :: words =>
    if word.closes then
      if depth = 0 then none else nesting? (depth - 1) words
    else if word.opens then nesting? (depth + 1) words
    else nesting? depth words

/-- The word further on in a text and inside more brackets. -/
def within (offset around : Nat) (word : Word) : Word :=
  { word with
    span := ⟨offset + word.span.start, offset + word.span.stop⟩
    depth := around + word.depth }

theorem ofText_eq (text : String) : ofText text = among none 0 0 text.toUTF8.data.toList := by
  have whole : (Source.ofString text).slice ⟨0, (Source.ofString text).size⟩ =
      text.toUTF8.data.toList := by
    rw [Source.slice_eq_drop, List.drop_zero, Source.size_eq_length, List.take_length,
      Source.toList_ofString]
  have nothing : (Source.ofString text).byte? (Source.ofString text).size = none := by
    rw [Source.byte?_eq_getElem?, Source.size_eq_length]
    exact List.getElem?_eq_none (Nat.le_refl _)
  rw [ofText, split, whole, nothing, among]

theorem not_opens_of_closes {word : Word} (closes : word.closes = true) : word.opens = false := by
  simp only [Word.closes, isMark, Bool.or_eq_true, Bool.and_eq_true, beq_iff_eq] at closes
  rw [opens, isMark, isMark, isMark]
  rcases closes with (⟨-, text⟩ | ⟨-, text⟩) | ⟨-, text⟩ <;> rw [text] <;> simp

theorem depthBehind_within (offset around : Nat) (word : Word) :
    (word.within offset around).depthBehind = around + word.depthBehind := by
  have same : (word.within offset around).opens = word.opens := rfl
  rw [depthBehind, depthBehind, same]
  split <;> rfl

theorem depthAfter_map_within (offset around depth : Nat) (words : List Word) :
    depthAfter (around + depth) (words.map (within offset around)) =
      around + depthAfter depth words := by
  rw [depthAfter, depthAfter, List.getLast?_map]
  cases words.getLast? with
  | none => rfl
  | some last => exact depthBehind_within offset around last

section Among

variable {following : Option UInt8} {later : Nat}

theorem nesting?_first {start depth : Nat} {byte : UInt8} {tail : List UInt8} {words : List Word}
    (nested : nesting? depth (first following start depth byte tail :: words) = some later) :
    ((first following start depth byte tail).closes = true → 0 < depth) ∧
      nesting? (first following start depth byte tail).depthBehind words = some later := by
  rw [nesting?] at nested
  rw [depthBehind, depth_first]
  split at nested
  · rename_i closes
    split at nested
    · cases nested
    · rename_i filled
      rw [not_opens_of_closes closes, closes]
      exact ⟨fun _ => Nat.pos_of_ne_zero filled, nested⟩
  · rename_i other
    refine ⟨fun closes => absurd closes other, ?_⟩
    rw [if_neg other]
    split at nested
    · rename_i opens
      rwa [if_pos opens]
    · rename_i plain
      rwa [if_neg plain]

theorem first_within {start depth : Nat} {byte : UInt8} {tail : List UInt8} (offset around : Nat)
    (inside : (first following start depth byte tail).closes = true → 0 < depth) :
    first following (offset + start) (around + depth) byte tail =
      (first following start depth byte tail).within offset around := by
  have depth_eq : (first following (offset + start) (around + depth) byte tail).depth =
      around + (first following start depth byte tail).depth := by
    have same : (first following (offset + start) (around + depth) byte tail).closes =
        (first following start depth byte tail).closes := rfl
    rw [depth_first, depth_first, same]
    split
    · rename_i closes
      have := inside closes
      omega
    · rfl
  rw [within, ← depth_eq]
  simp only [first, Nat.add_assoc]

/-- Brackets that are open behind a content are counted by its words. -/
theorem depthAfter_of_nesting? {start depth : Nat} {bytes : List UInt8}
    (nested : nesting? depth (among following start depth bytes) = some later) :
    depthAfter depth (among following start depth bytes) = later := by
  match bytes with
  | [] =>
    rw [among_nil] at nested ⊢
    exact Option.some.inj nested
  | byte :: tail =>
    cases space : Byte.isSpace byte with
    | true =>
        rw [among_cons_of_isSpace space] at nested ⊢
        exact depthAfter_of_nesting? nested
    | false =>
        rw [among_cons space] at nested ⊢
        rw [depthAfter_cons]
        exact depthAfter_of_nesting? (nesting?_first nested).2
termination_by bytes.length
decreasing_by all_goals simp only [List.length_cons, List.length_drop]; omega

/-- Words that close their own brackets only are the same inside of others. -/
theorem among_within {start depth : Nat} {bytes : List UInt8} (offset around : Nat)
    (nested : nesting? depth (among following start depth bytes) = some later) :
    among following (offset + start) (around + depth) bytes =
      (among following start depth bytes).map (within offset around) := by
  match bytes with
  | [] => rw [among_nil, among_nil]; rfl
  | byte :: tail =>
    cases space : Byte.isSpace byte with
    | true =>
        rw [among_cons_of_isSpace space] at nested
        rw [among_cons_of_isSpace space, among_cons_of_isSpace space, Nat.add_assoc,
          among_within offset around nested]
    | false =>
        rw [among_cons space] at nested
        obtain ⟨inside, further⟩ := nesting?_first nested
        rw [among_cons space, among_cons space, List.map_cons, first_within offset around inside,
          depthBehind_within, ← among_within offset around further]
        simp only [Nat.add_assoc]
termination_by bytes.length
decreasing_by all_goals simp only [List.length_cons, List.length_drop]; omega

/-- The first word begins with the content. -/
theorem start_among (following : Option UInt8) (start depth : Nat) {bytes : List UInt8}
    (filled : bytes ≠ []) (visible : ∀ byte ∈ bytes.head?, Byte.isSpace byte = false) :
    ∃ word ∈ (among following start depth bytes).head?, word.span.start = start := by
  obtain ⟨byte, tail, rfl⟩ := List.exists_cons_of_ne_nil filled
  rw [among_cons (visible byte rfl)]
  exact ⟨_, rfl, rfl⟩

/-- The last word ends with the content. -/
theorem stop_among (following : Option UInt8) (start depth : Nat) {bytes : List UInt8}
    (filled : bytes ≠ []) (visible : ∀ byte ∈ bytes.getLast?, Byte.isSpace byte = false) :
    ∃ word ∈ (among following start depth bytes).getLast?,
      word.span.stop = start + bytes.length := by
  match bytes with
  | byte :: tail =>
    cases space : Byte.isSpace byte with
    | true =>
        have further : tail ≠ [] := by
          rintro rfl
          rw [visible byte rfl] at space
          cases space
        have last : ∀ other ∈ tail.getLast?, Byte.isSpace other = false := by
          exact fun other ends => visible other (List.mem_getLast?_cons ends)
        rw [among_cons_of_isSpace space, List.length_cons, ← Nat.add_assoc, Nat.add_right_comm]
        exact stop_among following (start + 1) depth further last
    | false =>
        have fits := shape_le following byte tail
        rw [among_cons space]
        by_cases ended : tail.drop (shape following byte tail).2 = []
        · have whole := List.drop_eq_nil_iff.mp ended
          rw [ended, among_nil]
          refine ⟨first following start depth byte tail, rfl, ?_⟩
          have stop : (first following start depth byte tail).span.stop =
              start + (shape following byte tail).2 + 1 := rfl
          rw [stop, List.length_cons]
          omega
        · have last : ∀ other ∈ (tail.drop (shape following byte tail).2).getLast?,
              Byte.isSpace other = false := by
            intro other ends
            rw [List.getLast?_drop] at ends
            split at ends
            · cases ends
            · exact visible other (List.mem_getLast?_cons ends)
          obtain ⟨word, ends, stop⟩ := stop_among following _ _ ended last
          refine ⟨word, List.mem_getLast?_cons ends, ?_⟩
          rw [stop, List.length_drop, List.length_cons]
          omega
termination_by bytes.length
decreasing_by all_goals simp only [List.length_cons, List.length_drop]; omega

end Among

end Word

/-- The text is not empty, has no spaces at its ends, and all its literals and brackets are
closed. -/
structure PlainText (text : String) : Prop where
  /-- There is some text. -/
  filled : text ≠ ""
  /-- It begins with no space. -/
  first : ∀ byte ∈ text.toUTF8.data.toList.head?, Byte.isSpace byte = false
  /-- It ends with no space. -/
  last : ∀ byte ∈ text.toUTF8.data.toList.getLast?, Byte.isSpace byte = false
  /-- Its literals are closed. -/
  complete : Literal.Complete text.toUTF8.data.toList
  /-- Its brackets are, and none is closed before it is opened. -/
  nested : Word.nesting? 0 (Word.ofText text) = some 0

/-- Whether the text is plain. -/
def isPlainText (text : String) : Bool :=
  let bytes := text.toUTF8.data.toList
  text != "" && bytes.head?.all (!Byte.isSpace ·) && bytes.getLast?.all (!Byte.isSpace ·) &&
    Literal.isComplete bytes && Word.nesting? 0 (Word.ofText text) == some 0

theorem isPlainText_iff {text : String} : isPlainText text = true ↔ PlainText text := by
  simp only [isPlainText, Bool.and_eq_true, bne_iff_ne, Option.all_eq_true, Bool.not_eq_true',
    Literal.isComplete_iff, beq_iff_eq]
  constructor
  · rintro ⟨⟨⟨⟨filled, first⟩, last⟩, complete⟩, nested⟩
    exact ⟨filled, first, last, complete, nested⟩
  · rintro ⟨filled, first, last, complete, nested⟩
    exact ⟨⟨⟨⟨filled, first⟩, last⟩, complete⟩, nested⟩

instance (text : String) : Decidable (PlainText text) := decidable_of_iff _ isPlainText_iff

namespace PlainText

open Word

variable {text : String} (plain : PlainText text)
include plain

theorem toUTF8_ne_nil : text.toUTF8.data.toList ≠ [] := by
  intro empty
  have size := Source.length_toUTF8 text
  rw [empty, List.length_nil, eq_comm, String.utf8ByteSize_eq_zero_iff] at size
  exact plain.filled size

/-- The words of a plain text further on and inside more brackets. -/
theorem among_eq_map (start depth : Nat) :
    among none start depth text.toUTF8.data.toList = (ofText text).map (within start depth) := by
  have nested := plain.nested
  rw [ofText_eq] at nested ⊢
  rw [← among_within start depth nested, Nat.add_zero, Nat.add_zero]

/-- The words of a plain text before a separator are those of the text by itself. -/
theorem among_append {right : List UInt8} (separated : Separated right) (following : Option UInt8)
    (start depth : Nat) :
    among following start depth (text.toUTF8.data.toList ++ right) =
      (ofText text).map (within start depth) ++
        among following (start + text.toUTF8.data.toList.length) depth right := by
  have nested := plain.nested
  rw [ofText_eq] at nested
  have behind : depthAfter depth ((ofText text).map (within start depth)) = depth := by
    have counted := depthAfter_map_within start depth 0 (ofText text)
    rwa [ofText_eq, depthAfter_of_nesting? nested, ← ofText_eq, Nat.add_zero] at counted
  rw [Word.among_append plain.complete separated, plain.among_eq_map, behind]

/-- The words of a plain text cover it, whatever follows it. -/
theorem covering?_among {source : Source} {before after : List UInt8}
    (split : source.toList = before ++ (text.toUTF8.data.toList ++ after))
    (following : Option UInt8) (depth : Nat) :
    Excerpt.covering? source (among following before.length depth text.toUTF8.data.toList) =
      some ⟨text, ⟨before.length, before.length + text.toUTF8.data.toList.length⟩⟩ := by
  obtain ⟨initial, begins, start_eq⟩ :=
    start_among following before.length depth plain.toUTF8_ne_nil plain.first
  obtain ⟨final, ends, stop_eq⟩ :=
    stop_among following before.length depth plain.toUTF8_ne_nil plain.last
  have read : (String.fromUTF8? ⟨text.toUTF8.data.toList.toArray⟩).getD "" = text :=
    (Source.getD_fromUTF8?_eq_iff plain.filled).mpr rfl
  rw [Excerpt.covering?, begins, ends]
  simp only [start_eq, stop_eq]
  rw [Source.read_of_split split, read]

theorem covering?_eq {source : Source} {before after : List UInt8}
    (split : source.toList = before ++ (text.toUTF8.data.toList ++ after)) (depth : Nat) :
    Excerpt.covering? source ((ofText text).map (within before.length depth)) =
      some ⟨text, ⟨before.length, before.length + text.toUTF8.data.toList.length⟩⟩ := by
  rw [← plain.among_eq_map]
  exact plain.covering?_among split none depth

end PlainText

/-! ### Names -/

section Name

open Word

variable {name : String} (spells : SpellsName name.toUTF8.data.toList)
include spells

theorem Word.getD_fromUTF8?_of_spellsName :
    (String.fromUTF8? ⟨name.toUTF8.data.toList.toArray⟩).getD "" = name := by
  refine (Source.getD_fromUTF8?_eq_iff ?_).mpr rfl
  rintro rfl
  obtain ⟨byte, others, bytes, -⟩ := spells
  cases bytes

theorem Word.ofText_of_spellsName :
    ofText name = [⟨.name, ⟨0, name.toUTF8.data.toList.length⟩, 0, name⟩] := by
  have word := collect_name none 0 0 spells (List.forall_mem_nil _) (List.forall_mem_nil _)
  rw [List.nil_append, List.append_nil, getD_fromUTF8?_of_spellsName spells, List.length_nil,
    Nat.zero_add] at word
  rw [ofText_eq, among, word, Nat.zero_add]

/-- A name is plain. -/
theorem PlainText.of_spellsName : PlainText name := by
  have word := ofText_of_spellsName spells
  obtain ⟨byte, others, bytes, starts, continues⟩ := spells
  have continues_all : ∀ other ∈ byte :: others, Byte.continuesName other = true :=
    List.forall_mem_cons.mpr ⟨by rw [Byte.continuesName, starts, Bool.true_or], continues⟩
  have visible : ∀ other ∈ byte :: others, Byte.isSpace other = false := by
    intro other member
    rw [Bool.eq_false_iff]
    intro space
    have ends := Byte.not_continuesName_of_isSpace space
    rw [continues_all other member] at ends
    cases ends
  have unquoted : Literal.Plain (byte :: others) := by
    intro other member
    rw [Bool.eq_false_iff]
    intro quotes
    have ends := Byte.not_continuesName_of_isQuote quotes
    rw [continues_all other member] at ends
    cases ends
  refine ⟨?_, ?_, ?_, ?_, ?_⟩
  · rintro rfl
    cases bytes
  · rw [bytes]
    exact fun other first => visible other (List.mem_of_head? first)
  · rw [bytes]
    exact fun other last => visible other (List.mem_of_getLast? last)
  · rw [bytes]
    exact .of_plain unquoted
  · rw [word]
    rfl

end Name

end TwigTemplate
