import TwigTemplate.LineTable
import TwigTemplate.Proofs.Source

/-!
# Characters and their bytes

The encoding of a character begins with the only byte of it that continues no character.  So bytes
tell how many characters there are and where they begin, and a text can be split at boundaries of
characters, and only there.
-/

namespace TwigTemplate

namespace Byte

theorem not_isUTF8FirstByte_of_isContinuation :
    ∀ value : Fin 256, isContinuation (UInt8.ofFin value) = true →
      ¬ (UInt8.ofFin value).IsUTF8FirstByte := by
  decide +kernel

/-- The first byte of a character does not continue one. -/
theorem isContinuation_of_isUTF8FirstByte {byte : UInt8} (first : byte.IsUTF8FirstByte) :
    isContinuation byte = false := by
  rw [← UInt8.ofFin_toFin byte] at first ⊢
  rw [← Bool.not_eq_true]
  exact fun continues => not_isUTF8FirstByte_of_isContinuation _ continues first

theorem isContinuation_ofNat (value : Nat) :
    isContinuation (UInt8.ofNat (value % 64 + 128)) = true := by
  have small : value % 64 < 64 := Nat.mod_lt _ (by decide)
  have known : ∀ rest < 64, isContinuation (UInt8.ofNat (rest + 128)) = true := by decide
  exact known _ small

/-- Only the first byte of a character continues none. -/
theorem exists_utf8EncodeChar (character : Char) :
    ∃ first others, String.utf8EncodeChar character = first :: others ∧
      isContinuation first = false ∧ ∀ other ∈ others, isContinuation other = true := by
  have inside : 0 < (String.utf8EncodeChar character).length := by
    rw [String.length_utf8EncodeChar]
    exact character.utf8Size_pos
  have starts : (String.utf8EncodeChar character)[0].IsUTF8FirstByte :=
    UInt8.isUTF8FirstByte_getElem_utf8EncodeChar.mpr rfl
  obtain ⟨first, others, encoded⟩ := List.exists_cons_of_length_pos inside
  simp only [encoded, List.getElem_cons_zero] at starts
  refine ⟨first, others, encoded, isContinuation_of_isUTF8FirstByte starts, ?_⟩
  rw [String.utf8EncodeChar] at encoded
  repeat' split at encoded
  all_goals
    obtain ⟨-, rfl⟩ := List.cons.inj encoded
    refine List.all_eq_true.mp ?_
    simp only [List.all_cons, List.all_nil, isContinuation_ofNat, Bool.and_self]

theorem toNat_ofChar {character : Char} (ascii : character.toNat < 128) :
    (ofChar character).toNat = character.toNat := by
  rw [ofChar, Char.toUInt8, UInt32.toNat_toUInt8]
  exact Nat.mod_eq_of_lt (Nat.lt_trans ascii (by decide))

theorem utf8EncodeChar_of_lt {character : Char} (ascii : character.toNat < 128) :
    String.utf8EncodeChar character = [ofChar character] := by
  have same : UInt8.ofNat character.toNat = ofChar character := by
    rw [← UInt8.toNat_inj, UInt8.toNat_ofNat', toNat_ofChar ascii]
    exact Nat.mod_eq_of_lt (Nat.lt_trans ascii (by decide))
  rw [← same]
  exact if_pos (Nat.le_of_lt_succ ascii)

/-- No byte of a character beyond ASCII is an ASCII character. -/
theorem le_of_mem_utf8EncodeChar {character : Char} (large : 128 ≤ character.toNat) :
    ∀ byte ∈ String.utf8EncodeChar character, 128 ≤ byte.toNat := by
  have beyond : ¬ character.val.toNat ≤ 127 := Nat.not_le_of_lt large
  rw [String.utf8EncodeChar, if_neg beyond]
  repeat' split
  all_goals
    simp only [List.forall_mem_cons, List.not_mem_nil, UInt8.toNat_ofNat']
    grind

/-- ASCII characters are counted by their bytes. -/
theorem count_flatMap_utf8EncodeChar {mark : Char} (ascii : mark.toNat < 128)
    (characters : List Char) :
    (characters.flatMap String.utf8EncodeChar).count (ofChar mark) = characters.count mark := by
  have single (character : Char) : (String.utf8EncodeChar character).count (ofChar mark) =
      if character == mark then 1 else 0 := by
    rcases Nat.lt_or_ge character.toNat 128 with small | large
    · have same : (ofChar character == ofChar mark) = (character == mark) := by
        rw [Bool.eq_iff_iff, beq_iff_eq, beq_iff_eq, ← UInt8.toNat_inj, toNat_ofChar small,
          toNat_ofChar ascii, Char.toNat_inj]
      rw [utf8EncodeChar_of_lt small, List.count_singleton, same]
    · have other : character ≠ mark := by
        rintro rfl
        exact Nat.not_lt_of_le large ascii
      rw [if_neg (by simpa using other)]
      refine List.count_eq_zero.mpr fun member => ?_
      have beyond := le_of_mem_utf8EncodeChar large _ member
      rw [toNat_ofChar ascii] at beyond
      exact Nat.not_lt_of_le beyond ascii
  induction characters with
  | nil => rfl
  | cons character characters ih =>
      rw [List.flatMap_cons, List.count_append, ih, single, List.count_cons, Nat.add_comm]

/-- There is one byte that continues no character for each character. -/
theorem countP_flatMap_utf8EncodeChar (characters : List Char) :
    (characters.flatMap String.utf8EncodeChar).countP (!isContinuation ·) = characters.length := by
  induction characters with
  | nil => rfl
  | cons character characters ih =>
      obtain ⟨first, others, encoded, starts, continues⟩ := exists_utf8EncodeChar character
      have none_more : others.countP (!isContinuation ·) = 0 :=
        List.countP_eq_zero.mpr (by simpa using continues)
      rw [List.flatMap_cons, List.countP_append, ih, encoded, List.countP_cons, none_more, starts,
        List.length_cons]
      simp [Nat.add_comm]

/-- Before a byte that continues no character, characters are whole. -/
theorem exists_split_of_first {characters : List Char} {offset : Nat}
    (inside : offset ≤ (characters.flatMap String.utf8EncodeChar).length)
    (starts : ∀ byte ∈ (characters.flatMap String.utf8EncodeChar)[offset]?,
      isContinuation byte = false) :
    ∃ left right, characters = left ++ right ∧
      (left.flatMap String.utf8EncodeChar).length = offset := by
  induction characters generalizing offset with
  | nil => exact ⟨[], [], rfl, (Nat.eq_zero_of_le_zero inside).symm⟩
  | cons character characters ih =>
      obtain ⟨first, others, encoded, -, continues⟩ := exists_utf8EncodeChar character
      cases offset with
      | zero => exact ⟨[], character :: characters, rfl, rfl⟩
      | succ offset =>
          rw [List.flatMap_cons, encoded, List.cons_append] at inside starts
          rw [List.getElem?_cons_succ] at starts
          rw [List.length_cons, List.length_append] at inside
          rcases Nat.lt_or_ge offset others.length with within | past
          · rw [List.getElem?_append_left within] at starts
            have here := starts others[offset] (List.getElem?_eq_getElem within)
            rw [continues _ (List.getElem_mem within)] at here
            cases here
          · rw [List.getElem?_append_right past] at starts
            obtain ⟨left, right, rfl, long⟩ := ih (by omega) starts
            refine ⟨character :: left, right, rfl, ?_⟩
            rw [List.flatMap_cons, encoded, List.length_append, long, List.length_cons]
            omega

end Byte

namespace Source

variable {source : Source} {offset boundary : Nat}

/-! ### Boundaries of characters -/

/-- The text can be split at boundaries of characters only. -/
theorem isBoundary_of_isValid (valid : (⟨offset⟩ : String.Pos.Raw).IsValid source.text) :
    source.isBoundary offset = true := by
  rcases String.Pos.Raw.isValid_iff_isUTF8FirstByte.mp valid with at_end | ⟨inside, first⟩
  · have size_eq : source.size = offset := by
      have same : offset = source.text.utf8ByteSize := congrArg String.Pos.Raw.byteIdx at_end
      rw [size, source.bytes_eq, same]
      rfl
    have nothing : source.byte? offset = none := by
      rw [byte?_eq_getElem?, List.getElem?_eq_none_iff, ← size_eq_length]
      exact Nat.le_of_eq size_eq
    rw [isBoundary, nothing, size_eq]
    exact beq_self_eq_true offset
  · have found : source.byte? offset = some (source.text.getUTF8Byte ⟨offset⟩ inside) := by
      rw [byte?, source.bytes_eq]
      exact getElem?_pos source.text.toUTF8 offset inside
    rw [isBoundary, found]
    simp [Byte.isContinuation_of_isUTF8FirstByte first]

theorem floorBoundary_go_le (offset : Nat) : floorBoundary.go source offset ≤ offset := by
  induction offset with
  | zero => exact Nat.le_refl 0
  | succ offset ih =>
      rw [floorBoundary.go]
      split
      · exact Nat.le_refl _
      · exact Nat.le_succ_of_le ih

theorem isBoundary_floorBoundary_go (offset : Nat) :
    source.isBoundary (floorBoundary.go source offset) = true := by
  induction offset with
  | zero => exact isBoundary_of_isValid String.Pos.Raw.isValid_zero
  | succ offset ih =>
      rw [floorBoundary.go]
      split
      · assumption
      · exact ih

theorem le_floorBoundary_go (marks : source.isBoundary boundary = true)
    (before : boundary ≤ offset) : boundary ≤ floorBoundary.go source offset := by
  induction offset with
  | zero => exact before
  | succ offset ih =>
      rw [floorBoundary.go]
      split
      · exact before
      · rename_i inside
        refine ih (Nat.le_of_lt_succ (Nat.lt_of_le_of_ne before ?_))
        rintro rfl
        exact inside marks

theorem floorBoundary_le (source : Source) (offset : Nat) :
    source.floorBoundary offset ≤ min offset source.size := floorBoundary_go_le _

theorem isBoundary_floorBoundary (source : Source) (offset : Nat) :
    source.isBoundary (source.floorBoundary offset) = true := isBoundary_floorBoundary_go _

/-- No boundary lies between an offset and the one that stands for it. -/
theorem le_floorBoundary_iff (marks : source.isBoundary boundary = true) :
    boundary ≤ source.floorBoundary offset ↔ boundary ≤ min offset source.size :=
  ⟨fun before => Nat.le_trans before (source.floorBoundary_le offset), le_floorBoundary_go marks⟩

/-! ### Texts and their bytes -/

theorem toList_toUTF8 (text : String) :
    text.toUTF8.data.toList = text.toList.flatMap String.utf8EncodeChar := by
  rw [String.toUTF8_eq_toByteArray, ← String.utf8Encode_toList, List.utf8Encode,
    List.data_toByteArray]

/-- Texts of the same bytes are the same. -/
theorem eq_of_toUTF8 {text other : String}
    (same : text.toUTF8.data.toList = other.toUTF8.data.toList) : text = other :=
  String.toByteArray_inj.mp (ByteArray.ext (Array.toList_inj.mp same))

theorem toUTF8_singleton {mark : Char} (ascii : mark.toNat < 128) :
    (String.singleton mark).toUTF8.data.toList = [Byte.ofChar mark] := by
  rw [toList_toUTF8, String.toList_singleton, List.flatMap_singleton,
    Byte.utf8EncodeChar_of_lt ascii]

/-- Characters are counted by the bytes that continue none. -/
theorem countP_toUTF8 (text : String) :
    text.toUTF8.data.toList.countP (!Byte.isContinuation ·) = text.length := by
  rw [toList_toUTF8, Byte.countP_flatMap_utf8EncodeChar, String.length_toList]

theorem head?_toUTF8 {text : String} {mark : Char} (ascii : mark.toNat < 128)
    (first : text.toList.head? = some mark) :
    text.toUTF8.data.toList.head? = some (Byte.ofChar mark) := by
  obtain ⟨others, characters⟩ := List.head?_eq_some_iff.mp first
  rw [toList_toUTF8, characters, List.flatMap_cons, Byte.utf8EncodeChar_of_lt ascii]
  rfl

theorem getLast?_toUTF8 {text : String} {mark : Char} (ascii : mark.toNat < 128)
    (last : text.toList.getLast? = some mark) :
    text.toUTF8.data.toList.getLast? = some (Byte.ofChar mark) := by
  obtain ⟨others, characters⟩ := List.getLast?_eq_some_iff.mp last
  rw [toList_toUTF8, characters, List.flatMap_append, List.flatMap_singleton,
    Byte.utf8EncodeChar_of_lt ascii, List.getLast?_concat]

theorem count_ofChar_toUTF8 {mark : Char} (ascii : mark.toNat < 128) (text : String) :
    text.toUTF8.data.toList.count (Byte.ofChar mark) = text.toList.count mark := by
  rw [toList_toUTF8, Byte.count_flatMap_utf8EncodeChar ascii]

theorem ofChar_mem_toUTF8_iff {mark : Char} (ascii : mark.toNat < 128) {text : String} :
    Byte.ofChar mark ∈ text.toUTF8.data.toList ↔ mark ∈ text.toList := by
  rw [← List.count_pos_iff, count_ofChar_toUTF8 ascii, List.count_pos_iff]

theorem count_toUTF8 (text : String) :
    text.toUTF8.data.toList.count Byte.newline = text.toList.count '\n' :=
  count_ofChar_toUTF8 (by decide) text

/-- A text begins with a character. -/
theorem isContinuation_of_mem_head?_toUTF8 {text : String} {byte : UInt8}
    (first : byte ∈ text.toUTF8.data.toList.head?) : Byte.isContinuation byte = false := by
  rw [toList_toUTF8] at first
  cases characters : text.toList with
  | nil => simp [characters] at first
  | cons character others =>
      obtain ⟨leading, more, encoded, starts, -⟩ := Byte.exists_utf8EncodeChar character
      rw [characters, List.flatMap_cons, encoded] at first
      rwa [← Option.some.inj first]

theorem toList_of_texts {left right : String} (split : source.text = left ++ right) :
    source.toList = left.toUTF8.data.toList ++ right.toUTF8.data.toList := by
  rw [← toUTF8_text, split]
  simp

/-- At a boundary of characters, a source consists of two texts. -/
theorem exists_texts_of_isBoundary (marks : source.isBoundary offset = true) :
    ∃ left right : String, source.text = left ++ right ∧ left.utf8ByteSize = offset := by
  have bytes := source.toUTF8_text
  rw [toList_toUTF8] at bytes
  have starts : ∀ byte ∈ source.toList[offset]?, Byte.isContinuation byte = false := by
    intro byte found
    rw [isBoundary, byte?_eq_getElem?, found] at marks
    simpa using marks
  have inside : offset ≤ source.toList.length := by
    cases found : source.byte? offset with
    | none =>
        rw [isBoundary, found] at marks
        rw [← size_eq_length]
        exact Nat.le_of_eq (beq_iff_eq.mp marks)
    | some byte =>
        rw [byte?_eq_getElem?] at found
        exact Nat.le_of_lt (List.getElem?_eq_some_iff.mp found).1
  rw [← bytes] at starts inside
  obtain ⟨left, right, split, long⟩ := Byte.exists_split_of_first inside starts
  refine ⟨String.ofList left, String.ofList right, ?_, ?_⟩
  · rw [← String.ofList_append, ← split, String.ofList_toList]
  · rw [← length_toUTF8, toList_toUTF8, String.toList_ofList, long]

/-- The boundaries of characters are the offsets at which the text can be split. -/
theorem isBoundary_iff :
    source.isBoundary offset = true ↔ (⟨offset⟩ : String.Pos.Raw).IsValid source.text := by
  refine ⟨fun marks => ?_, isBoundary_of_isValid⟩
  obtain ⟨left, right, split, rfl⟩ := exists_texts_of_isBoundary marks
  exact String.Pos.Raw.isValid_iff_exists_append.mpr ⟨left, right, split, rfl⟩

/-! ### Parts of a text -/

/-- The span is a part of the text: it lies inside it, and it begins and ends between
characters. -/
structure HasPart (source : Source) (span : Span) : Prop where
  /-- The span does not end before it begins. -/
  ordered : span.start ≤ span.stop
  /-- It ends inside the text. -/
  inside : span.stop ≤ source.size
  /-- It begins between characters. -/
  starts : source.isBoundary span.start = true
  /-- It ends between characters. -/
  stops : source.isBoundary span.stop = true

theorem le_size_of_isBoundary (marks : source.isBoundary offset = true) : offset ≤ source.size := by
  obtain ⟨left, right, split, rfl⟩ := exists_texts_of_isBoundary marks
  rw [size_eq_length, ← toUTF8_text, length_toUTF8, split, String.utf8ByteSize_append]
  exact Nat.le_add_right _ _

theorem floorBoundary_of_isBoundary (marks : source.isBoundary offset = true) :
    source.floorBoundary offset = offset :=
  Nat.le_antisymm (Nat.le_trans (source.floorBoundary_le offset) (Nat.min_le_left _ _))
    ((le_floorBoundary_iff marks).mpr (Nat.le_min.mpr ⟨Nat.le_refl _, le_size_of_isBoundary marks⟩))

theorem HasPart.of_isBoundary {span : Span} (ordered : span.start ≤ span.stop)
    (starts : source.isBoundary span.start = true) (stops : source.isBoundary span.stop = true) :
    source.HasPart span :=
  ⟨ordered, le_size_of_isBoundary stops, starts, stops⟩

theorem isBoundary_of_texts {left right : String} (split : source.text = left ++ right) :
    source.isBoundary left.utf8ByteSize = true :=
  isBoundary_of_isValid (String.Pos.Raw.isValid_iff_exists_append.mpr ⟨left, right, split, rfl⟩)

/-- What stands between two texts is a part of the whole. -/
theorem hasPart_of_texts {before inner after : String}
    (split : source.text = before ++ (inner ++ after)) :
    source.HasPart ⟨before.utf8ByteSize, before.utf8ByteSize + inner.utf8ByteSize⟩ := by
  refine .of_isBoundary (Nat.le_add_right _ _) (isBoundary_of_texts split) ?_
  rw [← String.append_assoc] at split
  have stops := isBoundary_of_texts split
  rwa [String.utf8ByteSize_append] at stops

theorem slice_of_texts {before inner after : String}
    (split : source.text = before ++ (inner ++ after)) :
    source.slice ⟨before.utf8ByteSize, before.utf8ByteSize + inner.utf8ByteSize⟩ =
      inner.toUTF8.data.toList := by
  have bytes : source.toList = before.toUTF8.data.toList ++
      (inner.toUTF8.data.toList ++ after.toUTF8.data.toList) := by
    rw [toList_of_texts split]
    simp
  have sliced := slice_of_split bytes
  rwa [length_toUTF8, length_toUTF8] at sliced

/-- Of two texts with which the same text begins, one begins with the other. -/
theorem exists_of_append_eq {before rest front after : String}
    (same : before ++ rest = front ++ after) :
    (∃ more, front = before ++ more ∧ rest = more ++ after) ∨
      ∃ more, before = front ++ more ∧ after = more ++ rest := by
  have characters := congrArg String.toList same
  rw [String.toList_append, String.toList_append] at characters
  refine (List.append_eq_append_iff.mp characters).imp ?_ ?_
  all_goals
    rintro ⟨more, split, other_split⟩
    refine ⟨String.ofList more, String.toList_inj.mp ?_, String.toList_inj.mp ?_⟩
    · rw [split, String.toList_append, String.toList_ofList]
    · rw [other_split, String.toList_append, String.toList_ofList]

/-- The text around a part, and the part itself. -/
theorem HasPart.exists_texts {span : Span} (part : source.HasPart span) :
    ∃ before inner after : String, source.text = before ++ (inner ++ after) ∧
      before.utf8ByteSize = span.start ∧ before.utf8ByteSize + inner.utf8ByteSize = span.stop ∧
      inner.toUTF8.data.toList = source.slice span := by
  obtain ⟨front, after, split, front_size⟩ := exists_texts_of_isBoundary part.stops
  obtain ⟨before, rest, other_split, before_size⟩ := exists_texts_of_isBoundary part.starts
  have longer : before.utf8ByteSize ≤ front.utf8ByteSize := by
    rw [before_size, front_size]
    exact part.ordered
  obtain ⟨inner, rfl⟩ : ∃ inner, front = before ++ inner := by
    rcases exists_of_append_eq (other_split.symm.trans split) with
      ⟨inner, shorter, -⟩ | ⟨more, exceeds, -⟩
    · exact ⟨inner, shorter⟩
    · rw [exceeds, String.utf8ByteSize_append] at longer
      have nothing : more = "" := String.utf8ByteSize_eq_zero_iff.mp (by omega)
      exact ⟨"", by rw [exceeds, nothing, String.append_empty, String.append_empty]⟩
  rw [String.append_assoc] at split
  rw [String.utf8ByteSize_append] at front_size
  refine ⟨before, inner, after, split, before_size, front_size, ?_⟩
  have sliced := slice_of_texts split
  rw [front_size, before_size] at sliced
  exact sliced.symm

/-- A part that is not empty is read as it is written. -/
theorem HasPart.toUTF8_read {span : Span} (part : source.HasPart span)
    (filled : span.start < span.stop) :
    (source.read span).toUTF8.data.toList = source.slice span := by
  obtain ⟨-, inner, -, -, -, -, copied⟩ := part.exists_texts
  have sliced : source.slice span =
      (source.bytes.extract span.start span.stop).data.toList := by
    simp only [slice, Nat.min_eq_left part.inside, filled, if_true]
  rw [sliced] at copied ⊢
  have decoded := fromUTF8?_eq_some_iff.mpr copied
  rw [Array.toArray_toList] at decoded
  rw [read, if_pos ⟨filled, part.inside⟩, decoded, Option.getD_some, copied]

end Source
end TwigTemplate
