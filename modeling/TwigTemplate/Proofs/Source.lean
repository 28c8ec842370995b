import TwigTemplate.Source

/-!
# Splitting texts between characters

The bytes of a text may be split where the text can be: before a byte that starts a character, and
after a byte that is a character by itself.  What is read from the first part by itself is what is
read from it in the whole text.
-/

namespace TwigTemplate

namespace Byte

/-- The byte is a character by itself. -/
def IsAscii (byte : UInt8) : Prop :=
  ∃ character : Char, character.utf8Size = 1 ∧ byte = ofChar character

theorem IsAscii.isUTF8FirstByte {byte : UInt8} (ascii : IsAscii byte) : byte.IsUTF8FirstByte := by
  obtain ⟨character, single, rfl⟩ := ascii
  have inside : 0 < (String.utf8EncodeChar character).length := by
    rw [String.length_utf8EncodeChar]
    exact character.utf8Size_pos
  have first : (String.utf8EncodeChar character)[0].IsUTF8FirstByte :=
    UInt8.isUTF8FirstByte_getElem_utf8EncodeChar.mpr rfl
  simpa [ofChar, String.utf8EncodeChar_eq_singleton single] using first

theorem isAscii_leftBrace : IsAscii leftBrace := ⟨'\x7b', by decide, rfl⟩

theorem isAscii_rightBrace : IsAscii rightBrace := ⟨'\x7d', by decide, rfl⟩

theorem isAscii_of_isTrimMark {byte : UInt8} (mark : isTrimMark byte = true) : IsAscii byte := by
  rw [isTrimMark, Bool.or_eq_true, beq_iff_eq, beq_iff_eq] at mark
  rcases mark with rfl | rfl
  · exact ⟨'-', by decide, rfl⟩
  · exact ⟨'~', by decide, rfl⟩

theorem isAscii_of_isQuote {byte : UInt8} (quote : isQuote byte = true) : IsAscii byte := by
  rw [isQuote, Bool.or_eq_true, beq_iff_eq, beq_iff_eq] at quote
  rcases quote with rfl | rfl
  · exact ⟨Char.ofNat 0x22, by decide, rfl⟩
  · exact ⟨Char.ofNat 0x27, by decide, rfl⟩

end Byte

namespace Source

variable {text : String} {front back : List UInt8}

theorem toUTF8_text (source : Source) : source.text.toUTF8.data.toList = source.toList := by
  rw [← source.bytes_eq]
  rfl

theorem toUTF8_append (left right : String) :
    (left ++ right).toUTF8.data.toList =
      left.toUTF8.data.toList ++ right.toUTF8.data.toList := by
  simp

theorem length_toUTF8 (text : String) : text.toUTF8.data.toList.length = text.utf8ByteSize := by
  simp

theorem exists_split_of_isValid (split : text.toUTF8.data.toList = front ++ back)
    (valid : (⟨front.length⟩ : String.Pos.Raw).IsValid text) :
    ∃ left right : String, text = left ++ right ∧ left.toUTF8.data.toList = front ∧
      right.toUTF8.data.toList = back := by
  obtain ⟨left, right, rfl, position⟩ := String.Pos.Raw.isValid_iff_exists_append.mp valid
  have long : left.toUTF8.data.toList.length = front.length := by
    have offset := congrArg String.Pos.Raw.byteIdx position
    simpa using offset.symm
  have bytes : left.toUTF8.data.toList ++ right.toUTF8.data.toList = front ++ back := by
    rw [← split, toUTF8_append]
  obtain ⟨left_eq, right_eq⟩ := List.append_inj bytes long
  exact ⟨left, right, rfl, left_eq, right_eq⟩

/-- A text can be split before a byte that starts a character. -/
theorem isValid_of_first {byte : UInt8} {tail : List UInt8}
    (split : text.toUTF8.data.toList = front ++ byte :: tail) (first : byte.IsUTF8FirstByte) :
    (⟨front.length⟩ : String.Pos.Raw).IsValid text := by
  have size : text.utf8ByteSize = front.length + (tail.length + 1) := by
    have long := congrArg List.length split
    simpa using long
  have inside : (⟨front.length⟩ : String.Pos.Raw) < text.rawEndPos := by
    rw [String.Pos.Raw.lt_iff, String.byteIdx_rawEndPos, size]
    exact Nat.lt_add_of_pos_right (Nat.succ_pos _)
  have found : text.getUTF8Byte ⟨front.length⟩ inside = byte := by
    have bytes : text.toByteArray.data.toList[front.length]? = some byte := by
      rw [← String.toUTF8_eq_toByteArray, split]
      simp
    rw [List.getElem?_eq_some_iff] at bytes
    exact bytes.2
  exact String.Pos.Raw.isValid_iff_isUTF8FirstByte.mpr (.inr ⟨inside, found ▸ first⟩)

/-- A text can be split before an ASCII character. -/
theorem isValid_before_ascii {byte : UInt8} {tail : List UInt8}
    (split : text.toUTF8.data.toList = front ++ byte :: tail) (ascii : Byte.IsAscii byte) :
    (⟨front.length⟩ : String.Pos.Raw).IsValid text :=
  isValid_of_first split ascii.isUTF8FirstByte

/-- A text can be split after an ASCII character. -/
theorem isValid_after_ascii {byte : UInt8} (ascii : Byte.IsAscii byte)
    (split : text.toUTF8.data.toList = (front ++ [byte]) ++ back) :
    (⟨(front ++ [byte]).length⟩ : String.Pos.Raw).IsValid text := by
  obtain ⟨left, right, rfl, left_eq, right_eq⟩ := exists_split_of_isValid
    (split.trans (List.append_assoc _ _ _))
    (isValid_before_ascii (split.trans (List.append_assoc _ _ _)) ascii)
  have pushed : (left.toByteArray.push byte).IsValidUTF8 := by
    obtain ⟨character, single, rfl⟩ := ascii
    exact left.isValidUTF8.push single
  have taken : (left ++ right).toByteArray.extract 0 (front ++ [byte]).length =
      left.toByteArray.push byte := by
    apply ByteArray.ext
    apply Array.toList_inj.mp
    rw [String.toUTF8_eq_toByteArray] at split left_eq
    rw [ByteArray.data_extract, Array.toList_extract, split, List.extract_eq_take_drop,
      Nat.sub_zero, List.drop_zero, List.take_left, ← left_eq]
    simp
  have size : (left ++ right).utf8ByteSize = (front ++ [byte]).length + back.length := by
    have long := congrArg List.length split
    rw [List.length_append] at long
    rw [← long]
    simp
  refine String.Pos.Raw.isValid_iff_isValidUTF8_extract_zero.mpr ⟨?_, ?_⟩
  · rw [String.Pos.Raw.le_iff, String.byteIdx_rawEndPos, size]
    exact Nat.le_add_right _ _
  · rw [taken]
    exact pushed

/-! ### Parts of a source -/

theorem fromUTF8?_eq_some_iff {bytes : List UInt8} {text : String} :
    String.fromUTF8? ⟨bytes.toArray⟩ = some text ↔ text.toUTF8.data.toList = bytes := by
  constructor
  · intro found
    rw [String.fromUTF8?] at found
    split at found
    · cases found
      rfl
    · cases found
  · rintro rfl
    rw [Array.toArray_toList]
    exact dif_pos text.isValidUTF8

/-- Reading bytes gives a text if and only if they are its bytes. -/
theorem getD_fromUTF8?_eq_iff {bytes : List UInt8} {text : String} (filled : text ≠ "") :
    (String.fromUTF8? ⟨bytes.toArray⟩).getD "" = text ↔ text.toUTF8.data.toList = bytes := by
  rw [← fromUTF8?_eq_some_iff]
  cases String.fromUTF8? ⟨bytes.toArray⟩ with
  | none => simp [filled.symm]
  | some found => simp

variable {source : Source} {before content after : List UInt8}

theorem size_eq_length (source : Source) : source.size = source.toList.length := by
  rw [size, toList, Array.length_toList]
  rfl

theorem extract_of_split (split : source.toList = before ++ (content ++ after)) :
    source.bytes.extract before.length (before.length + content.length) =
      ⟨content.toArray⟩ := by
  apply ByteArray.ext
  apply Array.toList_inj.mp
  rw [toList] at split
  rw [ByteArray.data_extract, Array.toList_extract, split, List.extract_eq_take_drop,
    Nat.add_sub_cancel_left, List.drop_left, List.take_left]

theorem size_of_split (split : source.toList = before ++ (content ++ after)) :
    source.size = before.length + (content.length + after.length) := by
  rw [size_eq_length, split, List.length_append, List.length_append]

/-- The text in the part of a source after `before`. -/
theorem read_of_split (split : source.toList = before ++ (content ++ after)) :
    source.read ⟨before.length, before.length + content.length⟩ =
      (String.fromUTF8? ⟨content.toArray⟩).getD "" := by
  cases content with
  | nil =>
      have nothing : String.fromUTF8? ⟨([] : List UInt8).toArray⟩ = some "" :=
        fromUTF8?_eq_some_iff.mpr rfl
      rw [read, if_neg (by simp), nothing, Option.getD_some]
  | cons byte content =>
      have size := size_of_split split
      rw [List.length_cons] at size
      rw [read, if_pos ⟨by simp, by dsimp only [List.length_cons]; omega⟩]
      exact congrArg (fun bytes => (String.fromUTF8? bytes).getD "") (extract_of_split split)

/-- The bytes in the part of a source after `before`. -/
theorem slice_of_split (split : source.toList = before ++ (content ++ after)) :
    source.slice ⟨before.length, before.length + content.length⟩ = content := by
  have size := size_of_split split
  have inside : min (before.length + content.length) source.size =
      before.length + content.length := by omega
  simp only [slice, inside]
  split
  · rw [extract_of_split split]
  · exact (List.eq_nil_of_length_eq_zero (by omega)).symm

/-- The bytes of a span are those up to its end but for those before its start. -/
theorem slice_eq_drop (source : Source) (span : Span) :
    source.slice span = (source.toList.take span.stop).drop span.start := by
  simp only [slice]
  split
  · rw [ByteArray.data_extract, Array.toList_extract, List.extract_eq_drop_take', size_eq_length,
      ← toList, ← List.take_eq_take_min]
  · rename_i outside
    rw [size_eq_length] at outside
    rw [eq_comm, List.drop_eq_nil_iff, List.length_take]
    omega

/-- A span with bytes in it begins inside the source. -/
theorem exists_split_of_slice {span : Span} (filled : source.slice span ≠ []) :
    ∃ before after, source.toList = before ++ (source.slice span ++ after) ∧
      before.length = span.start := by
  rw [slice_eq_drop] at filled ⊢
  have inside := Nat.lt_of_not_le (mt List.drop_eq_nil_iff.mpr filled)
  refine ⟨(source.toList.take span.stop).take span.start, source.toList.drop span.stop, ?_, ?_⟩
  · rw [← List.append_assoc, List.take_append_drop, List.take_append_drop]
  · rw [List.length_take, Nat.min_eq_left (Nat.le_of_lt inside)]

/-! ### Reading the first part -/

section Begins

variable {left right : Source} {span : Span}

/-- The one text begins with the other. -/
def Begins (left right : Source) : Prop := ∃ back, right.toList = left.toList ++ back

theorem byte?_eq_getElem? (source : Source) (offset : Nat) :
    source.byte? offset = source.toList[offset]? := by
  rw [byte?, toList, Array.getElem?_toList]
  rfl

theorem byte?_of_split {source : Source} {before rest : List UInt8}
    (split : source.toList = before ++ rest) (place : Nat) :
    source.byte? (before.length + place) = rest[place]? := by
  rw [byte?_eq_getElem?, split, List.getElem?_append_right (Nat.le_add_right _ _),
    Nat.add_sub_cancel_left]

/-- The byte behind the first part of a source. -/
theorem byte?_length_of_split {source : Source} {before rest : List UInt8}
    (split : source.toList = before ++ rest) : source.byte? before.length = rest.head? := by
  rw [← Nat.add_zero before.length, byte?_of_split split, List.head?_eq_getElem?]

theorem Begins.size_le (begins : Begins left right) : left.size ≤ right.size := by
  obtain ⟨back, split⟩ := begins
  rw [size_eq_length, size_eq_length, split, List.length_append]
  exact Nat.le_add_right _ _

theorem Begins.byte?_eq (begins : Begins left right) {offset : Nat} (inside : offset < left.size) :
    left.byte? offset = right.byte? offset := by
  obtain ⟨back, split⟩ := begins
  rw [byte?_eq_getElem?, byte?_eq_getElem?, split,
    List.getElem?_append_left (size_eq_length left ▸ inside)]

theorem Begins.extract_eq (begins : Begins left right) (start : Nat) {stop : Nat}
    (inside : stop ≤ left.size) :
    left.bytes.extract start stop = right.bytes.extract start stop := by
  obtain ⟨back, split⟩ := begins
  apply ByteArray.ext
  apply Array.toList_inj.mp
  rw [size_eq_length, toList] at inside
  rw [toList, toList] at split
  rw [ByteArray.data_extract, ByteArray.data_extract, Array.toList_extract, Array.toList_extract,
    split, List.extract_eq_drop_take', List.extract_eq_drop_take',
    List.take_append_of_le_length inside]

theorem Begins.slice_eq (begins : Begins left right) (inside : span.stop ≤ left.size) :
    left.slice span = right.slice span := by
  rw [slice, slice, Nat.min_eq_left inside, Nat.min_eq_left (Nat.le_trans inside begins.size_le),
    begins.extract_eq _ inside]

theorem Begins.read_eq (begins : Begins left right) (inside : span.stop ≤ left.size) :
    left.read span = right.read span := by
  have inside_right := Nat.le_trans inside begins.size_le
  simp only [read, inside, inside_right, begins.extract_eq _ inside]

end Begins

/-! ### Reading the last part -/

section Ends

variable {back whole : Source} {offset : Nat}

/-- The one text makes up the other from an offset on. -/
def Ends (back whole : Source) (offset : Nat) : Prop :=
  ∃ front, whole.toList = front ++ back.toList ∧ front.length = offset

theorem Ends.size_eq (ends : Ends back whole offset) : whole.size = offset + back.size := by
  obtain ⟨front, split, rfl⟩ := ends
  rw [size_eq_length, size_eq_length, split, List.length_append]

theorem Ends.byte?_eq (ends : Ends back whole offset) (place : Nat) :
    whole.byte? (offset + place) = back.byte? place := by
  obtain ⟨front, split, rfl⟩ := ends
  rw [byte?_of_split split, byte?_eq_getElem?]

theorem Ends.extract_eq (ends : Ends back whole offset) (start stop : Nat) :
    whole.bytes.extract (offset + start) (offset + stop) = back.bytes.extract start stop := by
  obtain ⟨front, split, rfl⟩ := ends
  apply ByteArray.ext
  apply Array.toList_inj.mp
  rw [toList, toList] at split
  rw [ByteArray.data_extract, ByteArray.data_extract, Array.toList_extract, Array.toList_extract,
    split, List.extract_eq_drop_take', List.extract_eq_drop_take', List.take_length_add_append,
    List.drop_length_add_append]

theorem Ends.slice_eq (ends : Ends back whole offset) (start stop : Nat) :
    whole.slice ⟨offset + start, offset + stop⟩ = back.slice ⟨start, stop⟩ := by
  have inside : min (offset + stop) whole.size = offset + min stop back.size := by
    rw [ends.size_eq]
    omega
  simp only [slice, inside, ends.extract_eq, Nat.add_lt_add_iff_left]

theorem Ends.read_eq (ends : Ends back whole offset) (start stop : Nat) :
    whole.read ⟨offset + start, offset + stop⟩ = back.read ⟨start, stop⟩ := by
  simp only [read, ends.size_eq, ends.extract_eq, Nat.add_lt_add_iff_left, Nat.add_le_add_iff_left]

end Ends

/-! ### Joining two texts -/

instance : Append Source := ⟨fun left right => ofString (left.text ++ right.text)⟩

theorem toList_ofString (text : String) : (ofString text).toList = text.toUTF8.data.toList := rfl

theorem toList_append (left right : Source) :
    (left ++ right).toList = left.toList ++ right.toList := by
  rw [← toUTF8_text, ← toUTF8_text left, ← toUTF8_text right, ← toUTF8_append]
  rfl

theorem begins_append (left right : Source) : left.Begins (left ++ right) :=
  ⟨right.toList, toList_append left right⟩

theorem ends_append (left right : Source) : right.Ends (left ++ right) left.size :=
  ⟨left.toList, toList_append left right, (size_eq_length left).symm⟩

end Source
end TwigTemplate
