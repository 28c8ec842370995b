import TwigTemplate.Proofs.Token.Takes

/-!
# End tags of verbatim bodies

The search for the end of a verbatim body looks as far ahead as an end tag is long.  Such a tag is
taken apart here; as markup it is read as its opening delimiter, its word and its closing delimiter,
and nothing else.
-/

namespace TwigTemplate

namespace Byte

/-- No literal and no delimiter starts with the byte. -/
def isPlain (byte : UInt8) : Bool :=
  !isQuote byte && !isTrimMark byte && byte != leftBrace && byte != percent

theorem isPlain_of_isSpace {byte : UInt8} (space : isSpace byte = true) : isPlain byte = true := by
  simp only [isSpace, Bool.or_eq_true, beq_iff_eq] at space
  rcases space with (((rfl | rfl) | rfl) | rfl) | rfl <;> decide

theorem not_isTrimMark_of_isPlain {byte : UInt8} (plain : isPlain byte = true) :
    isTrimMark byte = false := by
  simp only [isPlain, Bool.and_eq_true, Bool.not_eq_true'] at plain
  exact plain.1.1.2

theorem not_isSpace_of_isTrimMark {byte : UInt8} (mark : isTrimMark byte = true) :
    isSpace byte = false := by
  rw [Bool.eq_false_iff]
  intro space
  rw [not_isTrimMark_of_isPlain (isPlain_of_isSpace space)] at mark
  cases mark

end Byte

namespace Lexeme

theorem exists_trimMark (bytes : List UInt8) :
    ∃ mark, TrimMark mark ∧ bytes = mark ++ dropTrimMark bytes := by
  cases bytes with
  | nil => exact ⟨[], .inl rfl, rfl⟩
  | cons byte tail =>
      cases marked : Byte.isTrimMark byte with
      | false => exact ⟨[], .inl rfl, by simp [dropTrimMark, marked]⟩
      | true => exact ⟨[byte], .inr ⟨byte, marked, rfl⟩, by simp [dropTrimMark, marked]⟩

theorem dropTrimMark_append {mark rest : List UInt8} (trim : TrimMark mark)
    (unmarked : rest.head?.any Byte.isTrimMark = false) : dropTrimMark (mark ++ rest) = rest := by
  rcases trim with rfl | ⟨byte, marked, rfl⟩
  · cases rest with
    | nil => rfl
    | cons byte tail =>
        rw [List.head?_cons, Option.any_some] at unmarked
        simp [dropTrimMark, unmarked]
  · simp [dropTrimMark, marked]

/-- A tag that consists of a word, white space and trim marks aside. -/
structure EndTag (word : List UInt8) where
  /-- Trim mark of the opening delimiter. -/
  openMark : List UInt8
  /-- White space before the word. -/
  before : List UInt8
  /-- White space after the word. -/
  after : List UInt8
  /-- Trim mark of the closing delimiter. -/
  closeMark : List UInt8
  /-- There is at most one trim mark at the beginning. -/
  trim_open : TrimMark openMark
  /-- All of it is white space. -/
  space_before : ∀ byte ∈ before, Byte.isSpace byte = true
  /-- All of it is white space. -/
  space_after : ∀ byte ∈ after, Byte.isSpace byte = true
  /-- There is at most one trim mark at the end. -/
  trim_close : TrimMark closeMark

namespace EndTag

variable {word : List UInt8}

/-- What is between the delimiters. -/
def inside (tag : EndTag word) : List UInt8 := tag.before ++ (word ++ tag.after)

/-- The closing delimiter. -/
def close (tag : EndTag word) : List UInt8 := tag.closeMark ++ [Byte.percent, Byte.rightBrace]

/-- All bytes of the tag but the first one. -/
def tail (tag : EndTag word) : List UInt8 :=
  Byte.percent :: (tag.openMark ++ (tag.inside ++ tag.close))

/-- All bytes of the tag. -/
def bytes (tag : EndTag word) : List UInt8 := Byte.leftBrace :: tag.tail

end EndTag

theorem opener?_eq_tag {brace mark : UInt8} {later : List UInt8}
    (opens : Delimiter.opener? (brace :: mark :: later) = some .tag) :
    brace = Byte.leftBrace ∧ mark = Byte.percent := by
  simp only [Delimiter.opener?, Delimiter.ofMark?] at opens
  split at opens
  · rename_i is_brace
    refine ⟨beq_iff_eq.mp is_brace, ?_⟩
    split at opens
    · rename_i is_percent
      exact beq_iff_eq.mp is_percent
    · split at opens
      · cases opens
      · split at opens <;> cases opens
  · cases opens

/-- What starts with such a tag can be taken apart. -/
theorem exists_endTag {word bytes : List UInt8} (starts : startsTag word bytes = true) :
    ∃ (tag : EndTag word) (rest : List UInt8), bytes = tag.bytes ++ rest := by
  have opens := opener?_of_startsTag starts
  match bytes with
  | [] => cases opens
  | [_] => cases opens
  | brace :: percent :: later =>
    obtain ⟨rfl, rfl⟩ := opener?_eq_tag opens
    rw [startsTag, if_pos (by rw [opens]; rfl)] at starts
    simp only [List.drop_succ_cons, List.drop_zero, Bool.and_eq_true] at starts
    obtain ⟨worded, closed⟩ := starts
    obtain ⟨openMark, trim_open, marked⟩ := exists_trimMark later
    obtain ⟨behind, content⟩ := List.isPrefixOf_iff_prefix.mp worded
    rw [← content, List.drop_left] at closed
    obtain ⟨closeMark, trim_close, closing⟩ := exists_trimMark (behind.dropWhile Byte.isSpace)
    obtain ⟨rest, closes⟩ := Delimiter.startsBareClose_iff.mp closed
    have bare : dropTrimMark (behind.dropWhile Byte.isSpace) =
        Byte.percent :: Byte.rightBrace :: rest := by rw [← closes, Delimiter.closeBytes_eq]; rfl
    refine ⟨⟨openMark, (dropTrimMark later).takeWhile Byte.isSpace,
      behind.takeWhile Byte.isSpace, closeMark, trim_open, List.all_eq_true.mp List.all_takeWhile,
      List.all_eq_true.mp List.all_takeWhile, trim_close⟩, rest, ?_⟩
    have behind_eq : behind = behind.takeWhile Byte.isSpace ++
        (closeMark ++ Byte.percent :: Byte.rightBrace :: rest) := by
      rw [← bare, ← closing, List.takeWhile_append_dropWhile]
    have later_eq : later = openMark ++ ((dropTrimMark later).takeWhile Byte.isSpace ++
        (word ++ behind)) := by
      rw [content, List.takeWhile_append_dropWhile, ← marked]
    conv =>
      lhs
      rw [later_eq, behind_eq]
    simp [EndTag.bytes, EndTag.tail, EndTag.inside, EndTag.close]

/-- The word of an end tag is made up of plain bytes that are not white space. -/
def PlainWord (word : List UInt8) : Prop :=
  word ≠ [] ∧ ∀ byte ∈ word, Byte.isPlain byte = true ∧ Byte.isSpace byte = false

theorem eq_of_known {keyword : String} (known : keyword ∈ verbatimKeywords) :
    keyword = "verbatim" ∨ keyword = "raw" := by
  simpa [verbatimKeywords] using known

theorem plainWord_endWord {keyword : String} (known : keyword ∈ verbatimKeywords) :
    PlainWord (endWord keyword) := by
  rcases eq_of_known known with rfl | rfl <;> exact ⟨by decide +kernel, by decide +kernel⟩

namespace EndTag

variable {word : List UInt8}

theorem unmarked_append {inside : List UInt8} (filled : inside ≠ [])
    (plain : ∀ byte ∈ inside, Byte.isPlain byte = true) (rest : List UInt8) :
    (inside ++ rest).head?.any Byte.isTrimMark = false := by
  cases inside with
  | nil => exact absurd rfl filled
  | cons byte tail => exact Byte.not_isTrimMark_of_isPlain (plain byte List.mem_cons_self)

variable (plainWord : PlainWord word) (tag : EndTag word)
include plainWord

theorem plain_inside : ∀ byte ∈ tag.inside, Byte.isPlain byte = true := by
  intro byte member
  simp only [inside, List.mem_append] at member
  rcases member with space | worded | space
  · exact Byte.isPlain_of_isSpace (tag.space_before byte space)
  · exact (plainWord.2 byte worded).1
  · exact Byte.isPlain_of_isSpace (tag.space_after byte space)

theorem inside_ne_nil : tag.inside ≠ [] := by
  simp [inside, plainWord.1]

/-- The end tag is seen whatever follows it. -/
theorem starts (rest : List UInt8) : startsTag word (tag.bytes ++ rest) = true := by
  have opens : Delimiter.opener? (tag.bytes ++ rest) = some .tag := rfl
  have later : (tag.bytes ++ rest).drop 2 =
      tag.openMark ++ (tag.inside ++ (tag.close ++ rest)) := by
    simp [bytes, tail]
  have unspaced_word : ∀ more : List UInt8,
      (word ++ more).dropWhile Byte.isSpace = word ++ more := by
    intro more
    obtain ⟨byte, others, rfl⟩ := List.exists_cons_of_ne_nil plainWord.1
    simp [(plainWord.2 byte List.mem_cons_self).2]
  have unspaced_close : (tag.close ++ rest).dropWhile Byte.isSpace = tag.close ++ rest := by
    rcases tag.trim_close with bare | ⟨mark, marked, marks⟩
    · simp [close, bare, show Byte.isSpace Byte.percent = false by decide]
    · simp [close, marks, Byte.not_isSpace_of_isTrimMark marked]
  have content : (dropTrimMark ((tag.bytes ++ rest).drop 2)).dropWhile Byte.isSpace =
      word ++ (tag.after ++ (tag.close ++ rest)) := by
    rw [later, dropTrimMark_append tag.trim_open
      (unmarked_append (tag.inside_ne_nil plainWord) (tag.plain_inside plainWord) _), inside,
      List.append_assoc, List.append_assoc, List.dropWhile_append_of_pos tag.space_before,
      unspaced_word]
  have bare : dropTrimMark (tag.close ++ rest) = Byte.percent :: Byte.rightBrace :: rest := by
    rw [close, List.append_assoc]
    exact dropTrimMark_append tag.trim_close rfl
  rw [startsTag, if_pos (by rw [opens]; rfl)]
  dsimp only
  rw [content, List.drop_left, List.dropWhile_append_of_pos tag.space_after, unspaced_close, bare,
    List.isPrefixOf_iff_prefix.mpr (List.prefix_append _ _)]
  rfl

end EndTag

/-- The test for an end tag does not depend on what follows the tag. -/
theorem lasting_startsTag {word : List UInt8} (plainWord : PlainWord word) :
    Lasting (startsTag word) := by
  intro bytes back starts
  obtain ⟨tag, rest, rfl⟩ := exists_endTag starts
  rw [List.append_assoc]
  exact tag.starts plainWord _

/-! ### What end tags reach over -/

section Reach

variable {word : List UInt8}

/-- An end tag holds no opening brace but its first byte. -/
theorem EndTag.not_mem_tail (plainWord : PlainWord word) (tag : EndTag word) :
    Byte.leftBrace ∉ tag.tail := by
  have plain : Byte.leftBrace ∉ tag.inside := fun member =>
    absurd (tag.plain_inside plainWord _ member) (by decide)
  have unmarked {mark : List UInt8} (trim : TrimMark mark) : Byte.leftBrace ∉ mark := by
    rintro member
    rcases trim with rfl | ⟨byte, marked, rfl⟩
    · cases member
    · obtain rfl := List.mem_singleton.mp member
      exact absurd marked (by decide)
  simp only [EndTag.tail, EndTag.close, List.mem_cons, List.mem_append, List.not_mem_nil, or_false]
  rintro (brace | marked | inner | marked | brace | brace)
  · exact absurd brace (by decide)
  · exact unmarked tag.trim_open marked
  · exact plain inner
  · exact unmarked tag.trim_close marked
  · exact absurd brace (by decide)
  · exact absurd brace (by decide)

/-- An end tag holds no closing brace but its last byte, if the word holds none. -/
theorem EndTag.exists_bytes_eq (unbraced : Byte.rightBrace ∉ word) (tag : EndTag word) :
    ∃ init, tag.bytes = init ++ [Byte.rightBrace] ∧ Byte.rightBrace ∉ init := by
  have unmarked {mark : List UInt8} (trim : TrimMark mark) : Byte.rightBrace ∉ mark := by
    rintro member
    rcases trim with rfl | ⟨byte, marked, rfl⟩
    · cases member
    · obtain rfl := List.mem_singleton.mp member
      exact absurd marked (by decide)
  have unspaced {spaces : List UInt8} (space : ∀ byte ∈ spaces, Byte.isSpace byte = true) :
      Byte.rightBrace ∉ spaces := fun member => absurd (space _ member) (by decide)
  refine ⟨Byte.leftBrace :: Byte.percent ::
    (tag.openMark ++ (tag.inside ++ (tag.closeMark ++ [Byte.percent]))), ?_, ?_⟩
  · simp [EndTag.bytes, EndTag.tail, EndTag.close]
  · simp only [EndTag.inside, List.mem_cons, List.mem_append, List.not_mem_nil, or_false]
    rintro (brace | brace | marked | (space | worded | space) | marked | brace)
    · exact absurd brace (by decide)
    · exact absurd brace (by decide)
    · exact unmarked tag.trim_open marked
    · exact unspaced tag.space_before space
    · exact unbraced worded
    · exact unspaced tag.space_after space
    · exact unmarked tag.trim_close marked
    · exact absurd brace (by decide)

/-- An end tag that begins before an opening brace ends before it. -/
theorem startsTag_append_leftBrace_iff (plainWord : PlainWord word) {before : List UInt8}
    (filled : before ≠ []) (later : List UInt8) :
    startsTag word (before ++ Byte.leftBrace :: later) = true ↔ startsTag word before = true := by
  constructor
  · intro starts
    obtain ⟨tag, rest, split⟩ := exists_endTag starts
    rcases List.append_eq_append_iff.mp split with ⟨cut, tag_eq, later_eq⟩ | ⟨behind, rfl, -⟩
    · cases cut with
      | nil =>
          rw [List.append_nil] at tag_eq
          rw [← tag_eq, ← List.append_nil tag.bytes]
          exact tag.starts plainWord []
      | cons byte cut =>
          obtain ⟨rfl, -⟩ := List.cons.inj later_eq
          obtain ⟨first, others, rfl⟩ := List.exists_cons_of_ne_nil filled
          obtain ⟨-, tail_eq⟩ := List.cons.inj tag_eq
          exact absurd (tail_eq ▸ by simp) (tag.not_mem_tail plainWord)
    · exact tag.starts plainWord behind
  · exact lasting_startsTag plainWord _ _

/-- An end tag that begins before a closing brace ends with it at the latest. -/
theorem startsTag_append_rightBrace_iff (plainWord : PlainWord word)
    (unbraced : Byte.rightBrace ∉ word) (before later : List UInt8) :
    startsTag word (before ++ [Byte.rightBrace] ++ later) = true ↔
      startsTag word (before ++ [Byte.rightBrace]) = true := by
  constructor
  · intro starts
    obtain ⟨tag, rest, split⟩ := exists_endTag starts
    obtain ⟨init, bytes_eq, unbraced⟩ := tag.exists_bytes_eq unbraced
    rcases List.append_eq_append_iff.mp split with ⟨cut, tag_eq, -⟩ | ⟨behind, front_eq, -⟩
    · rcases List.eq_nil_or_concat cut with rfl | ⟨cut, last, rfl⟩
      · rw [List.append_nil] at tag_eq
        rw [← tag_eq, ← List.append_nil tag.bytes]
        exact tag.starts plainWord []
      · rw [bytes_eq, List.concat_eq_append, ← List.append_assoc] at tag_eq
        obtain ⟨rfl, -⟩ := List.append_inj' tag_eq rfl
        exact absurd (by simp) unbraced
    · rw [front_eq]
      exact tag.starts plainWord behind
  · exact lasting_startsTag plainWord _ _

theorem rightBrace_not_mem_endWord {keyword : String} (known : keyword ∈ verbatimKeywords) :
    Byte.rightBrace ∉ endWord keyword := by
  rcases eq_of_known known with rfl | rfl <;> decide +kernel

end Reach

/-! ### How an end tag is read -/

theorem endsRun_of_isPlain {byte : UInt8} (plain : Byte.isPlain byte = true) (tail : List UInt8) :
    endsRun .tag 0 (byte :: tail) = false := by
  simp only [Byte.isPlain, Bool.and_eq_true, Bool.not_eq_true', bne_iff_ne] at plain
  obtain ⟨⟨⟨unquoted, unmarked⟩, no_brace⟩, no_percent⟩ := plain
  cases tail with
  | nil => simp [endsRun, unquoted, unmarked, Delimiter.startsClose, Delimiter.startsBareClose,
      Delimiter.opener?]
  | cons next tail => simp [endsRun, unquoted, unmarked, no_brace, no_percent,
      Delimiter.startsClose, Delimiter.startsBareClose, Delimiter.closeMark, Delimiter.opener?]

theorem codeRun_of_plain {inside : List UInt8}
    (plain : ∀ byte ∈ inside, Byte.isPlain byte = true) (content : List UInt8) (extra : Nat)
    {rest : List UInt8} (ends : endsRun .tag 0 rest = true) :
    codeRun .tag 0 content extra (inside ++ rest) =
      (raw (extra + inside.length), .region .tag 0 (inside.reverse ++ content)) := by
  induction inside generalizing content extra with
  | nil =>
      cases rest with
      | nil => cases ends
      | cons byte tail => exact if_pos ends
  | cons byte inside ih =>
      rw [List.forall_mem_cons] at plain
      rw [List.cons_append, codeRun, endsRun_of_isPlain plain.1]
      simp only [Bool.false_eq_true, if_false]
      rw [show depthAfter .tag 0 byte = 0 from rfl, ih plain.2]
      simp [Nat.add_assoc, Nat.add_comm 1]

namespace EndTag

variable {word : List UInt8} (plainWord : PlainWord word) (tag : EndTag word)

theorem startsClose_close (rest : List UInt8) :
    Delimiter.tag.startsClose (tag.close ++ rest) = true := by
  rcases tag.trim_close with bare | ⟨mark, marked, marks⟩
  · rw [close, bare]
    rfl
  · rw [close, marks]
    simp [Delimiter.startsClose, marked, Delimiter.startsBareClose, Delimiter.closeMark]

theorem endsRun_close (rest : List UInt8) : endsRun .tag 0 (tag.close ++ rest) = true := by
  rw [endsRun, startsClose_close]
  simp

theorem opening_tail {inside : List UInt8} (filled : inside ≠ [])
    (plain : ∀ byte ∈ inside, Byte.isPlain byte = true) {mark : List UInt8} (trim : TrimMark mark)
    (rest : List UInt8) :
    opening .tag (Byte.percent :: (mark ++ (inside ++ rest))) =
      (⟨.opening .tag, !mark.isEmpty, mark.length + 1⟩, .region .tag 0 []) := by
  rcases trim with rfl | ⟨byte, marked, rfl⟩
  · have unmarked := unmarked_append filled plain rest
    simp only [opening, List.nil_append, List.drop_succ_cons, List.drop_zero, unmarked]
    rfl
  · simp [opening, marked]

theorem next_inside {inside : List UInt8} (filled : inside ≠ [])
    (plain : ∀ byte ∈ inside, Byte.isPlain byte = true) {rest : List UInt8}
    (ends : endsRun .tag 0 rest = true) :
    ∃ byte tail, inside ++ rest = byte :: tail ∧
      next (.region .tag 0 []) byte tail =
        (raw (inside.length - 1), .region .tag 0 inside.reverse) ∧
      tail.drop (inside.length - 1) = rest := by
  obtain ⟨byte, others, rfl⟩ := List.exists_cons_of_ne_nil filled
  rw [List.forall_mem_cons] at plain
  refine ⟨byte, others ++ rest, rfl, ?_, ?_⟩
  · rw [next_code (by simp), ofCode_of_not_endsRun (endsRun_of_isPlain plain.1 _)]
    rw [show depthAfter .tag 0 byte = 0 from rfl, codeRun_of_plain plain.2 [byte] 0 ends]
    simp
  · simp

theorem next_close (content rest : List UInt8) :
    ∃ byte after, tag.close ++ rest = byte :: after ∧
      next (.region .tag 0 content) byte after =
        (⟨.closing .tag, !tag.closeMark.isEmpty, tag.closeMark.length + 1⟩,
          (closing .tag Byte.percent content).2) ∧
      after.drop (tag.closeMark.length + 1) = rest := by
  have closes := tag.startsClose_close rest
  rcases tag.trim_close with bare | ⟨mark, marked, marks⟩
  · rw [close, bare] at closes ⊢
    exact ⟨_, _, rfl, ofCode_of_startsClose closes content, rfl⟩
  · rw [close, marks] at closes ⊢
    refine ⟨_, _, rfl, (ofCode_of_startsClose closes content).trans ?_, rfl⟩
    simp [closing, marked]

/-- An end tag as markup: only the first one of its lexemes opens a region. -/
def lexemes (tag : EndTag word) : List Lexeme :=
  [⟨.opening .tag, !tag.openMark.isEmpty, tag.openMark.length + 1⟩, raw (tag.inside.length - 1),
    ⟨.closing .tag, !tag.closeMark.isEmpty, tag.closeMark.length + 1⟩]

include plainWord in
theorem reads (rest : List UInt8) :
    Reads .markup (tag.bytes ++ rest) tag.lexemes
      (closing .tag Byte.percent tag.inside.reverse).2 rest := by
  have filled := tag.inside_ne_nil plainWord
  have plain := tag.plain_inside plainWord
  have bytes_eq : tag.bytes ++ rest = Byte.leftBrace :: Byte.percent ::
      (tag.openMark ++ (tag.inside ++ (tag.close ++ rest))) := by
    simp [bytes, tail]
  have opened := opening_tail filled plain tag.trim_open (tag.close ++ rest)
  obtain ⟨first, others, inside_eq, worded, behind_word⟩ :=
    next_inside filled plain (tag.endsRun_close rest)
  obtain ⟨byte, after, close_eq, closed, behind_close⟩ := tag.next_close tag.inside.reverse rest
  rw [bytes_eq]
  refine .step opened ?_
  rw [List.drop_succ_cons, List.drop_left, inside_eq]
  refine .step worded ?_
  rw [raw, behind_word, close_eq]
  refine .step closed ?_
  rw [behind_close]
  exact .done _ rest

end EndTag

end Lexeme
end TwigTemplate
