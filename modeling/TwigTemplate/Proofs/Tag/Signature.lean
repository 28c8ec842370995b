import TwigTemplate.Proofs.Tag.Keyword
import TwigTemplate.Proofs.Word.Plain

/-!
# Signatures of macros

A macro is declared with a name and with parameters, each of which may have a default.  A tag in
which such a signature is written opens a macro with this signature, since the commas and the
parentheses of a plain default stay inside of more brackets than those of the signature.
-/

namespace TwigTemplate

/-- A parameter of a macro as it is declared. -/
structure ParameterText where
  /-- Name of the parameter. -/
  name : String
  /-- The expression for its default. -/
  default : Option String
  deriving DecidableEq, Repr

/-- What a macro is declared with. -/
structure Signature where
  /-- Name of the macro. -/
  name : String
  /-- Its parameters in order. -/
  parameters : List ParameterText
  deriving DecidableEq, Repr

namespace ParameterText

/-- The parameter in a tag. -/
def written (parameter : ParameterText) : String :=
  match parameter.default with
  | none => parameter.name
  | some value => parameter.name ++ " = " ++ value

/-- The parameter is a name, and its default, if it has one, is a single plain expression. -/
structure WellFormed (parameter : ParameterText) : Prop where
  /-- It is named by a name. -/
  name : Word.SpellsName parameter.name.toUTF8.data.toList
  /-- Its default is plain. -/
  plain : ∀ value ∈ parameter.default, PlainText value
  /-- No comma in the default stands outside of its brackets. -/
  single : ∀ value ∈ parameter.default, ∀ word ∈ Word.ofText value,
    word.isMark "," = true → word.depth ≠ 0

instance (parameter : ParameterText) : Decidable parameter.WellFormed :=
  decidable_of_iff
    (Word.SpellsName parameter.name.toUTF8.data.toList ∧
      (∀ value ∈ parameter.default, PlainText value) ∧
      ∀ value ∈ parameter.default, ∀ word ∈ Word.ofText value,
        word.isMark "," = true → word.depth ≠ 0)
    ⟨fun ⟨name, plain, single⟩ => ⟨name, plain, single⟩,
      fun formed => ⟨formed.name, formed.plain, formed.single⟩⟩

/-- The parameters between parentheses. -/
def listed (parameters : List ParameterText) : String := ", ".intercalate (parameters.map written)

end ParameterText

namespace Signature

/-- The content of a tag with the signature. -/
def written (signature : Signature) : String :=
  "macro " ++ signature.name ++ "(" ++ ParameterText.listed signature.parameters ++ ")"

/-- The macro and all its parameters are named by names, and the defaults are plain. -/
structure WellFormed (signature : Signature) : Prop where
  /-- The macro is named by a name. -/
  name : Word.SpellsName signature.name.toUTF8.data.toList
  /-- The parameters are declared properly. -/
  parameters : ∀ parameter ∈ signature.parameters, parameter.WellFormed

instance (signature : Signature) : Decidable signature.WellFormed :=
  decidable_of_iff
    (Word.SpellsName signature.name.toUTF8.data.toList ∧
      ∀ parameter ∈ signature.parameters, parameter.WellFormed)
    ⟨fun ⟨name, parameters⟩ => ⟨name, parameters⟩,
      fun formed => ⟨formed.name, formed.parameters⟩⟩

end Signature

/-- The texts of a parameter. -/
def Parameter.text (parameter : Parameter) : ParameterText :=
  ⟨parameter.name.text, parameter.default.map (·.text)⟩

/-- The signature of a macro that has a name. -/
def Construct.signature? : Construct → Option Signature
  | .definition (some name) parameters => some ⟨name.text, parameters.map Parameter.text⟩
  | _ => none

namespace Word

/-! ### Marks -/

/-- A mark at an offset. -/
def mark (start depth : Nat) (text : String) : Word :=
  ⟨.punctuation, ⟨start, start + 1⟩, depth, text⟩

/-- A name at an offset. -/
def named (start depth : Nat) (text : String) : Word :=
  ⟨.name, ⟨start, start + text.toUTF8.data.toList.length⟩, depth, text⟩

section Mark

variable {byte : UInt8} {tail : List UInt8}

/-- A byte that begins nothing else is a mark. -/
theorem shape_of_alone (following : Option UInt8)
    (other : (Byte.startsName byte || Byte.isDigit byte || Byte.isQuote byte) = false)
    (alone : tail.head?.any (isOperator byte) = false) :
    shape following byte tail = (.punctuation, 0) := by
  rw [Bool.or_eq_false_iff, Bool.or_eq_false_iff] at other
  rw [shape, other.1.1, other.1.2, other.2, alone]
  rfl

/-- Separators that are no spaces are marks, whatever follows them. -/
theorem shape_of_separates (following : Option UInt8) (separates : Byte.separates byte = true)
    (visible : Byte.isSpace byte = false) : shape following byte tail = (.punctuation, 0) := by
  have other : (Byte.startsName byte || Byte.isDigit byte || Byte.isQuote byte) = false := by
    rw [Byte.separates, visible, Bool.false_or] at separates
    simp only [Bool.or_eq_true, beq_iff_eq] at separates
    rcases separates with (rfl | rfl) | rfl <;> decide
  refine shape_of_alone following other ?_
  cases tail with
  | nil => rfl
  | cons second tail =>
      rw [List.head?_cons, Option.any_some, Bool.eq_false_iff]
      intro operator
      rw [(not_separates_of_isOperator operator).1] at separates
      cases separates

end Mark

section Among

variable {following : Option UInt8} {start depth : Nat} {tail : List UInt8}

theorem among_mark {byte : UInt8} {text : String} (written : text.toUTF8.data.toList = [byte])
    (visible : Byte.isSpace byte = false) (shaped : shape following byte tail = (.punctuation, 0)) :
    let word := mark start (if isCloseBracket byte then depth - 1 else depth) text
    among following start depth (byte :: tail) =
      word :: among following (start + 1) word.depthBehind tail := by
  have filled : text ≠ "" := by
    rintro rfl
    cases written
  have read : (String.fromUTF8? ⟨[byte].toArray⟩).getD "" = text :=
    (Source.getD_fromUTF8?_eq_iff filled).mpr written
  have word : first following start depth byte tail =
      mark start (if isCloseBracket byte then depth - 1 else depth) text := by
    rw [first, shaped]
    dsimp only
    rw [List.take_zero, read]
    rfl
  rw [among_cons visible, word, shaped]
  rfl

theorem among_open :
    among following start depth (Byte.ofChar '(' :: tail) =
      mark start depth "(" :: among following (start + 1) (depth + 1) tail :=
  among_mark (by decide) (by decide) (shape_of_separates following (by decide) (by decide))

theorem among_close :
    among following start (depth + 1) (Byte.ofChar ')' :: tail) =
      mark start depth ")" :: among following (start + 1) depth tail :=
  among_mark (by decide) (by decide) (shape_of_separates following (by decide) (by decide))

theorem among_comma :
    among following start depth (Byte.ofChar ',' :: tail) =
      mark start depth "," :: among following (start + 1) depth tail :=
  among_mark (by decide) (by decide) (shape_of_separates following (by decide) (by decide))

theorem among_assign :
    among following start depth (Byte.ofChar '=' :: Byte.ofChar ' ' :: tail) =
      mark start depth "=" :: among following (start + 2) depth tail := by
  have operator : isOperator (Byte.ofChar '=') (Byte.ofChar ' ') = false := by decide
  have shaped : shape following (Byte.ofChar '=') (Byte.ofChar ' ' :: tail) = (.punctuation, 0) :=
    shape_of_alone following (by decide) operator
  rw [among_mark (show "=".toUTF8.data.toList = [Byte.ofChar '='] by decide) (by decide) shaped,
    among_cons_of_isSpace (by decide)]
  rfl

/-- A name before a separator. -/
theorem among_name {name : String} {right : List UInt8}
    (spells : SpellsName name.toUTF8.data.toList) (separated : Separated right) :
    among following start depth (name.toUTF8.data.toList ++ right) =
      named start depth name ::
        among following (start + name.toUTF8.data.toList.length) depth right := by
  rw [(PlainText.of_spellsName spells).among_append separated, ofText_of_spellsName spells]
  rfl

end Among

/-- A comma has groups before it and groups after it. -/
theorem betweenCommas_append (start depth : Nat) (before after : List Word) :
    betweenCommas depth (before ++ mark start depth "," :: after) =
      betweenCommas depth before ++ betweenCommas depth after :=
  groupsBetween_append (by simp [mark, isMark]) before after

/-- A part of a parameter: it is inside of a bracket, and it is no comma between parameters. -/
def Declares (word : Word) : Prop := 0 < word.depth ∧ (word.depth = 1 → word.isMark "," = false)

end Word

namespace ParameterText

open Word

/-- Offset of a parameter's default. -/
def defaultOffset (parameter : ParameterText) (start : Nat) : Nat :=
  start + parameter.name.toUTF8.data.toList.length + 3

/-- The words of a parameter. -/
def words (parameter : ParameterText) (start : Nat) : List Word :=
  named start 1 parameter.name ::
    match parameter.default with
    | none => []
    | some value =>
      mark (start + parameter.name.toUTF8.data.toList.length + 1) 1 "=" ::
        (ofText value).map (within (parameter.defaultOffset start) 1)

variable {parameter : ParameterText} {name value : String}

/-- What stands between a parameter and its default. -/
def link : List UInt8 := [Byte.ofChar ' ', Byte.ofChar '=', Byte.ofChar ' ']

theorem bytes_written (name value : String) :
    (ParameterText.mk name (some value)).written.toUTF8.data.toList =
      name.toUTF8.data.toList ++ (link ++ value.toUTF8.data.toList) := by
  rw [written, Source.toUTF8_append, Source.toUTF8_append, List.append_assoc]
  rfl

namespace WellFormed

variable (formed : parameter.WellFormed)
include formed

theorem among_written {after : List UInt8} (separated : Separated after)
    (following : Option UInt8) (start : Nat) :
    among following start 1 (parameter.written.toUTF8.data.toList ++ after) =
      parameter.words start ++
        among following (start + parameter.written.toUTF8.data.toList.length) 1 after := by
  obtain ⟨name, default⟩ := parameter
  cases default with
  | none => exact among_name formed.name separated
  | some value =>
      have spaced : Separated (link ++ (value.toUTF8.data.toList ++ after)) :=
        separated_cons (by decide)
      have assigned (place : Nat) :
          among following place 1 (link ++ (value.toUTF8.data.toList ++ after)) =
            mark (place + 1) 1 "=" ::
              among following (place + 3) 1 (value.toUTF8.data.toList ++ after) :=
        (among_cons_of_isSpace (by decide)).trans among_assign
      have stop : start + (name.toUTF8.data.toList ++ (link ++ value.toUTF8.data.toList)).length =
          start + name.toUTF8.data.toList.length + 3 + value.toUTF8.data.toList.length := by
        simp only [List.length_append, link, List.length_cons, List.length_nil]
        omega
      rw [bytes_written, List.append_assoc, List.append_assoc, among_name formed.name spaced,
        assigned, (formed.plain value rfl).among_append separated, stop]
      rfl

theorem declares_words (start : Nat) : ∀ word ∈ parameter.words start, word.Declares := by
  obtain ⟨name, default⟩ := parameter
  refine List.forall_mem_cons.mpr ⟨⟨Nat.one_pos, fun _ => rfl⟩, ?_⟩
  cases default with
  | none => exact List.forall_mem_nil _
  | some value =>
      refine List.forall_mem_cons.mpr ⟨⟨Nat.one_pos, fun _ => rfl⟩, ?_⟩
      refine List.forall_mem_map.mpr fun word member => ?_
      refine ⟨Nat.lt_add_right word.depth Nat.one_pos, fun outermost => ?_⟩
      have outside : word.depth = 0 := Nat.add_left_cancel outermost
      rw [Bool.eq_false_iff]
      exact fun comma => formed.single value rfl word member comma outside

/-- A parameter is read as it is written. -/
theorem text_parameter? {source : Source} {before after : List UInt8}
    (split : source.toList = before ++ (parameter.written.toUTF8.data.toList ++ after)) :
    (Tag.parameter? source (parameter.words before.length)).map Parameter.text =
      some parameter := by
  obtain ⟨name, default⟩ := parameter
  cases default with
  | none => rfl
  | some value =>
      have behind : source.toList = (before ++ (name.toUTF8.data.toList ++ link)) ++
          (value.toUTF8.data.toList ++ after) := by
        rw [split, bytes_written]
        simp only [List.append_assoc]
      have offset : (before ++ (name.toUTF8.data.toList ++ link)).length =
          (ParameterText.mk name (some value)).defaultOffset before.length := by
        rw [List.length_append, List.length_append, ← Nat.add_assoc]
        rfl
      have covering := (formed.plain value rfl).covering?_eq behind 1
      rw [offset] at covering
      have default := congrArg (Option.map Excerpt.text) covering
      exact congrArg (fun read => some (ParameterText.mk name read)) default

/-- The words of a parameter are a single group. -/
theorem betweenCommas_words (start : Nat) :
    betweenCommas 1 (parameter.words start) = [parameter.words start] := by
  refine groupsBetween_of_forall fun word member => ?_
  rw [Bool.and_eq_false_imp, beq_iff_eq]
  exact (formed.declares_words start word member).2

theorem map_text_words {source : Source} {before after : List UInt8}
    (split : source.toList = before ++ (parameter.written.toUTF8.data.toList ++ after)) :
    ((betweenCommas 1 (parameter.words before.length)).filterMap (Tag.parameter? source)).map
      Parameter.text = [parameter] := by
  obtain ⟨found, read, text⟩ := Option.map_eq_some_iff.mp (formed.text_parameter? split)
  rw [formed.betweenCommas_words, List.filterMap_cons, read, List.filterMap_nil, List.map_singleton,
    text]

end WellFormed

theorem bytes_listed (parameter next : ParameterText) (parameters : List ParameterText) :
    (listed (parameter :: next :: parameters)).toUTF8.data.toList =
      parameter.written.toUTF8.data.toList ++ Byte.ofChar ',' :: Byte.ofChar ' ' ::
        (listed (next :: parameters)).toUTF8.data.toList := by
  rw [listed, List.map_cons, List.map_cons, String.intercalate_cons_cons, Source.toUTF8_append,
    Source.toUTF8_append, List.append_assoc]
  rfl

/-- The words of parameters with commas between them. -/
def listedWords (start : Nat) : List ParameterText → List Word
  | [] => []
  | [parameter] => parameter.words start
  | parameter :: next :: parameters =>
    let stop := start + parameter.written.toUTF8.data.toList.length
    parameter.words start ++ mark stop 1 "," :: listedWords (stop + 2) (next :: parameters)

section Listed

variable {parameters : List ParameterText}
  (formed : ∀ parameter ∈ parameters, parameter.WellFormed)
include formed

theorem among_listed (following : Option UInt8) (start : Nat) (after : List UInt8) :
    among following start 1
        ((listed parameters).toUTF8.data.toList ++ Byte.ofChar ')' :: after) =
      listedWords start parameters ++
        mark (start + (listed parameters).toUTF8.data.toList.length) 0 ")" ::
          among following (start + (listed parameters).toUTF8.data.toList.length + 1) 0 after := by
  fun_induction listedWords start parameters with
  | case1 start => exact among_close
  | case2 start parameter =>
      have alone : listed [parameter] = parameter.written := String.intercalate_singleton
      rw [List.forall_mem_singleton] at formed
      rw [alone, formed.among_written (separated_cons (by decide)), among_close]
  | case3 start parameter next parameters stop ih =>
      rw [List.forall_mem_cons] at formed
      have length_eq :
          start + (listed (parameter :: next :: parameters)).toUTF8.data.toList.length =
            stop + 2 + (listed (next :: parameters)).toUTF8.data.toList.length := by
        rw [bytes_listed, List.length_append, List.length_cons, List.length_cons]
        omega
      rw [length_eq, bytes_listed, List.append_assoc, List.cons_append, List.cons_append,
        formed.1.among_written (separated_cons (by decide)), among_comma,
        among_cons_of_isSpace (by decide), ih formed.2, List.append_assoc, List.cons_append]

theorem depth_pos_of_mem_listedWords {start : Nat} {word : Word}
    (member : word ∈ listedWords start parameters) : 0 < word.depth := by
  fun_induction listedWords start parameters with
  | case1 start => cases member
  | case2 start parameter =>
      rw [List.forall_mem_singleton] at formed
      exact (formed.declares_words start word member).1
  | case3 start parameter next parameters stop ih =>
      rw [List.forall_mem_cons] at formed
      rcases List.mem_append.mp member with first | further
      · exact (formed.1.declares_words start word first).1
      rcases List.mem_cons.mp further with rfl | further
      · exact Nat.one_pos
      · exact ih formed.2 further

/-- Parameters in a list are read as they are written. -/
theorem map_text_listedWords {source : Source} {before after : List UInt8}
    (split : source.toList = before ++ ((listed parameters).toUTF8.data.toList ++ after)) :
    ((betweenCommas 1 (listedWords before.length parameters)).filterMap
      (Tag.parameter? source)).map Parameter.text = parameters := by
  induction parameters generalizing before with
  | nil => rfl
  | cons parameter parameters ih =>
      rw [List.forall_mem_cons] at formed
      cases parameters with
      | nil =>
          have alone : listed [parameter] = parameter.written := String.intercalate_singleton
          rw [alone] at split
          exact formed.1.map_text_words split
      | cons next parameters =>
          rw [bytes_listed, List.append_assoc] at split
          let front := before ++
            (parameter.written.toUTF8.data.toList ++ [Byte.ofChar ',', Byte.ofChar ' '])
          have behind : source.toList =
              front ++ ((listed (next :: parameters)).toUTF8.data.toList ++ after) := by
            rw [split]
            simp [front]
          have offset : front.length =
              before.length + parameter.written.toUTF8.data.toList.length + 2 := by
            rw [List.length_append, List.length_append, ← Nat.add_assoc]
            rfl
          have further := ih formed.2 behind
          rw [offset] at further
          rw [listedWords, betweenCommas_append, List.filterMap_append, List.map_append,
            formed.1.map_text_words split, further]
          rfl

end Listed

end ParameterText

/-- The parameters of a definition are the words up to the parenthesis that closes the first one. -/
theorem Tag.definition_eq {source : Source} {name bracket close : Word} {inner after : List Word}
    (opens : bracket.isMark "(" = true) (inside : ∀ word ∈ inner, 0 < word.depth)
    (closes : (close.isTop && close.isMark ")") = true) :
    definition source (name :: bracket :: (inner ++ close :: after)) =
      .definition (Excerpt.ofName? name)
        ((Word.betweenCommas 1 inner).filterMap (parameter? source)) := by
  have passed : ∀ word ∈ inner, (!(word.isTop && word.isMark ")")) = true := by
    intro word member
    have nested : word.isTop = false := beq_false_of_ne (Nat.ne_of_gt (inside word member))
    rw [nested, Bool.false_and, Bool.not_false]
  have stopped : (close :: after).takeWhile (fun word => !(word.isTop && word.isMark ")")) = [] :=
    List.takeWhile_cons_of_neg (by simp [closes])
  rw [definition, List.drop_one, List.tail_cons]
  simp only [opens, if_true, List.takeWhile_append_of_pos passed, stopped, List.append_nil]
  rfl

namespace Signature

open Word ParameterText

variable {signature : Signature}

/-- Offset of the parenthesis that opens the parameters. -/
def listOffset (signature : Signature) (start : Nat) : Nat :=
  start + 6 + signature.name.toUTF8.data.toList.length

/-- The words between the parentheses of a signature. -/
def innerWords (signature : Signature) (start : Nat) : List Word :=
  listedWords (signature.listOffset start + 1) signature.parameters

/-- The words of a signature behind its keyword. -/
def words (signature : Signature) (start : Nat) : List Word :=
  let stop := signature.listOffset start + 1 +
    (listed signature.parameters).toUTF8.data.toList.length
  named (start + 6) 0 signature.name :: mark (signature.listOffset start) 0 "(" ::
    (signature.innerWords start ++ [mark stop 0 ")"])

theorem bytes_written (signature : Signature) :
    signature.written.toUTF8.data.toList =
      "macro".toUTF8.data.toList ++ Byte.ofChar ' ' :: (signature.name.toUTF8.data.toList ++
        Byte.ofChar '(' ::
          ((listed signature.parameters).toUTF8.data.toList ++ [Byte.ofChar ')'])) := by
  have opened : "macro ".toUTF8.data.toList =
      "macro".toUTF8.data.toList ++ [Byte.ofChar ' '] := by decide
  rw [written, Source.toUTF8_append, Source.toUTF8_append, Source.toUTF8_append,
    Source.toUTF8_append, opened]
  simp only [List.append_assoc]
  rfl

namespace WellFormed

variable (formed : signature.WellFormed)
include formed

theorem among_written {after : List UInt8} (spaces : ∀ byte ∈ after, Byte.isSpace byte = true)
    (following : Option UInt8) (start : Nat) :
    among following start 0 (signature.written.toUTF8.data.toList ++ after) =
      named start 0 "macro" :: signature.words start := by
  have keyword : SpellsName "macro".toUTF8.data.toList := by decide
  have nothing (place : Nat) : among following place 0 after = [] := by
    rw [among, collect_eq_self_iff.mpr spaces]
  rw [bytes_written]
  simp only [List.append_assoc, List.cons_append, List.nil_append]
  rw [among_name keyword (separated_cons (by decide)), among_cons_of_isSpace (by decide),
    among_name formed.name (separated_cons (by decide)), among_open, among_listed formed.parameters,
    nothing]
  rfl

/-- What the words of a signature define has the signature. -/
theorem signature?_definition {source : Source} {before after : List UInt8}
    (split : source.toList = before ++ (signature.written.toUTF8.data.toList ++ after)) :
    (Tag.definition source (signature.words before.length)).signature? = some signature := by
  let front := before ++ ("macro".toUTF8.data.toList ++ Byte.ofChar ' ' ::
    (signature.name.toUTF8.data.toList ++ [Byte.ofChar '(']))
  have inner : source.toList = front ++
      ((listed signature.parameters).toUTF8.data.toList ++ Byte.ofChar ')' :: after) := by
    rw [split, bytes_written]
    simp [front]
  have offset : front.length = signature.listOffset before.length + 1 := by
    rw [List.length_append, List.length_append, List.length_cons, List.length_append, listOffset]
    change _ + (5 + (_ + 1 + 1)) = _
    omega
  have parameters := map_text_listedWords formed.parameters inner
  rw [offset] at parameters
  have inside : ∀ word ∈ signature.innerWords before.length, 0 < word.depth :=
    fun word member => depth_pos_of_mem_listedWords formed.parameters member
  rw [words, Tag.definition_eq rfl inside rfl]
  exact congrArg (fun read => some (Signature.mk signature.name read)) parameters

/-- A tag with a signature between spaces opens a macro that has the signature. -/
theorem exists_opening (options : Options) {source : Source} {piece : Piece}
    {front back : List UInt8} (kind : piece.kind = .region .tag)
    (content : source.slice piece.body =
      front ++ (signature.written.toUTF8.data.toList ++ back))
    (spaces_front : ∀ byte ∈ front, Byte.isSpace byte = true)
    (spaces_back : ∀ byte ∈ back, Byte.isSpace byte = true) :
    ∃ header, Tag.ofPiece options source piece = .opening header ∧
      header.signature? = some signature := by
  have filled : source.slice piece.body ≠ [] := by
    rw [content, bytes_written]
    exact List.append_ne_nil_of_right_ne_nil front (List.cons_ne_nil _ _)
  obtain ⟨before, after, split, start_eq⟩ := Source.exists_split_of_slice filled
  have inner : source.toList =
      (before ++ front) ++ (signature.written.toUTF8.data.toList ++ (back ++ after)) := by
    rw [split, content]
    simp only [List.append_assoc]
  let words := signature.words (before ++ front).length
  have split_eq : Word.split source piece.body =
      named (before ++ front).length 0 "macro" :: words := by
    rw [Word.split, content, collect_append_of_spaces spaces_front, ← start_eq,
      ← List.length_append]
    exact formed.among_written spaces_back _ _
  have header : Header.ofBody source piece.body =
      ⟨some (Excerpt.ofWord (named (before ++ front).length 0 "macro")), words⟩ := by
    rw [Header.ofBody, split_eq]
    rfl
  refine ⟨Tag.definition source words, ?_, formed.signature?_definition inner⟩
  rw [Tag.ofPiece_of_keyword kind (congrArg Header.keyword header), header]
  rfl

end WellFormed

end Signature

end TwigTemplate
