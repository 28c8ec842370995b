import TwigTemplate.Blank
import TwigTemplate.Literal
import TwigTemplate.Source
import TwigTemplate.Token

/-!
# Cutting a template into tokens

The reader takes one lexeme at a time off the bytes that remain, and its mode says how the next one
is read.  A lexeme knows its length only; `Source.tokens` puts the lexemes at their offsets.

A region ends at its closing delimiter.  A tag or an expression also ends where a delimiter of
another kind opens, and quotes and, in expressions, open braces hide its closing delimiter.  What
follows a verbatim tag is markup up to the matching end tag.
-/

namespace TwigTemplate

/-- How the bytes after a token are read. -/
inductive Mode
  /-- As markup. -/
  | markup
  /-- As markup in which only the end tag of `keyword` counts. -/
  | verbatim (keyword : String)
  /-- As the inside of a region, below `depth` open braces.  Of a tag or an expression, `content`
  is the part that has been read, last byte first. -/
  | region (delimiter : Delimiter) (depth : Nat) (content : List UInt8)
  deriving DecidableEq, Repr

/-- A token that has not been given its place. -/
structure Lexeme where
  /-- What the token is. -/
  kind : TokenKind
  /-- It is a delimiter with a trim mark. -/
  trim : Bool
  /-- How many bytes it has after the first one. -/
  extra : Nat
  deriving DecidableEq, Repr

namespace Lexeme

/-- Length in bytes, which is never zero. -/
def length (lexeme : Lexeme) : Nat := lexeme.extra + 1

/-- The lexeme as the token that starts at an offset. -/
def place (lexeme : Lexeme) (start : Nat) : Token :=
  ⟨lexeme.kind, ⟨start, start + lexeme.length⟩, lexeme.trim⟩

/-- A run of bytes without structure. -/
def raw (extra : Nat) : Lexeme := ⟨.raw, false, extra⟩

/-- Tags whose body is not read as a template. -/
def verbatimKeywords : List String := ["verbatim", "raw"]

/-- The verbatim keyword that a tag's content consists of, white space aside. -/
def verbatimKeyword? (content : List UInt8) : Option String :=
  let word := Blank.trim ((String.fromUTF8? ⟨content.toArray⟩).getD "").toList
  verbatimKeywords.find? fun keyword => keyword.toList == word

/-- Leave out one trim mark at the head. -/
def dropTrimMark : List UInt8 → List UInt8
  | [] => []
  | byte :: tail => if Byte.isTrimMark byte then tail else byte :: tail

/-- A tag that consists of `word`, white space and trim marks aside, stands at the head of the
bytes. -/
def startsTag (word bytes : List UInt8) : Bool :=
  if Delimiter.opener? bytes == some .tag then
    let content := (dropTrimMark (bytes.drop 2)).dropWhile Byte.isSpace
    let rest := (content.drop word.length).dropWhile Byte.isSpace
    word.isPrefixOf content && Delimiter.tag.startsBareClose (dropTrimMark rest)
  else false

/-- The opening delimiter at the head of the bytes, of which `tail` follows the first one. -/
def opening (delimiter : Delimiter) (tail : List UInt8) : Lexeme × Mode :=
  let trim := (tail.drop 1).head?.any Byte.isTrimMark
  (⟨.opening delimiter, trim, if trim then 2 else 1⟩, .region delimiter 0 [])

/-- The closing delimiter that starts with `byte`, after a region with `content`. -/
def closing (delimiter : Delimiter) (byte : UInt8) (content : List UInt8) : Lexeme × Mode :=
  let trim := Byte.isTrimMark byte
  let next :=
    if delimiter = .tag then
      match verbatimKeyword? content.reverse with
      | some keyword => .verbatim keyword
      | none => .markup
    else .markup
  (⟨.closing delimiter, trim, if trim then 2 else 1⟩, next)

/-- The next lexeme of markup that starts with `byte`. -/
def ofMarkup (byte : UInt8) (tail : List UInt8) : Lexeme × Mode :=
  match Delimiter.opener? (byte :: tail) with
  | some delimiter => opening delimiter tail
  | none => (raw (distanceTo (Delimiter.opener? · |>.isSome) tail), .markup)

/-- The next lexeme of a verbatim body that starts with `byte`: all of the body, unless it is
empty. -/
def ofVerbatim (keyword : String) (byte : UInt8) (tail : List UInt8) : Lexeme × Mode :=
  let word := ("end" ++ keyword).toUTF8.data.toList
  if startsTag word (byte :: tail) then ofMarkup byte tail
  else (raw (distanceTo (startsTag word) tail), .markup)

/-- The next lexeme of a comment that goes on with `byte`. -/
def ofComment (byte : UInt8) (tail : List UInt8) : Lexeme × Mode :=
  if Delimiter.comment.startsClose (byte :: tail) then closing .comment byte []
  else (raw (distanceTo Delimiter.comment.startsClose tail), .region .comment 0 [])

/-- The depth after a plain byte of code; only expressions count braces. -/
def depthAfter (delimiter : Delimiter) (depth : Nat) (byte : UInt8) : Nat :=
  if delimiter = .expression then
    if byte == Byte.leftBrace then depth + 1
    else if byte == Byte.rightBrace then depth - 1
    else depth
  else depth

/-- Something other than plain code stands at the head of the bytes: a literal, the closing
delimiter outside all braces, or an opening delimiter of another kind. -/
def endsRun (delimiter : Delimiter) (depth : Nat) (bytes : List UInt8) : Bool :=
  bytes.head?.any Byte.isQuote || (depth == 0 && delimiter.startsClose bytes) ||
    (Delimiter.opener? bytes).any (· != delimiter)

/-- Extend a run of plain code that has `extra` bytes after its first one over the bytes that
follow. -/
def codeRun (delimiter : Delimiter) (depth : Nat) (content : List UInt8) (extra : Nat) :
    List UInt8 → Lexeme × Mode
  | [] => (raw extra, .region delimiter depth content)
  | byte :: tail =>
    if endsRun delimiter depth (byte :: tail) then (raw extra, .region delimiter depth content)
    else codeRun delimiter (depthAfter delimiter depth byte) (byte :: content) (extra + 1) tail

/-- The next lexeme of a tag or an expression that goes on with `byte`.  A literal that is never
closed takes all that is left. -/
def ofCode (delimiter : Delimiter) (depth : Nat) (content : List UInt8) (byte : UInt8)
    (tail : List UInt8) : Lexeme × Mode :=
  if Byte.isQuote byte then
    match Literal.remainder? byte tail with
    | some extra =>
      (⟨.quoted, false, extra⟩,
        .region delimiter depth ((tail.take extra).reverseAux (byte :: content)))
    | none => (raw tail.length, .region delimiter depth (tail.reverseAux (byte :: content)))
  else if depth == 0 && delimiter.startsClose (byte :: tail) then closing delimiter byte content
  else
    match (Delimiter.opener? (byte :: tail)).filter (· != delimiter) with
    | some other => opening other tail
    | none => codeRun delimiter (depthAfter delimiter depth byte) (byte :: content) 0 tail

/-- The lexeme at the head of the bytes, which start with `byte`, and the mode after it. -/
def next : Mode → (byte : UInt8) → (tail : List UInt8) → Lexeme × Mode
  | .markup, byte, tail => ofMarkup byte tail
  | .verbatim keyword, byte, tail => ofVerbatim keyword byte tail
  | .region .comment _ _, byte, tail => ofComment byte tail
  | .region delimiter depth content, byte, tail => ofCode delimiter depth content byte tail

theorem opening_extra_le {delimiter other : Delimiter} {byte : UInt8} {tail : List UInt8}
    (opens : Delimiter.opener? (byte :: tail) = some other) :
    (opening delimiter tail).1.extra ≤ tail.length := by
  match tail with
  | [] => simp [Delimiter.opener?] at opens
  | [mark] => simp [opening]
  | mark :: next :: rest =>
    simp only [opening, List.length_cons]
    split <;> omega

theorem closing_extra_le {delimiter : Delimiter} {byte : UInt8} {tail : List UInt8}
    (closes : delimiter.startsClose (byte :: tail) = true) (content : List UInt8) :
    (closing delimiter byte content).1.extra ≤ tail.length := by
  match tail with
  | [] => simp [Delimiter.startsClose, Delimiter.startsBareClose] at closes
  | [mark] =>
    simp only [Delimiter.startsClose, Delimiter.startsBareClose, Bool.and_false, Bool.or_false,
      Bool.and_eq_true, beq_iff_eq] at closes
    rw [closing, closes.1, Delimiter.isTrimMark_closeMark]
    exact Nat.le_refl 1
  | mark :: next :: rest =>
    simp only [closing, List.length_cons]
    split <;> omega

theorem codeRun_extra_le (delimiter : Delimiter) (depth : Nat) (content : List UInt8)
    (extra : Nat) (bytes : List UInt8) :
    (codeRun delimiter depth content extra bytes).1.extra ≤ extra + bytes.length := by
  induction bytes generalizing depth content extra with
  | nil => exact Nat.le_add_right extra 0
  | cons byte tail ih =>
    rw [codeRun]
    split
    · exact Nat.le_add_right extra _
    · have bound := ih (depthAfter delimiter depth byte) (byte :: content) (extra + 1)
      rw [List.length_cons]
      omega

theorem ofMarkup_extra_le (byte : UInt8) (tail : List UInt8) :
    (ofMarkup byte tail).1.extra ≤ tail.length := by
  rw [ofMarkup]
  split
  · rename_i opens
    exact opening_extra_le opens
  · exact distanceTo_le _ tail

theorem ofVerbatim_extra_le (keyword : String) (byte : UInt8) (tail : List UInt8) :
    (ofVerbatim keyword byte tail).1.extra ≤ tail.length := by
  rw [ofVerbatim]
  split
  · exact ofMarkup_extra_le byte tail
  · exact distanceTo_le _ tail

theorem ofComment_extra_le (byte : UInt8) (tail : List UInt8) :
    (ofComment byte tail).1.extra ≤ tail.length := by
  rw [ofComment]
  split
  · rename_i closes
    exact closing_extra_le closes []
  · exact distanceTo_le _ tail

theorem ofCode_extra_le (delimiter : Delimiter) (depth : Nat) (content : List UInt8)
    (byte : UInt8) (tail : List UInt8) :
    (ofCode delimiter depth content byte tail).1.extra ≤ tail.length := by
  rw [ofCode]
  split
  · split
    · rename_i closed
      exact (Literal.remainder?_bounds closed).2
    · exact Nat.le_refl _
  split
  · rename_i closes
    rw [Bool.and_eq_true] at closes
    exact closing_extra_le closes.2 content
  · split
    · rename_i opens
      exact opening_extra_le (Option.filter_eq_some_iff.mp opens).1
    · simpa using codeRun_extra_le delimiter _ _ 0 tail

/-- A lexeme never reaches past the bytes that remain. -/
theorem next_extra_le (mode : Mode) (byte : UInt8) (tail : List UInt8) :
    (next mode byte tail).1.extra ≤ tail.length := by
  match mode with
  | .markup => exact ofMarkup_extra_le byte tail
  | .verbatim keyword => exact ofVerbatim_extra_le keyword byte tail
  | .region .comment _ _ => exact ofComment_extra_le byte tail
  | .region .tag depth content => exact ofCode_extra_le .tag depth content byte tail
  | .region .expression depth content => exact ofCode_extra_le .expression depth content byte tail

end Lexeme

namespace Token

/-- Append the tokens of `bytes`, which start at an offset, to those already found. -/
def collect (mode : Mode) (start : Nat) (found : Array Token) : (bytes : List UInt8) → Array Token
  | [] => found
  | byte :: tail =>
    let (lexeme, mode) := Lexeme.next mode byte tail
    collect mode (start + lexeme.length) (found.push (lexeme.place start)) (tail.drop lexeme.extra)
termination_by bytes => bytes.length
decreasing_by simp only [List.length_cons, List.length_drop]; omega

theorem collect_nil (mode : Mode) (start : Nat) (found : Array Token) :
    collect mode start found [] = found := by rw [collect]

theorem collect_cons (mode : Mode) (start : Nat) (found : Array Token) (byte : UInt8)
    (tail : List UInt8) :
    collect mode start found (byte :: tail) =
      collect (Lexeme.next mode byte tail).2 (start + (Lexeme.next mode byte tail).1.length)
        (found.push ((Lexeme.next mode byte tail).1.place start))
        (tail.drop (Lexeme.next mode byte tail).1.extra) := by
  rw [collect]

/-- The tokens at hand only come before those of the bytes that remain. -/
theorem collect_eq_append (mode : Mode) (start : Nat) (found : Array Token)
    (bytes : List UInt8) :
    collect mode start found bytes = found ++ collect mode start #[] bytes := by
  match bytes with
  | [] => rw [collect_nil, collect_nil, Array.append_empty]
  | byte :: tail =>
    rw [collect_cons, collect_cons, collect_eq_append _ _ (found.push _),
      collect_eq_append _ _ (#[].push _), ← Array.append_assoc, Array.append_push,
      Array.append_empty]
termination_by bytes.length
decreasing_by all_goals simp only [List.length_cons, List.length_drop]; omega

end Token

namespace Source

/-- The tokens of a template. -/
def tokens (source : Source) : Array Token := Token.collect .markup 0 #[] source.toList

end Source

end TwigTemplate
