import TwigTemplate.Document
import TwigTemplate.Proofs.Piece.Region
import TwigTemplate.Proofs.Word.Literal

/-!
# Literals of a tag

A tag is read twice: a template is cut into tokens, and later the body of a tag is split into words.
Both find the same literals.
-/

namespace TwigTemplate

open Lexeme

namespace Token

/-- The token is a run that begins with a quote, as a literal that is never closed does. -/
def isUnclosedLiteral (source : Source) (token : Token) : Bool :=
  token.kind == .raw && (source.byte? token.span.start).any Byte.isQuote

/-- The last token if it is a literal that is never closed. -/
def unclosedLiteral? (source : Source) (tokens : List Token) : Option Token :=
  tokens.getLast?.filter (·.isUnclosedLiteral source)

/-- The places of the closed literals among tokens, and that of a literal that is never closed at
their end. -/
def literals (source : Source) (tokens : List Token) : List Span :=
  (tokens.filter (·.kind == .quoted)).map (·.span) ++
    (unclosedLiteral? source tokens).toList.map (·.span)

section Cons

variable {source : Source} {token : Token} {tokens : List Token}

theorem unclosedLiteral?_cons (other : token.isUnclosedLiteral source = false) :
    unclosedLiteral? source (token :: tokens) = unclosedLiteral? source tokens := by
  cases tokens with
  | nil => simp [unclosedLiteral?, other]
  | cons next tokens => simp [unclosedLiteral?]

theorem literals_cons_of_quoted (quoted : token.kind = .quoted) :
    literals source (token :: tokens) = token.span :: literals source tokens := by
  have other : token.isUnclosedLiteral source = false := by
    rw [isUnclosedLiteral, quoted]
    rfl
  rw [literals, unclosedLiteral?_cons other, List.filter_cons_of_pos (by simp [quoted])]
  rfl

theorem literals_cons_of_not (closed : token.kind ≠ .quoted)
    (other : token.isUnclosedLiteral source = false) :
    literals source (token :: tokens) = literals source tokens := by
  rw [literals, unclosedLiteral?_cons other, List.filter_cons_of_neg (by simpa using closed)]
  rfl

theorem literals_singleton (unclosed : token.isUnclosedLiteral source = true) :
    literals source [token] = [token.span] := by
  have closed : token.kind ≠ .quoted := by
    intro quoted
    rw [isUnclosedLiteral, quoted] at unclosed
    cases unclosed
  simp [literals, unclosedLiteral?, unclosed, closed]

/-- Behind a token that is no literal, no literal is left unclosed. -/
theorem literals_append_singleton (closed : token.kind ≠ .quoted)
    (other : token.isUnclosedLiteral source = false)
    (complete : unclosedLiteral? source tokens = none) :
    literals source (tokens ++ [token]) = literals source tokens := by
  have last : unclosedLiteral? source (tokens ++ [token]) = none := by
    simp [unclosedLiteral?, other]
  have left_out : [token].filter (·.kind == .quoted) = [] :=
    List.filter_cons_of_neg (by simpa using closed)
  rw [literals, literals, last, complete, List.filter_append, left_out, List.append_nil]

end Cons

end Token

/-- The tokens that lie in a piece. -/
def Piece.tokens (source : Source) (piece : Piece) : List Token :=
  source.tokens.toList.filter fun token =>
    piece.span.start ≤ token.span.start && token.span.stop ≤ piece.span.stop

namespace Lexeme

theorem start_mem_placeAll {start : Nat} {lexemes : List Lexeme} {token : Token}
    (member : token ∈ placeAll start lexemes) :
    start ≤ token.span.start ∧ token.span.start < token.span.stop := by
  induction lexemes generalizing start with
  | nil => cases member
  | cons lexeme lexemes ih =>
      rcases List.mem_cons.mp member with rfl | member
      · simp only [place, length]
        omega
      · have bounds := ih member
        omega

/-- The tokens between two offsets that are each between two lexemes. -/
theorem filter_placeAll_within (left middle right : List Lexeme) :
    (placeAll 0 (left ++ (middle ++ right))).filter (fun token =>
      width left ≤ token.span.start && token.span.stop ≤ width left + width middle) =
        placeAll (width left) middle := by
  rw [placeAll_append, placeAll_append, Nat.zero_add, List.filter_append, List.filter_append,
    List.filter_eq_nil_iff.mpr, List.filter_eq_self.mpr, List.filter_eq_nil_iff.mpr,
    List.nil_append, List.append_nil]
  · intro token member
    have starts := start_mem_placeAll member
    simp only [Bool.and_eq_true, decide_eq_true_eq]
    omega
  · intro token member
    have starts := start_mem_placeAll member
    have stops := stop_mem_placeAll member
    simp only [Bool.and_eq_true, decide_eq_true_eq]
    omega
  · intro token member
    have starts := start_mem_placeAll member
    have stops := stop_mem_placeAll member
    simp only [Bool.and_eq_true, decide_eq_true_eq]
    omega

theorem plain_of_runs {delimiter : Delimiter} {rest run : List UInt8} {depth later : Nat}
    (runs : Runs delimiter rest depth run later) : Literal.Plain run := by
  induction runs with
  | nil => simp [Literal.Plain]
  | @cons depth later byte run plain _ ih =>
      refine List.forall_mem_cons.mpr ⟨?_, ih⟩
      rw [Bool.eq_false_iff]
      intro quotes
      rw [endsRun, List.head?_cons, Option.any_some, quotes] at plain
      cases plain

/-- The lexeme is the first one of `front`, and `more` follows it.  Both are code in front of what
remains of the text. -/
inductive Leads (remains : List UInt8) : Lexeme → List UInt8 → List UInt8 → Prop
  /-- A literal goes up to its closing quote. -/
  | quoted {quote : UInt8} {inside more : List UInt8} (quotes : Byte.isQuote quote = true)
      (within : Literal.Inside quote inside) :
      Leads remains ⟨.quoted, false, inside.length + 1⟩ (quote :: (inside ++ quote :: more)) more
  /-- A literal that is never closed goes up to the end of the text. -/
  | unclosed {quote : UInt8} {tail : List UInt8} (quotes : Byte.isQuote quote = true)
      (missing : ¬ Literal.Closed quote tail) (ends : remains = []) :
      Leads remains (raw tail.length) (quote :: tail) []
  /-- Other code has no quotes. -/
  | plain {byte : UInt8} {run more : List UInt8} (unquoted : Literal.Plain (byte :: run)) :
      Leads remains (raw run.length) ((byte :: run) ++ more) more

section Leads

variable {remains front more : List UInt8} {lexeme : Lexeme}
  (leads : lexeme.Leads remains front more)
include leads

theorem Leads.exists_taken : ∃ taken, front = taken ++ more ∧ taken.length = lexeme.length := by
  cases leads with
  | @quoted quote inside _ _ _ =>
      exact ⟨quote :: (inside ++ [quote]), by simp, by simp [length]⟩
  | @unclosed quote tail _ _ _ => exact ⟨quote :: tail, by simp, rfl⟩
  | @plain byte run _ _ => exact ⟨byte :: run, rfl, rfl⟩

variable {source : Source} {start : Nat}
  (placed : ∀ index, source.byte? (start + index) = (front ++ remains)[index]?)
include placed

theorem Leads.byte?_start : source.byte? start = front.head? := by
  cases leads <;> simpa using placed 0

theorem Leads.byte?_behind (index : Nat) :
    source.byte? (start + lexeme.length + index) = (more ++ remains)[index]? := by
  obtain ⟨taken, rfl, long⟩ := leads.exists_taken
  rw [Nat.add_assoc, placed, List.append_assoc, ← long,
    List.getElem?_append_right (Nat.le_add_right _ _), Nat.add_sub_cancel_left]

end Leads

end Lexeme

section Interior

variable {delimiter : Delimiter} {depth : Nat} {content front rest : List UInt8}
  {lexemes : List Lexeme} {final : Mode} (code : delimiter ≠ .comment)
include code

/-- In the body of a tag or an expression, a run or a literal comes first, and what follows it is
read in the same region. -/
theorem Reads.exists_leads {lexeme : Lexeme}
    (reads : Reads (.region delimiter depth content) (front ++ rest) (lexeme :: lexemes) final rest)
    (inner : lexeme.kind = .raw ∨ lexeme.kind = .quoted) :
    ∃ later inside more, lexeme.Leads rest front more ∧
      Reads (.region delimiter later inside) (more ++ rest) lexemes final rest := by
  generalize split : front ++ rest = bytes at reads
  cases reads with
  | @step _ after _ byte tail _ _ _ taken further =>
      obtain ⟨more, split_more, -⟩ := further.exists_taken
      obtain rfl : front = byte :: (tail.take lexeme.extra ++ more) := by
        apply List.append_cancel_right (split.trans _)
        rw [List.cons_append, List.append_assoc, ← split_more, List.take_append_drop]
      have takes := takesCode_ofCode delimiter depth content byte tail
      rw [next_code code] at taken
      rw [taken] at takes
      rw [split_more] at further
      cases takes with
      | @quoted inside rest quotes within =>
          have taken_bytes : (inside ++ byte :: rest).take (inside.length + 1) =
              inside ++ [byte] := by simp [List.take_length_add_append]
          refine ⟨_, _, more, ?_, further⟩
          rw [taken_bytes, List.append_assoc, List.singleton_append]
          exact .quoted quotes within
      | unclosed quotes missing =>
          rw [raw, List.drop_length] at split_more
          obtain ⟨rfl, rfl⟩ := List.append_eq_nil_iff.mp split_more.symm
          refine ⟨_, _, [], ?_, further⟩
          rw [raw, List.take_length, List.append_nil]
          exact .unclosed quotes missing rfl
      | closes => simp at inner
      | opens => simp at inner
      | @runs run rest later plain stops =>
          have taken_bytes : (run ++ rest).take run.length = run := List.take_left
          refine ⟨later, _, more, ?_, further⟩
          rw [raw, taken_bytes, ← List.cons_append]
          exact .plain (plain_of_runs plain)

/-- The literals that the body of a tag or an expression holds are those among its lexemes, and only
the end of the text leaves one unclosed. -/
theorem Reads.literals {source : Source} {start : Nat}
    (reads : Reads (.region delimiter depth content) (front ++ rest) lexemes final rest)
    (within : Interior lexemes)
    (placed : ∀ index, source.byte? (start + index) = (front ++ rest)[index]?) :
    Literal.places start front = Token.literals source (placeAll start lexemes) ∧
      (rest ≠ [] → Token.unclosedLiteral? source (placeAll start lexemes) = none) := by
  induction lexemes generalizing depth content front start with
  | nil =>
      obtain rfl : front = [] := List.self_eq_append_left.mp reads.of_nil.2
      exact ⟨Literal.places_nil start, fun _ => rfl⟩
  | cons lexeme lexemes ih =>
      rw [Interior, List.forall_mem_cons] at within
      obtain ⟨later, inside, more, leads, further⟩ := reads.exists_leads code within.1
      obtain ⟨places, complete⟩ := ih further within.2 (leads.byte?_behind placed)
      have here := leads.byte?_start placed
      cases leads with
      | quoted quotes closed =>
          rw [Literal.places_of_inside quotes closed, placeAll,
            Token.literals_cons_of_quoted rfl, ← places]
          exact ⟨rfl, fun goes_on => (Token.unclosedLiteral?_cons rfl).trans (complete goes_on)⟩
      | @unclosed quote tail quotes missing ends =>
          subst ends
          obtain rfl : lexemes = [] := by cases further; rfl
          have unclosed : ((raw tail.length).place start).isUnclosedLiteral source = true := by
            simp [Token.isUnclosedLiteral, place, raw, here, quotes]
          refine ⟨?_, fun goes_on => absurd rfl goes_on⟩
          rw [Literal.places_of_not_closed quotes missing, placeAll, placeAll,
            Token.literals_singleton unclosed]
          rfl
      | @plain byte run more unquoted =>
          have other : ((raw run.length).place start).isUnclosedLiteral source = false := by
            have first := unquoted byte List.mem_cons_self
            simp [Token.isUnclosedLiteral, place, here, first]
          rw [Literal.places_append_of_plain unquoted, placeAll,
            Token.literals_cons_of_not (by simp [place, raw]) other, ← places]
          exact ⟨rfl, fun goes_on =>
            (Token.unclosedLiteral?_cons other).trans (complete goes_on)⟩

end Interior

namespace Piece

/-- The tokens of a region are its opening delimiter, its runs and literals, and its closing
delimiter if it has one. -/
theorem OpensAt.exists_tokens_eq {source : Source} {lexemes left inner rest : List Lexeme}
    {lexeme : Lexeme} {delimiter : Delimiter} {piece : Piece} {final : Mode}
    (region : OpensAt lexemes left inner rest lexeme delimiter piece)
    (reads : Reads .markup source.toList lexemes final []) :
    ∃ ending, piece.tokens source =
        lexeme.place (width left) :: (placeAll piece.body.start inner ++ ending) ∧
      (ending = [] ∨ rest ≠ [] ∧ ∃ token closing, ending = [token] ∧
        token.kind = .closing closing) := by
  obtain ⟨rfl, opens, within, start_eq, body_eq, stop_eq, closed, unclosed⟩ := region
  rw [Piece.tokens, Source.toList_tokens reads, start_eq, body_eq]
  cases closes : piece.closed with
  | true =>
      obtain ⟨closer, more, closing, rfl, kind, stop⟩ := closed closes
      have found := filter_placeAll_within left (lexeme :: (inner ++ [closer])) more
      have stop_width : piece.span.stop = width left + width (lexeme :: (inner ++ [closer])) := by
        rw [stop]
        simp [Nat.add_assoc]
      refine ⟨[closer.place (width left + lexeme.length + width inner)], ?_,
        .inr ⟨List.cons_ne_nil _ _, _, closing, rfl, kind⟩⟩
      rw [stop_width]
      simp only [List.cons_append, List.append_assoc, List.nil_append] at found
      rw [found, placeAll, placeAll_append]
      rfl
  | false =>
      have found := filter_placeAll_within left (lexeme :: inner) rest
      have stop_width : piece.span.stop = width left + width (lexeme :: inner) := by
        rw [unclosed closes, stop_eq, width_append]
      rw [List.cons_append] at found
      refine ⟨[], ?_, .inl rfl⟩
      rw [stop_width, found, placeAll, List.append_nil]

/-- The literals among the words of a tag, or of an expression, lie where the quoted tokens of the
piece lie, and where its last token does if that is a literal that is never closed. -/
theorem literals_split_body {source : Source} {piece : Piece} {delimiter : Delimiter}
    (listed : piece ∈ (Piece.group source.tokens).toList) (kind : piece.kind = .region delimiter)
    (code : delimiter ≠ .comment) :
    ((Word.split source piece.body).filter (·.kind == .literal)).map (·.span) =
      ((piece.tokens source).filter (·.kind == .quoted)).map (·.span) ++
        (Token.unclosedLiteral? source (piece.tokens source)).toList.map (·.span) := by
  obtain ⟨lexemes, final, reads⟩ := Reads.exists_to_end .markup source.toList
  rw [toList_group_tokens reads] at listed
  obtain ⟨before, after, split⟩ := List.append_of_mem listed
  obtain ⟨left, inner, rest, lexeme, -, region⟩ := exists_opensAt split kind
  obtain ⟨earlier, front, remains, later, bytes, body_eq, body, others⟩ := region.exists_body reads
  have placed (index : Nat) :
      source.byte? (earlier.length + index) = (front ++ remains)[index]? := by
    rw [Source.byte?_eq_getElem?, bytes, List.getElem?_append_right (Nat.le_add_right _ _),
      Nat.add_sub_cancel_left]
  obtain ⟨places, complete⟩ := body.literals code region.within placed
  have opener_kind : (lexeme.place (width left)).kind = .opening delimiter := region.opens
  have opener_other : (lexeme.place (width left)).isUnclosedLiteral source = false := by
    rw [Token.isUnclosedLiteral, opener_kind]
    rfl
  obtain ⟨ending, tokens, ends⟩ := region.exists_tokens_eq reads
  change _ = Token.literals source (piece.tokens source)
  rw [Word.split, body_eq, Source.slice_of_split bytes, Word.literals_collect, places, tokens,
    body_eq, Token.literals_cons_of_not (by simp [opener_kind]) opener_other]
  rcases ends with rfl | ⟨more, token, closing, rfl, closing_kind⟩
  · rw [List.append_nil]
  · have goes_on : remains ≠ [] := by
      rintro rfl
      cases others
      exact more rfl
    have other : token.isUnclosedLiteral source = false := by
      rw [Token.isUnclosedLiteral, closing_kind]
      rfl
    exact (Token.literals_append_singleton (by simp [closing_kind]) other (complete goes_on)).symm

/-- A tag with a closed literal and one that is never closed. -/
theorem literals_split_body_of_set :
    let source := Source.ofString "\x7b% set a = 'b' ~ \x22c"
    let piece : Piece := ⟨.region .tag, ⟨0, 19⟩, ⟨2, 19⟩, false⟩
    piece ∈ (Piece.group source.tokens).toList ∧
      ((Word.split source piece.body).filter (·.kind == .literal)).map (·.span) =
        [⟨11, 14⟩, ⟨17, 19⟩] := by
  intro source piece
  have listed : piece ∈ (Piece.group source.tokens).toList := by decide +kernel
  refine ⟨listed, (literals_split_body listed rfl (by simp)).trans ?_⟩
  decide +kernel

end Piece
end TwigTemplate
