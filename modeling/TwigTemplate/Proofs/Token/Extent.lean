import TwigTemplate.Proofs.Token.Ending
import TwigTemplate.Proofs.Token.Shape

/-!
# Regions extend to their endings

The tokens after an opening delimiter cover the region up to its first ending, and the next token
tells which ending that is.  The reader takes several items of code into one token, so the ending is
carried backwards over what a token takes.
-/

namespace TwigTemplate

open Lexeme

namespace Ending

/-- The tokens from an offset on begin as the ending tells, in a text up to `size`. -/
def Begins (delimiter : Delimiter) (start size : Nat) (tokens : List Token) : Ending → Prop
  | closed mark => ∃ later,
    tokens = ⟨.closing delimiter, ⟨start, start + mark.length + 2⟩, !mark.isEmpty⟩ :: later
  | interrupted other => ∃ token later,
    tokens = token :: later ∧ token.kind = .opening other ∧ token.span.start = start
  | unterminated => tokens = [⟨.raw, ⟨start, size⟩, false⟩]
  | unended => tokens = []

/-- The first tokens from an offset on are inside the region and cover the part of it before its
ending, and the others tell the ending. -/
def ToldBy (delimiter : Delimiter) (part : List UInt8) (start size : Nat) (tokens : List Token)
    (ending : Ending) : Prop :=
  ∃ inner others, tokens = inner ++ others ∧ Token.Covers start inner (start + part.length) ∧
    (∀ token ∈ inner, token.kind = .raw ∨ token.kind = .quoted ∧ delimiter ≠ .comment) ∧
    ending.Begins delimiter (start + part.length) size others

variable {delimiter : Delimiter} {depth start size : Nat} {ending : Ending} {tokens : List Token}

theorem ToldBy.of_begins (begins : ending.Begins delimiter start size tokens) :
    ending.ToldBy delimiter [] start size tokens :=
  ⟨[], tokens, rfl, rfl, by simp, begins⟩

/-- A token inside the region comes before those that tell its ending. -/
theorem ToldBy.cons {token : Token} {item part : List UInt8}
    (told : ending.ToldBy delimiter part (start + item.length) size tokens) (filled : item ≠ [])
    (span : token.span = ⟨start, start + item.length⟩)
    (inner : token.kind = .raw ∨ token.kind = .quoted ∧ delimiter ≠ .comment) :
    ending.ToldBy delimiter (item ++ part) start size (token :: tokens) := by
  obtain ⟨inside, others, rfl, covers, all, begins⟩ := told
  have longer := List.length_pos_iff.mpr filled
  rw [Nat.add_assoc, ← List.length_append] at covers begins
  refine ⟨token :: inside, others, rfl, ?_, List.forall_mem_cons.mpr ⟨inner, all⟩, begins⟩
  rw [Token.Covers, span]
  exact ⟨rfl, Nat.lt_add_of_pos_right longer, covers⟩

/-- A lexeme inside the region comes before those that tell its ending. -/
theorem ToldBy.place {lexeme : Lexeme} {lexemes : List Lexeme} {byte : UInt8}
    {taken rest part : List UInt8} (long : lexeme.extra = taken.length)
    (inner : lexeme.kind = .raw ∨ lexeme.kind = .quoted ∧ delimiter ≠ .comment)
    (told : ending.ToldBy delimiter part (start + lexeme.length)
      (start + lexeme.length + rest.length) (placeAll (start + lexeme.length) lexemes)) :
    ending.ToldBy delimiter (byte :: taken ++ part) start
      (start + (byte :: (taken ++ rest)).length) (placeAll start (lexeme :: lexemes)) := by
  have whole : lexeme.length = (byte :: taken).length := by rw [length, long, List.length_cons]
  have size : start + lexeme.length + rest.length =
      start + (byte :: (taken ++ rest)).length := by
    rw [whole, Nat.add_assoc, ← List.length_append, List.cons_append]
  rw [size] at told
  refine ToldBy.cons (whole ▸ told) (List.cons_ne_nil _ _) ?_ inner
  rw [Lexeme.place, whole]

theorem startsClose_of_standsAt {mark rest : List UInt8}
    (stands : (closed mark).StandsAt delimiter depth rest) : delimiter.startsClose rest = true :=
  Delimiter.startsClose_iff.mpr ⟨mark, stands.2⟩

/-- Plain code ends nothing. -/
theorem not_standsAt_of_plain {byte : UInt8} {tail : List UInt8}
    (plain : endsRun delimiter depth (byte :: tail) = false) (ending : Ending) :
    ¬ ending.StandsAt delimiter depth (byte :: tail) := by
  rw [endsRun, Bool.or_eq_false_iff, Bool.or_eq_false_iff] at plain
  obtain ⟨⟨unquoted, goes_on⟩, unopened⟩ := plain
  intro stands
  cases ending with
  | closed mark =>
      rw [startsClose_of_standsAt stands, stands.1] at goes_on
      cases goes_on
  | interrupted other =>
      rw [Delimiter.opener?_eq_some_iff.mpr stands.2, Option.any_some, bne_eq_false_iff_eq]
        at unopened
      exact stands.1 unopened
  | unterminated =>
      obtain ⟨quote, _, split, quotes, -⟩ := stands
      obtain ⟨rfl, rfl⟩ := List.cons.inj split
      rw [List.head?_cons, Option.any_some, quotes] at unquoted
      cases unquoted
  | unended => cases stands

/-- A closed literal ends nothing. -/
theorem not_standsAt_of_literal {quote : UInt8} {inside : List UInt8}
    (quotes : Byte.isQuote quote = true) (within : Literal.Inside quote inside)
    (rest : List UInt8) (ending : Ending) :
    ¬ ending.StandsAt delimiter depth (quote :: (inside ++ [quote]) ++ rest) := by
  intro stands
  have heads := stands.heads
  rw [List.cons_append, List.head?_cons] at heads
  cases ending with
  | closed mark =>
      obtain ⟨_, same, unquoted, -⟩ := heads
      rw [← Option.some.inj same, quotes] at unquoted
      cases unquoted
  | interrupted other =>
      rw [Option.some.inj heads] at quotes
      cases quotes
  | unterminated =>
      obtain ⟨_, _, split, -, unclosed⟩ := stands
      obtain ⟨rfl, rfl⟩ := List.cons.inj split
      exact unclosed ⟨inside, rest, List.append_assoc _ _ _, within⟩
  | unended => cases heads

end Ending

namespace EndsCode

variable {delimiter : Delimiter} {depth later : Nat} {rest part : List UInt8} {ending : Ending}

/-- Code that goes on after a run ends where the code after the run does. -/
theorem of_runs {run : List UInt8} (runs : Runs delimiter rest depth run later)
    (further : EndsCode delimiter later rest part ending) :
    EndsCode delimiter depth (run ++ rest) (run ++ part) ending := by
  induction runs with
  | nil => exact further
  | @cons depth later byte run plain _ ih =>
      have unquoted : Byte.isQuote byte = false := by
        rw [endsRun, Bool.or_eq_false_iff, Bool.or_eq_false_iff] at plain
        exact plain.1.1
      have free : ∀ other, ¬ Ending.StandsAt delimiter depth ([byte] ++ (run ++ rest)) other :=
        Ending.not_standsAt_of_plain plain
      have ends := of_item (Code.item_of_unquoted delimiter depth unquoted) free (ih further)
      exact ends

/-- Code that goes on after a literal ends where the code after the literal does. -/
theorem of_literal {quote : UInt8} {inside : List UInt8} (quotes : Byte.isQuote quote = true)
    (within : Literal.Inside quote inside)
    (further : EndsCode delimiter depth rest part ending) :
    EndsCode delimiter depth (quote :: (inside ++ [quote]) ++ rest)
      (quote :: (inside ++ [quote]) ++ part) ending :=
  of_item (.literal depth quotes within) (Ending.not_standsAt_of_literal quotes within rest) further

end EndsCode

namespace Reads

variable {delimiter : Delimiter}

theorem begins_closing {byte : UInt8} {tail : List UInt8}
    (closes : delimiter.startsClose (byte :: tail) = true) (content : List UInt8)
    (start size : Nat) (others : List Token) :
    ∃ mark, (Ending.closed mark).StandsAt delimiter 0 (byte :: tail) ∧
      (Ending.closed mark).Begins delimiter start size
        ((closing delimiter byte content).1.place start :: others) := by
  obtain ⟨mark, trim, stands⟩ := Delimiter.startsClose_iff.mp closes
  refine ⟨mark, ⟨rfl, trim, stands⟩, others, ?_⟩
  rw [Delimiter.closeBytes_eq] at stands
  rcases trim with rfl | ⟨first, marked, rfl⟩
  · obtain ⟨rfl, -⟩ := List.cons_prefix_cons.mp stands
    simp [closing, place, length, Delimiter.isTrimMark_closeMark]
  · obtain ⟨rfl, -⟩ := List.cons_prefix_cons.mp stands
    simp [closing, place, length, marked, Nat.add_assoc]

/-- A run inside code goes up to the first ending. -/
theorem exists_endsCode (code : delimiter ≠ .comment) {mode final : Mode} {bytes rest : List UInt8}
    {lexemes : List Lexeme} (reads : Reads mode bytes lexemes final rest) (ended : rest = [])
    {depth : Nat} {content : List UInt8} (region : mode = .region delimiter depth content)
    (start : Nat) :
    ∃ part ending, EndsCode delimiter depth bytes part ending ∧
      ending.ToldBy delimiter part start (start + bytes.length) (placeAll start lexemes) := by
  induction reads generalizing depth content start with
  | done mode bytes =>
      subst ended
      exact ⟨[], .unended, .here rfl, .of_begins rfl⟩
  | @step mode after final byte tail rest lexeme lexemes taken further ih =>
      subst region
      have takes := takesCode_ofCode delimiter depth content byte tail
      rw [← next_code code, taken] at takes
      generalize pair : (lexeme, after) = result at takes
      cases takes with
      | @quoted inside rest quotes within =>
          obtain ⟨rfl, rfl⟩ := Prod.mk.inj pair
          have rest_eq : (inside ++ byte :: rest).drop (inside.length + 1) = rest := by
            rw [List.append_cons, List.drop_left' (by simp)]
          dsimp only at ih
          rw [rest_eq] at ih
          obtain ⟨part, ending, ends, told⟩ := ih ended rfl (start + (inside.length + 1 + 1))
          have literal := EndsCode.of_literal quotes within ends
          rw [List.append_cons inside]
          exact ⟨_, ending, literal, told.place (by simp) (.inr ⟨rfl, code⟩)⟩
      | unclosed quotes missing =>
          obtain ⟨rfl, rfl⟩ := Prod.mk.inj pair
          rw [raw, List.drop_length] at further
          cases further
          exact ⟨[], .unterminated, .here ⟨byte, tail, rfl, quotes, missing⟩, .of_begins rfl⟩
      | closes outside closer =>
          subst outside
          obtain ⟨mark, stands, begins⟩ :=
            begins_closing closer content start (start + (byte :: tail).length)
              (placeAll (start + lexeme.length) lexemes)
          rw [← pair] at begins
          exact ⟨[], .closed mark, .here stands, .of_begins begins⟩
      | @opens _ other opener differs =>
          refine ⟨[], .interrupted other, .here ⟨differs, ?_⟩, .of_begins ?_⟩
          · exact Delimiter.opener?_eq_some_iff.mp opener
          · obtain ⟨rfl, -⟩ := Prod.mk.inj pair
            exact ⟨_, _, rfl, rfl, rfl⟩
      | @runs run rest later plain stops =>
          obtain ⟨rfl, rfl⟩ := Prod.mk.inj pair
          rw [raw, List.drop_left] at ih
          obtain ⟨part, ending, ends, told⟩ := ih ended rfl _
          exact ⟨_, ending, .of_runs plain ends, told.place rfl (.inl rfl)⟩

/-- Where no comment goes on, it is closed, or the text has ended. -/
theorem exists_endsComment_of_run {depth : Nat} {content rest : List UInt8} {final : Mode}
    {lexemes : List Lexeme} (reads : Reads (.region .comment depth content) rest lexemes final [])
    (stops : rest = [] ∨ Delimiter.comment.startsClose rest = true) {run : List UInt8}
    (unclosed : Unclosed run rest) (start : Nat) :
    ∃ ending, EndsComment (run ++ rest) run ending ∧
      ending.Begins .comment start (start + rest.length) (placeAll start lexemes) := by
  rcases stops with rfl | closes
  · cases reads
    refine ⟨.unended, ?_, rfl⟩
    rw [List.append_nil]
    exact .of_unclosed unclosed
  · cases reads with
    | done => cases closes
    | @step _ after _ byte tail _ lexeme lexemes taken further =>
        obtain ⟨mark, ⟨-, trim, stands⟩, begins⟩ := begins_closing closes [] start
          (start + (byte :: tail).length) (placeAll (start + lexeme.length) lexemes)
        have closed : next (.region .comment depth content) byte tail = closing .comment byte [] :=
          if_pos closes
        rw [taken] at closed
        rw [← closed] at begins
        exact ⟨.closed mark, .of_closed unclosed trim stands, begins⟩

/-- A run inside a comment goes up to its end. -/
theorem exists_endsComment {depth : Nat} {content bytes : List UInt8} {final : Mode}
    {lexemes : List Lexeme} (reads : Reads (.region .comment depth content) bytes lexemes final [])
    (start : Nat) :
    ∃ part ending, EndsComment bytes part ending ∧
      ending.ToldBy .comment part start (start + bytes.length) (placeAll start lexemes) := by
  by_cases stops : bytes = [] ∨ Delimiter.comment.startsClose bytes = true
  · have unclosed : Unclosed [] bytes := by simp [Unclosed]
    obtain ⟨ending, ends, begins⟩ := reads.exists_endsComment_of_run stops unclosed start
    exact ⟨[], ending, ends, .of_begins begins⟩
  · cases reads with
    | done => exact absurd (.inl rfl) stops
    | @step _ after _ byte tail _ lexeme lexemes taken further =>
        rw [not_or, Bool.not_eq_true] at stops
        obtain ⟨run, rest, rfl, long, stop, before⟩ :=
          exists_distanceTo Delimiter.comment.startsClose tail
        have goes_on : next (.region .comment depth content) byte (run ++ rest) =
            (raw run.length, .region .comment 0 []) := by
          rw [next, ofComment, stops.2, long]
          rfl
        rw [taken] at goes_on
        obtain ⟨rfl, rfl⟩ := Prod.mk.inj goes_on
        rw [raw, List.drop_left] at further
        have unclosed : Unclosed (byte :: run) rest := by
          intro earlier later split filled
          cases earlier with
          | nil =>
              obtain rfl : byte :: run = later := split
              exact stops.2
          | cons first earlier => exact before earlier later (List.cons.inj split).2 filled
        obtain ⟨ending, ends, begins⟩ := further.exists_endsComment_of_run stop unclosed
          (start + (raw run.length).length)
        have told : ending.ToldBy .comment [] _ _ _ := .of_begins begins
        have placed : ending.ToldBy .comment (byte :: run ++ []) _ _ _ :=
          told.place (rfl : (raw run.length).extra = run.length) (.inl rfl)
        rw [List.append_nil] at placed
        exact ⟨byte :: run, ending, ends, placed⟩

/-- A run from the beginning of a region goes up to its end. -/
theorem exists_endsRegion {bytes : List UInt8} {final : Mode} {lexemes : List Lexeme}
    (reads : Reads (.region delimiter 0 []) bytes lexemes final []) (start : Nat) :
    ∃ part ending, EndsRegion bytes part ending delimiter ∧
      ending.ToldBy delimiter part start (start + bytes.length) (placeAll start lexemes) := by
  cases delimiter with
  | comment => exact reads.exists_endsComment start
  | tag => exact reads.exists_endsCode (by simp) rfl rfl start
  | expression => exact reads.exists_endsCode (by simp) rfl rfl start

end Reads

namespace Source

/-- A region goes from its opening delimiter up to the one place where something first ends it, and
the tokens after the opening delimiter tell what that is. -/
theorem region_ends {source : Source} {before after : List Token} {token : Token}
    {delimiter : Delimiter} (split : source.tokens.toList = before ++ token :: after)
    (opens : token.kind = .opening delimiter) :
    ∃ part ending, EndsRegion (source.toList.drop token.span.stop) part ending delimiter ∧
      (∀ part' ending',
        EndsRegion (source.toList.drop token.span.stop) part' ending' delimiter →
          part' = part ∧ ending' = ending) ∧
      ending.ToldBy delimiter part token.span.stop source.size after := by
  obtain ⟨lexemes, final, reads⟩ := Reads.exists_to_end .markup source.toList
  rw [Source.toList_tokens reads] at split
  obtain ⟨left, lexeme, right, rfl, rfl, rfl, rfl⟩ := exists_of_placeAll_eq split
  obtain ⟨middle, between, first, last⟩ := reads.exists_of_append
  obtain ⟨front, bytes, long⟩ := first.exists_taken
  cases last with
  | @step _ mode _ byte tail _ _ _ taken further =>
      have opened : next middle byte tail = opening delimiter tail := by
        have kind : (next middle byte tail).1.kind = .opening delimiter := by
          rw [taken]
          exact opens
        obtain ⟨opener, same⟩ := next_of_opening kind
        rw [same, next, ofMarkup, opener]
      rw [taken] at opened
      obtain rfl : mode = .region delimiter 0 [] := congrArg Prod.snd opened
      have content : source.toList.drop (width left + lexeme.length) =
          tail.drop lexeme.extra := by
        rw [bytes, ← long, List.drop_length_add_append, length, List.drop_succ_cons]
      have size : source.size = width left + lexeme.length + (tail.drop lexeme.extra).length := by
        have whole := reads.length_eq
        have behind := further.length_eq
        rw [size_eq_length, whole, behind, width_append, width_cons]
        simp only [List.length_nil]
        omega
      rw [place, Nat.zero_add, content, size]
      obtain ⟨part, ending, ends, told⟩ := further.exists_endsRegion (width left + lexeme.length)
      exact ⟨part, ending, ends, fun _ _ => ends.unique, told⟩

/-- An expression with a hash literal, of which a key holds the closing delimiter. -/
theorem region_ends_after_hash_literal :
    let source := Source.ofString "\x7b\x7b \x7b'\x7d\x7d': 1\x7d -\x7d\x7da"
    let token : Token := ⟨.opening .expression, ⟨0, 2⟩, false⟩
    let after : List Token := [⟨.raw, ⟨2, 4⟩, false⟩, ⟨.quoted, ⟨4, 8⟩, false⟩,
      ⟨.raw, ⟨8, 13⟩, false⟩, ⟨.closing .expression, ⟨13, 16⟩, true⟩, ⟨.raw, ⟨16, 17⟩, false⟩]
    source.tokens.toList = [] ++ token :: after ∧ token.kind = .opening .expression ∧
      ∃ part ending, EndsRegion (source.toList.drop 2) part ending .expression ∧
        (∀ part' ending', EndsRegion (source.toList.drop 2) part' ending' .expression →
          part' = part ∧ ending' = ending) ∧
        ending.ToldBy .expression part 2 17 after := by
  intro source token after
  have split : source.tokens.toList = [] ++ token :: after := by decide +kernel
  exact ⟨split, rfl, region_ends split rfl⟩

end Source
end TwigTemplate
