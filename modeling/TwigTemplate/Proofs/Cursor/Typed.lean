import TwigTemplate.Proofs.Cursor.Keyword
import TwigTemplate.Proofs.Cursor.Literal
import TwigTemplate.Proofs.Piece.Following

/-!
# Cursors depend on what has been typed

What a cursor stands at is told from the text before it, because the pieces that come before its own
are the same without the rest of the text, and because its own piece is read the same up to the
cursor.  The end tag of a verbatim body is the exception: without its end it belongs to the body.
-/

namespace TwigTemplate

open Lexeme Piece

section Typed

variable {before front back bytes rest : List UInt8} {byte : UInt8}
  {lexemes left inner others : List Lexeme} {lexeme : Lexeme} {delimiter : Delimiter}
  {middle after final : Mode}

/-- A text that is cut off behind an opening delimiter is read as the whole text is up to there,
unless the delimiter belongs to the end tag of a verbatim body. -/
theorem Reads.typed_opening
    (first : Reads .markup (before ++ byte :: (front ++ back)) left middle
      (byte :: (front ++ back)))
    (taken : next middle byte (front ++ back) = (lexeme, after))
    (opens : lexeme.kind = .opening delimiter) (fits : lexeme.extra ≤ front.length)
    (free : ¬ LeavesVerbatim (before ++ byte :: (front ++ back)) left) :
    after = .region delimiter 0 [] ∧
      Reads .markup (before ++ byte :: front) (left ++ [lexeme]) after
        (front.drop lexeme.extra) := by
  have is_opening : (next middle byte (front ++ back)).1.kind = .opening delimiter := by
    rw [taken, opens]
  have unverbatim : ∀ keyword, middle ≠ .verbatim keyword := by
    rintro keyword rfl
    exact free ⟨left, keyword, _, first, .inl rfl⟩
  have opener := (next_of_opening is_opening).1
  have opened := (next_of_opener unverbatim is_opening opener).symm.trans taken
  have fits_opened : (opening delimiter (front ++ back)).1.extra ≤ front.length := by
    rwa [opened]
  have opener_typed := opener?_of_fits opener fits_opened
  have taken_typed : next middle byte front = (lexeme, after) :=
    (next_of_opener unverbatim is_opening opener_typed).trans
      ((opening_append fits_opened).trans opened)
  have exchanges : Exchanges (byte :: (front ++ back)) (byte :: front) :=
    exchanges_of_opener opener opener_typed
  have first_typed := first.exchange exchanges trivial fun others run keyword between split is_raw
    reads _ => absurd ⟨others, keyword, between, reads, .inr ⟨run, is_raw, split⟩⟩ free
  exact ⟨(congrArg Prod.snd opened).symm, first_typed.append (.step taken_typed (.done _ _))⟩

/-- A text that is cut off inside a tag or an expression is read as the whole text is, up to the
last lexeme. -/
theorem Reads.exists_typed_region {more : List Lexeme} {piece : Piece}
    (reads : Reads .markup (front ++ back) lexemes final [])
    (region : OpensAt lexemes left inner more lexeme delimiter piece)
    (code : delimiter ≠ .comment) (above : piece.body.start ≤ front.length)
    (below : front.length ≤ piece.body.stop) (free : ¬ LeavesVerbatim (front ++ back) left) :
    ∃ typed after earlier cut last, Interior typed ∧
      Reads .markup front (left ++ lexeme :: typed) after [] ∧
      left ++ lexeme :: typed = earlier ++ [last] ∧
      TypedAt lexemes earlier cut last front.length := by
  obtain ⟨rfl, opens, within, -, body_eq, stop_eq, -⟩ := region
  rw [body_eq, Lexeme.length] at above
  rw [stop_eq, width_append, width_cons, Lexeme.length] at below
  obtain ⟨middle, between, first, further⟩ := reads.exists_of_append
  obtain ⟨before, bytes, long⟩ := first.exists_taken
  obtain ⟨typed, rfl, rfl⟩ := exists_more_of_append_eq bytes (by omega)
  obtain ⟨byte, typed, rfl⟩ : ∃ byte later, typed = byte :: later := by
    apply List.exists_cons_of_ne_nil
    rintro rfl
    rw [List.append_nil] at above
    omega
  rw [List.length_append, List.length_cons, long] at above below ⊢
  rw [List.append_assoc, List.cons_append] at first free
  cases further with
  | @step _ after _ _ _ _ _ _ taken further =>
      have fits : lexeme.extra ≤ typed.length := by omega
      obtain ⟨rfl, opened⟩ := first.typed_opening taken opens fits free
      rw [List.append_eq, List.drop_append_of_le_length fits] at further
      obtain ⟨later, remains, body, -⟩ := further.exists_of_append
      by_cases ended : typed.drop lexeme.extra = []
      · have closed : typed.length ≤ lexeme.extra := List.drop_eq_nil_iff.mp ended
        rw [ended] at opened
        refine ⟨[], _, left, lexeme, lexeme, by simp [Interior], opened, rfl,
          ⟨⟨_, rfl⟩, ?_, ?_, .inl rfl⟩⟩
        · omega
        · rw [Lexeme.length]
          omega
      · have reaches : remains.length ≤ back.length := by
          have total := body.length_eq
          rw [List.length_append, List.length_drop] at total
          omega
        obtain ⟨earlier, cut, last, after, found, inside⟩ :=
          body.exists_typed code within reaches ended
        have shifted := found.within (left ++ [lexeme]) more
        have long : width (left ++ [lexeme]) + (typed.drop lexeme.extra).length =
            width left + (typed.length + 1) := by
          simp only [width_append, width_cons, width_nil, Lexeme.length, List.length_drop]
          omega
        rw [long, List.append_assoc, List.singleton_append, List.append_assoc,
          List.singleton_append] at shifted
        exact ⟨earlier ++ [last], after, left ++ lexeme :: earlier, cut, last, found.inner within,
          by simpa using opened.append inside, by simp, shifted⟩

end Typed

namespace Document

section Under

variable {document : Document} {before after : List Piece} {piece : Piece} {stop offset : Nat}
  (covers : Covers 0 document.pieces.toList stop)
  (split : document.pieces.toList = before ++ piece :: after) (holds : piece.Holds after offset)
include covers split holds

theorem pieceAt?_of_holds : document.pieceAt? offset = some before.length ∧
    document.pieces[before.length]? = some piece := by
  refine ⟨indexAt?_of_holds covers split holds, ?_⟩
  rw [← Array.getElem?_toList, split, List.getElem?_append_right (Nat.le_refl _), Nat.sub_self,
    List.getElem?_cons_zero]

theorem cursorAt?_of_text (kind : piece.kind = .text) :
    document.cursorAt? offset = some .text := by
  obtain ⟨found, here⟩ := pieceAt?_of_holds covers split holds
  simp [cursorAt?, found, here, kind]

/-- The context in the body of a tag or an expression. -/
theorem cursorAt?_of_code {delimiter : Delimiter} (kind : piece.kind = .region delimiter)
    (code : delimiter ≠ .comment) (above : piece.body.start ≤ offset)
    (below : offset ≤ piece.body.stop) :
    document.cursorAt? offset = some (
      if document.inLiteral offset then .literal
      else if delimiter = .expression then .expression
      else document.cursorInTag piece.body offset) := by
  obtain ⟨found, here⟩ := pieceAt?_of_holds covers split holds
  rw [cursorAt?, found]
  simp only [Option.bind_eq_bind, Option.bind_some, here, kind, above, below, decide_true,
    Bool.and_self, Bool.not_true, Bool.false_eq_true, if_false]
  cases delimiter with
  | comment => exact absurd rfl code
  | tag => split <;> rfl
  | expression => split <;> rfl

end Under

theorem pieces_parse (options : Options) {source : Source} {lexemes : List Lexeme} {final : Mode}
    (reads : Reads .markup source.toList lexemes final []) :
    (parse options source).pieces.toList = ofLexemes lexemes ∧
      Covers 0 (parse options source).pieces.toList source.size ∧
      (parse options source).tokens.toList = placeAll 0 lexemes ∧ width lexemes = source.size := by
  exact ⟨toList_group_tokens reads, covers_group_tokens source, Source.toList_tokens reads,
    Source.width_eq_size reads⟩

section Region

variable (options : Options) {front back : Source} {lexemes left inner more : List Lexeme}
  {lexeme : Lexeme} {delimiter : Delimiter} {piece : Piece} {final : Mode}
  (reads : Reads .markup (front ++ back).toList lexemes final [])
  (region : OpensAt lexemes left inner more lexeme delimiter piece)
  (above : piece.body.start ≤ front.size) (below : front.size ≤ piece.body.stop)
include reads region above below

/-- A text that is cut off in the end tag of a verbatim body ends with markup. -/
theorem cursorAt?_of_leaves (leaves : LeavesVerbatim (front ++ back).toList left) :
    (parse options front).cursorAt? front.size = some .text := by
  rw [Source.toList_append] at reads leaves
  rw [Source.size_eq_length] at above below
  obtain ⟨others, keyword, between, run, body, ending, is_raw⟩ :=
    reads.exists_typed_ending region above below leaves
  obtain ⟨pieces_eq, covers, -, wide⟩ := pieces_parse options ending
  obtain ⟨nothing, -⟩ := body.exists_opener
  have kind_eq : (run.place (width others)).kind = run.kind := rfl
  have split : (parse options front).pieces.toList =
      (Grouping.ofLexemes others).pieces.toList ++
        [Piece.text (run.place (width others)).span] := by
    rw [pieces_eq, ofLexemes, Grouping.ofLexemes_append_singleton, Grouping.step, kind_eq, is_raw,
      nothing]
    rfl
  rw [width_append, width_cons, width_nil, Nat.add_zero] at wide
  refine cursorAt?_of_text covers split ⟨?_, .inr ⟨rfl, wide.symm⟩⟩ rfl
  rw [← wide]
  exact Nat.le_add_right _ _

/-- In a tag or an expression that is being typed, the cursor stands at what it stands at in a text
that goes on from there. -/
theorem cursorAt?_of_not_leaves {after : List Piece}
    (split : ofLexemes lexemes = ofLexemes left ++ piece :: after)
    (holds : piece.Holds after front.size) (kind : piece.kind = .region delimiter)
    (code : delimiter ≠ .comment) (free : ¬ LeavesVerbatim (front ++ back).toList left) :
    (parse options front).cursorAt? front.size =
      (parse options (front ++ back)).cursorAt? front.size := by
  obtain ⟨pieces_eq, covers, tokens_eq, -⟩ := pieces_parse options reads
  have bytes := Source.toList_append front back
  have size_eq := Source.size_eq_length front
  obtain ⟨typed, middle, earlier, cut, last, within, typed_reads, ends, found⟩ :=
    (bytes ▸ reads).exists_typed_region region code (size_eq ▸ above) (size_eq ▸ below)
      (bytes ▸ free)
  obtain ⟨typed_pieces, typed_covers, typed_tokens, wide⟩ := pieces_parse options typed_reads
  rw [ofLexemes_opening left region.opens within, wide, ← region.body_eq] at typed_pieces
  have typed_holds : Piece.Holds ⟨.region delimiter, ⟨width left, front.size⟩,
      ⟨piece.body.start, front.size⟩, false⟩ [] front.size := by
    have body_eq := region.body_eq
    exact ⟨by dsimp only; omega, .inr ⟨rfl, rfl⟩⟩
  have literal : (parse options front).inLiteral front.size =
      (parse options (front ++ back)).inLiteral front.size := by
    rw [ends] at typed_tokens wide
    exact inLiteral_typed (Source.begins_append front back) reads tokens_eq typed_tokens wide rfl
      (size_eq ▸ found)
  have in_tag : (parse options front).cursorInTag ⟨piece.body.start, front.size⟩ front.size =
      (parse options (front ++ back)).cursorInTag piece.body front.size :=
    cursorInTag_of_begins (Source.begins_append front back) above below
  rw [cursorAt?_of_code typed_covers typed_pieces typed_holds rfl code above (Nat.le_refl _),
    cursorAt?_of_code covers (pieces_eq.trans split) holds kind code above below, literal, in_tag]

end Region

/-- What a cursor in the body of a tag or an expression stands at is known from the text before the
cursor: it is the same in the text that is cut off there.  Only in the end tag of a verbatim body it
is not, as there is no end tag then and the cursor stands in the body. -/
theorem cursorAt?_typed (options : Options) (front back : Source) {index : Nat} {piece : Piece}
    {delimiter : Delimiter}
    (found : (parse options (front ++ back)).pieceAt? front.size = some index)
    (here : (parse options (front ++ back)).pieces[index]? = some piece)
    (kind : piece.kind = .region delimiter) (code : delimiter ≠ .comment)
    (above : piece.body.start ≤ front.size) (below : front.size ≤ piece.body.stop) :
    (parse options front).cursorAt? front.size =
      if FollowsVerbatim (front ++ back)
          ((parse options (front ++ back)).pieces.toList.take index) then some .text
      else (parse options (front ++ back)).cursorAt? front.size := by
  obtain ⟨lexemes, final, reads⟩ := Reads.exists_to_end .markup (front ++ back).toList
  have pieces_eq : (parse options (front ++ back)).pieces.toList = ofLexemes lexemes :=
    toList_group_tokens reads
  have covers : Covers 0 (parse options (front ++ back)).pieces.toList (width lexemes) :=
    pieces_eq ▸ covers_ofLexemes lexemes
  obtain ⟨before, other, after, split, rfl, holds⟩ := (indexAt?_eq_some_iff covers).mp found
  obtain ⟨-, there⟩ := pieceAt?_of_holds covers split holds
  obtain rfl : other = piece := Option.some.inj (there.symm.trans here)
  obtain ⟨left, inner, rest, lexeme, rfl, region⟩ := exists_opensAt (pieces_eq ▸ split) kind
  rw [split, List.take_left]
  split_ifs with follows
  · obtain ⟨middle, between, first, -⟩ := (region.split ▸ reads).exists_of_append
    have among : ∀ other ∈ ofLexemes left, other ∈ group (front ++ back).tokens := by
      intro other member
      rw [← Array.mem_toList_iff, show (group (front ++ back).tokens).toList = _ from split]
      exact List.mem_append_left _ member
    exact cursorAt?_of_leaves options reads region above below
      (first.leaves_of_followsVerbatim among follows)
  · exact cursorAt?_of_not_leaves options reads region above below (pieces_eq ▸ split) holds kind
      code (mt Reads.followsVerbatim_of_leaves follows)

/-- A condition that is being typed, up to the middle of a literal. -/
theorem cursorAt?_typed_in_literal :
    let front := Source.ofString "\x7b% if 'a"
    let whole := parse .default (front ++ Source.ofString "b' %\x7d")
    let piece : Piece := ⟨.region .tag, ⟨0, 13⟩, ⟨2, 11⟩, true⟩
    front.size = 8 ∧ whole.pieceAt? 8 = some 0 ∧ whole.pieces[0]? = some piece ∧
      ¬ FollowsVerbatim whole.source (whole.pieces.toList.take 0) ∧
      (parse .default front).cursorAt? 8 = whole.cursorAt? 8 ∧
      whole.cursorAt? 8 = some .literal := by
  intro front whole piece
  have size : front.size = 8 := by decide +kernel
  have found : whole.pieceAt? front.size = some 0 := by decide +kernel
  have here : whole.pieces[0]? = some piece := by decide +kernel
  have free : ¬ FollowsVerbatim whole.source (whole.pieces.toList.take 0) := by decide +kernel
  have typed := cursorAt?_typed .default front (Source.ofString "b' %\x7d") found here rfl (by simp)
    (by decide +kernel) (by decide +kernel)
  have same := typed.trans (if_neg free)
  rw [size] at found same
  exact ⟨size, found, here, free, same, by decide +kernel⟩

/-- In the end tag of a verbatim body the cursor stands at a keyword, but without the rest of the
tag it stands in the body. -/
theorem cursorAt?_in_end_tag :
    let front := Source.ofString "\x7b% raw %\x7da\x7b% endraw"
    let whole := parse .default (front ++ Source.ofString " %\x7d")
    let piece : Piece := ⟨.region .tag, ⟨10, 22⟩, ⟨12, 20⟩, true⟩
    front.size = 19 ∧ whole.pieceAt? 19 = some 2 ∧ whole.pieces[2]? = some piece ∧
      piece.body.start ≤ 19 ∧ 19 ≤ piece.body.stop ∧
      whole.cursorAt? 19 = some (.keyword "endraw") ∧
      (parse .default front).cursorAt? 19 = some .text ∧
      whole.cursorAt? 19 ≠ (parse .default front).cursorAt? 19 := by
  decide +kernel

end Document
end TwigTemplate
