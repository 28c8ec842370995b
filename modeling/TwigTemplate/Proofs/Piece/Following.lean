import TwigTemplate.Proofs.Piece.Opaque
import TwigTemplate.Proofs.Piece.Region

/-!
# The region after a verbatim tag

The first region after a verbatim tag is the end tag of its body.  Where a text is cut off inside
that end tag, there is no end tag, so that the body goes on up to the cut.
-/

namespace TwigTemplate

open Lexeme

namespace Piece

/-- The last region among the pieces opens a verbatim body, so that the next region ends it. -/
def FollowsVerbatim (source : Source) (pieces : List Piece) : Prop :=
  ∃ opener ∈ pieces.reverse.find? (·.kind ≠ .text), opener.OpensVerbatim source

instance (source : Source) (pieces : List Piece) : Decidable (FollowsVerbatim source pieces) :=
  decidable_of_iff ((pieces.reverse.find? (·.kind ≠ .text)).any fun opener =>
      decide (opener.OpensVerbatim source)) (by simp [FollowsVerbatim, Option.any_eq_true])

theorem followsVerbatim_iff {source : Source} {pieces : List Piece} :
    FollowsVerbatim source pieces ↔
      ∃ before opener texts, pieces = before ++ opener :: texts ∧ opener.OpensVerbatim source ∧
        ∀ text ∈ texts, text.kind = .text := by
  simp only [FollowsVerbatim, Option.mem_def, List.find?_eq_some_iff_append]
  constructor
  · rintro ⟨opener, ⟨-, texts, before, split, all⟩, opens⟩
    refine ⟨before.reverse, opener, texts.reverse, ?_, opens, ?_⟩
    · rw [← List.reverse_inj, split]
      simp
    · simpa using all
  · rintro ⟨before, opener, texts, rfl, opens, all⟩
    refine ⟨opener, ⟨by simp [opens.1], texts.reverse, before.reverse, by simp, by simpa using all⟩,
      opens⟩

/-! ### Regions keep their place -/

/-- A region that has been opened at the offset is pending or finished. -/
def Grouping.HoldsRegion (grouping : Grouping) (start : Nat) : Prop :=
  (∃ delimiter body, grouping.pending = .region delimiter start body) ∨
    ∃ piece ∈ grouping.pieces, piece.kind ≠ .text ∧ piece.span.start = start

theorem Grouping.HoldsRegion.step {grouping : Grouping} {start : Nat}
    (holds : grouping.HoldsRegion start) (token : Token) :
    (grouping.step token).HoldsRegion start := by
  rcases holds with ⟨delimiter, body, pending⟩ | ⟨piece, member, region⟩
  · obtain ⟨pieces, waiting⟩ := grouping
    obtain rfl : waiting = .region delimiter start body := pending
    rw [Grouping.step]
    cases token.kind with
    | opening other =>
        exact .inr ⟨_, Array.mem_append_right _ (List.mem_toArray.mpr List.mem_cons_self), by simp,
          rfl⟩
    | closing other => exact .inr ⟨_, Array.mem_push_self, by simp, rfl⟩
    | quoted => exact .inl ⟨delimiter, body, rfl⟩
    | raw => exact .inl ⟨delimiter, body, rfl⟩
  · exact .inr ⟨piece, mem_pieces_step token member, region⟩

/-- Every lexeme that opens a region begins one of the pieces. -/
theorem exists_region_of_opening {lexeme : Lexeme} {delimiter : Delimiter}
    (opens : lexeme.kind = .opening delimiter) (left right : List Lexeme) :
    ∃ piece ∈ ofLexemes (left ++ lexeme :: right), piece.kind ≠ .text ∧
      piece.span.start = width left := by
  have holds : (Grouping.ofLexemes (left ++ lexeme :: right)).HoldsRegion (width left) := by
    induction right using List.reverseRecOn with
    | nil =>
        rw [Grouping.ofLexemes_append_opening left opens]
        exact .inl ⟨_, _, rfl⟩
    | append_singleton right last ih =>
        rw [← List.cons_append, ← List.append_assoc, Grouping.ofLexemes_append_singleton]
        exact ih.step _
  rw [ofLexemes]
  rcases holds with ⟨opened, body, pending⟩ | ⟨piece, member, region⟩
  · rw [pending]
    exact ⟨_, List.mem_append_right _ List.mem_cons_self, by simp, rfl⟩
  · exact ⟨piece, List.mem_append_left _ (Array.mem_toList_iff.mpr member), region⟩

/-! ### Where verbatim bodies end -/

end Piece

/-- The lexemes end with a verbatim body, which is empty or a single run. -/
def LeavesVerbatim (bytes : List UInt8) (lexemes : List Lexeme) : Prop :=
  ∃ others keyword between, Reads .markup bytes others (.verbatim keyword) between ∧
    (lexemes = others ∨ ∃ run, run.kind = .raw ∧ lexemes = others ++ [run])

namespace Reads

open Piece

variable {source : Source} {keyword : String} {others left : List Lexeme}
  {between rest : List UInt8} {middle final : Mode}

/-- The tag before a verbatim body is the last piece there. -/
theorem exists_opener (reads : Reads .markup source.toList others (.verbatim keyword) between) :
    (Grouping.ofLexemes others).pending = .nothing ∧
      ∃ before opener, ofLexemes others = before ++ [opener] ∧ opener.OpensVerbatim source ∧
        opener.span.stop = width others := by
  obtain ⟨front, split, -⟩ := reads.exists_taken
  obtain ⟨opener, member, stop_eq, opens⟩ := (coupled reads split).verbatim keyword rfl
  have covers := Grouping.covers_ofLexemes others
  obtain ⟨finished, fits⟩ := covers
  have bounds := finished.bounds (Array.mem_toList_iff.mpr member)
  have nothing : (Grouping.ofLexemes others).pending = .nothing := by
    cases pending : (Grouping.ofLexemes others).pending with
    | nothing => rfl
    | text span =>
        rw [pending] at bounds fits
        obtain ⟨filled, reached⟩ := fits
        simp only [Pending.start] at bounds
        omega
    | region delimiter start body =>
        rw [pending] at bounds fits
        obtain ⟨filled, reached⟩ := fits
        simp only [Pending.start] at bounds
        omega
  refine ⟨nothing, ?_⟩
  rw [nothing] at finished
  obtain ⟨before, after, split⟩ := List.append_of_mem (Array.mem_toList_iff.mpr member)
  rw [split] at finished
  obtain ⟨_, -, rfl, -, further⟩ := Covers.append_iff.mp finished
  simp only [Pending.start, ← stop_eq] at further
  obtain rfl := further.eq_nil
  refine ⟨before, opener, ?_, opens, stop_eq⟩
  rw [ofLexemes, nothing, split, Pending.finish, Option.toList_none, List.append_nil]

/-- The pieces before the end tag of a verbatim body end with the body and the tag before it. -/
theorem followsVerbatim_of_leaves (leaves : LeavesVerbatim source.toList left) :
    FollowsVerbatim source (ofLexemes left) := by
  obtain ⟨others, keyword, between, reads, body⟩ := leaves
  obtain ⟨nothing, before, opener, split, opens, -⟩ := reads.exists_opener
  rw [followsVerbatim_iff]
  rcases body with rfl | ⟨run, is_raw, rfl⟩
  · exact ⟨before, opener, [], split, opens, by simp⟩
  · refine ⟨before, opener, [Piece.text (run.place (width others)).span], ?_, opens,
      by simp [Piece.text]⟩
    rw [ofLexemes, nothing, Pending.finish, Option.toList_none, List.append_nil] at split
    have kind_eq : (run.place (width others)).kind = run.kind := rfl
    rw [ofLexemes, Grouping.ofLexemes_append_singleton, Grouping.step, kind_eq, is_raw, nothing]
    simp [Pending.extend, Pending.finish, split]

/-- Up to the first region that opens, a verbatim body holds nothing or a single run. -/
theorem verbatim_cases {bytes : List UInt8}
    (reads : Reads (.verbatim keyword) bytes left middle rest)
    (unopened : ∀ lexeme ∈ left, ∀ delimiter, lexeme.kind ≠ .opening delimiter) :
    left = [] ∨ ∃ run, run.kind = .raw ∧ left = [run] := by
  cases reads with
  | done => exact .inl rfl
  | @step _ after _ byte tail _ lexeme left taken further =>
      rw [next] at taken
      rcases ofVerbatim_cases keyword byte tail with ⟨-, opens⟩ | ⟨run, later, rfl, runs, stops, -⟩
      · rw [taken] at opens
        obtain ⟨rfl, -⟩ := Prod.mk.inj opens
        exact absurd rfl (unopened _ List.mem_cons_self .tag)
      · rw [taken] at runs
        obtain ⟨rfl, rfl⟩ := Prod.mk.inj runs
        refine .inr ⟨raw run.length, rfl, ?_⟩
        rw [raw, List.drop_left] at further
        -- The run goes up to an end tag, which would open a region.
        cases further with
        | done => rfl
        | step first _ =>
            have opener := opener?_of_startsTag (stops.resolve_left (List.cons_ne_nil _ _))
            rw [next, ofMarkup, opener] at first
            obtain ⟨rfl, -⟩ := Prod.mk.inj first
            exact absurd rfl (unopened _ (List.mem_cons_of_mem _ List.mem_cons_self) .tag)

/-- After the last piece that opens a verbatim body, there is nothing but the body. -/
theorem leaves_of_followsVerbatim (reads : Reads .markup source.toList left middle rest)
    (among : ∀ piece ∈ ofLexemes left, piece ∈ group source.tokens)
    (follows : FollowsVerbatim source (ofLexemes left)) : LeavesVerbatim source.toList left := by
  obtain ⟨before, opener, texts, split, ⟨kind, closed, keyword, known, trimmed⟩, all⟩ :=
    followsVerbatim_iff.mp follows
  have member : opener ∈ ofLexemes left := by simp [split]
  obtain ⟨others, between, first, wide⟩ :=
    (verbatimFrom_iff (among opener member) kind closed known).mpr trimmed
  have covers := covers_ofLexemes left
  have bounds := covers.bounds member
  have filled := (covers.fits member).start_lt
  rw [split] at covers
  have earlier_stops := (List.pairwise_append.mp covers.pairwise).2.2
  rcases first.compare reads with ⟨body, rfl, further⟩ | ⟨body, rfl, pending, -⟩
  · have unopened : ∀ lexeme ∈ body, ∀ delimiter, lexeme.kind ≠ .opening delimiter := by
      intro lexeme inside delimiter opens
      obtain ⟨earlier, later, rfl⟩ := List.append_of_mem inside
      obtain ⟨piece, found, region, start_eq⟩ :=
        exists_region_of_opening opens (others ++ earlier) later
      rw [List.append_assoc, split] at found
      rw [width_append] at start_eq
      rcases List.mem_append.mp found with found | found
      · have stops := earlier_stops piece found opener List.mem_cons_self
        have piece_filled := (covers.fits (List.mem_append_left _ found)).start_lt
        omega
      · rcases List.mem_cons.mp found with rfl | found
        · omega
        · exact region (all piece found)
    refine ⟨others, keyword, between, first, ?_⟩
    rcases further.verbatim_cases unopened with rfl | ⟨run, is_raw, rfl⟩
    · exact .inl (List.append_nil _)
    · exact .inr ⟨run, is_raw, rfl⟩
  · obtain ⟨lexeme, body, rfl⟩ := List.exists_cons_of_ne_nil pending
    rw [width_append, width_cons, Lexeme.length] at wide
    omega

/-! ### A text that is cut off in an end tag -/

/-- A verbatim body is followed by its end tag, and no end tag begins in it. -/
theorem exists_body {bytes : List UInt8} {body more : List Lexeme} {lexeme : Lexeme}
    {delimiter : Delimiter}
    (reads : Reads (.verbatim keyword) bytes (body ++ lexeme :: more) final [])
    (single : body = [] ∨ ∃ run, run.kind = .raw ∧ body = [run])
    (opens : lexeme.kind = .opening delimiter) :
    ∃ content later, bytes = content ++ later ∧ content.length = width body ∧
      startsTag (endWord keyword) later = true ∧ Reads .markup later (lexeme :: more) final [] ∧
      ∀ earlier rest, content = earlier ++ rest → rest ≠ [] →
        startsTag (endWord keyword) (rest ++ later) = false := by
  rcases single with rfl | ⟨run, is_raw, rfl⟩
  · refine ⟨[], bytes, rfl, rfl, ?_, reads.restart (by simp) opens, by simp⟩
    cases reads with
    | @step _ _ _ byte tail _ _ _ taken _ =>
        rw [next] at taken
        rcases ofVerbatim_cases keyword byte tail with ⟨starts, -⟩ | ⟨run, later, -, runs, -, -⟩
        · exact starts
        · rw [taken] at runs
          obtain ⟨rfl, -⟩ := Prod.mk.inj runs
          cases opens
  · cases reads with
    | @step _ after _ byte tail _ _ _ taken further =>
        rw [next] at taken
        rcases ofVerbatim_cases keyword byte tail with
          ⟨-, opened⟩ | ⟨content, later, rfl, runs, stops, passes⟩
        · rw [taken] at opened
          obtain ⟨rfl, -⟩ := Prod.mk.inj opened
          cases is_raw
        · rw [taken] at runs
          obtain ⟨rfl, rfl⟩ := Prod.mk.inj runs
          rw [raw, List.drop_left] at further
          refine ⟨byte :: content, later, rfl, by simp [raw, Lexeme.length], ?_, further, passes⟩
          apply stops.resolve_left
          rintro rfl
          cases further

/-- The body of an end tag ends before its last byte. -/
theorem width_lt_of_endTag {word rest : List UInt8} (plainWord : PlainWord word) (tag : EndTag word)
    {inner more : List Lexeme} {lexeme : Lexeme}
    (reads : Reads .markup (tag.bytes ++ rest) (lexeme :: (inner ++ more)) final [])
    (within : Interior inner) : width (lexeme :: inner) < tag.bytes.length := by
  have wide := Lexeme.width_lexemes plainWord tag
  rcases (tag.reads plainWord rest).compare reads with
    ⟨further, split, -⟩ | ⟨further, -, filled, ends⟩
  · rw [EndTag.lexemes] at split wide
    simp only [List.cons_append, List.nil_append, List.cons.injEq] at split
    obtain ⟨rfl, split⟩ := split
    simp only [width_cons, width_nil, Lexeme.length] at wide
    cases inner with
    | nil =>
        simp only [width_cons, width_nil, Lexeme.length]
        omega
    | cons run inner =>
        simp only [List.cons_append, List.cons.injEq] at split
        obtain ⟨rfl, split⟩ := split
        cases inner with
        | nil =>
            simp only [width_cons, width_nil, Lexeme.length]
            omega
        | cons closer inner =>
            simp only [List.cons_append, List.cons.injEq] at split
            have kind := within closer (by simp)
            simp [split.1] at kind
  · cases ends
    exact absurd rfl filled

end Reads

namespace Lexeme

variable {keyword : String} (known : keyword ∈ verbatimKeywords)
include known

/-- A verbatim body without an end tag goes on to the end of the text. -/
theorem ofVerbatim_of_unended {byte : UInt8} {tail : List UInt8}
    (unended : Unended (endWord keyword) (byte :: tail)) :
    ofVerbatim keyword byte tail = (raw tail.length, .markup) := by
  have none := (unended_iff (plainWord_endWord known)).mp unended
  simp only [List.mem_tails] at none
  rcases ofVerbatim_cases keyword byte tail with ⟨starts, -⟩ | ⟨run, rest, rfl, runs, stops, -⟩
  · rw [none _ (List.suffix_refl _)] at starts
    cases starts
  · have whole : rest = [] := by
      apply stops.resolve_right
      rw [none rest (List.suffix_append (byte :: run) rest)]
      exact Bool.false_ne_true
    rw [runs, whole, List.append_nil]

/-- Before the end of the end tag, no end tag is there. -/
theorem unended_of_cut {content front back rest : List UInt8} (tag : EndTag (endWord keyword))
    (split : tag.bytes ++ rest = front ++ back) (short : front.length < tag.bytes.length)
    (passes : ∀ earlier later, content = earlier ++ later → later ≠ [] →
      startsTag (endWord keyword) (later ++ (tag.bytes ++ rest)) = false) :
    Unended (endWord keyword) (content ++ front) := by
  intro before other after whole
  have plainWord := plainWord_endWord known
  have unbraced := rightBrace_not_mem_endWord known
  obtain ⟨init, bytes_eq, open_ended⟩ := tag.exists_bytes_eq unbraced
  obtain ⟨other_init, other_eq, -⟩ := other.exists_bytes_eq unbraced
  have unclosed : Byte.rightBrace ∉ front := by
    rw [bytes_eq, List.append_assoc] at split
    rw [bytes_eq, List.length_append, List.length_singleton] at short
    obtain ⟨more, rfl, -⟩ := exists_more_of_append_eq split (by omega)
    exact fun member => open_ended (List.mem_append_left more member)
  have within {more : List UInt8} (inside : content = before ++ (other.bytes ++ more)) : False := by
    have free := passes before (other.bytes ++ more) inside (by simp [other_eq])
    rw [List.append_assoc, other.starts plainWord] at free
    cases free
  rw [← List.append_assoc] at whole
  rcases List.append_eq_append_iff.mp whole with ⟨more, ends, rfl⟩ | ⟨more, inside, -⟩
  · rcases List.eq_nil_or_concat more with rfl | ⟨others, last, rfl⟩
    · rw [List.append_nil] at ends
      exact within (by rw [List.append_nil, ends])
    · rw [other_eq, List.concat_eq_append, ← List.append_assoc, ← List.append_assoc] at ends
      obtain ⟨-, last_eq⟩ := List.append_inj' ends rfl
      obtain rfl := List.singleton_inj.mp last_eq
      simp at unclosed
  · exact within (inside.trans (List.append_assoc _ _ _))

end Lexeme

namespace Reads

/-- A verbatim body begins behind a closing delimiter. -/
theorem exists_closing_of_verbatim {bytes between : List UInt8} {others : List Lexeme}
    {keyword : String} (reads : Reads .markup bytes others (.verbatim keyword) between) :
    keyword ∈ verbatimKeywords ∧ ∃ lexeme ∈ others.getLast?, lexeme.kind = .closing .tag := by
  obtain ⟨front, split, -⟩ := reads.exists_taken
  rcases List.eq_nil_or_concat others with rfl | ⟨earlier, lexeme, rfl⟩
  · cases reads.of_nil.1
  · rw [List.concat_eq_append] at reads ⊢
    obtain ⟨middle, _, byte, tail, -, -, -, taken, -, -, -⟩ := reads.exists_last split
    obtain ⟨_, content, -, closed, found⟩ := closing_of_verbatim (congrArg Prod.snd taken)
    refine ⟨(trim_of_verbatimKeyword? found).1, lexeme, by simp, ?_⟩
    rw [taken] at closed
    obtain rfl : lexeme = _ := congrArg Prod.fst closed
    rfl

/-- A text that is cut off in the end tag of a verbatim body ends with the body. -/
theorem exists_typed_ending {front back : List UInt8} {lexemes left inner more : List Lexeme}
    {lexeme : Lexeme} {delimiter : Delimiter} {piece : Piece} {final : Mode}
    (reads : Reads .markup (front ++ back) lexemes final [])
    (region : Piece.OpensAt lexemes left inner more lexeme delimiter piece)
    (above : piece.body.start ≤ front.length) (below : front.length ≤ piece.body.stop)
    (leaves : LeavesVerbatim (front ++ back) left) :
    ∃ others keyword between run, Reads .markup front others (.verbatim keyword) between ∧
      Reads .markup front (others ++ [run]) .markup [] ∧ run.kind = .raw := by
  obtain ⟨rfl, opens, within, -, body_eq, stop_eq, -⟩ := region
  obtain ⟨others, keyword, between, first, ends⟩ := leaves
  obtain ⟨body, single, rfl⟩ : ∃ body, (body = [] ∨ ∃ run, run.kind = .raw ∧ body = [run]) ∧
      left = others ++ body := by
    rcases ends with rfl | ⟨run, is_raw, rfl⟩
    · exact ⟨[], .inl rfl, (List.append_nil _).symm⟩
    · exact ⟨[run], .inr ⟨run, is_raw, rfl⟩, rfl⟩
  rw [body_eq, width_append, Lexeme.length] at above
  rw [stop_eq, width_append, width_append] at below
  obtain ⟨known, closer, is_last, closes⟩ := first.exists_closing_of_verbatim
  have further :
      Reads (.verbatim keyword) between (body ++ lexeme :: (inner ++ more)) final [] := by
    rw [List.append_assoc] at reads
    rcases first.compare reads with ⟨rest, same, further⟩ | ⟨rest, same, -⟩
    · rwa [List.append_cancel_left same]
    · have longer := congrArg List.length same
      simp only [List.length_append, List.length_cons] at longer
      omega
  obtain ⟨content, later, rfl, long, starts, ending, passes⟩ := further.exists_body single opens
  obtain ⟨tag, rest, rfl⟩ := exists_endTag starts
  have short := width_lt_of_endTag (plainWord_endWord known) tag ending within
  obtain ⟨before, bytes, before_long⟩ := first.exists_taken
  -- The cut lies in the end tag, before its last byte.
  obtain ⟨typed, rfl, typed_eq⟩ := exists_more_of_append_eq bytes (by omega)
  rw [List.length_append] at above below
  obtain ⟨cut, rfl, cut_eq⟩ := exists_more_of_append_eq typed_eq.symm (by omega)
  rw [List.length_append] at above below
  have unended := unended_of_cut known tag cut_eq (by omega) passes
  have upto := (bytes ▸ first).cut trivial (.inr (.inr (.inl ⟨closer, is_last, .tag, closes⟩)))
  have kept := upto.append_of_closing is_last closes (content ++ cut)
  obtain ⟨byte, tail, split⟩ : ∃ byte tail, content ++ cut = byte :: tail := by
    apply List.exists_cons_of_ne_nil
    intro empty
    have none := congrArg List.length empty
    rw [List.length_append, List.length_nil] at none
    omega
  rw [split] at unended kept ⊢
  have rest_of_body : Reads (.verbatim keyword) (byte :: tail) [raw tail.length] .markup [] := by
    refine .step (ofVerbatim_of_unended known unended) ?_
    rw [raw, List.drop_length]
    exact .done _ _
  exact ⟨others, keyword, _, raw tail.length, kept, kept.append rest_of_body, rfl⟩

end Reads
end TwigTemplate
