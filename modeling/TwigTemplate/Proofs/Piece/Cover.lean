import TwigTemplate.Proofs.Piece.Joint
import TwigTemplate.Proofs.Source

/-!
# Pieces cover a template

The pieces of a template follow each other from its beginning to its end, and none is empty.  The
first pieces are the pieces of a part of the template by itself, and the piece under an offset is
the one that holds it.
-/

namespace TwigTemplate

open Lexeme

namespace Piece

/-- The piece is not empty and its body lies inside it. -/
structure Fits (piece : Piece) : Prop where
  /-- The piece is not empty. -/
  start_lt : piece.span.start < piece.span.stop
  /-- The body begins in it. -/
  start_le : piece.span.start ≤ piece.body.start
  /-- The body is a span. -/
  body_le : piece.body.start ≤ piece.body.stop
  /-- The body ends in it; of a closed region, before it does. -/
  stop_le : piece.body.stop ≤ piece.span.stop
  /-- Only a closed region has something after its body. -/
  stop_lt : piece.kind ≠ .text → piece.closed = true → piece.body.stop < piece.span.stop

/-- The pieces follow each other from one offset to another. -/
def Covers : (start : Nat) → List Piece → (stop : Nat) → Prop
  | start, [], stop => start = stop
  | start, piece :: pieces, stop =>
    piece.span.start = start ∧ piece.Fits ∧ Covers piece.span.stop pieces stop

namespace Covers

variable {start stop : Nat} {left right pieces : List Piece} {piece : Piece}

theorem append_iff :
    Covers start (left ++ right) stop ↔
      ∃ middle, Covers start left middle ∧ Covers middle right stop := by
  induction left generalizing start with
  | nil => simp [Covers]
  | cons piece left ih => simp [Covers, ih, and_assoc]

theorem start_le (covers : Covers start pieces stop) : start ≤ stop := by
  induction pieces generalizing start with
  | nil => exact Nat.le_of_eq covers
  | cons piece pieces ih =>
      obtain ⟨rfl, fits, further⟩ := covers
      exact Nat.le_trans (Nat.le_of_lt fits.start_lt) (ih further)

theorem fits (covers : Covers start pieces stop) (member : piece ∈ pieces) : piece.Fits := by
  induction pieces generalizing start with
  | nil => cases member
  | cons first pieces ih =>
      obtain ⟨_, fits, further⟩ := covers
      rcases List.mem_cons.mp member with rfl | member
      · exact fits
      · exact ih further member

theorem bounds (covers : Covers start pieces stop) (member : piece ∈ pieces) :
    start ≤ piece.span.start ∧ piece.span.stop ≤ stop := by
  obtain ⟨before, after, rfl⟩ := List.append_of_mem member
  obtain ⟨middle, first, rfl, _, last⟩ := append_iff.mp covers
  exact ⟨first.start_le, last.start_le⟩

theorem eq_nil (covers : Covers start pieces start) : pieces = [] := by
  cases pieces with
  | nil => rfl
  | cons piece pieces =>
      obtain ⟨rfl, fits, further⟩ := covers
      exact absurd fits.start_lt (Nat.not_lt.mpr further.start_le)

/-- A piece ends before the next one begins. -/
theorem pairwise (covers : Covers start pieces stop) :
    pieces.Pairwise fun earlier later => earlier.span.stop ≤ later.span.start := by
  induction pieces generalizing start with
  | nil => exact List.Pairwise.nil
  | cons piece pieces ih =>
      obtain ⟨_, _, further⟩ := covers
      exact List.pairwise_cons.mpr ⟨fun _ member => (further.bounds member).1, ih further⟩

end Covers

/-! ### Pieces tell from each other -/

/-- The other piece is not empty, and the two lie one after the other. -/
structure Apart (piece other : Piece) : Prop where
  /-- The other piece is not empty, and its body lies inside it. -/
  fits : other.Fits
  /-- One ends before the other begins. -/
  separate : other.span.stop ≤ piece.span.start ∨ piece.span.stop ≤ other.span.start

/-- Each piece of a template is apart from those before and after it. -/
theorem Covers.apart {start stop : Nat} {before after : List Piece} {piece : Piece}
    (covers : Covers start (before ++ piece :: after) stop) :
    (∀ other ∈ before, piece.Apart other) ∧ ∀ other ∈ after, piece.Apart other := by
  have separate := covers.pairwise
  rw [List.pairwise_append, List.pairwise_cons] at separate
  constructor
  · intro other member
    exact ⟨covers.fits (List.mem_append_left _ member),
      .inl (separate.2.2 other member piece List.mem_cons_self)⟩
  · intro other member
    exact ⟨covers.fits (List.mem_append_right _ (List.mem_cons_of_mem _ member)),
      .inr (separate.2.1.1 other member)⟩

/-- An earlier piece has another place than a later one. -/
theorem Covers.span_ne_of_lt {start stop left right : Nat} {pieces : List Piece}
    {first second : Piece} (covers : Covers start pieces stop) (earlier : left < right)
    (left_found : pieces[left]? = some first) (right_found : pieces[right]? = some second) :
    first.span ≠ second.span := by
  obtain ⟨left_inside, rfl⟩ := List.getElem?_eq_some_iff.mp left_found
  obtain ⟨right_inside, rfl⟩ := List.getElem?_eq_some_iff.mp right_found
  have apart := List.pairwise_iff_getElem.mp covers.pairwise _ _ left_inside right_inside earlier
  have filled := (covers.fits (List.getElem_mem right_inside)).start_lt
  intro same
  rw [same] at apart
  omega

/-- The place of a piece shows which one it is. -/
theorem Covers.index_eq_of_span_eq {start stop left right : Nat} {pieces : List Piece}
    {span : Span} (covers : Covers start pieces stop)
    (left_found : pieces[left]?.map Piece.span = some span)
    (right_found : pieces[right]?.map Piece.span = some span) : left = right := by
  obtain ⟨first, left_found, first_span⟩ := Option.map_eq_some_iff.mp left_found
  obtain ⟨second, right_found, second_span⟩ := Option.map_eq_some_iff.mp right_found
  have same := first_span.trans second_span.symm
  rcases Nat.lt_trichotomy left right with earlier | same_index | later
  · exact absurd same (covers.span_ne_of_lt earlier left_found right_found)
  · exact same_index
  · exact absurd same.symm (covers.span_ne_of_lt later right_found left_found)

/-! ### The pieces of lexemes -/

namespace Pending

/-- Where the pending piece begins, when the next lexeme begins at `next`. -/
def start (next : Nat) : Pending → Nat
  | nothing => next
  | text span => span.start
  | region _ start _ => start

/-- The pending piece is not empty and ends at `next`. -/
def Fits (next : Nat) : Pending → Prop
  | nothing => True
  | text span => span.start < span.stop ∧ span.stop = next
  | region _ start body => start < body ∧ body ≤ next

theorem covers_finish {next : Nat} {pending : Pending} (fits : pending.Fits next) :
    Covers (pending.start next) (pending.finish next).toList next := by
  cases pending with
  | nothing => rfl
  | text span =>
      obtain ⟨filled, rfl⟩ := fits
      exact ⟨rfl, ⟨filled, Nat.le_refl _, Nat.le_of_lt filled, Nat.le_refl _, nofun⟩, rfl⟩
  | region delimiter start body =>
      obtain ⟨opened, reached⟩ := fits
      have filled : start < next := Nat.lt_of_lt_of_le opened reached
      exact ⟨rfl, ⟨filled, Nat.le_of_lt opened, reached, Nat.le_refl _, nofun⟩, rfl⟩

end Pending

/-- The pieces that lexemes form from the beginning of a template. -/
def ofLexemes (lexemes : List Lexeme) : List Piece :=
  (Grouping.ofLexemes lexemes).pieces.toList ++
    ((Grouping.ofLexemes lexemes).pending.finish (width lexemes)).toList

theorem toList_group_placeAll (lexemes : List Lexeme) :
    (group (placeAll 0 lexemes).toArray).toList = ofLexemes lexemes := by
  rw [group_placeAll, Array.toList_append, ofLexemes]
  cases (Grouping.ofLexemes lexemes).pending.finish (width lexemes) <;> rfl

namespace Grouping

/-- The finished pieces and the pending one cover a template as far as it has been read. -/
structure Covers (grouping : Grouping) (next : Nat) : Prop where
  /-- The finished pieces reach to the pending one. -/
  finished : Piece.Covers 0 grouping.pieces.toList (grouping.pending.start next)
  /-- The pending piece reaches to the next lexeme. -/
  pending : grouping.pending.Fits next

theorem Covers.extend {pieces : Array Piece} {pending : Pending} {next : Nat}
    (covers : (Grouping.mk pieces pending).Covers next) (lexeme : Lexeme) :
    (Grouping.mk pieces (pending.extend (lexeme.place next).span)).Covers
      (next + lexeme.length) := by
  obtain ⟨finished, fits⟩ := covers
  have grown : next < next + lexeme.length := Nat.lt_add_of_pos_right (Nat.succ_pos _)
  cases pending with
  | nothing => exact ⟨finished, grown, rfl⟩
  | text span => exact ⟨finished, Nat.lt_trans fits.1 (fits.2 ▸ grown), rfl⟩
  | region delimiter start body =>
      exact ⟨finished, fits.1, Nat.le_trans fits.2 (Nat.le_of_lt grown)⟩

theorem Covers.step {grouping : Grouping} {next : Nat} (covers : grouping.Covers next)
    (lexeme : Lexeme) : (grouping.step (lexeme.place next)).Covers (next + lexeme.length) := by
  have grown : next < next + lexeme.length := Nat.lt_add_of_pos_right (Nat.succ_pos _)
  have steps := steps_step grouping (lexeme.place next)
  generalize grouping.step (lexeme.place next) = later at steps ⊢
  cases steps with
  | opens =>
      refine ⟨?_, grown, Nat.le_refl _⟩
      rw [Array.toList_append, Option.toList_toArray]
      exact Piece.Covers.append_iff.mpr
        ⟨_, covers.finished, Pending.covers_finish covers.pending⟩
  | closes =>
      obtain ⟨finished, begun, reached⟩ := covers
      refine ⟨?_, trivial⟩
      rw [Array.toList_push]
      refine Piece.Covers.append_iff.mpr ⟨_, finished, rfl, ?_, rfl⟩
      exact ⟨Nat.lt_trans begun (Nat.lt_of_le_of_lt reached grown), Nat.le_of_lt begun, reached,
        Nat.le_of_lt grown, fun _ _ => grown⟩
  | goesOn => exact covers.extend lexeme

theorem covers_ofLexemes (lexemes : List Lexeme) : (ofLexemes lexemes).Covers (width lexemes) := by
  induction lexemes using List.reverseRecOn with
  | nil => exact ⟨rfl, trivial⟩
  | append_singleton lexemes lexeme ih =>
      rw [ofLexemes_append_singleton, width_append]
      exact ih.step lexeme

end Grouping

/-- The pieces of lexemes cover them. -/
theorem covers_ofLexemes (lexemes : List Lexeme) : Covers 0 (ofLexemes lexemes) (width lexemes) :=
  have covers := Grouping.covers_ofLexemes lexemes
  Covers.append_iff.mpr ⟨_, covers.finished, Pending.covers_finish covers.pending⟩

/-- The pieces of a template are those of its lexemes. -/
theorem toList_group_tokens {source : Source} {lexemes : List Lexeme} {final : Mode}
    (reads : Reads .markup source.toList lexemes final []) :
    (group source.tokens).toList = ofLexemes lexemes := by
  have tokens_eq : source.tokens = (placeAll 0 lexemes).toArray := by
    rw [← Source.toList_tokens reads]
  rw [tokens_eq, toList_group_placeAll]

/-- The pieces of a template cover it. -/
theorem covers_group_tokens (source : Source) :
    Covers 0 (group source.tokens).toList source.size := by
  obtain ⟨lexemes, final, reads⟩ := Reads.exists_to_end .markup source.toList
  rw [toList_group_tokens reads, ← Source.width_eq_size reads]
  exact covers_ofLexemes lexemes

/-! ### The first pieces -/

/-- One more lexeme makes the last piece and leaves the pieces before it as they are. -/
theorem exists_ofLexemes_append_singleton (lexemes : List Lexeme) (lexeme : Lexeme) :
    ∃ kept last, ofLexemes (lexemes ++ [lexeme]) = kept ++ [last] ∧
      kept <+: ofLexemes lexemes ∧
      ∀ delimiter, lexeme.kind = .closing delimiter → last.closed = true := by
  rw [ofLexemes, ofLexemes, Grouping.ofLexemes_append_singleton]
  obtain ⟨pieces, pending⟩ := Grouping.ofLexemes lexemes
  have kind_eq : (lexeme.place (width lexemes)).kind = lexeme.kind := rfl
  have before := List.prefix_append pieces.toList (pending.finish (width lexemes)).toList
  rw [Grouping.step, kind_eq]
  cases lexeme.kind with
  | opening delimiter =>
      refine ⟨_, _, rfl, ?_, by simp⟩
      rw [Array.toList_append, Option.toList_toArray]
      exact List.prefix_refl _
  | closing delimiter =>
      cases pending with
      | nothing => exact ⟨_, Piece.text _, rfl, before, fun _ _ => rfl⟩
      | text span => exact ⟨_, Piece.text _, rfl, before, fun _ _ => rfl⟩
      | region opened start body =>
          simp only [Array.toList_push, Pending.finish, Option.toList_none, List.append_nil]
          exact ⟨_, _, rfl, before, fun _ _ => rfl⟩
  | quoted => cases pending <;> exact ⟨_, _, rfl, before, by simp⟩
  | raw => cases pending <;> exact ⟨_, _, rfl, before, by simp⟩

/-- The first pieces are the pieces of a part of the lexemes. -/
theorem exists_ofLexemes_eq {lexemes : List Lexeme} {before after : List Piece} {piece : Piece}
    (split : ofLexemes lexemes = before ++ piece :: after) :
    ∃ left right, lexemes = left ++ right ∧ width left = piece.span.stop ∧
      ofLexemes left = before ++ [piece] := by
  induction lexemes using List.reverseRecOn generalizing after with
  | nil => cases before <;> cases split
  | append_singleton lexemes lexeme ih =>
      obtain ⟨kept, last, extended, ⟨others, first⟩, -⟩ :=
        exists_ofLexemes_append_singleton lexemes lexeme
      rw [extended] at split
      rcases List.eq_nil_or_concat after with rfl | ⟨after, final, rfl⟩
      · obtain ⟨rfl, same⟩ := List.append_inj' split rfl
        obtain rfl := List.singleton_inj.mp same
        have covers := extended ▸ covers_ofLexemes (lexemes ++ [lexeme])
        obtain ⟨_, _, _, _, stop⟩ := Covers.append_iff.mp covers
        exact ⟨_, [], (List.append_nil _).symm, stop.symm, extended⟩
      · rw [List.concat_eq_append, ← List.cons_append, ← List.append_assoc] at split
        obtain ⟨rfl, -⟩ := List.append_inj' split rfl
        rw [List.append_assoc, List.cons_append] at first
        obtain ⟨left, right, rfl, wide, taken⟩ := ih first.symm
        exact ⟨left, right ++ [lexeme], List.append_assoc _ _ _, wide, taken⟩

/-! ### The piece under an offset -/

/-- The piece with an index ends at an offset or before it. -/
def endsBy (pieces : Array Piece) (offset index : Nat) : Bool :=
  pieces[index]?.any (·.span.stop ≤ offset)

section Under

variable {pieces : Array Piece} {stop offset index : Nat}

theorem endsBy_iff :
    endsBy pieces offset index = true ↔
      ∃ piece, pieces[index]? = some piece ∧ piece.span.stop ≤ offset := by
  simp [endsBy, Option.any_eq_true]

/-- Bisection counts the pieces that end at an offset or before it. -/
theorem lt_partitionPoint_endsBy_iff (covers : Covers 0 pieces.toList stop) :
    index < partitionPoint (endsBy pieces offset) pieces.size ↔
      endsBy pieces offset index = true := by
  have ordered : ∀ i j, i ≤ j → endsBy pieces offset j = true → endsBy pieces offset i = true := by
    intro i j before passed
    obtain ⟨later, found, ends⟩ := endsBy_iff.mp passed
    obtain ⟨inside, rfl⟩ := Array.getElem?_eq_some_iff.mp found
    have inside_i : i < pieces.size := Nat.lt_of_le_of_lt before inside
    refine endsBy_iff.mpr ⟨pieces[i], Array.getElem?_eq_getElem inside_i, ?_⟩
    rcases Nat.lt_or_eq_of_le before with earlier | rfl
    · have apart := List.pairwise_iff_getElem.mp covers.pairwise i j (by simpa using inside_i)
        (by simpa using inside) earlier
      have filled := (covers.fits (Array.getElem_mem_toList inside)).start_lt
      simp only [Array.getElem_toList] at apart
      omega
    · exact ends
  rw [lt_partitionPoint_iff _ _ _ ordered, and_iff_right_iff_imp]
  intro ends
  obtain ⟨piece, found, -⟩ := endsBy_iff.mp ends
  exact (Array.getElem?_eq_some_iff.mp found).1

/-- So many pieces end at an offset or before it. -/
theorem partitionPoint_endsBy_eq {count : Nat} (covers : Covers 0 pieces.toList stop)
    (before : ∀ index < count, endsBy pieces offset index = true)
    (after : endsBy pieces offset count = false) :
    partitionPoint (endsBy pieces offset) pieces.size = count := by
  have least : count < _ ↔ endsBy pieces offset count = true := lt_partitionPoint_endsBy_iff covers
  have last : count - 1 < _ ↔ endsBy pieces offset (count - 1) = true :=
    lt_partitionPoint_endsBy_iff covers
  have prior := before (count - 1)
  rw [after] at least
  grind

/-- The piece holds an offset; the last one also holds the offset at its end. -/
def Holds (piece : Piece) (after : List Piece) (offset : Nat) : Prop :=
  piece.span.start ≤ offset ∧
    (offset < piece.span.stop ∨ after = [] ∧ offset = piece.span.stop)

/-- Some piece holds each offset between the ends of a text. -/
theorem Covers.exists_holds {start : Nat} {pieces : List Piece} (covers : Covers start pieces stop)
    (filled : pieces ≠ []) (above : start ≤ offset) (below : offset ≤ stop) :
    ∃ before piece after, pieces = before ++ piece :: after ∧ piece.Holds after offset := by
  induction pieces generalizing start with
  | nil => exact absurd rfl filled
  | cons piece pieces ih =>
      obtain ⟨rfl, -, further⟩ := covers
      rcases Nat.lt_or_ge offset piece.span.stop with inside | past
      · exact ⟨[], piece, pieces, rfl, above, .inl inside⟩
      · by_cases last : pieces = []
        · subst last
          have stop_eq : piece.span.stop = stop := further
          exact ⟨[], piece, [], rfl, above, .inr ⟨rfl, by omega⟩⟩
        · obtain ⟨before, other, after, rfl, holds⟩ := ih further last past
          exact ⟨piece :: before, other, after, rfl, holds⟩

theorem indexAt?_eq_ite (covers : Covers 0 pieces.toList stop) (filled : pieces.toList ≠ []) :
    indexAt? pieces offset =
      if stop < offset then none
      else some (min (partitionPoint (endsBy pieces offset) pieces.size) (pieces.size - 1)) := by
  obtain ⟨init, last, split⟩ := List.eq_nil_or_concat pieces.toList |>.resolve_left filled
  rw [List.concat_eq_append] at split
  have is_last : pieces.back? = some last := by
    rw [← Array.getLast?_toList, split, List.getLast?_concat]
  have stop_eq : last.span.stop = stop := by
    rw [split] at covers
    obtain ⟨_, _, _, _, stop_eq⟩ := Covers.append_iff.mp covers
    exact stop_eq
  rw [indexAt?, is_last, Option.bind_some, stop_eq]
  rfl

/-- The search finds the piece that holds the offset. -/
theorem indexAt?_of_holds {before after : List Piece} {piece : Piece}
    (covers : Covers 0 pieces.toList stop) (split : pieces.toList = before ++ piece :: after)
    (holds : piece.Holds after offset) : indexAt? pieces offset = some before.length := by
  have size_eq : pieces.size = before.length + (after.length + 1) := by
    rw [← Array.length_toList, split, List.length_append, List.length_cons]
  have at_piece : pieces[before.length]? = some piece := by
    rw [← Array.getElem?_toList, split, List.getElem?_append_right (Nat.le_refl _), Nat.sub_self]
    rfl
  have bounds := covers.bounds (split ▸ List.mem_append_right _ List.mem_cons_self)
  have passed : ∀ index < before.length, endsBy pieces offset index = true := by
    intro index earlier
    have found : pieces[index]? = some before[index] := by
      rw [← Array.getElem?_toList, split, List.getElem?_append_left earlier,
        List.getElem?_eq_getElem earlier]
    have apart := covers.pairwise
    rw [split, List.pairwise_append] at apart
    have ends := apart.2.2 before[index] (List.getElem_mem earlier) piece List.mem_cons_self
    exact endsBy_iff.mpr ⟨_, found, Nat.le_trans ends holds.1⟩
  rw [indexAt?_eq_ite covers (by simp [split])]
  rcases holds.2 with inside | ⟨rfl, rfl⟩
  · have held : endsBy pieces offset before.length = false := by
      simp [endsBy, at_piece, inside]
    rw [if_neg (by omega), partitionPoint_endsBy_eq covers passed held, size_eq]
    congr 1
    omega
  · have ended : before.length < partitionPoint (endsBy pieces piece.span.stop) pieces.size :=
      (lt_partitionPoint_endsBy_iff covers).mpr (endsBy_iff.mpr ⟨piece, at_piece, Nat.le_refl _⟩)
    rw [List.length_nil] at size_eq
    rw [if_neg (by omega), size_eq]
    rw [size_eq] at ended
    congr 1
    omega

end Under

/-- The piece under an offset is the one that holds it. -/
theorem indexAt?_eq_some_iff {pieces : Array Piece} {stop offset index : Nat}
    (covers : Covers 0 pieces.toList stop) :
    indexAt? pieces offset = some index ↔
      ∃ before piece after, pieces.toList = before ++ piece :: after ∧ before.length = index ∧
        piece.Holds after offset := by
  constructor
  · intro found
    have filled : pieces.toList ≠ [] := by
      intro empty
      obtain rfl : pieces = #[] := Array.toList_eq_nil_iff.mp empty
      cases found
    have below : offset ≤ stop := by
      rw [indexAt?_eq_ite covers filled] at found
      split at found
      · cases found
      · omega
    obtain ⟨before, piece, after, split, holds⟩ :=
      covers.exists_holds filled (Nat.zero_le offset) below
    have same := indexAt?_of_holds covers split holds
    rw [found] at same
    exact ⟨before, piece, after, split, (Option.some.inj same).symm, holds⟩
  · rintro ⟨before, piece, after, split, rfl, holds⟩
    exact indexAt?_of_holds covers split holds

end Piece
end TwigTemplate
