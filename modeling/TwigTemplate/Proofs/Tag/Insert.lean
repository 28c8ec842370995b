import TwigTemplate.Proofs.Piece.Mark
import TwigTemplate.Proofs.Piece.Truncate
import TwigTemplate.Proofs.Tag.Shift

/-!
# What a tag means when a byte is put in elsewhere

A byte that is put in outside the body of a tag leaves the words of the tag as they are: those
before it stay in place, and those behind it are one byte further on.  So the tag means the same, at
the new places of its texts.
-/

namespace TwigTemplate

variable {source : Source} {body : Span} {offset : Nat}

/-! ### Before the byte -/

theorem Word.relocate_insert_of_le (ordered : body.start ≤ body.stop)
    (before : body.stop ≤ offset) {word : Word} (member : word ∈ split source body) :
    word.relocate (.insert offset) = word := by
  have bounds := bounds_of_mem_split ordered member
  rw [relocate, Relocation.span, Relocation.insert_start_of_lt (by omega),
    Relocation.insert_stop_of_le (by omega)]

namespace Tag

/-- What a body means before the new byte is at its old places. -/
theorem ofBody_insert_of_le (options : Options) (ordered : body.start ≤ body.stop)
    (before : body.stop ≤ offset) :
    (ofBody options source body).relocate (.insert offset) = ofBody options source body := by
  have unmoved : ∀ part, part ⊆ Word.split source body →
      part.map (·.relocate (.insert offset)) = part := by
    intro part among
    rw [List.map_congr_left fun word member =>
      Word.relocate_insert_of_le ordered before (among member), List.map_id']
  refine (ofBody_relocate options (unmoved _ (List.Subset.refl _)).symm ?_).symm
  intro part among
  rw [unmoved part among, Excerpt.covering?]
  split
  · rename_i first last is_first is_last
    have bounds_first := Word.bounds_of_mem_split ordered (among (List.mem_of_head? is_first))
    have bounds_last := Word.bounds_of_mem_split ordered (among (List.mem_of_getLast? is_last))
    rw [Option.map_some, Excerpt.relocate, Relocation.span,
      Relocation.insert_start_of_lt (by dsimp only; omega),
      Relocation.insert_stop_of_le (by dsimp only; omega)]
  · rfl

end Tag

/-! ### Behind the byte -/

section Behind

variable {back grown : Source} (ends : back.Ends source offset)
  (ends_grown : back.Ends grown (offset + 1))
include ends ends_grown

theorem Word.split_insert_of_ge (ordered : body.start ≤ body.stop) (behind : offset ≤ body.start) :
    split grown ⟨body.start + 1, body.stop + 1⟩ =
      (split source body).map (·.relocate (.insert offset)) := by
  -- The body lies in the last part of both sources.
  obtain ⟨_, _⟩ := body
  obtain ⟨start, rfl⟩ := Nat.exists_eq_add_of_le behind
  obtain ⟨stop, rfl⟩ := Nat.exists_eq_add_of_le (Nat.le_trans behind ordered)
  have first : split source ⟨offset + start, offset + stop⟩ = _ :=
    split_shift ends 0 ⟨start, stop⟩
  have second : split grown ⟨offset + 1 + start, offset + 1 + stop⟩ = _ :=
    split_shift ends_grown 0 ⟨start, stop⟩
  dsimp only
  rw [Nat.add_right_comm offset start, Nat.add_right_comm offset stop, first, second, List.map_map]
  refine List.map_congr_left fun word member => ?_
  have filled := (bounds_of_mem_split (Nat.le_of_add_le_add_left ordered) member).2.1
  simp only [Function.comp_apply, relocate, Relocation.span, Relocation.shift,
    Relocation.insert_start_of_le (Nat.le_add_right _ _),
    Relocation.insert_stop_of_lt (Nat.lt_add_of_pos_right (Nat.zero_lt_of_lt filled)),
    Nat.add_right_comm offset 1]

theorem Tag.carried_insert_of_ge (ordered : body.start ≤ body.stop)
    (behind : offset ≤ body.start) :
    Carried (.insert offset) source grown (Word.split source body) := by
  intro part among
  rw [Excerpt.covering?, Excerpt.covering?, List.head?_map, List.getLast?_map]
  cases is_first : part.head? with
  | none => rfl
  | some first =>
      cases is_last : part.getLast? with
      | none => rfl
      | some last =>
          have bounds_first := Word.bounds_of_mem_split ordered (among (List.mem_of_head? is_first))
          have bounds_last :=
            Word.bounds_of_mem_split ordered (among (List.mem_of_getLast? is_last))
          obtain ⟨start, start_eq⟩ := Nat.exists_eq_add_of_le (Nat.le_trans behind bounds_first.1)
          obtain ⟨stop, stop_eq⟩ := Nat.exists_eq_add_of_le
            (Nat.le_trans behind (Nat.le_trans bounds_last.1 (Nat.le_of_lt bounds_last.2.1)))
          have same := (ends_grown.read_eq start stop).trans (ends.read_eq start stop).symm
          rw [Nat.add_right_comm offset 1, Nat.add_right_comm offset 1, ← start_eq, ← stop_eq]
            at same
          simp only [Option.map_some, Word.relocate, Excerpt.relocate, Relocation.span,
            Relocation.insert_start_of_le (Nat.le_trans behind bounds_first.1),
            Relocation.insert_stop_of_lt
              (Nat.lt_of_le_of_lt (Nat.le_trans behind bounds_last.1) bounds_last.2.1), same]

/-- What a body means behind the new byte is one byte further on. -/
theorem Tag.ofBody_insert_of_ge (options : Options) (ordered : body.start ≤ body.stop)
    (behind : offset ≤ body.start) :
    ofBody options grown ⟨body.start + 1, body.stop + 1⟩ =
      (ofBody options source body).relocate (.insert offset) :=
  ofBody_relocate options (Word.split_insert_of_ge ends ends_grown ordered behind)
    (carried_insert_of_ge ends ends_grown ordered behind)

end Behind

/-! ### One more byte in a template -/

/-- The second text is the first one with a byte put in between two parts of it.  The byte is no
point, by which a word would be taken for a property. -/
structure Source.Insertion (left right source grown : Source) : Prop where
  /-- The part before the byte. -/
  begins : left.Begins source
  /-- It stays where it is. -/
  begins_grown : left.Begins grown
  /-- The part behind the byte. -/
  ends : right.Ends source left.size
  /-- It is one byte further on. -/
  ends_grown : right.Ends grown (left.size + 1)
  /-- The byte is no point. -/
  no_point : grown.byte? left.size ≠ some Byte.dot

section Insertion

variable {left right grown : Source} (inserted : Source.Insertion left right source grown)
  {piece grownPiece : Piece} (grows : piece.Grows source left.size grownPiece) (fits : piece.Fits)
include inserted grows fits

/-- The bodies of pieces have the same bytes with the new byte. -/
theorem Piece.Grows.slice_eq : grown.slice grownPiece.body = source.slice piece.body := by
  rcases grows.body with ⟨kept, before, -⟩ | ⟨moved, behind⟩
  · rw [kept, ← inserted.begins_grown.slice_eq before, inserted.begins.slice_eq before]
  · have ordered := fits.body_le
    obtain ⟨kind, span, ⟨_, _⟩, closed⟩ := piece
    obtain ⟨start, rfl⟩ := Nat.exists_eq_add_of_le behind
    obtain ⟨stop, rfl⟩ := Nat.exists_eq_add_of_le (Nat.le_trans behind ordered)
    rw [moved]
    dsimp only
    rw [Nat.add_right_comm _ start, Nat.add_right_comm _ stop, inserted.ends_grown.slice_eq,
      inserted.ends.slice_eq]

/-- Pieces mean the same with the new byte. -/
theorem Tag.ofPiece_grows (options : Options) :
    ofPiece options grown grownPiece =
      (ofPiece options source piece).relocate (.insert left.size) := by
  rw [ofPiece, ofPiece, grows.kind_eq]
  split
  · rfl
  · rfl
  · rfl
  · rcases grows.body with ⟨kept, before, follows⟩ | ⟨moved, behind⟩
    · have same := ofBody_of_begins options inserted.begins fits.body_le before
        fun reaches => reaches ▸ follows reaches
      have same_grown := ofBody_of_begins options inserted.begins_grown fits.body_le before
        fun reaches => reaches ▸ inserted.no_point
      rw [kept, ← same_grown, same, ofBody_insert_of_le options fits.body_le before]
    · rw [moved]
      exact ofBody_insert_of_ge inserted.ends inserted.ends_grown options fits.body_le behind

end Insertion

/-- So all pieces have what they had. -/
theorem Piece.contents_grows {left right grown : Source} {pieces grownPieces : List Piece}
    (inserted : Source.Insertion left right source grown)
    (grows : List.Forall₂ (Grows source left.size) pieces grownPieces)
    (fits : ∀ piece ∈ pieces, piece.Fits) :
    grownPieces.map (fun piece => (piece.kind, piece.closed, grown.slice piece.body)) =
      pieces.map fun piece => (piece.kind, piece.closed, source.slice piece.body) := by
  induction grows with
  | nil => rfl
  | cons first _ ih =>
      rw [List.forall_mem_cons] at fits
      rw [List.map_cons, List.map_cons, ih fits.2, first.kind_eq, first.closed_eq,
        first.slice_eq inserted fits.1]

end TwigTemplate
